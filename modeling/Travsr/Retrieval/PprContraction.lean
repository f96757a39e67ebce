import Travsr.Lib.DampedWalk
import Travsr.Retrieval.PprSubgraph

namespace Travsr.Retrieval.Ppr

open Travsr.Core Store Relational DampedWalk

/-! ### The walk of the subgraph -/

def flow (entry : NodeId × List (NodeId × ℚ)) (v : NodeId) : ℚ :=
  let totalWeight := (entry.2.map Prod.snd).sum
  if totalWeight = 0 then 0
  else ((entry.2.filter fun t => t.1 = v).map fun t => t.2 / totalWeight).sum

def walk (graph : Subgraph) : (NodeId → ℚ) →ₗ[ℚ] (NodeId → ℚ) where
  toFun x v := (graph.adj.rows.map fun entry => flow entry v * x entry.1).sum
  map_add' x y := by
    funext v
    show (graph.adj.rows.map fun entry => flow entry v * (x entry.1 + y entry.1)).sum = _ + _
    rw [← List.sum_map_add]
    exact congrArg List.sum (List.map_congr_left fun entry _ => mul_add _ _ _)
  map_smul' a x := by
    funext v
    show (graph.adj.rows.map fun entry => flow entry v * (a * x entry.1)).sum = a * _
    rw [← List.sum_map_mul_left]
    exact congrArg List.sum (List.map_congr_left fun entry _ => mul_left_comm _ _ _)

def support (personalization : Scores) (graph : Subgraph) : Finset NodeId :=
  (personalization.rows.map Prod.fst ++
    (graph.adj.rows.flatMap fun entry => entry.2.map Prod.fst) ++ graph.reverseAdj.rows).toFinset

/-- No edge has a negative weight. -/
def Weighted (graph : Subgraph) : Prop := ∀ entry ∈ graph.adj.rows, ∀ t ∈ entry.2, 0 ≤ t.2

variable {params : Params} {order : HashOrder} {p scores next : Scores} {graph : Subgraph}

theorem mem_support {v : NodeId} : v ∈ support p graph ↔
    p.Has v ∨ (∃ entry ∈ graph.adj.rows, ∃ t ∈ entry.2, t.1 = v) ∨ v ∈ graph.reverseAdj.rows := by
  rw [support, List.mem_toFinset, List.mem_append, List.mem_append, or_assoc, List.mem_map,
    List.mem_flatMap]
  simp only [List.mem_map]
  exact Iff.rfl

theorem Weighted.targets (h : Weighted graph) {u : NodeId} {t : NodeId × ℚ}
    (ht : t ∈ targets graph.adj u) : 0 ≤ t.2 := by
  unfold Ppr.targets at ht
  cases hf : graph.adj.find? u with
  | none =>
    rw [hf] at ht
    cases ht
  | some q =>
    rw [hf] at ht
    exact h q (Table.mem_of_find? hf).1 t ht

theorem Weighted.addEdge (h : Weighted graph) (e : Edge) : Weighted (addEdge graph e) := by
  rintro ⟨u, ts⟩ hp t ht
  have hmem : (u, ts) ∈ pushAdj graph.adj e.src (target e) := hp
  have hfind := Table.find?_of_mem hmem
  rw [find?_pushAdj] at hfind
  split_ifs at hfind with hs
  · have hts : Ppr.targets graph.adj u ++ [target e] = ts :=
      congrArg Prod.snd (Option.some.inj hfind)
    have ht' : t ∈ Ppr.targets graph.adj u ++ [target e] := hts ▸ ht
    rcases List.mem_append.mp ht' with ht' | ht'
    · exact h.targets ht'
    · obtain rfl := List.mem_singleton.mp ht'
      exact (EdgeKind.pprWeight_pos e.kind).le
  · exact h _ (Table.mem_of_find? hfind).1 t ht

theorem Weighted.expandChunk (h : Weighted graph) (r : Reader) (filter : EdgeFilter)
    (chunk : List NodeId) : Weighted (expandChunk r filter graph chunk) := by
  rw [Ppr.expandChunk]
  generalize hgrown : (r.iterEdgesFromBatch chunk).foldl (fun st e =>
    if gate filter (dstCorpora r filter (r.iterEdgesFromBatch chunk)) e then Ppr.addEdge st e
    else st) graph = grown
  have hg : Weighted grown := by
    rw [← hgrown]
    refine List.foldlRecOn _ _ (motive := fun st => Weighted st) h fun st hst e _ => ?_
    split_ifs
    · exact hst.addEdge e
    · exact hst
  rintro ⟨u, ts⟩ hp t ht
  have hfind := Table.find?_of_mem (t := chunk.foldl touchAdj grown.adj) hp
  rw [find?_foldl_touchAdj] at hfind
  split_ifs at hfind
  · have hts : Ppr.targets grown.adj u = ts := congrArg Prod.snd (Option.some.inj hfind)
    exact hg.targets (hts ▸ ht)
  · exact hg _ (Table.mem_of_find? hfind).1 t ht

theorem Weighted.expandChunks (r : Reader) (filter : EdgeFilter) (chunks : List (List NodeId))
    {st : Subgraph} (h : Weighted st) : Weighted (expandChunks r filter chunks st) := by
  induction chunks generalizing st with
  | nil => exact h
  | cons chunk chunks ih =>
    unfold Ppr.expandChunks
    simp only
    split_ifs
    · exact h.expandChunk r filter chunk
    · exact ih (h.expandChunk r filter chunk)

theorem Weighted.expandLevels (r : Reader) (filter : EdgeFilter) (left : Nat)
    {frontier : List NodeId} {st : Subgraph} (h : Weighted st) :
    Weighted (expandLevels r filter left frontier st) := by
  induction left generalizing frontier st with
  | zero => exact h
  | succ n ih =>
    have hempty : Weighted { st with nextFrontier := [] } := h
    unfold Ppr.expandLevels
    simp only
    split_ifs
    · exact h
    · exact hempty.expandChunks r filter _
    · exact ih (hempty.expandChunks r filter _)

theorem buildWeightedSubgraph_weighted (r : Reader) (filter : EdgeFilter) (seeds : List NodeId) :
    Weighted (buildWeightedSubgraph r filter seeds) := by
  unfold buildWeightedSubgraph
  exact Weighted.expandLevels r filter _ fun entry he => absurd he List.not_mem_nil

theorem flow_nonneg {entry : NodeId × List (NodeId × ℚ)} (hw : ∀ t ∈ entry.2, 0 ≤ t.2)
    (v : NodeId) : 0 ≤ flow entry v := by
  have htotal : 0 ≤ (entry.2.map Prod.snd).sum := List.sum_nonneg fun x hx => by
    obtain ⟨t, ht, rfl⟩ := List.mem_map.mp hx
    exact hw t ht
  rw [flow]
  split_ifs
  · exact le_rfl
  · refine List.sum_nonneg fun x hx => ?_
    obtain ⟨t, ht, rfl⟩ := List.mem_map.mp hx
    exact div_nonneg (hw t (List.mem_filter.mp ht).1) htotal

theorem sum_filter_keys {α : Type} (l : List (NodeId × α)) (g : NodeId × α → ℚ) (S : Finset NodeId)
    (hS : ∀ t ∈ l, t.1 ∈ S) :
    ∑ v ∈ S, ((l.filter fun t => t.1 = v).map g).sum = (l.map g).sum := by
  induction l with
  | nil => simp
  | cons t l ih =>
    obtain ⟨ht, hS⟩ := List.forall_mem_cons.mp hS
    have hcons : ∀ v, (((t :: l).filter fun t => t.1 = v).map g).sum =
        (if t.1 = v then g t else 0) + ((l.filter fun t => t.1 = v).map g).sum := by
      intro v
      by_cases h : t.1 = v
      · rw [if_pos h, List.filter_cons_of_pos (by simpa using h), List.map_cons, List.sum_cons]
      · rw [if_neg h, List.filter_cons_of_neg (by simpa using h), zero_add]
    rw [Finset.sum_congr rfl fun v _ => hcons v, Finset.sum_add_distrib, ih hS,
      Finset.sum_ite_eq, if_pos ht, List.map_cons, List.sum_cons]

theorem sum_flow_le (entry : NodeId × List (NodeId × ℚ)) {S : Finset NodeId}
    (hS : ∀ t ∈ entry.2, t.1 ∈ S) : ∑ v ∈ S, flow entry v ≤ 1 := by
  by_cases htotal : (entry.2.map Prod.snd).sum = 0
  · have hzero : ∀ v ∈ S, flow entry v = 0 := fun v _ => if_pos htotal
    rw [Finset.sum_eq_zero hzero]
    exact zero_le_one
  · have hflow : ∀ v ∈ S, flow entry v = ((entry.2.filter fun t => t.1 = v).map fun t =>
        t.2 / (entry.2.map Prod.snd).sum).sum := fun v _ => if_neg htotal
    rw [Finset.sum_congr rfl hflow, sum_filter_keys entry.2 _ S hS]
    simp only [div_eq_mul_inv]
    rw [List.sum_map_mul_right, mul_inv_cancel₀ htotal]

/-- The amounts a list of distinct keys is given, as a sum over any set that holds the keys the
amounts are not zero at. -/
theorem sum_rows_le {α : Type} (l : List (NodeId × α)) (hl : (l.map Prod.fst).Nodup)
    {S : Finset NodeId} {g : NodeId → ℚ} (hg : ∀ v, 0 ≤ g v) (hoff : ∀ v ∉ S, g v = 0) :
    (l.map fun e => g e.1).sum ≤ ∑ v ∈ S, g v := by
  have hkeys : (l.map fun e => g e.1).sum = ∑ v ∈ (l.map Prod.fst).toFinset, g v := by
    rw [List.sum_toFinset _ hl, List.map_map]
    rfl
  rw [hkeys]
  calc ∑ v ∈ (l.map Prod.fst).toFinset, g v
      ≤ ∑ v ∈ (l.map Prod.fst).toFinset ∪ S, g v :=
        Finset.sum_le_sum_of_subset_of_nonneg Finset.subset_union_left fun v _ _ => hg v
    _ = ∑ v ∈ S, g v :=
        (Finset.sum_subset Finset.subset_union_right fun v _ hv => hoff v hv).symm

theorem walk_substochastic (hw : Weighted graph) :
    Substochastic (support p graph) (walk graph) := by
  refine ⟨fun x hx v => ?_, fun x v hv => ?_, fun x hx => ?_⟩
  · refine List.sum_nonneg fun y hy => ?_
    obtain ⟨entry, he, rfl⟩ := List.mem_map.mp hy
    exact mul_nonneg (flow_nonneg (hw entry he) v) (hx _)
  · refine List.sum_eq_zero fun y hy => ?_
    obtain ⟨entry, he, rfl⟩ := List.mem_map.mp hy
    have hnone : entry.2.filter (fun t => t.1 = v) = [] := by
      refine List.filter_eq_nil_iff.mpr fun t ht htv => hv (mem_support.mpr (.inr (.inl ?_)))
      exact ⟨entry, he, t, ht, of_decide_eq_true htv⟩
    have hflow : flow entry v = 0 := by
      rw [flow, hnone]
      exact ite_self 0
    rw [hflow, zero_mul]
  · have hterm : ∀ v ∈ support p graph, |walk graph x v| ≤
        (graph.adj.rows.map fun entry => flow entry v * |x entry.1|).sum := by
      intro v _
      have habs := Multiset.abs_sum_le_sum_abs
        (s := Multiset.ofList (graph.adj.rows.map fun entry => flow entry v * x entry.1))
      rw [Multiset.map_coe, Multiset.sum_coe, Multiset.sum_coe, List.map_map] at habs
      refine habs.trans (le_of_eq ?_)
      refine congrArg List.sum (List.map_congr_left fun entry he => ?_)
      rw [Function.comp_apply, abs_mul, abs_of_nonneg (flow_nonneg (hw entry he) v)]
    have hswap : ∀ rows : List (NodeId × List (NodeId × ℚ)),
        ∑ v ∈ support p graph, (rows.map fun entry => flow entry v * |x entry.1|).sum =
          (rows.map fun entry => (∑ v ∈ support p graph, flow entry v) * |x entry.1|).sum := by
      intro rows
      induction rows with
      | nil => simp
      | cons entry rows ih =>
        simp only [List.map_cons, List.sum_cons]
        rw [Finset.sum_add_distrib, ih, Finset.sum_mul]
    calc mass (support p graph) (walk graph x)
        ≤ ∑ v ∈ support p graph,
            (graph.adj.rows.map fun entry => flow entry v * |x entry.1|).sum :=
          Finset.sum_le_sum hterm
      _ = (graph.adj.rows.map fun entry =>
            (∑ v ∈ support p graph, flow entry v) * |x entry.1|).sum := hswap _
      _ ≤ (graph.adj.rows.map fun entry => |x entry.1|).sum := by
          refine List.sum_le_sum fun entry he => ?_
          refine mul_le_of_le_one_left (abs_nonneg _) (sum_flow_le entry fun t ht => ?_)
          exact mem_support.mpr (.inr (.inl ⟨entry, he, t, ht, rfl⟩))
      _ ≤ ∑ v ∈ support p graph, |x v| :=
          sum_rows_le _ graph.adj.nodup (fun v => abs_nonneg _) fun v hv => by
            rw [hx v hv, abs_zero]

/-! ### The iteration on the scores -/

theorem value_foldl_touch (keys : List NodeId) (t : Scores) (v : NodeId) :
    (keys.foldl Tally.touch t).value v = t.value v := by
  induction keys generalizing t with
  | nil => rfl
  | cons k keys ih => rw [List.foldl_cons, ih, Tally.value_touch]

theorem has_foldl_touch (keys : List NodeId) (t : Scores) (v : NodeId) :
    (keys.foldl Tally.touch t).Has v ↔ v ∈ keys ∨ t.Has v := by
  induction keys generalizing t with
  | nil => simp
  | cons k keys ih =>
    rw [List.foldl_cons, ih, (Tally.touch_same_add t k).has, Tally.has_add, List.mem_cons]
    grind

theorem sum_spread (a : ℚ) (scores : Scores) (entry : NodeId × List (NodeId × ℚ)) (v : NodeId) :
    (((spread a scores entry).filter fun e => e.1 = v).map Prod.snd).sum =
      a * (flow entry v * scores.value entry.1) := by
  rw [spread, flow]
  by_cases htotal : (entry.2.map Prod.snd).sum = 0
  · rw [if_pos (Or.inr htotal), if_pos htotal, zero_mul, mul_zero]
    rfl
  · by_cases hscore : scores.value entry.1 = 0
    · rw [if_pos (Or.inl hscore), hscore, mul_zero, mul_zero]
      rfl
    · rw [if_neg (not_or.mpr ⟨hscore, htotal⟩), if_neg htotal, List.filter_map, List.map_map,
        ← List.sum_map_mul_right, ← List.sum_map_mul_left]
      refine congrArg List.sum (List.map_congr_left fun t _ => ?_)
      exact mul_assoc _ _ _

theorem iteration_value (site : Nat) (v : NodeId) :
    (iteration params order site p graph scores).value v =
      (1 - params.alpha) * p.value v + params.alpha * walk graph scores.value v := by
  rw [iteration, value_foldl_touch, Tally.value_addAll, Tally.value_addAll]
  have hempty : Tally.value (Table.empty : Scores) v = 0 := rfl
  have hteleport : ((((order.arrange site p.rows).map fun e => (e.1, (1 - params.alpha) * e.2)).filter
      fun e => e.1 = v).map Prod.snd).sum = (1 - params.alpha) * p.value v := by
    rw [List.filter_map, List.map_map, ← Tally.sum_filter_rows p v, ← List.sum_map_mul_left]
    exact (((order.perm site p.rows).filter _).map _).sum_eq
  have hspread : ((((order.arrange (site + 1) graph.adj.rows).flatMap
      (spread params.alpha scores)).filter fun e => e.1 = v).map Prod.snd).sum =
        params.alpha * walk graph scores.value v := by
    have hrows : ∀ rows : List (NodeId × List (NodeId × ℚ)),
        (((rows.flatMap (spread params.alpha scores)).filter fun e => e.1 = v).map Prod.snd).sum =
          params.alpha * (rows.map fun entry => flow entry v * scores.value entry.1).sum := by
      intro rows
      induction rows with
      | nil => simp
      | cons entry rows ih =>
        rw [List.flatMap_cons, List.filter_append, List.map_append, List.sum_append, ih, sum_spread,
          List.map_cons, List.sum_cons, mul_add]
    rw [hrows]
    exact congrArg _ ((order.perm (site + 1) graph.adj.rows).map _).sum_eq
  rw [hempty, zero_add, hteleport, hspread]

theorem has_iteration (site : Nat) {v : NodeId}
    (h : (iteration params order site p graph scores).Has v) : v ∈ support p graph := by
  rw [iteration, has_foldl_touch, Tally.has_addAll, Tally.has_addAll] at h
  rw [mem_support]
  rcases h with hrev | hspread | hteleport | hempty
  · exact .inr (.inr ((order.perm _ _).mem_iff.mp hrev))
  · obtain ⟨e, he, rfl⟩ := List.mem_map.mp hspread
    obtain ⟨entry, hentry, hsp⟩ := List.mem_flatMap.mp he
    rw [spread] at hsp
    split_ifs at hsp
    · cases hsp
    · obtain ⟨t, ht, rfl⟩ := List.mem_map.mp hsp
      exact .inr (.inl ⟨entry, (order.perm _ _).mem_iff.mp hentry, t, ht, rfl⟩)
  · obtain ⟨e, he, rfl⟩ := List.mem_map.mp hteleport
    obtain ⟨q, hq, rfl⟩ := List.mem_map.mp he
    have hmem : q ∈ p := (order.perm site p.rows).mem_iff.mp hq
    exact .inl ⟨q, hmem, rfl⟩
  · obtain ⟨r, hr, _⟩ := hempty
    exact absurd hr List.not_mem_nil

theorem delta_eq (site : Nat) (hn : ∀ v, next.Has v → v ∈ support p graph)
    (hs : ∀ v, scores.Has v → v ∈ support p graph) (h0 : ∀ v, 0 ≤ scores.value v) :
    delta order site next scores = mass (support p graph) (next.value - scores.value) := by
  have hsum : ∀ (l : List (NodeId × ℚ)) (g : NodeId → ℚ), (l.map Prod.fst).Nodup →
      (l.map fun e => g e.1).sum = ∑ v ∈ (l.map Prod.fst).toFinset, g v := by
    intro l g hl
    rw [List.sum_toFinset _ hl, List.map_map]
    rfl
  have hfirst : ((order.arrange site next.rows).map fun e => |e.2 - scores.value e.1|).sum =
      ∑ v ∈ (next.rows.map Prod.fst).toFinset, |next.value v - scores.value v| := by
    rw [((order.perm site next.rows).map _).sum_eq, ← hsum _ _ next.nodup]
    refine congrArg List.sum (List.map_congr_left fun e he => ?_)
    rw [Tally.value_of_mem he]
  have hsecond : (((order.arrange (site + 1) scores.rows).filter fun e => ¬ next.Has e.1).map
      Prod.snd).sum =
        ∑ v ∈ ((scores.rows.filter fun e => ¬ next.Has e.1).map Prod.fst).toFinset,
          |next.value v - scores.value v| := by
    rw [(((order.perm (site + 1) scores.rows).filter _).map _).sum_eq,
      ← hsum _ _ (scores.nodup.sublist (List.filter_sublist.map _))]
    refine congrArg List.sum (List.map_congr_left fun e he => ?_)
    obtain ⟨hm, hnot⟩ := List.mem_filter.mp he
    rw [Tally.value_of_not_has (of_decide_eq_true hnot), zero_sub, abs_neg, abs_of_nonneg (h0 _)]
    exact (Tally.value_of_mem hm).symm
  rw [delta, hfirst, hsecond, ← Finset.sum_union]
  · refine Finset.sum_subset (fun v hv => ?_) fun v _ hv => ?_
    · rcases Finset.mem_union.mp hv with hv | hv
      · exact hn v (List.mem_map.mp (List.mem_toFinset.mp hv))
      · obtain ⟨e, he, rfl⟩ := List.mem_map.mp (List.mem_toFinset.mp hv)
        exact hs _ (Table.has_of_mem (t := scores) (List.mem_filter.mp he).1)
    · have hnext : ¬ next.Has v := fun h =>
        hv (Finset.mem_union_left _ (List.mem_toFinset.mpr (List.mem_map.mpr h)))
      have hscores : ¬ scores.Has v := by
        rintro ⟨e, he, rfl⟩
        refine hv (Finset.mem_union_right _ (List.mem_toFinset.mpr (List.mem_map_of_mem ?_)))
        exact List.mem_filter.mpr ⟨he, decide_eq_true hnext⟩
      show |next.value v - scores.value v| = 0
      rw [Tally.value_of_not_has hnext, Tally.value_of_not_has hscores, sub_zero, abs_zero]
  · refine Finset.disjoint_left.mpr fun v hv hv' => ?_
    obtain ⟨e, he, rfl⟩ := List.mem_map.mp (List.mem_toFinset.mp hv')
    exact of_decide_eq_true (List.mem_filter.mp he).2 (List.mem_map.mp (List.mem_toFinset.mp hv))

/-! ### The loop -/

/-- `iterations_run`: one more for every pass of the loop. -/
def iterationsRun (params : Params) (order : HashOrder) (personalization : Scores)
    (graph : Subgraph) : Nat → Scores → Nat
  | 0, _ => 0
  | left + 1, scores =>
    let site := 5 * left + 3
    let next := iteration params order site personalization graph scores
    if delta order (site + 3) next scores < params.epsilon then 1
    else iterationsRun params order personalization graph left next + 1

/-- The scores after `t` passes, were the loop not left before. -/
def iterates (params : Params) (order : HashOrder) (personalization : Scores) (graph : Subgraph) :
    Nat → Scores
  | 0 => Tally.addAll Table.empty (order.arrange 2 personalization.rows)
  | t + 1 =>
    iteration params order (5 * (params.maxIterations - (t + 1)) + 3) personalization graph
      (iterates params order personalization graph t)

/-- The distance of the pass `t + 1` from the one before, as the loop measures it. -/
def gap (params : Params) (order : HashOrder) (personalization : Scores) (graph : Subgraph)
    (t : Nat) : ℚ :=
  delta order (5 * (params.maxIterations - (t + 1)) + 6)
    (iterates params order personalization graph (t + 1))
    (iterates params order personalization graph t)

theorem powerIterate_eq {left t : Nat} (h : left + t = params.maxIterations) :
    powerIterate params order p graph left (iterates params order p graph t) =
      iterates params order p graph
        (t + iterationsRun params order p graph left (iterates params order p graph t)) := by
  induction left generalizing t with
  | zero => rfl
  | succ left ih =>
    have hsite : params.maxIterations - (t + 1) = left := by omega
    have hnext : iteration params order (5 * left + 3) p graph (iterates params order p graph t) =
        iterates params order p graph (t + 1) := by
      rw [iterates, hsite]
    rw [powerIterate, iterationsRun, hnext]
    split_ifs
    · rfl
    · rw [ih (show left + (t + 1) = params.maxIterations by omega)]
      congr 1
      omega

/-- The loop is left before its last pass exactly if a pass before the last is close to the one
before it. -/
theorem iterationsRun_lt_iff {left t : Nat} (h : left + t = params.maxIterations) :
    iterationsRun params order p graph left (iterates params order p graph t) < left ↔
      ∃ j, j + 1 < left ∧ gap params order p graph (t + j) < params.epsilon := by
  induction left generalizing t with
  | zero => exact iff_of_false (Nat.not_lt_zero _) fun ⟨j, hj, _⟩ => absurd hj (Nat.not_lt_zero _)
  | succ left ih =>
    have hsite : params.maxIterations - (t + 1) = left := by omega
    have hnext : iteration params order (5 * left + 3) p graph (iterates params order p graph t) =
        iterates params order p graph (t + 1) := by
      rw [iterates, hsite]
    have hgap : delta order (5 * left + 3 + 3) (iterates params order p graph (t + 1))
        (iterates params order p graph t) = gap params order p graph t := by
      rw [gap, hsite]
    rw [iterationsRun, hnext, hgap]
    split_ifs with hlt
    · constructor
      · intro hleft
        exact ⟨0, by omega, hlt⟩
      · rintro ⟨j, hj, _⟩
        omega
    · rw [Nat.add_lt_add_iff_right, ih (show left + (t + 1) = params.maxIterations by omega)]
      constructor
      · rintro ⟨j, hj, hg⟩
        exact ⟨j + 1, by omega, by rwa [show t + (j + 1) = t + 1 + j by omega]⟩
      · rintro ⟨j, hj, hg⟩
        cases j with
        | zero => exact absurd hg hlt
        | succ j => exact ⟨j, by omega, by rwa [show t + 1 + j = t + (j + 1) by omega]⟩

theorem value_iterates (t : Nat) :
    (iterates params order p graph t).value = damped params.alpha (walk graph) p.value t := by
  induction t with
  | zero =>
    funext v
    have hempty : Tally.value (Table.empty : Scores) v = 0 := rfl
    rw [iterates, Tally.value_addAll, hempty, zero_add]
    show _ = p.value v
    rw [← Tally.sum_filter_rows p v]
    exact (((order.perm 2 p.rows).filter _).map _).sum_eq
  | succ t ih =>
    funext v
    rw [iterates, iteration_value, ih]
    rfl

theorem has_iterates (t : Nat) {v : NodeId} (h : (iterates params order p graph t).Has v) :
    v ∈ support p graph := by
  cases t with
  | zero =>
    rw [iterates, Tally.has_addAll] at h
    rcases h with h | ⟨r, hr, _⟩
    · obtain ⟨e, he, rfl⟩ := List.mem_map.mp h
      exact mem_support.mpr (.inl ⟨e, (order.perm 2 p.rows).mem_iff.mp he, rfl⟩)
    · exact absurd hr List.not_mem_nil
  | succ t => exact has_iteration _ h

section Teleport

variable (hα : 0 < params.alpha) (hα1 : params.alpha < 1) (hw : Weighted graph)
  (hp : ∀ e ∈ p.rows, 0 ≤ e.2)

theorem value_nonneg {t : Scores} (h : ∀ e ∈ t.rows, 0 ≤ e.2) (v : NodeId) : 0 ≤ t.value v := by
  by_cases hv : t.Has v
  · obtain ⟨e, he, rfl⟩ := hv
    rw [Tally.value_of_mem he]
    exact h e he
  · rw [Tally.value_of_not_has hv]

theorem value_off {t : Scores} (h : ∀ v, t.Has v → v ∈ support p graph) :
    ∀ v ∉ support p graph, t.value v = 0 := fun v hv =>
  Tally.value_of_not_has fun hhas => hv (h v hhas)

theorem sum_rows {t : Scores} (h : ∀ v, t.Has v → v ∈ support p graph) :
    (t.rows.map Prod.snd).sum = ∑ v ∈ support p graph, t.value v := by
  have hrows : (t.rows.map Prod.snd).sum = ∑ v ∈ (t.rows.map Prod.fst).toFinset, t.value v := by
    rw [List.sum_toFinset _ t.nodup, List.map_map]
    refine congrArg List.sum (List.map_congr_left fun e he => ?_)
    exact (Tally.value_of_mem he).symm
  rw [hrows]
  refine Finset.sum_subset (fun v hv => h v (List.mem_map.mp (List.mem_toFinset.mp hv))) ?_
  exact fun v _ hv => Tally.value_of_not_has fun hhas =>
    hv (List.mem_toFinset.mpr (List.mem_map.mpr hhas))

include hα hα1 hw hp

theorem gap_eq (t : Nat) : gap params order p graph t = mass (support p graph)
    (damped params.alpha (walk graph) p.value (t + 1) -
      damped params.alpha (walk graph) p.value t) := by
  rw [gap, delta_eq _ (fun v => has_iterates (t + 1)) (fun v => has_iterates t),
    value_iterates, value_iterates]
  rw [value_iterates]
  exact (walk_substochastic (p := p) hw).damped_nonneg hα.le hα1.le (value_nonneg hp) t

/-- Every iterate is non-negative and holds no more than the teleport distribution, the distance
of successive iterates shrinks by `alpha`, and the loop is left before the cap exactly if the
undamped walk from the distribution has settled by then. -/
theorem powerIterate_contracts_iff (hsum : (p.rows.map Prod.snd).sum = 1) :
    (∀ t, (∀ e ∈ (iterates params order p graph t).rows, 0 ≤ e.2) ∧
      ((iterates params order p graph t).rows.map Prod.snd).sum ≤ 1) ∧
    (∀ t, gap params order p graph (t + 1) ≤ params.alpha * gap params order p graph t) ∧
    (iterationsRun params order p graph params.maxIterations (iterates params order p graph 0) <
        params.maxIterations ↔
      2 ≤ params.maxIterations ∧
        params.alpha ^ (params.maxIterations - 1) * mass (support p graph)
          ((walk graph)^[params.maxIterations - 1] p.value -
            (walk graph)^[params.maxIterations - 2] p.value) < params.epsilon) := by
  have hsub := walk_substochastic (p := p) hw
  have hoff : ∀ v ∉ support p graph, p.value v = 0 :=
    value_off fun v hv => mem_support.mpr (.inl hv)
  have hgap := @gap_eq params order p graph hα hα1 hw hp
  refine ⟨fun t => ⟨fun e he => ?_, ?_⟩, fun t => ?_, ?_⟩
  · have hn := hsub.damped_nonneg hα.le hα1.le (value_nonneg hp) t e.1
    rwa [← @value_iterates params order, Tally.value_of_mem he] at hn
  · rw [sum_rows fun v => has_iterates t, value_iterates, ← hsum,
      sum_rows fun v hv => mem_support.mpr (.inl hv)]
    exact hsub.sum_damped_le hα.le hα1.le (value_nonneg hp) hoff t
  · rw [hgap, hgap]
    exact hsub.mass_damped_sub_succ hα.le hoff t
  · rw [iterationsRun_lt_iff (Nat.add_zero _), ← hsub.exists_step_lt_iff hα.le hα1.le hoff]
    simp only [Nat.zero_add, hgap]

end Teleport

/-! ### Two functions that call each other -/

def mutualStore : SqliteStore where
  __ := openStore
  edges := ⟨[⟨1, 2, .refCall, "scip", none⟩, ⟨2, 1, .refCall, "scip", none⟩], by decide⟩

def mutualGraph : Subgraph := buildWeightedSubgraph (Reader.scan mutualStore) openFilter [1]

def oneSeed : Scores := ⟨[(1, 1)], by decide⟩

def insertionOrder : HashOrder := ⟨fun _ l => l, fun _ l => List.Perm.refl l⟩

theorem mutualGraph_weighted : Weighted mutualGraph := buildWeightedSubgraph_weighted _ _ _

theorem powerIterate_contracts_mutual :
    0 < Params.default.alpha ∧ Params.default.alpha < 1 ∧ Weighted mutualGraph ∧
      (iterationsRun .default insertionOrder oneSeed mutualGraph 50
          (iterates .default insertionOrder oneSeed mutualGraph 0) < 50 ↔
        2 ≤ 50 ∧ Params.default.alpha ^ 49 * mass (support oneSeed mutualGraph)
          ((walk mutualGraph)^[49] oneSeed.value - (walk mutualGraph)^[48] oneSeed.value) <
            Params.default.epsilon) := by
  have h0 : 0 < Params.default.alpha := by decide +kernel
  have h1 : Params.default.alpha < 1 := by decide +kernel
  exact ⟨h0, h1, mutualGraph_weighted, (@powerIterate_contracts_iff .default insertionOrder oneSeed
    mutualGraph h0 h1 mutualGraph_weighted (by decide +kernel) (by decide +kernel)).2.2⟩

/-- All fifty passes are made. -/
theorem mutual_not_converged :
    ¬ iterationsRun .default insertionOrder oneSeed mutualGraph Params.default.maxIterations
      (iterates .default insertionOrder oneSeed mutualGraph 0) < Params.default.maxIterations := by
  decide +kernel

end Travsr.Retrieval.Ppr
