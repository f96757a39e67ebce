import Travsr.Retrieval.PprSubgraph

namespace Travsr.Retrieval.Ppr

open Travsr.Core Store Relational

/-! ### Iteration order does not change the scores -/

section Order

variable {params : Params} {order order' : HashOrder}

theorem HashOrder.perm_of_same (order order' : HashOrder) (site site' : Nat) {ρ κ : Type}
    {key : ρ → κ} {t u : Table ρ key} (h : t.Same u) :
    (order.arrange site t.rows).Perm (order'.arrange site' u.rows) :=
  (order.perm site _).trans (h.perm.trans (order'.perm site' _).symm)

theorem foldl_touch_same (ks : List NodeId) {t u : Scores} (h : Table.Same t u) :
    Table.Same (ks.foldl Tally.touch t) (u.addAll (ks.map (fun k => (k, 0)))) := by
  induction ks generalizing t u with
  | nil => exact h
  | cons k ks ih =>
    rw [List.foldl_cons, List.map_cons]
    change Table.Same _ ((u.add k 0).addAll _)
    exact ih ((Tally.touch_same_add t k).trans (Tally.add_congr h k 0))

/-- Two subgraphs that hold the same entries. -/
structure SameGraph (g g' : Subgraph) : Prop where
  adj : g.adj.Same g'.adj
  reverseAdj : g.reverseAdj.Same g'.reverseAdj

theorem iteration_same (site site' : Nat) {p p' scores scores' : Scores} {g g' : Subgraph}
    (hp : Table.Same p p') (hg : SameGraph g g') (hs : Table.Same scores scores') :
    Table.Same (iteration params order site p g scores)
      (iteration params order' site' p' g' scores') := by
  unfold iteration
  simp only
  have hspread : spread params.alpha scores = spread params.alpha scores' := by
    funext entry
    unfold spread
    rw [Tally.value_congr hs]
  have hteleport := (HashOrder.perm_of_same order order' site site' hp).map
    (fun p => (p.1, (1 - params.alpha) * p.2))
  have hpropagate := (HashOrder.perm_of_same order order' (site + 1) (site' + 1) hg.adj).flatMap_right
    (spread params.alpha scores)
  have htouch := (HashOrder.perm_of_same order order' (site + 2) (site' + 2) hg.reverseAdj).map
    (fun k => ((k, 0) : NodeId × ℚ))
  have hbefore := Tally.addAll_perm hpropagate
    (Tally.addAll_perm hteleport (Table.Same.refl (Table.empty : Scores)))
  rw [← hspread]
  refine (foldl_touch_same _ hbefore).trans ?_
  refine (Tally.addAll_perm htouch (Table.Same.refl _)).trans ?_
  exact (foldl_touch_same _ (Table.Same.refl _)).symm

theorem delta_same (site site' : Nat) {next next' scores scores' : Scores}
    (hn : Table.Same next next') (hs : Table.Same scores scores') :
    delta order site next scores = delta order' site' next' scores' := by
  unfold delta
  have hvalue : scores.value = scores'.value := funext (Tally.value_congr hs)
  have hhas : (fun p : NodeId × ℚ => decide (¬ next.Has p.1)) =
      fun p => decide (¬ next'.Has p.1) := by
    funext p
    simp only [hn.has]
  rw [hvalue, hhas]
  congr 1
  · exact ((HashOrder.perm_of_same order order' site site' hn).map _).sum_eq
  · exact (((HashOrder.perm_of_same order order' (site + 1) (site' + 1) hs).filter _).map _).sum_eq

theorem powerIterate_same {p p' : Scores} {g g' : Subgraph} (hp : Table.Same p p')
    (hg : SameGraph g g') (left : Nat) {scores scores' : Scores}
    (hs : Table.Same scores scores') :
    Table.Same (powerIterate params order p g left scores)
      (powerIterate params order' p' g' left scores') := by
  induction left generalizing scores scores' with
  | zero => exact hs
  | succ n ih =>
    have hnext := @iteration_same params order order'
      (5 * n + 3) (5 * n + 3) _ _ _ _ _ _ hp hg hs
    unfold powerIterate
    simp only
    rw [@delta_same order order' (5 * n + 3 + 3) (5 * n + 3 + 3) _ _ _ _ hnext hs]
    split_ifs
    · exact hnext
    · exact ih hnext

theorem ranks_antisymm {a b : NodeId × ℚ} (hab : ranks a b) (hba : ranks b a) : a = b := by
  rcases hab with h | ⟨h, h'⟩
  · rcases hba with g | ⟨g, _⟩
    · exact absurd (h.trans g) (lt_irrefl _)
    · exact absurd (g ▸ h) (lt_irrefl _)
  · rcases hba with g | ⟨_, g'⟩
    · exact absurd (h ▸ g) (lt_irrefl _)
    · exact Prod.ext (le_antisymm h' g') h

instance : IsTrans (NodeId × ℚ) ranks where
  trans a b c hab hbc := by
    rcases hab with h | ⟨h, h'⟩
    · rcases hbc with g | ⟨g, _⟩
      · exact .inl (g.trans h)
      · exact .inl (g ▸ h)
    · rcases hbc with g | ⟨g, g'⟩
      · exact .inl (h ▸ g)
      · exact .inr ⟨h.trans g, h'.trans g'⟩

instance : Std.Total ranks where
  total a b := by
    unfold ranks
    rcases lt_trichotomy a.2 b.2 with h | h | h
    · exact .inr (.inl h)
    · rcases le_total a.1 b.1 with g | g
      · exact .inl (.inr ⟨h, g⟩)
      · exact .inr (.inr ⟨h.symm, g⟩)
    · exact .inl (.inl h)

theorem sort_ranks_perm {l l' : List (NodeId × ℚ)} (h : l.Perm l') :
    l.insertionSort ranks = l'.insertionSort ranks := by
  refine List.Perm.eq_of_pairwise (fun _ _ _ _ => ranks_antisymm)
    (List.pairwise_insertionSort ranks l) (List.pairwise_insertionSort ranks l') ?_
  exact (List.perm_insertionSort ranks l).trans
    (h.trans (List.perm_insertionSort ranks l').symm)

end Order

/-! ### No step reaches a denied node -/

section Confinement

variable {f : RbacFilter} {r : Reader}

/-- Every node the subgraph mentions as a destination is permitted. -/
structure Confined (f : RbacFilter) (r : Reader) (st : Subgraph) : Prop where
  adj : ∀ p ∈ st.adj.rows, ∀ t ∈ p.2, f.Permits r t.1
  reverseAdj : ∀ v ∈ st.reverseAdj.rows, f.Permits r v
  frontier : ∀ v ∈ st.nextFrontier, f.Permits r v

theorem Confined.targets {st : Subgraph} (h : Confined f r st) {u : NodeId} {t : NodeId × ℚ}
    (ht : t ∈ targets st.adj u) : f.Permits r t.1 := by
  unfold Ppr.targets at ht
  cases hf : st.adj.find? u with
  | none =>
    rw [hf] at ht
    cases ht
  | some q =>
    rw [hf] at ht
    exact h.adj q (Table.mem_of_find? hf).1 t ht

theorem Confined.touchAdj {st : Subgraph} (h : Confined f r st) (chunk : List NodeId) :
    Confined f r { st with adj := chunk.foldl touchAdj st.adj } := by
  refine ⟨?_, h.reverseAdj, h.frontier⟩
  rintro ⟨u, ts⟩ hp t ht
  have hfind := Table.find?_of_mem (t := chunk.foldl Ppr.touchAdj st.adj) hp
  rw [find?_foldl_touchAdj] at hfind
  split_ifs at hfind with hc
  · have hts : Ppr.targets st.adj u = ts := congrArg Prod.snd (Option.some.inj hfind)
    exact h.targets (hts ▸ ht)
  · exact h.adj _ (Table.mem_of_find? hfind).1 t ht

theorem Confined.addEdge {st : Subgraph} (h : Confined f r st) {e : Edge}
    (he : f.Permits r e.dst) : Confined f r (addEdge st e) := by
  refine ⟨?_, ?_, ?_⟩
  · rintro ⟨u, ts⟩ hp t ht
    have hfind := Table.find?_of_mem (t := pushAdj st.adj e.src (target e)) hp
    rw [find?_pushAdj] at hfind
    split_ifs at hfind with hs
    · have hts : Ppr.targets st.adj u ++ [target e] = ts :=
        congrArg Prod.snd (Option.some.inj hfind)
      have ht' : t ∈ Ppr.targets st.adj u ++ [target e] := hts ▸ ht
      rcases List.mem_append.mp ht' with ht' | ht'
      · exact h.targets ht'
      · obtain rfl := List.mem_singleton.mp ht'
        exact he
    · exact h.adj _ (Table.mem_of_find? hfind).1 t ht
  · intro v hv
    have hv' : v ∈ st.reverseAdj.insertIgnore e.dst := hv
    rw [Table.mem_insertIgnore] at hv'
    rcases hv' with hv' | ⟨rfl, _⟩
    · exact h.reverseAdj v hv'
    · exact he
  · intro v hv
    have hv' : v ∈ (visit (st.visited, st.nextFrontier) e.dst).2 := hv
    unfold visit at hv'
    split_ifs at hv' with hs
    · exact h.frontier v hv'
    · rcases List.mem_append.mp hv' with hv' | hv'
      · exact h.frontier v hv'
      · obtain rfl := List.mem_singleton.mp hv'
        exact he

theorem Confined.expandChunk {st : Subgraph} (h : Confined f r st) (chunk : List NodeId) :
    Confined f r (expandChunk r f.toEdgeFilter st chunk) := by
  rw [expandChunk_eq]
  refine Confined.touchAdj ?_ chunk
  refine List.foldlRecOn _ _ (motive := fun st' => Confined f r st') h ?_
  intro st' hst' e he
  exact hst'.addEdge (by simpa using (List.mem_filter.mp he).2)

theorem Confined.expandChunks (chunks : List (List NodeId)) {st : Subgraph}
    (h : Confined f r st) : Confined f r (expandChunks r f.toEdgeFilter chunks st) := by
  induction chunks generalizing st with
  | nil => exact h
  | cons chunk chunks ih =>
    unfold Ppr.expandChunks
    simp only
    split_ifs
    · exact h.expandChunk chunk
    · exact ih (h.expandChunk chunk)

theorem Confined.expandLevels (left : Nat) {frontier : List NodeId} {st : Subgraph}
    (h : Confined f r st) : Confined f r (expandLevels r f.toEdgeFilter left frontier st) := by
  induction left generalizing frontier st with
  | zero => exact h
  | succ n ih =>
    have hempty : Confined f r { st with nextFrontier := [] } :=
      ⟨h.adj, h.reverseAdj, fun v hv => absurd hv List.not_mem_nil⟩
    unfold Ppr.expandLevels
    simp only
    split_ifs
    · exact h
    · exact hempty.expandChunks _
    · exact ih (hempty.expandChunks _)

theorem buildWeightedSubgraph_confined (seeds : List NodeId) :
    Confined f r (buildWeightedSubgraph r f.toEdgeFilter seeds) := by
  unfold buildWeightedSubgraph
  refine Confined.expandLevels _ ⟨?_, ?_, ?_⟩
  · intro p hp
    exact absurd hp List.not_mem_nil
  · intro v hv
    exact absurd hv List.not_mem_nil
  · intro v hv
    exact absurd hv List.not_mem_nil

def Scored (f : RbacFilter) (r : Reader) (scores : Scores) : Prop :=
  ∀ id, scores.Has id → f.Permits r id

theorem Scored.addAll {scores : Scores} (h : Scored f r scores) {es : List (NodeId × ℚ)}
    (hes : ∀ e ∈ es, f.Permits r e.1) : Scored f r (scores.addAll es) := by
  intro id hid
  rw [Tally.has_addAll] at hid
  rcases hid with hid | hid
  · obtain ⟨e, he, rfl⟩ := List.mem_map.mp hid
    exact hes e he
  · exact h id hid

theorem scored_empty : Scored f r (Table.empty : Scores) := by
  rintro id ⟨p, hp, _⟩
  exact absurd hp (Table.not_mem_empty p)

theorem Scored.iteration {params : Params} {order : HashOrder} {site : Nat} {p scores : Scores}
    {g : Subgraph} (hp : Scored f r p) (hg : Confined f r g) :
    Scored f r (iteration params order site p g scores) := by
  unfold Ppr.iteration
  simp only
  have hteleport : Scored f r (Tally.addAll Table.empty
      ((order.arrange site p.rows).map (fun q => (q.1, (1 - params.alpha) * q.2)))) := by
    refine scored_empty.addAll ?_
    intro e he
    obtain ⟨q, hq, rfl⟩ := List.mem_map.mp he
    exact hp q.1 (Table.has_of_mem ((order.perm site _).mem_iff.mp hq))
  have hpropagate : Scored f r (Tally.addAll (Tally.addAll Table.empty
      ((order.arrange site p.rows).map (fun q => (q.1, (1 - params.alpha) * q.2))))
      ((order.arrange (site + 1) g.adj.rows).flatMap (spread params.alpha scores))) := by
    refine hteleport.addAll ?_
    intro e he
    obtain ⟨entry, hentry, hmem⟩ := List.mem_flatMap.mp he
    unfold spread at hmem
    simp only at hmem
    split_ifs at hmem with hz
    · cases hmem
    · obtain ⟨t, ht, rfl⟩ := List.mem_map.mp hmem
      exact hg.adj entry ((order.perm (site + 1) _).mem_iff.mp hentry) t ht
  intro id hid
  rw [(foldl_touch_same _ (Table.Same.refl _)).has] at hid
  refine hpropagate.addAll ?_ id hid
  intro e he
  obtain ⟨k, hk, rfl⟩ := List.mem_map.mp he
  exact hg.reverseAdj k ((order.perm (site + 2) _).mem_iff.mp hk)

theorem Scored.powerIterate {params : Params} {order : HashOrder} {p : Scores} {g : Subgraph}
    (hp : Scored f r p) (hg : Confined f r g) (left : Nat) {scores : Scores}
    (h : Scored f r scores) : Scored f r (powerIterate params order p g left scores) := by
  induction left generalizing scores with
  | zero => exact h
  | succ n ih =>
    unfold Ppr.powerIterate
    simp only
    split_ifs
    · exact hp.iteration hg
    · exact ih (hp.iteration hg)

theorem mem_of_mem_truncate {k : Nat} {l : List (NodeId × ℚ)} {p : NodeId × ℚ}
    (h : p ∈ truncate k l) : p ∈ l := by
  unfold truncate at h
  split_ifs at h
  · exact List.mem_of_mem_take h
  · exact h

theorem pprInner_permitted {params : Params} {order : HashOrder} {personalization : Scores}
    (hp : Scored f r personalization) {k : Nat} {q : NodeId × ℚ}
    (hq : q ∈ pprInner params order r personalization k f.toEdgeFilter) :
    f.Permits r q.1 := by
  have hrow : ∀ p ∈ personalization.rows, f.Permits r p.1 := fun p hmem =>
    hp p.1 (Table.has_of_mem hmem)
  unfold pprInner at hq
  simp only at hq
  split_ifs at hq with hnone hempty
  · cases hq
  · have hm := (List.mem_insertionSort _).mp (mem_of_mem_truncate hq)
    exact hrow q ((order.perm 1 _).mem_iff.mp hm)
  · have hm := (List.mem_insertionSort _).mp (mem_of_mem_truncate hq)
    have hinitial : Scored f r (Tally.addAll Table.empty
        (order.arrange 2 personalization.rows)) := by
      refine scored_empty.addAll ?_
      intro e he
      exact hrow e ((order.perm 2 _).mem_iff.mp he)
    exact hp.powerIterate (buildWeightedSubgraph_confined _) params.maxIterations hinitial q.1
      (Table.has_of_mem ((order.perm _ _).mem_iff.mp hm))

end Confinement

/-! ### Two stores with the same permitted part -/

section TwoRuns

variable {f : RbacFilter} {r₁ r₂ : Reader}

/-- The batch queries, too, return the permitted rows in one order on both stores. -/
def SameBatches (f : RbacFilter) (r₁ r₂ : Reader) : Prop :=
  ∀ us, (∀ u ∈ us, f.Permits r₁ u) → permittedEdges f r₁ us = permittedEdges f r₂ us

theorem mem_chunk_permits {chunks : List (List NodeId)} {chunk : List NodeId}
    (h : ∀ u ∈ chunks.flatten, f.Permits r₁ u) (hc : chunk ∈ chunks) :
    ∀ u ∈ chunk, f.Permits r₁ u := fun u hu => h u (List.mem_flatten.mpr ⟨chunk, hc, hu⟩)

theorem expandChunks_eq (hb : SameBatches f r₁ r₂) (chunks : List (List NodeId))
    (h : ∀ u ∈ chunks.flatten, f.Permits r₁ u) (st : Subgraph) :
    expandChunks r₁ f.toEdgeFilter chunks st = expandChunks r₂ f.toEdgeFilter chunks st := by
  induction chunks generalizing st with
  | nil => rfl
  | cons chunk chunks ih =>
    have hchunk := mem_chunk_permits h List.mem_cons_self
    have hrest : ∀ u ∈ chunks.flatten, f.Permits r₁ u := fun u hu =>
      h u (List.mem_append_right _ hu)
    unfold expandChunks
    simp only [expandChunk_eq, hb chunk hchunk, ih hrest]

theorem expandLevels_eq (hb : SameBatches f r₁ r₂) (left : Nat) {frontier : List NodeId}
    (hf : ∀ u ∈ frontier, f.Permits r₁ u) {st : Subgraph} (hst : Confined f r₁ st) :
    expandLevels r₁ f.toEdgeFilter left frontier st =
      expandLevels r₂ f.toEdgeFilter left frontier st := by
  induction left generalizing frontier st with
  | zero => rfl
  | succ n ih =>
    have hflat : ∀ u ∈ (chunksFrom edgeBatchSize [] frontier).flatten, f.Permits r₁ u := by
      rw [chunksFrom_flatten, List.nil_append]
      exact hf
    have hempty : Confined f r₁ { st with nextFrontier := [] } :=
      ⟨hst.adj, hst.reverseAdj, fun v hv => absurd hv List.not_mem_nil⟩
    have hgrown := hempty.expandChunks (chunksFrom edgeBatchSize [] frontier)
    unfold expandLevels
    simp only [← expandChunks_eq hb _ hflat]
    rw [ih hgrown.frontier hgrown]

theorem buildWeightedSubgraph_eq (hb : SameBatches f r₁ r₂) {seeds : List NodeId}
    (hseeds : ∀ s ∈ seeds, f.Permits r₁ s) :
    buildWeightedSubgraph r₁ f.toEdgeFilter seeds =
      buildWeightedSubgraph r₂ f.toEdgeFilter seeds := by
  obtain ⟨h1, _, h3⟩ := foldl_visit seeds (∅, []) List.nodup_nil (by simp)
  unfold buildWeightedSubgraph
  refine expandLevels_eq hb _ ?_ ⟨?_, ?_, ?_⟩
  · intro u hu
    rw [h3, h1] at hu
    exact hseeds u (by simpa using hu)
  · intro p hp
    exact absurd hp List.not_mem_nil
  · intro v hv
    exact absurd hv List.not_mem_nil
  · intro v hv
    exact absurd hv List.not_mem_nil

theorem outgoing_eq (h : f.SamePermitted r₁ r₂) {u : NodeId} (hu : f.Permits r₁ u) :
    outgoing f r₁ u = outgoing f r₂ u := by
  unfold outgoing
  rw [h.edgesFrom u hu]

theorem neighbours_permitted {s : Finset NodeId} {v : NodeId} (hv : v ∈ neighbours f r₁ s) :
    f.Permits r₁ v := by
  simp only [neighbours, Finset.mem_biUnion, List.mem_toFinset, outgoing, List.map_map,
    List.mem_map, List.mem_filter] at hv
  obtain ⟨u, _, e, ⟨_, he⟩, rfl⟩ := hv
  simpa [target] using he

theorem neighbours_eq (h : f.SamePermitted r₁ r₂) {s : Finset NodeId}
    (hs : ∀ u ∈ s, f.Permits r₁ u) : neighbours f r₁ s = neighbours f r₂ s := by
  unfold neighbours
  apply Finset.biUnion_congr rfl
  intro u hu
  rw [outgoing_eq h (hs u hu)]

theorem reach_permitted {seeds : Finset NodeId} (hs : ∀ u ∈ seeds, f.Permits r₁ u) (d : Nat) :
    ∀ u ∈ reach f r₁ seeds d, f.Permits r₁ u := by
  induction d with
  | zero => exact hs
  | succ n ih =>
    intro u hu
    rcases Finset.mem_union.mp hu with hu | hu
    · exact ih u hu
    · exact neighbours_permitted hu

theorem reach_eq (h : f.SamePermitted r₁ r₂) {seeds : Finset NodeId}
    (hs : ∀ u ∈ seeds, f.Permits r₁ u) (d : Nat) :
    reach f r₁ seeds d = reach f r₂ seeds d := by
  induction d with
  | zero => rfl
  | succ n ih =>
    unfold reach
    rw [← ih, neighbours_eq h (reach_permitted hs n)]

/-- Below the ceiling the two subgraphs hold the same entries, in whatever order the seeds and
the rows of a batch come. -/
theorem buildWeightedSubgraph_same (h : f.SamePermitted r₁ r₂) {seeds seeds' : List NodeId}
    (hperm : seeds.Perm seeds') (hseeds : ∀ s ∈ seeds, f.Permits r₁ s)
    (hceil : (reach f r₁ seeds.toFinset pprBfsDepth).card < maxSubgraphNodes) :
    SameGraph (buildWeightedSubgraph r₁ f.toEdgeFilter seeds)
      (buildWeightedSubgraph r₂ f.toEdgeFilter seeds') := by
  have hset : seeds'.toFinset = seeds.toFinset := (List.toFinset_eq_of_perm _ _ hperm).symm
  have hs : ∀ u ∈ seeds.toFinset, f.Permits r₁ u := fun u hu =>
    hseeds u (List.mem_toFinset.mp hu)
  have h₁ := buildWeightedSubgraph_records seeds hceil
  have h₂ := buildWeightedSubgraph_records (f := f) (r := r₂) seeds'
    (by rw [hset, ← reach_eq h hs]; exact hceil)
  rw [hset, ← reach_eq h hs] at h₂
  have hp := reach_permitted hs 5
  constructor
  · apply Table.same_of_find?
    intro u
    rw [h₁.adj, h₂.adj]
    split_ifs with hu
    · rw [outgoing_eq h (hp u hu)]
    · rfl
  · intro v
    rw [h₁.reverseAdj, h₂.reverseAdj, neighbours_eq h hp]

theorem isEmpty_rows_congr {ρ κ : Type} {key : ρ → κ} {t u : Table ρ key} (h : t.Same u) :
    t.rows.isEmpty = u.rows.isEmpty := by
  rw [Bool.eq_iff_iff, List.isEmpty_iff, List.isEmpty_iff]
  constructor
  · intro ht
    exact List.eq_nil_of_length_eq_zero (by rw [← h.perm.length_eq, ht]; rfl)
  · intro hu
    exact List.eq_nil_of_length_eq_zero (by rw [h.perm.length_eq, hu]; rfl)

/-- The three facts of noninterference for one query: with one iteration order the two
stores give one list; below the ceiling they do so whatever the orders are; and the list
holds permitted nodes only. -/
structure Noninterferent (f : RbacFilter) (r₁ r₂ : Reader) (seeds : Finset NodeId)
    (query : HashOrder → Reader → List (NodeId × ℚ)) : Prop where
  sameOrder : ∀ order, SameBatches f r₁ r₂ → query order r₁ = query order r₂
  anyOrder : ∀ order order', (reach f r₁ seeds pprBfsDepth).card < maxSubgraphNodes →
    query order r₁ = query order' r₂
  permitted : ∀ order, ∀ p ∈ query order r₁, f.Permits r₁ p.1

theorem pprInner_noninterferent (h : f.SamePermitted r₁ r₂) (params : Params)
    (personalization : Scores) (hp : Scored f r₁ personalization) (k : Nat) :
    Noninterferent f r₁ r₂ (personalization.rows.map Prod.fst).toFinset
      (fun order r => pprInner params order r personalization k f.toEdgeFilter) := by
  have hkeys : ∀ s ∈ personalization.rows.map Prod.fst, f.Permits r₁ s := by
    intro s hs
    obtain ⟨p, hmem, rfl⟩ := List.mem_map.mp hs
    exact hp p.1 (Table.has_of_mem hmem)
  have hseeds : ∀ order : HashOrder,
      ∀ s ∈ order.arrange 0 (personalization.rows.map Prod.fst), f.Permits r₁ s :=
    fun order s hs => hkeys s ((order.perm 0 _).mem_iff.mp hs)
  refine ⟨?_, ?_, fun order p hmem => pprInner_permitted hp hmem⟩
  · intro order hb
    unfold pprInner
    simp only [← buildWeightedSubgraph_eq hb (hseeds order)]
  · intro order order' hceil
    have hset : (order.arrange 0 (personalization.rows.map Prod.fst)).toFinset =
        (personalization.rows.map Prod.fst).toFinset :=
      List.toFinset_eq_of_perm _ _ (order.perm 0 _)
    have hperm : (order.arrange 0 (personalization.rows.map Prod.fst)).Perm
        (order'.arrange 0 (personalization.rows.map Prod.fst)) :=
      (order.perm 0 _).trans (order'.perm 0 _).symm
    rw [← hset] at hceil
    have hg := buildWeightedSubgraph_same h hperm (hseeds order) hceil
    have hrecords := buildWeightedSubgraph_records _ hceil
    unfold pprInner
    simp only [← isEmpty_rows_congr hg.adj]
    split_ifs with hnone hempty
    · rfl
    · -- the subgraph holds an entry for every seed
      exfalso
      obtain ⟨p, hmem⟩ := List.exists_mem_of_ne_nil _ (by simpa using hnone)
      have hseed : p.1 ∈ reach f r₁
          (order.arrange 0 (personalization.rows.map Prod.fst)).toFinset 5 := by
        refine reach_mono _ (Nat.zero_le 5) ?_
        rw [reach, hset, List.mem_toFinset]
        exact List.mem_map_of_mem hmem
      have hentry := hrecords.adj p.1
      rw [if_pos hseed] at hentry
      have := (Table.mem_of_find? hentry).1
      rw [← Table.mem_rows, List.isEmpty_iff.mp hempty] at this
      cases this
    · have hinitial := Tally.addAll_perm
        (HashOrder.perm_of_same order order' 2 2 (Table.Same.refl personalization))
        (Table.Same.refl (Table.empty : Scores))
      have hscores := @powerIterate_same params order order' _ _ _ _
        (Table.Same.refl personalization) hg params.maxIterations _ _ hinitial
      rw [sort_ranks_perm (HashOrder.perm_of_same order order' _ _ hscores)]

theorem addAll_empty_keys (es : List (NodeId × ℚ)) :
    ((Tally.addAll (Table.empty : Scores) es).rows.map Prod.fst).toFinset =
      (es.map Prod.fst).toFinset := by
  ext id
  rw [List.mem_toFinset, List.mem_toFinset]
  have h := Tally.has_addAll (Table.empty : Scores) es id
  have hempty : ¬ (Table.empty : Scores).Has id := by
    rintro ⟨p, hp, _⟩
    exact Table.not_mem_empty p hp
  rw [or_iff_left hempty] at h
  rw [← h, List.mem_map]
  rfl

theorem ppr_noninterferent (h : f.SamePermitted r₁ r₂) (params : Params) (seeds : List NodeId)
    (hseeds : ∀ s ∈ seeds, f.Permits r₁ s) (k : Nat) :
    Noninterferent f r₁ r₂ seeds.toFinset
      (fun order r => ppr params order r seeds k f.toEdgeFilter) := by
  unfold ppr
  split_ifs with hnone
  · exact ⟨fun _ _ => rfl, fun _ _ _ => rfl, fun _ p hp => absurd hp List.not_mem_nil⟩
  · have hp : Scored f r₁ (Tally.addAll Table.empty
        (seeds.map (fun id => (id, (1 : ℚ) / seeds.length)))) := by
      refine scored_empty.addAll ?_
      intro e he
      obtain ⟨s, hs, rfl⟩ := List.mem_map.mp he
      exact hseeds s hs
    have hinner := pprInner_noninterferent h params _ hp k
    rw [addAll_empty_keys, List.map_map] at hinner
    have hid : seeds.map (Prod.fst ∘ fun id => (id, (1 : ℚ) / seeds.length)) = seeds := by
      conv_rhs => rw [← List.map_id seeds]
      rfl
    rw [hid] at hinner
    exact hinner

theorem pprWeighted_noninterferent (h : f.SamePermitted r₁ r₂) (params : Params)
    (seeds : List (NodeId × ℚ)) (hseeds : ∀ s ∈ seeds, f.Permits r₁ s.1) (k : Nat) :
    Noninterferent f r₁ r₂ (seeds.map Prod.fst).toFinset
      (fun order r => pprWeighted params order r seeds k f.toEdgeFilter) := by
  unfold pprWeighted
  simp only
  split_ifs with hnone htotal
  · exact ⟨fun _ _ => rfl, fun _ _ _ => rfl, fun _ p hp => absurd hp List.not_mem_nil⟩
  · refine ppr_noninterferent h params _ ?_ k
    intro s hs
    obtain ⟨p, hmem, rfl⟩ := List.mem_map.mp hs
    exact hseeds p hmem
  · have hp : Scored f r₁ (Tally.addAll Table.empty
        (seeds.map (fun s => (s.1, s.2 / (seeds.map Prod.snd).sum)))) := by
      refine scored_empty.addAll ?_
      intro e he
      obtain ⟨s, hs, rfl⟩ := List.mem_map.mp he
      exact hseeds s hs
    have hinner := pprInner_noninterferent h params _ hp k
    rw [addAll_empty_keys, List.map_map] at hinner
    exact hinner

/-- Personalised PageRank under a corpus filter does not depend on denied nodes, with uniform
and with weighted seeds. -/
theorem pagerank_noninterference (f : RbacFilter) (r₁ r₂ : Reader) (h : f.SamePermitted r₁ r₂)
    (params : Params) (seeds : List NodeId) (hseeds : ∀ s ∈ seeds, f.Permits r₁ s)
    (weighted : List (NodeId × ℚ)) (hweighted : ∀ s ∈ weighted, f.Permits r₁ s.1) (k : Nat) :
    Noninterferent f r₁ r₂ seeds.toFinset
        (fun order r => ppr params order r seeds k f.toEdgeFilter) ∧
      Noninterferent f r₁ r₂ (weighted.map Prod.fst).toFinset
        (fun order r => pprWeighted params order r weighted k f.toEdgeFilter) :=
  ⟨ppr_noninterferent h params seeds hseeds k, pprWeighted_noninterferent h params weighted hweighted k⟩

end TwoRuns

theorem pagerank_noninterference_bridged :
    Noninterferent ⟨{"a"}⟩ (Reader.scan openStore) (Reader.scan bridgedStore)
        [1, 2].toFinset
        (fun order r => ppr Params.default order r [1, 2] 0 (RbacFilter.toEdgeFilter ⟨{"a"}⟩)) ∧
      Noninterferent ⟨{"a"}⟩ (Reader.scan openStore) (Reader.scan bridgedStore)
        ([(1, 3 / 4)].map Prod.fst).toFinset
        (fun order r =>
          pprWeighted Params.default order r [(1, 3 / 4)] 0 (RbacFilter.toEdgeFilter ⟨{"a"}⟩)) :=
  pagerank_noninterference ⟨{"a"}⟩ (Reader.scan openStore) (Reader.scan bridgedStore)
    samePermitted_bridgedStore Params.default [1, 2] (by decide) [(1, 3 / 4)] (by decide) 0

/-! ### At the ceiling the iteration order shows -/

theorem addAll_rows_of_nodup (es : List (NodeId × ℚ)) (t : Scores)
    (hnd : (es.map Prod.fst).Nodup) (hfresh : ∀ e ∈ es, ¬ t.Has e.1) :
    (t.addAll es).rows = t.rows ++ es := by
  induction es generalizing t with
  | nil => simp [Tally.addAll]
  | cons e es ih =>
    have hadd : (t.add e.1 e.2).rows = t.rows ++ [e] := by
      unfold Tally.add Table.upsert
      rw [if_neg (hfresh e List.mem_cons_self)]
      unfold Table.insertIgnore
      rw [dif_neg (hfresh e List.mem_cons_self), zero_add]
    rw [List.map_cons, List.nodup_cons] at hnd
    change ((t.add e.1 e.2).addAll es).rows = _
    rw [ih (t.add e.1 e.2) hnd.2, hadd, List.append_assoc, List.singleton_append]
    intro x hx hhas
    rw [Tally.has_add] at hhas
    rcases hhas with heq | hhas
    · exact hnd.1 (heq ▸ List.mem_map_of_mem hx)
    · exact hfresh x (List.mem_cons_of_mem _ hx) hhas

/-- With as many seeds as the ceiling allows no edge is read, and equal scores come back in
the order the hash map happens to have. -/
theorem ppr_of_crowd (params : Params) (order : HashOrder) (r : Reader) (filter : EdgeFilter)
    {seeds : List NodeId} (hnd : seeds.Nodup) (hlen : maxSubgraphNodes ≤ seeds.length) :
    ppr params order r seeds 0 filter =
      order.arrange 1 (seeds.map (fun id => (id, (1 : ℚ) / seeds.length))) := by
  have hid : (seeds.map (fun id => (id, (1 : ℚ) / seeds.length))).map Prod.fst = seeds := by
    rw [List.map_map]
    conv_rhs => rw [← List.map_id seeds]
    rfl
  have hrows : (Tally.addAll (Table.empty : Scores)
      (seeds.map (fun id => (id, (1 : ℚ) / seeds.length)))).rows =
      seeds.map (fun id => (id, (1 : ℚ) / seeds.length)) := by
    rw [addAll_rows_of_nodup]
    · rfl
    · rw [hid]
      exact hnd
    · rintro e _ ⟨p, hp, _⟩
      exact Table.not_mem_empty p hp
  have hne : seeds ≠ [] := by
    intro h
    rw [h] at hlen
    exact absurd hlen (by decide)
  have hcard : maxSubgraphNodes ≤ (order.arrange 0 seeds).toFinset.card := by
    rw [List.toFinset_eq_of_perm _ _ (order.perm 0 seeds), List.toFinset_card_of_nodup hnd]
    exact hlen
  have hgraph : (buildWeightedSubgraph r filter (order.arrange 0 seeds)).adj.rows = [] := by
    obtain ⟨h1, _, _⟩ := foldl_visit (order.arrange 0 seeds) (∅, []) List.nodup_nil (by simp)
    rw [Finset.empty_union] at h1
    unfold buildWeightedSubgraph pprBfsDepth expandLevels
    simp only
    rw [if_pos (.inr (by rw [h1]; exact hcard))]
    rfl
  have hsorted : (order.arrange 1 (seeds.map (fun id => (id, (1 : ℚ) / seeds.length)))).Pairwise
      (fun a b => b.2 ≤ a.2) := by
    refine List.pairwise_of_forall_mem_list ?_
    intro a ha b hb
    obtain ⟨x, _, rfl⟩ := List.mem_map.mp ((order.perm 1 _).mem_iff.mp ha)
    obtain ⟨y, _, rfl⟩ := List.mem_map.mp ((order.perm 1 _).mem_iff.mp hb)
    exact le_rfl
  unfold ppr pprInner
  simp only [hrows, hid, hgraph, List.isEmpty_nil, if_true, truncate, lt_irrefl, if_false,
    List.isEmpty_iff, hne, List.map_eq_nil_iff]
  rw [hsorted.insertionSort_eq]

/-- A hash map iterated from its first entry on, and one iterated from its last. -/
def firstToLast : HashOrder := ⟨fun _ l => l, fun _ l => .refl l⟩

def lastToFirst : HashOrder := ⟨fun _ l => l.reverse, fun _ l => List.reverse_perm l⟩

/-- A store of `n` functions of one corpus, without edges. -/
def crowdRow (i : Nat) : NodeRow where
  id := i
  vname := ⟨"a", "", "x.rs", "rust", String.ofList (List.replicate i 'x')⟩
  kind := "function"
  package := ""
  line := some 1
  endLine := some 1
  isNoise := false
  testRole := .none
  bodyHash := none

def crowdStore (n : Nat) : SqliteStore where
  __ := SqliteStore.empty
  nodes := ⟨⟨(List.range n).map crowdRow, by
      rw [List.map_map]
      exact List.nodup_range.map (fun _ _ h => h)⟩, by
    rw [List.map_map]
    refine List.nodup_range.map ?_
    intro i j h
    have hsig : String.ofList (List.replicate i 'x') = String.ofList (List.replicate j 'x') :=
      congrArg VName.signature h
    have hlen := congrArg List.length (String.ofList_injective hsig)
    simpa using hlen⟩

theorem crowdStore_permits {n s : Nat} (hs : s ∈ List.range n) :
    RbacFilter.Permits ⟨{"a"}⟩ (Reader.scan (crowdStore n)) s := by
  have hrow : crowdRow s ∈ (crowdStore n).nodes.toTable := List.mem_map_of_mem hs
  refine ⟨(crowdRow s).toNode, ?_, by simp [crowdRow, NodeRow.toNode]⟩
  have hfind := Table.find?_of_mem hrow
  exact congrArg (Option.map NodeRow.toNode) hfind

theorem ppr_of_crowd_ne (params : Params) (r : Reader) (filter : EdgeFilter) {n : Nat}
    (h2 : 2 ≤ n) (hn : maxSubgraphNodes ≤ n) :
    ppr params firstToLast r (List.range n) 0 filter ≠
      ppr params lastToFirst r (List.range n) 0 filter := by
  have hlen : maxSubgraphNodes ≤ (List.range n).length := by rwa [List.length_range]
  rw [ppr_of_crowd _ _ _ _ List.nodup_range hlen, ppr_of_crowd _ _ _ _ List.nodup_range hlen]
  intro h
  have hheads := congrArg (fun l => l.head?.map Prod.fst) h
  simp only [firstToLast, lastToFirst, List.head?_reverse, List.head?_map, List.getLast?_map,
    Option.map_map, List.head?_range, List.getLast?_range] at hheads
  rw [if_neg (by omega), if_neg (by omega)] at hheads
  have : 0 = n - 1 := Option.some.inj hheads
  omega

/-- Two runs on one store with 250 000 permitted seeds disagree, although both stores and both
edge orders are the same. -/
theorem ppr_order_at_ceiling :
    RbacFilter.SamePermitted ⟨{"a"}⟩ (Reader.scan (crowdStore maxSubgraphNodes))
        (Reader.scan (crowdStore maxSubgraphNodes)) ∧
      (∀ s ∈ List.range maxSubgraphNodes,
        RbacFilter.Permits ⟨{"a"}⟩ (Reader.scan (crowdStore maxSubgraphNodes)) s) ∧
      ppr Params.default firstToLast (Reader.scan (crowdStore maxSubgraphNodes))
          (List.range maxSubgraphNodes) 0 (RbacFilter.toEdgeFilter ⟨{"a"}⟩) ≠
        ppr Params.default lastToFirst (Reader.scan (crowdStore maxSubgraphNodes))
          (List.range maxSubgraphNodes) 0 (RbacFilter.toEdgeFilter ⟨{"a"}⟩) :=
  ⟨⟨fun _ _ _ => Iff.rfl, fun _ _ => rfl, fun _ _ => rfl⟩, fun _ hs => crowdStore_permits hs,
    ppr_of_crowd_ne _ _ _ (by decide) le_rfl⟩

end Travsr.Retrieval.Ppr
