import Travsr.Lib.Bfs
import Travsr.Retrieval.PcstNoninterference

namespace Travsr.Retrieval.Pcst

open Travsr.Core Store Relational Loop

/-- The filters of the program: none in local mode, else one that allows some corpora. -/
def filterOf : Option RbacFilter → EdgeFilter
  | none => openFilter
  | some f => f.toEdgeFilter

/-- What the filter says of a corpus, wherever an edge comes from. -/
def admits (scope : Option RbacFilter) (corpus : Option String) : Prop :=
  (filterOf scope).allow 0 0 corpus = true

theorem allow_iff (scope : Option RbacFilter) (u v : NodeId) (corpus : Option String) :
    (filterOf scope).allow u v corpus = true ↔ admits scope corpus := by
  cases scope <;> exact Iff.rfl

/-- An edge that leads to the node passes the filter. -/
def Passes (r : Reader) (scope : Option RbacFilter) (id : NodeId) : Prop :=
  admits scope ((r.getNode id).map fun n => n.vname.corpus)

/-- The node is stored and the filter lets the caller see it. -/
def Visible (r : Reader) (scope : Option RbacFilter) (id : NodeId) : Prop :=
  (r.getNode id).isSome = true ∧ Passes r scope id

instance (scope : Option RbacFilter) (corpus : Option String) : Decidable (admits scope corpus) :=
  inferInstanceAs (Decidable (_ = true))

instance (r : Reader) (scope : Option RbacFilter) : DecidablePred (Passes r scope) := fun _ =>
  inferInstanceAs (Decidable (admits _ _))

instance (r : Reader) (scope : Option RbacFilter) : DecidablePred (Visible r scope) := fun _ =>
  inferInstanceAs (Decidable (_ ∧ _))

def successors (r : Reader) (scope : Option RbacFilter) (pass : Pass) (u : NodeId) : List NodeId :=
  ((pass.rows r u).map pass.far).filter fun v => Passes r scope v

def firstCost (r : Reader) (pass : Pass) (near far : NodeId) : Option ℚ :=
  ((pass.rows r near).find? fun e => pass.far e = far).map fun e => edgeCost e.kind

/-- The (source, destination) pair of a near and a far end. -/
structure Pass.Joins (pass : Pass) (mk : NodeId → NodeId → NodeId × NodeId) : Prop where
  link : ∀ u e, pass.link u e = mk u (pass.far e)
  inj : ∀ u v u' v', mk u v = mk u' v' → u = u' ∧ v = v'

theorem forward_joins : forward.Joins fun u v => (u, v) :=
  ⟨fun _ _ => rfl, fun _ _ _ _ h => Prod.mk.inj h⟩

theorem reverse_joins : reverse.Joins fun u v => (v, u) :=
  ⟨fun _ _ => rfl, fun _ _ _ _ h => (Prod.mk.inj h).symm⟩

variable {r : Reader} {scope : Option RbacFilter} {pass : Pass} {maxDepth : Nat}
  {mk : NodeId → NodeId → NodeId × NodeId} {st st' : Expansion} {current : NodeId} {depth : Nat}

def Cached (r : Reader) (nodes : Table Node Node.id) : Prop :=
  ∀ n, n ∈ nodes → r.getNode n.id = some n

theorem Cached.corpusOf (h : Cached r st.nodes) (id : NodeId) :
    corpusOf r st.nodes id = (r.getNode id).map fun n => n.vname.corpus := by
  unfold Pcst.corpusOf
  cases hn : st.nodes.find? id with
  | none => rfl
  | some n =>
    obtain ⟨hm, hid⟩ := Table.mem_of_find? hn
    have hget := h n hm
    rw [hid] at hget
    rw [hget, Option.map_some]

theorem Cached.noteNode {nodes : Table Node Node.id} (h : Cached r nodes) (filter : EdgeFilter)
    (id : NodeId) : Cached r (noteNode r filter nodes id) := by
  unfold Pcst.noteNode
  cases hn : r.getNode id with
  | none => exact h
  | some n =>
    dsimp only
    split_ifs
    · intro m hm
      rcases Table.mem_insertIgnore.mp hm with hm | ⟨rfl, _⟩
      · exact h m hm
      · rw [Reader.getNode_id hn, hn]
    · exact h

theorem has_noteNode (nodes : Table Node Node.id) (id x : NodeId) :
    (noteNode r (filterOf scope) nodes id).Has x ↔ nodes.Has x ∨ (x = id ∧ Visible r scope x) := by
  unfold Pcst.noteNode Visible Passes
  cases hn : r.getNode id with
  | none =>
    refine (or_iff_left ?_).symm
    rintro ⟨rfl, hsome, _⟩
    rw [hn] at hsome
    cases hsome
  | some n =>
    have hid := Reader.getNode_id hn
    dsimp only
    split_ifs with hallow
    · rw [allow_iff] at hallow
      rw [Table.has_iff_find?, Table.find?_insertIgnore, Table.has_iff_find?]
      by_cases hx : n.id = x
      · subst hx
        rw [hid, hn, if_pos rfl]
        cases nodes.find? id <;> simp [hallow]
      · have hne : x ≠ id := fun he => hx (hid.trans he.symm)
        rw [if_neg hx]
        simp [hne]
    · rw [allow_iff] at hallow
      refine (or_iff_left ?_).symm
      rintro ⟨rfl, _, hpass⟩
      rw [hn] at hpass
      exact hallow hpass

/-! ### One popped node -/

theorem relax_scope (h : Cached r st.nodes) (e : Edge) :
    relax r (filterOf scope) pass maxDepth current depth st e =
      if Passes r scope (pass.far e) then follow pass maxDepth current depth st e else st := by
  unfold relax
  rw [h.corpusOf]
  by_cases hp : Passes r scope (pass.far e)
  · rw [if_pos hp, if_pos ((allow_iff scope _ _ _).mpr hp)]
  · rw [if_neg hp, if_neg fun ha => hp ((allow_iff scope _ _ _).mp ha)]

theorem foldl_relax_nodes (filter : EdgeFilter) (rows : List Edge) (st : Expansion) :
    (rows.foldl (relax r filter pass maxDepth current depth) st).nodes = st.nodes := by
  refine List.foldlRecOn _ _ (motive := fun st' : Expansion => st'.nodes = st.nodes) rfl ?_
  intro st' hst' e _
  rcases relax_cases r filter pass maxDepth current depth st' e with h | h
  · rw [h, hst']
  · rw [h, follow_nodes, hst']

theorem foldl_relax_front (rows : List Edge) {st : Expansion}
    (h : Cached r st.nodes) :
    (rows.foldl (relax r (filterOf scope) pass maxDepth current depth) st).front =
      if depth < maxDepth then
        ((rows.map pass.far).filter fun v => Passes r scope v).foldl
          (fun w y => w.push y (depth + 1)) st.front
      else st.front := by
  induction rows generalizing st with
  | nil => exact (ite_self _).symm
  | cons e rows ih =>
    rw [List.foldl_cons, relax_scope h, List.map_cons]
    by_cases hp : Passes r scope (pass.far e)
    · have hc : Cached r (follow pass maxDepth current depth st e).nodes := by
        rw [follow_nodes]
        exact h
      rw [if_pos hp, ih hc, List.filter_cons_of_pos (by simpa using hp), List.foldl_cons]
      unfold follow enqueue
      split_ifs
      · rw [addEdge_front]
      · rw [addEdge_front]
    · rw [if_neg hp, ih h, List.filter_cons_of_neg (by simpa using hp)]

def PairsOf (st : Expansion) : Prop :=
  ∀ p, p ∈ st.edgeSet ↔ ∃ c, (p.1, p.2, c) ∈ st.edges

theorem mem_addEdge (hp : PairsOf st) (pair : NodeId × NodeId) (cost : ℚ) :
    PairsOf (addEdge pair cost st) ∧ ∀ p c, (p.1, p.2, c) ∈ (addEdge pair cost st).edges ↔
      (p.1, p.2, c) ∈ st.edges ∨ (p ∉ st.edgeSet ∧ p = pair ∧ c = cost) := by
  unfold addEdge
  split_ifs with hmem
  · refine ⟨hp, fun p c => (or_iff_left ?_).symm⟩
    rintro ⟨hn, rfl, _⟩
    exact hn hmem
  · have hedges : ∀ p c, (p.1, p.2, c) ∈ st.edges ++ [(pair.1, pair.2, cost)] ↔
        (p.1, p.2, c) ∈ st.edges ∨ (p = pair ∧ c = cost) := by
      intro p c
      rw [List.mem_append, List.mem_singleton, Prod.mk.injEq, Prod.mk.injEq, Prod.ext_iff (x := p),
        and_assoc]
    constructor
    · intro p
      show p ∈ insert pair st.edgeSet ↔ ∃ c, (p.1, p.2, c) ∈ st.edges ++ [(pair.1, pair.2, cost)]
      simp only [hedges, Finset.mem_insert, exists_or, ← hp p, exists_and_left, exists_eq, and_true]
      exact or_comm
    · intro p c
      rw [hedges]
      refine or_congr_right ⟨fun h => ?_, fun h => h.2⟩
      exact ⟨h.1 ▸ hmem, h⟩

theorem foldl_relax_edges (hj : pass.Joins mk) (rows : List Edge) {st : Expansion}
    (h : Cached r st.nodes) (hp : PairsOf st) :
    PairsOf (rows.foldl (relax r (filterOf scope) pass maxDepth current depth) st) ∧
      ∀ p c, (p.1, p.2, c) ∈
          (rows.foldl (relax r (filterOf scope) pass maxDepth current depth) st).edges ↔
        (p.1, p.2, c) ∈ st.edges ∨ (p ∉ st.edgeSet ∧ ∃ v, p = mk current v ∧ Passes r scope v ∧
          (rows.find? fun e => pass.far e = v).map (fun e => edgeCost e.kind) = some c) := by
  induction rows generalizing st with
  | nil => exact ⟨hp, fun p c => by simp⟩
  | cons e rows ih =>
    rw [List.foldl_cons, relax_scope h]
    by_cases hpass : Passes r scope (pass.far e)
    · have hc : Cached r (follow pass maxDepth current depth st e).nodes := by
        rw [follow_nodes]
        exact h
      obtain ⟨hadd, hmem⟩ := mem_addEdge hp (pass.link current e) (edgeCost e.kind)
      have hsame : (follow pass maxDepth current depth st e).edges =
            (addEdge (pass.link current e) (edgeCost e.kind) st).edges ∧
          (follow pass maxDepth current depth st e).edgeSet =
            (addEdge (pass.link current e) (edgeCost e.kind) st).edgeSet := by
        unfold follow enqueue
        split_ifs <;> exact ⟨rfl, rfl⟩
      have hpairs : PairsOf (follow pass maxDepth current depth st e) := by
        intro p
        rw [hsame.1, hsame.2]
        exact hadd p
      obtain ⟨ih1, ih2⟩ := ih hc hpairs
      rw [if_pos hpass]
      refine ⟨ih1, fun p c => ?_⟩
      rw [ih2, hsame.1, hmem, hsame.2, hadd]
      have hset : (∃ c', (p.1, p.2, c') ∈
          (addEdge (pass.link current e) (edgeCost e.kind) st).edges) ↔
            p ∈ st.edgeSet ∨ p = pass.link current e := by
        simp only [hmem, exists_or, ← hp p]
        constructor
        · rintro (hin | ⟨c', _, he, _⟩)
          · exact .inl hin
          · exact .inr he
        · rintro (hin | he)
          · exact .inl hin
          · by_cases hin : p ∈ st.edgeSet
            · exact .inl hin
            · exact .inr ⟨_, hin, he, rfl⟩
      rw [hset, hj.link]
      constructor
      · rintro ((hold | ⟨hnew, rfl, rfl⟩) | ⟨hnew, v, rfl, hv, hfind⟩)
        · exact .inl hold
        · refine .inr ⟨hnew, _, rfl, hpass, ?_⟩
          rw [List.find?_cons_of_pos (by simp)]
          rfl
        · obtain ⟨hnew, hne⟩ := not_or.mp hnew
          refine .inr ⟨hnew, v, rfl, hv, ?_⟩
          rw [List.find?_cons_of_neg]
          · exact hfind
          · simpa using fun he => hne (congrArg _ he.symm)
      · rintro (hold | ⟨hnew, v, rfl, hv, hfind⟩)
        · exact .inl (.inl hold)
        · by_cases he : pass.far e = v
          · rw [List.find?_cons_of_pos (by simpa using he)] at hfind
            exact .inl (.inr ⟨hnew, by rw [he], (Option.some.inj hfind).symm⟩)
          · rw [List.find?_cons_of_neg (by simpa using he)] at hfind
            refine .inr ⟨not_or.mpr ⟨hnew, fun heq => he ?_⟩, v, rfl, hv, hfind⟩
            exact ((hj.inj _ _ _ _ heq).2).symm
    · obtain ⟨ih1, ih2⟩ := ih h hp
      rw [if_neg hpass]
      refine ⟨ih1, fun p c => ?_⟩
      rw [ih2]
      refine or_congr_right (and_congr_right fun _ => exists_congr fun v => and_congr_right fun _ =>
        and_congr_right fun hv => ?_)
      rw [List.find?_cons_of_neg]
      simpa using fun he : pass.far e = v => hpass (he ▸ hv)

/-! ### A pass -/

/-- A pass under way from `st₀`: the search from its start, and what the popped nodes have brought
in. -/
structure Swept (r : Reader) (scope : Option RbacFilter) (pass : Pass)
    (mk : NodeId → NodeId → NodeId × NodeId) (maxDepth : Nat) (start : NodeId)
    (st₀ st : Expansion) : Prop where
  levels : ∃ level, Bfs.Levels (successors r scope pass) maxDepth start st.front level
  cached : Cached r st.nodes
  pairs : PairsOf st
  nodes : ∀ id, st.nodes.Has id ↔ st₀.nodes.Has id ∨ (Bfs.Popped st.front id ∧ Visible r scope id)
  edges : ∀ p c, (p.1, p.2, c) ∈ st.edges ↔ (p.1, p.2, c) ∈ st₀.edges ∨
    (p ∉ st₀.edgeSet ∧ ∃ u v, p = mk u v ∧ Bfs.Popped st.front u ∧ Passes r scope v ∧
      firstCost r pass u v = some c)

variable {start : NodeId} {st₀ : Expansion}

theorem Swept.init (hc : Cached r st₀.nodes) (hp : PairsOf st₀) :
    Swept r scope pass mk maxDepth start st₀ { st₀ with front := Worklist.start start } := by
  have hnone : ∀ x, ¬ Bfs.Popped (Worklist.start start) x := by
    rintro x ⟨hx, hw⟩
    refine hw ?_
    rw [Finset.mem_singleton.mp hx]
    exact List.mem_cons_self
  refine ⟨⟨_, Bfs.levels_start _ _ _⟩, hc, hp, fun id => ?_, fun p c => ?_⟩
  · exact (or_iff_left fun h => hnone id h.1).symm
  · refine (or_iff_left ?_).symm
    rintro ⟨_, u, _, _, hu, _⟩
    exact hnone u hu

theorem Swept.step (h : Swept r scope pass mk maxDepth start st₀ st) (hj : pass.Joins mk)
    (hp₀ : PairsOf st₀) (hstep : expandStep r (filterOf scope) pass maxDepth st = some st') :
    Swept r scope pass mk maxDepth start st₀ st' := by
  obtain ⟨level, hlevels⟩ := h.levels
  unfold expandStep at hstep
  cases hq : st.front.queue with
  | nil =>
    rw [hq] at hstep
    cases hstep
  | cons head rest =>
    obtain ⟨current, depth⟩ := head
    rw [hq] at hstep
    dsimp only at hstep
    split_ifs at hstep
    obtain rfl := Option.some.inj hstep
    have hc := h.cached.noteNode (filterOf scope) current
    obtain ⟨level', hlevels', _⟩ := hlevels.pop hq
    have hfront := @foldl_relax_front r scope pass maxDepth current depth (pass.rows r current)
      { st with nodes := noteNode r (filterOf scope) st.nodes current,
                front := { st.front with queue := rest } } hc
    rw [show (if depth < maxDepth then
        (((pass.rows r current).map pass.far).filter fun v => Passes r scope v).foldl
          (fun w y => w.push y (depth + 1)) { st.front with queue := rest }
      else { st.front with queue := rest }) = Bfs.expand (successors r scope pass) maxDepth current
        depth { st.front with queue := rest } from rfl] at hfront
    obtain ⟨hpairs, hedges⟩ := @foldl_relax_edges r scope pass maxDepth mk current depth hj
      (pass.rows r current)
      { st with nodes := noteNode r (filterOf scope) st.nodes current,
                front := { st.front with queue := rest } } hc h.pairs
    have hpopped : ∀ z, Bfs.Popped (Bfs.expand (successors r scope pass) maxDepth current depth
        { st.front with queue := rest }) z ↔ Bfs.Popped st.front z ∨ z = current := fun z =>
      (Bfs.popped_expand _ _ _ z).trans (hlevels.popped_tail hq z)
    have hwaits : ¬ Bfs.Popped st.front current := fun hpop => hpop.2 (by
      rw [Bfs.Waits, hq]
      exact List.mem_cons_self)
    refine ⟨⟨level', ?_⟩, ?_, hpairs, fun id => ?_, fun p c => ?_⟩
    · rw [hfront]
      exact hlevels'
    · rw [foldl_relax_nodes]
      exact hc
    · rw [foldl_relax_nodes, hfront, hpopped]
      dsimp only
      rw [has_noteNode, h.nodes, or_and_right, or_assoc]
    · rw [hedges, hfront]
      dsimp only
      rw [h.edges]
      -- the pairs of the popped node were not recorded by this pass
      have hfresh : ∀ v, mk current v ∈ st.edgeSet ↔ mk current v ∈ st₀.edgeSet := by
        intro v
        constructor
        · intro hin
          obtain ⟨c', hc'⟩ := (h.pairs _).mp hin
          rcases (h.edges _ c').mp hc' with hold | ⟨_, u, w, he, hu, _⟩
          · exact (hp₀ _).mpr ⟨c', hold⟩
          · rw [(hj.inj _ _ _ _ he).1] at hwaits
            exact absurd hu hwaits
        · intro hin
          obtain ⟨c', hc'⟩ := (hp₀ _).mp hin
          exact (h.pairs _).mpr ⟨c', (h.edges _ c').mpr (.inl hc')⟩
      constructor
      · rintro (hold | ⟨hnew, v, rfl, hv, hfind⟩)
        · rcases hold with hold | ⟨hn, u, v, hpe, hu, hv, hfirst⟩
          · exact .inl hold
          · exact .inr ⟨hn, u, v, hpe, (hpopped u).mpr (.inl hu), hv, hfirst⟩
        · exact .inr ⟨fun hin => hnew ((hfresh v).mpr hin), current, v, rfl,
            (hpopped current).mpr (.inr rfl), hv, hfind⟩
      · rintro (hold | ⟨hn, u, v, rfl, hu, hv, hfirst⟩)
        · exact .inl (.inl hold)
        · rcases (hpopped u).mp hu with hu | rfl
          · exact .inl (.inr ⟨hn, u, v, rfl, hu, hv, hfirst⟩)
          · exact .inr ⟨fun hin => hn ((hfresh v).mp hin), v, rfl, hv, hfirst⟩

theorem runPass_swept (hj : pass.Joins mk) (hc : Cached r st₀.nodes) (hp : PairsOf st₀)
    (hend : (runPass r (filterOf scope) pass maxDepth start st₀).front.queue = []) :
    Cached r (runPass r (filterOf scope) pass maxDepth start st₀).nodes ∧
    PairsOf (runPass r (filterOf scope) pass maxDepth start st₀) ∧
    (∀ id, (runPass r (filterOf scope) pass maxDepth start st₀).nodes.Has id ↔ st₀.nodes.Has id ∨
      (Bfs.Within (successors r scope pass) start maxDepth id ∧ Visible r scope id)) ∧
    ∀ p c, (p.1, p.2, c) ∈ (runPass r (filterOf scope) pass maxDepth start st₀).edges ↔
      (p.1, p.2, c) ∈ st₀.edges ∨ (p ∉ st₀.edgeSet ∧ ∃ u v, p = mk u v ∧
        Bfs.Within (successors r scope pass) start maxDepth u ∧ Passes r scope v ∧
          firstCost r pass u v = some c) := by
  have h : Swept r scope pass mk maxDepth start st₀
      (runPass r (filterOf scope) pass maxDepth start st₀) :=
    iterate_invariant (fun s s' hs hstep => Swept.step hs hj hp hstep) _ _ (Swept.init hc hp)
  obtain ⟨level, hlevels⟩ := h.levels
  have hpopped : ∀ x, Bfs.Popped (runPass r (filterOf scope) pass maxDepth start st₀).front x ↔
      Bfs.Within (successors r scope pass) start maxDepth x := fun x =>
    (Bfs.popped_of_empty hend x).trans (hlevels.visited_iff hend x)
  refine ⟨h.cached, h.pairs, fun id => ?_, fun p c => ?_⟩
  · rw [h.nodes, hpopped]
  · rw [h.edges]
    simp only [hpopped]

/-! ### The local subgraph -/

def forwardPass (r : Reader) (source sink : NodeId) (filter : EdgeFilter) : Expansion :=
  runPass r filter forward expandDepth source
    ⟨noteNode r filter (noteNode r filter Table.empty source) sink, [], ∅, Worklist.start source⟩

/-- Neither pass was stopped by its node cap. -/
structure Uncapped (r : Reader) (scope : Option RbacFilter) (source sink : NodeId) : Prop where
  forward : (forwardPass r source sink (filterOf scope)).front.queue = []
  reverse : (expandLocalSubgraph r source sink (filterOf scope) expandDepth).front.queue = []

instance (r : Reader) (scope : Option RbacFilter) (source sink : NodeId) :
    Decidable (Uncapped r scope source sink) :=
  decidable_of_iff (_ ∧ _) ⟨fun h => ⟨h.1, h.2⟩, fun h => ⟨h.1, h.2⟩⟩

/-- Within the depth from the source. -/
def Reached (r : Reader) (scope : Option RbacFilter) (source : NodeId) (id : NodeId) : Prop :=
  Bfs.Within (successors r scope forward) source expandDepth id

/-- Within the depth of the sink. -/
def Reaching (r : Reader) (scope : Option RbacFilter) (sink : NodeId) (id : NodeId) : Prop :=
  Bfs.Within (successors r scope reverse) sink expandDepth id

/-- The cost of the pair's first row: first in what the query of its source returns, or, where that
is not asked, in what the query of its destination returns. -/
def FirstRow (r : Reader) (scope : Option RbacFilter) (source sink u v : NodeId) (c : ℚ) : Prop :=
  (Reached r scope source u ∧ Passes r scope v ∧ firstCost r forward u v = some c) ∨
  (¬ (Reached r scope source u ∧ Passes r scope v) ∧ Reaching r scope sink v ∧ Passes r scope u ∧
    firstCost r reverse v u = some c)

/-- A stored row of the pair costs this. -/
def Row (r : Reader) (u v : NodeId) (c : ℚ) : Prop :=
  ∃ row, row ∈ r.store.edges ∧ row.src = u ∧ row.dst = v ∧ edgeCost row.kind = c

def Pass.Row (pass : Pass) (r : Reader) (near far : NodeId) (c : ℚ) : Prop :=
  ∃ e ∈ pass.rows r near, pass.far e = far ∧ edgeCost e.kind = c

theorem forward_row {u v : NodeId} {c : ℚ} : forward.Row r u v c ↔ Row r u v c := by
  constructor
  · rintro ⟨e, he, hv, hc⟩
    obtain ⟨hu, row, hrow, rfl⟩ := Reader.mem_iterEdgesFrom he
    exact ⟨row, hrow, hu, hv, hc⟩
  · rintro ⟨row, hrow, hu, hv, hc⟩
    refine ⟨row.toEdge, List.mem_map_of_mem ((r.from_perm u).mem_iff.mpr ?_), hv, hc⟩
    exact List.mem_filter.mpr ⟨hrow, decide_eq_true hu⟩

theorem reverse_row {u v : NodeId} {c : ℚ} : reverse.Row r v u c ↔ Row r u v c := by
  constructor
  · rintro ⟨e, he, hu, hc⟩
    obtain ⟨row, hrow, rfl⟩ := List.mem_map.mp he
    have hm := List.mem_filter.mp ((r.to_perm v).mem_iff.mp hrow)
    exact ⟨row, hm.1, hu, of_decide_eq_true hm.2, hc⟩
  · rintro ⟨row, hrow, hu, hv, hc⟩
    refine ⟨{ row.toEdge with confidence := none },
      List.mem_map_of_mem ((r.to_perm v).mem_iff.mpr ?_), hu, hc⟩
    exact List.mem_filter.mpr ⟨hrow, decide_eq_true hv⟩

theorem row_of_firstCost {near far : NodeId} {c : ℚ} (h : firstCost r pass near far = some c) :
    pass.Row r near far c := by
  obtain ⟨e, he, hc⟩ := Option.map_eq_some_iff.mp h
  exact ⟨e, List.mem_of_find?_eq_some he, by simpa using List.find?_some he, hc⟩

theorem firstCost_isSome_iff (near far : NodeId) :
    (firstCost r pass near far).isSome ↔ ∃ c, pass.Row r near far c := by
  constructor
  · intro h
    obtain ⟨c, hc⟩ := Option.isSome_iff_exists.mp h
    exact ⟨c, row_of_firstCost hc⟩
  · rintro ⟨c, e, he, hfar, _⟩
    rw [firstCost, Option.isSome_map, List.find?_isSome]
    exact ⟨e, he, decide_eq_true hfar⟩

theorem firstCost_isSome (u v : NodeId) :
    (firstCost r forward u v).isSome ↔ (firstCost r reverse v u).isSome := by
  rw [firstCost_isSome_iff, firstCost_isSome_iff]
  exact exists_congr fun c => forward_row.trans reverse_row.symm

variable {source sink : NodeId}

theorem expandLocalSubgraph_spec (hun : Uncapped r scope source sink)
    (hsource : Visible r scope source) (hsink : Visible r scope sink) :
    (∀ id, (expandLocalSubgraph r source sink (filterOf scope) expandDepth).nodes.Has id ↔
      Visible r scope id ∧ (Reached r scope source id ∨ Reaching r scope sink id)) ∧
    ∀ u v c, (u, v, c) ∈
        (expandLocalSubgraph r source sink (filterOf scope) expandDepth).edges ↔
      FirstRow r scope source sink u v c := by
  have hseeded : Cached r (noteNode r (filterOf scope)
      (noteNode r (filterOf scope) Table.empty source) sink) :=
    Cached.noteNode (Cached.noteNode (fun n hn => absurd hn (Table.not_mem_empty n)) _ _) _ _
  obtain ⟨hc, hp, hn, he⟩ := @runPass_swept r scope forward expandDepth _ source
    ⟨noteNode r (filterOf scope) (noteNode r (filterOf scope) Table.empty source) sink, [], ∅,
      Worklist.start source⟩ forward_joins hseeded (fun p => by simp) hun.forward
  obtain ⟨_, _, hn', he'⟩ := runPass_swept reverse_joins hc hp hun.reverse
  refine ⟨fun id => ?_, fun u v c => ?_⟩
  · refine (hn' id).trans ?_
    rw [hn]
    dsimp only
    rw [has_noteNode, has_noteNode]
    have hempty : ¬ (Table.empty : Table Node Node.id).Has id := fun ⟨n, hm, _⟩ =>
      absurd hm (Table.not_mem_empty n)
    have hstart : Reached r scope source source := Bfs.within_start _
    have hfinish : Reaching r scope sink sink := Bfs.within_start _
    show ((_ ∨ _) ∨ Reached r scope source id ∧ _) ∨ Reaching r scope sink id ∧ _ ↔ _
    constructor
    · rintro ((((hem | ⟨rfl, hv⟩) | ⟨rfl, hv⟩) | ⟨hw, hv⟩) | ⟨hw, hv⟩)
      · exact absurd hem hempty
      · exact ⟨hv, .inl hstart⟩
      · exact ⟨hv, .inr hfinish⟩
      · exact ⟨hv, .inl hw⟩
      · exact ⟨hv, .inr hw⟩
    · rintro ⟨hv, hw | hw⟩
      · exact .inl (.inr ⟨hw, hv⟩)
      · exact .inr ⟨hw, hv⟩
  · refine (he' (u, v) c).trans ?_
    have hfirst : ∀ c, (u, v, c) ∈ (forwardPass r source sink (filterOf scope)).edges ↔
        Reached r scope source u ∧ Passes r scope v ∧ firstCost r forward u v = some c := by
      intro c
      refine (he (u, v) c).trans ⟨?_, fun h => .inr ⟨Finset.notMem_empty _, u, v, rfl, h⟩⟩
      rintro (hnil | ⟨_, u', v', hpair, h⟩)
      · exact absurd hnil List.not_mem_nil
      · obtain ⟨rfl, rfl⟩ := Prod.mk.inj hpair
        exact h
    have hset : (u, v) ∈ (forwardPass r source sink (filterOf scope)).edgeSet ↔
        Reached r scope source u ∧ Passes r scope v ∧ (firstCost r forward u v).isSome := by
      refine (hp (u, v)).trans ?_
      rw [Option.isSome_iff_exists]
      constructor
      · rintro ⟨c', hc'⟩
        obtain ⟨h1, h2, h3⟩ := (hfirst c').mp hc'
        exact ⟨h1, h2, c', h3⟩
      · rintro ⟨h1, h2, c', h3⟩
        exact ⟨c', (hfirst c').mpr ⟨h1, h2, h3⟩⟩
    refine or_congr (hfirst c) ?_
    constructor
    · rintro ⟨hnew, v', u', hpair, hto, hpass, hcost⟩
      obtain ⟨rfl, rfl⟩ := Prod.mk.inj hpair
      refine ⟨fun hfwd => hnew (hset.mpr ⟨hfwd.1, hfwd.2, ?_⟩), hto, hpass, hcost⟩
      rw [firstCost_isSome, hcost]
      rfl
    · rintro ⟨hnew, hto, hpass, hcost⟩
      exact ⟨fun hin => hnew ⟨(hset.mp hin).1, (hset.mp hin).2.1⟩, v, u, rfl, hto, hpass, hcost⟩

end Travsr.Retrieval.Pcst
