import Travsr.Retrieval.Pcst

namespace Travsr.Retrieval.Pcst

open Travsr.Core Store Relational Loop

def endpoints (r : Reader) : Finset NodeId :=
  (r.store.edges.rows.flatMap (fun e => [e.src, e.dst])).toFinset

theorem endpoints_card_le (r : Reader) : (endpoints r).card ≤ 2 * r.store.edges.rows.length := by
  refine (List.toFinset_card_le _).trans ?_
  induction r.store.edges.rows with
  | nil => simp
  | cons e es ih =>
    simp only [List.flatMap_cons, List.length_append, List.length_cons, List.length_nil]
    omega

theorem mem_endpoints {r : Reader} {row : EdgeRow} (h : row ∈ r.store.edges) :
    row.src ∈ endpoints r ∧ row.dst ∈ endpoints r := by
  constructor
  all_goals
    rw [endpoints, List.mem_toFinset, List.mem_flatMap]
    exact ⟨row, h, by simp⟩

def Pass.Lands (pass : Pass) (r : Reader) : Prop :=
  ∀ u, ∀ e ∈ pass.rows r u, pass.far e ∈ endpoints r

theorem forward_lands (r : Reader) : forward.Lands r := by
  intro u e he
  obtain ⟨_, row, hrow, rfl⟩ := Reader.mem_iterEdgesFrom he
  exact (mem_endpoints hrow).2

theorem reverse_lands (r : Reader) : reverse.Lands r := by
  intro v e he
  obtain ⟨_, row, hrow, hsrc⟩ := Reader.mem_iterEdgesTo he
  change e.src ∈ endpoints r
  rw [← hsrc]
  exact (mem_endpoints hrow).1

/-! ### The passes end within their fuel -/

@[simp] theorem addEdge_front (pair : NodeId × NodeId) (cost : ℚ) (st : Expansion) :
    (addEdge pair cost st).front = st.front := by
  unfold addEdge
  split_ifs <;> rfl

@[simp] theorem addEdge_nodes (pair : NodeId × NodeId) (cost : ℚ) (st : Expansion) :
    (addEdge pair cost st).nodes = st.nodes := by
  unfold addEdge
  split_ifs <;> rfl

@[simp] theorem follow_nodes (pass : Pass) (maxDepth current depth : Nat) (st : Expansion)
    (e : Edge) : (follow pass maxDepth current depth st e).nodes = st.nodes := by
  unfold follow enqueue
  split_ifs <;> simp

theorem follow_front (pass : Pass) (maxDepth current depth : Nat) (st : Expansion) (e : Edge) :
    (follow pass maxDepth current depth st e).front = st.front ∨
      (follow pass maxDepth current depth st e).front =
        st.front.push (pass.far e) (depth + 1) := by
  unfold follow enqueue
  split_ifs
  · right
    simp
  · left
    simp

theorem relax_cases (r : Reader) (filter : EdgeFilter) (pass : Pass)
    (maxDepth current depth : Nat) (st : Expansion) (e : Edge) :
    relax r filter pass maxDepth current depth st e = st ∨
      relax r filter pass maxDepth current depth st e =
        follow pass maxDepth current depth st e := by
  unfold relax
  split_ifs
  · exact .inr rfl
  · exact .inl rfl

theorem relax_potential_le {r : Reader} {pass : Pass} (filter : EdgeFilter)
    (maxDepth current depth : Nat) (st : Expansion) {e : Edge} (he : pass.far e ∈ endpoints r) :
    (relax r filter pass maxDepth current depth st e).front.potential (endpoints r) ≤
      st.front.potential (endpoints r) := by
  rcases relax_cases r filter pass maxDepth current depth st e with h | h
  · rw [h]
  · rw [h]
    rcases follow_front pass maxDepth current depth st e with hf | hf
    · rw [hf]
    · rw [hf]
      exact Worklist.potential_push_le he _ _

theorem expandStep_decreases {r : Reader} {pass : Pass} (hp : pass.Lands r)
    (filter : EdgeFilter) (maxDepth : Nat) :
    Decreases (expandStep r filter pass maxDepth)
      (fun st => st.front.potential (endpoints r)) := by
  intro st st' h
  unfold expandStep at h
  cases hq : st.front.queue with
  | nil =>
    rw [hq] at h
    cases h
  | cons head rest =>
    obtain ⟨current, depth⟩ := head
    rw [hq] at h
    simp only at h
    split_ifs at h with hcap
    obtain rfl := Option.some.inj h
    have hfold : ∀ start : Expansion,
        ((pass.rows r current).foldl (relax r filter pass maxDepth current depth)
          start).front.potential (endpoints r) ≤ start.front.potential (endpoints r) := by
      intro start
      refine List.foldlRecOn _ _ (motive := fun st' : Expansion =>
        st'.front.potential (endpoints r) ≤ start.front.potential (endpoints r)) le_rfl ?_
      intro st' hst' e he
      exact (relax_potential_le filter maxDepth current depth st' (hp current e he)).trans hst'
    refine lt_of_le_of_lt (hfold _) ?_
    simp only [Worklist.potential, hq, List.length_cons]
    omega

theorem start_potential_le_fuel (r : Reader) (start : NodeId) :
    (Worklist.start start).potential (endpoints r) ≤ fuel r := by
  have h1 := Worklist.potential_start_le (endpoints r) start
  have h2 := endpoints_card_le r
  unfold fuel
  omega

theorem fallbackRelax_potential_le {r : Reader} (filter : EdgeFilter) (current depth : Nat)
    (st : Fallback) {e : Edge} (he : e.dst ∈ endpoints r) :
    (fallbackRelax r filter current depth st e).front.potential (endpoints r) ≤
      st.front.potential (endpoints r) := by
  unfold fallbackRelax
  split_ifs
  · exact Worklist.potential_push_le he _ _
  · exact le_rfl

theorem fallbackExpand_potential_le (r : Reader) (filter : EdgeFilter) (current depth : Nat)
    (st : Fallback) :
    (fallbackExpand r filter current depth st).front.potential (endpoints r) ≤
      st.front.potential (endpoints r) := by
  unfold fallbackExpand
  split_ifs
  · refine List.foldlRecOn _ _ (motive := fun st' : Fallback =>
      st'.front.potential (endpoints r) ≤ st.front.potential (endpoints r)) le_rfl ?_
    intro st' hst' e he
    exact (fallbackRelax_potential_le filter current depth st'
      (forward_lands r current e he)).trans hst'
  · exact le_rfl

theorem fallbackStep_decreases (r : Reader) (filter : EdgeFilter) (tokenBudget : Nat) :
    Decreases (fallbackStep r filter tokenBudget)
      (fun st => st.front.potential (endpoints r)) := by
  intro st st' h
  unfold fallbackStep at h
  cases hq : st.front.queue with
  | nil =>
    rw [hq] at h
    cases h
  | cons head rest =>
    obtain ⟨current, depth⟩ := head
    have hpop : ∀ st'' : Fallback, st''.front = { st.front with queue := rest } →
        st''.front.potential (endpoints r) < st.front.potential (endpoints r) := by
      intro st'' hst
      simp only [Worklist.potential, hst, hq, List.length_cons]
      omega
    rw [hq] at h
    simp only at h
    split_ifs at h with hdepth
    cases hn : r.getNode current with
    | none =>
      rw [hn] at h
      obtain rfl := Option.some.inj h
      exact lt_of_le_of_lt (fallbackExpand_potential_le r filter current depth _) (hpop _ rfl)
    | some node =>
      rw [hn] at h
      simp only at h
      split_ifs at h with hallow hbudget
      · obtain rfl := Option.some.inj h
        exact hpop _ rfl
      · obtain rfl := Option.some.inj h
        exact lt_of_le_of_lt (fallbackExpand_potential_le r filter current depth _) (hpop _ rfl)

/-! ### A traversal never leaves the permitted nodes -/

section Confinement

variable {f : RbacFilter} {r : Reader}

def Known (f : RbacFilter) (r : Reader) (nodes : Table Node Node.id) : Prop :=
  ∀ n, n ∈ nodes → r.getNode n.id = some n ∧ n.vname.corpus ∈ f.allowedCorpora

def Queued (f : RbacFilter) (r : Reader) (front : Worklist NodeId) : Prop :=
  ∀ x ∈ front.queue, f.Permits r x.1

theorem Queued.push {front : Worklist NodeId} (h : Queued f r front) {id : NodeId}
    (hid : f.Permits r id) (depth : Nat) : Queued f r (front.push id depth) := by
  intro x hx
  rcases Worklist.mem_queue_push hx with hx | rfl
  · exact h x hx
  · exact hid

theorem queued_start {id : NodeId} (hid : f.Permits r id) : Queued f r (Worklist.start id) := by
  intro x hx
  obtain rfl := List.mem_singleton.mp hx
  exact hid

theorem known_empty : Known f r Table.empty := fun n hn => absurd hn (Table.not_mem_empty n)

theorem Known.noteNode {nodes : Table Node Node.id} (h : Known f r nodes) (id : NodeId) :
    Known f r (noteNode r f.toEdgeFilter nodes id) := by
  unfold Pcst.noteNode
  cases hn : r.getNode id with
  | none => exact h
  | some n =>
    simp only
    split_ifs with hallow
    · intro m hm
      rw [Table.mem_insertIgnore] at hm
      rcases hm with hm | ⟨rfl, _⟩
      · exact h m hm
      · refine ⟨by rw [Reader.getNode_id hn]; exact hn, ?_⟩
        simpa [RbacFilter.toEdgeFilter] using hallow
    · exact h

theorem corpusOf_eq {nodes : Table Node Node.id} (h : Known f r nodes) (id : NodeId) :
    corpusOf r nodes id = (r.getNode id).map (fun n => n.vname.corpus) := by
  unfold corpusOf
  cases hn : nodes.find? id with
  | none => rfl
  | some n =>
    obtain ⟨hm, hid⟩ := Table.mem_of_find? hn
    have := (h n hm).1
    rw [hid] at this
    rw [this, Option.map_some]

theorem relax_eq {pass : Pass} {maxDepth current depth : Nat} {st : Expansion}
    (h : Known f r st.nodes) (e : Edge) :
    relax r f.toEdgeFilter pass maxDepth current depth st e =
      if f.Permits r (pass.far e) then follow pass maxDepth current depth st e else st := by
  unfold relax
  rw [corpusOf_eq h]
  by_cases hp : f.Permits r (pass.far e)
  · rw [if_pos hp, if_pos ((f.allow_iff_permits r _ _ _).mpr hp)]
  · rw [if_neg hp, if_neg (mt (f.allow_iff_permits r _ _ _).mp hp)]

theorem foldl_relax_eq {pass : Pass} {maxDepth current depth : Nat} (rows : List Edge)
    {st : Expansion} (h : Known f r st.nodes) :
    rows.foldl (relax r f.toEdgeFilter pass maxDepth current depth) st =
      (rows.filter (fun e => f.Permits r (pass.far e))).foldl
        (follow pass maxDepth current depth) st := by
  induction rows generalizing st with
  | nil => rfl
  | cons e es ih =>
    rw [List.foldl_cons, relax_eq h]
    by_cases hp : f.Permits r (pass.far e)
    · have hn : Known f r (follow pass maxDepth current depth st e).nodes := by
        rw [follow_nodes]
        exact h
      rw [if_pos hp, List.filter_cons_of_pos (by simpa using hp), List.foldl_cons, ih hn]
    · rw [if_neg hp, List.filter_cons_of_neg (by simpa using hp), ih h]

theorem foldl_follow_nodes {pass : Pass} {maxDepth current depth : Nat} (rows : List Edge)
    (st : Expansion) :
    (rows.foldl (follow pass maxDepth current depth) st).nodes = st.nodes := by
  refine List.foldlRecOn _ _ (motive := fun st' : Expansion => st'.nodes = st.nodes) rfl ?_
  intro st' hst' e _
  rw [follow_nodes, hst']

theorem foldl_follow_queued {pass : Pass} {maxDepth current depth : Nat} {rows : List Edge}
    (hrows : ∀ e ∈ rows, f.Permits r (pass.far e)) {st : Expansion}
    (h : Queued f r st.front) :
    Queued f r (rows.foldl (follow pass maxDepth current depth) st).front := by
  refine List.foldlRecOn _ _ (motive := fun st' : Expansion => Queued f r st'.front) h ?_
  intro st' hst' e he
  rcases follow_front pass maxDepth current depth st' e with hf | hf
  · rw [hf]
    exact hst'
  · rw [hf]
    exact hst'.push (hrows e he) _

/-- The invariant of a pass. -/
structure Confined (f : RbacFilter) (r : Reader) (st : Expansion) : Prop where
  known : Known f r st.nodes
  queued : Queued f r st.front

theorem Confined.step {pass : Pass} {maxDepth : Nat} {st st' : Expansion}
    (h : Confined f r st) (hstep : expandStep r f.toEdgeFilter pass maxDepth st = some st') :
    Confined f r st' := by
  unfold expandStep at hstep
  cases hq : st.front.queue with
  | nil =>
    rw [hq] at hstep
    cases hstep
  | cons head rest =>
    obtain ⟨current, depth⟩ := head
    rw [hq] at hstep
    simp only at hstep
    split_ifs at hstep with hcap
    obtain rfl := Option.some.inj hstep
    have hk := h.known.noteNode current
    rw [foldl_relax_eq _ hk]
    constructor
    · rw [foldl_follow_nodes]
      exact hk
    · apply foldl_follow_queued
      · intro e he
        simpa using (List.mem_filter.mp he).2
      · intro x hx
        exact h.queued x (by rw [hq]; exact List.mem_cons_of_mem _ hx)

end Confinement

/-! ### Two stores with the same permitted part -/

section TwoRuns

variable {f : RbacFilter} {r₁ r₂ : Reader}

theorem Known.transfer (h : f.SamePermitted r₁ r₂) {nodes : Table Node Node.id}
    (hk : Known f r₁ nodes) : Known f r₂ nodes := by
  intro n hn
  obtain ⟨hget, hc⟩ := hk n hn
  exact ⟨(h.node n.id n hc).mp hget, hc⟩

theorem noteNode_eq (h : f.SamePermitted r₁ r₂) (nodes : Table Node Node.id) (id : NodeId) :
    noteNode r₁ f.toEdgeFilter nodes id = noteNode r₂ f.toEdgeFilter nodes id := by
  by_cases hp : f.Permits r₁ id
  · unfold noteNode
    rw [h.getNode_eq hp]
  · have hdeny : ∀ r : Reader, ¬ f.Permits r id →
        noteNode r f.toEdgeFilter nodes id = nodes := by
      intro r hr
      unfold noteNode
      cases hn : r.getNode id with
      | none => rfl
      | some n =>
        simp only
        rw [if_neg]
        intro hallow
        exact hr ⟨n, hn, by simpa [RbacFilter.toEdgeFilter] using hallow⟩
    rw [hdeny r₁ hp, hdeny r₂ (mt (h.permits id).mpr hp)]

/-- The two stores answer a pass's query alike, as far as the filter lets it see. -/
def Pass.SameRows (pass : Pass) (f : RbacFilter) (r₁ r₂ : Reader) : Prop :=
  ∀ u, f.Permits r₁ u →
    (pass.rows r₁ u).filter (fun e => f.Permits r₁ (pass.far e)) =
      (pass.rows r₂ u).filter (fun e => f.Permits r₂ (pass.far e))

theorem expandStep_eq (h : f.SamePermitted r₁ r₂) {pass : Pass}
    (hrows : pass.SameRows f r₁ r₂) (maxDepth : Nat) {st : Expansion} (hst : Confined f r₁ st) :
    expandStep r₁ f.toEdgeFilter pass maxDepth st =
      expandStep r₂ f.toEdgeFilter pass maxDepth st := by
  unfold expandStep
  cases hq : st.front.queue with
  | nil => rfl
  | cons head rest =>
    obtain ⟨current, depth⟩ := head
    have hcur : f.Permits r₁ current := hst.queued (current, depth) (by rw [hq]; simp)
    simp only
    split_ifs with hcap
    · rfl
    · have hk := hst.known.noteNode current
      rw [foldl_relax_eq _ hk, hrows current hcur, noteNode_eq h]
      rw [noteNode_eq h] at hk
      rw [foldl_relax_eq _ (hk.transfer h)]

theorem runPass_eq (h : f.SamePermitted r₁ r₂) (pass : Pass) (hrows : pass.SameRows f r₁ r₂)
    (h₁ : pass.Lands r₁) (h₂ : pass.Lands r₂) (maxDepth : Nat) {start : NodeId}
    (hstart : f.Permits r₁ start) (st : Expansion) (hst : Known f r₁ st.nodes) :
    runPass r₁ f.toEdgeFilter pass maxDepth start st =
        runPass r₂ f.toEdgeFilter pass maxDepth start st ∧
      Known f r₁ (runPass r₁ f.toEdgeFilter pass maxDepth start st).nodes := by
  have hR : ∀ s t : Expansion, (s = t ∧ Confined f r₁ s) →
      Option.Rel (fun s t => s = t ∧ Confined f r₁ s)
        (expandStep r₁ f.toEdgeFilter pass maxDepth s)
        (expandStep r₂ f.toEdgeFilter pass maxDepth t) := by
    rintro s _ ⟨rfl, hs⟩
    rw [← expandStep_eq h hrows maxDepth hs]
    cases hstep : expandStep r₁ f.toEdgeFilter pass maxDepth s with
    | none => exact .none
    | some s' => exact .some ⟨rfl, hs.step hstep⟩
  have hrun := iterate_rel (expandStep_decreases h₁ f.toEdgeFilter maxDepth)
    (expandStep_decreases h₂ f.toEdgeFilter maxDepth) hR (fuel r₁) (fuel r₂)
    { st with front := Worklist.start start } { st with front := Worklist.start start }
    (start_potential_le_fuel r₁ start) (start_potential_le_fuel r₂ start)
    ⟨rfl, hst, queued_start hstart⟩
  exact ⟨hrun.1, hrun.2.known⟩

theorem expandLocalSubgraph_eq (h : f.SamePermitted r₁ r₂) {source sink : NodeId}
    (hsource : f.Permits r₁ source) (hsink : f.Permits r₁ sink) (maxDepth : Nat) :
    expandLocalSubgraph r₁ source sink f.toEdgeFilter maxDepth =
        expandLocalSubgraph r₂ source sink f.toEdgeFilter maxDepth ∧
      Known f r₁ (expandLocalSubgraph r₁ source sink f.toEdgeFilter maxDepth).nodes := by
  unfold expandLocalSubgraph
  simp only
  rw [← noteNode_eq h, ← noteNode_eq h]
  have hseed : Known f r₁
      (noteNode r₁ f.toEdgeFilter (noteNode r₁ f.toEdgeFilter Table.empty source) sink) :=
    (known_empty.noteNode source).noteNode sink
  have hfwd := runPass_eq h forward h.edgesFrom (forward_lands r₁) (forward_lands r₂) maxDepth
    hsource ⟨noteNode r₁ f.toEdgeFilter (noteNode r₁ f.toEdgeFilter Table.empty source) sink, [],
      ∅, Worklist.start source⟩ hseed
  rw [← hfwd.1]
  exact runPass_eq h reverse h.edgesTo (reverse_lands r₁) (reverse_lands r₂) maxDepth hsink _
    hfwd.2

theorem withinBudget_eq (h : f.SamePermitted r₁ r₂) (tokenBudget : Nat) (ids : List NodeId)
    (hids : ∀ id ∈ ids, f.Permits r₁ id) (tokensUsed : Nat) :
    withinBudget r₁ tokenBudget tokensUsed ids = withinBudget r₂ tokenBudget tokensUsed ids := by
  induction ids generalizing tokensUsed with
  | nil => rfl
  | cons id ids ih =>
    have hid : f.Permits r₁ id := hids id List.mem_cons_self
    have hrest : ∀ x ∈ ids, f.Permits r₁ x := fun x hx => hids x (List.mem_cons_of_mem _ hx)
    simp only [withinBudget, ← h.getNode_eq hid]
    cases r₁.getNode id with
    | none => exact ih hrest _
    | some node => simp only [ih hrest]

theorem accessible_eq (h : f.SamePermitted r₁ r₂) (id : NodeId) :
    accessible r₁ f.toEdgeFilter id = accessible r₂ f.toEdgeFilter id := by
  have hspec : ∀ (r : Reader) (n : Node), accessible r f.toEdgeFilter id = some n ↔
      r.getNode id = some n ∧ n.vname.corpus ∈ f.allowedCorpora := by
    intro r n
    simp [accessible, Option.filter_eq_some_iff, RbacFilter.toEdgeFilter]
  apply Option.ext
  intro n
  rw [hspec, hspec]
  constructor
  · rintro ⟨hn, hc⟩
    exact ⟨(h.node id n hc).mp hn, hc⟩
  · rintro ⟨hn, hc⟩
    exact ⟨(h.node id n hc).mpr hn, hc⟩

theorem permits_of_accessible {id : NodeId} {n : Node}
    (h : accessible r₁ f.toEdgeFilter id = some n) : f.Permits r₁ id := by
  rw [accessible, Option.filter_eq_some_iff] at h
  exact ⟨n, h.1, by simpa [RbacFilter.toEdgeFilter] using h.2⟩

theorem fallbackExpand_eq (h : f.SamePermitted r₁ r₂) {current : NodeId}
    (hcur : f.Permits r₁ current) (depth : Nat) (st : Fallback) :
    fallbackExpand r₁ f.toEdgeFilter current depth st =
      fallbackExpand r₂ f.toEdgeFilter current depth st := by
  have hfold : ∀ (r : Reader) (rows : List Edge) (st : Fallback),
      rows.foldl (fallbackRelax r f.toEdgeFilter current depth) st =
        (rows.filter (fun e => f.Permits r e.dst)).foldl (fallbackVisit depth) st := by
    intro r rows
    induction rows with
    | nil => intro st; rfl
    | cons e es ih =>
      intro st
      rw [List.foldl_cons, ih]
      by_cases hp : f.Permits r e.dst
      · rw [List.filter_cons_of_pos (by simpa using hp), List.foldl_cons, fallbackRelax,
          if_pos ((f.allow_iff_permits r _ _ _).mpr hp)]
      · rw [List.filter_cons_of_neg (by simpa using hp), fallbackRelax,
          if_neg (mt (f.allow_iff_permits r _ _ _).mp hp)]
  unfold fallbackExpand
  split_ifs
  · rw [hfold, hfold, h.edgesFrom current hcur]
  · rfl

theorem fallbackExpand_queued {current : NodeId} {depth : Nat} {st : Fallback}
    (h : Queued f r₁ st.front) :
    Queued f r₁ (fallbackExpand r₁ f.toEdgeFilter current depth st).front := by
  unfold fallbackExpand
  split_ifs
  · refine List.foldlRecOn _ _ (motive := fun st' : Fallback => Queued f r₁ st'.front) h ?_
    intro st' hst' e _
    unfold fallbackRelax
    split_ifs with hallow
    · exact hst'.push ((f.allow_iff_permits r₁ _ _ _).mp hallow) _
    · exact hst'
  · exact h

theorem fallbackStep_eq (h : f.SamePermitted r₁ r₂) (tokenBudget : Nat) {st : Fallback}
    (hst : Queued f r₁ st.front) :
    fallbackStep r₁ f.toEdgeFilter tokenBudget st =
      fallbackStep r₂ f.toEdgeFilter tokenBudget st := by
  unfold fallbackStep
  cases hq : st.front.queue with
  | nil => rfl
  | cons head rest =>
    obtain ⟨current, depth⟩ := head
    have hcur : f.Permits r₁ current := hst (current, depth) (by rw [hq]; simp)
    simp only [← h.getNode_eq hcur, fallbackExpand_eq h hcur]

theorem fallbackStep_queued {tokenBudget : Nat} {st st' : Fallback} (h : Queued f r₁ st.front)
    (hstep : fallbackStep r₁ f.toEdgeFilter tokenBudget st = some st') :
    Queued f r₁ st'.front := by
  unfold fallbackStep at hstep
  cases hq : st.front.queue with
  | nil =>
    rw [hq] at hstep
    cases hstep
  | cons head rest =>
    obtain ⟨current, depth⟩ := head
    have hrest : Queued f r₁ { st.front with queue := rest } := fun x hx =>
      h x (by rw [hq]; exact List.mem_cons_of_mem _ hx)
    rw [hq] at hstep
    simp only at hstep
    split_ifs at hstep with hdepth
    cases hn : r₁.getNode current with
    | none =>
      rw [hn] at hstep
      obtain rfl := Option.some.inj hstep
      exact fallbackExpand_queued hrest
    | some node =>
      rw [hn] at hstep
      simp only at hstep
      split_ifs at hstep with hallow hbudget
      · obtain rfl := Option.some.inj hstep
        exact hrest
      · obtain rfl := Option.some.inj hstep
        exact fallbackExpand_queued hrest

theorem bfsFallback_eq (h : f.SamePermitted r₁ r₂) {seed : NodeId} (hseed : f.Permits r₁ seed)
    (tokenBudget : Nat) :
    bfsFallback r₁ seed f.toEdgeFilter tokenBudget =
      bfsFallback r₂ seed f.toEdgeFilter tokenBudget := by
  have hR : ∀ s t : Fallback, (s = t ∧ Queued f r₁ s.front) →
      Option.Rel (fun s t => s = t ∧ Queued f r₁ s.front)
        (fallbackStep r₁ f.toEdgeFilter tokenBudget s)
        (fallbackStep r₂ f.toEdgeFilter tokenBudget t) := by
    rintro s _ ⟨rfl, hs⟩
    rw [← fallbackStep_eq h tokenBudget hs]
    cases hstep : fallbackStep r₁ f.toEdgeFilter tokenBudget s with
    | none => exact .none
    | some s' => exact .some ⟨rfl, fallbackStep_queued hs hstep⟩
  have hrun := iterate_rel (fallbackStep_decreases r₁ f.toEdgeFilter tokenBudget)
    (fallbackStep_decreases r₂ f.toEdgeFilter tokenBudget) hR (fuel r₁) (fuel r₂)
    ⟨Worklist.start seed, [], 0⟩ ⟨Worklist.start seed, [], 0⟩
    (start_potential_le_fuel r₁ seed) (start_potential_le_fuel r₂ seed)
    ⟨rfl, queued_start hseed⟩
  exact congrArg Fallback.result hrun.1

end TwoRuns

/-! ### The corridor does not depend on the cost map's iteration order -/

theorem closer_antisymm {a b : ℚ × NodeId} (hab : closer a b) (hba : closer b a) : a = b := by
  rcases hab with h | ⟨h, h'⟩
  · rcases hba with g | ⟨g, _⟩
    · exact absurd (h.trans g) (lt_irrefl _)
    · exact absurd (g ▸ h) (lt_irrefl _)
  · rcases hba with g | ⟨_, g'⟩
    · exact absurd (h ▸ g) (lt_irrefl _)
    · exact Prod.ext h (le_antisymm h' g')

instance : IsTrans (ℚ × NodeId) closer where
  trans a b c hab hbc := by
    rcases hab with h | ⟨h, h'⟩
    · rcases hbc with g | ⟨g, _⟩
      · exact .inl (h.trans g)
      · exact .inl (g ▸ h)
    · rcases hbc with g | ⟨g, g'⟩
      · exact .inl (h ▸ g)
      · exact .inr ⟨h.trans g, h'.trans g'⟩

instance : Std.Total closer where
  total a b := by
    unfold closer
    rcases lt_trichotomy a.1 b.1 with h | h | h
    · exact .inl (.inl h)
    · rcases le_total a.2 b.2 with g | g
      · exact .inl (.inr ⟨h, g⟩)
      · exact .inr (.inr ⟨h.symm, g⟩)
    · exact .inr (.inl h)

theorem sort_closer_perm {l l' : List (ℚ × NodeId)} (h : l.Perm l') :
    l.insertionSort closer = l'.insertionSort closer := by
  refine List.Perm.eq_of_pairwise (fun _ _ _ _ => closer_antisymm)
    (List.pairwise_insertionSort closer l) (List.pairwise_insertionSort closer l') ?_
  exact (List.perm_insertionSort closer l).trans
    (h.trans (List.perm_insertionSort closer l').symm)

theorem routeAndContext_perm (graph : DiGraph) (lambda : ℚ) {costs costs' : List (Nat × ℚ)}
    (h : costs.Perm costs') (totalCost : ℚ) (route : List Nat) :
    routeAndContext graph lambda costs totalCost route =
      routeAndContext graph lambda costs' totalCost route := by
  unfold routeAndContext
  simp only
  rw [sort_closer_perm (((h.filter _).filterMap _).filter _)]

theorem mem_graph_of_mem_routeAndContext {graph : DiGraph} {lambda : ℚ}
    {costs : List (Nat × ℚ)} {totalCost : ℚ} {route : List Nat} {id : NodeId}
    (h : id ∈ routeAndContext graph lambda costs totalCost route) : id ∈ graph.nodes := by
  unfold routeAndContext at h
  simp only [List.mem_append, List.mem_map, List.mem_insertionSort, List.mem_filter] at h
  rcases h with h | ⟨p, ⟨hp, _⟩, rfl⟩
  · obtain ⟨idx, _, hidx⟩ := List.mem_filterMap.mp h
    exact List.mem_of_getElem? hidx
  · obtain ⟨c, _, hc⟩ := List.mem_filterMap.mp hp
    obtain ⟨x, hx, rfl⟩ := Option.map_eq_some_iff.mp hc
    exact List.mem_of_getElem? hx

theorem mem_buildGraph_nodes {st : Expansion} {id : NodeId} (h : id ∈ (buildGraph st).nodes) :
    ∃ n, n ∈ st.nodes ∧ n.id = id := by
  have h' : id ∈ st.nodes.rows.map Node.id := (List.mem_insertionSort _).mp h
  exact List.mem_map.mp h'

/-- Execution-path retrieval under a corpus filter does not depend on denied nodes: two
stores with the same permitted part give the same node list, and so does the fallback on its
own. The searches are the same on both sides, up to the iteration order of the cost map. -/
theorem pcstPath_noninterference (f : RbacFilter) (r₁ r₂ : Reader) (h : f.SamePermitted r₁ r₂)
    (petgraph₁ petgraph₂ : Petgraph) (hastar : petgraph₁.astar = petgraph₂.astar)
    (hdijkstra : ∀ g i, (petgraph₁.dijkstra g i).Perm (petgraph₂.dijkstra g i))
    (lambda : ℚ) (source sink : NodeId) (hsource : f.Permits r₁ source) (tokenBudget : Nat) :
    pcstPath petgraph₁ lambda r₁ source sink f.toEdgeFilter tokenBudget =
        pcstPath petgraph₂ lambda r₂ source sink f.toEdgeFilter tokenBudget ∧
      bfsFallback r₁ source f.toEdgeFilter tokenBudget =
        bfsFallback r₂ source f.toEdgeFilter tokenBudget := by
  have hfall := bfsFallback_eq h hsource tokenBudget
  refine ⟨?_, hfall⟩
  unfold pcstPath
  rw [← accessible_eq h source, ← accessible_eq h sink]
  cases accessible r₁ f.toEdgeFilter source with
  | none => rfl
  | some sourceNode =>
    cases hsink : accessible r₁ f.toEdgeFilter sink with
    | none => rfl
    | some sinkNode =>
      obtain ⟨hlocal, hknown⟩ :=
        expandLocalSubgraph_eq h hsource (permits_of_accessible hsink) expandDepth
      simp only [← hlocal, ← hfall, ← hastar]
      split_ifs
      · rfl
      · cases (buildGraph
          (expandLocalSubgraph r₁ source sink f.toEdgeFilter expandDepth)).nodes.idxOf? source with
        | none => rfl
        | some srcIdx =>
          cases (buildGraph
            (expandLocalSubgraph r₁ source sink f.toEdgeFilter expandDepth)).nodes.idxOf? sink with
          | none => rfl
          | some dstIdx =>
            simp only
            cases petgraph₁.astar
              (buildGraph (expandLocalSubgraph r₁ source sink f.toEdgeFilter expandDepth))
              srcIdx dstIdx with
            | none => rfl
            | some found =>
              obtain ⟨totalCost, route⟩ := found
              simp only
              rw [← routeAndContext_perm _ lambda (hdijkstra _ srcIdx)]
              rw [withinBudget_eq h]
              intro id hid
              obtain ⟨n, hn, rfl⟩ := mem_buildGraph_nodes (mem_graph_of_mem_routeAndContext hid)
              exact ⟨n, hknown n hn⟩

/-- What petgraph answers on two nodes joined by a call edge, its cost map in either order. -/
def twoNodeSearch (costs : List (Nat × ℚ)) : Petgraph where
  dijkstra := fun _ _ => costs
  astar := fun _ _ _ => some (1, [0, 1])

theorem pcstPath_noninterference_bridged :
    pcstPath (twoNodeSearch [(0, 0), (1, 1)]) (1 / 2) (Reader.scan openStore) 1 2
          (RbacFilter.toEdgeFilter ⟨{"a"}⟩) 100 =
        pcstPath (twoNodeSearch [(1, 1), (0, 0)]) (1 / 2) (Reader.scan bridgedStore) 1 2
          (RbacFilter.toEdgeFilter ⟨{"a"}⟩) 100 ∧
      bfsFallback (Reader.scan openStore) 1 (RbacFilter.toEdgeFilter ⟨{"a"}⟩) 100 =
        bfsFallback (Reader.scan bridgedStore) 1 (RbacFilter.toEdgeFilter ⟨{"a"}⟩) 100 :=
  pcstPath_noninterference ⟨{"a"}⟩ (Reader.scan openStore) (Reader.scan bridgedStore)
    samePermitted_bridgedStore
    (twoNodeSearch [(0, 0), (1, 1)]) (twoNodeSearch [(1, 1), (0, 0)]) rfl
    (fun _ _ => List.Perm.swap _ _ _) (1 / 2) 1 2 (by decide) 100

end Travsr.Retrieval.Pcst
