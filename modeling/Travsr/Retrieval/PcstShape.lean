import Mathlib.Algebra.Order.BigOperators.Group.List
import Travsr.Retrieval.PcstRoute

namespace Travsr.Retrieval.Pcst

open Travsr.Core Store Relational Loop

variable {r : Reader} {filter : EdgeFilter} {source sink : NodeId} {tokenBudget : Nat}

theorem accessible_eq_some {id : NodeId} {n : Node} : accessible r filter id = some n ↔
    r.getNode id = some n ∧ filter.allow id id (some n.vname.corpus) = true :=
  Option.filter_eq_some_iff

/-! ### The nodes and edges a search may use -/

/-- An expansion in which every node is accessible, both ends are there and no edge is free. -/
structure Vetted (r : Reader) (filter : EdgeFilter) (source sink : NodeId) (st : Expansion) :
    Prop where
  nodes : ∀ n, n ∈ st.nodes → accessible r filter n.id = some n
  source : st.nodes.Has source
  sink : st.nodes.Has sink
  positive : ∀ e ∈ st.edges, 0 < e.2.2

theorem edgeCost_pos (kind : EdgeKind) : 0 < edgeCost kind := by
  have hweight := kind.pprWeight_pos
  unfold edgeCost costFromWeight
  rw [if_pos hweight]
  exact one_div_pos.mpr hweight

theorem mem_noteNode {nodes : Table Node Node.id} {id : NodeId} {n : Node}
    (h : n ∈ noteNode r filter nodes id) : n ∈ nodes ∨ accessible r filter n.id = some n := by
  unfold noteNode at h
  cases hn : r.getNode id with
  | none =>
    rw [hn] at h
    exact .inl h
  | some m =>
    rw [hn] at h
    dsimp only at h
    split_ifs at h with hallow
    · rcases Table.mem_insertIgnore.mp h with h | ⟨rfl, _⟩
      · exact .inl h
      · have hid := Reader.getNode_id hn
        subst hid
        exact .inr (accessible_eq_some.mpr ⟨hn, hallow⟩)
    · exact .inl h

theorem has_noteNode_of_has {nodes : Table Node Node.id} {id x : NodeId} (h : nodes.Has x) :
    (noteNode r filter nodes id).Has x := by
  unfold noteNode
  cases r.getNode id with
  | none => exact h
  | some m =>
    dsimp only
    split_ifs
    · obtain ⟨n, hn, rfl⟩ := h
      exact ⟨n, Table.mem_insertIgnore.mpr (.inl hn), rfl⟩
    · exact h

theorem has_noteNode_self {nodes : Table Node Node.id} {id : NodeId} {n : Node}
    (h : accessible r filter id = some n) : (noteNode r filter nodes id).Has id := by
  obtain ⟨hn, hallow⟩ := accessible_eq_some.mp h
  unfold noteNode
  rw [hn]
  dsimp only
  rw [if_pos hallow, Table.has_iff_find?, Table.find?_insertIgnore, if_pos (Reader.getNode_id hn)]
  cases nodes.find? id <;> rfl

theorem Vetted.relax {st : Expansion} (h : Vetted r filter source sink st) (pass : Pass)
    (maxDepth current depth : Nat) (e : Edge) :
    Vetted r filter source sink (relax r filter pass maxDepth current depth st e) := by
  rcases relax_cases r filter pass maxDepth current depth st e with heq | heq
  · rw [heq]
    exact h
  · rw [heq]
    have hnodes := follow_nodes pass maxDepth current depth st e
    refine ⟨?_, ?_, ?_, fun e' he' => ?_⟩
    · rw [hnodes]
      exact h.nodes
    · rw [hnodes]
      exact h.source
    · rw [hnodes]
      exact h.sink
    · have hedges : (follow pass maxDepth current depth st e).edges =
          (addEdge (pass.link current e) (edgeCost e.kind) st).edges := by
        unfold follow enqueue
        split_ifs <;> rfl
      rw [hedges] at he'
      unfold addEdge at he'
      split_ifs at he'
      · exact h.positive e' he'
      · rcases List.mem_append.mp he' with he' | he'
        · exact h.positive e' he'
        · rw [List.mem_singleton.mp he']
          exact edgeCost_pos e.kind

theorem Vetted.step {pass : Pass} {maxDepth : Nat} {st st' : Expansion}
    (h : Vetted r filter source sink st)
    (hstep : expandStep r filter pass maxDepth st = some st') :
    Vetted r filter source sink st' := by
  unfold expandStep at hstep
  cases hq : st.front.queue with
  | nil =>
    rw [hq] at hstep
    cases hstep
  | cons head rest =>
    obtain ⟨current, depth⟩ := head
    rw [hq] at hstep
    dsimp only at hstep
    split_ifs at hstep
    obtain rfl := Option.some.inj hstep
    refine List.foldlRecOn _ _ (motive := Vetted r filter source sink) ?_ ?_
    · refine ⟨fun n hn => ?_, has_noteNode_of_has h.source, has_noteNode_of_has h.sink, h.positive⟩
      rcases mem_noteNode hn with hn | hn
      · exact h.nodes n hn
      · exact hn
    · intro st'' h'' e _
      exact h''.relax pass maxDepth current depth e

theorem expandLocalSubgraph_vetted {sourceNode sinkNode : Node}
    (hsource : accessible r filter source = some sourceNode)
    (hsink : accessible r filter sink = some sinkNode) (maxDepth : Nat) :
    Vetted r filter source sink (expandLocalSubgraph r source sink filter maxDepth) := by
  have hpass : ∀ (pass : Pass) (start : NodeId) (st : Expansion),
      Vetted r filter source sink st →
        Vetted r filter source sink (runPass r filter pass maxDepth start st) := by
    intro pass start st h
    exact iterate_invariant (fun s s' hs hstep => Vetted.step hs hstep) _ _
      ⟨h.nodes, h.source, h.sink, h.positive⟩
  refine hpass reverse sink _ (hpass forward source _ ⟨fun n hn => ?_, ?_, ?_, ?_⟩)
  · rcases mem_noteNode hn with hn | hn
    · rcases mem_noteNode hn with hn | hn
      · exact absurd hn (Table.not_mem_empty n)
      · exact hn
    · exact hn
  · exact has_noteNode_of_has (has_noteNode_self hsource)
  · exact has_noteNode_self hsink
  · exact fun e he => absurd he List.not_mem_nil

/-! ### The budget -/

def tokensOf (r : Reader) (ids : List NodeId) : Nat :=
  (ids.map fun id => ((r.getNode id).map tokenCost).getD 0).sum

theorem tokensOf_cons (r : Reader) (id : NodeId) (ids : List NodeId) :
    tokensOf r (id :: ids) = ((r.getNode id).map tokenCost).getD 0 + tokensOf r ids := rfl

theorem withinBudget_sublist (r : Reader) (tokenBudget tokensUsed : Nat) (ids : List NodeId) :
    ((withinBudget r tokenBudget tokensUsed ids).map Node.id).Sublist ids := by
  induction ids generalizing tokensUsed with
  | nil => exact List.Sublist.slnil
  | cons id ids ih =>
    rw [withinBudget]
    cases hn : r.getNode id with
    | none => exact (ih tokensUsed).cons id
    | some n =>
      dsimp only
      split_ifs
      · exact List.nil_sublist _
      · rw [List.map_cons, Reader.getNode_id hn]
        exact (ih _).cons_cons id

theorem getNode_of_mem_withinBudget {tokensUsed : Nat} {ids : List NodeId} {n : Node}
    (h : n ∈ withinBudget r tokenBudget tokensUsed ids) : r.getNode n.id = some n := by
  induction ids generalizing tokensUsed with
  | nil => exact absurd h List.not_mem_nil
  | cons id ids ih =>
    rw [withinBudget] at h
    cases hn : r.getNode id with
    | none =>
      rw [hn] at h
      exact ih h
    | some m =>
      rw [hn] at h
      dsimp only at h
      split_ifs at h
      · exact absurd h List.not_mem_nil
      · rcases List.mem_cons.mp h with rfl | h
        · rw [Reader.getNode_id hn, hn]
        · exact ih h

theorem withinBudget_spent {tokensUsed : Nat} (h : tokensUsed ≤ tokenBudget) (ids : List NodeId) :
    tokensUsed + ((withinBudget r tokenBudget tokensUsed ids).map tokenCost).sum ≤ tokenBudget := by
  induction ids generalizing tokensUsed with
  | nil => exact h
  | cons id ids ih =>
    rw [withinBudget]
    cases r.getNode id with
    | none => exact ih h
    | some n =>
      dsimp only
      split_ifs with hover
      · exact h
      · have hrest := ih (not_lt.mp hover)
        rw [List.map_cons, List.sum_cons]
        omega

theorem mem_withinBudget_iff {ids : List NodeId} (hids : ∀ id ∈ ids, (r.getNode id).isSome)
    (tokensUsed : Nat) (x : NodeId) :
    (∃ n ∈ withinBudget r tokenBudget tokensUsed ids, n.id = x) ↔
      ∃ before rest, ids = before ++ x :: rest ∧
        tokensUsed + tokensOf r (before ++ [x]) ≤ tokenBudget := by
  induction ids generalizing tokensUsed with
  | nil =>
    constructor
    · rintro ⟨n, hn, _⟩
      exact absurd hn List.not_mem_nil
    · rintro ⟨before, rest, he, _⟩
      simp at he
  | cons id ids ih =>
    obtain ⟨hid, hids⟩ := List.forall_mem_cons.mp hids
    obtain ⟨n, hn⟩ := Option.isSome_iff_exists.mp hid
    have hcost : ∀ l, tokensOf r (id :: l) = tokenCost n + tokensOf r l := by
      intro l
      rw [tokensOf_cons, hn]
      rfl
    rw [withinBudget, hn]
    dsimp only
    split_ifs with hover
    · constructor
      · rintro ⟨m, hm, _⟩
        exact absurd hm List.not_mem_nil
      · rintro ⟨before, rest, he, hle⟩
        exfalso
        cases before with
        | nil =>
          obtain ⟨rfl, _⟩ := List.cons.inj he
          have h1 := hcost []
          rw [List.nil_append] at hle
          omega
        | cons y before =>
          obtain ⟨rfl, _⟩ := List.cons.inj he
          have h1 := hcost (before ++ [x])
          rw [List.cons_append] at hle
          omega
    · have hrest := ih hids (tokensUsed + tokenCost n)
      constructor
      · rintro ⟨m, hm, rfl⟩
        rcases List.mem_cons.mp hm with rfl | hm
        · refine ⟨[], ids, by rw [Reader.getNode_id hn]; rfl, ?_⟩
          have h1 := hcost []
          rw [List.nil_append, Reader.getNode_id hn]
          have h0 : tokensOf r [] = 0 := rfl
          omega
        · obtain ⟨before, rest, rfl, hle⟩ := hrest.mp ⟨m, hm, rfl⟩
          refine ⟨id :: before, rest, rfl, ?_⟩
          have h1 := hcost (before ++ [m.id])
          rw [List.cons_append]
          omega
      · rintro ⟨before, rest, he, hle⟩
        cases before with
        | nil =>
          obtain ⟨rfl, _⟩ := List.cons.inj he
          exact ⟨n, List.mem_cons_self, Reader.getNode_id hn⟩
        | cons y before =>
          obtain ⟨rfl, rfl⟩ := List.cons.inj he
          have h1 := hcost (before ++ [x])
          rw [List.cons_append] at hle
          obtain ⟨m, hm, hmx⟩ := hrest.mpr ⟨before, rest, rfl, by omega⟩
          exact ⟨m, List.mem_cons_of_mem _ hm, hmx⟩

/-! ### The fallback -/

/-- Where the fallback goes from a node: nowhere from a stored node that is denied. -/
def fallbackNext (r : Reader) (filter : EdgeFilter) (u : NodeId) : List NodeId :=
  if (r.getNode u).isSome ∧ (accessible r filter u).isNone then []
  else ((r.iterEdgesFrom u).map Edge.dst).filter fun v =>
    filter.allow u v ((r.getNode v).map fun n => n.vname.corpus)

/-- The accessible nodes in the order the fallback comes to them, were there no budget. -/
def fallbackOrder (r : Reader) (filter : EdgeFilter) (seed : NodeId) : List NodeId :=
  (Bfs.pops (fallbackNext r filter) 3 (fuel r) (Worklist.start seed)).filter fun id =>
    (accessible r filter id).isSome

theorem fallbackExpand_eq_expand {current : NodeId}
    (h : ¬ ((r.getNode current).isSome ∧ (accessible r filter current).isNone)) (depth : Nat)
    (st : Fallback) : fallbackExpand r filter current depth st =
      { st with front := Bfs.expand (fallbackNext r filter) 3 current depth st.front } := by
  unfold fallbackExpand Bfs.expand fallbackNext
  rw [if_neg h]
  split_ifs
  · induction r.iterEdgesFrom current generalizing st with
    | nil => rfl
    | cons e es ih =>
      rw [List.foldl_cons, ih, List.map_cons]
      unfold fallbackRelax
      by_cases hallow :
          filter.allow current e.dst ((r.getNode e.dst).map fun n => n.vname.corpus) = true
      · rw [if_pos hallow, List.filter_cons, if_pos hallow]
        rfl
      · rw [if_neg hallow, List.filter_cons, if_neg hallow]
  · rfl

section Pop

variable {st : Fallback} {current : NodeId} {depth : Nat} {rest : List (NodeId × Nat)}

theorem fallbackStep_of_none (hq : st.front.queue = (current, depth) :: rest) (hdepth : depth ≤ 3)
    (hacc : accessible r filter current = none) :
    fallbackStep r filter tokenBudget st = some
      ⟨Bfs.expand (fallbackNext r filter) 3 current depth ⟨st.front.visited, rest⟩, st.result,
        st.tokensUsed⟩ := by
  unfold fallbackStep
  rw [hq]
  dsimp only
  rw [if_neg (not_lt.mpr hdepth)]
  cases hn : r.getNode current with
  | none =>
    dsimp only
    rw [fallbackExpand_eq_expand (by rw [hn]; simp)]
  | some node =>
    have hdenied : ¬ filter.allow current current (some node.vname.corpus) = true := by
      intro hallow
      have hsome := accessible_eq_some.mpr ⟨hn, hallow⟩
      rw [hacc] at hsome
      cases hsome
    have hstay : Bfs.expand (fallbackNext r filter) 3 current depth ⟨st.front.visited, rest⟩ =
        ⟨st.front.visited, rest⟩ := by
      have hnowhere : fallbackNext r filter current = [] := by
        unfold fallbackNext
        rw [if_pos (by rw [hn, hacc]; simp)]
      unfold Bfs.expand
      rw [hnowhere]
      exact ite_self _
    dsimp only
    rw [if_pos (by simp [hdenied]), hstay]

theorem fallbackStep_of_some {node : Node} (hq : st.front.queue = (current, depth) :: rest)
    (hdepth : depth ≤ 3) (hacc : accessible r filter current = some node) :
    fallbackStep r filter tokenBudget st =
      if tokenBudget < st.tokensUsed + tokenCost node then none
      else some ⟨Bfs.expand (fallbackNext r filter) 3 current depth ⟨st.front.visited, rest⟩,
        st.result ++ [node], st.tokensUsed + tokenCost node⟩ := by
  obtain ⟨hn, hallow⟩ := accessible_eq_some.mp hacc
  unfold fallbackStep
  rw [hq]
  dsimp only
  rw [if_neg (not_lt.mpr hdepth), hn]
  dsimp only
  rw [hallow, if_neg (by simp), fallbackExpand_eq_expand (by rw [hacc]; simp)]

end Pop

theorem iterate_fallbackStep {st : Fallback} {seed : NodeId} {level : NodeId → Nat}
    (h : Bfs.Levels (fallbackNext r filter) 3 seed st.front level) (n : Nat) :
    (Loop.iterate (fallbackStep r filter tokenBudget) n st).result = st.result ++
      withinBudget r tokenBudget st.tokensUsed
        ((Bfs.pops (fallbackNext r filter) 3 n st.front).filter fun id =>
          (accessible r filter id).isSome) := by
  induction n generalizing st level with
  | zero => exact (List.append_nil _).symm
  | succ n ih =>
    cases hq : st.front.queue with
    | nil =>
      have hnone : fallbackStep r filter tokenBudget st = none := by
        unfold fallbackStep
        rw [hq]
      rw [iterate_of_none hnone, Bfs.pops_of_empty hq]
      exact (List.append_nil _).symm
    | cons head rest =>
      obtain ⟨current, depth⟩ := head
      have hdepth : depth ≤ 3 := by
        obtain ⟨hv, hl⟩ := h.queued (current, depth) (by rw [hq]; exact List.mem_cons_self)
        have hle := h.le_limit current hv
        dsimp only at hl
        omega
      obtain ⟨level', h', _⟩ := h.pop hq
      rw [Bfs.pops_succ hq]
      cases hacc : accessible r filter current with
      | none =>
        rw [iterate_succ_of_some (fallbackStep_of_none hq hdepth hacc), List.filter_cons_of_neg]
        · exact ih h'
        · rw [hacc]
          exact Bool.false_ne_true
      | some node =>
        obtain ⟨hn, _⟩ := accessible_eq_some.mp hacc
        have hstep := @fallbackStep_of_some r filter tokenBudget st current depth rest node hq
          hdepth hacc
        rw [List.filter_cons_of_pos (by rw [hacc]; rfl), withinBudget, hn]
        dsimp only
        by_cases hover : tokenBudget < st.tokensUsed + tokenCost node
        · rw [if_pos hover] at hstep
          rw [iterate_of_none hstep, if_pos hover, List.append_nil]
        · rw [if_neg hover] at hstep
          rw [iterate_succ_of_some hstep, if_neg hover]
          refine (ih h').trans ?_
          rw [List.append_assoc]
          rfl

theorem bfsFallback_eq_withinBudget (r : Reader) (filter : EdgeFilter) (seed : NodeId)
    (tokenBudget : Nat) : bfsFallback r seed filter tokenBudget =
      withinBudget r tokenBudget 0 (fallbackOrder r filter seed) :=
  (iterate_fallbackStep (Bfs.levels_start _ _ _) (fuel r)).trans (List.nil_append _)

end Travsr.Retrieval.Pcst
