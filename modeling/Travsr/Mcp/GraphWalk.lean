import Mathlib.Data.Finset.Prod
import Mathlib.Data.Fintype.Card
import Travsr.Lib.Fifo
import Travsr.Mcp.GraphQuery

namespace Travsr.Mcp

open Travsr.Core Travsr.Store

variable {r : Reader} {args : GraphQueryArgs} {w w' : Walk} {current : Queued} {e : NextEdge}

/-! ### What an expansion leads to -/

section retain

variable {α κ : Type} [DecidableEq κ] {key : α → κ}

theorem retainFirst_sublist (seen : List κ) (l : List α) :
    (retainFirst key seen l).Sublist l := by
  induction l generalizing seen with
  | nil => exact .slnil
  | cons a l ih =>
    rw [retainFirst]
    split_ifs
    · exact (ih seen).cons a
    · exact (ih _).cons_cons a

theorem exists_mem_retainFirst (key : α → κ) {seen : List κ} {l : List α} {a : α} (ha : a ∈ l)
    (hseen : key a ∉ seen) : ∃ b ∈ retainFirst key seen l, key b = key a := by
  induction l generalizing seen with
  | nil => cases ha
  | cons c l ih =>
    rw [retainFirst]
    by_cases hca : key c = key a
    · rw [if_neg (hca ▸ hseen)]
      exact ⟨c, List.mem_cons_self, hca⟩
    · have hal : a ∈ l := (List.mem_cons.mp ha).resolve_left fun h => hca (h ▸ rfl)
      split_ifs
      · exact ih hal hseen
      · have hseen' : key a ∉ key c :: seen := by
          rw [List.mem_cons, not_or]
          exact ⟨fun h => hca h.symm, hseen⟩
        obtain ⟨b, hb, hkey⟩ := ih hal hseen'
        exact ⟨b, List.mem_cons_of_mem c hb, hkey⟩

end retain

theorem followedEdges_subset {mode : QueryEdgeMode} {incoming : List Edge} {x : Edge}
    (hx : x ∈ followedEdges mode incoming) : x ∈ incoming := by
  unfold followedEdges at hx
  split at hx
  · split_ifs at hx
    · exact (List.mem_filter.mp hx).1
    · exact hx
  · exact hx

theorem mem_followedEdges (mode : QueryEdgeMode) {incoming : List Edge} {x : Edge}
    (hx : x ∈ incoming) (hsem : isSemanticEdge x.kind = true) :
    x ∈ followedEdges mode incoming := by
  unfold followedEdges
  split
  · rw [if_pos (List.any_eq_true.mpr ⟨x, hx, hsem⟩)]
    exact List.mem_filter.mpr ⟨hx, by rw [hsem]; rfl⟩
  · exact hx

theorem mem_incomingEdges {id : NodeId} {isSeed : Bool} {x : Edge}
    (hx : x ∈ incomingEdges r id isSeed) : ∃ target, x ∈ r.iterEdgesTo target := by
  unfold incomingEdges at hx
  split at hx
  · split at hx
    · split_ifs at hx
      · rcases List.mem_append.mp hx with hx | hx
        · exact ⟨id, hx⟩
        · obtain ⟨defId, -, hx⟩ := List.mem_flatMap.mp hx
          exact ⟨defId, (List.mem_filter.mp hx).1⟩
      · exact ⟨id, hx⟩
    · exact ⟨id, hx⟩
  · exact ⟨id, hx⟩

theorem iterEdgesTo_subset_incomingEdges {id : NodeId} (isSeed : Bool) {x : Edge}
    (hx : x ∈ r.iterEdgesTo id) : x ∈ incomingEdges r id isSeed := by
  unfold incomingEdges
  split
  · split
    · split_ifs
      · exact List.mem_append_left _ hx
      · exact hx
    · exact hx
  · exact hx

theorem mem_nextEdges {id : NodeId} {direction : QueryDirection} {mode : QueryEdgeMode}
    {isSeed : Bool} (he : e ∈ nextEdges r id direction mode isSeed) :
    (∃ x ∈ r.iterEdgesFrom id, e = outgoingNext x) ∨
      ∃ x ∈ followedEdges mode (incomingEdges r id isSeed), e = incomingNext x := by
  unfold nextEdges at he
  have he := (retainFirst_sublist _ _).subset (SortDedup.mem_sortBy.mp he)
  rcases List.mem_append.mp he with he | he
  · split_ifs at he
    · obtain ⟨x, hx, rfl⟩ := List.mem_map.mp he
      exact .inl ⟨x, hx, rfl⟩
    · cases he
  · split_ifs at he
    · obtain ⟨x, hx, rfl⟩ := List.mem_map.mp he
      exact .inr ⟨x, hx, rfl⟩
    · cases he

def edgeEnds (r : Reader) : Finset NodeId :=
  (r.store.edges.rows.map EdgeRow.src ++ r.store.edges.rows.map EdgeRow.dst).toFinset

theorem next_mem_edgeEnds {id : NodeId} {direction : QueryDirection} {mode : QueryEdgeMode}
    {isSeed : Bool} (he : e ∈ nextEdges r id direction mode isSeed) : e.next ∈ edgeEnds r := by
  unfold edgeEnds
  rw [List.mem_toFinset, List.mem_append]
  rcases mem_nextEdges he with ⟨x, hx, rfl⟩ | ⟨x, hx, rfl⟩
  · obtain ⟨-, row, hrow, rfl⟩ := Reader.mem_iterEdgesFrom hx
    exact .inr (List.mem_map_of_mem hrow)
  · obtain ⟨target, hx⟩ := mem_incomingEdges (followedEdges_subset hx)
    obtain ⟨-, row, hrow, hsrc⟩ := Reader.mem_iterEdgesTo hx
    refine .inl ?_
    rw [incomingNext, ← hsrc]
    exact List.mem_map_of_mem hrow

theorem mem_expansion (he : e ∈ expansion r args current) :
    current.depth < args.depth ∧ current.expand = true ∧
      e ∈ nextEdges r current.id current.direction args.edgeMode (current.depth == 0) := by
  unfold expansion at he
  split_ifs at he with h
  · cases he
  · rw [not_or, not_le, Bool.not_eq_false] at h
    exact ⟨h.1, h.2, he⟩

theorem isSome_getNode_of_stored {id : NodeId} (h : r.store.Stored id) :
    (r.getNode id).isSome := by
  rw [Reader.getNode, Option.isSome_map]
  exact Relational.Table.has_iff_find?.mp h

/-! ### One turn of the loop -/

def NextEdge.place (e : NextEdge) : NodeId × Bool := (e.next, e.incoming)

def met (r : Reader) (includeNoise : Bool) :
    Finset (NodeId × Bool) → List NextEdge → List NextEdge
  | _, [] => []
  | visited, e :: es =>
    (if e.place ∉ visited ∧ hidden r includeNoise e.next = false then [e] else []) ++
      met r includeNoise (insert e.place visited) es

section follow

variable {includeNoise : Bool} {visited : Finset (NodeId × Bool)} {es : List NextEdge}

theorem met_sublist : (met r includeNoise visited es).Sublist es := by
  induction es generalizing visited with
  | nil => exact .slnil
  | cons e es ih =>
    rw [met]
    split_ifs
    · exact ih.cons_cons e
    · exact ih.cons e

theorem exists_mem_met (r : Reader) (includeNoise : Bool) (visited : Finset (NodeId × Bool))
    (he : e ∈ es) : e.place ∈ visited ∨ hidden r includeNoise e.next = true ∨
      ∃ b ∈ met r includeNoise visited es, b.place = e.place := by
  induction es generalizing visited with
  | nil => cases he
  | cons c es ih =>
    by_cases hplace : c.place = e.place
    · have hnext : c.next = e.next := congrArg Prod.fst hplace
      by_cases hnew : c.place ∉ visited ∧ hidden r includeNoise c.next = false
      · refine .inr (.inr ⟨c, ?_, hplace⟩)
        rw [met, if_pos hnew]
        exact List.mem_append_left _ (List.mem_singleton.mpr rfl)
      · rw [hplace, hnext, not_and_or, not_not, Bool.not_eq_false] at hnew
        exact hnew.imp_right .inl
    · have hes : e ∈ es := (List.mem_cons.mp he).resolve_left fun h => hplace (h ▸ rfl)
      rw [met]
      have hrest : e.place ∈ insert c.place visited ∨ hidden r includeNoise e.next = true ∨
          ∃ b ∈ met r includeNoise (insert c.place visited) es, b.place = e.place := ih _ hes
      rcases hrest with h | h | ⟨b, hb, hbe⟩
      · exact .inl ((Finset.mem_insert.mp h).resolve_left fun h => hplace h.symm)
      · exact .inr (.inl h)
      · exact .inr (.inr ⟨b, List.mem_append_right _ hb, hbe⟩)

@[simp] theorem follow_nodes : (follow r includeNoise current w e).nodes = w.nodes := by
  unfold follow
  dsimp only
  split_ifs <;> rfl

@[simp] theorem follow_nodeIndex :
    (follow r includeNoise current w e).nodeIndex = w.nodeIndex := by
  unfold follow
  dsimp only
  split_ifs <;> rfl

@[simp] theorem follow_visited :
    (follow r includeNoise current w e).visited = insert e.place w.visited := by
  unfold follow NextEdge.place
  dsimp only
  by_cases hmem : (e.next, e.incoming) ∈ w.visited
  · rw [if_pos hmem, Finset.insert_eq_of_mem hmem]
  · rw [if_neg hmem, apply_ite Walk.visited, ite_self]

@[simp] theorem follow_queue : (follow r includeNoise current w e).queue =
    w.queue ++ (if e.place ∉ w.visited ∧ hidden r includeNoise e.next = false then [e]
      else []).map (queuedNext current) := by
  unfold follow NextEdge.place
  dsimp only
  by_cases hmem : (e.next, e.incoming) ∈ w.visited
  · simp [hmem]
  · by_cases hhid : hidden r includeNoise e.next = true
    · simp [hmem, hhid]
    · simp [hmem, hhid]

@[simp] theorem follow_tree : (follow r includeNoise current w e).tree =
    w.tree ++ (if e.place ∉ w.visited ∧ hidden r includeNoise e.next = false then [e]
      else []).map (treeStep current) := by
  unfold follow NextEdge.place
  dsimp only
  by_cases hmem : (e.next, e.incoming) ∈ w.visited
  · simp [hmem]
  · by_cases hhid : hidden r includeNoise e.next = true
    · simp [hmem, hhid]
    · simp [hmem, hhid]

@[simp] theorem foldl_follow_nodes :
    (es.foldl (follow r includeNoise current) w).nodes = w.nodes := by
  induction es generalizing w with
  | nil => rfl
  | cons e es ih => rw [List.foldl_cons, ih, follow_nodes]

@[simp] theorem foldl_follow_nodeIndex :
    (es.foldl (follow r includeNoise current) w).nodeIndex = w.nodeIndex := by
  induction es generalizing w with
  | nil => rfl
  | cons e es ih => rw [List.foldl_cons, ih, follow_nodeIndex]

theorem mem_foldl_follow_visited {x : NodeId × Bool} :
    x ∈ (es.foldl (follow r includeNoise current) w).visited ↔
      x ∈ w.visited ∨ ∃ e ∈ es, x = e.place := by
  induction es generalizing w with
  | nil => simp
  | cons e es ih =>
    rw [List.foldl_cons, ih, follow_visited, Finset.mem_insert, List.exists_mem_cons_iff]
    tauto

@[simp] theorem foldl_follow_queue : (es.foldl (follow r includeNoise current) w).queue =
    w.queue ++ (met r includeNoise w.visited es).map (queuedNext current) := by
  induction es generalizing w with
  | nil => simp [met]
  | cons e es ih =>
    rw [List.foldl_cons, ih, follow_queue, follow_visited, met, List.map_append, List.append_assoc]

@[simp] theorem foldl_follow_tree : (es.foldl (follow r includeNoise current) w).tree =
    w.tree ++ (met r includeNoise w.visited es).map (treeStep current) := by
  induction es generalizing w with
  | nil => simp [met]
  | cons e es ih =>
    rw [List.foldl_cons, ih, follow_tree, follow_visited, met, List.map_append, List.append_assoc]

end follow

@[simp] theorem emit_queue : (emit r current w).queue = w.queue := by
  unfold emit
  split
  · split_ifs <;> rfl
  · rfl

@[simp] theorem emit_tree : (emit r current w).tree = w.tree := by
  unfold emit
  split
  · split_ifs <;> rfl
  · rfl

@[simp] theorem emit_visited : (emit r current w).visited = w.visited := by
  unfold emit
  split
  · split_ifs <;> rfl
  · rfl

/-- What one turn does with the head of the queue. -/
structure Turn (r : Reader) (args : GraphQueryArgs) (current : Queued) (rest : List Queued)
    (w w' : Walk) : Prop where
  nodes : w'.nodes = (emit r current w).nodes
  nodeIndex : w'.nodeIndex = (emit r current w).nodeIndex
  queue : w'.queue = rest ++
    (met r args.includeNoise w.visited (expansion r args current)).map (queuedNext current)
  tree : w'.tree = w.tree ++
    (met r args.includeNoise w.visited (expansion r args current)).map (treeStep current)
  visited : ∀ x, x ∈ w'.visited ↔ x ∈ w.visited ∨ ∃ e ∈ expansion r args current, x = e.place

theorem emit_nodes_congr (hnodes : w.nodes = w'.nodes) (hindex : w.nodeIndex = w'.nodeIndex) :
    (emit r current w).nodes = (emit r current w').nodes ∧
      (emit r current w).nodeIndex = (emit r current w').nodeIndex := by
  unfold emit
  rw [hnodes, hindex]
  split
  · split_ifs <;> simp [hnodes, hindex]
  · simp [hnodes, hindex]

theorem walkStep_of_queue (r : Reader) (args : GraphQueryArgs) {rest : List Queued}
    (h : w.queue = current :: rest) :
    ∃ w', walkStep r args w = some w' ∧ Turn r args current rest w w' := by
  have hemit : (emit r current { w with queue := rest }).nodes = (emit r current w).nodes ∧
      (emit r current { w with queue := rest }).nodeIndex = (emit r current w).nodeIndex :=
    emit_nodes_congr rfl rfl
  refine ⟨_, by rw [walkStep, h], ?_, ?_, ?_, ?_, fun x => ?_⟩
  · rw [foldl_follow_nodes, hemit.1]
  · rw [foldl_follow_nodeIndex, hemit.2]
  · rw [foldl_follow_queue, emit_queue, emit_visited]
  · rw [foldl_follow_tree, emit_tree, emit_visited]
  · rw [mem_foldl_follow_visited, emit_visited]

theorem exists_turn (h : walkStep r args w = some w') :
    ∃ current rest, w.queue = current :: rest ∧ Turn r args current rest w w' := by
  cases hq : w.queue with
  | nil =>
    rw [walkStep, hq] at h
    cases h
  | cons current rest =>
    obtain ⟨w'', hstep, hturn⟩ := walkStep_of_queue r args hq
    rw [h] at hstep
    exact ⟨current, rest, rfl, Option.some.inj hstep ▸ hturn⟩

theorem drains (r : Reader) (args : GraphQueryArgs) :
    Fifo.Drains (walkStep r args) Walk.queue Queued.depth where
  stop := fun w h => by rw [walkStep, h]
  next := fun w current rest h => by
    obtain ⟨w', hstep, hturn⟩ := walkStep_of_queue r args h
    refine ⟨w', _, hstep, hturn.queue, fun b hb => ?_⟩
    obtain ⟨e, -, rfl⟩ := List.mem_map.mp hb
    rfl

/-! ### The loop ends -/

def potential (r : Reader) (w : Walk) : Nat :=
  w.queue.length + ((edgeEnds r ×ˢ Finset.univ) \ w.visited).card

theorem length_met_le (r : Reader) (includeNoise : Bool) {visited visited' : Finset (NodeId × Bool)}
    {es : List NextEdge} (hends : ∀ e ∈ es, e.next ∈ edgeEnds r)
    (hvisited : ∀ x, x ∈ visited' ↔ x ∈ visited ∨ ∃ e ∈ es, x = e.place) :
    (met r includeNoise visited es).length + ((edgeEnds r ×ˢ Finset.univ) \ visited').card ≤
      ((edgeEnds r ×ˢ Finset.univ) \ visited).card := by
  induction es generalizing visited with
  | nil =>
    have heq : visited' = visited := by
      ext x
      simp [hvisited]
    rw [heq, met, List.length_nil, Nat.zero_add]
  | cons e es ih =>
    obtain ⟨he, hes⟩ := List.forall_mem_cons.mp hends
    have hvisited' : ∀ x, x ∈ visited' ↔ x ∈ insert e.place visited ∨ ∃ b ∈ es, x = b.place := by
      intro x
      rw [hvisited, List.exists_mem_cons_iff, Finset.mem_insert]
      tauto
    have hrest := ih hes hvisited'
    have hsub : (edgeEnds r ×ˢ Finset.univ) \ insert e.place visited ⊆
        (edgeEnds r ×ˢ Finset.univ) \ visited :=
      Finset.sdiff_subset_sdiff le_rfl (Finset.subset_insert _ _)
    rw [met]
    split_ifs with hnew
    · have hlt : ((edgeEnds r ×ˢ Finset.univ) \ insert e.place visited).card <
          ((edgeEnds r ×ˢ Finset.univ) \ visited).card := by
        apply Finset.card_lt_card
        rw [Finset.ssubset_iff_of_subset hsub]
        refine ⟨e.place, ?_, by simp⟩
        rw [Finset.mem_sdiff, Finset.mem_product]
        exact ⟨⟨he, Finset.mem_univ _⟩, hnew.1⟩
      rw [List.length_append, List.length_singleton]
      omega
    · have := Finset.card_le_card hsub
      rw [List.nil_append]
      omega

theorem potential_decreases : Loop.Decreases (walkStep r args) (potential r) := by
  intro w w' h
  obtain ⟨current, rest, hq, hturn⟩ := exists_turn h
  have hends : ∀ e ∈ expansion r args current, e.next ∈ edgeEnds r := fun e he =>
    next_mem_edgeEnds (mem_expansion he).2.2
  have hle := length_met_le r args.includeNoise hends hturn.visited
  unfold potential
  rw [hturn.queue, hq, List.length_append, List.length_map, List.length_cons]
  omega

theorem potential_start_le (seed : NodeId) (direction : QueryDirection) :
    potential r (Walk.start seed direction) ≤ walkFuel r := by
  have hends : (edgeEnds r).card ≤ 2 * r.store.edges.rows.length := by
    refine (List.toFinset_card_le _).trans ?_
    rw [List.length_append, List.length_map, List.length_map]
    omega
  have hcard := Finset.card_le_card (Finset.sdiff_subset (s := edgeEnds r ×ˢ (Finset.univ : Finset Bool))
    (t := (Walk.start seed direction).visited))
  rw [Finset.card_product, Finset.card_univ, Fintype.card_bool] at hcard
  have hqueue : (Walk.start seed direction).queue.length = 1 := rfl
  unfold potential walkFuel
  omega

theorem walkStep_walkFrom (seed : NodeId) :
    walkStep r args (walkFrom r args seed) = none :=
  Loop.iterate_halts potential_decreases _ _ (potential_start_le seed args.direction)

/-- A state the loop goes through. -/
def Passes (r : Reader) (args : GraphQueryArgs) (seed : NodeId) (w : Walk) : Prop :=
  Fifo.Leads (walkStep r args) (Walk.start seed args.direction) w

theorem passes_walkFrom (r : Reader) (args : GraphQueryArgs) (seed : NodeId) :
    Passes r args seed (walkFrom r args seed) := Fifo.leads_iterate _ _ _

theorem queue_walkFrom (r : Reader) (args : GraphQueryArgs) (seed : NodeId) :
    (walkFrom r args seed).queue = [] :=
  (drains r args).queue_of_end (walkStep_walkFrom seed)

end Travsr.Mcp
