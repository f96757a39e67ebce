import Mathlib.Data.Finset.Union
import Travsr.Retrieval.Ppr

namespace Travsr.Retrieval.Ppr

open Travsr.Core Store Relational

variable {f : RbacFilter} {r : Reader}

/-! ### The gate -/

theorem find?_getNodes {ids : List NodeId} {id : NodeId} (h : id ∈ ids) :
    (r.getNodes ids).find? (fun n => n.id = id) = r.getNode id := by
  unfold Reader.getNodes
  induction ids with
  | nil => cases h
  | cons x xs ih =>
    by_cases hx : x = id
    · subst hx
      cases hg : r.getNode x with
      | some n =>
        rw [List.filterMap_cons_some hg, List.find?_cons_of_pos]
        simp [Reader.getNode_id hg]
      | none =>
        rw [List.filterMap_cons_none hg, List.find?_eq_none]
        intro n hn hid
        obtain ⟨y, _, hy⟩ := List.mem_filterMap.mp hn
        have hnx : n.id = x := by simpa using hid
        obtain rfl : y = x := (Reader.getNode_id hy).symm.trans hnx
        rw [hg] at hy
        cases hy
    · have hmem : id ∈ xs := (List.mem_cons.mp h).resolve_left (Ne.symm hx)
      cases hg : r.getNode x with
      | some n =>
        rw [List.filterMap_cons_some hg, List.find?_cons_of_neg, ih hmem]
        simpa [Reader.getNode_id hg] using hx
      | none => rw [List.filterMap_cons_none hg, ih hmem]

theorem gate_eq {edges : List Edge} {e : Edge} (he : e ∈ edges) :
    gate f.toEdgeFilter (dstCorpora r f.toEdgeFilter edges) e = true ↔ f.Permits r e.dst := by
  have hmem : e.dst ∈ ((edges.map Edge.dst).insertionSort (fun a b => a ≤ b)).dedup := by
    rw [List.mem_dedup, List.mem_insertionSort]
    exact List.mem_map_of_mem he
  have hneeds : f.toEdgeFilter.needsCorpus = true := rfl
  unfold gate dstCorpora
  rw [hneeds, if_pos rfl, find?_getNodes hmem, Bool.not_true, Bool.false_or]
  exact f.allow_iff_permits r e.src e.dst e.dst

def permittedEdges (f : RbacFilter) (r : Reader) (chunk : List NodeId) : List Edge :=
  (r.iterEdgesFromBatch chunk).filter (fun e => f.Permits r e.dst)

def growChunk (edges : List Edge) (st : Subgraph) (chunk : List NodeId) : Subgraph :=
  { edges.foldl addEdge st with adj := chunk.foldl touchAdj (edges.foldl addEdge st).adj }

theorem expandChunk_eq (st : Subgraph) (chunk : List NodeId) :
    expandChunk r f.toEdgeFilter st chunk = growChunk (permittedEdges f r chunk) st chunk := by
  have hfold : ∀ (edges : List Edge) (es : List Edge) (st : Subgraph), (∀ e ∈ es, e ∈ edges) →
      es.foldl (fun st e => if gate f.toEdgeFilter (dstCorpora r f.toEdgeFilter edges) e
        then addEdge st e else st) st =
        (es.filter (fun e => f.Permits r e.dst)).foldl addEdge st := by
    intro edges es
    induction es with
    | nil => intro st _; rfl
    | cons e es ih =>
      intro st hsub
      have hrest : ∀ x ∈ es, x ∈ edges := fun x hx => hsub x (List.mem_cons_of_mem _ hx)
      rw [List.foldl_cons, ih _ hrest]
      have hgate := gate_eq (f := f) (r := r) (hsub e List.mem_cons_self)
      by_cases hp : f.Permits r e.dst
      · rw [if_pos (hgate.mpr hp), List.filter_cons_of_pos (by simpa using hp), List.foldl_cons]
      · rw [if_neg (mt hgate.mp hp), List.filter_cons_of_neg (by simpa using hp)]
  unfold expandChunk growChunk permittedEdges
  simp only
  rw [hfold _ _ st (fun e he => he)]

/-! ### What a chunk adds -/

theorem chunksFrom_flatten {α : Type} (size : Nat) (current l : List α) :
    (chunksFrom size current l).flatten = current ++ l := by
  induction l generalizing current with
  | nil =>
    unfold chunksFrom
    cases current <;> simp
  | cons x xs ih =>
    unfold chunksFrom
    split_ifs
    · rw [List.flatten_cons, ih, List.singleton_append]
    · rw [ih, List.append_assoc, List.singleton_append]

def target (e : Edge) : NodeId × ℚ := (e.dst, e.kind.pprWeight)

def targets (adj : WeightedAdj) (u : NodeId) : List (NodeId × ℚ) :=
  ((adj.find? u).map Prod.snd).getD []

theorem find?_pushAdj (adj : WeightedAdj) (src : NodeId) (t : NodeId × ℚ) (u : NodeId) :
    (pushAdj adj src t).find? u =
      if src = u then some (u, targets adj u ++ [t]) else adj.find? u := by
  unfold pushAdj targets
  rw [Table.find?_upsert]
  by_cases h : src = u
  · subst h
    rw [if_pos rfl, if_pos rfl]
    cases hf : adj.find? src with
    | none => rfl
    | some p =>
      have hp : p.1 = src := (Table.mem_of_find? hf).2
      simp [hp]
  · rw [if_neg h, if_neg h]

theorem find?_touchAdj (adj : WeightedAdj) (src u : NodeId) :
    (touchAdj adj src).find? u = if src = u then some (u, targets adj u) else adj.find? u := by
  unfold touchAdj targets
  rw [Table.find?_insertIgnore]
  by_cases h : src = u
  · subst h
    rw [if_pos rfl, if_pos rfl]
    cases hf : adj.find? src with
    | none => rfl
    | some p =>
      have hp : p.1 = src := (Table.mem_of_find? hf).2
      simp [← hp]
  · rw [if_neg h, if_neg h]

theorem find?_foldl_addEdge (edges : List Edge) (st : Subgraph) (u : NodeId) :
    (edges.foldl addEdge st).adj.find? u =
      if edges.filter (fun e => e.src = u) = [] then st.adj.find? u
      else some (u, targets st.adj u ++ (edges.filter (fun e => e.src = u)).map target) := by
  induction edges generalizing st with
  | nil => simp
  | cons e es ih =>
    rw [List.foldl_cons, ih]
    have hadj : (addEdge st e).adj = pushAdj st.adj e.src (target e) := rfl
    rw [hadj]
    by_cases h : e.src = u
    · have hcons : (e :: es).filter (fun e => e.src = u) =
          e :: es.filter (fun e => e.src = u) := List.filter_cons_of_pos (by simpa using h)
      have htargets : targets (pushAdj st.adj e.src (target e)) u =
          targets st.adj u ++ [target e] := by
        rw [targets, find?_pushAdj, if_pos h]
        rfl
      rw [hcons, if_neg (List.cons_ne_nil _ _), htargets, find?_pushAdj, if_pos h]
      split_ifs with hnil
      · rw [hnil]
        rfl
      · rw [List.map_cons, List.append_assoc, List.singleton_append]
    · have hcons : (e :: es).filter (fun e => e.src = u) = es.filter (fun e => e.src = u) :=
        List.filter_cons_of_neg (by simpa using h)
      have htargets : targets (pushAdj st.adj e.src (target e)) u = targets st.adj u := by
        rw [targets, find?_pushAdj, if_neg h]
        rfl
      rw [hcons, htargets, find?_pushAdj, if_neg h]

theorem find?_foldl_touchAdj (chunk : List NodeId) (adj : WeightedAdj) (u : NodeId) :
    (chunk.foldl touchAdj adj).find? u =
      if u ∈ chunk then some (u, targets adj u) else adj.find? u := by
  induction chunk generalizing adj with
  | nil => simp
  | cons x xs ih =>
    have htargets : targets (touchAdj adj x) u = targets adj u := by
      rw [targets, find?_touchAdj]
      split_ifs with h
      · rfl
      · rfl
    rw [List.foldl_cons, ih, htargets, find?_touchAdj]
    by_cases hx : x = u
    · subst hx
      simp
    · have : u ∈ x :: xs ↔ u ∈ xs := by
        rw [List.mem_cons]
        exact or_iff_right (Ne.symm hx)
      simp only [this, if_neg hx]

theorem foldl_addEdge_seen (edges : List Edge) (st : Subgraph)
    (hsub : ∀ x ∈ st.nextFrontier, x ∈ st.visited) (hnd : st.nextFrontier.Nodup) :
    (edges.foldl addEdge st).visited = st.visited ∪ (edges.map Edge.dst).toFinset ∧
    (edges.foldl addEdge st).nextFrontier.Nodup ∧
    (∀ x, x ∈ (edges.foldl addEdge st).nextFrontier ↔
      x ∈ st.nextFrontier ∨ (x ∈ edges.map Edge.dst ∧ x ∉ st.visited)) := by
  induction edges generalizing st with
  | nil =>
    refine ⟨by simp, hnd, ?_⟩
    intro x
    simp
  | cons e es ih =>
    rw [List.foldl_cons]
    by_cases hv : e.dst ∈ st.visited
    · have hvis : (addEdge st e).visited = st.visited := by
        simp [addEdge, visit, hv]
      have hnext : (addEdge st e).nextFrontier = st.nextFrontier := by
        simp [addEdge, visit, hv]
      obtain ⟨h1, h2, h3⟩ := ih (addEdge st e) (by rw [hvis, hnext]; exact hsub)
        (by rw [hnext]; exact hnd)
      refine ⟨?_, h2, ?_⟩
      · rw [h1, hvis, List.map_cons, List.toFinset_cons, Finset.union_insert,
          Finset.insert_eq_of_mem (Finset.mem_union_left _ hv)]
      · intro x
        rw [h3, hvis, hnext, List.map_cons, List.mem_cons]
        constructor
        · rintro (hx | hx)
          · exact .inl hx
          · exact .inr ⟨.inr hx.1, hx.2⟩
        · rintro (hx | ⟨rfl | hx, hn⟩)
          · exact .inl hx
          · exact absurd hv hn
          · exact .inr ⟨hx, hn⟩
    · have hvis : (addEdge st e).visited = insert e.dst st.visited := by
        simp [addEdge, visit, hv]
      have hnext : (addEdge st e).nextFrontier = st.nextFrontier ++ [e.dst] := by
        simp [addEdge, visit, hv]
      have hfresh : e.dst ∉ st.nextFrontier := fun h => hv (hsub _ h)
      obtain ⟨h1, h2, h3⟩ := ih (addEdge st e)
        (by
          rw [hvis, hnext]
          intro x hx
          rcases List.mem_append.mp hx with hx | hx
          · exact Finset.mem_insert_of_mem (hsub x hx)
          · rw [List.mem_singleton.mp hx]
            exact Finset.mem_insert_self _ _)
        (by
          rw [hnext, ← List.concat_eq_append]
          exact hnd.concat hfresh)
      refine ⟨?_, h2, ?_⟩
      · rw [h1, hvis, List.map_cons, List.toFinset_cons, Finset.union_insert,
          Finset.insert_union]
      · intro x
        rw [h3, hvis, hnext, List.map_cons, List.mem_cons, List.mem_append,
          List.mem_singleton, Finset.mem_insert, not_or]
        constructor
        · rintro ((hx | rfl) | hx)
          · exact .inl hx
          · exact .inr ⟨.inl rfl, hv⟩
          · exact .inr ⟨.inr hx.1, hx.2.2⟩
        · rintro (hx | ⟨rfl | hx, hn⟩)
          · exact .inl (.inl hx)
          · exact .inl (.inr rfl)
          · by_cases hxe : x = e.dst
            · exact .inl (.inr hxe)
            · exact .inr ⟨hx, hxe, hn⟩

theorem mem_foldl_addEdge_reverseAdj (edges : List Edge) (st : Subgraph) (v : NodeId) :
    v ∈ (edges.foldl addEdge st).reverseAdj ↔ v ∈ st.reverseAdj ∨ v ∈ edges.map Edge.dst := by
  induction edges generalizing st with
  | nil => simp
  | cons e es ih =>
    have hrev : (addEdge st e).reverseAdj = st.reverseAdj.insertIgnore e.dst := rfl
    rw [List.foldl_cons, ih, hrev, Table.mem_insertIgnore, List.map_cons, List.mem_cons]
    constructor
    · rintro ((h | h) | h)
      · exact .inl h
      · exact .inr (.inl h.1)
      · exact .inr (.inr h)
    · rintro (h | rfl | h)
      · exact .inl (.inl h)
      · by_cases hv : e.dst ∈ st.reverseAdj
        · exact .inl (.inl hv)
        · refine .inl (.inr ⟨rfl, ?_⟩)
          rintro ⟨x, hx, hxv⟩
          obtain rfl : x = e.dst := hxv
          exact hv hx
      · exact .inr h

/-! ### The subgraph below the ceiling -/

/-- The permitted edges of one source, in the order its query returns them. -/
def outgoing (f : RbacFilter) (r : Reader) (u : NodeId) : List (NodeId × ℚ) :=
  ((r.iterEdgesFrom u).filter (fun e => f.Permits r e.dst)).map target

def neighbours (f : RbacFilter) (r : Reader) (s : Finset NodeId) : Finset NodeId :=
  s.biUnion (fun u => ((outgoing f r u).map Prod.fst).toFinset)

/-- The nodes at most `d` permitted edges away from the seeds. -/
def reach (f : RbacFilter) (r : Reader) (seeds : Finset NodeId) : Nat → Finset NodeId
  | 0 => seeds
  | d + 1 => reach f r seeds d ∪ neighbours f r (reach f r seeds d)

/-- The nodes whose edges have been read before depth `d`. -/
def explored (f : RbacFilter) (r : Reader) (seeds : Finset NodeId) : Nat → Finset NodeId
  | 0 => ∅
  | d + 1 => reach f r seeds d

theorem reach_mono (seeds : Finset NodeId) {d d' : Nat} (h : d ≤ d') :
    reach f r seeds d ⊆ reach f r seeds d' := by
  induction h with
  | refl => exact Finset.Subset.refl _
  | step _ ih => exact ih.trans Finset.subset_union_left

theorem neighbours_mono {s t : Finset NodeId} (h : s ⊆ t) :
    neighbours f r s ⊆ neighbours f r t :=
  Finset.biUnion_subset_biUnion_of_subset_left _ h

theorem neighbours_union (s t : Finset NodeId) :
    neighbours f r (s ∪ t) = neighbours f r s ∪ neighbours f r t :=
  Finset.union_biUnion

theorem reach_succ_eq (seeds : Finset NodeId) (d : Nat) :
    reach f r seeds (d + 1) = reach f r seeds d ∪
      neighbours f r (reach f r seeds d \ explored f r seeds d) := by
  have hold : neighbours f r (explored f r seeds d) ⊆ reach f r seeds d := by
    cases d with
    | zero => simp [explored, neighbours]
    | succ n => exact Finset.subset_union_right
  have hsplit : reach f r seeds d ⊆
      explored f r seeds d ∪ (reach f r seeds d \ explored f r seeds d) := by
    intro x hx
    by_cases hxe : x ∈ explored f r seeds d
    · exact Finset.mem_union_left _ hxe
    · exact Finset.mem_union_right _ (Finset.mem_sdiff.mpr ⟨hx, hxe⟩)
  apply Finset.Subset.antisymm
  · refine Finset.union_subset Finset.subset_union_left ?_
    refine (neighbours_mono hsplit).trans ?_
    rw [neighbours_union]
    exact Finset.union_subset_union_left hold
  · exact Finset.union_subset_union_right (neighbours_mono Finset.sdiff_subset)

theorem explored_subset_reach (seeds : Finset NodeId) (d : Nat) :
    explored f r seeds d ⊆ reach f r seeds d := by
  cases d with
  | zero => exact Finset.empty_subset _
  | succ n => exact reach_mono seeds (Nat.le_succ n)

/-- The adjacency and the presence set after the edges of `read` have been read. -/
structure Records (f : RbacFilter) (r : Reader) (read : Finset NodeId) (st : Subgraph) : Prop where
  adj : ∀ u, st.adj.find? u = if u ∈ read then some (u, outgoing f r u) else none
  reverseAdj : ∀ v, v ∈ st.reverseAdj ↔ v ∈ neighbours f r read

/-- In the middle of a depth: the sources of `done` have been read as well. -/
structure Midway (f : RbacFilter) (r : Reader) (seeds : Finset NodeId) (d : Nat)
    (done : Finset NodeId) (st : Subgraph) : Prop where
  records : Records f r (explored f r seeds d ∪ done) st
  visited : st.visited = reach f r seeds d ∪ neighbours f r done
  nodup : st.nextFrontier.Nodup
  frontier : ∀ x, x ∈ st.nextFrontier ↔ x ∈ neighbours f r done ∧ x ∉ reach f r seeds d

theorem permittedEdges_src {chunk : List NodeId} {u : NodeId} (hu : u ∉ chunk) :
    (permittedEdges f r chunk).filter (fun e => e.src = u) = [] := by
  rw [List.filter_eq_nil_iff]
  intro e he hsrc
  obtain ⟨row, hrow, rfl⟩ := List.mem_map.mp (List.mem_filter.mp he).1
  obtain rfl : row.src = u := of_decide_eq_true hsrc
  exact hu (r.batch_src chunk row hrow)

theorem permittedEdges_from {chunk : List NodeId} {u : NodeId} (hu : u ∈ chunk) :
    ((permittedEdges f r chunk).filter (fun e => e.src = u)).map target = outgoing f r u := by
  have hrows : (r.iterEdgesFromBatch chunk).filter (fun e => e.src = u) = r.iterEdgesFrom u := by
    unfold Reader.iterEdgesFromBatch Reader.iterEdgesFrom
    rw [List.filter_map, ← r.batch_from chunk u hu]
    rfl
  unfold permittedEdges outgoing
  rw [List.filter_filter, ← hrows, List.filter_filter]
  congr 1
  apply List.filter_congr
  intro e _
  rw [Bool.and_comm]

theorem mem_permittedEdges_dst {chunk : List NodeId} {v : NodeId} :
    v ∈ (permittedEdges f r chunk).map Edge.dst ↔ v ∈ neighbours f r chunk.toFinset := by
  simp only [neighbours, Finset.mem_biUnion, List.mem_toFinset]
  constructor
  · intro h
    obtain ⟨e, he, rfl⟩ := List.mem_map.mp h
    obtain ⟨row, hrow, rfl⟩ := List.mem_map.mp (List.mem_filter.mp he).1
    have hsrc := r.batch_src chunk row hrow
    refine ⟨row.src, hsrc, ?_⟩
    rw [← permittedEdges_from hsrc, List.map_map, List.mem_map]
    refine ⟨row.toEdge, ?_, rfl⟩
    rw [List.mem_filter]
    exact ⟨he, by simp [EdgeRow.toEdge]⟩
  · rintro ⟨u, hu, hv⟩
    rw [← permittedEdges_from hu, List.map_map, List.mem_map] at hv
    obtain ⟨e, he, rfl⟩ := hv
    exact List.mem_map.mpr ⟨e, (List.mem_filter.mp he).1, rfl⟩

theorem Midway.chunk {seeds done : Finset NodeId} {d : Nat} {st : Subgraph}
    (h : Midway f r seeds d done st) {chunk : List NodeId}
    (hfresh : ∀ u ∈ chunk, u ∉ explored f r seeds d ∪ done) :
    Midway f r seeds d (done ∪ chunk.toFinset) (growChunk (permittedEdges f r chunk) st chunk) := by
  have hsub : ∀ x ∈ st.nextFrontier, x ∈ st.visited := by
    intro x hx
    rw [h.visited]
    exact Finset.mem_union_right _ ((h.frontier x).mp hx).1
  obtain ⟨hvis, hnd, hnext⟩ :=
    foldl_addEdge_seen (permittedEdges f r chunk) st hsub h.nodup
  have hdst : ((permittedEdges f r chunk).map Edge.dst).toFinset =
      neighbours f r chunk.toFinset := by
    ext v
    rw [List.mem_toFinset, mem_permittedEdges_dst]
  refine ⟨⟨?_, ?_⟩, ?_, hnd, ?_⟩
  · intro u
    change ((chunk.foldl touchAdj _).find? u) = _
    rw [find?_foldl_touchAdj, targets, find?_foldl_addEdge]
    by_cases hu : u ∈ chunk
    · have hnone : st.adj.find? u = none := by
        rw [h.records.adj, if_neg (hfresh u hu)]
      have htargets : targets st.adj u = [] := by
        rw [targets, hnone]
        rfl
      have hin : u ∈ explored f r seeds d ∪ (done ∪ chunk.toFinset) := by simp [hu]
      rw [if_pos hu, if_pos hin, ← permittedEdges_from hu]
      split_ifs with hnil
      · rw [hnone, hnil]
        rfl
      · rw [htargets, List.nil_append]
        rfl
    · rw [if_neg hu, permittedEdges_src hu, if_pos rfl, h.records.adj]
      have hiff : u ∈ explored f r seeds d ∪ (done ∪ chunk.toFinset) ↔
          u ∈ explored f r seeds d ∪ done := by
        simp [hu]
      simp only [hiff]
  · intro v
    change v ∈ ((permittedEdges f r chunk).foldl addEdge st).reverseAdj ↔ _
    rw [mem_foldl_addEdge_reverseAdj, h.records.reverseAdj, mem_permittedEdges_dst,
      ← Finset.union_assoc, neighbours_union (explored f r seeds d ∪ done), Finset.mem_union]
  · change ((permittedEdges f r chunk).foldl addEdge st).visited = _
    rw [hvis, h.visited, hdst, neighbours_union, Finset.union_assoc]
  · intro x
    change x ∈ ((permittedEdges f r chunk).foldl addEdge st).nextFrontier ↔ _
    rw [hnext, h.frontier, h.visited, mem_permittedEdges_dst, neighbours_union,
      Finset.mem_union, Finset.mem_union]
    constructor
    · rintro (⟨hx, hn⟩ | ⟨hx, hn⟩)
      · exact ⟨.inl hx, hn⟩
      · exact ⟨.inr hx, fun hr => hn (.inl hr)⟩
    · rintro ⟨hx, hn⟩
      by_cases hd : x ∈ neighbours f r done
      · exact .inl ⟨hd, hn⟩
      · exact .inr ⟨hx.resolve_left hd, fun hr => hr.elim hn hd⟩

theorem Midway.chunks {seeds : Finset NodeId} {d : Nat}
    (hceil : (reach f r seeds (d + 1)).card < maxSubgraphNodes) (chunks : List (List NodeId)) :
    ∀ {done : Finset NodeId} {st : Subgraph}, Midway f r seeds d done st →
      chunks.flatten.Nodup → (∀ u ∈ chunks.flatten, u ∉ explored f r seeds d ∪ done) →
      (∀ u ∈ chunks.flatten, u ∈ reach f r seeds d) → done ⊆ reach f r seeds d →
      Midway f r seeds d (done ∪ chunks.flatten.toFinset)
        (expandChunks r f.toEdgeFilter chunks st) := by
  induction chunks with
  | nil =>
    intro done st h _ _ _ _
    simpa [expandChunks] using h
  | cons chunk chunks ih =>
    intro done st h hnd hfresh hin hdone
    rw [List.flatten_cons] at hnd hfresh hin
    have hgrown := h.chunk (fun u hu => hfresh u (List.mem_append_left _ hu))
    rw [← expandChunk_eq] at hgrown
    have hdone' : done ∪ chunk.toFinset ⊆ reach f r seeds d := by
      refine Finset.union_subset hdone ?_
      intro u hu
      exact hin u (List.mem_append_left _ (List.mem_toFinset.mp hu))
    have hcard : ¬ maxSubgraphNodes <
        (expandChunk r f.toEdgeFilter st chunk).visited.card := by
      rw [hgrown.visited, not_lt]
      refine le_trans (Finset.card_le_card ?_) hceil.le
      exact Finset.union_subset_union_right (neighbours_mono hdone')
    unfold expandChunks
    simp only
    rw [if_neg hcard]
    have hrest := ih hgrown (List.nodup_append.mp hnd).2.1
      (by
        intro u hu hmem
        rw [← Finset.union_assoc, Finset.mem_union, List.mem_toFinset] at hmem
        rcases hmem with hmem | hmem
        · exact hfresh u (List.mem_append_right _ hu) hmem
        · exact (List.nodup_append.mp hnd).2.2 u hmem u hu rfl)
      (fun u hu => hin u (List.mem_append_right _ hu)) hdone'
    rw [List.flatten_cons, List.toFinset_append, ← Finset.union_assoc]
    exact hrest

/-- Between two depths. -/
structure AtDepth (f : RbacFilter) (r : Reader) (seeds : Finset NodeId) (d : Nat)
    (frontier : List NodeId) (st : Subgraph) : Prop where
  records : Records f r (explored f r seeds d) st
  visited : st.visited = reach f r seeds d
  nodup : frontier.Nodup
  frontier : ∀ x, x ∈ frontier ↔ x ∈ reach f r seeds d \ explored f r seeds d

theorem AtDepth.settled {seeds : Finset NodeId} {d : Nat} {st : Subgraph}
    (h : AtDepth f r seeds d [] st) (left : Nat) : AtDepth f r seeds (d + left) [] st := by
  have hstep : ∀ {d : Nat}, AtDepth f r seeds d [] st → AtDepth f r seeds (d + 1) [] st := by
    intro d h
    have hempty : reach f r seeds d \ explored f r seeds d = ∅ := by
      apply Finset.eq_empty_of_forall_notMem
      intro x hx
      exact absurd ((h.frontier x).mpr hx) List.not_mem_nil
    have hreach : reach f r seeds (d + 1) = reach f r seeds d := by
      rw [reach_succ_eq, hempty]
      simp [neighbours]
    have hexplored : explored f r seeds (d + 1) = explored f r seeds d :=
      Finset.Subset.antisymm (Finset.sdiff_eq_empty_iff_subset.mp hempty)
        (explored_subset_reach seeds d)
    refine ⟨?_, ?_, List.nodup_nil, ?_⟩
    · rw [hexplored]
      exact h.records
    · rw [hreach]
      exact h.visited
    · intro x
      rw [hreach, hexplored]
      exact h.frontier x
  induction left with
  | zero => exact h
  | succ n ih => exact hstep ih

theorem AtDepth.levels {seeds : Finset NodeId} (left : Nat) :
    ∀ {d : Nat} {frontier : List NodeId} {st : Subgraph},
      (reach f r seeds (d + left)).card < maxSubgraphNodes →
      AtDepth f r seeds d frontier st →
      Records f r (explored f r seeds (d + left))
        (expandLevels r f.toEdgeFilter left frontier st) := by
  induction left with
  | zero =>
    intro d frontier st _ h
    exact h.records
  | succ n ih =>
    intro d frontier st hceil h
    have hceil' : (reach f r seeds (d + 1)).card < maxSubgraphNodes :=
      lt_of_le_of_lt (Finset.card_le_card (reach_mono seeds (by omega))) hceil
    have hvis : ¬ maxSubgraphNodes ≤ st.visited.card := by
      rw [h.visited, not_le]
      exact lt_of_le_of_lt (Finset.card_le_card (reach_mono seeds (Nat.le_succ d))) hceil'
    unfold expandLevels
    cases hfr : frontier with
    | nil =>
      rw [if_pos (.inl rfl)]
      rw [hfr] at h
      exact (h.settled (n + 1)).records
    | cons x xs =>
      rw [← hfr]
      rw [if_neg (by rw [hfr]; simp only [List.isEmpty_cons, Bool.false_eq_true, false_or]; exact hvis)]
      simp only
      have hflat : (chunksFrom edgeBatchSize [] frontier).flatten = frontier := by
        rw [chunksFrom_flatten, List.nil_append]
      have hstart : Midway f r seeds d ∅ { st with nextFrontier := [] } := by
        refine ⟨?_, ?_, List.nodup_nil, ?_⟩
        · rw [Finset.union_empty]
          exact ⟨h.records.adj, h.records.reverseAdj⟩
        · simp [h.visited, neighbours]
        · intro y
          simp [neighbours]
      have hmid := hstart.chunks hceil' (chunksFrom edgeBatchSize [] frontier)
        (by rw [hflat]; exact h.nodup)
        (by
          intro u hu
          rw [hflat, h.frontier, Finset.mem_sdiff] at hu
          rw [Finset.union_empty]
          exact hu.2)
        (by
          intro u hu
          rw [hflat, h.frontier, Finset.mem_sdiff] at hu
          exact hu.1)
        (Finset.empty_subset _)
      rw [hflat, Finset.empty_union] at hmid
      have hdone : frontier.toFinset = reach f r seeds d \ explored f r seeds d := by
        ext y
        rw [List.mem_toFinset, h.frontier]
      rw [hdone] at hmid
      have hreach := reach_succ_eq (f := f) (r := r) seeds d
      have hvisited : (expandChunks r f.toEdgeFilter (chunksFrom edgeBatchSize [] frontier)
          { st with nextFrontier := [] }).visited = reach f r seeds (d + 1) := by
        rw [hmid.visited, hreach]
      have hexplored : explored f r seeds d ∪ (reach f r seeds d \ explored f r seeds d) =
          explored f r seeds (d + 1) := by
        rw [Finset.union_sdiff_of_subset (explored_subset_reach seeds d)]
        rfl
      rw [if_neg (by rw [hvisited]; exact not_lt.mpr hceil'.le)]
      have hnext : AtDepth f r seeds (d + 1)
          (expandChunks r f.toEdgeFilter (chunksFrom edgeBatchSize [] frontier)
            { st with nextFrontier := [] }).nextFrontier
          (expandChunks r f.toEdgeFilter (chunksFrom edgeBatchSize [] frontier)
            { st with nextFrontier := [] }) := by
        refine ⟨hexplored ▸ hmid.records, hvisited, hmid.nodup, ?_⟩
        intro y
        rw [hmid.frontier, hreach, Finset.mem_sdiff, Finset.mem_union]
        constructor
        · rintro ⟨hy, hn⟩
          exact ⟨.inr hy, hn⟩
        · rintro ⟨hy, hn⟩
          exact ⟨hy.resolve_left hn, hn⟩
      have hsum : d + (n + 1) = d + 1 + n := by omega
      rw [hsum] at hceil ⊢
      exact ih hceil hnext

theorem foldl_visit (seeds : List NodeId) (state : Finset NodeId × List NodeId)
    (hnd : state.2.Nodup) (hsame : ∀ x, x ∈ state.2 ↔ x ∈ state.1) :
    (seeds.foldl visit state).1 = state.1 ∪ seeds.toFinset ∧
    (seeds.foldl visit state).2.Nodup ∧
    (∀ x, x ∈ (seeds.foldl visit state).2 ↔ x ∈ (seeds.foldl visit state).1) := by
  induction seeds generalizing state with
  | nil => exact ⟨by simp, hnd, hsame⟩
  | cons s seeds ih =>
    rw [List.foldl_cons]
    by_cases hs : s ∈ state.1
    · have hv : visit state s = state := by simp [visit, hs]
      rw [hv]
      obtain ⟨h1, h2, h3⟩ := ih state hnd hsame
      refine ⟨?_, h2, h3⟩
      rw [h1, List.toFinset_cons, Finset.union_insert,
        Finset.insert_eq_of_mem (Finset.mem_union_left _ hs)]
    · have hv : visit state s = (insert s state.1, state.2 ++ [s]) := by simp [visit, hs]
      have hfresh : s ∉ state.2 := fun h => hs ((hsame s).mp h)
      rw [hv]
      obtain ⟨h1, h2, h3⟩ := ih (insert s state.1, state.2 ++ [s])
        (by
          rw [← List.concat_eq_append]
          exact hnd.concat hfresh)
        (by
          intro x
          simp only [List.mem_append, List.mem_singleton, Finset.mem_insert, hsame x]
          exact or_comm)
      refine ⟨?_, h2, h3⟩
      rw [h1, List.toFinset_cons, Finset.union_insert, Finset.insert_union]

/-- Below the ceiling the subgraph is what the seeds reach, in whatever order its nodes are
found: every source within five edges of a seed has its permitted edges recorded. -/
theorem buildWeightedSubgraph_records (seeds : List NodeId)
    (hceil : (reach f r seeds.toFinset pprBfsDepth).card < maxSubgraphNodes) :
    Records f r (reach f r seeds.toFinset 5)
      (buildWeightedSubgraph r f.toEdgeFilter seeds) := by
  obtain ⟨h1, h2, h3⟩ := foldl_visit seeds (∅, []) List.nodup_nil (by simp)
  rw [Finset.empty_union] at h1
  have hstart : AtDepth f r seeds.toFinset 0 (seeds.foldl visit (∅, [])).2
      ⟨Table.empty, Table.empty, (seeds.foldl visit (∅, [])).1, []⟩ := by
    refine ⟨⟨?_, ?_⟩, h1, h2, ?_⟩
    · intro u
      simp [explored, Table.find?, Table.empty]
    · intro v
      simp [explored, neighbours]
    · intro x
      rw [h3, h1]
      simp [explored, reach]
  have h := hstart.levels pprBfsDepth (by rw [Nat.zero_add]; exact hceil)
  exact h

end Travsr.Retrieval.Ppr
