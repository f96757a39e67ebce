import Travsr.Mcp.GraphWalk

namespace Travsr.Mcp

open Travsr.Core Travsr.Store

variable {r : Reader} {args : GraphQueryArgs} {seed : NodeId} {w w' : Walk} {current : Queued}

/-! ### The order in which nodes are shown -/

def Walk.ids (w : Walk) : List NodeId := w.nodes.map NodeEntry.id

/-- The shown nodes, the tree and the queue of the loop belong together: a tree step leaves a node
that is shown, and whatever is shown or waits, but the seed, has such a step behind it. -/
structure Grown (r : Reader) (seed : NodeId) (w : Walk) : Prop where
  index : ∀ id, id ∈ w.nodeIndex ↔ id ∈ w.ids
  nodup : w.ids.Nodup
  stored : ∀ q ∈ w.queue, (r.getNode q.id).isSome
  parent : ∀ t ∈ w.tree, t.parent ∈ w.ids
  child : ∀ t ∈ w.tree, t.child ∈ w.ids ∨ ∃ q ∈ w.queue, q.id = t.child
  joined : ∀ q ∈ w.queue, q.id = seed ∨ ∃ t ∈ w.tree, t.child = q.id
  seed_first : (w.nodes = [] ∧ w.queue.map Queued.id = [seed]) ∨ w.ids.head? = some seed
  behind : ∀ before id after, w.ids = before ++ id :: after →
    id = seed ∨ ∃ t ∈ w.tree, t.child = id ∧ t.parent ∈ before

theorem grown_start (hseed : (r.getNode seed).isSome) :
    Grown r seed (Walk.start seed args.direction) where
  index := fun id => by simp [Walk.start, Walk.ids]
  nodup := List.nodup_nil
  stored := fun q hq => by
    rw [List.mem_singleton.mp hq]
    exact hseed
  parent := fun t ht => by cases ht
  child := fun t ht => by cases ht
  joined := fun q hq => .inl (by rw [List.mem_singleton.mp hq])
  seed_first := .inl ⟨rfl, rfl⟩
  behind := fun before id after h => by simp [Walk.start, Walk.ids] at h

theorem emit_ids (current : Queued) (hindex : ∀ id, id ∈ w.nodeIndex ↔ id ∈ w.ids)
    (hstored : (r.getNode current.id).isSome) :
    (current.id ∈ w.ids ∧ (emit r current w).ids = w.ids ∧
        (emit r current w).nodeIndex = w.nodeIndex) ∨
      (current.id ∉ w.ids ∧ (emit r current w).ids = w.ids ++ [current.id] ∧
        (emit r current w).nodeIndex = insert current.id w.nodeIndex) := by
  obtain ⟨node, hnode⟩ := Option.isSome_iff_exists.mp hstored
  unfold emit
  rw [hnode]
  dsimp only
  by_cases hmem : current.id ∈ w.nodeIndex
  · rw [if_pos hmem]
    exact .inl ⟨(hindex _).mp hmem, rfl, rfl⟩
  · rw [if_neg hmem]
    refine .inr ⟨fun h => hmem ((hindex _).mpr h), ?_, rfl⟩
    simp only [Walk.ids, List.map_append, List.map_cons, List.map_nil, nodeEntry,
      Reader.getNode_id hnode]

theorem next_stored (hno : r.store.NoOrphans) {e : NextEdge}
    (he : e ∈ expansion r args current) : (r.getNode e.next).isSome := by
  have hmem := next_mem_edgeEnds (mem_expansion he).2.2
  unfold edgeEnds at hmem
  rw [List.mem_toFinset, List.mem_append] at hmem
  apply isSome_getNode_of_stored
  rcases hmem with hmem | hmem
  · obtain ⟨row, hrow, heq⟩ := List.mem_map.mp hmem
    exact heq ▸ (hno row hrow).1
  · obtain ⟨row, hrow, heq⟩ := List.mem_map.mp hmem
    exact heq ▸ (hno row hrow).2

theorem Grown.turn (hno : r.store.NoOrphans) {rest : List Queued} (h : Grown r seed w)
    (hq : w.queue = current :: rest) (ht : Turn r args current rest w w') : Grown r seed w' := by
  have hcurrent : current ∈ w.queue := hq ▸ List.mem_cons_self
  have hids : w'.ids = (emit r current w).ids := congrArg (List.map NodeEntry.id) ht.nodes
  have hemit := emit_ids current h.index (h.stored current hcurrent)
  rw [← hids, ← ht.nodeIndex] at hemit
  have hshown : current.id ∈ w'.ids := by
    rcases hemit with ⟨hmem, heq, -⟩ | ⟨-, heq, -⟩
    · exact heq ▸ hmem
    · rw [heq]
      exact List.mem_append_right _ (List.mem_singleton.mpr rfl)
  have hkept : ∀ id ∈ w.ids, id ∈ w'.ids := by
    intro id hid
    rcases hemit with ⟨-, heq, -⟩ | ⟨-, heq, -⟩
    · exact heq ▸ hid
    · rw [heq]
      exact List.mem_append_left _ hid
  have hqueue : ∀ q ∈ w'.queue, q ∈ rest ∨
      ∃ e ∈ expansion r args current, q = queuedNext current e ∧ treeStep current e ∈ w'.tree := by
    intro q hqm
    rw [ht.queue] at hqm
    rcases List.mem_append.mp hqm with hqm | hqm
    · exact .inl hqm
    · obtain ⟨e, he, rfl⟩ := List.mem_map.mp hqm
      refine .inr ⟨e, met_sublist.subset he, rfl, ?_⟩
      rw [ht.tree]
      exact List.mem_append_right _ (List.mem_map_of_mem he)
  have htree : ∀ t ∈ w'.tree, t ∈ w.tree ∨
      ∃ e, t = treeStep current e ∧ queuedNext current e ∈ w'.queue := by
    intro t htm
    rw [ht.tree] at htm
    rcases List.mem_append.mp htm with htm | htm
    · exact .inl htm
    · obtain ⟨e, he, rfl⟩ := List.mem_map.mp htm
      refine .inr ⟨e, rfl, ?_⟩
      rw [ht.queue]
      exact List.mem_append_right _ (List.mem_map_of_mem he)
  have hgrow : ∀ t ∈ w.tree, t ∈ w'.tree := fun t htm => by
    rw [ht.tree]
    exact List.mem_append_left _ htm
  refine ⟨fun id => ?_, ?_, fun q hqm => ?_, fun t htm => ?_, fun t htm => ?_, fun q hqm => ?_, ?_,
    fun before id after hsplit => ?_⟩
  · rcases hemit with ⟨-, heq, hindex⟩ | ⟨-, heq, hindex⟩
    · rw [heq, hindex]
      exact h.index id
    · rw [heq, hindex, Finset.mem_insert, List.mem_append, List.mem_singleton, h.index, or_comm]
  · rcases hemit with ⟨-, heq, -⟩ | ⟨hout, heq, -⟩
    · exact heq ▸ h.nodup
    · rw [heq, List.nodup_append]
      refine ⟨h.nodup, List.nodup_singleton _, fun a ha b hb hab => hout ?_⟩
      rw [← List.mem_singleton.mp hb, ← hab]
      exact ha
  · rcases hqueue q hqm with hqr | ⟨e, he, rfl, -⟩
    · exact h.stored q (hq ▸ List.mem_cons_of_mem current hqr)
    · exact next_stored hno he
  · rcases htree t htm with htw | ⟨e, rfl, -⟩
    · exact hkept _ (h.parent t htw)
    · exact hshown
  · rcases htree t htm with htw | ⟨e, rfl, hqe⟩
    · rcases h.child t htw with hc | ⟨q, hqw, hqc⟩
      · exact .inl (hkept _ hc)
      · rw [hq] at hqw
        rcases List.mem_cons.mp hqw with rfl | hqr
        · exact .inl (hqc ▸ hshown)
        · refine .inr ⟨q, ?_, hqc⟩
          rw [ht.queue]
          exact List.mem_append_left _ hqr
    · exact .inr ⟨_, hqe, rfl⟩
  · rcases hqueue q hqm with hqr | ⟨e, -, rfl, hstep⟩
    · refine (h.joined q (hq ▸ List.mem_cons_of_mem current hqr)).imp_right ?_
      exact fun ⟨t, htw, hc⟩ => ⟨t, hgrow t htw, hc⟩
    · exact .inr ⟨_, hstep, rfl⟩
  · refine .inr ?_
    rcases h.seed_first with ⟨hnil, hone⟩ | hhead
    · have hnone : w.ids = [] := by rw [Walk.ids, hnil, List.map_nil]
      rw [hq, List.map_cons, List.cons.injEq] at hone
      rcases hemit with ⟨hmem, -, -⟩ | ⟨-, heq, -⟩
      · rw [hnone] at hmem
        cases hmem
      · rw [heq, hnone, hone.1]
        rfl
    · rcases hemit with ⟨-, heq, -⟩ | ⟨-, heq, -⟩
      · exact heq ▸ hhead
      · rw [heq, List.head?_append, hhead]
        rfl
  · have hold : ∀ before id after, w.ids = before ++ id :: after →
        id = seed ∨ ∃ t ∈ w'.tree, t.child = id ∧ t.parent ∈ before := by
      intro before id after hsplit
      refine (h.behind before id after hsplit).imp_right ?_
      exact fun ⟨t, htw, hc⟩ => ⟨t, hgrow t htw, hc⟩
    rcases hemit with ⟨-, heq, -⟩ | ⟨-, heq, -⟩
    · exact hold before id after (heq ▸ hsplit)
    · rw [heq] at hsplit
      rcases List.eq_nil_or_concat after with rfl | ⟨after, last, rfl⟩
      -- the node that was shown last is the head of the queue
      · obtain ⟨hbefore, hid⟩ := List.append_inj' hsplit rfl
        have hid : current.id = id := (List.cons.inj hid).1
        rcases h.joined current hcurrent with hseed | ⟨t, htw, hc⟩
        · exact .inl (hid ▸ hseed)
        · exact .inr ⟨t, hgrow t htw, hc.trans hid, hbefore ▸ h.parent t htw⟩
      · rw [List.concat_eq_append, ← List.cons_append, ← List.append_assoc] at hsplit
        exact hold before id after (List.append_inj' hsplit rfl).1

theorem grown_of_passes (hno : r.store.NoOrphans) (hseed : (r.getNode seed).isSome)
    (h : Passes r args seed w) : Grown r seed w := by
  refine Fifo.Leads.invariant h (fun u v _ hu huv => ?_) (grown_start hseed)
  obtain ⟨current, rest, hq, hturn⟩ := exists_turn huv
  exact hu.turn hno hq hturn

/-! ### The budget -/

theorem keepCount_pos (budget cum : Nat) {i : Nat} (hi : 0 < i) (l : List NodeEntry) :
    ∃ k ≤ l.length, keepCount budget i cum l = i + k ∧
      (k = 0 ∨ cum + ((l.take k).map NodeEntry.tokens).sum ≤ budget) := by
  induction l generalizing i cum with
  | nil => exact ⟨0, le_rfl, rfl, .inl rfl⟩
  | cons n l ih =>
    rw [keepCount]
    split_ifs with h
    · exact ⟨0, Nat.zero_le _, rfl, .inl rfl⟩
    · have hfit : cum + n.tokens ≤ budget := by
        by_contra hover
        exact h ⟨hi, by omega⟩
      obtain ⟨k, hk, hcount, hcost⟩ := ih (cum + n.tokens) (show 0 < i + 1 from Nat.succ_pos i)
      refine ⟨k + 1, by rw [List.length_cons]; omega, by omega, .inr ?_⟩
      rw [List.take_succ_cons, List.map_cons, List.sum_cons]
      rcases hcost with rfl | hcost
      · simpa using hfit
      · omega

theorem keepCount_cons (budget : Nat) (n : NodeEntry) (l : List NodeEntry) :
    ∃ k ≤ l.length, keepCount budget 0 0 (n :: l) = k + 1 ∧
      (k = 0 ∨ (((n :: l).take (k + 1)).map NodeEntry.tokens).sum ≤ budget) := by
  obtain ⟨k, hk, hcount, hcost⟩ :=
    keepCount_pos budget (0 + n.tokens) (Nat.succ_pos 0) l
  refine ⟨k, hk, ?_, hcost.imp_right fun h => ?_⟩
  · rw [keepCount, if_neg (fun h => absurd h.1 (lt_irrefl 0)), hcount]
    omega
  · rw [List.take_succ_cons, List.map_cons, List.sum_cons]
    omega

def Joined (tree : List TreeStep) : NodeId → NodeId → Prop :=
  Relation.ReflTransGen fun a b => ∃ t ∈ tree, t.parent = a ∧ t.child = b

/-- What a payload is after the cut. -/
structure Cut (payload : GraphPayload) (budget : Nat) (cut : GraphPayload × Nat) : Prop where
  kept : cut.1.nodes <+: payload.nodes
  seed_first : cut.1.nodes.head? = payload.seed
  nodup : (cut.1.nodes.map NodeEntry.id).Nodup
  cost : budget = 0 ∨ (cut.1.nodes.map NodeEntry.tokens).sum ≤ budget ∨ cut.1.nodes.length = 1
  joined : ∀ s ∈ payload.seed, ∀ n ∈ cut.1.nodes, Joined cut.1.tree s.id n.id
  steps : ∀ t ∈ cut.1.tree,
    t.parent ∈ cut.1.nodes.map NodeEntry.id ∧ t.child ∈ cut.1.nodes.map NodeEntry.id
  edges : ∀ e ∈ cut.1.edges, ∀ n ∈ payload.nodes, n ∉ cut.1.nodes → e.src ≠ n.id ∧ e.dst ≠ n.id
  count : cut.1.nodes.length + cut.2 = payload.nodes.length

/-- A payload whose shown nodes each have a tree step from a node shown before. -/
structure Ordered (payload : GraphPayload) : Prop where
  seed_first : payload.seed = payload.nodes.head?
  nodup : (payload.nodes.map NodeEntry.id).Nodup
  steps : ∀ t ∈ payload.tree,
    t.parent ∈ payload.nodes.map NodeEntry.id ∧ t.child ∈ payload.nodes.map NodeEntry.id
  behind : ∀ s ∈ payload.nodes.head?, ∀ before n after, payload.nodes = before ++ n :: after →
    n.id = s.id ∨ ∃ t ∈ payload.tree, t.child = n.id ∧ t.parent ∈ before.map NodeEntry.id

section cut

variable {payload : GraphPayload} {budget : Nat}

theorem Ordered.joined (h : Ordered payload) {kept rest : List NodeEntry} {tree : List TreeStep}
    (hsplit : payload.nodes = kept ++ rest)
    (htree : ∀ t ∈ payload.tree, t.parent ∈ kept.map NodeEntry.id →
      t.child ∈ kept.map NodeEntry.id → t ∈ tree)
    {s : NodeEntry} (hs : s ∈ payload.nodes.head?) {before after : List NodeEntry} {n : NodeEntry}
    (hn : kept = before ++ n :: after) : Joined tree s.id n.id := by
  generalize hlen : before.length = k
  induction k using Nat.strong_induction_on generalizing before after n with
  | _ k ih =>
    have hall : payload.nodes = before ++ n :: (after ++ rest) := by
      rw [hsplit, hn, List.append_assoc, List.cons_append]
    rcases h.behind s hs before n _ hall with heq | ⟨t, ht, hchild, hparent⟩
    · rw [heq]
      exact .refl
    · obtain ⟨m, hm, hmid⟩ := List.mem_map.mp hparent
      obtain ⟨first, second, hbefore⟩ := List.append_of_mem hm
      have hm' : kept = first ++ m :: (second ++ n :: after) := by
        rw [hn, hbefore, List.append_assoc, List.cons_append]
      have hlt : first.length < k := by
        rw [← hlen, hbefore, List.length_append, List.length_cons]
        omega
      have hjoined : Joined tree s.id m.id := ih first.length hlt hm' rfl
      refine hjoined.tail ⟨t, htree t ht ?_ ?_, hmid.symm, hchild⟩
      · rw [hm', ← hmid]
        simp
      · rw [hn, hchild]
        simp

theorem Ordered.uncut (h : Ordered payload) {k : Nat} (hcost : budget = 0 ∨
    (payload.nodes.map NodeEntry.tokens).sum ≤ budget ∨ payload.nodes.length = 1) (hk : k = 0) :
    Cut payload budget (payload, k) where
  kept := List.prefix_rfl
  seed_first := h.seed_first.symm
  nodup := h.nodup
  cost := hcost
  joined := fun s hs n hn => by
    obtain ⟨before, after, hsplit⟩ := List.append_of_mem hn
    rw [h.seed_first] at hs
    exact h.joined (List.append_nil _).symm (fun t ht _ _ => ht) hs hsplit
  steps := h.steps
  edges := fun e _ n hn hout => absurd hn hout
  count := by rw [hk, Nat.add_zero]

theorem Ordered.cut (h : Ordered payload) (budget : Nat) :
    Cut payload budget (applyTokenBudget payload budget) := by
  unfold applyTokenBudget
  dsimp only
  split_ifs with hnone hfull
  · refine h.uncut (hnone.imp_right fun hnil => ?_) rfl
    rw [hnil]
    exact .inl (Nat.zero_le _)
  · rw [not_or] at hnone
    obtain ⟨n, l, hnodes⟩ := List.exists_cons_of_ne_nil hnone.2
    obtain ⟨k, hk, hcount, hcost⟩ := keepCount_cons budget n l
    rw [hnodes, hcount, List.length_cons] at hfull
    have hkl : k = l.length := by omega
    refine h.uncut (.inr ?_) rfl
    rw [hnodes, List.length_cons]
    rcases hcost with hzero | hcost
    · right
      omega
    · left
      rwa [hkl, List.take_of_length_le (by rw [List.length_cons])] at hcost
  · rw [not_or] at hnone
    obtain ⟨n, l, hnodes⟩ := List.exists_cons_of_ne_nil hnone.2
    obtain ⟨k, hk, hcount, hcost⟩ := keepCount_cons budget n l
    set keep := keepCount budget 0 0 payload.nodes with hkeep
    have hkeq : keep = k + 1 := by rw [hkeep, hnodes, hcount]
    have hlen : payload.nodes.length = l.length + 1 := by rw [hnodes, List.length_cons]
    have hsplit : payload.nodes = payload.nodes.take keep ++ payload.nodes.drop keep :=
      (List.take_append_drop keep _).symm
    have hdisjoint : ∀ a ∈ payload.nodes.take keep, ∀ b ∈ payload.nodes.drop keep, a.id ≠ b.id := by
      intro a ha b hb
      have hnodup := h.nodup
      rw [hsplit, List.map_append, List.nodup_append] at hnodup
      exact hnodup.2.2 a.id (List.mem_map_of_mem ha) b.id (List.mem_map_of_mem hb)
    have hcutId : ∀ id ∈ payload.nodes.map NodeEntry.id,
        (id ∉ (payload.nodes.drop keep).map NodeEntry.id ↔
          id ∈ (payload.nodes.take keep).map NodeEntry.id) := by
      intro id hid
      constructor
      · intro hout
        rw [hsplit, List.map_append, List.mem_append] at hid
        exact hid.resolve_right hout
      · intro hin hcut
        obtain ⟨a, ha, rfl⟩ := List.mem_map.mp hin
        obtain ⟨b, hb, heq⟩ := List.mem_map.mp hcut
        exact hdisjoint a ha b hb heq.symm
    have htree : ∀ t, t ∈ payload.tree.filter (fun t =>
          t.parent ∉ (payload.nodes.drop keep).map NodeEntry.id ∧
            t.child ∉ (payload.nodes.drop keep).map NodeEntry.id) ↔
        t ∈ payload.tree ∧ t.parent ∈ (payload.nodes.take keep).map NodeEntry.id ∧
          t.child ∈ (payload.nodes.take keep).map NodeEntry.id := by
      intro t
      rw [List.mem_filter, decide_eq_true_eq]
      refine and_congr_right fun ht => ?_
      rw [hcutId _ (h.steps t ht).1, hcutId _ (h.steps t ht).2]
    refine ⟨List.take_prefix _ _, ?_, ?_, ?_, ?_, ?_, ?_, ?_⟩
    · dsimp only
      rw [h.seed_first, hkeq, hnodes, List.take_succ_cons, List.head?_cons, List.head?_cons]
    · exact h.nodup.sublist ((List.take_sublist _ _).map _)
    · dsimp only
      rw [hkeq]
      rcases hcost with hzero | hcost
      · refine .inr (.inr ?_)
        rw [hzero, hnodes]
        rfl
      · exact .inr (.inl (hnodes ▸ hcost))
    · intro s hs m hm
      obtain ⟨before, after, hbefore⟩ := List.append_of_mem hm
      rw [h.seed_first] at hs
      exact h.joined hsplit (fun t ht hp hc => (htree t).mpr ⟨ht, hp, hc⟩) hs hbefore
    · intro t ht
      exact ((htree t).mp ht).2
    · intro e he m hm hout
      have he := (List.mem_filter.mp he).2
      rw [decide_eq_true_eq] at he
      have hcut : m ∈ payload.nodes.drop keep := by
        rw [hsplit, List.mem_append] at hm
        exact hm.resolve_left hout
      refine ⟨fun heq => he.1 ?_, fun heq => he.2 ?_⟩
      · rw [heq]
        exact List.mem_map_of_mem hcut
      · rw [heq]
        exact List.mem_map_of_mem hcut
    · dsimp only
      rw [List.length_take, min_eq_left (by omega)]
      omega

end cut

theorem seed_stored (ladder : Ladder r) {n : Node} (h : (chooseSeed ladder args).seed = some n) :
    (r.getNode n.id).isSome := by
  unfold chooseSeed at h
  split at h
  · case _ m hm => exact Option.some.inj h ▸ ladder.targets_stored _ _ _ hm
  · cases h
  · cases h
  · dsimp only at h
    have hsub : ∀ m ∈ fileHits args (ladder.search args.query), m ∈ ladder.search args.query := by
      intro m hm
      unfold fileHits at hm
      have hm := (List.destutter_sublist _ _).subset hm
      have hm := SortDedup.mem_sortBy.mp hm
      split at hm
      · exact (List.mem_filter.mp (List.mem_filter.mp hm).1).1
      · exact (List.mem_filter.mp hm).1
    split at h
    · case _ hit hhits =>
        have hmem := hsub hit (by rw [hhits]; exact List.mem_cons_self)
        exact Option.some.inj h ▸ ladder.search_stored _ _ hmem
    · split_ifs at h
      · have h : (List.find? (fun m => decide (m.kind = "file")) (ladder.search args.query)).or
            (ladder.search args.query).head? = some n := h
        rcases Option.or_eq_some_iff.mp h with hfind | ⟨-, hhead⟩
        · exact ladder.search_stored _ _ (List.mem_of_find?_eq_some hfind)
        · exact ladder.search_stored _ _ (List.mem_of_mem_head? hhead)
    · cases h

theorem ordered_graphQuery (hno : r.store.NoOrphans) (ladder : Ladder r) :
    Ordered (graphQuery r ladder args) ∧
      (graphQuery r ladder args).seed.map NodeEntry.id = (chooseSeed ladder args).seed.map Node.id := by
  unfold graphQuery
  dsimp only
  cases hseed : (chooseSeed ladder args).seed with
  | none =>
    refine ⟨⟨rfl, List.nodup_nil, fun t ht => ?_, fun s hs => ?_⟩, rfl⟩
    · cases ht
    · cases hs
  | some seed =>
    dsimp only
    have hgrown := grown_of_passes hno (seed_stored ladder hseed) (passes_walkFrom r args seed.id)
    have hqueue := queue_walkFrom r args seed.id
    have hhead : (walkFrom r args seed.id).ids.head? = some seed.id := by
      rcases hgrown.seed_first with ⟨-, hone⟩ | hhead
      · rw [hqueue] at hone
        cases hone
      · exact hhead
    rw [Walk.ids, List.head?_map] at hhead
    refine ⟨⟨rfl, hgrown.nodup, fun t ht => ⟨hgrown.parent t ht, ?_⟩, ?_⟩, hhead⟩
    · rcases hgrown.child t ht with hc | ⟨q, hq, -⟩
      · exact hc
      · rw [hqueue] at hq
        cases hq
    · intro s hs before n after hsplit
      dsimp only at hsplit
      have hs : s.id = seed.id := by
        rw [Option.mem_def.mp hs] at hhead
        exact Option.some.inj hhead
      have hids : (walkFrom r args seed.id).ids =
          before.map NodeEntry.id ++ n.id :: after.map NodeEntry.id := by
        rw [Walk.ids, hsplit, List.map_append, List.map_cons]
      rw [hs]
      exact hgrown.behind _ _ _ hids

/-- A budgeted graph is a connected beginning of the graph. -/
theorem graphQuery_cut (r : Reader) (hno : r.store.NoOrphans) (ladder : Ladder r)
    (args : GraphQueryArgs) (budget : Nat) :
    (graphQuery r ladder args).seed.map NodeEntry.id = (chooseSeed ladder args).seed.map Node.id ∧
      Cut (graphQuery r ladder args) budget
        (applyTokenBudget (graphQuery r ladder args) budget) :=
  ⟨(ordered_graphQuery hno ladder).2, (ordered_graphQuery hno ladder).1.cut budget⟩

def Ladder.pinned (n : Node) (h : (r.getNode n.id).isSome) : Ladder r where
  targets := fun _ _ => .unique n
  search := fun _ => []
  targets_stored := fun _ _ m hm => by
    cases hm
    exact h
  search_stored := fun _ m hm => by cases hm

/-- The function that is called in `openStore`. -/
def calledNode : Node := ⟨2, ⟨"a", "", "y.rs", "rust", "fn:y"⟩, "function", "", some 1, some 2, .none⟩

/-- A budget for the called function alone cuts its caller. -/
theorem graphQuery_cut_openStore :
    Cut (graphQuery (Reader.scan Retrieval.openStore) (.pinned calledNode (by decide))
        ⟨"fn:y", none, 2, .callers, .semantic, true⟩) 4
      (applyTokenBudget (graphQuery (Reader.scan Retrieval.openStore)
        (.pinned calledNode (by decide)) ⟨"fn:y", none, 2, .callers, .semantic, true⟩) 4) :=
  (graphQuery_cut (Reader.scan Retrieval.openStore) (by decide)
    (.pinned calledNode (by decide)) ⟨"fn:y", none, 2, .callers, .semantic, true⟩ 4).2

end Travsr.Mcp
