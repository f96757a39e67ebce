import Travsr.Mcp.GraphBudget

namespace Travsr.Mcp

open Travsr.Core Travsr.Store

variable {r : Reader} {args : GraphQueryArgs} {seed : NodeId} {w w' : Walk}

/-! ### Chains of callers -/

/-- A stored semantic edge leads from the first node to the second. -/
def Calls (r : Reader) (y x : NodeId) : Prop :=
  ∃ row, row ∈ r.store.edges ∧ row.src = y ∧ row.dst = x ∧ isSemanticEdge row.kind = true

/-- A chain of so many semantic edges leads to the first node from the second. -/
inductive CallChain (r : Reader) (x : NodeId) : Nat → NodeId → Prop where
  | refl : CallChain r x 0 x
  | tail {n : Nat} {y z : NodeId} : CallChain r x n y → Calls r z y → CallChain r x (n + 1) z

theorem CallChain.trans {x y z : NodeId} {n k : Nat} (hy : CallChain r x n y)
    (hz : CallChain r y k z) : CallChain r x (n + k) z := by
  induction hz with
  | refl => exact hy
  | tail _ hcall ih => exact ih.tail hcall

/-- The answer has every caller within the depth, no deeper than the chain that leads from it. -/
def FindsCallers (r : Reader) (seed : NodeId) (depth : Nat) (payload : GraphPayload) : Prop :=
  ∀ n ≤ depth, ∀ y, CallChain r seed n y → ∃ e ∈ payload.nodes, e.id = y ∧ e.depth ≤ n

theorem exists_nextEdge {x y : NodeId} {direction : QueryDirection} (mode : QueryEdgeMode)
    (isSeed : Bool) (hcall : Calls r y x) (hdir : direction ≠ .deps) :
    ∃ e ∈ nextEdges r x direction mode isSeed, e.next = y ∧ e.incoming = true := by
  obtain ⟨row, hrow, hsrc, hdst, hsem⟩ := hcall
  have hto : { row.toEdge with confidence := none } ∈ r.iterEdgesTo x := by
    refine List.mem_map.mpr ⟨row, ?_, rfl⟩
    rw [(r.to_perm x).mem_iff, List.mem_filter, decide_eq_true_eq]
    exact ⟨hrow, hdst⟩
  have hfollowed := mem_followedEdges mode (iterEdgesTo_subset_incomingEdges isSeed hto) hsem
  have hup : direction = .callers ∨ direction = .both := by
    cases direction with
    | deps => exact absurd rfl hdir
    | callers => exact .inl rfl
    | both => exact .inr rfl
  unfold nextEdges
  rw [if_pos hup]
  obtain ⟨e, he, hkey⟩ := exists_mem_retainFirst
    (fun e : NextEdge => (e.kind, e.next, e.incoming))
    (List.mem_append_right
      (if direction = .deps ∨ direction = .both then (r.iterEdgesFrom x).map outgoingNext else [])
      (List.mem_map_of_mem (f := incomingNext) hfollowed)) List.not_mem_nil
  have hplace := (Prod.mk.inj hkey).2
  exact ⟨e, SortDedup.mem_sortBy.mpr he, (Prod.mk.inj hplace).1.trans hsrc, (Prod.mk.inj hplace).2⟩

/-! ### What the loop takes from its queue -/

/-- The loop takes the entry from its queue. -/
def Takes (r : Reader) (args : GraphQueryArgs) (seed : NodeId) (q : Queued) : Prop :=
  ∃ w rest, Passes r args seed w ∧ w.queue = q :: rest

def startEntry (args : GraphQueryArgs) (seed : NodeId) : Queued := ⟨seed, 0, true, args.direction⟩

theorem takes_start : Takes r args seed (startEntry args seed) := ⟨_, [], .refl, rfl⟩

theorem takes_of_mem (h : Passes r args seed w) {q : Queued} (hq : q ∈ w.queue) :
    Takes r args seed q := by
  obtain ⟨v, rest, -, hv, hqueue⟩ := (drains r args).comes h hq
  exact ⟨v, rest, hv, hqueue⟩

theorem sorted_start : Fifo.Sorted Walk.queue Queued.depth (Walk.start seed args.direction) := by
  refine ⟨List.pairwise_singleton _ _, fun a ha b hb => ?_⟩
  rw [List.mem_singleton.mp hb]
  exact Nat.zero_le _

theorem depth_mono {p q : Queued} {rest rest' : List Queued} (hw : Passes r args seed w)
    (h : Fifo.Leads (walkStep r args) w w') (hp : w.queue = p :: rest)
    (hq : w'.queue = q :: rest') : p.depth ≤ q.depth :=
  (drains r args).depth_mono ((drains r args).sorted sorted_start hw) h hp hq

theorem origin (h : Passes r args seed w) : ∀ q ∈ w.queue, q = startEntry args seed ∨
    ∃ p, Takes r args seed p ∧ ∃ e ∈ expansion r args p, q = queuedNext p e := by
  refine Fifo.Leads.invariant (P := fun w => ∀ q ∈ w.queue, q = startEntry args seed ∨
    ∃ p, Takes r args seed p ∧ ∃ e ∈ expansion r args p, q = queuedNext p e) h ?_ ?_
  · intro u v hpass hu huv q hq
    obtain ⟨current, rest, hqueue, hturn⟩ := exists_turn huv
    rw [hturn.queue] at hq
    rcases List.mem_append.mp hq with hq | hq
    · exact hu q (hqueue ▸ List.mem_cons_of_mem current hq)
    · obtain ⟨e, he, rfl⟩ := List.mem_map.mp hq
      exact .inr ⟨current, ⟨u, rest, hpass, hqueue⟩, e, met_sublist.subset he, rfl⟩
  · intro q hq
    exact .inl (List.mem_singleton.mp hq)

/-- The entry stands for the place, one level below an entry taken on the way to the state. -/
def QueuedFor (r : Reader) (args : GraphQueryArgs) (seed : NodeId) (w : Walk) (x : NodeId × Bool)
    (q : Queued) : Prop :=
  Takes r args seed q ∧ q.id = x.1 ∧ q.direction = (if x.2 then .callers else .deps) ∧
    ∃ u p rest, Passes r args seed u ∧ Fifo.Leads (walkStep r args) u w ∧ u.queue = p :: rest ∧
      q.depth = p.depth + 1

theorem not_hidden (hnoise : args.includeNoise = true) (id : NodeId) :
    ¬ hidden r args.includeNoise id = true := by
  unfold hidden
  rw [hnoise]
  split
  · simp
  · simp

theorem queuedFor_of_visited (hnoise : args.includeNoise = true) (h : Passes r args seed w) :
    ∀ x ∈ w.visited, x.1 = seed ∨ ∃ q, QueuedFor r args seed w x q := by
  refine Fifo.Leads.invariant (P := fun w => ∀ x ∈ w.visited, x.1 = seed ∨
    ∃ q, QueuedFor r args seed w x q) h ?_ ?_
  · intro u v hpass hu huv x hx
    have hlead : Fifo.Leads (walkStep r args) u v := .single huv
    have hold : x ∈ u.visited → x.1 = seed ∨ ∃ q, QueuedFor r args seed v x q := by
      intro hx
      refine (hu x hx).imp_right ?_
      exact fun ⟨q, hq, hid, hd, s, p, rest, hs, hsu, hp, hdepth⟩ =>
        ⟨q, hq, hid, hd, s, p, rest, hs, hsu.trans hlead, hp, hdepth⟩
    obtain ⟨current, rest, hqueue, hturn⟩ := exists_turn huv
    rcases (hturn.visited x).mp hx with hx | ⟨e, he, rfl⟩
    · exact hold hx
    · rcases exists_mem_met r args.includeNoise u.visited he
        with hmem | hhid | ⟨b, hb, hplace⟩
      · exact hold hmem
      · exact absurd hhid (not_hidden hnoise _)
      · have hqb : queuedNext current b ∈ v.queue := by
          rw [hturn.queue]
          exact List.mem_append_right _ (List.mem_map_of_mem hb)
        refine .inr ⟨queuedNext current b, takes_of_mem (Relation.ReflTransGen.tail hpass huv) hqb, congrArg Prod.fst hplace, ?_,
          u, current, rest, hpass, hlead, hqueue, rfl⟩
        rw [← hplace]
        rfl
  · intro x hx
    left
    simp only [Walk.start, Finset.mem_insert, Finset.mem_singleton] at hx
    rcases hx with rfl | rfl <;> rfl

/-- What an entry leads to is taken at most one level deeper, on the side the edge gives it. -/
theorem takes_of_expansion (hnoise : args.includeNoise = true) {p : Queued}
    (hp : Takes r args seed p) {e : NextEdge} (he : e ∈ expansion r args p) :
    e.next = seed ∨ ∃ q, Takes r args seed q ∧ q.id = e.next ∧
      q.direction = (if e.incoming then .callers else .deps) ∧ q.depth ≤ p.depth + 1 := by
  obtain ⟨w, rest, hw, hqueue⟩ := hp
  obtain ⟨w', hstep, hturn⟩ := walkStep_of_queue r args hqueue
  rcases exists_mem_met r args.includeNoise w.visited he
    with hmem | hhid | ⟨b, hb, hplace⟩
  · refine (queuedFor_of_visited hnoise hw _ hmem).imp_right ?_
    rintro ⟨q, hq, hid, hd, u, p₀, tail, hu, huw, hp₀, hdepth⟩
    have hle := depth_mono hu huw hp₀ hqueue
    exact ⟨q, hq, hid, hd, by omega⟩
  · exact absurd hhid (not_hidden hnoise _)
  · have hqb : queuedNext p b ∈ w'.queue := by
      rw [hturn.queue]
      exact List.mem_append_right _ (List.mem_map_of_mem hb)
    refine .inr ⟨queuedNext p b, takes_of_mem (Relation.ReflTransGen.tail hw hstep) hqb,
      congrArg Prod.fst hplace, ?_, le_rfl⟩
    have hside : b.incoming = e.incoming := congrArg Prod.snd hplace
    rw [← hside]
    rfl

/-! ### What the answer shows -/

theorem nodes_subset (h : Fifo.Leads (walkStep r args) w w') : ∀ n ∈ w.nodes, n ∈ w'.nodes := by
  refine Fifo.Leads.invariant (P := fun v => ∀ n ∈ w.nodes, n ∈ v.nodes) h ?_ fun n hn => hn
  intro u v _ hu huv n hn
  obtain ⟨current, rest, -, hturn⟩ := exists_turn huv
  rw [hturn.nodes, emit]
  split
  · split_ifs
    · exact hu n hn
    · exact List.mem_append_left _ (hu n hn)
  · exact hu n hn

theorem taken_of_shown (h : Passes r args seed w) : ∀ n ∈ w.nodes, ∃ u p rest,
    Passes r args seed u ∧ Fifo.Leads (walkStep r args) u w ∧ u.queue = p :: rest ∧
      p.id = n.id ∧ p.depth = n.depth := by
  refine Fifo.Leads.invariant (P := fun w => ∀ n ∈ w.nodes, ∃ u p rest,
    Passes r args seed u ∧ Fifo.Leads (walkStep r args) u w ∧ u.queue = p :: rest ∧
      p.id = n.id ∧ p.depth = n.depth) h ?_ fun n hn => by cases hn
  intro u v hpass hu huv n hn
  have hlead : Fifo.Leads (walkStep r args) u v := .single huv
  have hold : n ∈ u.nodes → ∃ s p rest, Passes r args seed s ∧
      Fifo.Leads (walkStep r args) s v ∧ s.queue = p :: rest ∧ p.id = n.id ∧ p.depth = n.depth := by
    intro hn
    obtain ⟨s, p, rest, hs, hsu, hp, hid, hdepth⟩ := hu n hn
    exact ⟨s, p, rest, hs, hsu.trans hlead, hp, hid, hdepth⟩
  obtain ⟨current, rest, hqueue, hturn⟩ := exists_turn huv
  rw [hturn.nodes, emit] at hn
  split at hn
  · case _ node hnode =>
      split_ifs at hn
      · exact hold hn
      · rcases List.mem_append.mp hn with hn | hn
        · exact hold hn
        · rw [List.mem_singleton.mp hn]
          exact ⟨u, current, rest, hpass, hlead, hqueue, (Reader.getNode_id hnode).symm, rfl⟩
  · exact hold hn

theorem shown_of_takes (hno : r.store.NoOrphans) (hseed : (r.getNode seed).isSome) {q : Queued}
    (hq : Takes r args seed q) :
    ∃ n ∈ (walkFrom r args seed).nodes, n.id = q.id ∧ n.depth ≤ q.depth := by
  obtain ⟨w, rest, hw, hqueue⟩ := hq
  obtain ⟨w', hstep, hturn⟩ := walkStep_of_queue r args hqueue
  have hw' : Passes r args seed w' := Relation.ReflTransGen.tail hw hstep
  have hend : Fifo.Leads (walkStep r args) w' (walkFrom r args seed) :=
    hw'.to_end (passes_walkFrom r args seed) (walkStep_walkFrom seed)
  have hgrown := grown_of_passes hno hseed hw
  have hfinal : ∀ n ∈ w'.nodes, n ∈ (walkFrom r args seed).nodes := nodes_subset hend
  have hstored := hgrown.stored q (hqueue ▸ List.mem_cons_self)
  obtain ⟨node, hnode⟩ := Option.isSome_iff_exists.mp hstored
  by_cases hshown : q.id ∈ w.ids
  · obtain ⟨n, hn, hid⟩ := List.mem_map.mp hshown
    obtain ⟨u, p, tail, hu, huw, hp, -, hdepth⟩ := taken_of_shown hw n hn
    refine ⟨n, hfinal n (nodes_subset (.single hstep) n hn), hid, ?_⟩
    rw [← hdepth]
    exact depth_mono hu huw hp hqueue
  · refine ⟨nodeEntry node q.depth, hfinal _ ?_, Reader.getNode_id hnode, le_rfl⟩
    rw [hturn.nodes, emit, hnode]
    dsimp only
    rw [if_neg (fun h => hshown ((hgrown.index q.id).mp h))]
    exact List.mem_append_right _ (List.mem_singleton.mpr rfl)

/-! ### Containers on the way -/

/-- What the loop takes as a container, and does not walk any further although a chain of callers
leads from it to the seed, has no caller within the depth that is not met on another way in time. -/
def ContainersBypassed (r : Reader) (args : GraphQueryArgs) (seed : NodeId) : Prop :=
  ∀ q, Takes r args seed q → q.direction = .callers → q.expand = false →
    ∀ n k y, n + (k + 1) ≤ args.depth → CallChain r seed n q.id → CallChain r q.id (k + 1) y →
      y = seed ∨ ∃ p, Takes r args seed p ∧ p.depth < n + (k + 1) ∧
        ∃ e ∈ expansion r args p, e.next = y

theorem taken_or_contained (hnoise : args.includeNoise = true) (hdir : args.direction ≠ .deps)
    {n : Nat} {y : NodeId} (hn : n ≤ args.depth) (h : CallChain r seed n y) :
    (∃ q, Takes r args seed q ∧ q.id = y ∧ q.depth ≤ n ∧ q.direction ≠ .deps ∧ q.expand = true) ∨
      ∃ q m k, Takes r args seed q ∧ q.direction = .callers ∧ q.expand = false ∧ q.depth ≤ m ∧
        n = m + k ∧ CallChain r seed m q.id ∧ CallChain r q.id k y := by
  induction h with
  | refl => exact .inl ⟨_, takes_start, rfl, le_rfl, hdir, rfl⟩
  | tail hchain hcall ih =>
    rename_i n y z
    rcases ih (by omega) with ⟨q, hq, rfl, hdepth, hup, hopen⟩ | ⟨q, m, k, hq, hup, hshut, hdepth,
      hmk, hm, hk⟩
    · obtain ⟨e, he, hnext, hincoming⟩ := exists_nextEdge args.edgeMode
        (q.depth == 0) hcall hup
      have hexp : e ∈ expansion r args q := by
        unfold expansion
        rw [if_neg (by rw [not_or, hopen]; exact ⟨by omega, by simp⟩)]
        exact he
      rcases takes_of_expansion hnoise hq hexp with hseed | ⟨p, hp, hid, hpd, hple⟩
      · rw [← hnext, hseed]
        exact .inl ⟨_, takes_start, rfl, Nat.zero_le _, hdir, rfl⟩
      · rw [hincoming, if_pos rfl] at hpd
        cases hpx : p.expand with
        | true => exact .inl ⟨p, hp, hid.trans hnext, by omega, by rw [hpd]; simp, hpx⟩
        | false =>
          have hpz : p.id = z := hid.trans hnext
          refine .inr ⟨p, n + 1, 0, hp, hpd, hpx, by omega, rfl, ?_, ?_⟩
          · rw [hpz]
            exact hchain.tail hcall
          · rw [hpz]
            exact .refl
    · exact .inr ⟨q, m, k + 1, hq, hup, hshut, hdepth, by omega, hm, hk.tail hcall⟩

/-- A class `C` with the method `C.area`; `scale` calls the method, the class calls `scale` where
it sets a field up, and `main` calls the class. -/
def fieldSetupStore : SqliteStore where
  __ := SqliteStore.empty
  nodes := ⟨⟨[⟨1, ⟨"a", "", "c.ts", "typescript", "method:C.area"⟩, "method", "", some 3, some 4,
      false, .none, none⟩,
    ⟨2, ⟨"a", "", "s.ts", "typescript", "fn:scale"⟩, "function", "", some 1, some 2, false, .none,
      none⟩,
    ⟨3, ⟨"a", "", "c.ts", "typescript", "class:C"⟩, "class", "", some 1, some 5, false, .none,
      none⟩,
    ⟨4, ⟨"a", "", "m.ts", "typescript", "fn:main"⟩, "function", "", some 1, some 2, false, .none,
      none⟩], by decide⟩, by decide⟩
  edges := ⟨[⟨3, 1, .definesBinding, "tree-sitter", none⟩, ⟨2, 1, .refCall, "scip", none⟩,
    ⟨3, 2, .refCall, "scip", none⟩, ⟨4, 3, .refCall, "scip", none⟩], by decide⟩

def areaNode : Node :=
  ⟨1, ⟨"a", "", "c.ts", "typescript", "method:C.area"⟩, "method", "", some 3, some 4, .none⟩

def areaArgs : GraphQueryArgs := ⟨"method:C.area", none, 3, .callers, .semantic, true⟩

def areaLadder : Ladder (Reader.scan fieldSetupStore) := .pinned areaNode (by decide)

theorem callers_fieldSetupStore : ∀ e ∈ (graphQuery (Reader.scan fieldSetupStore) areaLadder
    areaArgs).nodes, e.id ≠ 4 := by
  decide +kernel

end Travsr.Mcp
