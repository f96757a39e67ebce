import Travsr.Retrieval.PcstShape

namespace Travsr.Retrieval.Pcst

open Travsr.Core Store Relational Loop

variable {r : Reader} {filter : EdgeFilter} {source sink : NodeId} {tokenBudget : Nat}
  {result : List Node}

/-- An answer without duplicates, of accessible nodes, that spends no more than the budget on nodes
other than the two ends. -/
structure WellShaped (r : Reader) (filter : EdgeFilter) (source sink : NodeId) (tokenBudget : Nat)
    (answer : List Node) : Prop where
  nodup : (answer.map Node.id).Nodup
  permitted : ∀ n ∈ answer, accessible r filter n.id = some n
  spent : ((answer.filter fun n => n.id ≠ source ∧ n.id ≠ sink).map tokenCost).sum ≤ tokenBudget

theorem wellShaped_withinBudget {ids : List NodeId} (hnodup : ids.Nodup)
    (hids : ∀ id ∈ ids, (accessible r filter id).isSome) :
    WellShaped r filter source sink tokenBudget (withinBudget r tokenBudget 0 ids) := by
  have hsub := withinBudget_sublist r tokenBudget 0 ids
  refine ⟨hnodup.sublist hsub, fun n hn => ?_, ?_⟩
  · obtain ⟨m, hm⟩ := Option.isSome_iff_exists.mp (hids n.id (hsub.subset (List.mem_map_of_mem hn)))
    have hget := getNode_of_mem_withinBudget hn
    rw [(accessible_eq_some.mp hm).1] at hget
    rw [hm, hget]
  · have hspent := @withinBudget_spent r tokenBudget 0 (Nat.zero_le _) ids
    rw [Nat.zero_add] at hspent
    refine le_trans ?_ hspent
    exact List.Sublist.sum_le_sum (List.filter_sublist.map tokenCost) fun _ _ => Nat.zero_le _

/-! ### The ends -/

theorem any_id_iff {l : List Node} {id : NodeId} :
    (l.any fun n => n.id = id) = true ↔ ∃ n ∈ l, n.id = id := by
  rw [List.any_eq_true]
  exact exists_congr fun n => and_congr_right fun _ => decide_eq_true_iff

theorem not_mem_ids {l : List Node} {id : NodeId} (h : ¬ (l.any fun n => n.id = id) = true) :
    id ∉ l.map Node.id := by
  intro hid
  obtain ⟨n, hn, hnid⟩ := List.mem_map.mp hid
  exact h (any_id_iff.mpr ⟨n, hn, hnid⟩)

theorem WellShaped.withEndpoints {sourceNode sinkNode : Node}
    (h : WellShaped r filter source sink tokenBudget result)
    (hsource : accessible r filter source = some sourceNode)
    (hsink : accessible r filter sink = some sinkNode) :
    WellShaped r filter source sink tokenBudget
        (withEndpoints sourceNode sinkNode source sink result) ∧
      (∃ n ∈ withEndpoints sourceNode sinkNode source sink result, n.id = source) ∧
      ∃ n ∈ withEndpoints sourceNode sinkNode source sink result, n.id = sink := by
  have hsource_id := Reader.getNode_id (accessible_eq_some.mp hsource).1
  have hsink_id := Reader.getNode_id (accessible_eq_some.mp hsink).1
  obtain ⟨led, hled⟩ : ∃ led, led =
      if result.any fun n => n.id = source then result else sourceNode :: result := ⟨_, rfl⟩
  have hunfold : Pcst.withEndpoints sourceNode sinkNode source sink result =
      if led.any fun n => n.id = sink then led else led ++ [sinkNode] := by
    rw [hled]
    rfl
  have hshaped : WellShaped r filter source sink tokenBudget led ∧ ∃ n ∈ led, n.id = source := by
    rw [hled]
    split_ifs with hany
    · exact ⟨h, any_id_iff.mp hany⟩
    · refine ⟨⟨?_, ?_, ?_⟩, sourceNode, List.mem_cons_self, hsource_id⟩
      · rw [List.map_cons, hsource_id]
        exact List.nodup_cons.mpr ⟨not_mem_ids hany, h.nodup⟩
      · intro n hn
        rcases List.mem_cons.mp hn with rfl | hn
        · rw [hsource_id, hsource]
        · exact h.permitted n hn
      · rw [List.filter_cons_of_neg (by simp [hsource_id])]
        exact h.spent
  obtain ⟨hshaped, hfirst⟩ := hshaped
  rw [hunfold]
  split_ifs with hany
  · exact ⟨hshaped, hfirst, any_id_iff.mp hany⟩
  · refine ⟨⟨?_, ?_, ?_⟩, ?_, sinkNode, by simp, hsink_id⟩
    · rw [List.map_append, List.map_singleton, hsink_id]
      refine List.nodup_append.mpr ⟨hshaped.nodup, List.nodup_singleton _, fun a ha b hb hab => ?_⟩
      rw [hab, List.mem_singleton.mp hb] at ha
      exact not_mem_ids hany ha
    · intro n hn
      rcases List.mem_append.mp hn with hn | hn
      · exact hshaped.permitted n hn
      · rw [List.mem_singleton.mp hn, hsink_id, hsink]
    · rw [List.filter_append, List.filter_cons_of_neg (by simp [hsink_id]), List.filter_nil,
        List.append_nil]
      exact hshaped.spent
    · obtain ⟨n, hn, hid⟩ := hfirst
      exact ⟨n, List.mem_append_left _ hn, hid⟩

/-! ### The route and the corridor -/

theorem nodup_routeAndContext {graph : DiGraph} (hnodes : graph.nodes.Nodup) (lambda : ℚ)
    {costs : List (Nat × ℚ)} (hcosts : (costs.map Prod.fst).Nodup) (totalCost : ℚ)
    {route : List Nat} (hroute : route.Nodup) :
    (routeAndContext graph lambda costs totalCost route).Nodup := by
  have hinj : ∀ (a a' : Nat) (b : NodeId), b ∈ graph.nodes[a]? → b ∈ graph.nodes[a']? → a = a' := by
    intro a a' b ha ha'
    have h1 := (Cells.idxOf?_eq_some hnodes).mpr ha
    have h2 := (Cells.idxOf?_eq_some hnodes).mpr ha'
    exact Option.some.inj (h1.symm.trans h2)
  -- a node's index is its key in the cost map
  have hcontext : ∀ l : List (Nat × ℚ),
      (l.filterMap fun c => graph.nodes[c.1]?.map fun id => (c.2, id)).map Prod.snd =
        (l.map Prod.fst).filterMap fun idx => graph.nodes[idx]? := by
    intro l
    rw [List.map_filterMap, List.filterMap_map]
    refine congrArg (fun f => l.filterMap f) (funext fun c => ?_)
    simp only [Option.map_map, Function.comp_apply]
    exact Option.map_id'
  unfold routeAndContext
  refine List.nodup_append.mpr ⟨hroute.filterMap hinj, ?_, ?_⟩
  · refine ((List.perm_insertionSort closer _).map Prod.snd).nodup_iff.mpr ?_
    refine List.Nodup.sublist (List.filter_sublist.map Prod.snd) ?_
    rw [hcontext]
    exact (hcosts.sublist (List.filter_sublist.map Prod.fst)).filterMap hinj
  · intro a ha b hb hab
    obtain ⟨c, hc, rfl⟩ := List.mem_map.mp hb
    have hkept := (List.mem_filter.mp ((List.mem_insertionSort _).mp hc)).2
    rw [decide_eq_true_iff] at hkept
    exact hkept (hab ▸ ha)

/-! ### The fallback -/

theorem nodup_fallbackOrder (r : Reader) (filter : EdgeFilter) (seed : NodeId) :
    (fallbackOrder r filter seed).Nodup :=
  (Bfs.Levels.nodup_pops (Bfs.levels_start _ _ _) _).1.filter _

theorem fallbackOrder_head {sourceNode : Node} (h : accessible r filter source = some sourceNode) :
    ∃ rest, fallbackOrder r filter source = source :: rest := by
  unfold fallbackOrder fuel
  rw [Bfs.pops_succ rfl, List.filter_cons_of_pos (by rw [h]; rfl)]
  exact ⟨_, rfl⟩

theorem wellShaped_bfsFallback :
    WellShaped r filter source sink tokenBudget (bfsFallback r source filter tokenBudget) := by
  rw [bfsFallback_eq_withinBudget]
  exact wellShaped_withinBudget (nodup_fallbackOrder r filter source)
    fun id hid => (List.mem_filter.mp hid).2

/-- The fallback's answer has both ends when the sink comes in its order before the budget is
spent. -/
theorem bfsFallback_ends_iff {sourceNode : Node}
    (hsource : accessible r filter source = some sourceNode) :
    ((∃ n ∈ bfsFallback r source filter tokenBudget, n.id = source) ∧
        ∃ n ∈ bfsFallback r source filter tokenBudget, n.id = sink) ↔
      ∃ before rest, fallbackOrder r filter source = before ++ sink :: rest ∧
        tokensOf r (before ++ [sink]) ≤ tokenBudget := by
  have hstored : ∀ id ∈ fallbackOrder r filter source, (r.getNode id).isSome := by
    intro id hid
    obtain ⟨n, hn⟩ := Option.isSome_iff_exists.mp (List.mem_filter.mp hid).2
    rw [(accessible_eq_some.mp hn).1]
    rfl
  have hsink := @mem_withinBudget_iff r tokenBudget (fallbackOrder r filter source) hstored 0 sink
  simp only [Nat.zero_add] at hsink
  rw [bfsFallback_eq_withinBudget, ← hsink]
  refine and_iff_right_of_imp fun hin => ?_
  -- what comes first is the source, so an answer that is not empty has it
  obtain ⟨rest, hrest⟩ := fallbackOrder_head hsource
  obtain ⟨hget, _⟩ := accessible_eq_some.mp hsource
  rw [hrest, withinBudget, hget] at hin ⊢
  dsimp only at hin ⊢
  split_ifs at hin ⊢
  · obtain ⟨n, hn, _⟩ := hin
    exact absurd hn List.not_mem_nil
  · exact ⟨sourceNode, List.mem_cons_self, Reader.getNode_id hget⟩

/-! ### Every answer -/

theorem localGraph_vetted {sourceNode sinkNode : Node}
    (hsource : accessible r filter source = some sourceNode)
    (hsink : accessible r filter sink = some sinkNode) :
    (∀ id ∈ (localGraph r source sink filter).nodes, (accessible r filter id).isSome) ∧
    (∀ i j c, (localGraph r source sink filter).Joined i j c → 0 < c) ∧
    source ∈ (localGraph r source sink filter).nodes ∧
    sink ∈ (localGraph r source sink filter).nodes := by
  have hvetted := expandLocalSubgraph_vetted hsource hsink expandDepth
  refine ⟨fun id hid => ?_, fun i j c hjoin => ?_, has_iff_mem_buildGraph.mpr hvetted.source,
    has_iff_mem_buildGraph.mpr hvetted.sink⟩
  · obtain ⟨n, hn, rfl⟩ := has_iff_mem_buildGraph.mp hid
    rw [hvetted.nodes n hn]
    rfl
  · obtain ⟨u, v, _, _, he⟩ := joined_buildGraph.mp hjoin
    exact hvetted.positive _ he

/-- Every answer for accessible ends is without duplicates, of accessible nodes, and within the
budget but for the ends. It has both ends exactly when they are one node, or the local graph
connects them, or the fallback's search comes to the sink before the budget is spent. -/
theorem pcstPath_shape_iff (petgraph : Petgraph) (lambda : ℚ) (r : Reader) (source sink : NodeId)
    (filter : EdgeFilter) (tokenBudget : Nat) (sourceNode sinkNode : Node)
    (hsource : accessible r filter source = some sourceNode)
    (hsink : accessible r filter sink = some sinkNode)
    (hfinds : FindsLocally petgraph r source sink filter)
    (hcosts : ∀ graph i, ((petgraph.dijkstra graph i).map Prod.fst).Nodup) :
    WellShaped r filter source sink tokenBudget
        (pcstPath petgraph lambda r source sink filter tokenBudget) ∧
      (((∃ n ∈ pcstPath petgraph lambda r source sink filter tokenBudget, n.id = source) ∧
          ∃ n ∈ pcstPath petgraph lambda r source sink filter tokenBudget, n.id = sink) ↔
        source = sink ∨
        (∃ route cost, Route (GraphEdge r source sink filter) source sink route cost) ∨
        ∃ before rest, fallbackOrder r filter source = before ++ sink :: rest ∧
          tokensOf r (before ++ [sink]) ≤ tokenBudget) := by
  have hsource_id := Reader.getNode_id (accessible_eq_some.mp hsource).1
  obtain ⟨haccessible, hpositive, hsource_mem, hsink_mem⟩ := localGraph_vetted hsource hsink
  have hnodup : (localGraph r source sink filter).nodes.Nodup := nodup_buildGraph _
  obtain ⟨s, hs⟩ := List.mem_iff_getElem?.mp hsource_mem
  obtain ⟨t, ht⟩ := List.mem_iff_getElem?.mp hsink_mem
  have hright := hfinds s t hs ht
  by_cases hne : source = sink
  · have hanswer : pcstPath petgraph lambda r source sink filter tokenBudget = [sourceNode] := by
      unfold pcstPath
      rw [hsource, hsink]
      exact if_pos hne
    rw [hanswer]
    refine ⟨⟨List.nodup_singleton _, fun n hn => ?_, ?_⟩, ?_⟩
    · rw [List.mem_singleton.mp hn, hsource_id, hsource]
    · rw [List.filter_cons_of_neg (by simp [hsource_id])]
      exact Nat.zero_le _
    · refine iff_of_true ⟨⟨sourceNode, List.mem_singleton_self _, hsource_id⟩, sourceNode,
        List.mem_singleton_self _, hsource_id.trans hne⟩ (.inl hne)
  · have hanswer : pcstPath petgraph lambda r source sink filter tokenBudget =
        (petgraph.astar (localGraph r source sink filter) s t).elim (bfsFallback r source filter tokenBudget)
          fun found => withEndpoints sourceNode sinkNode source sink
            (withinBudget r tokenBudget 0 (routeAndContext (localGraph r source sink filter) lambda
              (petgraph.dijkstra (localGraph r source sink filter) s) found.1 found.2)) := by
      have hs' := (Cells.idxOf?_eq_some hnodup).mpr hs
      have ht' := (Cells.idxOf?_eq_some hnodup).mpr ht
      unfold localGraph at hs' ht'
      unfold pcstPath
      rw [hsource, hsink]
      dsimp only
      rw [if_neg hne, hs', ht']
      unfold localGraph
      dsimp only
      cases petgraph.astar _ s t <;> rfl
    have hconnected : (∃ route cost, Route (GraphEdge r source sink filter) source sink route cost) ↔
        ∃ route cost, Route (localGraph r source sink filter).Joined s t route cost := by
      constructor
      · rintro ⟨route, cost, h⟩
        obtain ⟨route', h'⟩ := route_toIndices hnodup (fun u v c he => he) h hs ht
        exact ⟨route', cost, h'⟩
      · rintro ⟨route, cost, h⟩
        refine ⟨_, cost, route_toIds (fun i j c hjoin => ?_) h hs ht⟩
        obtain ⟨u, v, hu, hv, _⟩ := joined_buildGraph.mp hjoin
        exact ⟨u, v, hu, hv, i, j, hu, hv, hjoin⟩
    rw [hanswer, hconnected]
    cases hastar : petgraph.astar (localGraph r source sink filter) s t with
    | some chosen =>
      obtain ⟨totalCost, route⟩ := chosen
      dsimp only [Option.elim]
      have hroute := hright.sound _ _ hastar
      have hroute_nodup : route.Nodup :=
        hroute.nodup_of_least hpositive (hright.least _ _ hastar)
      have hshaped : WellShaped r filter source sink tokenBudget (withinBudget r tokenBudget 0
          (routeAndContext (localGraph r source sink filter) lambda
            (petgraph.dijkstra (localGraph r source sink filter) s) totalCost route)) :=
        wellShaped_withinBudget
          (nodup_routeAndContext hnodup lambda (hcosts _ _) totalCost hroute_nodup)
          fun id hid => haccessible id (mem_graph_of_mem_routeAndContext hid)
      obtain ⟨hwell, hends⟩ := hshaped.withEndpoints hsource hsink
      exact ⟨hwell, iff_of_true hends (.inr (.inl ⟨route, totalCost, hroute⟩))⟩
    | none =>
      have hnot : ¬ ∃ route cost, Route (localGraph r source sink filter).Joined s t route cost := by
        rintro ⟨route, cost, h⟩
        have hsome := hright.found route cost h
        rw [hastar] at hsome
        cases hsome
      dsimp only [Option.elim]
      refine ⟨wellShaped_bfsFallback, ?_⟩
      rw [bfsFallback_ends_iff hsource, or_iff_right hne, or_iff_right hnot]

theorem pcstPath_shape_superCall :
    ∃ sourceNode sinkNode : Node,
      accessible (Reader.scan superCallStore) (filterOf none) 1 = some sourceNode ∧
      accessible (Reader.scan superCallStore) (filterOf none) 2 = some sinkNode ∧
      WellShaped (Reader.scan superCallStore) (filterOf none) 1 2 5
        (pcstPath helperSearch pcstLambda (Reader.scan superCallStore) 1 2 (filterOf none) 5) :=
  ⟨_, _, rfl, rfl, (pcstPath_shape_iff helperSearch pcstLambda (Reader.scan superCallStore) 1 2
    (filterOf none) 5 _ _ rfl rfl superCall_finds
    (fun _ _ => show ([0, 1, 2] : List Nat).Nodup by decide)).1⟩

def edgelessSearch : Petgraph where
  dijkstra := fun _ i => [(i, 0)]
  astar := fun _ _ _ => none

/-- Nothing leads from the callee to its caller: the answer for that pair is the callee alone. -/
theorem fallback_leaves_sink_out :
    ¬ ∀ (petgraph : Petgraph) (lambda : ℚ) (r : Reader) (source sink : NodeId) (filter : EdgeFilter)
        (tokenBudget : Nat), (accessible r filter source).isSome → (accessible r filter sink).isSome →
      FindsLocally petgraph r source sink filter →
      (∀ graph i, ((petgraph.dijkstra graph i).map Prod.fst).Nodup) →
        WellShaped r filter source sink tokenBudget
          (pcstPath petgraph lambda r source sink filter tokenBudget) ∧
        (∃ n ∈ pcstPath petgraph lambda r source sink filter tokenBudget, n.id = source) ∧
          ∃ n ∈ pcstPath petgraph lambda r source sink filter tokenBudget, n.id = sink := by
  intro h
  have hnodes : (localGraph (Reader.scan openStore) 2 1 openFilter).nodes = [1, 2] := by
    decide +kernel
  have hedges : (localGraph (Reader.scan openStore) 2 1 openFilter).edges = [] := by
    decide +kernel
  have hfinds : FindsLocally edgelessSearch (Reader.scan openStore) 2 1 openFilter := by
    intro s t hs ht
    refine ⟨fun _ _ hnone => (nomatch hnone), fun _ _ hnone => (nomatch hnone),
      fun route cost h => ?_⟩
    exfalso
    rw [hnodes] at hs ht
    cases h with
    | nil _ =>
      rw [hs] at ht
      exact absurd (Option.some.inj ht) (by decide)
    | cons hop _ =>
      rw [DiGraph.Joined, hedges] at hop
      exact absurd hop List.not_mem_nil
  obtain ⟨_, _, hsink⟩ := h edgelessSearch pcstLambda (Reader.scan openStore) 2 1 openFilter 100
    rfl rfl hfinds fun _ _ => List.nodup_singleton _
  have hmissing : ¬ ∃ n ∈ pcstPath edgelessSearch pcstLambda (Reader.scan openStore) 2 1 openFilter
      100, n.id = 1 := by decide +kernel
  exact hmissing hsink

end Travsr.Retrieval.Pcst
