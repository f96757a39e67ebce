import Travsr.Lib.Cells
import Travsr.Lib.Route
import Travsr.Retrieval.PcstExpansion

namespace Travsr.Retrieval.Pcst

open Travsr.Core Store Relational Loop Cells

/-- The two nodes, by index, have an edge of this cost. -/
def DiGraph.Joined (graph : DiGraph) (i j : Nat) (c : ℚ) : Prop := (i, j, c) ∈ graph.edges

/-- `astar` with no heuristic answers rightly on a graph: with a cheapest route, if there is one. -/
structure Petgraph.Finds (petgraph : Petgraph) (graph : DiGraph) (s t : Nat) : Prop where
  sound : ∀ cost route, petgraph.astar graph s t = some (cost, route) →
    Route graph.Joined s t route cost
  least : ∀ cost route, petgraph.astar graph s t = some (cost, route) →
    ∀ route' cost', Route graph.Joined s t route' cost' → cost ≤ cost'
  found : ∀ route cost, Route graph.Joined s t route cost → (petgraph.astar graph s t).isSome

def localGraph (r : Reader) (source sink : NodeId) (filter : EdgeFilter) : DiGraph :=
  buildGraph (expandLocalSubgraph r source sink filter expandDepth)

/-- petgraph is right about the local graph. -/
def FindsLocally (petgraph : Petgraph) (r : Reader) (source sink : NodeId) (filter : EdgeFilter) :
    Prop :=
  ∀ s t, (localGraph r source sink filter).nodes[s]? = some source →
    (localGraph r source sink filter).nodes[t]? = some sink →
      petgraph.Finds (localGraph r source sink filter) s t

/-- The route that is chosen before the corridor is added to it, and what it costs. -/
def chosenRoute (petgraph : Petgraph) (r : Reader) (source sink : NodeId) (filter : EdgeFilter) :
    Option (ℚ × List NodeId) :=
  let graph := localGraph r source sink filter
  match graph.nodes.idxOf? source, graph.nodes.idxOf? sink with
  | some srcIdx, some dstIdx =>
    (petgraph.astar graph srcIdx dstIdx).map fun chosen =>
      (chosen.1, chosen.2.filterMap fun idx => graph.nodes[idx]?)
  | _, _ => none

variable {r : Reader} {scope : Option RbacFilter} {source sink : NodeId} {petgraph : Petgraph}

theorem pcstPath_eq_chosenRoute (petgraph : Petgraph) (lambda : ℚ) (r : Reader)
    {source sink : NodeId} (filter : EdgeFilter) (tokenBudget : Nat) {sourceNode sinkNode : Node}
    (hsource : accessible r filter source = some sourceNode)
    (hsink : accessible r filter sink = some sinkNode) (hne : source ≠ sink) :
    (∀ total route, chosenRoute petgraph r source sink filter = some (total, route) →
      ∃ context, pcstPath petgraph lambda r source sink filter tokenBudget =
        withEndpoints sourceNode sinkNode source sink
          (withinBudget r tokenBudget 0 (route ++ context))) ∧
    (chosenRoute petgraph r source sink filter = none →
      pcstPath petgraph lambda r source sink filter tokenBudget =
        bfsFallback r source filter tokenBudget) := by
  unfold pcstPath chosenRoute localGraph
  rw [hsource, hsink]
  dsimp only
  rw [if_neg hne]
  cases (buildGraph (expandLocalSubgraph r source sink filter expandDepth)).nodes.idxOf? source with
  | none => exact ⟨fun _ _ h => (nomatch h), fun _ => rfl⟩
  | some srcIdx =>
    cases (buildGraph (expandLocalSubgraph r source sink filter expandDepth)).nodes.idxOf? sink with
    | none => exact ⟨fun _ _ h => (nomatch h), fun _ => rfl⟩
    | some dstIdx =>
      dsimp only
      cases petgraph.astar (buildGraph (expandLocalSubgraph r source sink filter expandDepth))
          srcIdx dstIdx with
      | none => exact ⟨fun _ _ h => (nomatch h), fun _ => rfl⟩
      | some chosen =>
        refine ⟨fun total route h => ?_, fun h => nomatch h⟩
        obtain ⟨rfl, rfl⟩ := Prod.mk.inj (Option.some.inj h)
        exact ⟨_, rfl⟩

/-! ### The local graph by node id -/

theorem nodup_buildGraph (st : Expansion) : (buildGraph st).nodes.Nodup :=
  ((List.perm_insertionSort _ _).nodup_iff).mpr st.nodes.nodup

theorem has_iff_mem_buildGraph {st : Expansion} {id : NodeId} :
    id ∈ (buildGraph st).nodes ↔ st.nodes.Has id :=
  ((List.mem_insertionSort _).trans List.mem_map)

theorem joined_buildGraph {st : Expansion} {i j : Nat} {c : ℚ} :
    (buildGraph st).Joined i j c ↔ ∃ u v, (buildGraph st).nodes[i]? = some u ∧
      (buildGraph st).nodes[j]? = some v ∧ (u, v, c) ∈ st.edges := by
  have hidx : ∀ {id : NodeId} {k : Nat}, (buildGraph st).nodes.idxOf? id = some k ↔
      (buildGraph st).nodes[k]? = some id := idxOf?_eq_some (nodup_buildGraph st)
  refine List.mem_filterMap.trans ?_
  constructor
  · rintro ⟨⟨u, v, c'⟩, he, hmatch⟩
    dsimp only at hmatch
    split at hmatch
    next si di hu hv =>
      obtain ⟨rfl, rfl, rfl⟩ : si = i ∧ di = j ∧ c' = c := by simpa using hmatch
      exact ⟨u, v, hidx.mp hu, hidx.mp hv, he⟩
    next => cases hmatch
  · rintro ⟨u, v, hu, hv, he⟩
    refine ⟨(u, v, c), he, ?_⟩
    have hu' : ((st.nodes.rows.map Node.id).insertionSort fun a b => a ≤ b).idxOf? u = some i :=
      hidx.mpr hu
    have hv' : ((st.nodes.rows.map Node.id).insertionSort fun a b => a ≤ b).idxOf? v = some j :=
      hidx.mpr hv
    dsimp only
    rw [hu', hv']

/-- An edge of the local graph, by the ids of its ends. -/
def GraphEdge (r : Reader) (source sink : NodeId) (filter : EdgeFilter) (u v : NodeId) (c : ℚ) :
    Prop :=
  ∃ i j, (localGraph r source sink filter).nodes[i]? = some u ∧
    (localGraph r source sink filter).nodes[j]? = some v ∧
      (localGraph r source sink filter).Joined i j c

theorem route_toIds {graph : DiGraph} {E : NodeId → NodeId → ℚ → Prop}
    (hE : ∀ i j c, graph.Joined i j c → ∃ u v, graph.nodes[i]? = some u ∧
      graph.nodes[j]? = some v ∧ E u v c)
    {i j : Nat} {route : List Nat} {cost : ℚ} (h : Route graph.Joined i j route cost)
    {u v : NodeId} (hu : graph.nodes[i]? = some u) (hv : graph.nodes[j]? = some v) :
    Route E u v (route.filterMap fun idx => graph.nodes[idx]?) cost := by
  induction h generalizing u with
  | nil s =>
    obtain rfl := Option.some.inj (hu.symm.trans hv)
    rw [List.filterMap_cons_some hu]
    exact .nil _
  | @cons s m t c cost route hop rest ih =>
    obtain ⟨u', w, hu', hw, he⟩ := hE _ _ _ hop
    obtain rfl := Option.some.inj (hu.symm.trans hu')
    rw [List.filterMap_cons_some hu]
    exact .cons he (ih hw hv)

theorem route_toIndices {graph : DiGraph} {E : NodeId → NodeId → ℚ → Prop}
    (hnodup : graph.nodes.Nodup)
    (hE : ∀ u v c, E u v c → ∃ i j, graph.nodes[i]? = some u ∧ graph.nodes[j]? = some v ∧
      graph.Joined i j c)
    {u v : NodeId} {route : List NodeId} {cost : ℚ} (h : Route E u v route cost)
    {i j : Nat} (hu : graph.nodes[i]? = some u) (hv : graph.nodes[j]? = some v) :
    ∃ route', Route graph.Joined i j route' cost := by
  have hsame : ∀ {k l : Nat} {id : NodeId}, graph.nodes[k]? = some id →
      graph.nodes[l]? = some id → k = l := fun hk hl =>
    Option.some.inj (((idxOf?_eq_some hnodup).mpr hk).symm.trans ((idxOf?_eq_some hnodup).mpr hl))
  induction h generalizing i with
  | nil s =>
    obtain rfl := hsame hu hv
    exact ⟨[i], .nil i⟩
  | @cons s m t c cost route hop rest ih =>
    obtain ⟨i', k, hi', hk, hjoin⟩ := hE _ _ _ hop
    obtain rfl := hsame hu hi'
    obtain ⟨route', h'⟩ := ih hk hv
    exact ⟨i :: route', .cons hjoin h'⟩

/-! ### What the expansion leaves to choose from -/

/-- A node of the local graph. -/
def Local (r : Reader) (scope : Option RbacFilter) (source sink id : NodeId) : Prop :=
  Visible r scope id ∧ (Reached r scope source id ∨ Reaching r scope sink id)

/-- The first row of a pair of local nodes. -/
def LocalEdge (r : Reader) (scope : Option RbacFilter) (source sink u v : NodeId) (c : ℚ) : Prop :=
  Local r scope source sink u ∧ Local r scope source sink v ∧ FirstRow r scope source sink u v c

/-- A row between visible nodes that the expansion comes upon. -/
def DiscoveredEdge (r : Reader) (scope : Option RbacFilter) (source sink u v : NodeId) (c : ℚ) :
    Prop :=
  Visible r scope u ∧ Visible r scope v ∧
    (Reached r scope source u ∨ Reaching r scope sink v) ∧ Row r u v c

/-- A row between visible nodes. -/
def VisibleEdge (r : Reader) (scope : Option RbacFilter) (u v : NodeId) (c : ℚ) : Prop :=
  Visible r scope u ∧ Visible r scope v ∧ Row r u v c

theorem FirstRow.discovered {u v : NodeId} {c : ℚ} (h : FirstRow r scope source sink u v c) :
    (Reached r scope source u ∨ Reaching r scope sink v) ∧ Row r u v c := by
  rcases h with ⟨hu, _, hc⟩ | ⟨_, hv, _, hc⟩
  · exact ⟨.inl hu, forward_row.mp (row_of_firstCost hc)⟩
  · exact ⟨.inr hv, reverse_row.mp (row_of_firstCost hc)⟩

theorem LocalEdge.discovered {u v : NodeId} {c : ℚ} (h : LocalEdge r scope source sink u v c) :
    DiscoveredEdge r scope source sink u v c := by
  obtain ⟨hu, hv, hfirst⟩ := h
  exact ⟨hu.1, hv.1, hfirst.discovered⟩

theorem DiscoveredEdge.exists_firstRow {u v : NodeId} {c : ℚ}
    (h : DiscoveredEdge r scope source sink u v c) :
    ∃ c', FirstRow r scope source sink u v c' := by
  obtain ⟨hu, hv, hfound, hrow⟩ := h
  have hforward : (firstCost r forward u v).isSome :=
    (firstCost_isSome_iff u v).mpr ⟨c, forward_row.mpr hrow⟩
  by_cases hfwd : Reached r scope source u ∧ Passes r scope v
  · obtain ⟨c', hc'⟩ := Option.isSome_iff_exists.mp hforward
    exact ⟨c', .inl ⟨hfwd.1, hfwd.2, hc'⟩⟩
  · obtain ⟨c', hc'⟩ := Option.isSome_iff_exists.mp ((firstCost_isSome u v).mp hforward)
    have hto : Reaching r scope sink v := by
      rcases hfound with hreached | hto
      · exact absurd ⟨hreached, hv.2⟩ hfwd
      · exact hto
    exact ⟨c', .inr ⟨hfwd, hto, hu.2, hc'⟩⟩

section Uncapped

variable (hun : Uncapped r scope source sink) (hsource : Visible r scope source)
  (hsink : Visible r scope sink)

include hun hsource hsink

theorem mem_localGraph {id : NodeId} :
    id ∈ (localGraph r source sink (filterOf scope)).nodes ↔ Local r scope source sink id :=
  has_iff_mem_buildGraph.trans ((expandLocalSubgraph_spec hun hsource hsink).1 id)

theorem graphEdge_iff {u v : NodeId} {c : ℚ} :
    GraphEdge r source sink (filterOf scope) u v c ↔ LocalEdge r scope source sink u v c := by
  have hmem := fun id => @mem_localGraph r scope source sink hun hsource hsink id
  constructor
  · rintro ⟨i, j, hi, hj, hjoin⟩
    obtain ⟨u', v', hi', hj', he⟩ := joined_buildGraph.mp hjoin
    obtain rfl := Option.some.inj (hi.symm.trans hi')
    obtain rfl := Option.some.inj (hj.symm.trans hj')
    exact ⟨(hmem u).mp (List.mem_of_getElem? hi), (hmem v).mp (List.mem_of_getElem? hj),
      ((expandLocalSubgraph_spec hun hsource hsink).2 u v c).mp he⟩
  · rintro ⟨hu, hv, hfirst⟩
    obtain ⟨i, hi⟩ := List.mem_iff_getElem?.mp ((hmem u).mpr hu)
    obtain ⟨j, hj⟩ := List.mem_iff_getElem?.mp ((hmem v).mpr hv)
    exact ⟨i, j, hi, hj, joined_buildGraph.mpr
      ⟨u, v, hi, hj, ((expandLocalSubgraph_spec hun hsource hsink).2 u v c).mpr hfirst⟩⟩

theorem chosenRoute_local (hfinds : FindsLocally petgraph r source sink (filterOf scope)) :
    (∀ total route, chosenRoute petgraph r source sink (filterOf scope) = some (total, route) →
      Route (LocalEdge r scope source sink) source sink route total) ∧
    ∀ route cost, Route (LocalEdge r scope source sink) source sink route cost →
      ∃ total chosen, chosenRoute petgraph r source sink (filterOf scope) = some (total, chosen) ∧
        total ≤ cost := by
  have hnodup : (localGraph r source sink (filterOf scope)).nodes.Nodup := nodup_buildGraph _
  have hmem := fun id => @mem_localGraph r scope source sink hun hsource hsink id
  have hedge := fun u v c => @graphEdge_iff r scope source sink hun hsource hsink u v c
  obtain ⟨s, hs⟩ := List.mem_iff_getElem?.mp
    ((hmem source).mpr ⟨hsource, .inl (Bfs.within_start _)⟩)
  obtain ⟨t, ht⟩ := List.mem_iff_getElem?.mp ((hmem sink).mpr ⟨hsink, .inr (Bfs.within_start _)⟩)
  have hright := hfinds s t hs ht
  have hchosen : chosenRoute petgraph r source sink (filterOf scope) =
      (petgraph.astar (localGraph r source sink (filterOf scope)) s t).map fun chosen =>
        (chosen.1, chosen.2.filterMap
          fun idx => (localGraph r source sink (filterOf scope)).nodes[idx]?) := by
    unfold chosenRoute
    dsimp only
    rw [(idxOf?_eq_some hnodup).mpr hs, (idxOf?_eq_some hnodup).mpr ht]
  rw [hchosen]
  constructor
  · intro total route h
    obtain ⟨⟨cost, indices⟩, hastar, heq⟩ := Option.map_eq_some_iff.mp h
    obtain ⟨rfl, rfl⟩ := Prod.mk.inj heq
    refine route_toIds (fun i j c hjoin => ?_) (hright.sound _ _ hastar) hs ht
    obtain ⟨u, v, hu, hv, _⟩ := joined_buildGraph.mp hjoin
    exact ⟨u, v, hu, hv, (hedge u v c).mp ⟨i, j, hu, hv, hjoin⟩⟩
  · intro route cost h
    obtain ⟨indices, h'⟩ := route_toIndices hnodup (fun u v c he => (hedge u v c).mpr he) h hs ht
    obtain ⟨⟨total, chosen⟩, hastar⟩ := Option.isSome_iff_exists.mp (hright.found _ _ h')
    exact ⟨total, _, by rw [hastar]; rfl, hright.least _ _ hastar _ _ h'⟩

end Uncapped

end Travsr.Retrieval.Pcst

namespace Travsr.Retrieval.Pcst

open Travsr.Core Store Relational Loop

variable {r : Reader} {scope : Option RbacFilter} {source sink : NodeId}

/-- A method that overrides another and calls it, and reaches it through a helper too: the override
comes first in the key order of the rows. -/
def superCallStore : SqliteStore where
  __ := openStore
  nodes := ⟨⟨openStore.nodes.rows ++ [⟨3, ⟨"a", "", "z.rs", "rust", "fn:z"⟩, "function", "",
    none, none, false, .none, none⟩], by decide⟩, by decide⟩
  edges := ⟨[⟨1, 2, .overrides, "scip", none⟩, ⟨1, 2, .refCall, "scip", none⟩,
    ⟨1, 3, .refCall, "scip", none⟩, ⟨3, 2, .refCall, "scip", none⟩], by decide⟩

def helperSearch : Petgraph where
  dijkstra := fun _ _ => [(0, 0), (1, 2), (2, 1)]
  astar := fun _ _ _ => some (2, [0, 2, 1])

theorem superCall_edges : (localGraph (Reader.scan superCallStore) 1 2 openFilter).edges =
    [(0, 1, 10 / 3), (0, 2, 1), (2, 1, 1)] := by decide +kernel

theorem superCall_nodes : (localGraph (Reader.scan superCallStore) 1 2 openFilter).nodes =
    [1, 2, 3] := by decide +kernel

theorem superCall_uncapped : Uncapped (Reader.scan superCallStore) none 1 2 := by decide +kernel

theorem superCall_finds : FindsLocally helperSearch (Reader.scan superCallStore) 1 2
    (filterOf none) := by
  intro s t hs ht
  have hnodes : (localGraph (Reader.scan superCallStore) 1 2 (filterOf none)).nodes = [1, 2, 3] :=
    superCall_nodes
  rw [hnodes] at hs ht
  have hidx : ∀ {id : NodeId} {i j : Nat}, ([1, 2, 3] : List NodeId)[i]? = some id →
      ([1, 2, 3] : List NodeId)[j]? = some id → i = j := fun hi hj =>
    Option.some.inj (((Cells.idxOf?_eq_some (by decide)).mpr hi).symm.trans
      ((Cells.idxOf?_eq_some (by decide)).mpr hj))
  obtain rfl : s = 0 := hidx hs rfl
  obtain rfl : t = 1 := hidx ht rfl
  have hjoined : ∀ i j c, (localGraph (Reader.scan superCallStore) 1 2 (filterOf none)).Joined i j c ↔
      (i = 0 ∧ j = 1 ∧ c = 10 / 3) ∨ (i = 0 ∧ j = 2 ∧ c = 1) ∨ (i = 2 ∧ j = 1 ∧ c = 1) := by
    intro i j c
    have hedges : (localGraph (Reader.scan superCallStore) 1 2 (filterOf none)).edges =
        [(0, 1, 10 / 3), (0, 2, 1), (2, 1, 1)] := superCall_edges
    rw [DiGraph.Joined, hedges]
    simp
  have hfound : ∀ cost route, helperSearch.astar
      (localGraph (Reader.scan superCallStore) 1 2 (filterOf none)) 0 1 = some (cost, route) →
        cost = 2 ∧ route = [0, 2, 1] := by
    intro cost route h
    obtain ⟨rfl, rfl⟩ := Prod.mk.inj (Option.some.inj h)
    exact ⟨rfl, rfl⟩
  refine ⟨fun cost route h => ?_, fun cost route h route' cost' h' => ?_, fun _ _ _ => rfl⟩
  · obtain ⟨rfl, rfl⟩ := hfound cost route h
    have hlast : Route (localGraph (Reader.scan superCallStore) 1 2 (filterOf none)).Joined
        2 1 [2, 1] (1 + 0) := .cons ((hjoined _ _ _).mpr (.inr (.inr ⟨rfl, rfl, rfl⟩))) (.nil 1)
    have hall := Route.cons ((hjoined 0 2 1).mpr (.inr (.inl ⟨rfl, rfl, rfl⟩))) hlast
    rwa [show (1 : ℚ) + (1 + 0) = 2 by norm_num] at hall
  · obtain ⟨rfl, rfl⟩ := hfound cost route h
    -- what is left to pay from each of the three nodes
    have hpot : ∀ i j c,
        (localGraph (Reader.scan superCallStore) 1 2 (filterOf none)).Joined i j c →
          (if i = 0 then (2 : ℚ) else if i = 2 then 1 else 0) ≤
            c + if j = 0 then (2 : ℚ) else if j = 2 then 1 else 0 := by
      intro i j c hjoin
      rcases (hjoined i j c).mp hjoin with ⟨rfl, rfl, rfl⟩ | ⟨rfl, rfl, rfl⟩ | ⟨rfl, rfl, rfl⟩
      · norm_num
      · norm_num
      · norm_num
    simpa using h'.potential_le hpot

theorem superCall_direct : Route (VisibleEdge (Reader.scan superCallStore) none) 1 2 [1, 2] 1 := by
  have hrow : Row (Reader.scan superCallStore) 1 2 1 :=
    ⟨⟨1, 2, .refCall, "scip", none⟩, by decide, rfl, rfl, by decide +kernel⟩
  have hedge : VisibleEdge (Reader.scan superCallStore) none 1 2 1 :=
    ⟨by decide, by decide, hrow⟩
  exact add_zero (1 : ℚ) ▸ Route.cons hedge (.nil 2)

theorem superCall_chosen : chosenRoute helperSearch (Reader.scan superCallStore) 1 2
    (filterOf none) = some (2, [1, 3, 2]) := by decide +kernel

/-! ### The chosen route against the rows the expansion discovers -/

/-- The chosen route is made of discovered rows. It is a cheapest route over them exactly when some
cheapest one keeps to the first rows between the nodes of the local graph: of the rows that join a
pair, only the first that a query returns is kept, whatever its kind costs. -/
theorem chosenRoute_least_iff (petgraph : Petgraph) (r : Reader) (scope : Option RbacFilter)
    (source sink : NodeId) (hsource : Visible r scope source) (hsink : Visible r scope sink)
    (hun : Uncapped r scope source sink)
    (hfinds : FindsLocally petgraph r source sink (filterOf scope)) :
    (∀ total route, chosenRoute petgraph r source sink (filterOf scope) = some (total, route) →
      Route (DiscoveredEdge r scope source sink) source sink route total) ∧
    ((∀ route cost, Route (DiscoveredEdge r scope source sink) source sink route cost →
        ∃ total chosen, chosenRoute petgraph r source sink (filterOf scope) = some (total, chosen) ∧
          total ≤ cost) ↔
      ∀ route cost, Route (DiscoveredEdge r scope source sink) source sink route cost →
        ∃ route' cost', Route (LocalEdge r scope source sink) source sink route' cost' ∧
          cost' ≤ cost) := by
  obtain ⟨hsound, hleast⟩ := chosenRoute_local hun hsource hsink hfinds
  refine ⟨fun total route h => ?_, ?_, ?_⟩
  · exact (hsound total route h).mono fun _ _ _ he => he.discovered
  · intro h route cost hroute
    obtain ⟨total, chosen, hchosen, hle⟩ := h route cost hroute
    exact ⟨chosen, total, hsound total chosen hchosen, hle⟩
  · intro h route cost hroute
    obtain ⟨route', cost', hlocal, hle⟩ := h route cost hroute
    obtain ⟨total, chosen, hchosen, hle'⟩ := hleast route' cost' hlocal
    exact ⟨total, chosen, hchosen, hle'.trans hle⟩

theorem chosenRoute_least_superCall :
    Visible (Reader.scan superCallStore) none 1 ∧ Visible (Reader.scan superCallStore) none 2 ∧
    Uncapped (Reader.scan superCallStore) none 1 2 ∧
    FindsLocally helperSearch (Reader.scan superCallStore) 1 2 (filterOf none) ∧
    Route (DiscoveredEdge (Reader.scan superCallStore) none 1 2) 1 2 [1, 3, 2] 2 :=
  ⟨by decide, by decide, superCall_uncapped, superCall_finds,
    (chosenRoute_least_iff helperSearch (Reader.scan superCallStore) none 1 2 (by decide)
      (by decide) superCall_uncapped superCall_finds).1 2 [1, 3, 2] superCall_chosen⟩

/-- Two nodes joined by an override and a call: the route goes round the call that joins them. -/
theorem parallel_row_lost :
    ¬ ∀ (petgraph : Petgraph) (r : Reader) (scope : Option RbacFilter) (source sink : NodeId),
      Visible r scope source → Visible r scope sink → Uncapped r scope source sink →
      FindsLocally petgraph r source sink (filterOf scope) →
      ∀ route cost, Route (DiscoveredEdge r scope source sink) source sink route cost →
        ∃ total chosen, chosenRoute petgraph r source sink (filterOf scope) = some (total, chosen) ∧
          total ≤ cost := by
  intro h
  have hroute : Route (DiscoveredEdge (Reader.scan superCallStore) none 1 2) 1 2 [1, 2] 1 := by
    have hrow : Row (Reader.scan superCallStore) 1 2 1 :=
      ⟨⟨1, 2, .refCall, "scip", none⟩, by decide, rfl, rfl, by decide +kernel⟩
    have hedge : DiscoveredEdge (Reader.scan superCallStore) none 1 2 1 2 1 :=
      ⟨by decide, by decide, .inl (Bfs.within_start _), hrow⟩
    exact add_zero (1 : ℚ) ▸ Route.cons hedge (.nil 2)
  obtain ⟨total, chosen, hchosen, hle⟩ := h helperSearch (Reader.scan superCallStore) none 1 2
    (by decide) (by decide) superCall_uncapped superCall_finds [1, 2] 1 hroute
  rw [superCall_chosen] at hchosen
  obtain ⟨rfl, _⟩ := Prod.mk.inj (Option.some.inj hchosen)
  norm_num at hle

/-! ### The local graph against the routes of the store -/

theorem mem_successors {pass : Pass} {near far : NodeId} {c : ℚ} (h : pass.Row r near far c)
    (hpass : Passes r scope far) : far ∈ successors r scope pass near := by
  obtain ⟨e, he, rfl, _⟩ := h
  exact List.mem_filter.mpr ⟨List.mem_map_of_mem he, decide_eq_true hpass⟩

/-- The two searches meet: of a route of at most twice the depth, the nodes up to the depth are
reached from the source and the others are within the depth of the sink. -/
theorem reached_or_reaching {route : List NodeId} {cost : ℚ}
    (h : Route (VisibleEdge r scope) source sink route cost) {j : Nat} {v : NodeId}
    (hv : route[j]? = some v) :
    (j ≤ expandDepth → Reached r scope source v) ∧
      (route.length ≤ j + 1 + expandDepth → Reaching r scope sink v) := by
  have hforward : ∀ a b c, VisibleEdge r scope a b c → b ∈ successors r scope forward a :=
    fun a b c he => mem_successors (forward_row.mpr he.2.2) he.2.1.2
  have hback : ∀ a b c, VisibleEdge r scope a b c → a ∈ successors r scope reverse b :=
    fun a b c he => mem_successors (reverse_row.mpr he.2.2) he.1.2
  obtain ⟨hlt, _⟩ := List.getElem?_eq_some_iff.mp hv
  constructor
  · intro hj
    exact (h.within hforward hv).mono hj
  · intro hj
    have hk : route.length = j + 1 + (route.length - (j + 1)) := by omega
    exact (h.within_back hback hv hk).mono (by omega)

theorem exists_localEdge {route : List NodeId} {cost : ℚ}
    (h : Route (VisibleEdge r scope) source sink route cost)
    (hlen : route.length ≤ 2 * expandDepth + 1) {j : Nat} {u v : NodeId} {c : ℚ}
    (hu : route[j]? = some u) (hv : route[j + 1]? = some v) (hedge : VisibleEdge r scope u v c) :
    ∃ c', LocalEdge r scope source sink u v c' := by
  obtain ⟨hu_visible, hv_visible, hrow⟩ := hedge
  obtain ⟨hu_from, hu_to⟩ := reached_or_reaching h hu
  obtain ⟨hv_from, hv_to⟩ := reached_or_reaching h hv
  have hlocal_u : Reached r scope source u ∨ Reaching r scope sink u := by
    by_cases hmid : j ≤ expandDepth
    · exact .inl (hu_from hmid)
    · exact .inr (hu_to (by omega))
  have hlocal_v : Reached r scope source v ∨ Reaching r scope sink v := by
    by_cases hmid : j + 1 ≤ expandDepth
    · exact .inl (hv_from hmid)
    · exact .inr (hv_to (by omega))
  have hfound : Reached r scope source u ∨ Reaching r scope sink v := by
    by_cases hmid : j ≤ expandDepth
    · exact .inl (hu_from hmid)
    · exact .inr (hv_to (by omega))
  have hdiscovered : DiscoveredEdge r scope source sink u v c :=
    ⟨hu_visible, hv_visible, hfound, hrow⟩
  obtain ⟨c', hc'⟩ := hdiscovered.exists_firstRow
  exact ⟨c', ⟨hu_visible, hlocal_u⟩, ⟨hv_visible, hlocal_v⟩, hc'⟩

theorem exists_localRoute {route : List NodeId} {cost : ℚ}
    (h : Route (VisibleEdge r scope) source sink route cost)
    (hlen : route.length ≤ 2 * expandDepth + 1) :
    ∃ cost', Route (LocalEdge r scope source sink) source sink route cost' := by
  obtain ⟨cost', hlocal, _⟩ := @Route.rehop _ _ _ _ (LocalEdge r scope source sink) _ _ _ _
    (fun _ _ => True) trivial (fun _ _ _ _ _ _ => trivial) h fun j u v c hu hv he => by
      obtain ⟨c', hc'⟩ := exists_localEdge h hlen hu hv he
      exact ⟨c', hc', trivial⟩
  exact ⟨cost', hlocal⟩

theorem exists_localRoute_le {route : List NodeId} {cost : ℚ}
    (hfirst : ∀ u v c c', VisibleEdge r scope u v c → FirstRow r scope source sink u v c' → c' ≤ c)
    (h : Route (VisibleEdge r scope) source sink route cost)
    (hlen : route.length ≤ 2 * expandDepth + 1) :
    ∃ cost', Route (LocalEdge r scope source sink) source sink route cost' ∧ cost' ≤ cost := by
  refine h.rehop le_rfl (fun _ _ _ _ => add_le_add) fun j u v c hu hv he => ?_
  obtain ⟨c', hc'⟩ := exists_localEdge h hlen hu hv he
  exact ⟨c', hc', hfirst u v c c' he hc'.2.2⟩

/-- Nothing of the store within twice the depth is out of reach: every such route is in the local
graph, node by node, and a route is chosen. But a route that costs no more is there exactly when one
over first rows does: a cheaper row behind the first one of its pair is not kept. It is enough that
the first row of every pair is its cheapest. -/
theorem localGraph_complete_iff (petgraph : Petgraph) (r : Reader) (scope : Option RbacFilter)
    (source sink : NodeId) (hsource : Visible r scope source) (hsink : Visible r scope sink)
    (hun : Uncapped r scope source sink)
    (hfinds : FindsLocally petgraph r source sink (filterOf scope)) :
    (∀ route cost, Route (VisibleEdge r scope) source sink route cost →
      route.length ≤ 2 * expandDepth + 1 →
        (∃ cost', Route (GraphEdge r source sink (filterOf scope)) source sink route cost') ∧
          (chosenRoute petgraph r source sink (filterOf scope)).isSome) ∧
    ((∀ route cost, Route (VisibleEdge r scope) source sink route cost →
      route.length ≤ 2 * expandDepth + 1 →
        ∃ route' cost', Route (GraphEdge r source sink (filterOf scope)) source sink route' cost' ∧
          cost' ≤ cost) ↔
      ∀ route cost, Route (VisibleEdge r scope) source sink route cost →
        route.length ≤ 2 * expandDepth + 1 →
          ∃ route' cost', Route (LocalEdge r scope source sink) source sink route' cost' ∧
            cost' ≤ cost) ∧
    ((∀ u v c c', VisibleEdge r scope u v c → FirstRow r scope source sink u v c' → c' ≤ c) →
      ∀ route cost, Route (VisibleEdge r scope) source sink route cost →
        route.length ≤ 2 * expandDepth + 1 →
          ∃ route' cost', Route (GraphEdge r source sink (filterOf scope)) source sink route' cost' ∧
            cost' ≤ cost) := by
  have hedge : GraphEdge r source sink (filterOf scope) = LocalEdge r scope source sink := by
    funext u v c
    exact propext (graphEdge_iff hun hsource hsink)
  rw [hedge]
  refine ⟨fun route cost hroute hlen => ?_, Iff.rfl, fun hfirst route cost hroute hlen => ?_⟩
  · obtain ⟨cost', hlocal⟩ := exists_localRoute hroute hlen
    obtain ⟨total, chosen, hchosen, _⟩ :=
      (chosenRoute_local hun hsource hsink hfinds).2 route cost' hlocal
    refine ⟨⟨cost', hlocal⟩, ?_⟩
    rw [hchosen]
    rfl
  · exact ⟨route, exists_localRoute_le hfirst hroute hlen⟩

/-- The store where the override hides the call: the route is there, the cost is not. -/
theorem localGraph_complete_superCall :
    Visible (Reader.scan superCallStore) none 1 ∧ Visible (Reader.scan superCallStore) none 2 ∧
    Uncapped (Reader.scan superCallStore) none 1 2 ∧
    FindsLocally helperSearch (Reader.scan superCallStore) 1 2 (filterOf none) ∧
    ∃ cost', Route (GraphEdge (Reader.scan superCallStore) 1 2 (filterOf none)) 1 2 [1, 2] cost' :=
  ⟨by decide, by decide, superCall_uncapped, superCall_finds,
    ((localGraph_complete_iff helperSearch (Reader.scan superCallStore) none 1 2 (by decide)
      (by decide) superCall_uncapped superCall_finds).1 [1, 2] 1 superCall_direct (by decide)).1⟩

/-- A call that costs 1 joins the two nodes, and every route of the local graph costs 2 or more. -/
theorem direct_call_out_of_graph :
    ¬ ∀ (r : Reader) (scope : Option RbacFilter) (source sink : NodeId),
      Visible r scope source → Visible r scope sink → Uncapped r scope source sink →
      ∀ route cost, Route (VisibleEdge r scope) source sink route cost →
        route.length ≤ 2 * expandDepth + 1 →
          ∃ route' cost', Route (GraphEdge r source sink (filterOf scope)) source sink route' cost' ∧
            cost' ≤ cost := by
  intro h
  obtain ⟨route', cost', hroute, hle⟩ := h (Reader.scan superCallStore) none 1 2 (by decide)
    (by decide) superCall_uncapped [1, 2] 1 superCall_direct (by decide)
  have hlocal : Route (LocalEdge (Reader.scan superCallStore) none 1 2) 1 2 route' cost' :=
    hroute.mono fun u v c he =>
      (graphEdge_iff superCall_uncapped (by decide) (by decide)).mp he
  obtain ⟨total, chosen, hchosen, hle'⟩ := (chosenRoute_local superCall_uncapped (by decide)
    (by decide) superCall_finds).2 route' cost' hlocal
  rw [superCall_chosen] at hchosen
  obtain ⟨rfl, _⟩ := Prod.mk.inj (Option.some.inj hchosen)
  have hbelow : (2 : ℚ) ≤ 1 := hle'.trans hle
  norm_num at hbelow

end Travsr.Retrieval.Pcst
