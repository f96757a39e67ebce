import Mathlib.Data.List.Sort
import Travsr.Lib.Loop
import Travsr.Retrieval.Rbac

namespace Travsr.Retrieval

open Travsr.Core Store Relational Loop

/-- `token_cost`. -/
def tokenCost (node : Node) : Nat :=
  max ((Text.byteLen node.vname.signature + Text.byteLen node.kind +
    Text.byteLen node.vname.path) / 4) 1

namespace Pcst

def pcstLambda : ℚ := 1 / 2

/-- `parse_lambda`, on the number the variable parses to. -/
def parseLambda (raw : Option ℚ) : ℚ := (raw.filter (fun x => 0 ≤ x)).getD pcstLambda

def maxEdgeCost : ℚ := 10

def costFromWeight (w : ℚ) : ℚ := if 0 < w then 1 / w else maxEdgeCost

def edgeCost (kind : EdgeKind) : ℚ := costFromWeight kind.pprWeight

def maxLocalNodes : Nat := 2000

def expandDepth : Nat := 5

/-- The expansion's local variables; `front` is the running pass's queue and visited set. -/
structure Expansion where
  nodes : Table Node Node.id
  edges : List (NodeId × NodeId × ℚ)
  edgeSet : Finset (NodeId × NodeId)
  front : Worklist NodeId

/-- What the two passes differ in: the node cap, the query, the end an edge leads to and
the (source, destination) pair it is gated and recorded under. -/
structure Pass where
  cap : Nat
  rows : Reader → NodeId → List Edge
  far : Edge → NodeId
  link : NodeId → Edge → NodeId × NodeId

def forward : Pass where
  cap := maxLocalNodes / 2
  rows := Reader.iterEdgesFrom
  far := Edge.dst
  link := fun current e => (current, e.dst)

def reverse : Pass where
  cap := maxLocalNodes
  rows := Reader.iterEdgesTo
  far := Edge.src
  link := fun current e => (e.src, current)

/-- `nodes.entry(id).or_insert(..)` behind the node-level check. -/
def noteNode (r : Reader) (filter : EdgeFilter) (nodes : Table Node Node.id) (id : NodeId) :
    Table Node Node.id :=
  match r.getNode id with
  | some n => if filter.allow id id (some n.vname.corpus) then nodes.insertIgnore n else nodes
  | none => nodes

def corpusOf (r : Reader) (nodes : Table Node Node.id) (id : NodeId) : Option String :=
  match nodes.find? id with
  | some n => some n.vname.corpus
  | none => (r.getNode id).map (fun n => n.vname.corpus)

def addEdge (pair : NodeId × NodeId) (cost : ℚ) (st : Expansion) : Expansion :=
  if pair ∈ st.edgeSet then st
  else { st with
    edgeSet := insert pair st.edgeSet
    edges := st.edges ++ [(pair.1, pair.2, cost)] }

def enqueue (maxDepth depth : Nat) (id : NodeId) (st : Expansion) : Expansion :=
  if depth < maxDepth then { st with front := st.front.push id (depth + 1) } else st

def follow (pass : Pass) (maxDepth : Nat) (current : NodeId) (depth : Nat) (st : Expansion)
    (e : Edge) : Expansion :=
  enqueue maxDepth depth (pass.far e) (addEdge (pass.link current e) (edgeCost e.kind) st)

def relax (r : Reader) (filter : EdgeFilter) (pass : Pass) (maxDepth : Nat) (current : NodeId)
    (depth : Nat) (st : Expansion) (e : Edge) : Expansion :=
  if filter.allow (pass.link current e).1 (pass.link current e).2
      (corpusOf r st.nodes (pass.far e)) then
    follow pass maxDepth current depth st e
  else st

/-- One iteration of a pass: `none` when the queue is empty or the cap is reached. -/
def expandStep (r : Reader) (filter : EdgeFilter) (pass : Pass) (maxDepth : Nat)
    (st : Expansion) : Option Expansion :=
  match st.front.queue with
  | [] => none
  | (current, depth) :: rest =>
    if pass.cap ≤ st.nodes.rows.length then none
    else
      some ((pass.rows r current).foldl (relax r filter pass maxDepth current depth)
        { st with
          nodes := noteNode r filter st.nodes current
          front := { st.front with queue := rest } })

/-- Every traversal of the store pops a node at most once per edge endpoint, and its seed. -/
def fuel (r : Reader) : Nat := 2 * r.store.edges.rows.length + 1

def runPass (r : Reader) (filter : EdgeFilter) (pass : Pass) (maxDepth : Nat) (start : NodeId)
    (st : Expansion) : Expansion :=
  Loop.iterate (expandStep r filter pass maxDepth) (fuel r)
    { st with front := Worklist.start start }

def expandLocalSubgraph (r : Reader) (source sink : NodeId) (filter : EdgeFilter)
    (maxDepth : Nat) : Expansion :=
  let seeded := noteNode r filter (noteNode r filter Table.empty source) sink
  runPass r filter reverse maxDepth sink
    (runPass r filter forward maxDepth source ⟨seeded, [], ∅, Worklist.start source⟩)

/-- What `build_graph` hands to petgraph: a node's index is its position. -/
structure DiGraph where
  nodes : List NodeId
  edges : List (Nat × Nat × ℚ)

def buildGraph (st : Expansion) : DiGraph where
  nodes := (st.nodes.rows.map Node.id).insertionSort (fun a b => a ≤ b)
  edges := st.edges.filterMap fun e =>
    let ids := (st.nodes.rows.map Node.id).insertionSort (fun a b => a ≤ b)
    match ids.idxOf? e.1, ids.idxOf? e.2.1 with
    | some si, some di => some (si, di, e.2.2)
    | _, _ => none

/-- petgraph's two searches: `dijkstra` gives the entries of its cost map in the order the
map is iterated, `astar` the cost and the node indices of the route it chooses. -/
structure Petgraph where
  dijkstra : DiGraph → Nat → List (Nat × ℚ)
  astar : DiGraph → Nat → Nat → Option (ℚ × List Nat)

/-- The fallback's local variables. -/
structure Fallback where
  front : Worklist NodeId
  result : List Node
  tokensUsed : Nat

def fallbackVisit (depth : Nat) (st : Fallback) (e : Edge) : Fallback :=
  { st with front := st.front.push e.dst (depth + 1) }

def fallbackRelax (r : Reader) (filter : EdgeFilter) (current : NodeId) (depth : Nat)
    (st : Fallback) (e : Edge) : Fallback :=
  if filter.allow current e.dst ((r.getNode e.dst).map (fun n => n.vname.corpus)) then
    fallbackVisit depth st e
  else st

def fallbackExpand (r : Reader) (filter : EdgeFilter) (current : NodeId) (depth : Nat)
    (st : Fallback) : Fallback :=
  if depth < 3 then (r.iterEdgesFrom current).foldl (fallbackRelax r filter current depth) st
  else st

def fallbackStep (r : Reader) (filter : EdgeFilter) (tokenBudget : Nat) (st : Fallback) :
    Option Fallback :=
  match st.front.queue with
  | [] => none
  | (current, depth) :: rest =>
    let popped := { st with front := { st.front with queue := rest } }
    if 3 < depth then none
    else
      match r.getNode current with
      | some node =>
        if !filter.allow current current (some node.vname.corpus) then some popped
        else if tokenBudget < st.tokensUsed + tokenCost node then none
        else
          some (fallbackExpand r filter current depth
            { popped with
              tokensUsed := st.tokensUsed + tokenCost node
              result := st.result ++ [node] })
      | none => some (fallbackExpand r filter current depth popped)

def bfsFallback (r : Reader) (seed : NodeId) (filter : EdgeFilter) (tokenBudget : Nat) :
    List Node :=
  (Loop.iterate (fallbackStep r filter tokenBudget) (fuel r)
    ⟨Worklist.start seed, [], 0⟩).result

/-- The context order: cheapest first, ties by node id. -/
def closer (a b : ℚ × NodeId) : Prop := a.1 < b.1 ∨ a.1 = b.1 ∧ a.2 ≤ b.2

instance : DecidableRel closer := fun _ _ => inferInstanceAs (Decidable (_ ∨ _))

def withinBudget (r : Reader) (tokenBudget : Nat) : Nat → List NodeId → List Node
  | _, [] => []
  | tokensUsed, id :: ids =>
    match r.getNode id with
    | some node =>
      if tokenBudget < tokensUsed + tokenCost node then []
      else node :: withinBudget r tokenBudget (tokensUsed + tokenCost node) ids
    | none => withinBudget r tokenBudget tokensUsed ids

def routeAndContext (graph : DiGraph) (lambda : ℚ) (costs : List (Nat × ℚ)) (totalCost : ℚ)
    (route : List Nat) : List NodeId :=
  let onRoute := route.filterMap (fun idx => graph.nodes[idx]?)
  let threshold := totalCost * (1 + lambda)
  let context := (costs.filter (fun c => c.2 ≤ threshold)).filterMap fun c =>
    graph.nodes[c.1]?.map (fun id => (c.2, id))
  onRoute ++ ((context.filter (fun c => c.2 ∉ onRoute)).insertionSort closer).map Prod.snd

def accessible (r : Reader) (filter : EdgeFilter) (id : NodeId) : Option Node :=
  (r.getNode id).filter (fun n => filter.allow id id (some n.vname.corpus))

def withEndpoints (sourceNode sinkNode : Node) (source sink : NodeId) (result : List Node) :
    List Node :=
  let led := if result.any (fun n => n.id = source) then result else sourceNode :: result
  if led.any (fun n => n.id = sink) then led else led ++ [sinkNode]

def pcstPath (petgraph : Petgraph) (lambda : ℚ) (r : Reader) (source sink : NodeId)
    (filter : EdgeFilter) (tokenBudget : Nat) : List Node :=
  match accessible r filter source, accessible r filter sink with
  | some sourceNode, some sinkNode =>
    if source = sink then [sourceNode]
    else
      let graph := buildGraph (expandLocalSubgraph r source sink filter expandDepth)
      match graph.nodes.idxOf? source, graph.nodes.idxOf? sink with
      | some srcIdx, some dstIdx =>
        match petgraph.astar graph srcIdx dstIdx with
        | some (totalCost, route) =>
          withEndpoints sourceNode sinkNode source sink
            (withinBudget r tokenBudget 0
              (routeAndContext graph lambda (petgraph.dijkstra graph srcIdx) totalCost route))
        | none => bfsFallback r source filter tokenBudget
      | _, _ => bfsFallback r source filter tokenBudget
  | _, _ => []

end Pcst

end Travsr.Retrieval
