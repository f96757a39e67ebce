import Travsr.Lib.SortDedup
import Travsr.Retrieval.Pcst

namespace Travsr.Mcp

open Travsr.Core Travsr.Store Travsr.Retrieval

inductive QueryDirection where
  | deps
  | callers
  | both
  deriving DecidableEq, Repr

inductive QueryEdgeMode where
  | semantic
  | all
  deriving DecidableEq, Repr

structure GraphQueryArgs where
  query : String
  path : Option String
  depth : Nat
  direction : QueryDirection
  edgeMode : QueryEdgeMode
  includeNoise : Bool
  deriving DecidableEq, Repr

structure NodeEntry where
  id : NodeId
  signature : String
  kind : String
  path : String
  language : String
  depth : Nat
  tokens : Nat
  line : Option Nat
  deriving DecidableEq, Repr

structure EdgeEntry where
  src : NodeId
  dst : NodeId
  kind : String
  provenance : String
  srcSig : String
  dstSig : String
  heuristic : Bool
  deriving DecidableEq, Repr

/-- One expansion of the walk; `incoming` if the stored edge points from the child. -/
structure TreeStep where
  parent : NodeId
  edgeKind : String
  child : NodeId
  incoming : Bool
  heuristic : Bool
  deriving DecidableEq, Repr

structure GraphPayload where
  seed : Option NodeEntry
  nodes : List NodeEntry
  edges : List EdgeEntry
  tree : List TreeStep
  candidates : Option (List NodeEntry)
  fuzzy : Bool
  deriving DecidableEq, Repr

def nodeEntry (node : Node) (depth : Nat) : NodeEntry where
  id := node.id
  signature := node.vname.signature
  kind := node.kind
  path := node.vname.path
  language := node.vname.language
  depth := depth
  tokens := tokenCost node
  line := node.line

def isHeuristicEdge (kind provenance : String) : Bool :=
  kind == EdgeKind.refCall.asStr && provenance == "tree-sitter"

def isSemanticEdge : EdgeKind → Bool
  | .refCall | .ffiCall | .overrides | .isImplementation | .refImports | .resolvesTo => true
  | _ => false

def isContainmentEdge (kind : EdgeKind) : Bool := kind == .definesBinding

def provOf (e : Edge) : String := e.provenance.getD "tree-sitter"

/-! ### One expansion -/

structure NextEdge where
  kind : EdgeKind
  next : NodeId
  expand : Bool
  incoming : Bool
  provenance : String
  deriving DecidableEq, Repr

def definitionKinds : List String :=
  ["function", "method", "fn", "class", "interface", "struct", "trait", "enum", "type", "typedef",
    "union", "object", "protocol", "mixin", "extension", "namespace", "init", "var", "variable",
    "const", "constant", "static"]

def definitionNodeIdsInFile (r : Reader) (corpus path : String) : List NodeId :=
  (SortDedup.sortBy (fun n : NodeRow => n.line.elim 0 (· + 1))
    (r.store.nodes.rows.filter fun n =>
      n.vname.corpus = corpus ∧ n.vname.path = path ∧ n.kind ∈ definitionKinds)).map NodeRow.id

def incomingEdges (r : Reader) (nodeId : NodeId) (isSeed : Bool) : List Edge :=
  let incoming := r.iterEdgesTo nodeId
  if isSeed then
    match r.getNode nodeId with
    | some node =>
      if node.kind = "file" then
        incoming ++ (definitionNodeIdsInFile r node.vname.corpus node.vname.path).flatMap fun defId =>
          (r.iterEdgesTo defId).filter fun e => e.src ≠ nodeId
      else incoming
    | none => incoming
  else incoming

/-- The incoming edges a mode follows: with a semantic one among them, semantic and containment
edges only. -/
def followedEdges (edgeMode : QueryEdgeMode) (incoming : List Edge) : List Edge :=
  match edgeMode with
  | .semantic =>
    if incoming.any fun e => isSemanticEdge e.kind then
      incoming.filter fun e => isSemanticEdge e.kind || isContainmentEdge e.kind
    else incoming
  | .all => incoming

/-- `retain` with a set of the keys seen: the first entry of each key stays. -/
def retainFirst {α κ : Type} [DecidableEq κ] (key : α → κ) : List κ → List α → List α
  | _, [] => []
  | seen, a :: l =>
    if key a ∈ seen then retainFirst key seen l else a :: retainFirst key (key a :: seen) l

def outgoingNext (e : Edge) : NextEdge := ⟨e.kind, e.dst, true, false, provOf e⟩

def incomingNext (e : Edge) : NextEdge := ⟨e.kind, e.src, !isContainmentEdge e.kind, true, provOf e⟩

def nextEdges (r : Reader) (nodeId : NodeId) (direction : QueryDirection)
    (edgeMode : QueryEdgeMode) (isSeed : Bool) : List NextEdge :=
  let deps :=
    if direction = .deps ∨ direction = .both then (r.iterEdgesFrom nodeId).map outgoingNext else []
  let callers :=
    if direction = .callers ∨ direction = .both then
      (followedEdges edgeMode (incomingEdges r nodeId isSeed)).map incomingNext
    else []
  let out := retainFirst (fun e => (e.kind, e.next, e.incoming)) [] (deps ++ callers)
  SortDedup.sortBy (fun e => isContainmentEdge e.kind) out

/-! ### The seed -/

inductive RefTarget where
  | unique (node : Node)
  | ambiguous (list : List Node)
  | family (list : List Node)
  | none

/-- What names resolve to over a store: `resolve_reference_targets`, which may also ask the
repository's text for an alias, and `search_nodes_by_name`. They answer with nodes of the store. -/
structure Ladder (r : Reader) where
  targets : String → Option String → RefTarget
  search : String → List Node
  targets_stored : ∀ query path n, targets query path = .unique n → (r.getNode n.id).isSome
  search_stored : ∀ query, ∀ n ∈ search query, (r.getNode n.id).isSome

def pathHintMatches (nodePath hint : String) : Bool :=
  let hint := String.ofList (hint.toList.reverse.dropWhile (· == '/')).reverse
  if hint = "" then true
  else
    nodePath == hint ||
    Text.endsWith nodePath ("/" ++ hint) ||
    Text.startsWith nodePath (hint ++ "/") ||
    Text.contains nodePath ("/" ++ hint ++ "/") ||
    (!Text.contains hint "/" && !Text.contains hint "." && Text.contains nodePath hint)

structure Choice where
  seed : Option Node
  candidates : Option (List NodeEntry)
  fuzzy : Bool

def fileHits (args : GraphQueryArgs) (found : List Node) : List Node :=
  let named := found.filter fun n =>
    n.kind = "file" && (n.vname.path == args.query || Text.endsWith n.vname.path ("/" ++ args.query))
  let pinned := match args.path with
    | some p => named.filter fun n => pathHintMatches n.vname.path p
    | none => named
  SortDedup.dedupBy Node.id (SortDedup.sortBy Node.id pinned)

def chooseSeed {r : Reader} (ladder : Ladder r) (args : GraphQueryArgs) : Choice :=
  match ladder.targets args.query args.path with
  | .unique n => ⟨some n, none, false⟩
  | .ambiguous list | .family list => ⟨none, some (list.map fun n => nodeEntry n 0), false⟩
  | .none =>
    let found := ladder.search args.query
    match fileHits args found with
    | [hit] => ⟨some hit, none, false⟩
    | [] =>
      if args.path.isNone then
        ⟨(found.find? fun n => n.kind = "file").or found.head?, none, !found.isEmpty⟩
      else ⟨none, none, false⟩
    | hits => ⟨none, some (hits.map fun n => nodeEntry n 0), false⟩

/-! ### The walk -/

/-- A queued node: its depth, whether it is walked any further, and which way. -/
structure Queued where
  id : NodeId
  depth : Nat
  expand : Bool
  direction : QueryDirection
  deriving DecidableEq, Repr

/-- The local variables of `graph_query`'s loop. -/
structure Walk where
  nodes : List NodeEntry
  nodeIndex : Finset NodeId
  edgesRaw : List (NodeId × NodeId × String × String)
  tree : List TreeStep
  /-- By node and side: `true` as a caller. -/
  visited : Finset (NodeId × Bool)
  queue : List Queued

def Walk.start (seed : NodeId) (direction : QueryDirection) : Walk where
  nodes := []
  nodeIndex := ∅
  edgesRaw := []
  tree := []
  visited := {(seed, true), (seed, false)}
  queue := [⟨seed, 0, true, direction⟩]

def emit (r : Reader) (current : Queued) (w : Walk) : Walk :=
  match r.getNode current.id with
  | some node =>
    if current.id ∈ w.nodeIndex then w
    else { w with
      nodeIndex := insert current.id w.nodeIndex
      nodes := w.nodes ++ [nodeEntry node current.depth] }
  | none => w

def hidden (r : Reader) (includeNoise : Bool) (id : NodeId) : Bool :=
  match r.getNode id with
  | some node => !includeNoise && Noise.isNoiseNode node
  | none => false

def treeStep (current : Queued) (e : NextEdge) : TreeStep where
  parent := current.id
  edgeKind := e.kind.asStr
  child := e.next
  incoming := e.incoming
  heuristic := isHeuristicEdge e.kind.asStr e.provenance

def queuedNext (current : Queued) (e : NextEdge) : Queued where
  id := e.next
  depth := current.depth + 1
  expand := e.expand
  direction := if e.incoming then .callers else .deps

def follow (r : Reader) (includeNoise : Bool) (current : Queued) (w : Walk) (e : NextEdge) : Walk :=
  let ends := if e.incoming then (e.next, current.id) else (current.id, e.next)
  let edgesRaw := w.edgesRaw ++ [(ends.1, ends.2, e.kind.asStr, e.provenance)]
  if (e.next, e.incoming) ∈ w.visited then { w with edgesRaw := edgesRaw }
  else
    let visited := insert (e.next, e.incoming) w.visited
    if hidden r includeNoise e.next then { w with edgesRaw := edgesRaw, visited := visited }
    else { w with
      edgesRaw := edgesRaw
      visited := visited
      tree := w.tree ++ [treeStep current e]
      queue := w.queue ++ [queuedNext current e] }

def expansion (r : Reader) (args : GraphQueryArgs) (current : Queued) : List NextEdge :=
  if args.depth ≤ current.depth ∨ current.expand = false then []
  else nextEdges r current.id current.direction args.edgeMode (current.depth == 0)

/-- One turn of the loop: `none` when the queue is empty. -/
def walkStep (r : Reader) (args : GraphQueryArgs) (w : Walk) : Option Walk :=
  match w.queue with
  | [] => none
  | current :: rest =>
    some ((expansion r args current).foldl (follow r args.includeNoise current)
      (emit r current { w with queue := rest }))

def walkFuel (r : Reader) : Nat := 4 * r.store.edges.rows.length + 1

def walkFrom (r : Reader) (args : GraphQueryArgs) (seed : NodeId) : Walk :=
  Loop.iterate (walkStep r args) (walkFuel r) (Walk.start seed args.direction)

def sigLookup (r : Reader) (nodes : List NodeEntry) (id : NodeId) : String :=
  match nodes.find? fun n => n.id = id with
  | some n => n.signature
  | none => (r.getNode id).elim "" fun n => n.vname.signature

def resolveEdgeSigs (r : Reader) (nodes : List NodeEntry)
    (edgesRaw : List (NodeId × NodeId × String × String)) : List EdgeEntry :=
  edgesRaw.map fun (src, dst, kind, provenance) =>
    { src := src, dst := dst, kind := kind, provenance := provenance
      srcSig := sigLookup r nodes src, dstSig := sigLookup r nodes dst
      heuristic := isHeuristicEdge kind provenance }

def graphQuery (r : Reader) (ladder : Ladder r) (args : GraphQueryArgs) : GraphPayload :=
  let choice := chooseSeed ladder args
  match choice.seed with
  | none => ⟨none, [], [], [], choice.candidates, false⟩
  | some seed =>
    let w := walkFrom r args seed.id
    ⟨w.nodes.head?, w.nodes, resolveEdgeSigs r w.nodes w.edgesRaw, w.tree, choice.candidates,
      choice.fuzzy⟩

/-! ### The token budget -/

/-- How many nodes are kept when `i` are already, at a cost of `cum`. -/
def keepCount (budget : Nat) : Nat → Nat → List NodeEntry → Nat
  | i, _, [] => i
  | i, cum, n :: ns =>
    if 0 < i ∧ budget < cum + n.tokens then i else keepCount budget (i + 1) (cum + n.tokens) ns

def applyTokenBudget (payload : GraphPayload) (budget : Nat) : GraphPayload × Nat :=
  if budget = 0 ∨ payload.nodes = [] then (payload, 0)
  else
    let keep := keepCount budget 0 0 payload.nodes
    let truncated := payload.nodes.length - keep
    if truncated = 0 then (payload, 0)
    else
      let cutIds := (payload.nodes.drop keep).map NodeEntry.id
      ({ payload with
        nodes := payload.nodes.take keep
        edges := payload.edges.filter fun e => e.src ∉ cutIds ∧ e.dst ∉ cutIds
        tree := payload.tree.filter fun t => t.parent ∉ cutIds ∧ t.child ∉ cutIds }, truncated)

end Travsr.Mcp
