import Mathlib.Algebra.BigOperators.Group.List.Basic
import Mathlib.Algebra.Order.Field.Rat
import Mathlib.Data.Finset.Card
import Mathlib.Data.List.Sort
import Travsr.Lib.Tally
import Travsr.Retrieval.Rbac

namespace Travsr.Retrieval.Ppr

open Travsr.Core Store Relational

/-- The hyperparameters, after the environment's overrides. -/
structure Params where
  alpha : ℚ
  epsilon : ℚ
  maxIterations : Nat

def Params.default : Params where
  alpha := 17 / 20
  epsilon := 1 / 1000000
  maxIterations := 50

def pprBfsDepth : Nat := 6

def maxSubgraphNodes : Nat := 250000

def edgeBatchSize : Nat := 500

/-- `slice::chunks`, with the chunk that is being filled. -/
def chunksFrom {α : Type} (size : Nat) : List α → List α → List (List α)
  | current, [] => if current.isEmpty then [] else [current]
  | current, x :: xs =>
    if current.length = size then current :: chunksFrom size [x] xs
    else chunksFrom size (current ++ [x]) xs

/-- The order a hash map is iterated in: any rearrangement, at each point of a run its own. -/
structure HashOrder where
  arrange : {α : Type} → Nat → List α → List α
  perm : ∀ {α : Type} (site : Nat) (l : List α), (arrange site l).Perm l

/-- Node scores, `HashMap<NodeId, f32>` over exact rationals. -/
abbrev Scores := Tally NodeId ℚ

abbrev WeightedAdj := Table (NodeId × List (NodeId × ℚ)) Prod.fst

/-- The subgraph under construction. -/
structure Subgraph where
  adj : WeightedAdj
  reverseAdj : Table NodeId id
  visited : Finset NodeId
  nextFrontier : List NodeId

/-- `visited.insert(id)` and, if it was new, `frontier.push(id)`. -/
def visit (state : Finset NodeId × List NodeId) (id : NodeId) : Finset NodeId × List NodeId :=
  if id ∈ state.1 then state else (insert id state.1, state.2 ++ [id])

/-- `adj.entry(src).or_default()`. -/
def touchAdj (adj : WeightedAdj) (src : NodeId) : WeightedAdj := adj.insertIgnore (src, [])

/-- `adj.entry(src).or_default().push(..)`. -/
def pushAdj (adj : WeightedAdj) (src : NodeId) (target : NodeId × ℚ) : WeightedAdj :=
  adj.upsert (src, [target]) (fun p => (p.1, p.2 ++ [target])) (fun _ => rfl)

def addEdge (st : Subgraph) (e : Edge) : Subgraph :=
  let seen := visit (st.visited, st.nextFrontier) e.dst
  { adj := pushAdj st.adj e.src (e.dst, e.kind.pprWeight)
    reverseAdj := st.reverseAdj.insertIgnore e.dst
    visited := seen.1
    nextFrontier := seen.2 }

def dstCorpora (r : Reader) (filter : EdgeFilter) (edges : List Edge) : List Node :=
  if filter.needsCorpus then
    r.getNodes ((edges.map Edge.dst).insertionSort (fun a b => a ≤ b)).dedup
  else []

def gate (filter : EdgeFilter) (corpora : List Node) (e : Edge) : Bool :=
  !filter.needsCorpus || filter.allow e.src e.dst
    ((corpora.find? (fun n => n.id = e.dst)).map (fun n => n.vname.corpus))

def expandChunk (r : Reader) (filter : EdgeFilter) (st : Subgraph) (chunk : List NodeId) :
    Subgraph :=
  let edges := r.iterEdgesFromBatch chunk
  let corpora := dstCorpora r filter edges
  let grown := edges.foldl (fun st e => if gate filter corpora e then addEdge st e else st) st
  { grown with adj := chunk.foldl touchAdj grown.adj }

def expandChunks (r : Reader) (filter : EdgeFilter) : List (List NodeId) → Subgraph → Subgraph
  | [], st => st
  | chunk :: chunks, st =>
    let grown := expandChunk r filter st chunk
    if maxSubgraphNodes < grown.visited.card then grown else expandChunks r filter chunks grown

def expandLevels (r : Reader) (filter : EdgeFilter) :
    Nat → List NodeId → Subgraph → Subgraph
  | 0, _, st => st
  | depth + 1, frontier, st =>
    if frontier.isEmpty ∨ maxSubgraphNodes ≤ st.visited.card then st
    else
      let grown := expandChunks r filter (chunksFrom edgeBatchSize [] frontier)
        { st with nextFrontier := [] }
      if maxSubgraphNodes < grown.visited.card then grown
      else expandLevels r filter depth grown.nextFrontier grown

def buildWeightedSubgraph (r : Reader) (filter : EdgeFilter) (seeds : List NodeId) : Subgraph :=
  let seen := seeds.foldl visit (∅, [])
  expandLevels r filter pprBfsDepth seen.2 ⟨Table.empty, Table.empty, seen.1, []⟩

def spread (alpha : ℚ) (scores : Scores) (entry : NodeId × List (NodeId × ℚ)) :
    List (NodeId × ℚ) :=
  let srcScore := scores.value entry.1
  let totalWeight := (entry.2.map Prod.snd).sum
  if srcScore = 0 ∨ totalWeight = 0 then []
  else entry.2.map (fun t => (t.1, alpha * (t.2 / totalWeight) * srcScore))

/-- One power iteration: teleportation, propagation, and an entry for every node that some
edge leads to. -/
def iteration (params : Params) (order : HashOrder) (site : Nat) (personalization : Scores)
    (graph : Subgraph) (scores : Scores) : Scores :=
  let teleported := Tally.addAll Table.empty
    ((order.arrange site personalization.rows).map (fun p => (p.1, (1 - params.alpha) * p.2)))
  let propagated := teleported.addAll
    ((order.arrange (site + 1) graph.adj.rows).flatMap (spread params.alpha scores))
  (order.arrange (site + 2) graph.reverseAdj.rows).foldl Tally.touch propagated

def delta (order : HashOrder) (site : Nat) (next scores : Scores) : ℚ :=
  ((order.arrange site next.rows).map (fun p => |p.2 - scores.value p.1|)).sum +
    (((order.arrange (site + 1) scores.rows).filter (fun p => ¬ next.Has p.1)).map
      Prod.snd).sum

def powerIterate (params : Params) (order : HashOrder) (personalization : Scores)
    (graph : Subgraph) : Nat → Scores → Scores
  | 0, scores => scores
  | left + 1, scores =>
    let site := 5 * left + 3
    let next := iteration params order site personalization graph scores
    if delta order (site + 3) next scores < params.epsilon then next
    else powerIterate params order personalization graph left next

/-- The final order: by score descending, ties by node id. -/
def ranks (a b : NodeId × ℚ) : Prop := b.2 < a.2 ∨ a.2 = b.2 ∧ a.1 ≤ b.1

instance : DecidableRel ranks := fun _ _ => inferInstanceAs (Decidable (_ ∨ _))

/-- `truncate(k)`, where zero keeps everything. -/
def truncate (k : Nat) (l : List (NodeId × ℚ)) : List (NodeId × ℚ) :=
  if 0 < k then l.take k else l

def pprInner (params : Params) (order : HashOrder) (r : Reader) (personalization : Scores)
    (k : Nat) (filter : EdgeFilter) : List (NodeId × ℚ) :=
  if personalization.rows.isEmpty then []
  else
    let seedIds := order.arrange 0 (personalization.rows.map Prod.fst)
    let graph := buildWeightedSubgraph r filter seedIds
    if graph.adj.rows.isEmpty then
      truncate k ((order.arrange 1 personalization.rows).insertionSort (fun a b => b.2 ≤ a.2))
    else
      let initial := Tally.addAll Table.empty (order.arrange 2 personalization.rows)
      let scores := powerIterate params order personalization graph params.maxIterations initial
      truncate k
        ((order.arrange (5 * params.maxIterations + 3) scores.rows).insertionSort ranks)

def ppr (params : Params) (order : HashOrder) (r : Reader) (seeds : List NodeId) (k : Nat)
    (filter : EdgeFilter) : List (NodeId × ℚ) :=
  if seeds.isEmpty then []
  else
    let seedScore : ℚ := 1 / seeds.length
    pprInner params order r (Tally.addAll Table.empty (seeds.map (fun id => (id, seedScore)))) k
      filter

def pprWeighted (params : Params) (order : HashOrder) (r : Reader) (seeds : List (NodeId × ℚ))
    (k : Nat) (filter : EdgeFilter) : List (NodeId × ℚ) :=
  if seeds.isEmpty then []
  else
    let total := (seeds.map Prod.snd).sum
    if total ≤ 0 then ppr params order r (seeds.map Prod.fst) k filter
    else
      pprInner params order r
        (Tally.addAll Table.empty (seeds.map (fun s => (s.1, s.2 / total)))) k filter

end Travsr.Retrieval.Ppr
