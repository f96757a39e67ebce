import Travsr.Lib.Cells
import Travsr.Retrieval.Ppr

namespace Travsr.Retrieval.KCore

open Travsr.Core Store Relational Ppr

/-- A hash map; `insert` overwrites. -/
abbrev Map (α : Type) := Table (NodeId × α) (Prod.fst : NodeId × α → NodeId)

namespace Map

variable {α : Type}

def get (m : Map α) (id : NodeId) : Option α := (m.find? id).map Prod.snd

def insert (m : Map α) (id : NodeId) (x : α) : Map α :=
  Table.upsert m (id, x) (fun p => (p.1, x)) (fun _ => rfl)

end Map

/-! ### The graph -/

/-- `id_to_idx.get(id)`: the dense index of a stored node. -/
def idToIdx (nodeIds : List NodeId) (id : NodeId) : Option Nat := nodeIds.idxOf? id

/-- One edge enters the neighbour sets of its ends, unless it is a self-loop. -/
def link (nodeIds : List NodeId) (neighbours : Array (List Nat)) (e : EdgeRow) :
    Array (List Nat) :=
  match idToIdx nodeIds e.src, idToIdx nodeIds e.dst with
  | some si, some di =>
    if si ≠ di then (neighbours.modify si (List.insert di)).modify di (List.insert si)
    else neighbours
  | _, _ => neighbours

def neighbourSets (nodeIds : List NodeId) (allEdges : List EdgeRow) : Array (List Nat) :=
  allEdges.foldl (link nodeIds) (Array.replicate nodeIds.length [])

/-! ### Phase 1: bucket-sort peeling -/

/-- `bin[d] += 1`. -/
def countNode (bin : Array Nat) (d : Nat) : Option (Array Nat) := do
  let cnt ← bin[d]?
  Cells.write bin d (cnt + 1)

def startBins (bin : Array Nat) : Array Nat :=
  (bin.foldl (fun st cnt => (st.1.push st.2, st.2 + cnt)) ((#[] : Array Nat), 0)).1

structure Placed where
  pos : Array Nat
  order : Array Nat
  binCur : Array Nat

def place (degree : Array Nat) (st : Placed) (v : Nat) : Option Placed := do
  let d ← degree[v]?
  let p ← st.binCur[d]?
  let pos ← Cells.write st.pos v p
  let order ← Cells.write st.order p v
  let binCur ← Cells.write st.binCur d (p + 1)
  return ⟨pos, order, binCur⟩

/-- The arrays of the peeling loop. -/
structure Arrays where
  degree : Array Nat
  bin : Array Nat
  order : Array Nat
  pos : Array Nat

def bucketSort (degree : Array Nat) : Option Arrays := do
  let n := degree.size
  let maxDegree := degree.foldl max 0
  let counts ← degree.foldlM countNode (Array.replicate (maxDegree + 1) 0)
  let bin := startBins counts
  let placed ← (List.range n).foldlM (place degree)
    ⟨Array.replicate n 0, Array.replicate n 0, bin⟩
  return ⟨degree, bin, placed.order, placed.pos⟩

/-- `u` moves to the front of its bucket, which then starts behind it, and loses a degree. -/
def demote (st : Arrays) (u : Nat) : Option Arrays := do
  let du ← st.degree[u]?
  let pu ← st.pos[u]?
  let bs ← st.bin[du]?
  let w ← st.order[bs]?
  let order ← Cells.write st.order pu w
  let pos ← Cells.write st.pos w pu
  let order ← Cells.write order bs u
  let pos ← Cells.write pos u bs
  let bin ← Cells.write st.bin du (bs + 1)
  -- an underflow would panic
  if du = 0 then none
  else
    let degree ← Cells.write st.degree u (du - 1)
    return ⟨degree, bin, order, pos⟩

/-- One neighbour of the node at position `i`. -/
def visitNeighbour (i v : Nat) (st : Arrays) (u : Nat) : Option Arrays := do
  let pu ← st.pos[u]?
  if pu ≤ i then return st
  else
    let du ← st.degree[u]?
    let dv ← st.degree[v]?
    if dv < du then demote st u else return st

/-- The node at position `i` is removed. -/
def peelNode (iter : HashOrder) (neighbours : Array (List Nat)) (st : Arrays × Array Nat)
    (i : Nat) : Option (Arrays × Array Nat) := do
  let v ← st.1.order[i]?
  let dv ← st.1.degree[v]?
  let shell ← Cells.write st.2 v dv
  let around ← neighbours[v]?
  let left ← (iter.arrange v around).foldlM (visitNeighbour i v) st.1
  return (left, shell)

/-- The raw shell numbers, `none` if an index is out of range or a degree underflows. -/
def peel (iter : HashOrder) (neighbours : Array (List Nat)) : Option (Array Nat) := do
  let n := neighbours.size
  let sorted ← bucketSort (neighbours.map List.length)
  let peeled ← (List.range n).foldlM (peelNode iter neighbours) (sorted, Array.replicate n 0)
  return peeled.2

/-- `NodeId → raw shell number`. -/
def rawShells (iter : HashOrder) (s : SqliteStore) : Option (Map Nat) := do
  let nodeIds := s.nodes.rows.map NodeRow.id
  if nodeIds.isEmpty then return Table.empty
  else
    let shell ← peel iter (neighbourSets nodeIds s.edges.rows)
    return (nodeIds.zip shell.toList).foldl (fun m p => Map.insert m p.1 p.2) Table.empty

/-! ### Phase 2: propagation -/

structure Containment where
  fileToPkg : Map NodeId
  symbolToContainer : Map NodeId

def kindOf (s : SqliteStore) (id : NodeId) : Option String := (s.nodes.find? id).map NodeRow.kind

/-- The `defines/binding` edges from a file to its package, from a file to a symbol and from a
class to a method. -/
def noteContainment (s : SqliteStore) (maps : Containment) (e : EdgeRow) : Containment :=
  if e.kind = .definesBinding then
    let srcKind := (kindOf s e.src).getD ""
    let dstKind := (kindOf s e.dst).getD ""
    if srcKind = "file" ∧ dstKind = "go-pkg" then
      { maps with fileToPkg := maps.fileToPkg.insert e.src e.dst }
    else if srcKind = "file" ∧ dstKind ∈ ["function", "var", "class", "interface", "type"] then
      { maps with symbolToContainer := maps.symbolToContainer.insert e.dst e.src }
    else if srcKind = "class" ∧ dstKind = "method" then
      { maps with symbolToContainer := maps.symbolToContainer.insert e.dst e.src }
    else maps
  else maps

def containment (s : SqliteStore) : Containment :=
  s.edges.rows.foldl (noteContainment s) ⟨Table.empty, Table.empty⟩

def pkgOf (s : SqliteStore) (maps : Containment) (symId containerId : NodeId) : Option NodeId :=
  if kindOf s symId = some "method" then
    (if kindOf s containerId = some "class" then maps.symbolToContainer.get containerId
      else none).bind maps.fileToPkg.get
  else maps.fileToPkg.get containerId

def raise (shells : Map Nat) (id : NodeId) (pkgShell : Nat) : Map Nat :=
  Table.upsert shells (id, max 0 pkgShell) (fun p => (p.1, max p.2 pkgShell)) (fun _ => rfl)

def propagate (s : SqliteStore) (maps : Containment) (shells : Map Nat) (p : NodeId × NodeId) :
    Map Nat :=
  match pkgOf s maps p.1 p.2 with
  | some pkgId => raise shells p.1 ((shells.get pkgId).getD 0)
  | none => shells

def computeKcore (iter : HashOrder) (s : SqliteStore) : Option (Map Nat) := do
  let shells ← rawShells iter s
  let maps := containment s
  return (iter.arrange s.nodes.rows.length maps.symbolToContainer.rows).foldl (propagate s maps)
    shells

end Travsr.Retrieval.KCore
