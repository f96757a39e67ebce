import Travsr.Store.Schema

namespace Travsr.Store

open Travsr.Core Relational

/-- The node a row reads back as; `get_node` does not read the test role. -/
def NodeRow.toNode (r : NodeRow) : Node where
  id := r.id
  vname := r.vname
  kind := r.kind
  package := r.package
  line := r.line
  endLine := r.endLine
  testRole := .none

def EdgeRow.toEdge (e : EdgeRow) : Edge where
  src := e.src
  dst := e.dst
  kind := e.kind
  confidence := e.confidence
  provenance := some e.provenance

/-- A store behind a query engine that answers each edge query in one fixed row order. A batch
query interleaves its sources in an order of its own, each source's rows in theirs. -/
structure Reader where
  store : SqliteStore
  rowsFrom : NodeId → List EdgeRow
  rowsTo : NodeId → List EdgeRow
  rowsBatch : List NodeId → List EdgeRow
  from_perm : ∀ u, (rowsFrom u).Perm (store.edges.rows.filter (fun e => e.src = u))
  to_perm : ∀ v, (rowsTo v).Perm (store.edges.rows.filter (fun e => e.dst = v))
  batch_src : ∀ us, ∀ e ∈ rowsBatch us, e.src ∈ us
  batch_from : ∀ us, ∀ u ∈ us, (rowsBatch us).filter (fun e => e.src = u) = rowsFrom u

/-- The reader whose queries scan the edges table in the order it is kept. -/
def Reader.scan (s : SqliteStore) : Reader where
  store := s
  rowsFrom := fun u => s.edges.rows.filter (fun e => e.src = u)
  rowsTo := fun v => s.edges.rows.filter (fun e => e.dst = v)
  rowsBatch := fun us => s.edges.rows.filter (fun e => e.src ∈ us)
  from_perm := fun _ => .refl _
  to_perm := fun _ => .refl _
  batch_src := fun us e he => by simpa using (List.mem_filter.mp he).2
  batch_from := fun us u hu => by
    rw [List.filter_filter]
    apply List.filter_congr
    intro e _
    by_cases h : e.src = u
    · subst h
      simp [hu]
    · simp [h]

namespace Reader

def getNode (r : Reader) (id : NodeId) : Option Node :=
  (r.store.nodes.find? id).map NodeRow.toNode

/-- `get_nodes`: ids that are not stored are skipped. -/
def getNodes (r : Reader) (ids : List NodeId) : List Node := ids.filterMap r.getNode

def iterEdgesFrom (r : Reader) (src : NodeId) : List Edge := (r.rowsFrom src).map EdgeRow.toEdge

/-- `iter_edges_to` does not read the confidence. -/
def iterEdgesTo (r : Reader) (dst : NodeId) : List Edge :=
  (r.rowsTo dst).map fun e => { e.toEdge with confidence := none }

def iterEdgesFromBatch (r : Reader) (srcs : List NodeId) : List Edge :=
  (r.rowsBatch srcs).map EdgeRow.toEdge

theorem getNode_id {r : Reader} {id : NodeId} {n : Node} (h : r.getNode id = some n) :
    n.id = id := by
  obtain ⟨row, hrow, rfl⟩ := Option.map_eq_some_iff.mp h
  exact (Table.mem_of_find? hrow).2

theorem mem_iterEdgesFrom {r : Reader} {u : NodeId} {e : Edge} (h : e ∈ r.iterEdgesFrom u) :
    e.src = u ∧ ∃ row, row ∈ r.store.edges ∧ row.toEdge = e := by
  obtain ⟨row, hrow, rfl⟩ := List.mem_map.mp h
  have hm := (r.from_perm u).mem_iff.mp hrow
  rw [List.mem_filter, decide_eq_true_eq] at hm
  exact ⟨hm.2, row, hm.1, rfl⟩

theorem mem_iterEdgesTo {r : Reader} {v : NodeId} {e : Edge} (h : e ∈ r.iterEdgesTo v) :
    e.dst = v ∧ ∃ row, row ∈ r.store.edges ∧ row.src = e.src := by
  obtain ⟨row, hrow, rfl⟩ := List.mem_map.mp h
  have hm := (r.to_perm v).mem_iff.mp hrow
  rw [List.mem_filter, decide_eq_true_eq] at hm
  exact ⟨hm.2, row, hm.1, rfl⟩

end Reader

end Travsr.Store

namespace Travsr.Store

open Travsr.Core Relational

/-- `nodes_by_signatures`. -/
def nodesBySignatures (nodes : NodeTable) (sigs : List String) : List NodeRow :=
  nodes.rows.filter fun n => n.vname.signature ∈ sigs

/-- The leaf a caller could look a callable up by: a `method:` signature has one only when it is
qualified. -/
def callableLeaf (sig : String) : Option String :=
  match Text.stripPrefix "fn:" sig.toList with
  | some rest => some (String.ofList ((Text.afterLast ['.'] rest).getD rest))
  | none =>
    (Text.stripPrefix "method:" sig.toList).bind fun rest =>
      (Text.afterLast ['.'] rest).map String.ofList

/-- `fn_nodes_by_leaf_name`. -/
def fnNodesByLeafName (nodes : NodeTable) (names : List String) : List NodeRow :=
  nodes.rows.filter fun n =>
    n.kind ∈ ["function", "method", "fn"] ∧ (callableLeaf n.vname.signature).any (· ∈ names)

/-- `file_import_pairs` of every provenance: from the path of whatever depends on an import to the
path of the file the import resolves to. The import node itself is not joined. -/
def SqliteStore.fileImportPairs (s : SqliteStore) : List (String × String) :=
  (s.edges.rows.filter fun e1 => e1.kind = .depends).flatMap fun e1 =>
    ((s.edges.rows.filter fun e2 => e2.src = e1.dst ∧ e2.kind = .resolvesTo).filterMap fun e2 =>
      (s.nodes.find? e1.src).bind fun n1 =>
        ((s.nodes.find? e2.dst).filter fun n2 => n2.kind = "file").map fun n2 =>
          (n1.vname.path, n2.vname.path))

theorem SqliteStore.mem_fileImportPairs {s : SqliteStore} {pair : String × String} :
    pair ∈ s.fileImportPairs ↔ ∃ e1, e1 ∈ s.edges ∧ ∃ e2, e2 ∈ s.edges ∧
      e1.kind = .depends ∧ e2.src = e1.dst ∧ e2.kind = .resolvesTo ∧
      ∃ n1, n1 ∈ s.nodes ∧ n1.id = e1.src ∧ ∃ n2, n2 ∈ s.nodes ∧ n2.id = e2.dst ∧
        n2.kind = "file" ∧ pair = (n1.vname.path, n2.vname.path) := by
  simp only [fileImportPairs, List.mem_flatMap, List.mem_filterMap, List.mem_filter,
    decide_eq_true_eq, Option.bind_eq_some_iff, Option.map_eq_some_iff, Option.filter_eq_some_iff,
    Table.find?_eq_some]
  constructor
  · rintro ⟨e1, ⟨h1, hk1⟩, e2, ⟨h2, hs, hk2⟩, n1, ⟨hn1, hi1⟩, n2, ⟨⟨hn2, hi2⟩, hf⟩, rfl⟩
    exact ⟨e1, h1, e2, h2, hk1, hs, hk2, n1, hn1, hi1, n2, hn2, hi2, hf, rfl⟩
  · rintro ⟨e1, h1, e2, h2, hk1, hs, hk2, n1, hn1, hi1, n2, hn2, hi2, hf, rfl⟩
    exact ⟨e1, ⟨h1, hk1⟩, e2, ⟨h2, hs, hk2⟩, n1, ⟨hn1, hi1⟩, n2, ⟨⟨hn2, hi2⟩, hf⟩, rfl⟩

theorem mem_nodesBySignatures {nodes : NodeTable} {sigs : List String} {n : NodeRow} :
    n ∈ nodesBySignatures nodes sigs ↔ n ∈ nodes ∧ n.vname.signature ∈ sigs := by
  rw [nodesBySignatures, List.mem_filter, decide_eq_true_eq]
  rfl

end Travsr.Store
