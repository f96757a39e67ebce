import Mathlib.Data.Finset.SDiff
import Travsr.Store.Schema

namespace Travsr.Store

open Travsr.Core Relational

def NodeRow.ofNode (n : Node) (bodyHash : Option String) : NodeRow where
  id := n.id
  vname := n.vname
  kind := n.kind
  package := n.package
  line := n.line
  endLine := n.endLine
  isNoise := Noise.isStructuralNoise n
  testRole := n.testRole
  bodyHash := bodyHash

abbrev NodeUpdate := IndexedTable.Update NodeRow.id NodeRow.vname

/-- `ON CONFLICT(id) DO UPDATE` of the Phase B writers: a node of theirs carries no test role. -/
def phaseBUpdate (excluded : NodeRow) : NodeUpdate where
  apply r := { r with
    kind := excluded.kind
    package := excluded.package
    line := excluded.line <|> r.line
    endLine := excluded.endLine <|> r.endLine
    isNoise := excluded.isNoise }
  key_apply _ := rfl
  index_apply _ := rfl

/-- `put_node` sets the test role as well. -/
def putUpdate (excluded : NodeRow) : NodeUpdate where
  apply r := { (phaseBUpdate excluded).apply r with testRole := excluded.testRole }
  key_apply _ := rfl
  index_apply _ := rfl

def parseUpdate (excluded : NodeRow) : NodeUpdate where
  apply r := { (putUpdate excluded).apply r with bodyHash := excluded.bodyHash }
  key_apply _ := rfl
  index_apply _ := rfl

/-- Inserts the nodes of a parse one by one; a vname held under another id fails the statement. -/
def insertNodes (context : String) (hashes : NodeId → Option String) (t : NodeTable)
    (nodes : List Node) : Except StoreError NodeTable :=
  match t.upsertAll parseUpdate (nodes.map fun n => NodeRow.ofNode n (hashes n.id)) with
  | some u => .ok u
  | none => .error (.database context)

def EdgeRow.ofParse (e : Edge) : EdgeRow := ⟨e.src, e.dst, e.kind, "tree-sitter", e.confidence⟩

def confidenceOk (confidence : Option Nat) : Bool := confidence.all (· ≤ 100)

/-- Inserts the edges of a parse; `DO NOTHING` leaves a row that is there as it is. -/
def insertEdges (context : String) (t : EdgeTable) (edges : List Edge) :
    Except StoreError EdgeTable :=
  if edges.all (fun e => confidenceOk e.confidence) then .ok (t.insertAll (edges.map EdgeRow.ofParse))
  else .error (.database context)

theorem find?_insertNodes {context : String} {hashes : NodeId → Option String} {t u : NodeTable}
    {nodes : List Node} (h : insertNodes context hashes t nodes = .ok u) (k : NodeId) :
    u.find? k = IndexedTable.evolve parseUpdate (t.find? k)
      ((nodes.filter (fun n => n.id = k)).map fun n => NodeRow.ofNode n (hashes n.id)) := by
  unfold insertNodes at h
  cases hu : t.upsertAll parseUpdate (nodes.map fun n => NodeRow.ofNode n (hashes n.id)) with
  | none =>
    rw [hu] at h
    cases h
  | some u' =>
    rw [hu] at h
    obtain rfl := Except.ok.inj h
    rw [IndexedTable.find?_of_upsertAll hu, List.filter_map]
    rfl

theorem has_insertNodes {context : String} {hashes : NodeId → Option String} {t u : NodeTable}
    {nodes : List Node} (h : insertNodes context hashes t nodes = .ok u) (k : NodeId) :
    u.Has k ↔ t.Has k ∨ ∃ n ∈ nodes, n.id = k := by
  rw [← not_iff_not, ← Table.find?_eq_none, find?_insertNodes h, IndexedTable.evolve_eq_none,
    Table.find?_eq_none, List.map_eq_nil_iff, List.filter_eq_nil_iff, not_or]
  simp

theorem mem_insertNodes {context : String} {hashes : NodeId → Option String} {t u : NodeTable}
    {nodes : List Node} (h : insertNodes context hashes t nodes = .ok u) {r : NodeRow}
    (hr : r ∈ u) :
    (∃ o, o ∈ t ∧ o.id = r.id ∧ o.vname = r.vname) ∨
      ∃ n ∈ nodes, n.id = r.id ∧ n.vname = r.vname := by
  have hf : u.find? r.id = some r := Table.find?_of_mem (t := u.toTable) hr
  rw [find?_insertNodes h] at hf
  obtain ⟨o, ho, hk, hv⟩ := IndexedTable.evolve_eq_some hf
  have hm := List.mem_of_head? ho
  rw [List.mem_append] at hm
  rcases hm with hm | hm
  · left
    exact ⟨o, (Table.mem_of_find? (Option.mem_toList.mp hm)).1, hk.symm, hv.symm⟩
  · right
    obtain ⟨n, hn, rfl⟩ := List.mem_map.mp hm
    exact ⟨n, (List.mem_filter.mp hn).1, hk.symm, hv.symm⟩

theorem insertNodes_isOk {context : String} {hashes : NodeId → Option String} {t : NodeTable}
    {nodes : List Node} (ht : ∀ r, r ∈ t → ∀ n ∈ nodes, r.id = n.id → r.vname = n.vname)
    (hn : ∀ n ∈ nodes, ∀ m ∈ nodes, n.id = m.id → n.vname = m.vname) :
    (∃ u, insertNodes context hashes t nodes = .ok u) ↔
      (∀ r, r ∈ t → ∀ n ∈ nodes, r.vname = n.vname → r.id = n.id) ∧
        ∀ n ∈ nodes, ∀ m ∈ nodes, n.vname = m.vname → n.id = m.id := by
  have hok : (∃ u, insertNodes context hashes t nodes = .ok u) ↔
      (t.upsertAll parseUpdate (nodes.map fun n => NodeRow.ofNode n (hashes n.id))).isSome := by
    rw [insertNodes]
    cases t.upsertAll parseUpdate (nodes.map fun n => NodeRow.ofNode n (hashes n.id)) <;> simp
  have hiff := IndexedTable.upsertAll_isSome_iff parseUpdate
    (nodes.map fun n => NodeRow.ofNode n (hashes n.id)) t
  simp only [List.forall_mem_map] at hiff
  exact hok.trans (hiff ht hn)

theorem parseUpdate_self (row : NodeRow) : (parseUpdate row).apply row = row := by
  cases row
  simp [parseUpdate, putUpdate, phaseBUpdate]

/-- What the rows of one node make of a stored row: the last one gives its data, the last line
that is known its line. -/
def NodeRow.overwrite (rows : List NodeRow) (r : NodeRow) : NodeRow :=
  rows.foldl (fun r row => (parseUpdate row).apply r) r

theorem evolve_some_eq_overwrite (rows : List NodeRow) (r : NodeRow) :
    IndexedTable.evolve parseUpdate (some r) rows = some (r.overwrite rows) := by
  induction rows generalizing r with
  | nil => rfl
  | cons row rows ih => exact ih _

theorem overwrite_concat (rows : List NodeRow) (row r : NodeRow) :
    r.overwrite (rows ++ [row]) = (parseUpdate row).apply (r.overwrite rows) := by
  rw [NodeRow.overwrite, List.foldl_append]
  rfl

def lastKnown {α : Type} (values : List (Option α)) (old : Option α) : Option α :=
  values.foldl (fun o v => v <|> o) old

theorem lastKnown_mem {α : Type} (values : List (Option α)) :
    lastKnown values none = none ∨ lastKnown values none ∈ values := by
  induction values using List.reverseRecOn with
  | nil => exact .inl rfl
  | append_singleton values v ih =>
    have hstep : lastKnown (values ++ [v]) none = (v <|> lastKnown values none) := by
      rw [lastKnown, List.foldl_append]
      rfl
    rw [hstep]
    cases v with
    | none => exact ih.imp_right fun h => List.mem_append_left _ h
    | some a => exact .inr (List.mem_append_right _ List.mem_cons_self)

theorem lastKnown_idem {α : Type} (values : List (Option α)) (old : Option α) :
    lastKnown values (lastKnown values old) = lastKnown values old := by
  have hsplit : ∀ o : Option α, lastKnown values o = (lastKnown values none).or o := by
    induction values with
    | nil => exact fun _ => rfl
    | cons v values ih =>
      intro o
      have hcons : ∀ o, lastKnown (v :: values) o = lastKnown values (v.or o) := by
        intro o
        cases v <;> rfl
      rw [hcons, hcons, ih, ih (v.or none), Option.or_none, Option.or_assoc]
  rw [hsplit, hsplit old, ← Option.or_assoc, Option.or_self]

theorem overwrite_line (rows : List NodeRow) (r : NodeRow) :
    (r.overwrite rows).line = lastKnown (rows.map NodeRow.line) r.line ∧
      (r.overwrite rows).endLine = lastKnown (rows.map NodeRow.endLine) r.endLine := by
  induction rows generalizing r with
  | nil => exact ⟨rfl, rfl⟩
  | cons row rows ih => exact ih _

theorem overwrite_keys (rows : List NodeRow) (r : NodeRow) :
    (r.overwrite rows).id = r.id ∧ (r.overwrite rows).vname = r.vname := by
  induction rows generalizing r with
  | nil => exact ⟨rfl, rfl⟩
  | cons row rows ih => exact ih _

theorem overwrite_concat_eq (rows : List NodeRow) (row r : NodeRow) :
    r.overwrite (rows ++ [row]) =
      { row with
        id := r.id
        vname := r.vname
        line := lastKnown ((rows ++ [row]).map NodeRow.line) r.line
        endLine := lastKnown ((rows ++ [row]).map NodeRow.endLine) r.endLine } := by
  obtain ⟨hid, hv⟩ := overwrite_keys (rows ++ [row]) r
  obtain ⟨hl, he⟩ := overwrite_line (rows ++ [row]) r
  rw [← hid, ← hv, ← hl, ← he, overwrite_concat]
  rfl

theorem overwrite_idem (rows : List NodeRow) (r : NodeRow) :
    (r.overwrite rows).overwrite rows = r.overwrite rows := by
  rcases List.eq_nil_or_concat rows with hnil | ⟨init, row, hrows⟩
  · rw [hnil]
    rfl
  · rw [hrows, List.concat_eq_append, overwrite_concat_eq, overwrite_concat_eq]
    simp only [lastKnown_idem]

theorem evolve_none_cons (row : NodeRow) (rows : List NodeRow) :
    IndexedTable.evolve parseUpdate none (row :: rows) = some (row.overwrite (row :: rows)) := by
  rw [← evolve_some_eq_overwrite]
  change IndexedTable.evolve parseUpdate (some row) rows =
    IndexedTable.evolve parseUpdate (some ((parseUpdate row).apply row)) rows
  rw [parseUpdate_self]

theorem line_of_evolve_none {rows : List NodeRow} {r : NodeRow}
    (h : IndexedTable.evolve parseUpdate none rows = some r) :
    r.line = lastKnown (rows.map NodeRow.line) none := by
  cases rows with
  | nil => cases h
  | cons row rows =>
    have hr : IndexedTable.evolve parseUpdate (some row) rows = some r := h
    rw [evolve_some_eq_overwrite] at hr
    obtain rfl := Option.some.inj hr
    rw [(overwrite_line rows row).1, List.map_cons, lastKnown, lastKnown, List.foldl_cons]
    congr 1
    cases row.line <;> rfl

theorem insertEdges_ok {context : String} {t u : EdgeTable} {edges : List Edge}
    (h : insertEdges context t edges = .ok u) : u = t.insertAll (edges.map EdgeRow.ofParse) := by
  unfold insertEdges at h
  split_ifs at h
  exact (Except.ok.inj h).symm

theorem insertEdges_isOk {context : String} {t : EdgeTable} {edges : List Edge} :
    (∃ u, insertEdges context t edges = .ok u) ↔ ∀ e ∈ edges, confidenceOk e.confidence := by
  rw [← List.all_eq_true, insertEdges]
  split_ifs with h <;> simp [h]

theorem exists_ok {ε α : Type} {x : Except ε α} (h : x.isOk) : ∃ a, x = .ok a := by
  cases x with
  | ok a => exact ⟨a, rfl⟩
  | error e => cases h

theorem exists_ok_and {ε α : Type} {x : Except ε α} {p : α → Prop} [DecidablePred p]
    (h : x.toOption.any (fun a => p a)) : ∃ a, x = .ok a ∧ p a := by
  cases x with
  | ok a => exact ⟨a, rfl, of_decide_eq_true h⟩
  | error e => cases h

namespace SqliteStore

def idsWhere (s : SqliteStore) (p : NodeRow → Prop) [DecidablePred p] : Finset NodeId :=
  ((s.nodes.rows.filter (fun r => p r)).map NodeRow.id).toFinset

theorem mem_idsWhere {s : SqliteStore} {p : NodeRow → Prop} [DecidablePred p] {x : NodeId} :
    x ∈ s.idsWhere p ↔ ∃ r, r ∈ s.nodes ∧ r.id = x ∧ p r := by
  rw [idsWhere, List.mem_toFinset, List.mem_map]
  constructor
  · intro ⟨r, hr, hx⟩
    rw [List.mem_filter, decide_eq_true_eq] at hr
    exact ⟨r, hr.1, hx, hr.2⟩
  · intro ⟨r, hr, hx, hp⟩
    exact ⟨r, List.mem_filter.mpr ⟨hr, by simpa using hp⟩, hx⟩

theorem mem_idsWhere_iff {s : SqliteStore} {p : NodeRow → Prop} [DecidablePred p] {r : NodeRow}
    (hr : r ∈ s.nodes) : r.id ∈ s.idsWhere p ↔ p r := by
  rw [mem_idsWhere]
  constructor
  · intro ⟨o, ho, hid, hp⟩
    exact IndexedTable.eq_of_key ho hr hid ▸ hp
  · intro hp
    exact ⟨r, hr, rfl, hp⟩

theorem has_deleteWhere {s : SqliteStore} {p : NodeRow → Prop} [DecidablePred p] {x : NodeId} :
    (s.nodes.deleteWhere p).Has x ↔ s.Stored x ∧ x ∉ s.idsWhere p := by
  constructor
  · intro ⟨r, hr, hx⟩
    obtain ⟨hr, hp⟩ := IndexedTable.mem_deleteWhere.mp hr
    subst hx
    exact ⟨⟨r, hr, rfl⟩, mt (mem_idsWhere_iff hr).mp hp⟩
  · intro ⟨⟨r, hr, hx⟩, hn⟩
    subst hx
    exact ⟨r, IndexedTable.mem_deleteWhere.mpr ⟨hr, mt (mem_idsWhere_iff hr).mpr hn⟩, rfl⟩

def rowsAt (s : SqliteStore) (corpus path : String) : List NodeRow :=
  s.nodes.rows.filter fun r => r.vname.corpus = corpus ∧ r.vname.path = path

/-- `SELECT id FROM nodes WHERE corpus=?1 AND path=?2`. -/
def idsAt (s : SqliteStore) (corpus path : String) : Finset NodeId :=
  s.idsWhere fun r => r.vname.corpus = corpus ∧ r.vname.path = path

theorem mem_rowsAt {s : SqliteStore} {corpus path : String} {r : NodeRow} :
    r ∈ s.rowsAt corpus path ↔ r ∈ s.nodes ∧ r.vname.corpus = corpus ∧ r.vname.path = path := by
  rw [rowsAt, List.mem_filter, decide_eq_true_eq]
  rfl

theorem mem_idsAt {s : SqliteStore} {corpus path : String} {x : NodeId} :
    x ∈ s.idsAt corpus path ↔
      ∃ r, r ∈ s.nodes ∧ r.id = x ∧ r.vname.corpus = corpus ∧ r.vname.path = path :=
  mem_idsWhere

/-- Ids are hashes of vnames: no two vnames among the rows of the store and the nodes handed to
it share one. -/
structure Addressed (s : SqliteStore) (nodes : List Node) : Prop where
  row : ∀ r, r ∈ s.nodes → ∀ n ∈ nodes, r.id = n.id → r.vname = n.vname
  node : ∀ n ∈ nodes, ∀ m ∈ nodes, n.id = m.id → n.vname = m.vname

theorem Addressed.subset {s : SqliteStore} {nodes nodes' : List Node} (h : s.Addressed nodes)
    (hs : nodes' ⊆ nodes) : s.Addressed nodes' :=
  ⟨fun r hr n hn => h.row r hr n (hs hn), fun n hn m hm => h.node n (hs hn) m (hs hm)⟩

/-- `INSERT INTO files … ON CONFLICT(path) DO UPDATE`. -/
def putFile (files : Table FileRow FileRow.path) (path hash : String) : Table FileRow FileRow.path :=
  files.upsert ⟨path, hash⟩ (fun r => { r with sha256 := hash }) (fun _ => rfl)

end SqliteStore

/-- Ids by the length of path and signature: enough to tell a handful of nodes apart. -/
def lengthEnv : Env where
  vnameId v := v.path.length + v.signature.length
  sha256 := id
  isAlphanumeric := Char.isAlphanum

/-- A node of the repository `repo` as a parser makes it. -/
def parsed (path language signature kind : String) : Node :=
  Node.new lengthEnv ⟨"repo", "", path, language, signature⟩ kind

end Travsr.Store
