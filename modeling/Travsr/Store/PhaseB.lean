import Mathlib.Data.List.Sort
import Travsr.Store.Lexical
import Travsr.Store.Rows

namespace Travsr.Store

open Travsr.Core Relational

/-- Inserts a Phase B node; one whose vname is held under another id is skipped, and so are its
index entries. -/
def phaseBNode (st : NodeTable × Lexical) (n : Node) : NodeTable × Lexical :=
  let row := { NodeRow.ofNode n none with testRole := .none }
  match st.1.upsert row (phaseBUpdate row) with
  | some nodes => (nodes, st.2.put n)
  | none => st

def phaseBNodes (s : SqliteStore) (nodes : List Node) : NodeTable × Lexical :=
  nodes.foldl phaseBNode (s.nodes, s.lex)

/-- The `ON CONFLICT` arm of a Phase B edge: a compiler's provenance is never demoted. -/
def phaseBEdgeUpdate (excluded old : EdgeRow) : EdgeRow :=
  { old with
    provenance :=
      if excluded.provenance ∈ ["lsif", "scip"] then excluded.provenance
      else if old.provenance ∈ ["lsif", "scip"] then old.provenance
      else excluded.provenance
    confidence := excluded.confidence }

theorem phaseBEdgeUpdate_key (excluded old : EdgeRow) :
    (phaseBEdgeUpdate excluded old).key = old.key := rfl

def putPhaseBEdge (provenance : String) (t : EdgeTable) (e : Edge) : EdgeTable :=
  let row : EdgeRow := ⟨e.src, e.dst, e.kind, provenance, e.confidence⟩
  t.upsert row (phaseBEdgeUpdate row) (phaseBEdgeUpdate_key row)

/-- The narrowest enclosing definition is looked up among these. -/
structure FnSpan where
  id : NodeId
  line : Nat
  endLine : Nat
  deriving DecidableEq, Repr

/-- The `i64` an id is stored as. -/
def toI64 (id : NodeId) : Int := if id < 2 ^ 63 then id else (id : Int) - 2 ^ 64

/-- `ORDER BY (end_line - line) ASC, id ASC`. -/
def FnSpan.Before (a b : FnSpan) : Prop :=
  (a.endLine : Int) - a.line < (b.endLine : Int) - b.line ∨
    ((a.endLine : Int) - a.line = (b.endLine : Int) - b.line ∧ toI64 a.id ≤ toI64 b.id)

instance : DecidableRel FnSpan.Before := fun _ _ => inferInstanceAs (Decidable (_ ∨ _ ∧ _))

def fileRows (nodes : NodeTable) (corpus path : String) : List NodeRow :=
  nodes.rows.filter fun r => r.vname.corpus = corpus ∧ r.vname.path = path

def fetchAllFnSpans (nodes : NodeTable) (corpus path : String) : List FnSpan :=
  (((fileRows nodes corpus path).filter (fun r => r.kind ∈ ["function", "method", "fn"])).filterMap
    fun r => r.line.bind fun line => r.endLine.map fun endLine => ⟨r.id, line, endLine⟩).insertionSort
      FnSpan.Before

def findNarrowestEnclosing (spans : List FnSpan) (line : Nat) : Option NodeId :=
  (spans.find? fun sp => sp.line ≤ line && line ≤ sp.endLine).map FnSpan.id

def fileLanguageIsKept (nodes : NodeTable) (corpus path : String) (keep : List String) : Bool :=
  (fileRows nodes corpus path).any fun r => r.vname.language ∈ keep

/-- The file node `file_node_for_attribution` makes up: the language is a sibling's. -/
def fileNodeRow (env : Env) (nodes : NodeTable) (corpus path : String) : NodeRow :=
  let language := ((fileRows nodes corpus path).head?.map fun r => r.vname.language).getD ""
  let vname : VName := ⟨corpus, "", path, language, "file"⟩
  ⟨env.vnameId vname, vname, "file", "", none, none, false, .none, none⟩

/-- `file_node_for_attribution`: the stored file node, or else the id of one it inserts with
`INSERT OR IGNORE`. -/
def fileNodeForAttribution (env : Env) (nodes : NodeTable) (corpus path : String) :
    NodeTable × NodeId :=
  match (fileRows nodes corpus path).find? (fun r => r.kind = "file") with
  | some r => (nodes, r.id)
  | none =>
    let row := fileNodeRow env nodes corpus path
    (nodes.insertIgnore row, row.id)

/-- The tables the attribution of references writes. -/
structure Attribution where
  nodes : NodeTable
  edges : EdgeTable
  sites : SiteTable

def retractOwned (corpus : String) (keep : List String) (st : Attribution) (path : String) :
    Attribution :=
  if fileLanguageIsKept st.nodes corpus path keep then st
  else
    let owned (x : NodeId) : Prop := x ∈ (fileRows st.nodes corpus path).map NodeRow.id
    { st with
      sites := st.sites.deleteWhere fun r => owned r.src
      edges := st.edges.deleteWhere fun e =>
        e.provenance = "scip" ∧ e.kind ∈ [EdgeKind.refCall, .refField] ∧ owned e.src }

def attributeCaller (env : Env) (corpus : String) (spans : String → List FnSpan)
    (nodes : NodeTable) (ref : ScipRef) : NodeTable × NodeId :=
  match findNarrowestEnclosing (spans ref.callerPath) ref.callerLine with
  | some id => (nodes, id)
  | none => fileNodeForAttribution env nodes corpus ref.callerPath

def putSite (t : SiteTable) (row : SiteRow) : SiteTable :=
  t.upsert row (fun r => { r with col := r.col <|> row.col }) (fun _ => rfl)

/-- One reference: self references and references to nothing stored are dropped, a reference to
a field is a field read, and only a call makes a call edge. -/
def attributeRef (env : Env) (corpus : String) (spans : String → List FnSpan)
    (st : Attribution) (ref : ScipRef) : Attribution :=
  let (nodes, caller) := attributeCaller env corpus spans st.nodes ref
  if caller = ref.calleeId then { st with nodes := nodes }
  else
    match nodes.find? ref.calleeId with
    | none => { st with nodes := nodes }
    | some callee =>
      let isField := callee.kind = "field"
      let kind : EdgeKind := if isField then .refField else .refCall
      { nodes := nodes
        edges :=
          if isField ∨ ref.isCall then
            st.edges.upsert ⟨caller, ref.calleeId, kind, "scip", none⟩
              (fun r => { r with provenance := "scip" }) (fun _ => rfl)
          else st.edges
        sites := putSite st.sites ⟨caller, ref.calleeId, kind, ref.callerLine, ref.callerCol⟩ }

theorem attributeRef_nodes {env : Env} {corpus : String} (spans : String → List FnSpan)
    (st : Attribution) (ref : ScipRef) :
    (attributeRef env corpus spans st ref).nodes =
      (attributeCaller env corpus spans st.nodes ref).1 := by
  unfold attributeRef
  dsimp only
  split_ifs
  · rfl
  · split <;> rfl

theorem retractOwned_nodes {corpus : String} (keep : List String) (st : Attribution)
    (path : String) :
    (retractOwned corpus keep st path).nodes = st.nodes := by
  unfold retractOwned
  split_ifs <;> rfl

theorem foldl_retractOwned_nodes {corpus : String} {keep paths : List String} {st : Attribution} :
    (paths.foldl (retractOwned corpus keep) st).nodes = st.nodes := by
  induction paths generalizing st with
  | nil => rfl
  | cons path paths ih =>
    rw [List.foldl_cons, ih, retractOwned_nodes]

namespace SqliteStore

variable (env : Env) (s : SqliteStore)

/-- The guard of `write_phase_b_batch`: an endpoint is a node of the batch or stored. -/
def endpointPresent (nodes : List Node) (x : NodeId) : Prop :=
  x ∈ nodes.map Node.id ∨ (phaseBNodes s nodes).1.Has x

instance (nodes : List Node) (x : NodeId) : Decidable (s.endpointPresent nodes x) :=
  inferInstanceAs (Decidable (_ ∨ _))

/-- `write_phase_b_batch`. -/
def writePhaseBBatch (nodes : List Node) (edges : List Edge) (provenance : String) :
    Except StoreError SqliteStore :=
  if nodes.isEmpty && edges.isEmpty then .ok s
  else
    let (table, lex) := phaseBNodes s nodes
    let written := edges.filter fun e => s.endpointPresent nodes e.src ∧ s.endpointPresent nodes e.dst
    if written.all (fun e => confidenceOk e.confidence) then
      .ok { s with
        nodes := table
        edges := written.foldl (putPhaseBEdge provenance) s.edges
        lex := lex }
    else .error (.database "write_phase_b_batch: insert edge")

def attributeRefs (corpus : String) (nodes : NodeTable) (refs : List ScipRef) (keep : List String) :
    Attribution :=
  let paths := (refs.map ScipRef.callerPath).dedup
  refs.foldl (attributeRef env corpus (fetchAllFnSpans nodes corpus))
    (paths.foldl (retractOwned corpus keep) ⟨nodes, s.edges, s.sites⟩)

/-- `write_scip_attributed_batch_keeping`. -/
def writeScipAttributedBatchKeeping (corpus : String) (nodes : List Node) (refs : List ScipRef)
    (keep : List String) : SqliteStore :=
  if nodes.isEmpty && refs.isEmpty then s
  else
    let (table, lex) := phaseBNodes s nodes
    let st := s.attributeRefs env corpus table refs keep
    { s with nodes := st.nodes, edges := st.edges, sites := st.sites, lex := lex }

/-- `write_scip_attributed_batch`. -/
def writeScipAttributedBatch (corpus : String) (nodes : List Node) (refs : List ScipRef) :
    SqliteStore :=
  s.writeScipAttributedBatchKeeping env corpus nodes refs []

end SqliteStore

end Travsr.Store
