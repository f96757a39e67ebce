import Mathlib.Data.String.Basic
import Travsr.Lib.OrdMap
import Travsr.Store.LiveOverlay
import Travsr.Store.Unification

namespace Travsr.Store

open Travsr.Core Relational

/-- The state of a reference, as the column names it. -/
inductive RefState where
  | pending
  | resolved
  deriving DecidableEq, Repr

/-- A row of `ref_resolution_state`: one reference the live lane examined, and what became of
it. -/
structure RefResolution where
  src : NodeId
  refLine : Nat
  refCol : Nat
  name : String
  state : RefState
  resolvedDst : Option NodeId
  deriving DecidableEq, Repr

def RefResolution.key (r : RefResolution) : NodeId × Nat × Nat × String :=
  (r.src, r.refLine, r.refCol, r.name)

abbrev RefTable := Table RefResolution RefResolution.key

/-- `ON CONFLICT(src, ref_line, ref_col, name) DO UPDATE`. -/
def RefResolution.takeOver (r o : RefResolution) : RefResolution :=
  { o with state := r.state, resolvedDst := r.resolvedDst }

theorem RefResolution.takeOver_key (r o : RefResolution) : (r.takeOver o).key = o.key := rfl

def putRef (t : RefTable) (r : RefResolution) : RefTable := t.upsert r r.takeOver r.takeOver_key

theorem find?_putRef (t : RefTable) (r : RefResolution) (k : NodeId × Nat × Nat × String) :
    (putRef t r).find? k = if r.key = k then some r else t.find? k := by
  rw [putRef, Table.find?_upsert]
  split_ifs with hk
  · cases ho : t.find? k with
    | none => rfl
    | some o =>
      have hkey : o.key = r.key := (Table.mem_of_find? ho).2.trans hk.symm
      simp only [RefResolution.key, Prod.mk.injEq] at hkey
      simp [RefResolution.takeOver, hkey]
  · rfl

theorem find?_foldl_putRef (rows : List RefResolution) (t : RefTable)
    (k : NodeId × Nat × Nat × String) :
    (rows.foldl putRef t).find? k =
      ((rows.filter fun r => r.key = k).getLast?).or (t.find? k) := by
  induction rows generalizing t with
  | nil => rfl
  | cons r rows ih =>
    rw [List.foldl_cons, ih, find?_putRef]
    by_cases hk : r.key = k
    · rw [if_pos hk, List.filter_cons_of_pos (by simpa using hk), List.getLast?_cons]
      cases (rows.filter fun r => r.key = k).getLast? <;> rfl
    · rw [if_neg hk, List.filter_cons_of_neg (by simpa using hk)]

/-- A row of `meta`. -/
structure MetaRow where
  name : String
  value : String
  deriving DecidableEq, Repr

abbrev MetaTable := Table MetaRow MetaRow.name

/-- The store with the two tables the live lane keeps beside the graph. -/
structure LiveStore extends SqliteStore where
  refs : RefTable
  metadata : MetaTable

def ENCLOSING_DEFINITION_KINDS : List String :=
  ["function", "method", "fn", "class", "interface", "struct", "trait", "enum", "type", "typedef",
    "union", "object", "protocol", "mixin", "extension", "namespace", "init"]

def LIVE_DECL_HEADER_LINES : Nat := 64

def spansOfKinds (nodes : NodeTable) (corpus path : String) (kinds : List String) : List FnSpan :=
  ((fileRows nodes corpus path).filter fun r => r.kind ∈ kinds).filterMap fun r =>
    r.line.bind fun line => r.endLine.map fun endLine => ⟨r.id, line, endLine⟩

/-- `enclosing_node_at`: the tightest node around a line. -/
def enclosingNodeAt (nodes : NodeTable) (corpus path : String) (line : Nat) (kinds : List String) :
    Option NodeId :=
  findNarrowestEnclosing ((spansOfKinds nodes corpus path kinds).insertionSort FnSpan.Before) line

/-- `enclosing_definition_at`. -/
def enclosingDefinitionAt (nodes : NodeTable) (corpus path : String) (line : Nat) :
    Option NodeId :=
  enclosingNodeAt nodes corpus path line ENCLOSING_DEFINITION_KINDS

/-- `file_node_at`. -/
def fileNodeAt (nodes : NodeTable) (corpus path : String) : Option NodeId :=
  ((fileRows nodes corpus path).find? fun r => r.kind = "file").map NodeRow.id

/-- `ORDER BY line ASC, (end_line - line) ASC, id ASC`. -/
def FnSpan.Heads (a b : FnSpan) : Prop := a.line < b.line ∨ (a.line = b.line ∧ a.Before b)

instance : DecidableRel FnSpan.Heads := fun _ _ => inferInstanceAs (Decidable (_ ∨ _ ∧ _))

/-- `node_starting_at_or_below`: the nearest node that begins on the line or little below it. -/
def nodeStartingAtOrBelow (nodes : NodeTable) (corpus path : String) (line : Nat)
    (kinds : List String) : Option NodeId :=
  (((spansOfKinds nodes corpus path kinds).filter fun sp =>
      line ≤ sp.line && sp.line ≤ line + LIVE_DECL_HEADER_LINES).insertionSort
        FnSpan.Heads).head?.map FnSpan.id

/-- The condition of `SITE_FOR_REF` on the target: what follows the colon of its signature, or what
follows a dot at the end of it, is the name. -/
def signatureNames (signature name : String) : Bool :=
  (Text.afterFirst [':'] signature.toList).getD signature.toList = name.toList ||
    ('.' :: name.toList).isSuffixOf signature.toList

/-- What a live pass scored in one language. -/
structure LivePrecision where
  agree : Nat
  disagree : Nat
  unverifiable : Nat
  deriving DecidableEq, Repr

def LivePrecision.zero : LivePrecision := ⟨0, 0, 0⟩

def LivePrecision.claims (p : LivePrecision) : Nat := p.agree + p.disagree + p.unverifiable

namespace SqliteStore

def languageOf (s : SqliteStore) (x : NodeId) : Option String :=
  (s.nodes.find? x).map fun r => r.vname.language

/-- `EXISTS (SITE_FOR_REF)`. -/
def HasSiteFor (s : SqliteStore) (r : RefResolution) : Prop :=
  ∃ site ∈ s.sites.rows, site.src = r.src ∧ site.line = r.refLine ∧
    ∃ d ∈ s.nodes.find? site.dst, signatureNames d.vname.signature r.name

instance (s : SqliteStore) (r : RefResolution) : Decidable (s.HasSiteFor r) :=
  inferInstanceAs (Decidable (∃ site ∈ s.sites.rows, _))

/-- There are a site of the claim's target on its line and an edge to that target. -/
def Matches (s : SqliteStore) (r : RefResolution) : Prop :=
  (∃ site ∈ s.sites.rows, site.src = r.src ∧ site.line = r.refLine ∧
      some site.dst = r.resolvedDst) ∧
    ∃ e ∈ s.edges.rows, e.src = r.src ∧ some e.dst = r.resolvedDst

instance (s : SqliteStore) (r : RefResolution) : Decidable (s.Matches r) :=
  inferInstanceAs (Decidable (_ ∧ _))

/-- `record_field_sites`. -/
def recordFieldSites (s : SqliteStore) (sites : List (NodeId × NodeId × Nat × Option Nat)) :
    SqliteStore :=
  let known := sites.filter fun r => r.2.2.1 ≠ 0 ∧ r.1 ≠ r.2.1
  { s with
    sites := known.foldl (fun t r => putSite t ⟨r.1, r.2.1, .refField, r.2.2.1, r.2.2.2⟩) s.sites }

end SqliteStore

/-- The row claims a target. -/
def RefResolution.IsClaim (r : RefResolution) : Prop := r.state = .resolved ∧ r.resolvedDst.isSome

instance : DecidablePred RefResolution.IsClaim := fun _ => inferInstanceAs (Decidable (_ ∧ _))

/-- The bucket a claim is scored in. -/
inductive Verdict where
  | agree
  | disagree
  | unverifiable
  deriving DecidableEq, Repr

def LivePrecision.count (p : LivePrecision) : Verdict → LivePrecision
  | .agree => { p with agree := p.agree + 1 }
  | .disagree => { p with disagree := p.disagree + 1 }
  | .unverifiable => { p with unverifiable := p.unverifiable + 1 }

def LivePrecision.bucket (p : LivePrecision) : Verdict → Nat
  | .agree => p.agree
  | .disagree => p.disagree
  | .unverifiable => p.unverifiable

theorem LivePrecision.bucket_count (p : LivePrecision) (w v : Verdict) :
    (p.count w).bucket v = p.bucket v + if w = v then 1 else 0 := by
  cases w <;> cases v <;> rfl

@[simp] theorem LivePrecision.bucket_zero (v : Verdict) : LivePrecision.zero.bucket v = 0 := by
  cases v <;> rfl

namespace LiveStore

variable (s : LiveStore)

/-- `upsert_ref_resolution_states`. -/
def upsertRefResolutionStates (rows : List RefResolution) : LiveStore :=
  { s with refs := rows.foldl putRef s.refs }

/-- `replace_ref_resolution_states`. -/
def replaceRefResolutionStates (corpus path : String) (rows : List RefResolution) : LiveStore :=
  { s with
    refs := rows.foldl putRef (s.refs.deleteWhere fun r => r.src ∈ s.idsAt corpus path) }

/-- How `live_precision_sample_by_language` scores one claim. -/
def verdict (r : RefResolution) : Verdict :=
  if s.HasSiteFor r then if s.Matches r then .agree else .disagree else .unverifiable

def claims : List (String × RefResolution) :=
  (s.refs.rows.filter fun r => r.IsClaim).filterMap fun r =>
    (s.languageOf r.src).map fun language => (language, r)

/-- `live_precision_sample_by_language`. -/
def livePrecisionSampleByLanguage : OrdMap String LivePrecision :=
  s.claims.foldl (fun out c =>
    out.insert c.1 (((out.get? c.1).getD .zero).count (s.verdict c.2))) .empty

def tally (language : String) (v : Verdict) : Nat :=
  s.claims.countP fun c => c.1 = language && s.verdict c.2 = v

/-- The sample holds one bucket for each language with claims, and the bucket their number. -/
theorem sample_bucket (language : String) (v : Verdict) :
    ((s.livePrecisionSampleByLanguage.get? language).getD .zero).bucket v = s.tally language v := by
  have hrun : ∀ (cs : List (String × RefResolution)) (out : OrdMap String LivePrecision),
      (((cs.foldl (fun out c =>
          out.insert c.1 (((out.get? c.1).getD .zero).count (s.verdict c.2))) out).get?
            language).getD .zero).bucket v =
        ((out.get? language).getD .zero).bucket v +
          cs.countP fun c => c.1 = language && s.verdict c.2 = v := by
    intro cs
    induction cs with
    | nil => exact fun _ => rfl
    | cons c cs ih =>
      intro out
      rw [List.foldl_cons, ih, OrdMap.get?_insert, List.countP_cons]
      by_cases hc : language = c.1
      · rw [if_pos hc, Option.getD_some, LivePrecision.bucket_count, hc]
        simp only [decide_true, Bool.true_and, decide_eq_true_eq]
        omega
      · rw [if_neg hc]
        simp [Ne.symm hc]
  have hempty : ((OrdMap.empty : OrdMap String LivePrecision).get? language).getD .zero = .zero :=
    rfl
  rw [livePrecisionSampleByLanguage, hrun, hempty, LivePrecision.bucket_zero, Nat.zero_add, tally]

/-- `consume_measured_ref_resolutions`. -/
def consumeMeasuredRefResolutions (languages : List String) : LiveStore :=
  if languages.isEmpty then s
  else
    { s with
      refs := s.refs.deleteWhere fun r =>
        r.IsClaim ∧ r.src ∈ s.idsWhere fun n => n.vname.language ∈ languages }

/-- `reconcile_ref_resolution_states`: pending rows with a site for their reference go, and the rows
of sources that are no longer stored. -/
def reconcileRefResolutionStates : LiveStore :=
  { s with
    refs := (s.refs.deleteWhere fun r => r.state = .pending ∧ s.HasSiteFor r).deleteWhere fun r =>
      ¬ s.Stored r.src }

def getMeta (name : String) : Option String := (s.metadata.find? name).map MetaRow.value

def setMeta (name value : String) : LiveStore :=
  { s with
    metadata := s.metadata.upsert ⟨name, value⟩ (fun r => { r with value := value })
      (fun _ => rfl) }

end LiveStore

end Travsr.Store
