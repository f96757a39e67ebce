import Travsr.Store.PhaseBOrphans
import Travsr.Store.RefResolution

namespace Travsr.Store

open Travsr.Core Relational

variable {nodes : List Node} {st : NodeTable × Lexical} {x : NodeId} {v : VName}

def phaseBRow (n : Node) : NodeRow := { NodeRow.ofNode n none with testRole := .none }

theorem phaseBNode_eq (st : NodeTable × Lexical) (n : Node) :
    (phaseBNode st n).1 = st.1.upsertSkip (phaseBRow n) (phaseBUpdate (phaseBRow n)) :=
  phaseBNode_nodes st n

theorem hasIndex_foldl_phaseBNode (h : st.1.HasIndex v) :
    (nodes.foldl phaseBNode st).1.HasIndex v := by
  induction nodes generalizing st with
  | nil => exact h
  | cons n nodes ih =>
    apply ih
    rw [phaseBNode_eq]
    exact IndexedTable.hasIndex_upsertSkip.mpr (.inl h)

theorem has_foldl_phaseBNode_mono (h : st.1.Has x) : (nodes.foldl phaseBNode st).1.Has x := by
  induction nodes generalizing st with
  | nil => exact h
  | cons n nodes ih => exact ih (has_phaseBNode.mpr (.inl h))

theorem not_has_foldl_phaseBNode (hx : ¬ st.1.Has x) (hv : st.1.HasIndex v)
    (hn : ∀ n ∈ nodes, n.id = x → n.vname = v) : ¬ (nodes.foldl phaseBNode st).1.Has x := by
  induction nodes generalizing st with
  | nil => exact hx
  | cons n nodes ih =>
    refine ih ?_ ?_ fun m hm => hn m (List.mem_cons_of_mem _ hm)
    · rw [has_phaseBNode, not_or, not_and, not_not]
      refine ⟨hx, ?_⟩
      intro hid
      rw [hn n List.mem_cons_self hid]
      exact hv
    · rw [phaseBNode_eq]
      exact IndexedTable.hasIndex_upsertSkip.mpr (.inl hv)

theorem has_or_hasIndex_foldl_phaseBNode {n : Node} (hn : n ∈ nodes) :
    (nodes.foldl phaseBNode st).1.Has n.id ∨ (nodes.foldl phaseBNode st).1.HasIndex n.vname := by
  induction nodes generalizing st with
  | nil => cases hn
  | cons m nodes ih =>
    rcases List.mem_cons.mp hn with heq | hn
    · subst heq
      by_cases hi : st.1.HasIndex n.vname
      · exact .inr (@hasIndex_foldl_phaseBNode (n :: nodes) st _ hi)
      · exact .inl (@has_foldl_phaseBNode_mono nodes (phaseBNode st n) _
          (has_phaseBNode.mpr (.inr ⟨rfl, hi⟩)))
    · exact ih hn

theorem find?_foldl_phaseBNode (hn : ∀ n ∈ nodes, ∀ m ∈ nodes, n.id = m.id → n.vname = m.vname)
    (hx : (nodes.foldl phaseBNode st).1.Has x) :
    (nodes.foldl phaseBNode st).1.find? x = IndexedTable.evolve phaseBUpdate (st.1.find? x)
      ((nodes.filter fun n => n.id = x).map phaseBRow) := by
  induction nodes generalizing st with
  | nil => rfl
  | cons n nodes ih =>
    have hrest : ∀ a ∈ nodes, ∀ b ∈ nodes, a.id = b.id → a.vname = b.vname :=
      fun a ha b hb => hn a (List.mem_cons_of_mem _ ha) b (List.mem_cons_of_mem _ hb)
    rw [List.foldl_cons] at hx ⊢
    rw [ih hrest hx, phaseBNode_eq, IndexedTable.find?_upsertSkip]
    by_cases hid : n.id = x
    · rw [List.filter_cons_of_pos (by simpa using hid), List.map_cons]
      have hok : st.1.Has (phaseBRow n).id ∨ ¬ st.1.HasIndex (phaseBRow n).vname := by
        by_contra hno
        obtain ⟨hk, hi⟩ := not_or.mp hno
        refine @not_has_foldl_phaseBNode (n :: nodes) st x n.vname (hid ▸ hk) (not_not.mp hi) ?_ hx
        intro m hm hmx
        exact hn m hm n List.mem_cons_self (hmx.trans hid.symm)
      rw [if_pos ⟨hid, hok⟩]
      rfl
    · rw [List.filter_cons_of_neg (by simpa using hid), if_neg fun h => hid h.1]

theorem keys_foldl_phaseBNode (h : ∀ n ∈ nodes, st.1.Has n.id ∨ st.1.HasIndex n.vname) :
    (nodes.foldl phaseBNode st).1.rows.map NodeRow.id = st.1.rows.map NodeRow.id := by
  induction nodes generalizing st with
  | nil => rfl
  | cons n nodes ih =>
    rw [List.foldl_cons, ih]
    · rw [phaseBNode_eq]
      exact IndexedTable.upsertSkip_keys (h n List.mem_cons_self)
    · intro m hm
      refine (h m (List.mem_cons_of_mem _ hm)).imp (fun hx => has_phaseBNode.mpr (.inl hx)) ?_
      intro hv
      rw [phaseBNode_eq]
      exact IndexedTable.hasIndex_upsertSkip.mpr (.inl hv)

theorem evolve_phaseB (rows : List NodeRow) (r : NodeRow) :
    IndexedTable.evolve phaseBUpdate (some r) rows = some (r.overwrite (rows.map fun row =>
      { row with testRole := r.testRole, bodyHash := r.bodyHash })) := by
  induction rows generalizing r with
  | nil => rfl
  | cons row rows ih => exact ih ((phaseBUpdate row).apply r)

theorem evolve_phaseB_role {rows : List NodeRow} {o r : NodeRow}
    (h : IndexedTable.evolve phaseBUpdate (some o) rows = some r) :
    r.testRole = o.testRole ∧ r.bodyHash = o.bodyHash := by
  induction rows generalizing o with
  | nil =>
    obtain rfl := Option.some.inj h
    exact ⟨rfl, rfl⟩
  | cons row rows ih => exact @ih ((phaseBUpdate row).apply o) h

theorem evolve_phaseB_idem {rows : List NodeRow} {old : Option NodeRow} {r : NodeRow}
    (h : IndexedTable.evolve phaseBUpdate old rows = some r) :
    IndexedTable.evolve phaseBUpdate (some r) rows = some r := by
  have hgen : ∀ o : NodeRow, IndexedTable.evolve phaseBUpdate (some o) rows = some r →
      IndexedTable.evolve phaseBUpdate (some r) rows = some r := by
    intro o ho
    have hrole := evolve_phaseB_role ho
    rw [evolve_phaseB] at ho
    rw [evolve_phaseB, hrole.1, hrole.2, ← Option.some.inj ho, overwrite_idem]
  cases old with
  | some o => exact hgen o h
  | none =>
    cases rows with
    | nil => cases h
    | cons row rows =>
      apply hgen row
      have hself : (phaseBUpdate row).apply row = row := by
        cases row
        simp [phaseBUpdate]
      rw [← h]
      change IndexedTable.evolve phaseBUpdate (some ((phaseBUpdate row).apply row)) rows = _
      rw [hself]
      rfl

end Travsr.Store

namespace Travsr.Store

open Travsr.Core Relational

/-- A definition that a position may lie in. -/
structure DefSpan where
  span : FnSpan
  kind : String
  signature : String

def defSpans (nodes : NodeTable) (corpus path : String) : List DefSpan :=
  ((fileRows nodes corpus path).filterMap fun r => r.line.bind fun line =>
    r.endLine.map fun endLine => ⟨⟨r.id, line, endLine⟩, r.kind, r.vname.signature⟩).insertionSort
      fun a b => a.span.Before b.span

/-- The bare name a signature defines, a raw identifier without its prefix. -/
def bareName (signature : String) : String :=
  let leaf := Ident.leafOf signature
  ((Text.stripPrefix "r#" leaf.toList).map String.ofList).getD leaf

/-- The definition that is meant, among those around the place: one with the name, or the enum
around a variant. -/
def calleeSpan (containing : List DefSpan) (p : LsifPositionalRef) : Option DefSpan :=
  match p.calleeName with
  | some name =>
    containing.find? (fun d => bareName d.signature = name) <|>
      containing.head?.filter fun d => d.kind = "enum" ∧
        (d.span.line < p.calleeDefLine ∨ d.span.line = d.span.endLine)
  | none => containing.head?

/-- `resolve_lsif_positional_refs`: a trait or an impl that only encloses the place is not the
callee. -/
def resolveLsifPositionalRefs (nodes : NodeTable) (corpus : String)
    (positional : List LsifPositionalRef) : List ScipRef :=
  positional.filterMap fun p =>
    let containing := (defSpans nodes corpus p.calleeDefPath).filter fun d =>
      d.span.line ≤ p.calleeDefLine ∧ p.calleeDefLine ≤ d.span.endLine
    (calleeSpan containing p).bind fun d =>
      if d.kind ∈ ["trait", "impl"] ∧ (p.isCall ∨ d.span.line ≠ p.calleeDefLine) then none
      else some ⟨p.callerPath, p.callerLine, d.span.id, p.isCall, p.callerCol⟩

namespace SqliteStore

def filesOfSrcs (s : SqliteStore) (srcs : List NodeId) : List (String × String) :=
  (srcs.filterMap fun x => (s.nodes.find? x).map fun r => (r.vname.corpus, r.vname.path)).dedup

/-- `replace_owned_edge_sites`: the occurrences of the sources' files are taken down, unless the
batch carried the file or its language is kept, and the new ones are recorded. -/
def replaceOwnedEdgeSites (s : SqliteStore) (srcs : List NodeId) (carried keep : List String)
    (callSites fieldSites : List (NodeId × NodeId × Nat × Option Nat)) : SqliteStore :=
  let files := (s.filesOfSrcs srcs).filter fun file =>
    file.2 ∉ carried ∧ fileLanguageIsKept s.nodes file.1 file.2 keep = false
  let sites := files.foldl
    (fun t file => t.deleteWhere fun r => r.src ∈ s.idsAt file.1 file.2) s.sites
  (recordEdgeSites { s with sites := sites } callSites).recordFieldSites fieldSites

variable (s : SqliteStore) (srcs : List NodeId) (carried keep : List String)
  (callSites fieldSites : List (NodeId × NodeId × Nat × Option Nat))

end SqliteStore

end Travsr.Store
