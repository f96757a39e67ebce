import Travsr.Lib.GreatestClosed
import Travsr.Store.Lexical
import Travsr.Store.Rows
import Travsr.Store.Snap

namespace Travsr.Store

open Travsr.Core

/-- The `HashMap` collected from the pairs: the last value of a key stays. -/
def collectMap {κ υ : Type} [DecidableEq κ] (pairs : List (κ × υ)) (k : κ) : Option υ :=
  (pairs.reverse.find? (fun p => p.1 = k)).map Prod.snd

/-- The text cut after every newline; the last piece is what follows the last of them. -/
def linesWithEnds : List Char → List (List Char)
  | [] => [[]]
  | c :: cs =>
    if c = '\n' then [c] :: linesWithEnds cs
    else
      match linesWithEnds cs with
      | [] => [[c]]
      | l :: ls => (c :: l) :: ls

/-- The span of a definition as `body_hashes_for_spans` takes it. -/
structure Span where
  id : NodeId
  start : Nat
  stop : Option Nat
  deriving DecidableEq, Repr

/-- The text that is hashed for a span; `none` where the span is skipped. -/
def spannedText (content : String) (span : Span) : Option String :=
  let pieces := linesWithEnds content.toList
  if span.start = 0 ∨ pieces.length < span.start then none
  else
    span.stop.map fun stop =>
      let last := min (max stop span.start) pieces.length
      String.ofList ((pieces.take last).drop (span.start - 1)).flatten

/-- The spans that are hashed, each with its text, in the order they are read. -/
def spannedTexts (content : String) (spans : List Span) : List (NodeId × String) :=
  spans.filterMap fun span => (spannedText content span).map fun text => (span.id, text)

def bodyHashesForSpans (env : Env) (content : String) (spans : List Span) (id : NodeId) :
    Option String :=
  collectMap ((spannedTexts content spans).map fun p => (p.1, env.sha256 p.2)) id

def spansOf (nodes : List Node) : List Span :=
  nodes.filterMap fun n => n.line.map fun line => ⟨n.id, line, n.endLine⟩

def bodyHashes (env : Env) (content : Option String) (nodes : List Node) (id : NodeId) :
    Option String :=
  content.bind fun text => bodyHashesForSpans env text (spansOf nodes) id

end Travsr.Store

namespace Travsr.Store

open Travsr.Core Relational

/-- The arguments of `reindex_replace`: the fresh parse of one file. -/
structure Reparse where
  corpus : String
  path : String
  nodes : List Node
  edges : List Edge
  newHash : String
  content : Option String

structure ChangedOccurrence where
  src : NodeId
  line : Nat
  col : Option Nat
  kind : EdgeKind
  name : String
  deriving DecidableEq, Repr

structure ReplaceReport where
  removedCount : Nat
  /-- The paths of the callers of removed symbols. -/
  callers : Finset String
  changedDefs : List NodeId
  changedOccurrences : List ChangedOccurrence
  preservedAny : Bool

def typeLevelKinds : List String :=
  ["type", "typedef", "interface", "struct", "enum", "union", "trait", "protocol"]

/-- Kinds that do not mask the lines they span: a top-level statement holds the call it makes. -/
def statementKinds : List String := ["file", "variable", "field", "import", "constant"]

def isCommitted (provenance : String) : Bool := provenance = "scip" || provenance = "lsif"

/-- `kind LIKE 'ref/%'`. -/
def isReference (kind : EdgeKind) : Bool := Text.startsWith kind.asStr "ref/"

def lineWords (env : Env) (line : List Char) : List (List Char) :=
  (Text.splitOn (fun c => !(env.isAlphanumeric c || c = '_')) line).filter (fun w => !w.isEmpty)

/-- The words a definition's lines hold; none where the lines are not a slice of the text. -/
def bodyWords (env : Env) (lines : List (List Char)) (n : Node) : Option (List (List Char)) :=
  n.line.bind fun start =>
    let stop := min (n.endLine.getD start) lines.length
    if start = 0 ∨ stop < start - 1 then none
    else some (((lines.take stop).drop (start - 1)).flatMap (lineWords env))

def topLevelWords (env : Env) (lines : List (List Char)) (nodes : List Node) : List (List Char) :=
  let masked (i : Nat) : Bool := nodes.any fun n =>
    n.kind ∉ statementKinds && n.line.any fun start =>
      start ≤ i + 1 && i + 1 ≤ n.endLine.getD start
  (lines.zipIdx.filter (fun p => !masked p.2)).flatMap fun p => lineWords env p.1

/-- The word a reference to the symbol is spelled with: an Objective-C selector is cut at its
first keyword. -/
def spelledName (signature : String) : List Char :=
  (Ident.leafOf signature).toList.takeWhile (· ≠ ':')

namespace Reparse

/-- The ids the parse gives this file; a node stored under another path is not one of them. -/
def newIds (c : Reparse) : Finset NodeId :=
  ((c.nodes.filter (fun n => n.vname.path = c.path)).map Node.id).toFinset

theorem mem_newIds {c : Reparse} {x : NodeId} :
    x ∈ c.newIds ↔ ∃ n ∈ c.nodes, n.vname.path = c.path ∧ n.id = x := by
  simp [newIds, and_assoc]

def lines (c : Reparse) : List (List Char) := (c.content.map Text.lines).getD []

def hashes (env : Env) (c : Reparse) (id : NodeId) : Option String :=
  bodyHashes env c.content c.nodes id

def newLine (c : Reparse) (id : NodeId) : Option Nat :=
  collectMap (c.nodes.filterMap fun n => n.line.map fun l => (n.id, l)) id

def newEnd (c : Reparse) (id : NodeId) : Option Nat :=
  collectMap (c.nodes.filterMap fun n => n.endLine.map fun l => (n.id, l)) id

end Reparse

namespace SqliteStore

variable (env : Env) (s : SqliteStore) (c : Reparse)

def oldIds : Finset NodeId := s.idsAt c.corpus c.path

/-- The edit adds and removes no symbol. -/
def PureBodyEdit : Prop := c.content.isSome ∧ s.oldIds c = c.newIds

instance : Decidable (s.PureBodyEdit c) := inferInstanceAs (Decidable (_ ∧ _))

/-- The rows of the file with a stored hash and a current one, with both. -/
def hashPairs : List (NodeId × String × String) :=
  if s.PureBodyEdit c then
    (s.rowsAt c.corpus c.path).filterMap fun r =>
      r.bodyHash.bind fun stored => (c.hashes env r.id).map fun current => (r.id, stored, current)
  else []

def hashEqual : Finset NodeId :=
  (((s.hashPairs env c).filter (fun p => p.2.1 = p.2.2)).map Prod.fst).toFinset

def edited : Finset NodeId :=
  (((s.hashPairs env c).filter (fun p => p.2.1 ≠ p.2.2)).map Prod.fst).toFinset

def refPairs : List (NodeId × NodeId) :=
  (s.edges.rows.filter (fun e => e.src ∈ s.oldIds c)).map (fun e => (e.src, e.dst)) ++
    c.edges.map (fun e => (e.src, e.dst))

/-- Some type-level definition of the parse is not hash-equal. -/
def TypeLevelChange : Prop := ∃ n ∈ c.nodes, n.kind ∈ typeLevelKinds ∧ n.id ∉ s.hashEqual env c

instance : Decidable (s.TypeLevelChange env c) :=
  inferInstanceAs (Decidable (∃ n ∈ c.nodes, _))

/-- The definitions whose committed edges and sites survive the reparse: the hash-equal ones
from which no reference leads to a definition of the file that is not preserved. -/
def preserved : Finset NodeId :=
  if s.TypeLevelChange env c then ∅
  else GreatestClosed.demote (s.refPairs c) c.newIds (s.hashEqual env c)

def lineDelta (id : NodeId) : Option Int :=
  if id ∈ s.preserved env c then
    ((s.rowsAt c.corpus c.path).find? (fun r => r.id = id)).bind fun r =>
      r.line.bind fun old => (c.newLine id).map fun (new : Nat) => (new : Int) - old
  else none

/-- Some type-level definition of the parse was edited. -/
def TypeLevelEdit : Prop := ∃ n ∈ c.nodes, n.kind ∈ typeLevelKinds ∧ n.id ∈ s.edited env c

instance : Decidable (s.TypeLevelEdit env c) := inferInstanceAs (Decidable (∃ n ∈ c.nodes, _))

/-- The words an edited definition's new body holds, and for the file node those of the top
level. -/
def words (id : NodeId) : Option (List (List Char)) :=
  match c.nodes.find? (fun n => n.kind = "file") with
  | some file => if file.id = id then some (topLevelWords env c.lines c.nodes) else edits id
  | none => edits id
where
  edits (id : NodeId) : Option (List (List Char)) :=
    collectMap ((c.nodes.filter (fun n => n.id ∈ s.edited env c)).filterMap fun n =>
      (bodyWords env c.lines n).map fun ws => (n.id, ws)) id

/-- The committed references of the file, each with the signature of its stored target. -/
def keptCandidates : List (EdgeRow × String) :=
  (s.edges.rows.filter (fun e => e.src ∈ s.oldIds c ∧ isReference e.kind ∧ isCommitted e.provenance)).filterMap
    fun e => (s.nodes.find? e.dst).map fun d => (e, d.vname.signature)

def throughEdited : List NodeId :=
  ((s.keptCandidates c).filter (fun p => p.1.src ≠ p.1.dst ∧ p.1.dst ∈ s.edited env c)).map
    fun p => p.1.src

/-- The keys of the committed references an edited definition keeps: the target's name still
stands in its new body. -/
def kept : List (NodeId × NodeId × EdgeKind) :=
  if s.PureBodyEdit c ∧ ¬ s.TypeLevelEdit env c then
    ((s.keptCandidates c).filter fun p =>
      p.1.src ∉ s.throughEdited env c ∧
        (s.words env c p.1.src).any (fun ws => spelledName p.2 ∈ ws)).map fun p => p.1.key
  else []

/-- The owned edges the reparse drops. -/
def Dropped (e : EdgeRow) : Prop :=
  e.src ∈ s.oldIds c ∧ e.src ∉ s.preserved env c ∧ e.key ∉ s.kept env c

instance (e : EdgeRow) : Decidable (s.Dropped env c e) := inferInstanceAs (Decidable (_ ∧ _ ∧ _))

def shiftedSites : List SiteRow :=
  s.sites.rows.filterMap fun r =>
    (s.lineDelta env c r.src).bind fun delta =>
      if r.line + delta < 1 then none else some { r with line := r.line + delta }

def droppedPairs : List (NodeId × NodeId) :=
  (s.edges.rows.filter (fun e => e.src ∈ s.oldIds c ∧ e.src ∉ s.preserved env c)).map
    fun e => (e.src, e.dst)

/-- Where a changed definition's committed occurrence stands in the current text. -/
def changedOccurrence (r : SiteRow) : Option ChangedOccurrence :=
  (s.nodes.find? r.dst).bind fun d =>
  (c.newLine r.src).bind fun start =>
  ((s.nodes.find? r.src).bind NodeRow.line).bind fun old =>
    let name := Ident.leafOf d.vname.signature
    let estimate := r.line + ((start : Int) - old)
    let line : Option Int :=
      match r.col, c.content with
      | some col, some _ =>
        (snapChangedOccurrenceLine c.lines name.toList col estimate start
          ((c.newEnd r.src).getD c.lines.length)).map fun l => (l : Int)
      | _, _ => some estimate
    line.bind fun l => if l < 1 then none else some ⟨r.src, l.toNat, r.col, r.kind, name⟩

def changedOccurrences : List ChangedOccurrence :=
  if s.preserved env c = ∅ then []
  else
    (s.sites.rows.filter (fun r => r.src ∈ s.oldIds c ∧ r.src ∉ s.preserved env c ∧
      (r.src, r.dst) ∈ s.droppedPairs env c)).filterMap (s.changedOccurrence c)

def removedIds : Finset NodeId := s.oldIds c \ c.newIds

/-- The paths, other than the file's own, from which an edge leads to a removed symbol. -/
def callers (nodes : NodeTable) (edges : EdgeTable) : Finset String :=
  ((edges.rows.filter (fun e => e.dst ∈ s.removedIds c)).filterMap fun e =>
    (nodes.find? e.src).map fun r => r.vname.path).toFinset.erase c.path

/-- `reindex_replace`. -/
def reindexReplace : Except StoreError (SqliteStore × ReplaceReport) := do
  let preserved := s.preserved env c
  let nodes ← insertNodes "inserting node in reindex_replace" (c.hashes env)
    (s.nodes.deleteWhere (fun r => r.vname.corpus = c.corpus ∧ r.vname.path = c.path)) c.nodes
  let edges ← insertEdges "inserting edge in reindex_replace"
    (s.edges.deleteWhere (s.Dropped env c)) (c.edges.filter (fun e => e.src ∉ preserved))
  let store := { s with
    nodes := nodes
    edges := edges.deleteWhere (fun e => e.dst ∈ s.removedIds c)
    sites := (s.sites.deleteWhere (fun r => r.src ∈ s.oldIds c)).insertAll (s.shiftedSites env c)
    files := putFile s.files c.path c.newHash
    lex := c.nodes.foldl Lexical.put (s.lex.retract (s.oldIds c)) }
  return (store,
    { removedCount := (s.removedIds c).card
      callers := s.callers c nodes edges
      changedDefs := (c.nodes.filter (fun n => n.id ∉ preserved)).map Node.id
      changedOccurrences := s.changedOccurrences env c
      preservedAny := preserved ≠ ∅ })

variable {env s c}

theorem mem_hashPairs {p : NodeId × String × String} :
    p ∈ s.hashPairs env c ↔ s.PureBodyEdit c ∧ ∃ r ∈ s.rowsAt c.corpus c.path,
      r.id = p.1 ∧ r.bodyHash = some p.2.1 ∧ c.hashes env r.id = some p.2.2 := by
  unfold hashPairs
  split_ifs with h
  · simp only [List.mem_filterMap, Option.bind_eq_some_iff, Option.map_eq_some_iff, h, true_and]
    constructor
    · intro ⟨r, hr, old, ho, new, hn, he⟩
      subst he
      exact ⟨r, hr, rfl, ho, hn⟩
    · intro ⟨r, hr, hid, ho, hn⟩
      exact ⟨r, hr, p.2.1, ho, p.2.2, hn, by rw [hid]⟩
  · simp [h]

theorem mem_hashEqual {x : NodeId} :
    x ∈ s.hashEqual env c ↔ s.PureBodyEdit c ∧ ∃ r ∈ s.rowsAt c.corpus c.path,
      r.id = x ∧ ∃ hash, r.bodyHash = some hash ∧ c.hashes env x = some hash := by
  simp only [hashEqual, List.mem_toFinset, List.mem_map, List.mem_filter, decide_eq_true_eq,
    mem_hashPairs]
  constructor
  · intro ⟨p, ⟨⟨he, r, hr, hid, ho, hn⟩, heq⟩, hx⟩
    subst hx
    exact ⟨he, r, hr, hid, p.2.1, ho, by rw [heq, ← hid, hn]⟩
  · intro ⟨he, r, hr, hid, hash, ho, hn⟩
    exact ⟨(x, hash, hash), ⟨⟨he, r, hr, hid, ho, by rw [hid, hn]⟩, rfl⟩, rfl⟩

theorem mem_edited {x : NodeId} :
    x ∈ s.edited env c ↔ s.PureBodyEdit c ∧ ∃ r ∈ s.rowsAt c.corpus c.path,
      r.id = x ∧ ∃ old new, r.bodyHash = some old ∧ c.hashes env x = some new ∧ old ≠ new := by
  simp only [edited, List.mem_toFinset, List.mem_map, List.mem_filter, decide_eq_true_eq,
    mem_hashPairs]
  constructor
  · intro ⟨p, ⟨⟨he, r, hr, hid, ho, hn⟩, hne⟩, hx⟩
    subst hx
    exact ⟨he, r, hr, hid, p.2.1, p.2.2, ho, by rw [← hid, hn], hne⟩
  · intro ⟨he, r, hr, hid, old, new, ho, hn, hne⟩
    exact ⟨(x, old, new), ⟨⟨he, r, hr, hid, ho, by rw [hid, hn]⟩, hne⟩, rfl⟩

theorem preserved_subset_hashEqual : s.preserved env c ⊆ s.hashEqual env c := by
  unfold preserved
  split_ifs
  · exact Finset.empty_subset _
  · exact GreatestClosed.demote_subset _ _ _

theorem hashEqual_subset_oldIds : s.hashEqual env c ⊆ s.oldIds c := by
  intro x hx
  obtain ⟨_, r, hr, rfl, _⟩ := mem_hashEqual.mp hx
  obtain ⟨hm, hcp⟩ := mem_rowsAt.mp hr
  exact mem_idsAt.mpr ⟨r, hm, rfl, hcp⟩

theorem preserved_subset_oldIds : s.preserved env c ⊆ s.oldIds c :=
  preserved_subset_hashEqual.trans hashEqual_subset_oldIds

theorem pureBodyEdit_of_mem_preserved {x : NodeId} (hx : x ∈ s.preserved env c) :
    s.PureBodyEdit c :=
  (mem_hashEqual.mp (preserved_subset_hashEqual hx)).1

theorem mem_keptCandidates {p : EdgeRow × String} :
    p ∈ s.keptCandidates c ↔ p.1 ∈ s.edges ∧ p.1.src ∈ s.oldIds c ∧ isReference p.1.kind ∧
      isCommitted p.1.provenance ∧ ∃ d, s.nodes.find? p.1.dst = some d ∧ d.vname.signature = p.2 := by
  simp only [keptCandidates, List.mem_filterMap, List.mem_filter, decide_eq_true_eq,
    Option.map_eq_some_iff]
  constructor
  · intro h
    obtain ⟨e, ⟨he, hs, hk, hc⟩, d, hd, hp⟩ := h
    subst hp
    exact ⟨he, hs, hk, hc, d, hd, rfl⟩
  · intro h
    obtain ⟨he, hs, hk, hc, d, hd, hsig⟩ := h
    exact ⟨p.1, ⟨he, hs, hk, hc⟩, d, hd, by rw [hsig]⟩

theorem pureBodyEdit_of_mem_kept {k : NodeId × NodeId × EdgeKind} (hk : k ∈ s.kept env c) :
    s.PureBodyEdit c := by
  unfold kept at hk
  split_ifs at hk with h
  · exact h.1
  · cases hk

theorem pureBodyEdit_of_not_dropped {e : EdgeRow} (hs : e.src ∈ s.oldIds c)
    (h : ¬ s.Dropped env c e) : s.PureBodyEdit c := by
  by_cases hp : e.src ∈ s.preserved env c
  · exact pureBodyEdit_of_mem_preserved hp
  · by_cases hk : e.key ∈ s.kept env c
    · exact pureBodyEdit_of_mem_kept hk
    · exact absurd ⟨hs, hp, hk⟩ h

/-- All that a successful `reindex_replace` does to the tables. -/
structure Reindexed (env : Env) (s : SqliteStore) (c : Reparse) (s' : SqliteStore) : Prop where
  nodes : insertNodes "inserting node in reindex_replace" (c.hashes env)
    (s.nodes.deleteWhere (fun r => r.vname.corpus = c.corpus ∧ r.vname.path = c.path)) c.nodes =
      .ok s'.nodes
  edges : s'.edges = ((s.edges.deleteWhere (s.Dropped env c)).insertAll
    ((c.edges.filter (fun e => e.src ∉ s.preserved env c)).map EdgeRow.ofParse)).deleteWhere
      (fun e => e.dst ∈ s.removedIds c)
  sites : s'.sites =
    (s.sites.deleteWhere (fun r => r.src ∈ s.oldIds c)).insertAll (s.shiftedSites env c)
  lex : s'.lex = c.nodes.foldl Lexical.put (s.lex.retract (s.oldIds c))
  stage : s'.stage = s.stage
  stagingActive : s'.stagingActive = s.stagingActive

theorem reindexReplace_ok {s' : SqliteStore} {rep : ReplaceReport}
    (h : s.reindexReplace env c = .ok (s', rep)) : Reindexed env s c s' := by
  simp only [reindexReplace, bind, Except.bind, pure, Except.pure] at h
  split at h
  · cases h
  next nodes hn =>
    split at h
    · cases h
    next edges he =>
      obtain ⟨rfl, _⟩ := Prod.mk.inj (Except.ok.inj h)
      exact ⟨hn, by rw [insertEdges_ok he], rfl, rfl, rfl, rfl⟩

theorem reindexReplace_isOk : (∃ p, s.reindexReplace env c = .ok p) ↔
    (∃ u, insertNodes "inserting node in reindex_replace" (c.hashes env)
      (s.nodes.deleteWhere (fun r => r.vname.corpus = c.corpus ∧ r.vname.path = c.path)) c.nodes =
        .ok u) ∧
      ∀ e ∈ c.edges, e.src ∉ s.preserved env c → confidenceOk e.confidence := by
  have hcheck : (∀ e ∈ c.edges, e.src ∉ s.preserved env c → confidenceOk e.confidence) ↔
      ∃ u, insertEdges "inserting edge in reindex_replace" (s.edges.deleteWhere (s.Dropped env c))
        (c.edges.filter (fun e => e.src ∉ s.preserved env c)) = .ok u := by
    rw [insertEdges_isOk]
    simp only [List.mem_filter, decide_eq_true_eq, and_imp]
  rw [hcheck]
  simp only [reindexReplace, bind, Except.bind, pure, Except.pure]
  constructor
  · intro ⟨p, hp⟩
    split at hp
    · cases hp
    next nodes hn =>
      split at hp
      · cases hp
      next edges he => exact ⟨⟨nodes, hn⟩, edges, he⟩
  · intro ⟨⟨nodes, hn⟩, edges, he⟩
    rw [hn]
    dsimp only
    rw [he]
    exact ⟨_, rfl⟩

namespace Reindexed

variable {s' : SqliteStore} (h : Reindexed env s c s')

include h

theorem stored_iff {x : NodeId} :
    s'.Stored x ↔ (s.Stored x ∧ x ∉ s.oldIds c) ∨ ∃ n ∈ c.nodes, n.id = x := by
  have hx : s'.Stored x ↔ _ := has_insertNodes h.nodes x
  rw [hx]
  exact or_congr_left has_deleteWhere

theorem find?_nodes (x : NodeId) :
    s'.nodes.find? x = IndexedTable.evolve parseUpdate
      (if x ∈ s.oldIds c then none else s.nodes.find? x)
      ((c.nodes.filter (fun n => n.id = x)).map fun n => NodeRow.ofNode n (c.hashes env n.id)) := by
  rw [find?_insertNodes h.nodes]
  congr 1
  change (s.nodes.toTable.deleteWhere _).find? x = _
  rw [Table.find?_deleteWhere]
  cases hf : s.nodes.find? x with
  | none => simp
  | some r =>
    obtain ⟨hr, hid⟩ := Table.mem_of_find? hf
    have hx : x ∈ s.oldIds c ↔ r.vname.corpus = c.corpus ∧ r.vname.path = c.path := by
      constructor
      · intro hold
        obtain ⟨r', hr', hid', hcp⟩ := mem_idsAt.mp hold
        exact IndexedTable.eq_of_key hr' hr (hid'.trans hid.symm) ▸ hcp
      · intro hcp
        exact mem_idsAt.mpr ⟨r, hr, hid, hcp⟩
    by_cases hcp : r.vname.corpus = c.corpus ∧ r.vname.path = c.path
    · simp [hx.mpr hcp, hcp]
    · simp [mt hx.mp hcp, not_and_or.mp hcp]

theorem find?_edges (k : NodeId × NodeId × EdgeKind) :
    s'.edges.find? k =
      if k.2.1 ∈ s.removedIds c then none
      else ((s.edges.find? k).filter (fun e => ¬ s.Dropped env c e)).or
        (if k.1 ∈ s.preserved env c then none
          else (c.edges.map EdgeRow.ofParse).find? (fun e => e.key = k)) := by
  have hparse : ((c.edges.filter (fun e => e.src ∉ s.preserved env c)).map EdgeRow.ofParse).find?
      (fun e => e.key = k) = if k.1 ∈ s.preserved env c then none
        else (c.edges.map EdgeRow.ofParse).find? (fun e => e.key = k) := by
    split_ifs with hk
    · rw [List.find?_eq_none]
      intro e he hek
      obtain ⟨p, hp, rfl⟩ := List.mem_map.mp he
      rw [List.mem_filter, decide_eq_true_eq] at hp
      rw [decide_eq_true_eq] at hek
      have hsrc : p.src = k.1 := congrArg Prod.fst hek
      exact hp.2 (hsrc ▸ hk)
    · rw [List.find?_map, List.find?_map, List.find?_filter]
      congr 1
      congr 1
      funext p
      by_cases hpk : (EdgeRow.ofParse p).key = k
      · have : p.src ∉ s.preserved env c := fun hm => hk (hpk ▸ hm)
        simp [hpk, this]
      · simp [hpk]
  rw [h.edges, Table.find?_deleteWhere, Table.find?_insertAll, Table.find?_deleteWhere, hparse]
  set o := ((s.edges.find? k).filter (fun e => ¬ s.Dropped env c e)).or
    (if k.1 ∈ s.preserved env c then none
      else (c.edges.map EdgeRow.ofParse).find? (fun e => e.key = k)) with ho
  cases hoe : o with
  | none => simp
  | some e =>
    have hek : e.key = k := by
      rw [hoe] at ho
      rcases Option.or_eq_some_iff.mp ho.symm with hl | ⟨_, hr⟩
      · exact (Table.mem_of_find? (Option.filter_eq_some_iff.mp hl).1).2
      · split_ifs at hr
        have := List.find?_some hr
        rwa [decide_eq_true_eq] at this
    subst hek
    by_cases hd : e.dst ∈ s.removedIds c
    · simp [hd, EdgeRow.key]
    · simp [hd, EdgeRow.key]

theorem mem_edges {e : EdgeRow} (he : e ∈ s'.edges) :
    e.dst ∉ s.removedIds c ∧ ((e ∈ s.edges ∧ ¬ s.Dropped env c e) ∨
      ∃ p ∈ c.edges, p.src ∉ s.preserved env c ∧ EdgeRow.ofParse p = e) := by
  rw [h.edges, Table.mem_deleteWhere, Table.mem_insertAll, Table.mem_deleteWhere] at he
  refine ⟨he.2, ?_⟩
  rcases he.1 with ho | ⟨_, hp⟩
  · exact .inl ho
  · right
    obtain ⟨p, hp, hpe⟩ := List.mem_map.mp (List.mem_of_find?_eq_some hp)
    rw [List.mem_filter, decide_eq_true_eq] at hp
    exact ⟨p, hp.1, hp.2, hpe⟩

theorem addressed {nodes : List Node} (ha : s.Addressed nodes) (hc : c.nodes ⊆ nodes) :
    s'.Addressed nodes := by
  refine ⟨?_, ha.node⟩
  intro r hr n hn hid
  rcases mem_insertNodes h.nodes hr with ⟨o, ho, hoid, hov⟩ | ⟨m, hm, hmid, hmv⟩
  · exact hov ▸ ha.row o (IndexedTable.mem_deleteWhere.mp ho).1 n hn (hoid.trans hid)
  · exact hmv ▸ ha.node m (hc hm) n hn (hmid.trans hid)

theorem mem_idsAt_iff (ha : s.Addressed c.nodes) {corpus path : String} {x : NodeId} :
    x ∈ s'.idsAt corpus path ↔ (x ∈ s.idsAt corpus path ∧ x ∉ s.oldIds c) ∨
      ∃ n ∈ c.nodes, n.id = x ∧ n.vname.corpus = corpus ∧ n.vname.path = path := by
  have ha' := h.addressed ha (List.Subset.refl _)
  constructor
  · intro hx
    obtain ⟨r, hr, hid, hcp⟩ := mem_idsAt.mp hx
    rcases mem_insertNodes h.nodes hr with ⟨o, ho, hoid, hov⟩ | ⟨n, hn, hnid, hnv⟩
    · left
      obtain ⟨ho, hcp'⟩ := IndexedTable.mem_deleteWhere.mp ho
      refine ⟨mem_idsAt.mpr ⟨o, ho, hoid.trans hid, by rw [hov]; exact hcp⟩, ?_⟩
      intro hold
      obtain ⟨r', hr', hid', hcp''⟩ := mem_idsAt.mp hold
      exact hcp' (IndexedTable.eq_of_key hr' ho (hid'.trans (hoid.trans hid).symm) ▸ hcp'')
    · exact .inr ⟨n, hn, hnid.trans hid, by rw [hnv]; exact hcp⟩
  · intro hx
    have hst : s'.Stored x := by
      rw [h.stored_iff]
      rcases hx with ⟨hx, hold⟩ | ⟨n, hn, hid, _⟩
      · obtain ⟨r, hr, hid, _⟩ := mem_idsAt.mp hx
        exact .inl ⟨⟨r, hr, hid⟩, hold⟩
      · exact .inr ⟨n, hn, hid⟩
    obtain ⟨r, hr, hid⟩ := hst
    refine mem_idsAt.mpr ⟨r, hr, hid, ?_⟩
    rcases hx with ⟨hx, hold⟩ | ⟨n, hn, hnid, hcp⟩
    · obtain ⟨o, ho, hoid, hcp⟩ := mem_idsAt.mp hx
      rcases mem_insertNodes h.nodes hr with ⟨o', ho', hoid', hov⟩ | ⟨n, hn, hnid, hnv⟩
      · have ho'' := (IndexedTable.mem_deleteWhere.mp ho').1
        rw [← hov, IndexedTable.eq_of_key ho'' ho (hoid'.trans (hid.trans hoid.symm))]
        exact hcp
      · rw [← hnv, ← ha.row o ho n hn (hoid.trans (hid.symm.trans hnid.symm))]
        exact hcp
    · rw [ha'.row r hr n hn (hid.trans hnid.symm)]
      exact hcp

end Reindexed

end SqliteStore

end Travsr.Store
