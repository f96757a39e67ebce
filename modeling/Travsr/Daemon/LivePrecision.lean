import Travsr.Daemon.LiveResolve

namespace Travsr.Daemon

open Travsr.Core Travsr.Store Relational

/-- `str::parse::<u64>`. -/
def parseU64 (s : List Char) : Option Nat :=
  let digits := if s.head? = some '+' then s.tail else s
  if digits ≠ [] ∧ digits.all Char.isDigit ∧ Nat.ofDigitChars 10 digits 0 < 2 ^ 64 then
    some (Nat.ofDigitChars 10 digits 0)
  else none

def LIVE_PRECISION_META : String := "live_precision"

/-- `live_precision_meta_key`: the corpus-wide counters, or those of one language. -/
def livePrecisionMetaKey (language : Option String) : String :=
  match language with
  | some lang => LIVE_PRECISION_META ++ "." ++ lang
  | none => LIVE_PRECISION_META

def parseTotals (raw : String) : LivePrecision :=
  match (Text.splitOn (fun c => c == ',') raw.toList).filterMap fun p =>
    parseU64 (Text.trimChars p) with
  | [a, d, u] => ⟨a, d, u⟩
  | _ => .zero

def formatTotals (p : LivePrecision) : String :=
  p.agree.repr ++ "," ++ p.disagree.repr ++ "," ++ p.unverifiable.repr

/-- The addition of two `u64`s. -/
def addU64 (a b : Nat) : Nat := (a + b) % 2 ^ 64

def addPrecision (p q : LivePrecision) : LivePrecision :=
  ⟨addU64 p.agree q.agree, addU64 p.disagree q.disagree, addU64 p.unverifiable q.unverifiable⟩

/-- The queries of a ratification that fail. -/
structure Faults where
  sample : Bool
  read : Option String → Bool
  write : Option String → Bool
  consume : Bool
  sweep : Bool
  reconcile : Bool

def Faults.none : Faults := ⟨false, fun _ => false, fun _ => false, false, false, false⟩

section

variable (f : Faults) (s : LiveStore)

/-- `read_precision_totals_for`: a query that fails reads as zeroes, too. -/
def readPrecisionTotalsFor (language : Option String) : LivePrecision :=
  parseTotals (if f.read language then "" else (s.getMeta (livePrecisionMetaKey language)).getD "")

/-- `let _ = store.set_meta(..)`. -/
def writePrecisionTotals (language : Option String) (totals : LivePrecision) : LiveStore :=
  if f.write language then s else s.setMeta (livePrecisionMetaKey language) (formatTotals totals)

end

/-- One language of the sample: its counters grow, and so does what the run counted. -/
def measureLanguage (f : Faults) (ratified : List String) (st : LiveStore × LivePrecision)
    (entry : String × LivePrecision) : LiveStore × LivePrecision :=
  if entry.2.claims = 0 ∨ entry.1 ∉ ratified then st
  else
    let prior := readPrecisionTotalsFor f st.1 (some entry.1)
    (writePrecisionTotals f st.1 (some entry.1) (addPrecision prior entry.2),
      addPrecision st.2 entry.2)

/-- `measure_live_precision`. -/
def measureLivePrecision (f : Faults) (s : LiveStore) (ratified : List String) : LiveStore :=
  if f.sample then s
  else
    let byLang := s.livePrecisionSampleByLanguage
    if byLang.entries.isEmpty then s
    else
      let st := byLang.entries.foldl (measureLanguage f ratified) (s, .zero)
      let prior := readPrecisionTotalsFor f st.1 none
      writePrecisionTotals f st.1 none (addPrecision prior st.2)

def consumeClaims (f : Faults) (s : LiveStore) (ratified : List String) : LiveStore :=
  if f.consume then s else s.consumeMeasuredRefResolutions ratified

def sweepOverlay (f : Faults) (s : LiveStore) (ratified : List String) : LiveStore :=
  if f.sweep then s else { s with toSqliteStore := (s.sweepLiveEdgesForLanguages ratified).1 }

def reconcileClaims (f : Faults) (s : LiveStore) : LiveStore :=
  if f.reconcile then s else s.reconcileRefResolutionStates

/-- `ratify_live_overlay`: the overlay is scored before it is retired; every step is fail-open. -/
def ratifyLiveOverlay (f : Faults) (s : LiveStore) (ratified : List String) : LiveStore :=
  reconcileClaims f (sweepOverlay f
    (consumeClaims f (measureLivePrecision f s ratified) ratified) ratified)

/-- One live pass over a file. -/
inductive LivePassInput where
  | editor (corpus file : String) (resolutions : List LiveResolution)
  | lexical (corpus path : String) (unresolved : List UnresolvedCall)
      (inheritance : List InheritanceRef) (bound : Finset String)

def livePass (s : LiveStore) : LivePassInput → LiveStore
  | .editor corpus file resolutions => (applyLiveResolutions s corpus file resolutions).1
  | .lexical corpus path unresolved inheritance bound =>
    (resolveUnambiguousLexical s corpus path unresolved inheritance bound).1

section

variable {f : Faults} {s : LiveStore} {ratified : List String}

@[simp] theorem livePass_metadata (p : LivePassInput) : (livePass s p).metadata = s.metadata := by
  cases p <;> rfl

@[simp] theorem writePrecisionTotals_store {language : Option String} {totals : LivePrecision} :
    (writePrecisionTotals f s language totals).toSqliteStore = s.toSqliteStore := by
  unfold writePrecisionTotals
  split_ifs <;> rfl

@[simp] theorem writePrecisionTotals_refs {language : Option String} {totals : LivePrecision} :
    (writePrecisionTotals f s language totals).refs = s.refs := by
  unfold writePrecisionTotals
  split_ifs <;> rfl

theorem foldl_measureLanguage_frame (entries : List (String × LivePrecision))
    (st : LiveStore × LivePrecision) :
    (entries.foldl (measureLanguage f ratified) st).1.toSqliteStore = st.1.toSqliteStore ∧
      (entries.foldl (measureLanguage f ratified) st).1.refs = st.1.refs := by
  induction entries generalizing st with
  | nil => exact ⟨rfl, rfl⟩
  | cons e entries ih =>
    obtain ⟨h1, h2⟩ := ih (measureLanguage f ratified st e)
    have hstep : (measureLanguage f ratified st e).1.toSqliteStore = st.1.toSqliteStore ∧
        (measureLanguage f ratified st e).1.refs = st.1.refs := by
      unfold measureLanguage
      split_ifs
      · exact ⟨rfl, rfl⟩
      · exact ⟨writePrecisionTotals_store, writePrecisionTotals_refs⟩
    exact ⟨h1.trans hstep.1, h2.trans hstep.2⟩

theorem measureLivePrecision_frame :
    (measureLivePrecision f s ratified).toSqliteStore = s.toSqliteStore ∧
      (measureLivePrecision f s ratified).refs = s.refs := by
  unfold measureLivePrecision
  split_ifs
  · exact ⟨rfl, rfl⟩
  · dsimp only
    split_ifs
    · exact ⟨rfl, rfl⟩
    · obtain ⟨h1, h2⟩ := @foldl_measureLanguage_frame f ratified
        s.livePrecisionSampleByLanguage.entries (s, .zero)
      exact ⟨writePrecisionTotals_store.trans h1, writePrecisionTotals_refs.trans h2⟩

theorem consumeClaims_frame :
    (consumeClaims f s ratified).toSqliteStore = s.toSqliteStore ∧
      (consumeClaims f s ratified).metadata = s.metadata := by
  unfold consumeClaims LiveStore.consumeMeasuredRefResolutions
  split_ifs <;> exact ⟨rfl, rfl⟩

theorem sweepOverlay_frame :
    (sweepOverlay f s ratified).nodes = s.nodes ∧ (sweepOverlay f s ratified).refs = s.refs ∧
      (sweepOverlay f s ratified).metadata = s.metadata := by
  unfold sweepOverlay
  split_ifs
  · exact ⟨rfl, rfl, rfl⟩
  · refine ⟨?_, rfl, rfl⟩
    exact (SqliteStore.sweepLiveEdges_spec s.toSqliteStore ratified).2.2.1

theorem reconcileClaims_frame :
    (reconcileClaims f s).toSqliteStore = s.toSqliteStore ∧
      (reconcileClaims f s).metadata = s.metadata := by
  unfold reconcileClaims
  split_ifs <;> exact ⟨rfl, rfl⟩

end

end Travsr.Daemon
