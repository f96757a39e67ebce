import Travsr.Core.Text
import Travsr.Lib.Runs
import Travsr.Lib.Scan

namespace Travsr.Daemon

open Travsr.Core

/-- What a Phase B run reports of its languages. -/
structure PhaseBReport where
  ran : List String
  crashed : List String
  deriving DecidableEq

def PhaseBReport.madeProgress (r : PhaseBReport) : Bool := r.crashed.isEmpty || !r.ran.isEmpty

/-- The metadata cells of the store that say how fresh its semantic edges are; the counter is a
`u64` kept as a decimal text. -/
structure Markers where
  lastCommit : Option String
  phaseBCommit : Option String
  phaseBDirty : Option String
  phaseBDirtySeq : Option Nat
  deriving DecidableEq

namespace Markers

def dirtySeq (m : Markers) : Nat := m.phaseBDirtySeq.getD 0

/-- The tail of `reindex_files_reporting`. -/
def reindexed (m : Markers) (head : Option String) (anyChanged callsChanged : Bool) : Markers :=
  if anyChanged then
    let m := { m with lastCommit := head <|> m.lastCommit }
    if callsChanged then
      { m with phaseBDirty := some "1", phaseBDirtySeq := some ((m.dirtySeq + 1) % 2 ^ 64) }
    else m
  else m

end Markers

def GATE_SKIPS : List String :=
  ["skipped_unregistered", "untrusted_corpus", "skipped_no_analyzer", "needs_consent",
    "skipped_no_compdb", "skipped_no_build_file", "emitter_missing"]

def phaseBInlineNeeded (alreadyDone dirty : Bool) (warnings : String) (nowReady : String → Bool) :
    Bool :=
  !alreadyDone || dirty ||
    ((Text.splitOn (fun c => c == ',') warnings.toList).filterMap fun w =>
      Scan.splitOnce [':'] (Text.trimChars w)).any fun (cls, lang) =>
        GATE_SKIPS.contains (String.ofList cls) && nowReady (String.ofList lang)

/-- The `travsr init` that holds `init.lock`. The times are those of the log below. -/
inductive InitRun where
  | parsing
  | ready (runPhaseBInline : Bool) (dirtySeqBefore : Nat)
  | analysing (dirtySeqBefore : Nat) (since : Nat)
  deriving DecidableEq

inductive BackgroundRun where
  | idle
  | ready (targetSha : String)
  | analysing (targetSha : String) (since : Nat)
  deriving DecidableEq

/-- A repository with its store, the init and the background runs under way, and a log of what the
markers are about: when committed call edges were dropped, and when the run that stamped
`phase_b_commit` began to analyse. -/
structure Workspace where
  head : Option String
  cells : Markers
  init : Option InitRun
  background : Nat → BackgroundRun
  clock : Nat
  drops : List Nat
  stamper : Option Nat

inductive MarkerEvent where
  /-- HEAD moves. -/
  | commit (sha : String)
  /-- `reindex_files_reporting` ends; files whose calls are traced were among the changed ones. -/
  | reindex (anyChanged callsChanged : Bool)
  /-- `reconcile_head_drift` ends. -/
  | headReconciled
  | initLock
  /-- Init parses the repository again, after a purge when it was forced. -/
  | initParse (purged callsChanged : Bool)
  | initRead (semantic : Bool) (warnings : String) (nowReady : String → Bool)
  | initAnalyse
  | initFinish (report : PhaseBReport)
  /-- Init ends early, and `init.lock` is free again. -/
  | initInterrupted
  | backgroundRead (run : Nat)
  | backgroundAnalyse (run : Nat)
  | backgroundFinish (run : Nat) (report : PhaseBReport)
  | backgroundInterrupted (run : Nat)

namespace Workspace

def start : Workspace where
  head := none
  cells := ⟨none, none, none, none⟩
  init := none
  background := fun _ => .idle
  clock := 0
  drops := []
  stamper := none

def drop (s : Workspace) : Workspace := { s with drops := s.drops ++ [s.clock] }

def setBackground (s : Workspace) (run : Nat) (b : BackgroundRun) : Workspace :=
  { s with background := fun i => if i = run then b else s.background i }

/-- A purge takes `phase_b_commit` with it; the flag is raised over a run that has stamped it. -/
def initParsed (s : Workspace) (purged callsChanged : Bool) : Workspace :=
  let s := if purged then
      { s with cells := { s.cells with phaseBCommit := none }, stamper := none }
    else s
  let t := if callsChanged && s.cells.phaseBCommit.isSome then
      { s with cells := { s.cells with phaseBDirty := some "1" } }
    else s
  if purged || callsChanged then t.drop else t

theorem initParsed_init (s : Workspace) (purged callsChanged : Bool) :
    (s.initParsed purged callsChanged).init = s.init := by
  simp only [initParsed, drop]
  split_ifs <;> rfl

theorem initParsed_seq (s : Workspace) (purged callsChanged : Bool) :
    (s.initParsed purged callsChanged).cells.phaseBDirtySeq = s.cells.phaseBDirtySeq := by
  simp only [initParsed, drop]
  split_ifs <;> rfl

theorem initParsed_drops (s : Workspace) (purged callsChanged : Bool) :
    (s.initParsed purged callsChanged).drops =
      if purged || callsChanged then s.drops ++ [s.clock] else s.drops := by
  simp only [initParsed, drop]
  split_ifs <;> rfl

/-- Inline Phase B is run for a repository without a commit, or where a caller needs the edges
and they are not known to be there. -/
def runPhaseBInline (s : Workspace) (semantic : Bool) (warnings : String)
    (nowReady : String → Bool) : Bool :=
  let currentSha := s.head.getD ""
  let alreadyDone := currentSha ≠ "" && s.cells.phaseBCommit.getD "" = currentSha
  currentSha = "" ||
    (semantic &&
      phaseBInlineNeeded alreadyDone (s.cells.phaseBDirty = some "1") warnings nowReady)

/-- Init reads the sequence number before its Phase B starts, and stamps `last_commit`. -/
def initReadMarkers (s : Workspace) (semantic : Bool) (warnings : String)
    (nowReady : String → Bool) : Workspace :=
  { s with
    init := some (.ready (s.runPhaseBInline semantic warnings nowReady) s.cells.dirtySeq)
    cells :=
      if s.head.getD "" = "" then s.cells else { s.cells with lastCommit := s.head } }

/-- The last stamps of an init whose Phase B began at `since`: the flag is cleared when no reindex
has moved the sequence number. -/
def initStamp (s : Workspace) (sha : String) (dirtySeqBefore since : Nat) : Workspace :=
  { s with
    cells := { s.cells with
      phaseBCommit := some sha
      phaseBDirty := if s.cells.dirtySeq = dirtySeqBefore then some "0" else s.cells.phaseBDirty }
    stamper := some since }

def stampLastCommit (s : Workspace) : Workspace :=
  { s with cells := { s.cells with lastCommit := s.head <|> s.cells.lastCommit } }

/-- The end of `init_repo_with_progress`; without inline Phase B there is no report. -/
def initFinishRun (s : Workspace) (r : InitRun) (report : PhaseBReport) : Workspace :=
  match r, s.head with
  | .parsing, _ => s
  | .ready true _, _ => s
  | .ready false _, _ => { s.stampLastCommit with init := none }
  | .analysing dirtySeqBefore since, some sha =>
    if report.madeProgress then
      { s.stampLastCommit.initStamp sha dirtySeqBefore since with init := none }
    else { s.stampLastCommit with init := none }
  | .analysing _ _, none => { s with init := none }

/-- The first lock of `run_background_phase_b_inner`, and its look at `init.lock`. -/
def backgroundReadMarkers (s : Workspace) (run : Nat) : Workspace :=
  let last := s.cells.lastCommit.getD ""
  if last = "" || last = s.cells.phaseBCommit.getD "" then s
  else if s.init.isSome then s
  else s.setBackground run (.ready last)

/-- The second lock of `run_background_phase_b_inner`. -/
def backgroundStamp (s : Workspace) (targetSha : String) (since : Nat) : Workspace :=
  { s with
    cells := { s.cells with phaseBCommit := some targetSha, phaseBDirty := some "0" }
    stamper := some since }

def apply (s : Workspace) : MarkerEvent → Workspace
  | .commit sha => { s with head := some sha }
  | .reindex anyChanged callsChanged =>
    let t := { s with cells := s.cells.reindexed s.head anyChanged callsChanged }
    if anyChanged && callsChanged then t.drop else t
  | .headReconciled =>
    let stored := s.cells.lastCommit.getD ""
    let head := s.head.getD ""
    if head = "" || stored = "" || stored = head then s
    else { s with cells := { s.cells with lastCommit := some head } }
  | .initLock => if s.init.isSome then s else { s with init := some .parsing }
  | .initParse purged callsChanged =>
    if s.init = some .parsing then s.initParsed purged callsChanged else s
  | .initRead semantic warnings nowReady =>
    if s.init = some .parsing then s.initReadMarkers semantic warnings nowReady else s
  | .initAnalyse =>
    match s.init with
    | some (.ready true dirtySeqBefore) =>
      { s with init := some (.analysing dirtySeqBefore s.clock) }
    | _ => s
  | .initFinish report =>
    match s.init with
    | some r => s.initFinishRun r report
    | none => s
  | .initInterrupted => { s with init := none }
  | .backgroundRead run =>
    if s.background run = .idle then s.backgroundReadMarkers run else s
  | .backgroundAnalyse run =>
    match s.background run with
    | .ready targetSha => s.setBackground run (.analysing targetSha s.clock)
    | _ => s
  | .backgroundFinish run report =>
    match s.background run with
    | .analysing targetSha since =>
      let s := s.setBackground run .idle
      if report.madeProgress then s.backgroundStamp targetSha since else s
    | _ => s
  | .backgroundInterrupted run => s.setBackground run .idle

def step (s : Workspace) (e : MarkerEvent) : Workspace :=
  { s.apply e with clock := s.clock + 1 }

/-- No edges were dropped since the analysis that began then. -/
def Saw (s : Workspace) (since : Nat) : Prop := ∀ d ∈ s.drops, d ≤ since

/-- What the markers promise: where they say that Phase B is complete for the indexed commit, the
run that stamped it saw every change. -/
def Honest (s : Workspace) : Prop :=
  s.cells.phaseBCommit.getD "" = s.cells.lastCommit.getD "" → s.cells.phaseBDirty ≠ some "1" →
    ∀ since ∈ s.stamper, s.Saw since

def Covered (s : Workspace) : Prop :=
  s.cells.phaseBDirty ≠ some "1" → ∀ since ∈ s.stamper, s.Saw since

/-- A run that is about to stamp saw every change, unless it is an init that finds the sequence
number moved and the flag still up. -/
def Covers (s : Workspace) : MarkerEvent → Prop
  | .initFinish report => ∀ dirtySeqBefore since, s.init = some (.analysing dirtySeqBefore since) →
      report.madeProgress = true → s.head.isSome = true →
        s.Saw since ∨ (s.cells.phaseBDirty = some "1" ∧ s.cells.dirtySeq ≠ dirtySeqBefore)
  | .backgroundFinish run report => ∀ targetSha since,
      s.background run = .analysing targetSha since → report.madeProgress = true → s.Saw since
  | _ => True

def Stamped (s : Workspace) : Prop := s.cells.phaseBCommit = none → s.stamper = none

theorem Covered.honest {s : Workspace} (h : s.Covered) : s.Honest := fun _ => h

/-- What `Covered` and `Stamped` depend on. -/
structure SameStamp (s t : Workspace) : Prop where
  phaseBCommit : t.cells.phaseBCommit = s.cells.phaseBCommit
  phaseBDirty : t.cells.phaseBDirty = s.cells.phaseBDirty
  stamper : t.stamper = s.stamper
  drops : t.drops = s.drops

namespace SameStamp

variable {s t u : Workspace}

theorem refl (s : Workspace) : SameStamp s s := ⟨rfl, rfl, rfl, rfl⟩

theorem covered (h : SameStamp s t) : t.Covered ↔ s.Covered := by
  unfold Covered Saw
  rw [h.phaseBDirty, h.stamper, h.drops]

theorem stamped (h : SameStamp s t) : t.Stamped ↔ s.Stamped := by
  unfold Stamped
  rw [h.phaseBCommit, h.stamper]

end SameStamp

theorem sameStamp_backgroundReadMarkers (s : Workspace) (run : Nat) :
    SameStamp s (s.backgroundReadMarkers run) := by
  simp only [backgroundReadMarkers]
  split_ifs <;> exact ⟨rfl, rfl, rfl, rfl⟩

theorem sameStamp_initReadMarkers (s : Workspace) (semantic : Bool) (warnings : String)
    (nowReady : String → Bool) : SameStamp s (s.initReadMarkers semantic warnings nowReady) := by
  unfold initReadMarkers
  split_ifs <;> exact ⟨rfl, rfl, rfl, rfl⟩

theorem covered_of_dirty {s : Workspace} (h : s.cells.phaseBDirty = some "1") : s.Covered :=
  fun hd => absurd h hd

theorem covered_reindex {s : Workspace} (h : s.Covered) (anyChanged callsChanged : Bool) :
    (s.apply (.reindex anyChanged callsChanged)).Covered := by
  simp only [apply, Markers.reindexed]
  cases anyChanged <;> cases callsChanged
  case true.true => exact covered_of_dirty rfl
  all_goals exact h

theorem covered_initParsed {s : Workspace} (hs : s.Stamped) (h : s.Covered)
    (purged callsChanged : Bool) : (s.initParsed purged callsChanged).Covered := by
  cases purged with
  | true =>
    have hnone : (s.initParsed true callsChanged).stamper = none := by
      cases callsChanged <;> rfl
    intro _ since hsince
    rw [hnone] at hsince
    cases hsince
  | false =>
    cases callsChanged with
    | false => exact h
    | true =>
      cases hc : s.cells.phaseBCommit with
      | none =>
        have hnone : (s.initParsed false true).stamper = none := by
          simpa [initParsed, hc, drop] using hs hc
        intro _ since hsince
        rw [hnone] at hsince
        cases hsince
      | some sha =>
        apply covered_of_dirty
        simp [initParsed, hc, drop]

theorem covered_backgroundFinish {s : Workspace} (h : s.Covered) (run : Nat)
    (report : PhaseBReport) :
    (s.apply (.backgroundFinish run report)).Covered ↔ s.Covers (.backgroundFinish run report) := by
  simp only [apply, Covers]
  cases hb : s.background run with
  | idle => exact iff_of_true h nofun
  | ready targetSha => exact iff_of_true h nofun
  | analysing targetSha since =>
    cases hp : report.madeProgress with
    | false => exact iff_of_true h nofun
    | true =>
      constructor
      · intro hcov target t ht _
        obtain ⟨rfl, rfl⟩ := BackgroundRun.analysing.inj ht
        exact hcov (by simp [backgroundStamp]) since rfl
      · intro hcov _ t ht
        obtain rfl : since = t := Option.some.inj ht
        exact hcov targetSha since rfl rfl

theorem covered_initStamp {s : Workspace} (sha : String) (dirtySeqBefore since : Nat) :
    (s.initStamp sha dirtySeqBefore since).Covered ↔
      s.Saw since ∨ (s.cells.phaseBDirty = some "1" ∧ s.cells.dirtySeq ≠ dirtySeqBefore) := by
  constructor
  · intro hcov
    by_cases hkept : s.cells.phaseBDirty = some "1" ∧ s.cells.dirtySeq ≠ dirtySeqBefore
    · exact .inr hkept
    · refine .inl (hcov ?_ since rfl)
      simp only [initStamp]
      split_ifs with hseq
      · simp
      · exact fun hdirty => hkept ⟨hdirty, hseq⟩
  · rintro (hsaw | ⟨hdirty, hseq⟩)
    · intro _ t ht
      obtain rfl : since = t := Option.some.inj ht
      exact hsaw
    · apply covered_of_dirty
      simp [initStamp, hseq, hdirty]

theorem covered_initFinish {s : Workspace} (h : s.Covered) (report : PhaseBReport) :
    (s.apply (.initFinish report)).Covered ↔ s.Covers (.initFinish report) := by
  simp only [apply, Covers]
  cases hi : s.init with
  | none => exact iff_of_true h nofun
  | some r =>
    cases r with
    | parsing => exact iff_of_true h nofun
    | ready runPhaseBInline dirtySeqBefore =>
      cases runPhaseBInline <;> exact iff_of_true h nofun
    | analysing dirtySeqBefore since =>
      cases hh : s.head with
      | none =>
        have hsame : SameStamp s (s.initFinishRun (.analysing dirtySeqBefore since) report) := by
          simp only [initFinishRun, hh]
          exact ⟨rfl, rfl, rfl, rfl⟩
        exact iff_of_true (hsame.covered.mpr h) fun _ _ _ _ hhead => by cases hhead
      | some sha =>
        cases hp : report.madeProgress with
        | false =>
          have hsame : SameStamp s (s.initFinishRun (.analysing dirtySeqBefore since) report) := by
            simp only [initFinishRun, hh, hp]
            exact ⟨rfl, rfl, rfl, rfl⟩
          exact iff_of_true (hsame.covered.mpr h) nofun
        | true =>
          have hstamp : (s.initFinishRun (.analysing dirtySeqBefore since) report).Covered ↔
              (s.stampLastCommit.initStamp sha dirtySeqBefore since).Covered := by
            simp only [initFinishRun, hh, hp]
            exact Iff.rfl
          rw [hstamp, covered_initStamp]
          constructor
          · intro hcov seq t ht _ _
            obtain ⟨rfl, rfl⟩ := InitRun.analysing.inj (Option.some.inj ht)
            exact hcov
          · exact fun hcov => hcov dirtySeqBefore since rfl rfl rfl

/-- Where the promise holds, one step keeps it exactly when the step covers what it stamps. -/
theorem covered_step {s : Workspace} (hs : s.Stamped) (h : s.Covered) (e : MarkerEvent) :
    (s.step e).Covered ↔ s.Covers e := by
  change (s.apply e).Covered ↔ s.Covers e
  have hsame : ∀ t, SameStamp s t → (t.Covered ↔ True) :=
    fun t ht => iff_of_true (ht.covered.mpr h) trivial
  cases e with
  | reindex anyChanged callsChanged => exact iff_of_true (covered_reindex h _ _) trivial
  | initFinish report => exact covered_initFinish h report
  | backgroundFinish run report => exact covered_backgroundFinish h run report
  | initParse purged callsChanged =>
    refine iff_of_true ?_ trivial
    simp only [apply]
    split_ifs
    · exact covered_initParsed hs h purged callsChanged
    · exact h
  | initRead semantic warnings nowReady =>
    simp only [apply]
    split_ifs
    · exact hsame _ (sameStamp_initReadMarkers s semantic warnings nowReady)
    · exact hsame _ (.refl s)
  | backgroundRead run =>
    simp only [apply]
    split_ifs
    · exact hsame _ (sameStamp_backgroundReadMarkers s run)
    · exact hsame _ (.refl s)
  | headReconciled =>
    simp only [apply]
    split_ifs <;> exact hsame _ ⟨rfl, rfl, rfl, rfl⟩
  | initLock =>
    simp only [apply]
    split_ifs <;> exact hsame _ ⟨rfl, rfl, rfl, rfl⟩
  | initAnalyse =>
    simp only [apply]
    split <;> exact hsame _ ⟨rfl, rfl, rfl, rfl⟩
  | backgroundAnalyse run =>
    simp only [apply]
    split <;> exact hsame _ ⟨rfl, rfl, rfl, rfl⟩
  | commit sha => exact hsame _ ⟨rfl, rfl, rfl, rfl⟩
  | initInterrupted => exact hsame _ ⟨rfl, rfl, rfl, rfl⟩
  | backgroundInterrupted run => exact hsame _ ⟨rfl, rfl, rfl, rfl⟩

theorem stamped_step {s : Workspace} (hs : s.Stamped) (e : MarkerEvent) : (s.step e).Stamped := by
  change (s.apply e).Stamped
  have hsame : ∀ t, SameStamp s t → t.Stamped := fun t ht => ht.stamped.mpr hs
  cases e with
  | reindex anyChanged callsChanged =>
    simp only [apply, Markers.reindexed]
    cases anyChanged <;> cases callsChanged <;> exact hs
  | initFinish report =>
    simp only [apply]
    split
    case h_2 => exact hs
    case h_1 r _ =>
      unfold initFinishRun
      split
      all_goals first | exact hs | skip
      split_ifs
      · exact nofun
      · exact hs
  | backgroundFinish run report =>
    simp only [apply]
    split
    · split_ifs
      · exact nofun
      · exact hs
    · exact hs
  | initParse purged callsChanged =>
    simp only [apply]
    split_ifs
    · cases purged with
      | true =>
        have hnone : (s.initParsed true callsChanged).stamper = none := by
          cases callsChanged <;> rfl
        exact fun _ => hnone
      | false =>
        cases callsChanged with
        | false => exact hs
        | true =>
          cases hc : s.cells.phaseBCommit <;> intro hcell <;>
            simp_all [initParsed, drop, Stamped]
    · exact hs
  | initRead semantic warnings nowReady =>
    simp only [apply]
    split_ifs
    · exact hsame _ (sameStamp_initReadMarkers s semantic warnings nowReady)
    · exact hs
  | backgroundRead run =>
    simp only [apply]
    split_ifs
    · exact hsame _ (sameStamp_backgroundReadMarkers s run)
    · exact hs
  | headReconciled =>
    simp only [apply]
    split_ifs <;> exact hs
  | initLock =>
    simp only [apply]
    split_ifs <;> exact hs
  | initAnalyse =>
    simp only [apply]
    split <;> exact hs
  | backgroundAnalyse run =>
    simp only [apply]
    split <;> exact hs
  | commit sha => exact hs
  | initInterrupted => exact hs
  | backgroundInterrupted run => exact hs

theorem covered_start : start.Covered := by
  intro _ since hsince
  cases hsince

theorem always_covered_iff (es : List MarkerEvent) :
    Runs.Always step Covered start es ↔ Runs.Every step Covers start es :=
  Runs.always_iff_every (P := fun _ _ => True) (fun _ e hs => stamped_step hs e)
    (fun _ e hs _ h => covered_step hs h e) (fun _ _ _ _ => trivial) (fun _ => rfl) covered_start

/-- The markers never claim a graph that lacks the edges of a reindex, in a run whose stamps cover
what they stamp. -/
theorem always_honest {es : List MarkerEvent} (h : Runs.Every step Covers start es) :
    Runs.Always step Honest start es :=
  fun pre post hes => ((always_covered_iff es).mpr h pre post hes).honest

/-- A run over the edits before it: the marker of its commit is stamped and true. -/
theorem always_honest_background :
    (Runs.run step start [.commit "c", .reindex true true, .backgroundRead 0, .backgroundAnalyse 0,
        .backgroundFinish 0 ⟨["rust"], []⟩]).cells = ⟨some "c", some "c", some "0", some 1⟩ ∧
      Runs.Always step Honest start [.commit "c", .reindex true true, .backgroundRead 0,
        .backgroundAnalyse 0, .backgroundFinish 0 ⟨["rust"], []⟩] := by
  refine ⟨by decide +kernel, always_honest ?_⟩
  simp only [Runs.every_cons]
  refine ⟨trivial, trivial, trivial, trivial, ?_, Runs.every_nil⟩
  intro targetSha since hrun _
  obtain ⟨_, rfl⟩ := BackgroundRun.analysing.inj
    (hrun.symm.trans (show _ = BackgroundRun.analysing "c" 3 by decide +kernel))
  show ∀ d ∈ [1], d ≤ 3
  decide

/-- A save during a background run: the run clears the flag that the save raised. -/
theorem save_during_background_run_is_lost : ¬ ∀ es, Runs.Always step Honest start es := by
  intro h
  have hend := h [.commit "c", .reindex true true, .backgroundRead 0, .backgroundAnalyse 0,
    .reindex true true, .backgroundFinish 0 ⟨["rust"], []⟩] _ [] (List.append_nil _).symm
  have hlate := hend (by decide +kernel) (by decide +kernel) 3 rfl 4 (by decide +kernel)
  omega

/-! ### Nothing weaker will do -/

def moveTo (sha : String) : List MarkerEvent := [.commit sha, .reindex true false]

theorem sameStamp_moveTo (s : Workspace) (sha : String) :
    SameStamp s (Runs.run step s (moveTo sha)) := ⟨rfl, rfl, rfl, rfl⟩

theorem covered_iff_moves (s : Workspace) :
    s.Covered ↔ ∀ sha, (Runs.run step s (moveTo sha)).Honest := by
  constructor
  · intro h sha
    exact ((sameStamp_moveTo s sha).covered.mpr h).honest
  · intro h
    have hback := h (s.cells.phaseBCommit.getD "") rfl
    exact hback

/-- A run keeps its markers honest under every move of HEAD exactly when its stamps cover what
they stamp. -/
theorem honest_moves_iff (es : List MarkerEvent) :
    (∀ pre post, es = pre ++ post → ∀ sha, (Runs.run step start (pre ++ moveTo sha)).Honest) ↔
      Runs.Every step Covers start es := by
  rw [← always_covered_iff]
  refine forall₃_congr fun pre post _ => ?_
  rw [covered_iff_moves]
  simp only [Runs.run, List.foldl_append]

/-! ### Inits alone cover what they stamp -/

def bumps (es : List MarkerEvent) : Nat := es.countP fun e => e matches .reindex true true

/-- After `n` bumps: an init whose analysis missed a drop has read an older number, and the flag
is up. -/
structure Counted (s : Workspace) (n : Nat) : Prop where
  seq : s.cells.dirtySeq = n % 2 ^ 64
  drops : ∀ d ∈ s.drops, d < s.clock
  ready : ∀ inline before, s.init = some (.ready inline before) → ∃ b ≤ n, before = b % 2 ^ 64
  analysing : ∀ before since, s.init = some (.analysing before since) → ∃ b ≤ n,
    before = b % 2 ^ 64 ∧ (¬ s.Saw since → b < n ∧ s.cells.phaseBDirty = some "1")

theorem Counted.of_same {s t : Workspace} {n : Nat} (h : s.Counted n) (hsame : SameStamp s t)
    (hseq : t.cells.phaseBDirtySeq = s.cells.phaseBDirtySeq) (hclock : t.clock = s.clock + 1)
    (hinit : t.init = s.init ∨ t.init = none ∨ t.init = some .parsing) : t.Counted n where
  seq := by
    unfold Markers.dirtySeq
    rw [hseq]
    exact h.seq
  drops d hd := by
    rw [hsame.drops] at hd
    have := h.drops d hd
    omega
  ready inline before hi := by
    rcases hinit with heq | heq | heq <;> rw [heq] at hi
    · exact h.ready inline before hi
    · cases hi
    · cases hi
  analysing before since hi := by
    rcases hinit with heq | heq | heq <;> rw [heq] at hi
    · unfold Saw
      rw [hsame.drops, hsame.phaseBDirty]
      exact h.analysing before since hi
    · cases hi
    · cases hi

theorem Counted.of_skip {s : Workspace} {n : Nat} {e : MarkerEvent} (h : s.Counted n)
    (heq : s.apply e = s) : (s.step e).Counted n := by
  rw [step, heq]
  exact h.of_same ⟨rfl, rfl, rfl, rfl⟩ rfl rfl (.inl rfl)

theorem Counted.of_no_init {s t : Workspace} {n : Nat} (h : s.Counted n)
    (hdrops : ∀ d ∈ t.drops, d ∈ s.drops ∨ d = s.clock) (hclock : t.clock = s.clock + 1)
    (hseq : t.cells.phaseBDirtySeq = s.cells.phaseBDirtySeq)
    (hinit : t.init = none ∨ t.init = some .parsing) : t.Counted n where
  seq := by
    unfold Markers.dirtySeq
    rw [hseq]
    exact h.seq
  drops d hd := by
    rcases hdrops d hd with hold | hnew
    · have := h.drops d hold
      omega
    · omega
  ready inline before hi := by rcases hinit with heq | heq <;> rw [heq] at hi <;> cases hi
  analysing before since hi := by rcases hinit with heq | heq <;> rw [heq] at hi <;> cases hi

theorem counted_reindex {s : Workspace} {n : Nat} (h : s.Counted n) :
    (s.step (.reindex true true)).Counted (n + 1) where
  seq := by
    show (s.cells.dirtySeq + 1) % 2 ^ 64 = (n + 1) % 2 ^ 64
    rw [h.seq]
    omega
  drops d hd := by
    show d < s.clock + 1
    rcases List.mem_append.mp hd with hold | hnew
    · have := h.drops d hold
      omega
    · rw [List.mem_singleton.mp hnew]
      exact Nat.lt_succ_self s.clock
  ready inline before hi := by
    obtain ⟨b, hb, heq⟩ := h.ready inline before hi
    exact ⟨b, by omega, heq⟩
  analysing before since hi := by
    obtain ⟨b, hb, heq, _⟩ := h.analysing before since hi
    exact ⟨b, by omega, heq, fun _ => ⟨by omega, rfl⟩⟩

theorem counted_initParse {s : Workspace} {n : Nat} (h : s.Counted n)
    (purged callsChanged : Bool) : (s.step (.initParse purged callsChanged)).Counted n := by
  by_cases hi : s.init = some .parsing
  case neg => exact h.of_skip (if_neg hi)
  have hap : s.apply (.initParse purged callsChanged) = s.initParsed purged callsChanged :=
    if_pos hi
  rw [step, hap]
  refine h.of_no_init (fun d hd => ?_) rfl (initParsed_seq s purged callsChanged)
    (.inr ((initParsed_init s purged callsChanged).trans hi))
  change d ∈ (s.initParsed purged callsChanged).drops at hd
  rw [initParsed_drops] at hd
  split_ifs at hd
  · rcases List.mem_append.mp hd with hold | hnew
    · exact .inl hold
    · exact .inr (List.mem_singleton.mp hnew)
  · exact .inl hd

theorem counted_initRead {s : Workspace} {n : Nat} (h : s.Counted n) (semantic : Bool)
    (warnings : String) (nowReady : String → Bool) :
    (s.step (.initRead semantic warnings nowReady)).Counted n := by
  by_cases hi : s.init = some .parsing
  case neg => exact h.of_skip (if_neg hi)
  have hap : s.apply (.initRead semantic warnings nowReady) =
      s.initReadMarkers semantic warnings nowReady := if_pos hi
  have hseq : (s.initReadMarkers semantic warnings nowReady).cells.phaseBDirtySeq =
      s.cells.phaseBDirtySeq := by
    unfold initReadMarkers
    split_ifs <;> rfl
  rw [step, hap]
  refine ⟨?_, fun d hd => Nat.lt_succ_of_lt (h.drops d hd), ?_, fun _ _ hr => ?_⟩
  · show Markers.dirtySeq (s.initReadMarkers semantic warnings nowReady).cells = _
    rw [Markers.dirtySeq, hseq]
    exact h.seq
  · intro inline before hr
    obtain ⟨_, rfl⟩ := InitRun.ready.inj (Option.some.inj hr)
    exact ⟨n, Nat.le_refl n, h.seq⟩
  · cases Option.some.inj hr

theorem counted_initAnalyse {s : Workspace} {n : Nat} (h : s.Counted n) :
    (s.step .initAnalyse).Counted n := by
  cases hi : s.init with
  | none => exact h.of_skip (by simp [apply, hi])
  | some r =>
    cases r with
    | parsing => exact h.of_skip (by simp [apply, hi])
    | analysing before since => exact h.of_skip (by simp [apply, hi])
    | ready inline before =>
      cases inline with
      | false => exact h.of_skip (by simp [apply, hi])
      | true =>
        have hap : s.apply .initAnalyse = { s with init := some (.analysing before s.clock) } := by
          simp [apply, hi]
        obtain ⟨b, hb, heq⟩ := h.ready true before hi
        simp only [step, hap]
        refine ⟨h.seq, fun d hd => Nat.lt_succ_of_lt (h.drops d hd), fun _ _ hr => ?_, ?_⟩
        · cases Option.some.inj hr
        · intro before' since hr
          obtain ⟨rfl, rfl⟩ := InitRun.analysing.inj (Option.some.inj hr)
          exact ⟨b, hb, heq, fun hmissed => absurd (fun d hd => Nat.le_of_lt (h.drops d hd)) hmissed⟩

theorem counted_initFinish {s : Workspace} {n : Nat} (h : s.Counted n) (report : PhaseBReport) :
    (s.step (.initFinish report)).Counted n := by
  have hcases : s.apply (.initFinish report) = s ∨ ((s.apply (.initFinish report)).init = none ∧
      (s.apply (.initFinish report)).drops = s.drops ∧
      (s.apply (.initFinish report)).cells.phaseBDirtySeq = s.cells.phaseBDirtySeq) := by
    simp only [apply]
    split
    case h_2 => exact .inl rfl
    case h_1 r _ =>
      unfold initFinishRun
      split
      case h_1 | h_2 => exact .inl rfl
      case h_3 | h_5 => exact .inr ⟨rfl, rfl, rfl⟩
      case h_4 => split_ifs <;> exact .inr ⟨rfl, rfl, rfl⟩
  rcases hcases with heq | ⟨hinit, hdrops, hseq⟩
  · exact h.of_skip heq
  · exact h.of_no_init (fun d hd => .inl (hdrops ▸ hd)) rfl hseq (.inl hinit)

theorem counted_step {s : Workspace} {n : Nat} (h : s.Counted n) {e : MarkerEvent}
    (he : ∀ run report, e ≠ .backgroundFinish run report) :
    (s.step e).Counted (n + bumps [e]) := by
  cases e with
  | reindex anyChanged callsChanged =>
    cases anyChanged <;> cases callsChanged
    case true.true => exact counted_reindex h
    all_goals exact h.of_same ⟨rfl, rfl, rfl, rfl⟩ rfl rfl (.inl rfl)
  | initParse purged callsChanged => exact counted_initParse h purged callsChanged
  | initRead semantic warnings nowReady => exact counted_initRead h semantic warnings nowReady
  | initAnalyse => exact counted_initAnalyse h
  | initFinish report => exact counted_initFinish h report
  | backgroundFinish run report => exact absurd rfl (he run report)
  | headReconciled =>
    refine h.of_same ⟨?_, ?_, ?_, ?_⟩ ?_ rfl (.inl ?_) <;> simp only [step, apply] <;>
      split_ifs <;> rfl
  | initLock =>
    by_cases hi : s.init.isSome = true
    · exact h.of_skip (if_pos hi)
    · refine h.of_no_init (fun d hd => .inl ?_) rfl ?_ (.inr ?_) <;>
        simp_all [step, apply]
  | initInterrupted => exact h.of_no_init (fun d hd => .inl hd) rfl rfl (.inl rfl)
  | backgroundRead run =>
    have hinit : ∀ t, t = s ∨ (∃ b, t = s.setBackground run b) →
        SameStamp s t ∧ t.cells.phaseBDirtySeq = s.cells.phaseBDirtySeq ∧ t.init = s.init := by
      rintro t (rfl | ⟨b, rfl⟩) <;> exact ⟨⟨rfl, rfl, rfl, rfl⟩, rfl, rfl⟩
    obtain ⟨hsame, hseq, hi⟩ := hinit (s.apply (.backgroundRead run)) (by
      simp only [apply, backgroundReadMarkers]
      split_ifs
      all_goals first | exact .inl rfl | exact .inr ⟨_, rfl⟩)
    exact h.of_same ⟨hsame.1, hsame.2, hsame.3, hsame.4⟩ hseq rfl (.inl hi)
  | backgroundAnalyse run =>
    refine h.of_same ⟨?_, ?_, ?_, ?_⟩ ?_ rfl (.inl ?_) <;> simp only [step, apply] <;> split <;> rfl
  | commit sha => exact h.of_same ⟨rfl, rfl, rfl, rfl⟩ rfl rfl (.inl rfl)
  | backgroundInterrupted run => exact h.of_same ⟨rfl, rfl, rfl, rfl⟩ rfl rfl (.inl rfl)

theorem counted_run {s : Workspace} {n : Nat} {es : List MarkerEvent} (h : s.Counted n)
    (he : ∀ run report, .backgroundFinish run report ∉ es) :
    (Runs.run step s es).Counted (n + bumps es) := by
  induction es generalizing s n with
  | nil => exact h
  | cons e es ih =>
    have hstep := counted_step h (e := e) fun run report heq => he run report (heq ▸ List.mem_cons_self)
    have hrest := ih hstep fun run report hmem => he run report (List.mem_cons_of_mem e hmem)
    have hsum : bumps (e :: es) = bumps [e] + bumps es := by
      rw [← List.singleton_append, bumps, List.countP_append]
      rfl
    rwa [hsum, ← Nat.add_assoc]

theorem counted_start : start.Counted 0 where
  seq := rfl
  drops d hd := by cases hd
  ready inline before hi := by cases hi
  analysing before since hi := by cases hi

end Workspace

end Travsr.Daemon
