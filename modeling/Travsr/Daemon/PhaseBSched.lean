import Mathlib.Algebra.Group.Nat.Defs
import Mathlib.Data.List.Basic

namespace Travsr.Daemon

/-- Outcome of a background Phase B run. -/
inductive RunOutcome where
  | success
  | partialCrash
  | allCrashed
  deriving DecidableEq

/-- Pending-run state; instants and durations count nanoseconds. -/
structure DirtyState where
  deadline : Nat
  firstArm : Nat
  deriving DecidableEq

structure PhaseBScheduler where
  dirty : Option DirtyState
  running : Bool
  debounce : Nat
  maxDefer : Nat
  consecutiveFailures : Nat
  consecutivePartials : Nat
  backoffUntil : Option Nat
  deriving DecidableEq

namespace PhaseBScheduler

def MAX_FAILURES : Nat := 3

def SECOND : Nat := 1000000000

def PARTIAL_BACKOFF_BASE : Nat := 60 * SECOND

def PARTIAL_BACKOFF_CAP : Nat := 900 * SECOND

def withMaxDefer (debounce maxDefer : Nat) : PhaseBScheduler :=
  ⟨none, false, debounce, maxDefer, 0, 0, none⟩

/-- Arm (or re-arm) a re-run for `debounce` from now. -/
def markDirty (s : PhaseBScheduler) (now : Nat) : PhaseBScheduler :=
  match s.dirty with
  | some st => { s with dirty := some { st with deadline := now + s.debounce } }
  | none => { s with dirty := some ⟨now + s.debounce, now⟩ }

def armImmediate (s : PhaseBScheduler) (now : Nat) : PhaseBScheduler :=
  if s.dirty.isNone then { s with dirty := some ⟨now, now⟩ } else s

/-- A mark is pending and past its deadline or past the ceiling of its window. -/
def isDue (s : PhaseBScheduler) (now : Nat) : Bool :=
  match s.dirty with
  | some st => st.deadline ≤ now || s.maxDefer ≤ now - st.firstArm
  | none => false

/-- If a run is due and none is in flight, claim the run slot and consume the pending mark. -/
def tryClaimAt (s : PhaseBScheduler) (now : Nat) : Bool × PhaseBScheduler :=
  if MAX_FAILURES ≤ s.consecutiveFailures then (false, s)
  else if s.backoffUntil.any fun u => now < u then (false, s)
  else if !s.isDue now then (false, s)
  else if s.running then (false, s)
  else (true, { s with running := true, dirty := none })

/-- The delay after a partial run that `n` partial runs came before. -/
def partialDelay (n : Nat) : Nat := min (PARTIAL_BACKOFF_BASE * 2 ^ min n 31) PARTIAL_BACKOFF_CAP

/-- Release the slot and record the run's outcome. The counters are `u32`s. -/
def finishWithOutcomeAt (s : PhaseBScheduler) (outcome : RunOutcome) (now : Nat) :
    PhaseBScheduler :=
  match outcome with
  | .success =>
    { s with
      consecutiveFailures := 0
      consecutivePartials := 0
      backoffUntil := none
      running := false }
  | .partialCrash =>
    { s with
      consecutiveFailures := 0
      consecutivePartials := (s.consecutivePartials + 1) % 2 ^ 32
      backoffUntil := some (now + partialDelay s.consecutivePartials)
      running := false }
  | .allCrashed =>
    { s with consecutiveFailures := (s.consecutiveFailures + 1) % 2 ^ 32, running := false }

def isPending (s : PhaseBScheduler) : Bool := s.dirty.isSome

end PhaseBScheduler

/-- A call with the clock it reads, and for a claim whether it was granted. -/
inductive SchedEvent where
  | marked (now : Nat)
  | armed (now : Nat)
  | claimed (now : Nat) (granted : Bool)
  | finished (outcome : RunOutcome) (now : Nat)
  deriving DecidableEq

namespace SchedEvent

def now : SchedEvent → Nat
  | .marked t | .armed t | .claimed t _ | .finished _ t => t

def isGrant : SchedEvent → Bool
  | .claimed _ granted => granted
  | _ => false

def isFinish : SchedEvent → Bool
  | .finished _ _ => true
  | _ => false

def isMark : SchedEvent → Bool
  | .marked _ | .armed _ => true
  | _ => false

end SchedEvent

abbrev SchedHistory := List SchedEvent

namespace SchedHistory

def outstanding (h : SchedHistory) : Nat :=
  h.countP SchedEvent.isGrant - h.countP SchedEvent.isFinish

def clock (h : SchedHistory) : Nat := (h.head?.map SchedEvent.now).getD 0

def pendingMarks : SchedHistory → List SchedEvent
  | [] => []
  | .claimed _ true :: _ => []
  | .marked t :: h => .marked t :: pendingMarks h
  | .armed t :: h => .armed t :: pendingMarks h
  | _ :: h => pendingMarks h

def crashes : SchedHistory → Nat
  | [] => 0
  | .finished .allCrashed _ :: h => crashes h + 1
  | .finished _ _ :: _ => 0
  | _ :: h => crashes h

/-- When the partial runs since the last clean one ended, the last one first. -/
def partials : SchedHistory → List Nat
  | [] => []
  | .finished .success _ :: _ => []
  | .finished .partialCrash t :: h => t :: partials h
  | _ :: h => partials h

end SchedHistory

open SchedHistory PhaseBScheduler

def backoffEnd : List Nat → Option Nat
  | [] => none
  | t :: ts => some (t + partialDelay (ts.length % 2 ^ 32))

def windowOpened (marks : List SchedEvent) : Option Nat := marks.getLast?.map SchedEvent.now

/-- The debounce deadline: `debounce` after the last commit in the window; without a commit, the
moment the window was opened for an immediate run. -/
def windowDeadline (debounce : Nat) (marks : List SchedEvent) : Option Nat :=
  match marks.findSome? fun e => match e with | .marked t => some t | _ => none with
  | some t => some (t + debounce)
  | none => windowOpened marks

/-- Every interleaving of the calls in which the clock does not go back and only a granted claim
that is still out is finished. -/
inductive SchedTrace (debounce maxDefer : Nat) : SchedHistory → PhaseBScheduler → Prop where
  | start : SchedTrace debounce maxDefer [] (withMaxDefer debounce maxDefer)
  | mark {h s} (now : Nat) : SchedTrace debounce maxDefer h s → clock h ≤ now →
      SchedTrace debounce maxDefer (.marked now :: h) (s.markDirty now)
  | arm {h s} (now : Nat) : SchedTrace debounce maxDefer h s → clock h ≤ now →
      SchedTrace debounce maxDefer (.armed now :: h) (s.armImmediate now)
  | claim {h s} (now : Nat) : SchedTrace debounce maxDefer h s → clock h ≤ now →
      SchedTrace debounce maxDefer (.claimed now (s.tryClaimAt now).1 :: h) (s.tryClaimAt now).2
  | finish {h s} (outcome : RunOutcome) (now : Nat) : SchedTrace debounce maxDefer h s →
      clock h ≤ now → 0 < outstanding h →
      SchedTrace debounce maxDefer (.finished outcome now :: h) (s.finishWithOutcomeAt outcome now)

/-- The state tells of the history what the scheduler is about. -/
structure Tracks (debounce maxDefer : Nat) (h : SchedHistory) (s : PhaseBScheduler) : Prop where
  debounce_eq : s.debounce = debounce
  maxDefer_eq : s.maxDefer = maxDefer
  grants_eq : h.countP SchedEvent.isGrant = h.countP SchedEvent.isFinish + s.running.toNat
  dirty_eq : s.dirty = (windowDeadline debounce (pendingMarks h)).bind fun d =>
    (windowOpened (pendingMarks h)).map fun a => ⟨d, a⟩
  failures_eq : s.consecutiveFailures = crashes h
  failures_le : crashes h + s.running.toNat ≤ MAX_FAILURES
  partials_eq : s.consecutivePartials = (partials h).length % 2 ^ 32
  backoff_eq : s.backoffUntil = backoffEnd (partials h)

variable {debounce maxDefer : Nat} {h : SchedHistory} {s : PhaseBScheduler}

theorem tracks_start : Tracks debounce maxDefer [] (withMaxDefer debounce maxDefer) :=
  ⟨rfl, rfl, rfl, rfl, rfl, Nat.zero_le _, rfl, rfl⟩

theorem windowOpened_cons (e : SchedEvent) (ms : List SchedEvent) :
    windowOpened (e :: ms) = some ((windowOpened ms).getD e.now) := by
  rw [windowOpened, windowOpened, List.getLast?_cons]
  cases ms.getLast? <;> rfl

theorem windowDeadline_marked (t : Nat) (ms : List SchedEvent) :
    windowDeadline debounce (.marked t :: ms) = some (t + debounce) := rfl

theorem windowDeadline_armed {t : Nat} {ms : List SchedEvent} (hms : ms ≠ []) :
    windowDeadline debounce (.armed t :: ms) = windowDeadline debounce ms := by
  have hopen : windowOpened (.armed t :: ms) = windowOpened ms := by
    obtain ⟨x, xs, rfl⟩ := List.exists_cons_of_ne_nil hms
    rw [windowOpened, windowOpened, List.getLast?_cons_cons]
  rw [windowDeadline, windowDeadline, hopen]
  rfl

theorem windowOpened_eq_none {ms : List SchedEvent} : windowOpened ms = none ↔ ms = [] := by
  rw [windowOpened, Option.map_eq_none_iff, List.getLast?_eq_none_iff]

theorem windowDeadline_eq_none {ms : List SchedEvent} :
    windowDeadline debounce ms = none ↔ ms = [] := by
  cases ms with
  | nil => exact ⟨fun _ => rfl, fun _ => rfl⟩
  | cons e ms =>
    rw [windowDeadline]
    constructor
    · intro hn
      split at hn
      · cases hn
      · exact windowOpened_eq_none.mp hn
    · intro hn
      cases hn

theorem Tracks.dirty_isSome (ht : Tracks debounce maxDefer h s) :
    s.dirty.isSome = true ↔ pendingMarks h ≠ [] := by
  rw [ht.dirty_eq]
  by_cases hm : pendingMarks h = []
  · rw [hm]
    simp [windowDeadline, windowOpened]
  · have hne : windowDeadline debounce (pendingMarks h) ≠ none :=
      fun hn => hm (windowDeadline_eq_none.mp hn)
    obtain ⟨d, hd⟩ := Option.ne_none_iff_exists'.mp hne
    obtain ⟨a, ha⟩ := Option.ne_none_iff_exists'.mp fun hn => hm (windowOpened_eq_none.mp hn)
    simp [hd, ha, hm]

theorem tracks_mark (ht : Tracks debounce maxDefer h s) (now : Nat) :
    Tracks debounce maxDefer (.marked now :: h) (s.markDirty now) := by
  have hdirty : (s.markDirty now).dirty =
      some ⟨now + debounce, (windowOpened (pendingMarks h)).getD now⟩ := by
    have hd := ht.dirty_eq
    cases hs : s.dirty with
    | none =>
      have hm : pendingMarks h = [] := by
        have hiff := ht.dirty_isSome
        rw [hs] at hiff
        by_contra hne
        exact absurd (hiff.mpr hne) (by simp)
      rw [markDirty, hs, hm, ht.debounce_eq]
      rfl
    | some st =>
      rw [hs] at hd
      obtain ⟨d, _, hmap⟩ := Option.bind_eq_some_iff.mp hd.symm
      obtain ⟨a, ha, hst⟩ := Option.map_eq_some_iff.mp hmap
      rw [markDirty, hs, ha, ht.debounce_eq, ← hst]
      rfl
  have hframe : (s.markDirty now).debounce = s.debounce ∧ (s.markDirty now).maxDefer = s.maxDefer ∧
      (s.markDirty now).running = s.running ∧
      (s.markDirty now).consecutiveFailures = s.consecutiveFailures ∧
      (s.markDirty now).consecutivePartials = s.consecutivePartials ∧
      (s.markDirty now).backoffUntil = s.backoffUntil := by
    rw [markDirty]
    cases s.dirty <;> exact ⟨rfl, rfl, rfl, rfl, rfl, rfl⟩
  obtain ⟨h1, h2, h3, h4, h5, h6⟩ := hframe
  refine ⟨h1.trans ht.debounce_eq, h2.trans ht.maxDefer_eq, ?_, ?_, h4.trans ht.failures_eq, ?_,
    h5.trans ht.partials_eq, h6.trans ht.backoff_eq⟩
  · rw [h3]
    exact ht.grants_eq
  · rw [hdirty, pendingMarks, windowDeadline_marked, windowOpened_cons]
    rfl
  · rw [h3]
    exact ht.failures_le

theorem tracks_arm (ht : Tracks debounce maxDefer h s) (now : Nat) :
    Tracks debounce maxDefer (.armed now :: h) (s.armImmediate now) := by
  rw [armImmediate]
  cases hs : s.dirty with
  | none =>
    have hm : pendingMarks h = [] := by
      by_contra hne
      have := ht.dirty_isSome.mpr hne
      rw [hs] at this
      cases this
    refine ⟨ht.debounce_eq, ht.maxDefer_eq, ht.grants_eq, ?_, ht.failures_eq, ht.failures_le,
      ht.partials_eq, ht.backoff_eq⟩
    rw [pendingMarks, hm]
    rfl
  | some st =>
    have hm : pendingMarks h ≠ [] := ht.dirty_isSome.mp (by rw [hs]; rfl)
    refine ⟨ht.debounce_eq, ht.maxDefer_eq, ht.grants_eq, ?_, ht.failures_eq, ht.failures_le,
      ht.partials_eq, ht.backoff_eq⟩
    have hopened : windowOpened (.armed now :: pendingMarks h) = windowOpened (pendingMarks h) := by
      obtain ⟨a, ha⟩ := Option.ne_none_iff_exists'.mp fun hn => hm (windowOpened_eq_none.mp hn)
      rw [windowOpened_cons, ha]
      rfl
    rw [pendingMarks, windowDeadline_armed hm, hopened]
    exact ht.dirty_eq

theorem tryClaimAt_fst (s : PhaseBScheduler) (now : Nat) :
    (s.tryClaimAt now).1 = true ↔ s.consecutiveFailures < MAX_FAILURES ∧
      (∀ u ∈ s.backoffUntil, u ≤ now) ∧ s.isDue now = true ∧ s.running = false := by
  have hback : (s.backoffUntil.any fun u => decide (now < u)) = true ↔
      ¬ ∀ u ∈ s.backoffUntil, u ≤ now := by
    cases s.backoffUntil <;> simp
  rw [tryClaimAt]
  split_ifs with h1 h2 h3 h4
  · simp only [false_iff]
    intro h
    omega
  · simp only [false_iff]
    exact fun h => hback.mp h2 h.2.1
  · simp only [false_iff]
    intro h
    rw [h.2.2.1] at h3
    cases h3
  · simp [h4]
  · have hu : ∀ u ∈ s.backoffUntil, u ≤ now := by
      by_contra hn
      exact h2 (hback.mpr hn)
    simp only [true_iff]
    exact ⟨by omega, hu, by simpa using h3, by simpa using h4⟩

theorem tryClaimAt_snd (s : PhaseBScheduler) (now : Nat) :
    (s.tryClaimAt now).2 =
      if (s.tryClaimAt now).1 then { s with running := true, dirty := none } else s := by
  rw [tryClaimAt]
  split_ifs <;> simp_all

theorem tracks_claim (ht : Tracks debounce maxDefer h s) (now : Nat) :
    Tracks debounce maxDefer (.claimed now (s.tryClaimAt now).1 :: h) (s.tryClaimAt now).2 := by
  rw [tryClaimAt_snd]
  cases hg : (s.tryClaimAt now).1 with
  | false =>
    exact ⟨ht.debounce_eq, ht.maxDefer_eq, ht.grants_eq, ht.dirty_eq, ht.failures_eq,
      ht.failures_le, ht.partials_eq, ht.backoff_eq⟩
  | true =>
    obtain ⟨hf, _, _, hr⟩ := (tryClaimAt_fst s now).mp hg
    refine ⟨ht.debounce_eq, ht.maxDefer_eq, ?_, rfl, ht.failures_eq, ?_, ht.partials_eq,
      ht.backoff_eq⟩
    · have hg := ht.grants_eq
      rw [hr] at hg
      rw [List.countP_cons_of_pos rfl, List.countP_cons_of_neg (by simp [SchedEvent.isFinish]), hg]
      rfl
    · have hc := ht.failures_eq
      change crashes h + 1 ≤ MAX_FAILURES
      omega

theorem running_of_outstanding (ht : Tracks debounce maxDefer h s) :
    0 < outstanding h ↔ s.running = true := by
  have hg := ht.grants_eq
  rw [outstanding]
  cases hr : s.running
  · rw [hr] at hg
    simp only [Bool.toNat_false] at hg
    constructor
    · intro h
      omega
    · intro h
      cases h
  · rw [hr] at hg
    simp only [Bool.toNat_true] at hg
    exact ⟨fun _ => rfl, fun _ => by omega⟩

theorem tracks_finish (ht : Tracks debounce maxDefer h s) (hout : 0 < outstanding h)
    (outcome : RunOutcome) (now : Nat) :
    Tracks debounce maxDefer (.finished outcome now :: h) (s.finishWithOutcomeAt outcome now) := by
  have hr := (running_of_outstanding ht).mp hout
  have hg := ht.grants_eq
  have hle := ht.failures_le
  rw [hr] at hg hle
  have hgrants : (SchedEvent.finished outcome now :: h).countP SchedEvent.isGrant =
      (SchedEvent.finished outcome now :: h).countP SchedEvent.isFinish + false.toNat := by
    rw [List.countP_cons_of_neg (by simp [SchedEvent.isGrant]), List.countP_cons_of_pos rfl, hg]
    rfl
  cases outcome with
  | success =>
    exact ⟨ht.debounce_eq, ht.maxDefer_eq, hgrants, ht.dirty_eq, rfl, Nat.zero_le _, rfl, rfl⟩
  | partialCrash =>
    refine ⟨ht.debounce_eq, ht.maxDefer_eq, hgrants, ht.dirty_eq, rfl, Nat.zero_le _, ?_, ?_⟩
    · simp only [finishWithOutcomeAt, SchedHistory.partials, List.length_cons, ht.partials_eq]
      omega
    · simp only [finishWithOutcomeAt, SchedHistory.partials, backoffEnd, ht.partials_eq]
  | allCrashed =>
    refine ⟨ht.debounce_eq, ht.maxDefer_eq, hgrants, ht.dirty_eq, ?_, ?_, ht.partials_eq,
      ht.backoff_eq⟩
    · simp only [finishWithOutcomeAt, crashes, ht.failures_eq]
      simp only [MAX_FAILURES, Bool.toNat_true] at hle
      omega
    · simp only [finishWithOutcomeAt, crashes, Bool.toNat_false]
      simp only [Bool.toNat_true] at hle
      omega

theorem SchedTrace.tracks (hs : SchedTrace debounce maxDefer h s) :
    Tracks debounce maxDefer h s := by
  induction hs with
  | start => exact tracks_start
  | mark now _ _ ih => exact tracks_mark ih now
  | arm now _ _ ih => exact tracks_arm ih now
  | claim now _ _ ih => exact tracks_claim ih now
  | finish outcome now _ _ hout ih => exact tracks_finish ih hout outcome now

theorem SchedTrace.now_le_clock (hs : SchedTrace debounce maxDefer h s) :
    ∀ e ∈ h, e.now ≤ clock h := by
  have hcons : ∀ {h : SchedHistory} {e : SchedEvent}, (∀ x ∈ h, x.now ≤ clock h) →
      clock h ≤ e.now → ∀ x ∈ e :: h, x.now ≤ clock (e :: h) := by
    intro h e ih hle x hx
    rcases List.mem_cons.mp hx with rfl | hx
    · exact Nat.le_refl x.now
    · exact Nat.le_trans (ih x hx) hle
  induction hs with
  | start => exact fun e he => by cases he
  | mark now _ hle ih => exact hcons ih hle
  | arm now _ hle ih => exact hcons ih hle
  | claim now _ hle ih => exact hcons ih hle
  | finish outcome now _ hle _ ih => exact hcons ih hle

theorem mem_of_mem_pendingMarks {e : SchedEvent} (he : e ∈ pendingMarks h) : e ∈ h := by
  fun_induction pendingMarks h with
  | case1 => exact he
  | case2 => cases he
  | case3 t h ih =>
    rcases List.mem_cons.mp he with rfl | he
    · exact List.mem_cons_self
    · exact List.mem_cons_of_mem _ (ih he)
  | case4 t h ih =>
    rcases List.mem_cons.mp he with rfl | he
    · exact List.mem_cons_self
    · exact List.mem_cons_of_mem _ (ih he)
  | case5 x h _ _ _ ih => exact List.mem_cons_of_mem _ (ih he)

theorem SchedTrace.windowOpened_le (hs : SchedTrace debounce maxDefer h s) {a : Nat}
    (ha : a ∈ windowOpened (pendingMarks h)) : a ≤ clock h := by
  obtain ⟨e, he, rfl⟩ := Option.map_eq_some_iff.mp ha
  exact hs.now_le_clock e (mem_of_mem_pendingMarks (List.mem_of_getLast? he))

/-- The window of pending marks is over, by its debounce or by its ceiling. -/
def WindowOver (debounce maxDefer : Nat) (marks : List SchedEvent) (now : Nat) : Prop :=
  (∃ d ∈ windowDeadline debounce marks, d ≤ now) ∨ ∃ a ∈ windowOpened marks, a + maxDefer ≤ now

theorem SchedTrace.isDue_iff (hs : SchedTrace debounce maxDefer h s) {now : Nat}
    (hnow : clock h ≤ now) :
    s.isDue now = true ↔ WindowOver debounce maxDefer (pendingMarks h) now := by
  have ht := hs.tracks
  have hd := ht.dirty_eq
  rw [isDue, hd, WindowOver]
  cases hdl : windowDeadline debounce (pendingMarks h) with
  | none =>
    have hm := windowDeadline_eq_none.mp hdl
    simp [hm, windowOpened]
  | some d =>
    cases ha : windowOpened (pendingMarks h) with
    | none =>
      rw [windowOpened_eq_none.mp ha] at hdl
      cases hdl
    | some a =>
      have hle : a ≤ now := Nat.le_trans (hs.windowOpened_le ha) hnow
      simp only [Option.bind_some, Option.map_some, Bool.or_eq_true, decide_eq_true_eq,
        Option.mem_some_iff, exists_eq_left', ht.maxDefer_eq]
      omega

theorem mem_pendingMarks {later earlier : SchedHistory} {e : SchedEvent} (he : e.isMark = true)
    (hl : ∀ x ∈ later, x.isGrant = false) : e ∈ pendingMarks (later ++ e :: earlier) := by
  induction later with
  | nil =>
    cases e with
    | marked t => exact List.mem_cons_self
    | armed t => exact List.mem_cons_self
    | claimed t g => cases he
    | finished o t => cases he
  | cons x later ih =>
    have hrest := ih fun y hy => hl y (List.mem_cons_of_mem x hy)
    cases x with
    | marked t => exact List.mem_cons_of_mem _ hrest
    | armed t => exact List.mem_cons_of_mem _ hrest
    | claimed t g =>
      have hg : g = false := hl _ List.mem_cons_self
      rw [hg]
      exact hrest
    | finished o t => exact hrest

/-- What the scheduler guarantees at a point of a run. -/
structure SchedLaw (debounce maxDefer : Nat) (h : SchedHistory) (s : PhaseBScheduler) : Prop where
  single : outstanding h ≤ 1
  granted_iff : ∀ now, clock h ≤ now → ((s.tryClaimAt now).1 = true ↔
    pendingMarks h ≠ [] ∧ outstanding h = 0 ∧ crashes h < MAX_FAILURES ∧
      (∀ u ∈ backoffEnd (partials h), u ≤ now) ∧
        WindowOver debounce maxDefer (pendingMarks h) now)
  pending : ∀ later e earlier, h = later ++ e :: earlier → e.isMark = true →
    (∀ x ∈ later, x.isGrant = false) → s.isPending = true
  backoff_le : ∀ now, ∃ u, (s.finishWithOutcomeAt .partialCrash now).backoffUntil = some u ∧
    u ≤ now + PARTIAL_BACKOFF_CAP
  failures_eq : s.consecutiveFailures = crashes h
  partial_failures : ∀ now, (s.finishWithOutcomeAt .partialCrash now).consecutiveFailures = 0

end Travsr.Daemon
