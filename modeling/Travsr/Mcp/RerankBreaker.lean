import Travsr.Core.Text
import Travsr.Lib.BitWindow

namespace Travsr.Mcp

open Travsr.Core BitWindow

def BREAKER_TRIP_COUNT : Nat := 3
def BREAKER_WINDOW : Nat := 5
def BREAKER_WINDOW_MAX : Nat := 31
def BREAKER_PROBE_INTERVAL : Nat := 16

/-- The trip policy: so many over-budget calls of the last so many open the breaker. -/
structure BreakerLimits where
  trip : Nat
  window : Nat

namespace BreakerLimits

def mask (l : BreakerLimits) : BitVec 32 := BitWindow.mask 32 l.window

def resolve (windowRaw tripRaw : Option String) : BreakerLimits :=
  let parse := fun v : String => Text.parseUnsigned 32 (Text.trimChars v.toList)
  let window := ((windowRaw.bind parse).filter fun w => 0 < w && w ≤ BREAKER_WINDOW_MAX).getD
    BREAKER_WINDOW
  let trip := min (((tripRaw.bind parse).filter fun t => 0 < t).getD BREAKER_TRIP_COUNT) window
  ⟨trip, window⟩

/-- What a resolved policy keeps to. -/
structure Fits (l : BreakerLimits) : Prop where
  trip_pos : 0 < l.trip
  trip_le : l.trip ≤ l.window
  window_le : l.window ≤ BREAKER_WINDOW_MAX

theorem fits_resolve (windowRaw tripRaw : Option String) : (resolve windowRaw tripRaw).Fits := by
  have hbounds : ∀ (o : Option Nat) (p : Nat → Bool) (d : Nat), p d = true →
      p ((o.filter p).getD d) = true := by
    intro o p d hd
    cases o with
    | none => exact hd
    | some n =>
      cases hp : p n with
      | true => simp [Option.filter, hp]
      | false => simpa [Option.filter, hp] using hd
  have hwindow := hbounds (windowRaw.bind fun v => Text.parseUnsigned 32 (Text.trimChars v.toList))
    (fun w => 0 < w && w ≤ BREAKER_WINDOW_MAX) BREAKER_WINDOW rfl
  have htrip := hbounds (tripRaw.bind fun v => Text.parseUnsigned 32 (Text.trimChars v.toList))
    (fun t => 0 < t) BREAKER_TRIP_COUNT rfl
  simp only [Bool.and_eq_true, decide_eq_true_eq] at hwindow htrip
  refine ⟨?_, Nat.min_le_right _ _, hwindow.2⟩
  exact Nat.lt_min.mpr ⟨htrip, hwindow.1⟩

theorem Fits.window_lt {l : BreakerLimits} (h : l.Fits) : l.window < 32 := by
  have := h.window_le
  rw [BREAKER_WINDOW_MAX] at this
  omega

end BreakerLimits

structure Breaker where
  recentOverBudget : BitVec 32
  skippedSinceProbe : BitVec 32
  limits : BreakerLimits

namespace Breaker

def new (limits : BreakerLimits) : Breaker := ⟨0, 0, limits⟩

def isOpen (b : Breaker) : Bool :=
  b.limits.trip ≤ (b.recentOverBudget &&& b.limits.mask).cpop.toNat

/-- Whether the call skips inference, and the breaker after that was asked. -/
def shouldSkip (b : Breaker) : Bool × Breaker :=
  if !b.isOpen then (false, b)
  else
    let asked := { b with skippedSinceProbe := b.skippedSinceProbe + 1 }
    if BREAKER_PROBE_INTERVAL ≤ (b.skippedSinceProbe + 1).toNat then
      (false, { asked with skippedSinceProbe := 0 })
    else (true, asked)

def record (b : Breaker) (overBudget : Bool) : Breaker :=
  if !overBudget && b.isOpen then { b with recentOverBudget := 0, skippedSinceProbe := 0 }
  else
    { b with
      recentOverBudget :=
        (b.recentOverBudget <<< 1 ||| BitVec.ofNat 32 overBudget.toNat) &&& b.limits.mask }

/-- One call from its start to its end; nothing says how a call that is skipped would have gone. -/
def call (b : Breaker) (overBudget : Bool) : Breaker :=
  let (skip, asked) := b.shouldSkip
  if skip then asked else asked.record overBudget

theorem call_eq (b : Breaker) (overBudget : Bool) : b.call overBudget =
    if b.shouldSkip.1 then b.shouldSkip.2 else b.shouldSkip.2.record overBudget := rfl

end Breaker

/-! ### What the breaker's words hold -/

namespace Breaker

/-- The last `trip` of so many completed calls open the breaker. -/
def Trips (limits : BreakerLimits) (completed : List Bool) : Prop :=
  limits.trip ≤ (completed.take limits.window).count true

instance (limits : BreakerLimits) (completed : List Bool) : Decidable (Trips limits completed) :=
  inferInstanceAs (Decidable (_ ≤ _))

/-- The word holds the last calls of those completed since the breaker last closed, the newest
first, and the counter has not come to the interval. -/
structure Tracks (b : Breaker) (completed : List Bool) : Prop where
  fits : b.limits.Fits
  word : Shows b.recentOverBudget (completed.take b.limits.window)
  counter : b.skippedSinceProbe.toNat < BREAKER_PROBE_INTERVAL

theorem counter_zero : (0 : BitVec 32).toNat < BREAKER_PROBE_INTERVAL := by decide

theorem tracks_new {limits : BreakerLimits} (h : limits.Fits) : (new limits).Tracks [] :=
  ⟨h, by rw [List.take_nil]; exact shows_zero, counter_zero⟩

variable {b : Breaker} {completed : List Bool}

theorem Tracks.isOpen_iff (h : b.Tracks completed) :
    b.isOpen = true ↔ Trips b.limits completed := by
  have hlt := h.fits.window_lt
  have hmasked : Shows (b.recentOverBudget &&& b.limits.mask)
      (completed.take b.limits.window) := by
    intro i
    rw [BitVec.getLsbD_and, BreakerLimits.mask, getLsbD_mask hlt, h.word i,
      List.getD_eq_getElem?_getD, List.getElem?_take]
    split_ifs with hi <;> simp [hi]
  have hlen : (completed.take b.limits.window).length ≤ 32 := by
    rw [List.length_take]
    omega
  rw [isOpen, toNat_cpop hmasked hlen, decide_eq_true_eq]
  rfl

theorem Tracks.record (h : b.Tracks completed) (overBudget : Bool) :
    (b.record overBudget).Tracks
      (if overBudget = false ∧ b.isOpen = true then [] else overBudget :: completed) := by
  have hcond : (!overBudget && b.isOpen) = true ↔ overBudget = false ∧ b.isOpen = true := by
    simp
  rw [Breaker.record]
  by_cases hclose : overBudget = false ∧ b.isOpen = true
  · rw [if_pos (hcond.mpr hclose), if_pos hclose]
    exact ⟨h.fits, by rw [List.take_nil]; exact shows_zero, counter_zero⟩
  · rw [if_neg fun hc => hclose (hcond.mp hc), if_neg hclose]
    refine ⟨h.fits, ?_, h.counter⟩
    have hpush := shows_push h.word (h.fits.window_lt) overBudget
    rw [← List.take_succ_cons, List.take_take, Nat.min_eq_left (Nat.le_succ _)] at hpush
    exact hpush

theorem Tracks.asked (h : b.Tracks completed) : b.shouldSkip.2.Tracks completed := by
  rw [shouldSkip]
  split_ifs with hopen hprobe
  · exact h
  · exact ⟨h.fits, h.word, counter_zero⟩
  · exact ⟨h.fits, h.word, Nat.lt_of_not_le hprobe⟩

theorem isOpen_asked : b.shouldSkip.2.isOpen = b.isOpen := by
  rw [shouldSkip]
  split_ifs <;> rfl

theorem limits_asked : b.shouldSkip.2.limits = b.limits := by
  rw [shouldSkip]
  split_ifs <;> rfl

theorem isOpen_of_skip (h : b.shouldSkip.1 = true) : b.isOpen = true := by
  by_contra hopen
  rw [shouldSkip, if_pos (by simpa using hopen)] at h
  exact absurd h Bool.false_ne_true

theorem Tracks.counter_of_skip (h : b.Tracks completed) (hskip : b.shouldSkip.1 = true) :
    b.shouldSkip.2.skippedSinceProbe.toNat = b.skippedSinceProbe.toNat + 1 := by
  have hopen := isOpen_of_skip hskip
  have hcounter := h.counter
  rw [BREAKER_PROBE_INTERVAL] at hcounter
  have hnext : (b.skippedSinceProbe + 1).toNat = b.skippedSinceProbe.toNat + 1 := by
    have hone : (1 : BitVec 32).toNat = 1 := rfl
    rw [BitVec.toNat_add, hone]
    omega
  rw [shouldSkip] at hskip ⊢
  rw [if_neg (by simp [hopen])] at hskip ⊢
  by_cases hprobe : BREAKER_PROBE_INTERVAL ≤ (b.skippedSinceProbe + 1).toNat
  · rw [if_pos hprobe] at hskip
    exact absurd hskip Bool.false_ne_true
  · rw [if_neg hprobe]
    exact hnext

theorem Trips.push {limits : BreakerLimits} (h : Trips limits completed) (hfits : limits.Fits) :
    Trips limits (true :: completed) := by
  have hpos := Nat.lt_of_lt_of_le hfits.trip_pos hfits.trip_le
  obtain ⟨w, hw⟩ : ∃ w, limits.window = w + 1 := ⟨limits.window - 1, by omega⟩
  have hone : (completed[w]?.toList).count true ≤ 1 := by
    cases completed[w]? with
    | none => simp
    | some c => cases c <;> simp
  rw [Trips, hw, List.take_add_one, List.count_append] at h
  rw [Trips, hw, List.take_succ_cons, List.count_cons_self]
  omega

theorem not_trips_nil {limits : BreakerLimits} (hfits : limits.Fits) : ¬ Trips limits [] := by
  have := hfits.trip_pos
  simp only [Trips, List.take_nil, List.count_nil]
  omega

end Breaker

/-! ### Runs -/

section runs

open Breaker

variable (limits : BreakerLimits) (calls : Nat → Bool)

/-- The breaker before the `n`-th call; `calls n` says whether that call runs over budget if it is
not skipped. -/
def stateAt : Nat → Breaker
  | 0 => Breaker.new limits
  | n + 1 => (stateAt n).call (calls n)

def skipped (n : Nat) : Bool := (stateAt limits calls n).shouldSkip.1

/-- The `n`-th call finds the breaker open and leaves it closed. -/
def closes (n : Nat) : Bool :=
  (stateAt limits calls n).isOpen && !(stateAt limits calls (n + 1)).isOpen

/-- How the calls went that completed since the breaker last closed, the newest first. -/
def completed : Nat → List Bool
  | 0 => []
  | n + 1 =>
    if skipped limits calls n then completed n
    else if closes limits calls n then []
    else calls n :: completed n

/-- What holds of every run. -/
structure RunLaws : Prop where
  skip : ∀ n, skipped limits calls n = true →
    limits.trip ≤ ((completed limits calls n).take limits.window).count true
  probe : ∀ n, ∃ k < BREAKER_PROBE_INTERVAL, skipped limits calls (n + k) = false
  stays : ∀ n, (stateAt limits calls n).isOpen = true → skipped limits calls n = false →
    calls n = true → (stateAt limits calls (n + 1)).isOpen = true
  recovers : ∀ n, (stateAt limits calls n).isOpen = true → skipped limits calls n = false →
    calls n = false → (stateAt limits calls (n + 1)).isOpen = false
  afresh : ∀ n k, closes limits calls n = true → skipped limits calls (n + 1 + k) = true →
    limits.trip ≤ (List.range k).countP fun i => !skipped limits calls (n + 1 + i)

variable {limits calls}

theorem stateAt_skip {n : Nat} (h : skipped limits calls n = true) :
    stateAt limits calls (n + 1) = (stateAt limits calls n).shouldSkip.2 := by
  rw [stateAt, Breaker.call_eq]
  exact if_pos h

theorem stateAt_run {n : Nat} (h : skipped limits calls n = false) :
    stateAt limits calls (n + 1) = (stateAt limits calls n).shouldSkip.2.record (calls n) := by
  rw [skipped] at h
  rw [stateAt, Breaker.call_eq, h]
  exact if_neg Bool.false_ne_true

theorem limits_stateAt (n : Nat) : (stateAt limits calls n).limits = limits := by
  induction n with
  | zero => rfl
  | succ n ih =>
    cases hskip : skipped limits calls n with
    | true => rw [stateAt_skip hskip, limits_asked, ih]
    | false =>
      rw [stateAt_run hskip, Breaker.record]
      split_ifs <;> exact limits_asked.trans ih

theorem tracks_run {n : Nat} {done : List Bool} (h : (stateAt limits calls n).Tracks done)
    (hskip : skipped limits calls n = false) : (stateAt limits calls (n + 1)).Tracks
      (if calls n = false ∧ (stateAt limits calls n).isOpen = true then [] else calls n :: done) := by
  have hrecord := h.asked.record (calls n)
  rw [isOpen_asked] at hrecord
  rw [stateAt_run hskip]
  exact hrecord

theorem closes_iff {n : Nat} {done : List Bool} (h : (stateAt limits calls n).Tracks done)
    (hskip : skipped limits calls n = false) :
    closes limits calls n = true ↔ calls n = false ∧ (stateAt limits calls n).isOpen = true := by
  have hrun := tracks_run h hskip
  have hlimits : ∀ n, (stateAt limits calls n).limits = limits := limits_stateAt
  have hopen := h.isOpen_iff
  have hopen' := hrun.isOpen_iff
  rw [closes, Bool.and_eq_true, Bool.not_eq_true', ← Bool.not_eq_true, hopen']
  constructor
  · rintro ⟨hbefore, hafter⟩
    refine ⟨?_, hbefore⟩
    by_contra hover
    have hcall : calls n = true := by simpa using hover
    rw [if_neg (by simp [hcall]), hlimits, hcall] at hafter
    rw [hopen, hlimits] at hbefore
    have hfits := h.fits
    rw [hlimits] at hfits
    exact hafter (hbefore.push hfits)
  · rintro ⟨hcall, hbefore⟩
    refine ⟨hbefore, ?_⟩
    rw [if_pos ⟨hcall, hbefore⟩]
    exact not_trips_nil hrun.fits

theorem tracks_stateAt (hfits : limits.Fits) (n : Nat) :
    (stateAt limits calls n).Tracks (completed limits calls n) := by
  induction n with
  | zero => exact tracks_new hfits
  | succ n ih =>
    rw [completed]
    cases hskip : skipped limits calls n with
    | true =>
      rw [stateAt_skip hskip, if_pos rfl]
      exact ih.asked
    | false =>
      have hrun := tracks_run ih hskip
      have hcloses := closes_iff ih hskip
      rw [if_neg Bool.false_ne_true]
      by_cases hclose : calls n = false ∧ (stateAt limits calls n).isOpen = true
      · rw [if_pos hclose] at hrun
        rw [if_pos (hcloses.mpr hclose)]
        exact hrun
      · rw [if_neg hclose] at hrun
        rw [if_neg fun hc => hclose (hcloses.mp hc)]
        exact hrun

theorem trips_of_skip (hfits : limits.Fits) {n : Nat} (h : skipped limits calls n = true) :
    Trips limits (completed limits calls n) := by
  have hopen := (tracks_stateAt hfits n).isOpen_iff.mp (isOpen_of_skip h)
  rwa [limits_stateAt] at hopen

theorem counter_of_skips (hfits : limits.Fits) {n k : Nat}
    (h : ∀ i < k, skipped limits calls (n + i) = true) :
    (stateAt limits calls (n + k)).skippedSinceProbe.toNat =
      (stateAt limits calls n).skippedSinceProbe.toNat + k := by
  induction k with
  | zero => rfl
  | succ k ih =>
    have hskip := h k (Nat.lt_succ_self k)
    have hbefore := ih fun i hi => h i (Nat.lt_succ_of_lt hi)
    have hstep := (tracks_stateAt hfits (n + k)).counter_of_skip hskip
    rw [← Nat.add_assoc, stateAt_skip hskip, hstep, hbefore]
    omega

theorem length_completed_le {n : Nat} (hclose : completed limits calls (n + 1) = []) (k : Nat) :
    (completed limits calls (n + 1 + k)).length ≤
      (List.range k).countP fun i => !skipped limits calls (n + 1 + i) := by
  induction k with
  | zero => simp [hclose]
  | succ k ih =>
    rw [← Nat.add_assoc, completed, List.range_succ, List.countP_append, List.countP_singleton]
    cases hskip : skipped limits calls (n + 1 + k) with
    | true => simpa using ih
    | false =>
      simp only [Bool.false_eq_true, if_false, Bool.not_false, if_true]
      split_ifs
      · simp
      · simpa using ih

theorem run_laws (windowRaw tripRaw : Option String) (calls : Nat → Bool) :
    RunLaws (BreakerLimits.resolve windowRaw tripRaw) calls := by
  have hfits := BreakerLimits.fits_resolve windowRaw tripRaw
  generalize BreakerLimits.resolve windowRaw tripRaw = limits at hfits
  have htracks : ∀ n, (stateAt limits calls n).Tracks (completed limits calls n) :=
    tracks_stateAt hfits
  refine ⟨fun n hskip => trips_of_skip hfits hskip, fun n => ?_, fun n hopen hskip hcall => ?_,
    fun n hopen hskip hcall => ?_, fun n k hclose hskip => ?_⟩
  · by_contra hall
    have hskips : ∀ i < BREAKER_PROBE_INTERVAL, skipped limits calls (n + i) = true := by
      intro i hi
      by_contra hrun
      exact hall ⟨i, hi, by simpa using hrun⟩
    have hcount := counter_of_skips hfits hskips
    have hlt := (htracks (n + BREAKER_PROBE_INTERVAL)).counter
    omega
  · by_contra hclosed
    have hclose : closes limits calls n = true := by
      rw [closes, hopen]
      simpa using hclosed
    have := ((closes_iff (htracks n) hskip).mp hclose).1
    rw [hcall] at this
    exact absurd this (by decide)
  · have hclose := (closes_iff (htracks n) hskip).mpr ⟨hcall, hopen⟩
    rw [closes, Bool.and_eq_true, Bool.not_eq_true'] at hclose
    exact hclose.2
  · have hrun : skipped limits calls n = false := by
      by_contra hskipped
      have hskipped : skipped limits calls n = true := by simpa using hskipped
      rw [closes, stateAt_skip hskipped, isOpen_asked] at hclose
      simp at hclose
    have hnil : completed limits calls (n + 1) = [] := by
      rw [completed, hrun, hclose]
      rfl
    have htrips := trips_of_skip hfits hskip
    rw [Trips] at htrips
    have hcount : ((completed limits calls (n + 1 + k)).take limits.window).count true ≤
        (completed limits calls (n + 1 + k)).length :=
      Nat.le_trans List.count_le_length (List.length_take_le' _ _)
    exact Nat.le_trans htrips (Nat.le_trans hcount (length_completed_le hnil k))

end runs

end Travsr.Mcp
