import Mathlib.Data.List.DropRight
import Travsr.Lib.Runs
import Travsr.Guard.Session

open Travsr.Core.Text

namespace Travsr.Guard

inductive Op where
  | recordQuery (session term : String)
  | release (session : Option String) (term : String)

structure Call where
  clock : Clock
  op : Op

/-- The state file and the pairs answered with a denial so far, the last one first. -/
structure Valve where
  file : Option StateFile
  denials : List (String × String)

def step (v : Valve) (c : Call) : Valve :=
  match c.op with
  | .recordQuery session term => { v with file := recordQuery c.clock v.file session term }
  | .release session term =>
    let r := release c.clock v.file session term
    ⟨r.2, if r.1 then v.denials else (session.getD "", normalise term) :: v.denials⟩

def Call.pair (c : Call) : Option (String × String) :=
  let pair := match c.op with
    | .recordQuery session term => (session, normalise term)
    | .release session term => (session.getD "", normalise term)
  if pair.1 = "" ∨ pair.2 = "" then none else some pair

def Call.isRelease (c : Call) : Bool :=
  match c.op with
  | .recordQuery _ _ => false
  | .release _ _ => true

/-- A search for the term is released. -/
def Store.Remembers (store : Store) (p : String × String) : Prop :=
  p.2 ∈ (store.entry p.1).queried ∨ p.2 ∈ (store.entry p.1).denied

instance (store : Store) (p : String × String) : Decidable (store.Remembers p) :=
  inferInstanceAs (Decidable (_ ∨ _))

/-- The entry of the call's session, stamped and with the call's term in one of its lists. -/
def Call.touched (c : Call) (entry : SessionState) (term : String) : SessionState :=
  { updated := c.clock.entry
    queried := if c.isRelease ∨ term ∈ entry.queried then entry.queried else entry.queried ++ [term]
    denied :=
      if ¬ c.isRelease ∨ term ∈ entry.queried ∨ term ∈ entry.denied then entry.denied
      else entry.denied ++ [term] }

/-- The store a call hands to `save`. -/
def recorded (store : Store) (c : Call) (p : String × String) : Store :=
  store.put p.1 (c.touched (store.entry p.1) p.2)

/-- The call denies the pair. -/
def Denies (v : Valve) (c : Call) (p : String × String) : Prop :=
  c.isRelease ∧ c.pair = some p ∧ ¬ (load v.file).Remembers p

instance (v : Valve) (c : Call) (p : String × String) : Decidable (Denies v c p) :=
  inferInstanceAs (Decidable (_ ∧ _))

theorem step_of_pair_none {v : Valve} {c : Call} (hc : c.pair = none) : step v c = v := by
  obtain ⟨clock, op⟩ := c
  cases op with
  | recordQuery session term =>
    have hempty : session = "" ∨ normalise term = "" := by
      by_contra h
      simp [Call.pair, if_neg h] at hc
    simp only [step, recordQuery, if_pos hempty]
  | release session term =>
    have hempty : session.getD "" = "" ∨ normalise term = "" := by
      by_contra h
      simp [Call.pair, if_neg h] at hc
    have hrel : release clock v.file session term = (true, v.file) := by
      cases session with
      | none => rfl
      | some s =>
        by_cases hs : s = ""
        · simp [release, hs, Option.filter]
        · have ht : normalise term = "" := hempty.resolve_left hs
          simp [release, hs, ht, Option.filter]
    simp only [step, hrel, if_true]

theorem step_of_pair {v : Valve} {c : Call} {p : String × String} (hc : c.pair = some p) :
    step v c = ⟨save c.clock.save (recorded (load v.file) c p),
      if Denies v c p then p :: v.denials else v.denials⟩ := by
  obtain ⟨clock, op⟩ := c
  cases op with
  | recordQuery session term =>
    have hp : ¬ (session = "" ∨ normalise term = "") ∧ (session, normalise term) = p := by
      simpa [Call.pair] using hc
    obtain ⟨hne, rfl⟩ := hp
    have hd : ¬ Denies v ⟨clock, .recordQuery session term⟩ (session, normalise term) :=
      fun h => by simp [Denies, Call.isRelease] at h
    rw [if_neg hd]
    simp only [step, recordQuery, if_neg hne, recorded, Call.touched, Call.isRelease]
    split_ifs <;> simp_all
  | release session term =>
    have hp : ¬ (session.getD "" = "" ∨ normalise term = "") ∧
        (session.getD "", normalise term) = p := by
      simpa [Call.pair] using hc
    obtain ⟨hne, rfl⟩ := hp
    cases session with
    | none => simp at hne
    | some s =>
      have hs : s ≠ "" := fun h => hne (Or.inl h)
      have ht : normalise term ≠ "" := fun h => hne (Or.inr h)
      have hfilter : (some s).filter (fun s => s ≠ "") = some s := by simp [Option.filter, hs]
      rw [Option.getD_some] at hc ⊢
      by_cases hr : normalise term ∈ ((load v.file).entry s).queried ∨
          normalise term ∈ ((load v.file).entry s).denied
      · have hd : ¬ Denies v ⟨clock, .release (some s) term⟩ (s, normalise term) :=
          fun h => h.2.2 hr
        rw [if_neg hd]
        simp only [step, release, hfilter, if_neg ht, recorded, Call.touched, Call.isRelease]
        simp [hr]
      · have hd : Denies v ⟨clock, .release (some s) term⟩ (s, normalise term) :=
          ⟨rfl, hc, hr⟩
        rw [if_pos hd]
        simp only [step, release, hfilter, if_neg ht, recorded, Call.touched, Call.isRelease]
        simp [hr]

/-! ### What a save keeps -/

/-- The sessions a save at `now` does not find expired. -/
def Store.live (store : Store) (now : Nat) : OrdMap String SessionState :=
  store.sessions.retain fun e => fresh now e.2

/-- At most 64 sessions are live, or the session's stamp reaches that of the 64th newest and fewer
than 64 sessions with a smaller id reach it too. -/
def WithinCap (live : OrdMap String SessionState) (session : String) (s : SessionState) : Prop :=
  live.size ≤ MAX_SESSIONS ∨
    keepFrom live ≤ s.updated ∧
      live.before (fun e => keepFrom live ≤ e.2.updated) session < MAX_SESSIONS

/-- The pair is remembered through a save at `now`: its session is neither expired nor cut by the
session cap, and its term is among the last 256 of one of the lists. -/
def Store.Outlives (store : Store) (now : Nat) (p : String × String) : Prop :=
  ∃ s, store.sessions.get? p.1 = some s ∧ fresh now s ∧ WithinCap (store.live now) p.1 s ∧
    (p.2 ∈ lastTerms s.queried ∨ p.2 ∈ lastTerms s.denied)

theorem get?_capSessions {sessions : OrdMap String SessionState} {session : String}
    {s : SessionState} :
    (capSessions sessions).get? session = some s ↔
      sessions.get? session = some s ∧ WithinCap sessions session s := by
  rw [capSessions, WithinCap]
  split_ifs with hsize
  · rw [OrdMap.get?_retainUpTo, or_iff_right (not_le.mpr hsize), decide_eq_true_eq]
  · rw [and_iff_left (Or.inl (not_lt.mp hsize))]

theorem remembers_iff {store : Store} {p : String × String} :
    store.Remembers p ↔
      ∃ s, store.sessions.get? p.1 = some s ∧ (p.2 ∈ s.queried ∨ p.2 ∈ s.denied) := by
  rw [Store.Remembers, Store.entry]
  cases store.sessions.get? p.1 with
  | none => simp [default]
  | some s => simp

theorem not_remembers_default {p : String × String} : ¬ (default : Store).Remembers p := by
  rw [remembers_iff]
  simp [default, OrdMap.empty, OrdMap.get?]

theorem remembers_prune {store : Store} {now : Nat} {p : String × String} :
    (prune now store).Remembers p ↔ store.Outlives now p := by
  rw [remembers_iff, Store.Outlives]
  simp only [prune, OrdMap.get?_mapValues, Option.map_eq_some_iff]
  constructor
  · intro h
    obtain ⟨_, ⟨s, hs, rfl⟩, hp⟩ := h
    obtain ⟨hs, hcap⟩ := get?_capSessions.mp hs
    obtain ⟨hs, hfresh⟩ := OrdMap.get?_retain.mp hs
    exact ⟨s, hs, hfresh, hcap, hp⟩
  · intro h
    obtain ⟨s, hs, hfresh, hcap, hp⟩ := h
    exact ⟨_, ⟨s, get?_capSessions.mpr ⟨OrdMap.get?_retain.mpr ⟨hs, hfresh⟩, hcap⟩, rfl⟩, hp⟩

theorem remembers_load_save {store : Store} {now : Nat} {p : String × String} :
    (load (save now store)).Remembers p ↔
      (prune now store).bytes ≤ MAX_FILE_BYTES ∧ store.Outlives now p := by
  simp only [save, load, Option.getD_some]
  split_ifs with hbytes
  · rw [remembers_prune, and_iff_right hbytes]
  · exact iff_of_false not_remembers_default fun h => hbytes h.1

/-! ### Runs -/

/-- No pair has been answered with a denial twice, and the next call denies none a second time. -/
def AtMostOnce (v : Valve) : Prop := v.denials.Nodup ∧ ∀ c, (step v c).denials.Nodup

/-- The save of the call forgets no pair that has been denied, by the call or before it. -/
def Keeps (v : Valve) (c : Call) : Prop :=
  ∀ q, c.pair = some q → ∀ p, p ∈ v.denials ∨ Denies v c p →
    (prune c.clock.save (recorded (load v.file) c q)).bytes ≤ MAX_FILE_BYTES ∧
      (recorded (load v.file) c q).Outlives c.clock.save p

def Named (v : Valve) : Prop :=
  ∀ p ∈ v.denials, p.1 ≠ "" ∧ p.2 ≠ "" ∧ normalise p.2 = p.2

theorem trim_trim (s : String) : trim (trim s) = trim s := by
  have hlist : ∀ l : List Char, ((l.dropWhile isWhitespace).rdropWhile isWhitespace).dropWhile
      isWhitespace = (l.dropWhile isWhitespace).rdropWhile isWhitespace := by
    intro l
    rw [List.dropWhile_eq_self_iff]
    intro hpos
    have hpre := List.rdropWhile_prefix isWhitespace (l.dropWhile isWhitespace)
    rw [hpre.getElem hpos]
    exact List.dropWhile_get_zero_not isWhitespace l _
  have htrim : ∀ s, trim s =
      String.ofList ((s.toList.dropWhile isWhitespace).rdropWhile isWhitespace) := fun s => rfl
  rw [htrim (trim s), htrim s, String.toList_ofList, hlist, List.rdropWhile_idempotent]

theorem named_step {v : Valve} (c : Call) (hv : Named v) : Named (step v c) := by
  cases hc : c.pair with
  | none => rwa [step_of_pair_none hc]
  | some q =>
    rw [step_of_pair hc]
    dsimp only [Named]
    split_ifs with hd
    · intro p hp
      rcases List.mem_cons.mp hp with h | h
      · have hq : (q.1 ≠ "" ∧ q.2 ≠ "") ∧ normalise q.2 = q.2 := by
          obtain ⟨clock, op⟩ := c
          cases op with
          | recordQuery session term => simp [Denies, Call.isRelease] at hd
          | release session term =>
            have hp : ¬ (session.getD "" = "" ∨ normalise term = "") ∧
                (session.getD "", normalise term) = q := by
              simpa [Call.pair] using hc
            obtain ⟨hne, rfl⟩ := hp
            exact ⟨not_or.mp hne, trim_trim term⟩
        rw [h]
        exact ⟨hq.1.1, hq.1.2, hq.2⟩
      · exact hv p h
    · exact hv

/-- The next call is bound to its first denial exactly when every denied pair is remembered. -/
theorem atMostOnce_iff {v : Valve} (hv : Named v) :
    AtMostOnce v ↔ v.denials.Nodup ∧ ∀ p ∈ v.denials, (load v.file).Remembers p := by
  rw [AtMostOnce]
  refine and_congr_right fun hnodup => ?_
  constructor
  · intro h p hp
    by_contra hr
    obtain ⟨hs, ht, hn⟩ := hv p hp
    have hc : (Call.mk ⟨0, 0⟩ (.release (some p.1) p.2)).pair = some p := by
      simp [Call.pair, hn, hs, ht]
    have hagain := h ⟨⟨0, 0⟩, .release (some p.1) p.2⟩
    rw [step_of_pair hc, if_pos ⟨rfl, hc, hr⟩] at hagain
    exact (List.nodup_cons.mp hagain).1 hp
  · intro h c
    cases hc : c.pair with
    | none =>
      rwa [step_of_pair_none hc]
    | some q =>
      rw [step_of_pair hc]
      dsimp only
      split_ifs with hd
      · exact List.nodup_cons.mpr ⟨fun hq => hd.2.2 (h q hq), hnodup⟩
      · exact hnodup

theorem denials_step {v : Valve} {c : Call} {p : String × String} :
    p ∈ (step v c).denials ↔ p ∈ v.denials ∨ Denies v c p := by
  cases hc : c.pair with
  | none =>
    have hd : ¬ Denies v c p := by
      intro h
      have hp := h.2.1
      simp [hc] at hp
    rw [step_of_pair_none hc, or_iff_left hd]
  | some q =>
    have hpq : Denies v c p ↔ p = q ∧ Denies v c q := by
      constructor
      · intro h
        have hq : q = p := Option.some.inj (hc.symm.trans h.2.1)
        exact ⟨hq.symm, hq ▸ h⟩
      · intro h
        exact h.1 ▸ h.2
    rw [step_of_pair hc, hpq]
    dsimp only
    split_ifs with hd
    · rw [List.mem_cons, and_iff_left hd, or_comm]
    · rw [or_iff_left fun h => hd h.2]

theorem atMostOnce_step {v : Valve} {c : Call} (hv : Named v) (h : AtMostOnce v) :
    AtMostOnce (step v c) ↔ Keeps v c := by
  rw [atMostOnce_iff (named_step c hv), and_iff_right (h.2 c)]
  simp only [denials_step]
  cases hc : c.pair with
  | none =>
    rw [step_of_pair_none hc]
    have hheld := ((atMostOnce_iff hv).mp h).2
    refine iff_of_true ?_ (fun q hq => by simp [hc] at hq)
    intro p hp
    refine hheld p (hp.resolve_right fun hd => ?_)
    have hq := hd.2.1
    simp [hc] at hq
  | some q =>
    have hfile : (step v c).file = save c.clock.save (recorded (load v.file) c q) := by
      rw [step_of_pair hc]
    have hkeeps : Keeps v c ↔ ∀ p, p ∈ v.denials ∨ Denies v c p →
        (prune c.clock.save (recorded (load v.file) c q)).bytes ≤ MAX_FILE_BYTES ∧
          (recorded (load v.file) c q).Outlives c.clock.save p := by
      rw [Keeps, hc]
      simp only [Option.some.injEq, forall_eq']
    rw [hfile, hkeeps]
    simp only [remembers_load_save]

/-- In every run the valve denies each pair at most once, whatever is searched next, exactly when
no save on the way forgets a denied pair. -/
theorem atMostOnce_iff_keeps (file : Option StateFile) (calls : List Call) :
    Runs.Always step AtMostOnce ⟨file, []⟩ calls ↔ Runs.Every step Keeps ⟨file, []⟩ calls := by
  have hnamed : Named ⟨file, []⟩ := fun p hp => by simp at hp
  have hfirst : AtMostOnce ⟨file, []⟩ := by
    rw [atMostOnce_iff hnamed]
    simp
  refine Runs.always_iff_every (P := fun _ _ => True) (fun v c hv => named_step c hv) ?_ ?_
    hnamed hfirst
  · intro v c hv _ h
    exact atMostOnce_step hv h
  · intro pre c post _
    trivial

/-- The clock never goes back, and no two readings in a row are 24 hours apart. -/
def Clocked (calls : List Call) : Prop :=
  (calls.flatMap fun c => [c.clock.entry, c.clock.save]).IsChain
    fun now later => now ≤ later ∧ later < now + SESSION_TTL_SECS

instance (calls : List Call) : Decidable (Clocked calls) :=
  inferInstanceAs (Decidable (List.IsChain _ _))

/-- 64 sessions that ask about a term, one a second apart from the two first. -/
def busyDay : List Call :=
  (List.range 64).map fun i =>
    ⟨⟨i - 1, i - 1⟩, .recordQuery (String.ofList [Char.ofNat (96 - i)]) "f"⟩

def sameSearch (now : Nat) : Call := ⟨⟨now, now⟩, .release (some "~") "charge"⟩

def busyName (i : Nat) : String := String.ofList [Char.ofNat (96 - i)]

def busySession (i : Nat) : String × SessionState := (busyName i, ⟨i - 1, ["f"], []⟩)

def busySessions (n : Nat) : List (String × SessionState) := ((List.range n).map busySession).reverse

theorem busySessions_succ (n : Nat) : busySessions (n + 1) = busySession n :: busySessions n := by
  simp [busySessions, List.range_succ]

theorem mem_busySessions {n : Nat} {e : String × SessionState} :
    e ∈ busySessions n ↔ ∃ i < n, busySession i = e := by
  simp [busySessions]

theorem busyName_lt {i j : Nat} (hij : i < j) (hj : j < 64) : busyName j < busyName i := by
  have hchar : ∀ j < 64, ∀ i < j, Char.ofNat (96 - j) < Char.ofNat (96 - i) := by decide +kernel
  rw [busyName, busyName, String.lt_iff_toList_lt, String.toList_ofList, String.toList_ofList]
  exact List.cons_lt_cons_iff.mpr (Or.inl (hchar j hj i hij))

theorem insertEntry_least {k : String} {a : SessionState} {es : List (String × SessionState)}
    (h : ∀ e ∈ es, k < e.1) : OrdMap.insertEntry k a es = (k, a) :: es := by
  cases es with
  | nil => rfl
  | cons e es => rw [OrdMap.insertEntry, if_pos (h e List.mem_cons_self)]

theorem bytes_of_busySessions {n : Nat} (hn : n ≤ 64) {store : Store}
    (h : store.sessions.entries = busySessions n) : store.bytes ≤ MAX_FILE_BYTES := by
  have hone : ∀ i < 64, stringBytes (busyName i) + 1 + (busySession i).2.bytes ≤ 100 := by
    decide +kernel
  have hsum : ∀ es : List Nat, (∀ x ∈ es, x ≤ 100) → es.foldr (· + ·) 0 ≤ es.length * 100 := by
    intro es hes
    induction es with
    | nil => simp
    | cons x es ih =>
      have hx := hes x List.mem_cons_self
      have hrest := ih fun y hy => hes y (List.mem_cons_of_mem x hy)
      simp only [List.foldr_cons, List.length_cons]
      omega
  have hall := hsum ((busySessions n).map fun e => stringBytes e.1 + 1 + e.2.bytes) (by
    intro x hx
    obtain ⟨e, he, hx⟩ := List.mem_map.mp hx
    obtain ⟨i, hi, hs⟩ := mem_busySessions.mp he
    rw [← hx, ← hs]
    exact hone i (by omega))
  have hlen : (busySessions n).length = n := by simp [busySessions]
  rw [List.length_map, hlen] at hall
  simp only [Store.bytes, listBytes, h, List.foldr_cons, List.foldr_nil, List.length_map,
    List.length_cons, List.length_nil, hlen, MAX_FILE_BYTES]
  omega

theorem fresh_of_le {now : Nat} (h : now ≤ 64) (s : SessionState) : fresh now s = true := by
  have hzero : now - SESSION_TTL_SECS = 0 := Nat.sub_eq_zero_of_le (h.trans (by decide))
  rw [fresh, hzero]
  exact decide_eq_true (Nat.zero_le _)

theorem prune_busySessions {n now : Nat} (hn : n ≤ 64) (hnow : now ≤ 64) {store : Store}
    (h : store.sessions.entries = busySessions n) :
    (prune now store).sessions.entries = busySessions n := by
  have hlive : (store.sessions.retain fun e => fresh now e.2).entries = busySessions n := by
    change store.sessions.entries.filter _ = _
    rw [h]
    exact List.filter_eq_self.mpr fun e _ => fresh_of_le hnow e.2
  have hsize : ¬ MAX_SESSIONS < (store.sessions.retain fun e => fresh now e.2).size := by
    rw [OrdMap.size, hlive, busySessions, List.length_reverse, List.length_map, List.length_range]
    exact Nat.not_lt.mpr hn
  rw [prune, capSessions, if_neg hsize]
  change (store.sessions.retain fun e => fresh now e.2).entries.map _ = _
  rw [hlive]
  refine (List.map_congr_left fun e he => ?_).trans (List.map_id _)
  obtain ⟨i, _, rfl⟩ := mem_busySessions.mp he
  rfl

theorem load_save {now : Nat} {store : Store} (h : (prune now store).bytes ≤ MAX_FILE_BYTES) :
    load (save now store) = prune now store := if_pos h

def busyCall (i : Nat) : Call := ⟨⟨i - 1, i - 1⟩, .recordQuery (busyName i) "f"⟩

theorem load_busyCalls {n : Nat} (hn : n ≤ 64) :
    (load (Runs.run step ⟨none, []⟩ ((List.range n).map busyCall)).file).sessions.entries =
        busySessions n ∧
      (Runs.run step ⟨none, []⟩ ((List.range n).map busyCall)).denials = [] := by
  induction n with
  | zero => exact ⟨rfl, rfl⟩
  | succ n ih =>
    obtain ⟨hload, hdenials⟩ := ih (by omega)
    rw [List.range_succ, List.map_append, Runs.run, List.foldl_append]
    change (load (step (Runs.run step ⟨none, []⟩ ((List.range n).map busyCall))
        (busyCall n)).file).sessions.entries = _ ∧
      (step (Runs.run step ⟨none, []⟩ ((List.range n).map busyCall)) (busyCall n)).denials = _
    generalize Runs.run step ⟨none, []⟩ ((List.range n).map busyCall) = v at hload hdenials
    have hname : busyName n ≠ "" := by
      intro h
      have := congrArg String.toList h
      rw [busyName, String.toList_ofList] at this
      exact List.cons_ne_nil _ _ this
    have hterm : normalise "f" = "f" := by decide +kernel
    have hpair : (busyCall n).pair = some (busyName n, "f") := by
      have hno : ¬ (busyName n = "" ∨ normalise "f" = "") := by
        rw [hterm]
        exact not_or.mpr ⟨hname, by decide⟩
      exact (if_neg hno).trans (congrArg (fun t => some (busyName n, t)) hterm)
    have hdeny : ¬ Denies v (busyCall n) (busyName n, "f") := fun h => Bool.false_ne_true h.1
    have hless : ∀ e ∈ busySessions n, busyName n < e.1 := by
      intro e he
      obtain ⟨i, hi, rfl⟩ := mem_busySessions.mp he
      exact busyName_lt hi (by omega)
    have hentry : (load v.file).entry (busyName n) = default := by
      have hnone : (busySessions n).find? (fun e => e.1 = busyName n) = none :=
        List.find?_eq_none.mpr fun e he h => absurd (hless e he) (by simp [of_decide_eq_true h])
      rw [Store.entry, OrdMap.get?, hload, hnone]
      rfl
    have hput : (recorded (load v.file) (busyCall n) (busyName n, "f")).sessions.entries =
        busySessions (n + 1) := by
      rw [recorded, hentry]
      change OrdMap.insertEntry _ _ (load v.file).sessions.entries = _
      rw [hload, insertEntry_least hless, busySessions_succ]
      rfl
    have hprune := @prune_busySessions (n + 1) (n - 1) hn (by omega) _ hput
    rw [step_of_pair hpair, if_neg hdeny]
    refine ⟨?_, hdenials⟩
    exact (congrArg (fun s => s.sessions.entries)
      (load_save (bytes_of_busySessions hn hprune))).trans hprune


theorem step_of_load {v w : Valve} {c : Call} {p : String × String} (hc : c.pair = some p)
    (hload : load v.file = load w.file) (hd : v.denials = w.denials) : step v c = step w c := by
  have hdenies : Denies v c p ↔ Denies w c p := by rw [Denies, Denies, hload]
  rw [step_of_pair hc, step_of_pair hc, hload, hd]
  simp only [hdenies]

def busyStore : Store := ⟨⟨busySessions 64, by
  rw [busySessions, List.pairwise_reverse, List.pairwise_map]
  refine List.Pairwise.imp_of_mem ?_ List.pairwise_lt_range
  intro i j _ hj hij
  exact busyName_lt hij (List.mem_range.mp hj)⟩⟩

theorem run_sameSearch {v : Valve} (hload : (load v.file).sessions.entries = busySessions 64)
    (hd : v.denials = []) :
    ¬ (Runs.run step v [sameSearch 70, sameSearch 71]).denials.Nodup := by
  have hst : load v.file = load (some ⟨0, some busyStore⟩) := by
    generalize load v.file = s at hload
    obtain ⟨⟨es, hs⟩⟩ := s
    cases hload
    rfl
  have hp : (sameSearch 70).pair = some ("~", "charge") := by decide +kernel
  change ¬ (step (step v (sameSearch 70)) (sameSearch 71)).denials.Nodup
  rw [@step_of_load v ⟨some ⟨0, some busyStore⟩, []⟩ _ _ hp hst hd]
  decide +kernel

/-- The 65th session is the newest and has the greatest id: the tie of the two oldest stamps cuts
it, so its search is denied again. -/
theorem not_atMostOnce_of_tie :
    ¬ ∀ calls, Clocked calls → (Runs.run step ⟨none, []⟩ calls).denials.Nodup := by
  intro h
  have hrun := h (busyDay ++ [sameSearch 70, sameSearch 71]) (by decide +kernel)
  have hday : busyDay = (List.range 64).map busyCall := rfl
  rw [Runs.run, List.foldl_append, hday] at hrun
  obtain ⟨hload, hdenials⟩ := load_busyCalls (Nat.le_refl 64)
  exact run_sameSearch hload hdenials hrun

end Travsr.Guard
