import Mathlib.Algebra.Group.Nat.Defs
import Mathlib.Data.List.MinMax
import Travsr.Lib.Jsonc.Value
import Travsr.Lib.Loop
import Travsr.Lib.Runs
import Travsr.Lib.Table

open Jsonc Relational

namespace Travsr.Daemon

/-- The `data_version` readings that bound result freshness. -/
structure DataVersions where
  graph : Nat
  embed : Option Nat
  embedGeneration : Option Nat

structure CacheKey where
  tool : String
  args : String
  lastCommit : String
  phaseBCommit : String
  dataVersion : Nat
  embedDataVersion : Option Nat
  embedGeneration : Option Nat
  deriving DecidableEq

def MAX_CACHE_BYTES : Nat := 64 * 1024 * 1024

def ELEM_OVERHEAD : Nat := 32

section

variable {N : Type}

mutual

def approxValueBytes : Value N → Nat
  | .scalar (.str s) => s.length + ELEM_OVERHEAD
  | .scalar _ => ELEM_OVERHEAD
  | .arr elems => approxElemBytes elems + ELEM_OVERHEAD
  | .obj members => approxMemberBytes members + ELEM_OVERHEAD

def approxElemBytes : List (Value N) → Nat
  | [] => 0
  | v :: vs => approxValueBytes v + approxElemBytes vs

def approxMemberBytes : List (Key × Value N) → Nat
  | [] => 0
  | (k, v) :: ms => k.length + approxValueBytes v + approxMemberBytes ms

end

end

/-- A cached value with its LRU tick and its cost. -/
structure Entry (N : Type) where
  key : CacheKey
  value : Value N
  tick : Nat
  cost : Nat

structure QueryCache (N : Type) where
  cap : Nat
  tick : Nat
  entries : Table (Entry N) Entry.key
  totalBytes : Nat

/-- What a call names: the query, the commit markers and the versions it is asked at. -/
structure Query (N : Type) where
  tool : String
  args : Value N
  lastCommit : String
  phaseBCommit : String
  versions : DataVersions

variable {N : Type} (toString : Value N → Option String)

/-- `QueryCache::key`, with `serde_json::to_string` for the arguments. -/
def Query.key (q : Query N) : CacheKey where
  tool := q.tool
  args := (toString q.args).getD ""
  lastCommit := q.lastCommit
  phaseBCommit := q.phaseBCommit
  dataVersion := q.versions.graph
  embedDataVersion := q.versions.embed
  embedGeneration := q.versions.embedGeneration

namespace QueryCache

def new (cap : Nat) : QueryCache N := ⟨max cap 1, 0, Table.empty, 0⟩

/-- `self.tick.wrapping_add(1)`, a `u64`. -/
def nextTick (c : QueryCache N) : Nat := (c.tick + 1) % 2 ^ 64

def get (c : QueryCache N) (q : Query N) : Option (Value N) × QueryCache N :=
  let k := q.key toString
  let tick := c.nextTick
  match c.entries.find? k with
  | none => (none, { c with tick := tick })
  | some e =>
    (some e.value,
      { c with
        tick := tick
        entries := c.entries.updateWhere (fun e => e.key = k) (fun e => { e with tick := tick })
          fun _ => rfl })

/-- `HashMap::insert`; the order of the entries has no meaning. -/
def insertEntry (t : Table (Entry N) Entry.key) (e : Entry N) : Table (Entry N) Entry.key :=
  (t.deleteWhere fun x => x.key = e.key).insertIgnore e

/-- Evict the least-recently-used entry; `none` when there is none. -/
def evictLru (c : QueryCache N) : Option (QueryCache N) :=
  (c.entries.rows.argmin Entry.tick).map fun victim =>
    { c with
      entries := c.entries.deleteWhere fun e => e.key = victim.key
      totalBytes := c.totalBytes - victim.cost }

def overLimit (c : QueryCache N) : Bool :=
  c.cap < c.entries.rows.length || MAX_CACHE_BYTES < c.totalBytes

/-- The loop of `put`: a round for each eviction. -/
def evictStep (c : QueryCache N) : Option (QueryCache N) :=
  if c.overLimit then c.evictLru else none

def evictAll (c : QueryCache N) : QueryCache N :=
  Loop.iterate evictStep c.entries.rows.length c

def insert (c : QueryCache N) (q : Query N) (value : Value N) : QueryCache N :=
  let k := q.key toString
  let tick := c.nextTick
  let cost := approxValueBytes value
  let prevCost := ((c.entries.find? k).map Entry.cost).getD 0
  { c with
    tick := tick
    entries := insertEntry c.entries ⟨k, value, tick, cost⟩
    totalBytes := c.totalBytes - prevCost + cost }

/-- Insert (or refresh) a result, evicting least-recently-used entries while either the entry cap
or the byte budget is exceeded. -/
def put (c : QueryCache N) (q : Query N) (value : Value N) : QueryCache N :=
  if MAX_CACHE_BYTES < approxValueBytes value then c
  else (c.insert toString q value).evictAll

end QueryCache

inductive Op (N : Type) where
  | get (q : Query N)
  | put (q : Query N) (value : Value N)

def QueryCache.step (c : QueryCache N) : Op N → QueryCache N
  | .get q => (c.get toString q).2
  | .put q value => c.put toString q value

end Travsr.Daemon

namespace Travsr.Daemon

variable {N : Type}

def bytesOf (es : List (Entry N)) : Nat := es.foldr (fun e n => e.cost + n) 0

@[simp] theorem bytesOf_nil : bytesOf ([] : List (Entry N)) = 0 := rfl

@[simp] theorem bytesOf_cons (e : Entry N) (es : List (Entry N)) :
    bytesOf (e :: es) = e.cost + bytesOf es := rfl

@[simp] theorem bytesOf_append (es es' : List (Entry N)) :
    bytesOf (es ++ es') = bytesOf es + bytesOf es' := by
  induction es with
  | nil => simp
  | cons e es ih => simp [ih, Nat.add_assoc]

theorem bytesOf_sublist {es es' : List (Entry N)} (h : es.Sublist es') :
    bytesOf es ≤ bytesOf es' := by
  induction h with
  | slnil => exact le_rfl
  | cons e _ ih => simp only [bytesOf_cons]; omega
  | cons_cons e _ ih => simp only [bytesOf_cons]; omega

theorem bytesOf_filter (p : Entry N → Bool) (es : List (Entry N)) :
    bytesOf (es.filter p) + bytesOf (es.filter fun e => !p e) = bytesOf es := by
  induction es with
  | nil => rfl
  | cons e es ih =>
    cases hp : p e <;> simp [hp] <;> omega

/-- Within the entry cap and the byte budget. -/
def Fits (cap : Nat) (es : List (Entry N)) : Prop :=
  es.length ≤ cap ∧ bytesOf es ≤ MAX_CACHE_BYTES

theorem Fits.sublist {cap : Nat} {es es' : List (Entry N)} (h : Fits cap es')
    (hs : es.Sublist es') : Fits cap es :=
  ⟨le_trans hs.length_le h.1, le_trans (bytesOf_sublist hs) h.2⟩

namespace QueryCache

variable {j : Value N → Option String} {c c' : QueryCache N}

/-- The byte count is the sum of the costs. -/
def Counted (c : QueryCache N) : Prop := c.totalBytes = bytesOf c.entries.rows

theorem Counted.overLimit_iff (h : c.Counted) : c.overLimit = true ↔ ¬ Fits c.cap c.entries.rows := by
  simp only [overLimit, Fits, Counted, Bool.or_eq_true, decide_eq_true_eq] at h ⊢
  omega

theorem rows_insertEntry (t : Table (Entry N) Entry.key) (e : Entry N) :
    (insertEntry t e).rows = t.rows.filter (fun x => ¬ x.key = e.key) ++ [e] := by
  have hnot : ¬ (t.deleteWhere fun x => x.key = e.key).Has e.key := by
    intro h
    obtain ⟨x, hx, hk⟩ := h
    exact (Table.mem_deleteWhere.mp hx).2 hk
  rw [insertEntry, Table.insertIgnore, dif_neg hnot]
  rfl

theorem counted_insert (h : c.Counted) (q : Query N) (v : Value N) :
    (c.insert j q v).Counted := by
  have hsplit := bytesOf_filter (fun e => decide (e.key = q.key j)) c.entries.rows
  rw [Table.filter_key] at hsplit
  have hprev : bytesOf (c.entries.find? (q.key j)).toList =
      ((c.entries.find? (q.key j)).map Entry.cost).getD 0 := by
    cases c.entries.find? (q.key j) <;> simp
  rw [hprev] at hsplit
  simp only [Counted, insert, rows_insertEntry, bytesOf_append, bytesOf_cons, bytesOf_nil] at h ⊢
  simp only [decide_not]
  omega

theorem evictStep_eq_some (h : c.evictStep = some c') :
    c.overLimit = true ∧ ∃ m, m ∈ c.entries.rows.argmin Entry.tick ∧
      c' = { c with
        entries := c.entries.deleteWhere fun e => e.key = m.key
        totalBytes := c.totalBytes - m.cost } := by
  unfold evictStep at h
  split_ifs at h with hover
  obtain ⟨m, hm, rfl⟩ := Option.map_eq_some_iff.mp h
  exact ⟨hover, m, hm, rfl⟩

theorem counted_evictStep (hc : c.Counted) (h : c.evictStep = some c') : c'.Counted := by
  obtain ⟨_, m, hm, rfl⟩ := evictStep_eq_some h
  have hmem : m ∈ c.entries := List.argmin_mem hm
  have hsplit := bytesOf_filter (fun e => decide (e.key = m.key)) c.entries.rows
  rw [Table.filter_key, Table.find?_of_mem hmem] at hsplit
  simp only [Counted, Table.deleteWhere, Option.toList_some, bytesOf_cons, bytesOf_nil,
    decide_not] at hc hsplit ⊢
  omega

theorem decreases_evictStep :
    Loop.Decreases (evictStep (N := N)) fun c => c.entries.rows.length := by
  intro c c' h
  obtain ⟨_, m, hm, rfl⟩ := evictStep_eq_some h
  have hmem : m ∈ c.entries.rows := List.argmin_mem hm
  exact List.length_filter_lt_length_iff_exists.mpr ⟨m, hmem, by simp⟩

theorem evictStep_eq_none (hc : c.Counted) (h : c.evictStep = none) :
    Fits c.cap c.entries.rows := by
  by_contra hfits
  rw [evictStep, if_pos (hc.overLimit_iff.mpr hfits), evictLru, Option.map_eq_none_iff,
    List.argmin_eq_none] at h
  rw [h] at hfits
  exact hfits ⟨Nat.zero_le _, Nat.zero_le _⟩

def since (es : List (Entry N)) (tick : Nat) : List (Entry N) := es.filter fun e => tick ≤ e.tick

/-- The evicted ones are below some tick, and none of them fits with all that are used more
recently. -/
def EvictedFrom (c₀ c : QueryCache N) : Prop :=
  c.cap = c₀.cap ∧ ∃ t, c.entries.rows = since c₀.entries.rows t ∧
    ∀ e ∈ c₀.entries, e.tick < t → ¬ Fits c₀.cap (since c₀.entries.rows e.tick)

def DistinctTicks (c : QueryCache N) : Prop :=
  ∀ e ∈ c.entries, ∀ e' ∈ c.entries, e.tick = e'.tick → e.key = e'.key

theorem evictedFrom_evictStep {c₀ : QueryCache N} (hd : c₀.DistinctTicks) (hc : c.Counted)
    (h : EvictedFrom c₀ c) (hstep : c.evictStep = some c') : EvictedFrom c₀ c' := by
  obtain ⟨hover, m, hm, rfl⟩ := evictStep_eq_some hstep
  obtain ⟨hcap, t, hrows, hout⟩ := h
  have hmem : m ∈ c.entries.rows := List.argmin_mem hm
  have hm₀ : m ∈ c₀.entries := by
    rw [hrows] at hmem
    exact (List.mem_filter.mp hmem).1
  have htm : t ≤ m.tick := by
    rw [hrows] at hmem
    simpa using (List.mem_filter.mp hmem).2
  have hmin : ∀ e ∈ c.entries.rows, m.tick ≤ e.tick := fun e he => List.le_of_mem_argmin he hm
  have hsince : since c₀.entries.rows m.tick = c.entries.rows := by
    rw [hrows] at hmin ⊢
    refine List.filter_congr fun e he => ?_
    by_cases hte : t ≤ e.tick
    · have := hmin e (List.mem_filter.mpr ⟨he, by simpa using hte⟩)
      simp [hte, this]
    · have : ¬ m.tick ≤ e.tick := by omega
      simp [hte, this]
  refine ⟨hcap, m.tick + 1, ?_, ?_⟩
  · change c.entries.rows.filter _ = _
    rw [← hsince, since, since, List.filter_filter]
    refine List.filter_congr fun e he => ?_
    have hiff : e.key = m.key ↔ e.tick = m.tick := by
      constructor
      · intro hk
        rw [Table.eq_of_key he hm₀ hk]
      · exact hd e he m hm₀
    by_cases hk : e.key = m.key
    · have := hiff.mp hk
      simp [hk, this]
    · have : ¬ e.tick = m.tick := fun ht => hk (hiff.mpr ht)
      simp only [hk, not_false_eq_true, decide_true, Bool.true_and, decide_eq_decide]
      omega
  · intro e he hlt
    by_cases hte : e.tick < t
    · exact hout e he hte
    · have hem : e.tick = m.tick := by
        have := hmin e (by rw [hrows]; exact List.mem_filter.mpr ⟨he, by simp; omega⟩)
        omega
      rw [hem, hsince, ← hcap]
      exact hc.overLimit_iff.mp hover

theorem evictAll_frame (c : QueryCache N) :
    c.evictAll.cap = c.cap ∧ c.evictAll.tick = c.tick ∧
      ∀ e ∈ c.evictAll.entries, e ∈ c.entries := by
  refine @Loop.iterate_invariant _ evictStep
    (fun x => x.cap = c.cap ∧ x.tick = c.tick ∧ ∀ e ∈ x.entries, e ∈ c.entries) ?_ _ c
    ⟨rfl, rfl, fun _ h => h⟩
  intro x x' hx hs
  obtain ⟨_, m, _, rfl⟩ := evictStep_eq_some hs
  exact ⟨hx.1, hx.2.1, fun e he => hx.2.2 e (Table.mem_deleteWhere.mp he).1⟩

theorem counted_evictAll (hc : c.Counted) : c.evictAll.Counted :=
  @Loop.iterate_invariant _ evictStep Counted
    (fun _ _ hx hs => counted_evictStep hx hs) _ c hc

theorem fits_evictAll (hc : c.Counted) : Fits c.cap c.evictAll.entries.rows := by
  have hnone := Loop.iterate_halts decreases_evictStep c.entries.rows.length c le_rfl
  have hfits := evictStep_eq_none (counted_evictAll hc) hnone
  rwa [(evictAll_frame c).1] at hfits

theorem evictedFrom_evictAll (hd : c.DistinctTicks) (hc : c.Counted) :
    EvictedFrom c c.evictAll := by
  have hstart : EvictedFrom c c :=
    ⟨rfl, 0, by simp [since], fun e _ h => absurd h (Nat.not_lt_zero _)⟩
  have hinv := @Loop.iterate_invariant _ evictStep
    (fun x => x.Counted ∧ EvictedFrom c x)
    (fun x x' hx hs => ⟨counted_evictStep hx.1 hs, evictedFrom_evictStep hd hx.1 hx.2 hs⟩)
    c.entries.rows.length c ⟨hc, hstart⟩
  exact hinv.2

/-- An entry outlives the evictions exactly when it fits together with all that are used at least
as recently. -/
theorem mem_evictAll (hd : c.DistinctTicks) (hc : c.Counted) (e : Entry N) :
    e ∈ c.evictAll.entries ↔ e ∈ c.entries ∧ Fits c.cap (since c.entries.rows e.tick) := by
  have hfits := fits_evictAll hc
  obtain ⟨_, t, hrows, hout⟩ := evictedFrom_evictAll hd hc
  rw [← Table.mem_rows, hrows, since, List.mem_filter, decide_eq_true_eq]
  refine and_congr_right fun he => ?_
  constructor
  · intro hte
    rw [hrows] at hfits
    refine hfits.sublist ?_
    have hle : ∀ x : Entry N, e.tick ≤ x.tick → t ≤ x.tick := fun x hx => le_trans hte hx
    exact List.monotone_filter_right _ fun x hx => by simpa using hle x (by simpa using hx)
  · intro hfit
    by_contra hlt
    exact hout e he (by omega) hfit

end QueryCache

variable (j : Value N → Option String)

/-- The key a call uses; a value over the whole budget is refused before the cache is touched. -/
def Op.used : Op N → Option CacheKey
  | .get q => some (q.key j)
  | .put q v => if MAX_CACHE_BYTES < approxValueBytes v then none else some (q.key j)

def uses (ops : List (Op N)) : List CacheKey := ops.filterMap (Op.used j)

def age (us : List CacheKey) (k : CacheKey) : Nat := us.reverse.idxOf k

theorem age_self (us : List CacheKey) (k : CacheKey) : age (us ++ [k]) k = 0 := by
  simp [age]

theorem age_other {us : List CacheKey} {k j : CacheKey} (h : j ≠ k) :
    age (us ++ [k]) j = age us j + 1 := by
  simp [age, List.idxOf_cons_ne _ (Ne.symm h)]

theorem age_inj {us : List CacheKey} {k j : CacheKey} (hk : k ∈ us) (h : age us k = age us j) :
    k = j := by
  rw [age, age, List.idxOf_inj (List.mem_reverse.mpr hk)] at h
  exact h

def lastPut (k : CacheKey) (ops : List (Op N)) : Option (Value N) :=
  ops.reverse.findSome? fun op =>
    match op with
    | .get _ => none
    | .put q v => if q.key j = k then some v else none

theorem lastPut_get (k : CacheKey) (ops : List (Op N)) (q : Query N) :
    lastPut j k (ops ++ [.get q]) = lastPut j k ops := by
  simp [lastPut]

theorem lastPut_put (k : CacheKey) (ops : List (Op N)) (q : Query N) (v : Value N) :
    lastPut j k (ops ++ [.put q v]) =
      if q.key j = k then some v else lastPut j k ops := by
  by_cases h : q.key j = k <;> simp [lastPut, h]

namespace QueryCache

variable {j : Value N → Option String} {c : QueryCache N} {ops : List (Op N)}

def after (j : Value N → Option String) (cap : Nat) (ops : List (Op N)) : QueryCache N :=
  Runs.run (QueryCache.step j) (QueryCache.new cap) ops

theorem after_concat (cap : Nat) (ops : List (Op N)) (op : Op N) :
    after j cap (ops ++ [op]) = (after j cap ops).step j op := by
  simp [after, Runs.run]

/-- The ticks tell how long ago an entry was used, as long as the counter has not wrapped. -/
def Stamped (us : List CacheKey) (c : QueryCache N) : Prop :=
  c.tick = us.length ∧ ∀ e ∈ c.entries, e.key ∈ us ∧ e.tick + age us e.key = us.length

def Weighed (c : QueryCache N) : Prop :=
  ∀ e ∈ c.entries, e.cost = approxValueBytes e.value ∧ e.cost ≤ MAX_CACHE_BYTES

theorem Stamped.distinctTicks {us : List CacheKey} (h : Stamped us c) : c.DistinctTicks := by
  intro e he e' he' ht
  have h1 := (h.2 e he).2
  have h2 := (h.2 e' he').2
  exact age_inj (h.2 e he).1 (by omega)

theorem mem_insertEntry {t : Table (Entry N) Entry.key} {e x : Entry N} :
    x ∈ insertEntry t e ↔ x = e ∨ x ∈ t ∧ x.key ≠ e.key := by
  rw [← Table.mem_rows, rows_insertEntry]
  simp only [List.mem_append, List.mem_filter, Table.mem_rows, List.mem_singleton,
    decide_eq_true_eq]
  exact or_comm

def touched (j : Value N → Option String) (c : QueryCache N) : Op N → QueryCache N
  | .get q => (c.get j q).2
  | .put q v => if MAX_CACHE_BYTES < approxValueBytes v then c else c.insert j q v

def retick (k : CacheKey) (t : Nat) (e : Entry N) : Entry N :=
  if e.key = k then { e with tick := t } else e

theorem retick_key (k : CacheKey) (t : Nat) (e : Entry N) : (retick k t e).key = e.key := by
  unfold retick
  split_ifs <;> rfl

theorem retick_value (k : CacheKey) (t : Nat) (e : Entry N) : (retick k t e).value = e.value := by
  unfold retick
  split_ifs <;> rfl

theorem retick_cost (k : CacheKey) (t : Nat) (e : Entry N) : (retick k t e).cost = e.cost := by
  unfold retick
  split_ifs <;> rfl

theorem rows_get (c : QueryCache N) (q : Query N) :
    (c.get j q).2.entries.rows =
      c.entries.rows.map (retick (q.key j) c.nextTick) := by
  cases h : c.entries.find? (q.key j) with
  | none =>
    have hid : ∀ e ∈ c.entries.rows, retick (q.key j) c.nextTick e = e := by
      intro e he
      exact if_neg fun hk => Table.find?_eq_none.mp h ⟨e, he, hk⟩
    rw [get, h]
    simp only
    rw [List.map_congr_left hid, List.map_id']
  | some e =>
    rw [get, h]
    rfl

theorem get_fst (c : QueryCache N) (q : Query N) :
    (c.get j q).1 = (c.entries.find? (q.key j)).map Entry.value := by
  rw [get]
  cases c.entries.find? (q.key j) <;> rfl

theorem get_frame (c : QueryCache N) (q : Query N) :
    (c.get j q).2.cap = c.cap ∧ (c.get j q).2.tick = c.nextTick ∧
      (c.get j q).2.totalBytes = c.totalBytes := by
  rw [get]
  cases c.entries.find? (q.key j) <;> exact ⟨rfl, rfl, rfl⟩

theorem bytesOf_retick (k : CacheKey) (t : Nat) (es : List (Entry N)) :
    bytesOf (es.map (retick k t)) = bytesOf es := by
  induction es with
  | nil => rfl
  | cons e es ih => simp [ih, retick_cost]

theorem counted_touched (h : c.Counted) (op : Op N) : (c.touched j op).Counted := by
  cases op with
  | get q =>
    rw [touched, Counted, rows_get, bytesOf_retick, (get_frame c q).2.2]
    exact h
  | put q v =>
    rw [touched]
    split_ifs
    · exact h
    · exact counted_insert h q v

theorem cap_touched (c : QueryCache N) (op : Op N) : (c.touched j op).cap = c.cap := by
  cases op with
  | get q => exact (get_frame c q).1
  | put q v =>
    rw [touched]
    split_ifs <;> rfl

theorem uses_concat (ops : List (Op N)) (op : Op N) :
    uses j (ops ++ [op]) = uses j ops ++ (op.used j).toList := by
  rw [uses, uses, List.filterMap_append]
  cases h : op.used j <;> simp [h]

theorem stamped_other {us : List CacheKey} {k : CacheKey} {e : Entry N} (hk : e.key ≠ k)
    (h : e.key ∈ us ∧ e.tick + age us e.key = us.length) :
    e.key ∈ us ++ [k] ∧ e.tick + age (us ++ [k]) e.key = (us ++ [k]).length := by
  refine ⟨List.mem_append_left _ h.1, ?_⟩
  rw [age_other hk, List.length_append, List.length_singleton]
  omega

theorem stamped_self {us : List CacheKey} {e : Entry N} (ht : e.tick = us.length + 1) :
    e.key ∈ us ++ [e.key] ∧ e.tick + age (us ++ [e.key]) e.key = (us ++ [e.key]).length := by
  refine ⟨by simp, ?_⟩
  rw [age_self, List.length_append, List.length_singleton]
  omega

theorem nextTick_eq {us : List CacheKey} (h : Stamped us c) (hlen : us.length + 1 < 2 ^ 64) :
    c.nextTick = us.length + 1 := by
  rw [nextTick, h.1, Nat.mod_eq_of_lt hlen]

theorem stamped_touched {us : List CacheKey} (h : Stamped us c) (op : Op N)
    (hlen : (us ++ (op.used j).toList).length < 2 ^ 64) :
    Stamped (us ++ (op.used j).toList) (c.touched j op) := by
  cases op with
  | get q =>
    simp only [touched, Op.used, Option.toList_some] at hlen ⊢
    have hnext := nextTick_eq h (by simpa using hlen)
    refine ⟨by rw [(get_frame c q).2.1, hnext]; simp, ?_⟩
    intro e he
    rw [← Table.mem_rows, rows_get] at he
    obtain ⟨x, hx, rfl⟩ := List.mem_map.mp he
    by_cases hk : x.key = q.key j
    · rw [retick, if_pos hk, ← hk]
      exact stamped_self (e := { x with tick := c.nextTick }) hnext
    · rw [retick, if_neg hk]
      exact stamped_other hk (h.2 x hx)
  | put q v =>
    rw [Op.used] at hlen ⊢
    rw [touched]
    split_ifs at hlen ⊢ with hbig
    · simpa using h
    · simp only [Option.toList_some] at hlen ⊢
      have hnext := nextTick_eq h (by simpa using hlen)
      refine ⟨by simp [insert, hnext], ?_⟩
      intro e he
      rcases mem_insertEntry.mp he with rfl | ⟨hmem, hne⟩
      · exact stamped_self hnext
      · exact stamped_other hne (h.2 e hmem)

theorem weighed_touched (h : c.Weighed) (op : Op N) : (c.touched j op).Weighed := by
  cases op with
  | get q =>
    intro e he
    rw [touched, ← Table.mem_rows, rows_get] at he
    obtain ⟨x, hx, rfl⟩ := List.mem_map.mp he
    rw [retick_cost, retick_value]
    exact h x hx
  | put q v =>
    rw [touched]
    split_ifs with hbig
    · exact h
    · intro e he
      rcases mem_insertEntry.mp he with rfl | ⟨hmem, _⟩
      · exact ⟨rfl, by simpa using hbig⟩
      · exact h e hmem

theorem step_eq (c : QueryCache N) (op : Op N) :
    c.step j op = c.touched j op ∨
      c.step j op = (c.touched j op).evictAll := by
  cases op with
  | get q => exact .inl rfl
  | put q v =>
    rw [step, put, touched]
    split_ifs
    · exact .inl rfl
    · exact .inr rfl

/-- The byte count is exact, and the limits are kept. -/
def Accounted (c : QueryCache N) : Prop := c.Counted ∧ Fits c.cap c.entries.rows

theorem fits_touched_of_get {q : Query N} (h : Fits c.cap c.entries.rows) :
    Fits c.cap (c.get j q).2.entries.rows := by
  rw [rows_get, Fits, bytesOf_retick, List.length_map]
  exact h

theorem accounted_step (h : c.Accounted) (op : Op N) : (c.step j op).Accounted := by
  cases op with
  | get q =>
    refine ⟨counted_touched h.1 (.get q), ?_⟩
    rw [step, (get_frame c q).1]
    exact fits_touched_of_get h.2
  | put q v =>
    rw [step, put]
    split_ifs
    · exact h
    · have hc := counted_insert (j := j) h.1 q v
      refine ⟨counted_evictAll hc, ?_⟩
      rw [(evictAll_frame _).1]
      exact fits_evictAll hc

theorem weighed_step (h : c.Weighed) (op : Op N) : (c.step j op).Weighed := by
  have ht := weighed_touched (j := j) h op
  rcases step_eq (j := j) c op with hs | hs
  · rw [hs]
    exact ht
  · rw [hs]
    exact fun e he => ht e ((evictAll_frame _).2.2 e he)

theorem stamped_step {us : List CacheKey} (h : Stamped us c) (op : Op N)
    (hlen : (us ++ (op.used j).toList).length < 2 ^ 64) :
    Stamped (us ++ (op.used j).toList) (c.step j op) := by
  have ht := stamped_touched (j := j) h op hlen
  rcases step_eq (j := j) c op with hs | hs
  · rw [hs]
    exact ht
  · rw [hs]
    exact ⟨(evictAll_frame _).2.1.trans ht.1, fun e he => ht.2 e ((evictAll_frame _).2.2 e he)⟩

theorem cap_step (c : QueryCache N) (op : Op N) : (c.step j op).cap = c.cap := by
  rcases step_eq (j := j) c op with hs | hs
  · rw [hs, cap_touched]
  · rw [hs, (evictAll_frame _).1, cap_touched]

section Runs

variable (cap : Nat)

theorem cap_after (ops : List (Op N)) : (after j cap ops).cap = max cap 1 := by
  induction ops using List.reverseRecOn with
  | nil => rfl
  | append_singleton ops op ih => rw [after_concat, cap_step, ih]

theorem accounted_after (ops : List (Op N)) : (after j cap ops).Accounted := by
  induction ops using List.reverseRecOn with
  | nil => exact ⟨rfl, Nat.zero_le _, Nat.zero_le _⟩
  | append_singleton ops op ih =>
    rw [after_concat]
    exact accounted_step ih op

theorem weighed_after (ops : List (Op N)) : (after j cap ops).Weighed := by
  induction ops using List.reverseRecOn with
  | nil => exact fun e he => absurd he (Table.not_mem_empty e)
  | append_singleton ops op ih =>
    rw [after_concat]
    exact weighed_step ih op

theorem stamped_after (ops : List (Op N)) (hlen : (uses j ops).length < 2 ^ 64) :
    Stamped (uses j ops) (after j cap ops) := by
  induction ops using List.reverseRecOn with
  | nil => exact ⟨rfl, fun e he => absurd he (Table.not_mem_empty e)⟩
  | append_singleton ops op ih =>
    rw [uses_concat] at hlen
    have hle : (uses j ops).length < 2 ^ 64 := by
      rw [List.length_append] at hlen
      omega
    rw [after_concat, uses_concat]
    exact stamped_step (ih hle) op hlen

def Latest (ops : List (Op N)) (c : QueryCache N) : Prop :=
  ∀ e ∈ c.entries, lastPut j e.key ops = some e.value

def FreshlyRefused (c : QueryCache N) : Op N → Prop
  | .get _ => True
  | .put q v => MAX_CACHE_BYTES < approxValueBytes v → ¬ c.entries.Has (q.key j)

theorem latest_step (h : Latest (j := j) ops c) (op : Op N)
    (hop : FreshlyRefused (j := j) c op) :
    Latest (j := j) (ops ++ [op]) (c.step j op) := by
  have ht : Latest (j := j) (ops ++ [op]) (c.touched j op) := by
    intro e he
    cases op with
    | get q =>
      rw [touched, ← Table.mem_rows, rows_get] at he
      obtain ⟨x, hx, rfl⟩ := List.mem_map.mp he
      rw [lastPut_get, retick_key, retick_value]
      exact h x hx
    | put q v =>
      rw [touched] at he
      rw [lastPut_put]
      by_cases hbig : MAX_CACHE_BYTES < approxValueBytes v
      · rw [if_pos hbig] at he
        have hk : q.key j ≠ e.key := fun hk => hop hbig ⟨e, he, hk.symm⟩
        rw [if_neg hk]
        exact h e he
      · rw [if_neg hbig] at he
        rcases mem_insertEntry.mp he with rfl | ⟨hmem, hne⟩
        · exact if_pos rfl
        · rw [if_neg hne.symm]
          exact h e hmem
  rcases step_eq (j := j) c op with hs | hs
  · rw [hs]
    exact ht
  · rw [hs]
    exact fun e he => ht e ((evictAll_frame _).2.2 e he)

theorem latest_after (ops : List (Op N))
    (h : ∀ pre op post, ops = pre ++ op :: post →
      FreshlyRefused (j := j) (after j cap pre) op) :
    Latest (j := j) ops (after j cap ops) := by
  induction ops using List.reverseRecOn with
  | nil => exact fun e he => absurd he (Table.not_mem_empty e)
  | append_singleton ops op ih =>
    rw [after_concat]
    refine latest_step (ih fun pre op' post heq => ?_) op (h ops op [] rfl)
    exact h pre op' (post ++ [op]) (by rw [heq]; simp)

end Runs

end QueryCache

open QueryCache

/-- The entries of which the key was used at least as recently as `k`. -/
def atLeastAsRecent (us : List CacheKey) (k : CacheKey) (es : List (Entry N)) : List (Entry N) :=
  es.filter fun e => age us e.key ≤ age us k

/-- The calls of a run up to each moment in it. -/
structure Lawful (j : Value N → Option String) (cap : Nat) (ops : List (Op N)) : Prop where
  /-- The bytes are counted exactly, and both limits are kept. -/
  accounted : ∀ pre post, ops = pre ++ post → (after j cap pre).Accounted
  /-- A call leaves exactly the entries that fit together with all used at least as recently. -/
  lru : ∀ pre op post, ops = pre ++ op :: post → ∀ e,
    e ∈ (after j cap (pre ++ [op])).entries ↔
      e ∈ ((after j cap pre).touched j op).entries ∧
        Fits (max cap 1) (atLeastAsRecent (uses j (pre ++ [op])) e.key
          ((after j cap pre).touched j op).entries.rows)
  /-- What a lookup finds is the value of the most recent put for its key. -/
  latest : ∀ pre post, ops = pre ++ post → ∀ q v,
    ((after j cap pre).get j q).1 = some v →
      lastPut j (q.key j) pre = some v

namespace QueryCache

variable {j : Value N → Option String} {cap : Nat}

theorem since_eq_atLeastAsRecent {us : List CacheKey} {c : QueryCache N} (h : Stamped us c)
    {e : Entry N} (he : e ∈ c.entries) :
    since c.entries.rows e.tick = atLeastAsRecent us e.key c.entries.rows := by
  refine List.filter_congr fun x hx => ?_
  have h1 := (h.2 e he).2
  have h2 := (h.2 x hx).2
  simp only [decide_eq_decide]
  omega

theorem mem_step {us : List CacheKey} {c : QueryCache N} (hacc : c.Accounted) (h : Stamped us c)
    (op : Op N) (hlen : (us ++ (op.used j).toList).length < 2 ^ 64) (e : Entry N) :
    e ∈ (c.step j op).entries ↔ e ∈ (c.touched j op).entries ∧
      Fits c.cap (atLeastAsRecent (us ++ (op.used j).toList) e.key
        (c.touched j op).entries.rows) := by
  have hst := stamped_touched (j := j) h op hlen
  have hkeep : Fits c.cap (c.touched j op).entries.rows →
      c.step j op = c.touched j op →
      (e ∈ (c.step j op).entries ↔ e ∈ (c.touched j op).entries ∧
        Fits c.cap (atLeastAsRecent (us ++ (op.used j).toList) e.key
          (c.touched j op).entries.rows)) := by
    intro hfits hs
    rw [hs]
    exact ⟨fun he => ⟨he, hfits.sublist List.filter_sublist⟩, fun he => he.1⟩
  cases op with
  | get q => exact hkeep (fits_touched_of_get hacc.2) rfl
  | put q v =>
    by_cases hbig : MAX_CACHE_BYTES < approxValueBytes v
    · have htouched : c.touched j (.put q v) = c := if_pos hbig
      refine hkeep ?_ ?_
      · rw [htouched]
        exact hacc.2
      · rw [htouched]
        exact if_pos hbig
    · have hs : c.step j (.put q v) = (c.touched j (.put q v)).evictAll := by
        rw [step, put, touched, if_neg hbig, if_neg hbig]
      rw [hs, mem_evictAll hst.distinctTicks (counted_touched hacc.1 _), cap_touched]
      refine and_congr_right fun he => ?_
      rw [since_eq_atLeastAsRecent hst he]

/-- Over a run of fewer than `2 ^ 64` uses the cache keeps its law exactly when no value over the
budget is put for a key that the cache holds: the refusal leaves the older value in place. -/
theorem lawful_iff (ops : List (Op N)) (hlen : (uses j ops).length < 2 ^ 64) :
    Lawful j cap ops ↔ ∀ pre q v post, ops = pre ++ .put q v :: post →
      MAX_CACHE_BYTES < approxValueBytes v →
        ¬ (after j cap pre).entries.Has (q.key j) := by
  have hpre : ∀ pre post, ops = pre ++ post → (uses j pre).length < 2 ^ 64 := by
    intro pre post heq
    rw [heq, uses, List.filterMap_append, List.length_append] at hlen
    exact lt_of_le_of_lt (Nat.le_add_right _ _) hlen
  constructor
  · intro h pre q v post heq hbig hhas
    obtain ⟨e, he, hk⟩ := hhas
    have hstep : after j cap (pre ++ [.put q v]) = after j cap pre := by
      rw [after_concat]
      exact if_pos hbig
    have hget : ((after j cap (pre ++ [.put q v])).get j q).1 = some e.value := by
      rw [hstep, get_fst, ← hk, Table.find?_of_mem he]
      rfl
    have hlast := h.latest (pre ++ [.put q v]) post (by rw [heq]; simp) q e.value hget
    rw [lastPut_put, if_pos rfl] at hlast
    have hw := weighed_after (j := j) cap pre e he
    have hv : v = e.value := Option.some.inj hlast
    rw [hv] at hbig
    omega
  · intro h
    refine ⟨fun pre _ _ => accounted_after cap pre, ?_, ?_⟩
    · intro pre op post heq e
      have hlen' := hpre (pre ++ [op]) post (by rw [heq]; simp)
      have hst := stamped_after cap pre (hpre pre (op :: post) heq)
      rw [uses_concat] at hlen' ⊢
      rw [after_concat, mem_step (accounted_after cap pre) hst op hlen' e, cap_after]
    · intro pre post heq q v hget
      rw [get_fst] at hget
      obtain ⟨e, hfind, rfl⟩ := Option.map_eq_some_iff.mp hget
      obtain ⟨he, hk⟩ := Table.mem_of_find? hfind
      have hlatest := latest_after (j := j) cap pre (by
        intro pre' op post' heq'
        cases op with
        | get _ => trivial
        | put q' v' => exact h pre' q' v' (post' ++ post) (by rw [heq, heq']; simp))
      rw [← hk]
      exact hlatest e he

section Concrete

def graphQuery : Query Nat := ⟨"graph", .scalar .null, "c1", "p1", ⟨1, none, none⟩⟩

def noArgs : Value Nat → Option String := fun _ => some "null"

theorem lawful_iff_single :
    (uses noArgs [.put graphQuery (.scalar .null)]).length < 2 ^ 64 ∧
      (Lawful noArgs 8 [.put graphQuery (.scalar .null)] ↔
        ∀ pre q v post, [Op.put graphQuery (.scalar .null)] = pre ++ .put q v :: post →
          MAX_CACHE_BYTES < approxValueBytes v →
            ¬ (after noArgs 8 pre).entries.Has (q.key noArgs)) :=
  ⟨by decide, lawful_iff _ (by decide)⟩

theorem not_lawful_of_refused {v : Value Nat} (hbig : MAX_CACHE_BYTES < approxValueBytes v) :
    ¬ Lawful noArgs 8 [.put graphQuery (.scalar .null), .put graphQuery v] := by
  intro h
  have hstep : after noArgs 8 ([.put graphQuery (.scalar .null)] ++ [.put graphQuery v]) =
      after noArgs 8 [.put graphQuery (.scalar .null)] := by
    rw [after_concat]
    exact if_pos hbig
  have hget : ((after noArgs 8 [.put graphQuery (.scalar .null)]).get noArgs graphQuery).1 =
      some (.scalar .null) := by
    decide +kernel
  have hlast := h.latest ([.put graphQuery (.scalar .null)] ++ [.put graphQuery v]) [] rfl
    graphQuery (.scalar .null) (by rw [hstep]; exact hget)
  rw [lastPut_put, if_pos rfl] at hlast
  rw [Option.some.inj hlast] at hbig
  exact absurd hbig (by decide)

theorem lookup_serves_older_value :
    ¬ Lawful noArgs 8 [.put graphQuery (.scalar .null),
      .put graphQuery (.scalar (.str (List.replicate MAX_CACHE_BYTES 0)))] := by
  apply not_lawful_of_refused
  rw [approxValueBytes, List.length_replicate]
  exact Nat.lt_add_of_pos_right (by decide)

end Concrete

end QueryCache

end Travsr.Daemon
