import Travsr.Lib.Fifo
import Travsr.PluginHost.ParseCacheRuns

namespace Travsr.PluginHost

open FifoBudget Relational

variable {D : Type}

/-! ### The cache as a queue with a budget -/

def Cached.cost (e : Cached D) : Nat := approxBytes e.response

namespace ParseCache

/-- The queue under a cache: its entries oldest slot first. -/
structure Represents (c : ParseCache D) (q : List (Cached D)) : Prop where
  rows : c.store.rows.Perm q
  bytes : c.approxBytes = total Cached.cost q
  order : c.insertionOrder = q.map Cached.key

theorem Represents.nodup {c : ParseCache D} {q : List (Cached D)} (h : c.Represents q) :
    (q.map Cached.key).Nodup := (h.rows.map Cached.key).nodup_iff.mp c.store.nodup

theorem Represents.has_iff {c : ParseCache D} {q : List (Cached D)} (h : c.Represents q)
    (k : CacheKey D) : c.store.Has k ↔ k ∈ q.map Cached.key := by
  rw [← (h.rows.map Cached.key).mem_iff, List.mem_map]
  rfl

variable [DecidableEq D]

theorem remove_rows (c : ParseCache D) (k : CacheKey D) :
    (c.remove k).store.rows = c.store.rows.filter fun e => e.key ≠ k := by
  unfold remove
  cases hf : c.store.find? k with
  | none =>
    rw [List.filter_eq_self.mpr]
    intro e he
    simpa using fun hk => Table.find?_eq_none.mp hf ⟨e, he, hk⟩
  | some e => rfl

theorem remove_bytes {c : ParseCache D} {q : List (Cached D)} (rows : c.store.rows.Perm q)
    (bytes : c.approxBytes = total Cached.cost q) (k : CacheKey D) :
    (c.remove k).approxBytes = weigh Cached.key Cached.cost k q := by
  have hsplit : total Cached.cost q =
      weigh Cached.key Cached.cost k q + total Cached.cost (c.store.find? k).toList := by
    rw [← Table.filter_key, weigh, total, total, total,
      ← ((rows.filter fun e => e.key ≠ k).map Cached.cost).sum_eq, ← (rows.map Cached.cost).sum_eq,
      Nat.add_comm, ← List.sum_append, ← List.map_append]
    apply List.Perm.sum_eq
    apply List.Perm.map
    simpa using (List.filter_append_perm (fun e : Cached D => decide (e.key = k)) c.store.rows).symm
  unfold remove
  cases hf : c.store.find? k with
  | none => simpa [hf, total, bytes] using hsplit
  | some e =>
    have : c.approxBytes - PluginHost.approxBytes e.response = weigh Cached.key Cached.cost k q := by
      rw [bytes, hsplit, hf]
      simp [total, Cached.cost]
    exact this

theorem evict_represents {k : CacheKey D} {extra : Nat} {c : ParseCache D} {q : List (Cached D)}
    (nodup : (q.map Cached.key).Nodup) (rows : c.store.rows.Perm (q.filter fun e => e.key ≠ k))
    (bytes : c.approxBytes = weigh Cached.key Cached.cost k q) :
    let left := drain Cached.key Cached.cost MAX_CACHE_BYTES k extra q
    let after := evict k extra c (q.map Cached.key)
    after.1.store.rows.Perm (left.filter fun e => e.key ≠ k) ∧
      after.1.approxBytes = weigh Cached.key Cached.cost k left ∧
      after.1.insertionOrder = left.map Cached.key ∧
      (after.2 = true ↔ k ∈ q.map Cached.key ∧ k ∉ left.map Cached.key) := by
  induction q generalizing c with
  | nil => exact ⟨rows, bytes, rfl, by simp [evict, drain]⟩
  | cons e q ih =>
    obtain ⟨he, hq⟩ := List.nodup_cons.mp nodup
    rw [List.map_cons, evict, drain, bytes]
    split
    · by_cases hk : e.key = k
      · -- the refreshed key's own slot, whose entry is gone already
        rw [hk] at he
        rw [weigh_cons_self hk] at bytes
        rw [List.filter_cons_of_neg (by simpa using hk)] at rows
        obtain ⟨hrows, hbytes, horder, _⟩ := ih (c := c) hq rows bytes
        refine ⟨?_, ?_, ?_, ?_⟩ <;> simp only [if_pos hk]
        · exact hrows
        · exact hbytes
        · exact horder
        · have hgone : k ∉ (drain Cached.key Cached.cost MAX_CACHE_BYTES k extra q).map
              Cached.key := fun h => he (((drain_suffix q).map Cached.key).subset h)
          simp [hk, hgone]
      · rw [List.filter_cons_of_pos (by simpa using hk)] at rows
        have hkeep : ((q.filter fun x => x.key ≠ k).filter fun x => x.key ≠ e.key) =
            q.filter fun x => x.key ≠ k := by
          apply filter_of_not_mem
          exact fun h => he ((List.filter_sublist.map Cached.key).subset h)
        have hrows : (c.remove e.key).store.rows.Perm (q.filter fun x => x.key ≠ k) := by
          rw [remove_rows]
          have := rows.filter fun x => decide (x.key ≠ e.key)
          rwa [List.filter_cons_of_neg (by simp), hkeep] at this
        have hbytes : (c.remove e.key).approxBytes = weigh Cached.key Cached.cost k q := by
          rw [remove_bytes rows (bytes.trans (by rw [weigh, List.filter_cons_of_pos (by simpa using hk)])),
            weigh_cons_self rfl, weigh, hkeep]
          rfl
        simp only [if_neg hk]
        obtain ⟨h₁, h₂, h₃, h₄⟩ := ih hq hrows hbytes
        refine ⟨h₁, h₂, h₃, h₄.trans ?_⟩
        simp [Ne.symm hk]
    · refine ⟨rows, rfl, rfl, ?_⟩
      simp only [Bool.false_eq_true, false_iff, not_and_not_right, List.map_cons, imp_self]

theorem insert_represents {c : ParseCache D} {q : List (Cached D)} (h : c.Represents q)
    (k : CacheKey D) (resp : ParseResponse) :
    (c.insert k resp).Represents
      (enter Cached.key Cached.cost MAX_CACHE_BYTES q ⟨k, resp⟩) := by
  by_cases hbig : MAX_CACHE_BYTES < PluginHost.approxBytes resp
  · have hsame : c.insert k resp = c := by simp only [insert, if_pos hbig]
    rw [hsame, enter, if_pos (by exact hbig)]
    exact h
  · have hrows : (c.remove k).store.rows.Perm (q.filter fun e => e.key ≠ k) := by
      rw [remove_rows]
      exact h.rows.filter _
    obtain ⟨h₁, h₂, h₃, h₄⟩ := @evict_represents _ _ _ (PluginHost.approxBytes resp) _ _ h.nodup
      hrows (remove_bytes h.rows h.bytes k)
    have henter : enter Cached.key Cached.cost MAX_CACHE_BYTES q ⟨k, resp⟩ = place Cached.key
        ⟨k, resp⟩ (drain Cached.key Cached.cost MAX_CACHE_BYTES k (PluginHost.approxBytes resp) q) :=
      if_neg hbig
    have hsuf : drain Cached.key Cached.cost MAX_CACHE_BYTES k (PluginHost.approxBytes resp) q <:+ q :=
      drain_suffix q
    have hnodup := h.nodup.sublist (hsuf.sublist.map Cached.key)
    rw [henter]
    generalize hleft : drain Cached.key Cached.cost MAX_CACHE_BYTES k (PluginHost.approxBytes resp) q = left at *
    have hexisted : (c.store.find? k).isSome ↔ k ∈ q.map Cached.key := by
      rw [← Table.has_iff_find?, h.has_iff]
    have hsub : k ∈ left.map Cached.key → k ∈ q.map Cached.key := by
      rw [← hleft]
      exact fun hk => ((drain_suffix q).map Cached.key).subset hk
    have hins : c.insert k resp =
        ⟨(evict k (PluginHost.approxBytes resp) (c.remove k) (q.map Cached.key)).1.store.insertIgnore
            ⟨k, resp⟩,
          weigh Cached.key Cached.cost k left + PluginHost.approxBytes resp,
          (place Cached.key ⟨k, resp⟩ left).map Cached.key⟩ := by
      simp only [insert, if_neg hbig, h.order, h₂, h₃, ParseCache.mk.injEq, true_and, map_key_place]
      by_cases hk : k ∈ left.map Cached.key
      · have hold := hexisted.mpr (hsub hk)
        have hflag := mt h₄.mp fun hboth => hboth.2 hk
        rw [if_neg (by simp [hold, hflag]), if_pos hk]
      · rw [if_neg hk, if_pos]
        by_cases hold : k ∈ q.map Cached.key
        · simp [h₄.mpr ⟨hold, hk⟩]
        · simp [mt hexisted.mp hold]
    have hfree : ¬ (evict k (PluginHost.approxBytes resp) (c.remove k)
        (q.map Cached.key)).1.store.Has k := by
      intro hhas
      obtain ⟨e, he, hek⟩ := hhas
      have := (List.mem_filter.mp (h₁.subset he)).2
      simp [hek] at this
    rw [hins]
    refine ⟨?_, ?_, rfl⟩
    · rw [Table.insertIgnore, dif_neg hfree]
      exact (h₁.append_right _).trans (place_perm ⟨k, resp⟩ hnodup).symm
    · exact (total_place (e := ⟨k, resp⟩) hnodup).symm

end ParseCache

/-! ### A run, with the times of its insertions -/

inductive CacheOp (D : Type) where
  | insert (key : CacheKey D) (resp : ParseResponse)
  | get (key : CacheKey D)

variable [DecidableEq D]

/-- The cost of the entries under other keys that satisfy `p`. -/
def ParseCache.heldBesides (c : ParseCache D) (key : CacheKey D) (p : CacheKey D → Bool) : Nat :=
  total Cached.cost (c.store.rows.filter fun e => decide (e.key ≠ key) && p e.key)

/-- A cache, with the time at which each key last came in (`entered`) and the time at which it last
took a slot at the back of the queue (`slot`). -/
structure Observed (D : Type) where
  cache : ParseCache D
  clock : Nat
  entered : CacheKey D → Nat
  slot : CacheKey D → Nat

def Observed.start : Observed D := ⟨ParseCache.new, 0, fun _ => 0, fun _ => 0⟩

/-- A held key keeps its slot while it and the newer ones leave room for the new response. -/
def Observed.keepsSlot (o : Observed D) (key : CacheKey D) (resp : ParseResponse) : Bool :=
  (o.cache.get key).isSome ∧
    o.cache.heldBesides key (fun k => o.slot key ≤ o.slot k) + approxBytes resp ≤ MAX_CACHE_BYTES

def Observed.step (o : Observed D) : CacheOp D → Observed D
  | .insert key resp =>
    { cache := o.cache.insert key resp
      clock := o.clock + 1
      entered :=
        if MAX_CACHE_BYTES < approxBytes resp ∨ (o.cache.get key).isSome then o.entered
        else Function.update o.entered key o.clock
      slot :=
        if MAX_CACHE_BYTES < approxBytes resp ∨ o.keepsSlot key resp then o.slot
        else Function.update o.slot key o.clock }
  | .get _ => { o with clock := o.clock + 1 }

def CacheOp.inserted (key : CacheKey D) : CacheOp D → Option ParseResponse
  | .insert k resp => if k = key then some resp else none
  | .get _ => none

def lastInserted (ops : List (CacheOp D)) (key : CacheKey D) : Option ParseResponse :=
  (ops.filterMap (CacheOp.inserted key)).getLast?

def lastFitting (ops : List (CacheOp D)) (key : CacheKey D) : Option ParseResponse :=
  ((ops.filterMap (CacheOp.inserted key)).filter fun r =>
    approxBytes r ≤ MAX_CACHE_BYTES).getLast?

theorem lastFitting_concat (ops : List (CacheOp D)) (op : CacheOp D) (key : CacheKey D) :
    lastFitting (ops ++ [op]) key =
      (((op.inserted key).filter fun r => approxBytes r ≤ MAX_CACHE_BYTES).or
        (lastFitting ops key)) := by
  rw [lastFitting, lastFitting, List.filterMap_append, List.filter_append, List.getLast?_append]
  congr 1
  cases h : op.inserted key with
  | none => simp [h]
  | some r => by_cases hr : approxBytes r ≤ MAX_CACHE_BYTES <;> simp [h, hr, Option.filter]

/-! ### What holds after every run -/

theorem heldBesides_eq {c : ParseCache D} {q : List (Cached D)} (h : c.Represents q)
    (key : CacheKey D) (p : CacheKey D → Bool) :
    c.heldBesides key p = weigh Cached.key Cached.cost key (q.filter fun e => p e.key) := by
  rw [ParseCache.heldBesides, weigh, List.filter_filter, total, total]
  exact ((h.rows.filter _).map Cached.cost).sum_eq

theorem get_isSome_iff {c : ParseCache D} {q : List (Cached D)} (h : c.Represents q)
    (key : CacheKey D) : (c.get key).isSome ↔ key ∈ q.map Cached.key := by
  rw [← h.has_iff, Table.has_iff_find?, ParseCache.get, Option.isSome_map]

/-- The queue under the cache, its slots in the order of their times. -/
structure Observed.Tracks (ops : List (CacheOp D)) (o : Observed D) (q : List (Cached D)) :
    Prop where
  represents : o.cache.Represents q
  fits : total Cached.cost q ≤ MAX_CACHE_BYTES
  sorted : (q.map Cached.key).Pairwise fun a b => o.slot a < o.slot b
  past : ∀ k ∈ q.map Cached.key, o.slot k < o.clock
  latest : ∀ e ∈ q, lastFitting ops e.key = some e.response

theorem Observed.Tracks.mem_left {ops : List (CacheOp D)} {o : Observed D} {q : List (Cached D)}
    (h : o.Tracks ops q) {key k : CacheKey D} (hk : k ∈ q.map Cached.key) (extra : Nat) :
    k ∈ (drain Cached.key Cached.cost MAX_CACHE_BYTES key extra q).map Cached.key ↔
      o.cache.heldBesides key (fun x => o.slot k ≤ o.slot x) + extra ≤ MAX_CACHE_BYTES := by
  obtain ⟨e, he, rfl⟩ := List.mem_map.mp hk
  have hsorted : q.Pairwise fun a b => o.slot a.key < o.slot b.key :=
    (List.pairwise_map (f := Cached.key)).mp h.sorted
  have hdrain : e ∈ drain Cached.key Cached.cost MAX_CACHE_BYTES key extra q ↔ _ :=
    mem_drain hsorted he
  rw [heldBesides_eq h.represents, ← hdrain]
  constructor
  · intro hmem
    obtain ⟨e', he', hkey⟩ := List.mem_map.mp hmem
    have hq := (drain_suffix q).subset he'
    rwa [← List.inj_on_of_nodup_map h.represents.nodup hq he hkey]
  · exact fun hmem => List.mem_map_of_mem hmem

theorem Observed.Tracks.keepsSlot_iff {ops : List (CacheOp D)} {o : Observed D}
    {q : List (Cached D)} (h : o.Tracks ops q) (key : CacheKey D) (resp : ParseResponse) :
    o.keepsSlot key resp = true ↔
      key ∈ (drain Cached.key Cached.cost MAX_CACHE_BYTES key (approxBytes resp) q).map
        Cached.key := by
  rw [keepsSlot, decide_eq_true_eq, get_isSome_iff h.represents]
  constructor
  · exact fun ⟨hk, hroom⟩ => (h.mem_left hk _).mpr hroom
  · intro hmem
    have hk := ((drain_suffix q).map Cached.key).subset hmem
    exact ⟨hk, (h.mem_left hk _).mp hmem⟩

theorem Observed.Tracks.insert {ops : List (CacheOp D)} {o : Observed D} {q : List (Cached D)}
    (h : o.Tracks ops q) (key : CacheKey D) (resp : ParseResponse) :
    (o.step (.insert key resp)).Tracks (ops ++ [.insert key resp])
      (enter Cached.key Cached.cost MAX_CACHE_BYTES q ⟨key, resp⟩) := by
  have hrep := ParseCache.insert_represents h.represents key resp
  by_cases hbig : MAX_CACHE_BYTES < approxBytes resp
  · have hq : enter Cached.key Cached.cost MAX_CACHE_BYTES q ⟨key, resp⟩ = q := if_pos hbig
    rw [hq] at hrep ⊢
    refine ⟨hrep, h.fits, ?_, fun k hk => ?_, fun e he => ?_⟩
    · simpa only [step, hbig, true_or, if_true] using h.sorted
    · simpa only [step, hbig, true_or, if_true] using Nat.lt_succ_of_lt (h.past k hk)
    · rw [lastFitting_concat, ← h.latest e he, Option.filter_eq_none_iff.mpr]
      · rfl
      · intro r hr
        have : r = resp := by
          simp only [CacheOp.inserted] at hr
          split at hr
          · exact (Option.some.inj hr).symm
          · cases hr
        simp [this, hbig]
  · have hslot := h.keepsSlot_iff key resp
    have hroom : weigh Cached.key Cached.cost key
        (drain Cached.key Cached.cost MAX_CACHE_BYTES key (approxBytes resp) q) + approxBytes resp ≤
          MAX_CACHE_BYTES := weigh_drain (Nat.le_of_not_lt hbig) q
    have hsuf : drain Cached.key Cached.cost MAX_CACHE_BYTES key (approxBytes resp) q <:+ q :=
      drain_suffix q
    have henter : enter Cached.key Cached.cost MAX_CACHE_BYTES q ⟨key, resp⟩ = place Cached.key
        ⟨key, resp⟩ (drain Cached.key Cached.cost MAX_CACHE_BYTES key (approxBytes resp) q) :=
      if_neg hbig
    have hnodup := h.represents.nodup.sublist (hsuf.sublist.map Cached.key)
    rw [henter] at hrep ⊢
    generalize drain Cached.key Cached.cost MAX_CACHE_BYTES key (approxBytes resp) q = left at *
    have hsorted := h.sorted.sublist (hsuf.sublist.map Cached.key)
    have hpast : ∀ k ∈ left.map Cached.key, o.slot k < o.clock :=
      fun k hk => h.past k ((hsuf.map Cached.key).subset hk)
    refine ⟨hrep, ?_, ?_, ?_, ?_⟩
    · rw [total_place hnodup]
      exact hroom
    · rw [map_key_place]
      by_cases hk : key ∈ left.map Cached.key
      · simpa only [step, hslot.mpr hk, or_true, if_true, if_pos hk] using hsorted
      · have hslot' : ¬ (MAX_CACHE_BYTES < approxBytes resp ∨ o.keepsSlot key resp = true) :=
          fun hor => hor.elim hbig (mt hslot.mp hk)
        simp only [step, if_neg hslot', if_neg hk]
        rw [List.pairwise_append]
        refine ⟨hsorted.imp_of_mem ?_, by simp, ?_⟩
        · intro a b ha hb hab
          have hak : a ≠ key := fun heq => hk (heq ▸ ha)
          have hbk : b ≠ key := fun heq => hk (heq ▸ hb)
          simpa [hak, hbk] using hab
        · intro a ha b hb
          have hak : a ≠ key := fun heq => hk (heq ▸ ha)
          simpa [List.mem_singleton.mp hb, hak] using hpast a ha
    · intro k hk
      have hcases : k = key ∨ k ∈ left.map Cached.key := by
        rw [map_key_place] at hk
        split at hk
        · exact .inr hk
        · rcases List.mem_append.mp hk with hk | hk
          · exact .inr hk
          · exact .inl (List.mem_singleton.mp hk)
      simp only [step]
      split
      · case isTrue hkeep =>
        have hkey := hslot.mp (hkeep.resolve_left hbig)
        rcases hcases with heq | hmem
        · exact Nat.lt_succ_of_lt (hpast k (heq ▸ hkey))
        · exact Nat.lt_succ_of_lt (hpast k hmem)
      · by_cases heq : k = key
        · simp [heq]
        · simpa [heq] using Nat.lt_succ_of_lt (hpast k (hcases.resolve_left heq))
    · intro e he
      rw [lastFitting_concat]
      rcases (mem_place hnodup).mp he with rfl | ⟨hmem, hne⟩
      · have hle : approxBytes resp ≤ MAX_CACHE_BYTES := Nat.le_of_not_lt hbig
        simp [CacheOp.inserted, Option.filter, hle]
      · have hother : (CacheOp.insert key resp).inserted e.key = none := if_neg (Ne.symm hne)
        rw [hother]
        exact h.latest e (hsuf.subset hmem)

theorem Observed.Tracks.get {ops : List (CacheOp D)} {o : Observed D} {q : List (Cached D)}
    (h : o.Tracks ops q) (key : CacheKey D) :
    (o.step (.get key)).Tracks (ops ++ [.get key]) q where
  represents := h.represents
  fits := h.fits
  sorted := h.sorted
  past k hk := Nat.lt_succ_of_lt (h.past k hk)
  latest e he := by
    rw [lastFitting_concat, ← h.latest e he]
    rfl

def observe (ops : List (CacheOp D)) : Observed D := Runs.run Observed.step Observed.start ops

theorem observe_concat (ops : List (CacheOp D)) (op : CacheOp D) :
    observe (ops ++ [op]) = (observe ops).step op := by
  simp [observe, Runs.run]

theorem observe_tracks (ops : List (CacheOp D)) : ∃ q, (observe ops).Tracks ops q := by
  induction ops using List.reverseRecOn with
  | nil =>
    refine ⟨[], ⟨List.Perm.refl _, rfl, rfl⟩, Nat.zero_le _, List.Pairwise.nil, ?_, ?_⟩ <;> simp
  | append_singleton ops op ih =>
    obtain ⟨q, hq⟩ := ih
    rw [observe_concat]
    cases op with
    | insert key resp => exact ⟨_, hq.insert key resp⟩
    | get key => exact ⟨q, hq.get key⟩

/-- The state of the cache after the operations. A held entry goes exactly when the new one does
not fit beside it and those with a later slot, so those with the oldest slots go first. -/
structure CacheInvariants (ops : List (CacheOp D)) (o : Observed D) : Prop where
  bytes : o.cache.approxBytes = (o.cache.store.rows.map fun e => approxBytes e.response).sum
  bound : o.cache.approxBytes ≤ MAX_CACHE_BYTES
  distinct : o.cache.insertionOrder.Nodup
  stored : ∀ k, k ∈ o.cache.insertionOrder ↔ o.cache.store.Has k
  sorted : o.cache.insertionOrder.Pairwise fun a b => o.slot a < o.slot b
  evicted : ∀ key resp, approxBytes resp ≤ MAX_CACHE_BYTES → ∀ k, o.cache.store.Has k → k ≠ key →
    (¬ (o.cache.insert key resp).store.Has k ↔
      MAX_CACHE_BYTES < o.cache.heldBesides key (fun x => o.slot k ≤ o.slot x) + approxBytes resp)
  oldestFirst : ∀ key resp a b, o.cache.store.Has a → o.cache.store.Has b →
    ¬ (o.cache.insert key resp).store.Has a → (o.cache.insert key resp).store.Has b → b ≠ key →
      o.slot a < o.slot b
  latest : ∀ k r, o.cache.get k = some r → lastFitting ops k = some r

theorem Observed.Tracks.evicted {ops : List (CacheOp D)} {o : Observed D} {q : List (Cached D)}
    (h : o.Tracks ops q) (key : CacheKey D) {resp : ParseResponse}
    (hfit : approxBytes resp ≤ MAX_CACHE_BYTES) {k : CacheKey D} (hk : o.cache.store.Has k)
    (hne : k ≠ key) :
    ¬ (o.cache.insert key resp).store.Has k ↔
      MAX_CACHE_BYTES <
        o.cache.heldBesides key (fun x => o.slot k ≤ o.slot x) + approxBytes resp := by
  have henter : enter Cached.key Cached.cost MAX_CACHE_BYTES q ⟨key, resp⟩ = place Cached.key
      ⟨key, resp⟩ (drain Cached.key Cached.cost MAX_CACHE_BYTES key (approxBytes resp) q) :=
    if_neg (Nat.not_lt.mpr hfit)
  rw [(ParseCache.insert_represents h.represents key resp).has_iff, henter, map_key_place, ← Nat.not_le,
    ← h.mem_left ((h.represents.has_iff k).mp hk)]
  apply not_congr
  split
  · exact Iff.rfl
  · simp [hne]

theorem heldBesides_mono (c : ParseCache D) (key : CacheKey D) {p p' : CacheKey D → Bool}
    (h : ∀ k, p k = true → p' k = true) : c.heldBesides key p ≤ c.heldBesides key p' := by
  apply List.Sublist.sum_le_sum
  · apply List.Sublist.map
    apply List.monotone_filter_right
    intro e he
    have := Bool.and_eq_true_iff.mp he
    exact Bool.and_eq_true_iff.mpr ⟨this.1, h _ this.2⟩
  · exact fun _ _ => Nat.zero_le _

theorem Observed.Tracks.oldestFirst {ops : List (CacheOp D)} {o : Observed D}
    {q : List (Cached D)} (h : o.Tracks ops q) {key : CacheKey D} {resp : ParseResponse}
    {a b : CacheKey D} (ha : o.cache.store.Has a) (hb : o.cache.store.Has b)
    (hout : ¬ (o.cache.insert key resp).store.Has a)
    (hin : (o.cache.insert key resp).store.Has b) (hne : b ≠ key) : o.slot a < o.slot b := by
  by_cases hbig : MAX_CACHE_BYTES < approxBytes resp
  · have hsame : o.cache.insert key resp = o.cache := by simp only [ParseCache.insert, if_pos hbig]
    rw [hsame] at hout
    exact absurd ha hout
  · have hfit := Nat.le_of_not_lt hbig
    have hakey : a ≠ key := by
      intro heq
      apply hout
      have : (o.cache.insert key resp).get key = _ := ParseCache.get_insert hfit
      rw [heq, Table.has_iff_find?]
      rw [ParseCache.get, Option.map_eq_some_iff] at this
      obtain ⟨e, he, _⟩ := this
      rw [he]
      rfl
    have hfull := (h.evicted key hfit ha hakey).mp hout
    have hroom := mt (h.evicted key hfit hb hne).mpr (not_not.mpr hin)
    by_contra hle
    have hmono : o.cache.heldBesides key (fun x => o.slot a ≤ o.slot x) ≤
        o.cache.heldBesides key (fun x => o.slot b ≤ o.slot x) := by
      apply heldBesides_mono o.cache key
      intro k hk
      simp only [decide_eq_true_eq] at hk ⊢
      omega
    omega

theorem Observed.Tracks.invariants {ops : List (CacheOp D)} {o : Observed D} {q : List (Cached D)}
    (h : o.Tracks ops q) : CacheInvariants ops o where
  bytes := by
    rw [h.represents.bytes]
    exact ((h.represents.rows.map Cached.cost).sum_eq).symm
  bound := h.represents.bytes ▸ h.fits
  distinct := h.represents.order ▸ h.represents.nodup
  stored k := by rw [h.represents.order, h.represents.has_iff]
  sorted := h.represents.order ▸ h.sorted
  evicted key resp hfit k hk hne := h.evicted key hfit hk hne
  oldestFirst key resp a b ha hb hout hin hne := h.oldestFirst ha hb hout hin hne
  latest k r hget := by
    obtain ⟨e, he, rfl, rfl⟩ := ParseCache.mem_of_get hget
    exact h.latest e (h.represents.rows.subset he)

/-- After every run of insertions and lookups. -/
theorem cacheInvariants (ops : List (CacheOp D)) : CacheInvariants ops (observe ops) := by
  obtain ⟨q, hq⟩ := observe_tracks ops
  exact hq.invariants

/-! ### Refusals, and refreshes that lose their slot -/

/-- A lookup answers with the latest insertion under its key, whatever its size. -/
def AnswersLatest (ops : List (CacheOp D)) : Prop :=
  ∀ k r, (observe ops).cache.get k = some r → lastInserted ops k = some r

/-- The next insertion evicts the keys that came in first. -/
def EvictsFirstEntered (ops : List (CacheOp D)) : Prop :=
  ∀ key resp a b, (observe ops).cache.store.Has a → (observe ops).cache.store.Has b →
    ¬ ((observe ops).cache.insert key resp).store.Has a →
    ((observe ops).cache.insert key resp).store.Has b → b ≠ key →
      (observe ops).entered a < (observe ops).entered b

/-- A response of `n` edges, which costs 48 bytes for each. -/
def edgesResponse (n : Nat) : ParseResponse := ⟨[], List.replicate n ⟨0, 0, .refCall, none, none⟩, []⟩

theorem approxBytes_edgesResponse (n : Nat) : approxBytes (edgesResponse n) = 48 * n := by
  simp [approxBytes, edgesResponse, EDGE_OVERHEAD, Nat.mul_comm]

def fileKey (n : Nat) : CacheKey Nat := ⟨"0.1.0", n⟩

/-- A third of the budget each for the keys 1 and 2, then two thirds for key 0, the oldest. -/
def refreshOldest (empty third twoThirds : ParseResponse) : List (CacheOp Nat) :=
  [.insert (fileKey 0) empty, .insert (fileKey 1) third, .insert (fileKey 2) third,
    .insert (fileKey 0) twoThirds]

theorem refreshOldest_queues {empty third twoThirds : ParseResponse} (hempty : approxBytes empty = 0)
    (hthird : approxBytes third = 22369584) (htwo : approxBytes twoThirds = 44739168) :
    (observe ((refreshOldest empty third twoThirds).take 3)).cache.Represents
      [⟨fileKey 0, empty⟩, ⟨fileKey 1, third⟩, ⟨fileKey 2, third⟩] ∧
    (observe (refreshOldest empty third twoThirds)).cache.Represents
      [⟨fileKey 2, third⟩, ⟨fileKey 0, twoThirds⟩] ∧
    ((observe (refreshOldest empty third twoThirds)).cache.insert (fileKey 3) third).Represents
      [⟨fileKey 0, twoThirds⟩, ⟨fileKey 3, third⟩] := by
  have h₀ : (ParseCache.new : ParseCache Nat).Represents [] := ⟨List.Perm.refl _, rfl, rfl⟩
  have h₃ := ParseCache.insert_represents (ParseCache.insert_represents
    (ParseCache.insert_represents h₀ (fileKey 0) empty) (fileKey 1) third) (fileKey 2) third
  have h₄ := ParseCache.insert_represents h₃ (fileKey 0) twoThirds
  have h₅ := ParseCache.insert_represents h₄ (fileKey 3) third
  simp [enter, drain, place, weigh, total, Cached.cost, hempty, hthird, htwo, MAX_CACHE_BYTES,
    fileKey] at h₃ h₄ h₅
  exact ⟨h₃, h₄, h₅⟩

theorem entered_step_ne (o : Observed D) {key k : CacheKey D} (h : k ≠ key)
    (resp : ParseResponse) : (o.step (.insert key resp)).entered k = o.entered k := by
  simp only [Observed.step]
  split
  · rfl
  · exact Function.update_of_ne h _ _

theorem entered_refreshOldest {empty third twoThirds : ParseResponse}
    (hempty : approxBytes empty = 0) (hthird : approxBytes third = 22369584)
    (htwo : approxBytes twoThirds = 44739168) :
    (observe (refreshOldest empty third twoThirds)).entered (fileKey 0) = 0 := by
  obtain ⟨h₃, _, _⟩ := refreshOldest_queues hempty hthird htwo
  have hheld : ((observe ((refreshOldest empty third twoThirds).take 3)).cache.get
      (fileKey 0)).isSome := (get_isSome_iff h₃ _).mpr (by simp)
  have hsplit : refreshOldest empty third twoThirds =
      (refreshOldest empty third twoThirds).take 3 ++ [.insert (fileKey 0) twoThirds] := rfl
  rw [hsplit, observe_concat, Observed.step, if_pos (.inr hheld)]
  have hne : ∀ n, n ≠ 0 → fileKey 0 ≠ fileKey n := by
    intro n hn heq
    simp only [fileKey, CacheKey.mk.injEq, true_and] at heq
    exact hn heq.symm
  show (((Observed.start.step (.insert (fileKey 0) empty)).step (.insert (fileKey 1) third)).step
    (.insert (fileKey 2) third)).entered (fileKey 0) = 0
  rw [entered_step_ne _ (hne 2 (by decide)), entered_step_ne _ (hne 1 (by decide))]
  simp [Observed.step, Observed.start]

theorem get_after_refusal {small big : ParseResponse} (hsmall : approxBytes small ≤ MAX_CACHE_BYTES)
    (hbig : MAX_CACHE_BYTES < approxBytes big) :
    (observe [.insert (fileKey 0) small, .insert (fileKey 0) big]).cache.get (fileKey 0) =
      some small := by
  show ((ParseCache.new.insert (fileKey 0) small).insert (fileKey 0) big).get (fileKey 0) = _
  have hsame : (ParseCache.new.insert (fileKey 0) small).insert (fileKey 0) big =
      ParseCache.new.insert (fileKey 0) small := by
    rw [ParseCache.insert, if_pos hbig]
  rw [hsame]
  exact ParseCache.get_insert hsmall

theorem oversized_kept_and_refresh_overtaken :
    ¬ AnswersLatest [.insert (fileKey 0) (edgesResponse 0),
      .insert (fileKey 0) (edgesResponse 2000000)] ∧
    ¬ EvictsFirstEntered
      (refreshOldest (edgesResponse 0) (edgesResponse 466033) (edgesResponse 932066)) := by
  constructor
  · intro h
    have hbig : MAX_CACHE_BYTES < approxBytes (edgesResponse 2000000) := by
      rw [approxBytes_edgesResponse]
      decide
    have hsmall : approxBytes (edgesResponse 0) ≤ MAX_CACHE_BYTES := by
      rw [approxBytes_edgesResponse]
      decide
    have hlast := congrArg (Option.map approxBytes) (h _ _ (get_after_refusal hsmall hbig))
    simp [lastInserted, CacheOp.inserted, approxBytes_edgesResponse] at hlast
  · intro h
    have hempty := approxBytes_edgesResponse 0
    have hthird := approxBytes_edgesResponse 466033
    have htwo := approxBytes_edgesResponse 932066
    have hentered := entered_refreshOldest hempty hthird htwo
    obtain ⟨_, h₄, h₅⟩ := refreshOldest_queues hempty hthird htwo
    have hlt := h (fileKey 3) (edgesResponse 466033) (fileKey 2) (fileKey 0)
      ((h₄.has_iff _).mpr (by simp)) ((h₄.has_iff _).mpr (by simp))
      (mt (h₅.has_iff _).mp (by simp [fileKey])) ((h₅.has_iff _).mpr (by simp))
      (by simp [fileKey])
    omega

end Travsr.PluginHost
