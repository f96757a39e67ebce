import Mathlib.Algebra.Order.BigOperators.Group.List
import Mathlib.Algebra.Order.Ring.Nat
import Travsr.Daemon.MeterCounters
import Travsr.Lib.Runs

namespace Travsr.Daemon

open Travsr.Core Travsr.Store Relational Runs

/-! ### What scoring does to the counters -/

section

variable {f : Faults} {ratified : List String} {es : List (String × LivePrecision)}

def Scorable (ratified : List String) (e : String × LivePrecision) : Prop :=
  ¬ (e.2.claims = 0 ∨ e.1 ∉ ratified)

instance (ratified : List String) : DecidablePred (Scorable ratified) :=
  fun _ => inferInstanceAs (Decidable (¬ _))

def scoredLanguages (ratified : List String) (es : List (String × LivePrecision)) : List String :=
  (es.filter fun e => Scorable ratified e).map Prod.fst

theorem scoredLanguages_cons (e : String × LivePrecision) :
    scoredLanguages ratified (e :: es) =
      if Scorable ratified e then e.1 :: scoredLanguages ratified es
      else scoredLanguages ratified es := by
  unfold scoredLanguages
  split_ifs with h
  · rw [List.filter_cons_of_pos (by simpa using h), List.map_cons]
  · rw [List.filter_cons_of_neg (by simpa using h)]

theorem scoredLanguages_subset : scoredLanguages ratified es ⊆ es.map Prod.fst := by
  intro l hl
  obtain ⟨e, he, rfl⟩ := List.mem_map.mp hl
  exact List.mem_map_of_mem (List.mem_filter.mp he).1

theorem counter_measureLanguage (st : LiveStore × LivePrecision) (e : String × LivePrecision)
    (language : Option String) (v : Verdict) :
    counter (measureLanguage f ratified st e).1 language v =
      if language = some e.1 ∧ Scorable ratified e ∧ f.write (some e.1) = false then
        ((if f.read (some e.1) then 0 else counter st.1 (some e.1) v) + e.2.bucket v) % 2 ^ 64
      else counter st.1 language v := by
  unfold measureLanguage
  by_cases h : Scorable ratified e
  · rw [if_neg h, counter_writePrecisionTotals (parseTotals_addPrecision _ _), bucket_addPrecision,
      bucket_read]
    simp only [h, true_and, eq_comm]
  · rw [if_pos (not_not.mp h)]
    simp [h]

theorem languageSum_measureLanguage (st : LiveStore × LivePrecision) (e : String × LivePrecision)
    (v : Verdict) :
    languageSum (measureLanguage f ratified st e).1 v + counter st.1 (some e.1) v =
      languageSum st.1 v + counter (measureLanguage f ratified st e).1 (some e.1) v := by
  unfold measureLanguage
  by_cases h : Scorable ratified e
  · rw [if_neg h]
    exact @languageSum_writePrecisionTotals _ _ (some e.1) _ _
  · rw [if_pos (not_not.mp h)]

theorem run_measureLanguage (st : LiveStore × LivePrecision) (e : String × LivePrecision)
    (v : Verdict) :
    (measureLanguage f ratified st e).2.bucket v =
      if Scorable ratified e then (st.2.bucket v + e.2.bucket v) % 2 ^ 64 else st.2.bucket v := by
  unfold measureLanguage
  by_cases h : Scorable ratified e
  · rw [if_neg h, if_pos h, bucket_addPrecision]
  · rw [if_pos (not_not.mp h), if_neg h]

theorem counter_foldl_other (st : LiveStore × LivePrecision) {language : Option String}
    (h : ∀ e ∈ es, language ≠ some e.1) (v : Verdict) :
    counter (es.foldl (measureLanguage f ratified) st).1 language v = counter st.1 language v := by
  induction es generalizing st with
  | nil => rfl
  | cons e es ih =>
    rw [List.forall_mem_cons] at h
    rw [List.foldl_cons, ih _ h.2, counter_measureLanguage, if_neg fun hc => h.1 hc.1]

theorem counter_foldl (hnd : (es.map Prod.fst).Nodup) (st : LiveStore × LivePrecision)
    {e : String × LivePrecision} (he : e ∈ es) (v : Verdict) :
    counter (es.foldl (measureLanguage f ratified) st).1 (some e.1) v =
      if Scorable ratified e ∧ f.write (some e.1) = false then
        ((if f.read (some e.1) then 0 else counter st.1 (some e.1) v) + e.2.bucket v) % 2 ^ 64
      else counter st.1 (some e.1) v := by
  induction es generalizing st with
  | nil => cases he
  | cons x es ih =>
    obtain ⟨hx, hnd⟩ := List.nodup_cons.mp hnd
    rw [List.foldl_cons]
    rcases List.mem_cons.mp he with hex | he
    · subst hex
      rw [counter_foldl_other _ (fun y hy => ?_), counter_measureLanguage]
      · simp only [true_and]
      · intro hsame
        exact hx (List.mem_map.mpr ⟨y, hy, (Option.some.inj hsame).symm⟩)
    · have hne : ¬ some e.1 = some x.1 := by
        intro hsame
        exact hx (List.mem_map.mpr ⟨e, he, Option.some.inj hsame⟩)
      have hkeep : counter (measureLanguage f ratified st x).1 (some e.1) v =
          counter st.1 (some e.1) v := by
        rw [counter_measureLanguage, if_neg fun hc => hne hc.1]
      rw [ih hnd _ he, hkeep]

theorem run_foldl {T : String → Verdict → Nat} (hT : ∀ e ∈ es, ∀ v, e.2.bucket v = T e.1 v)
    (st : LiveStore × LivePrecision) (v : Verdict) (hst : st.2.bucket v < 2 ^ 64) :
    (es.foldl (measureLanguage f ratified) st).2.bucket v =
      (st.2.bucket v + ((scoredLanguages ratified es).map fun l => T l v).sum) % 2 ^ 64 := by
  induction es generalizing st with
  | nil => exact (Nat.mod_eq_of_lt hst).symm
  | cons e es ih =>
    rw [List.forall_mem_cons] at hT
    have hrun := @run_measureLanguage f ratified st e v
    rw [List.foldl_cons, ih hT.2, hrun, scoredLanguages_cons]
    · split_ifs with h
      · rw [List.map_cons, List.sum_cons, Nat.mod_add_mod, Nat.add_assoc, hT.1]
      · rfl
    · rw [hrun]
      split_ifs
      · exact Nat.mod_lt _ (Nat.two_pow_pos 64)
      · exact hst

/-- The sum of the per-language counters changes with the counters of the scored languages. -/
theorem languageSum_foldl (hnd : (es.map Prod.fst).Nodup) (st : LiveStore × LivePrecision)
    (v : Verdict) :
    languageSum (es.foldl (measureLanguage f ratified) st).1 v +
        ((scoredLanguages ratified es).map fun l => counter st.1 (some l) v).sum =
      languageSum st.1 v + ((scoredLanguages ratified es).map fun l =>
        counter (es.foldl (measureLanguage f ratified) st).1 (some l) v).sum := by
  induction es generalizing st with
  | nil => rfl
  | cons e es ih =>
    obtain ⟨he, hnd⟩ := List.nodup_cons.mp hnd
    have hih := ih hnd (measureLanguage f ratified st e)
    have hold : ((scoredLanguages ratified es).map fun l =>
        counter (measureLanguage f ratified st e).1 (some l) v) =
        (scoredLanguages ratified es).map fun l => counter st.1 (some l) v := by
      apply List.map_congr_left
      intro l hl
      rw [counter_measureLanguage, if_neg]
      intro hc
      exact he (Option.some.inj hc.1 ▸ scoredLanguages_subset hl)
    have hnew : counter (es.foldl (measureLanguage f ratified)
          (measureLanguage f ratified st e)).1 (some e.1) v =
        counter (measureLanguage f ratified st e).1 (some e.1) v := by
      apply counter_foldl_other
      intro y hy hsame
      exact he (List.mem_map.mpr ⟨y, hy, (Option.some.inj hsame).symm⟩)
    have hstep := @languageSum_measureLanguage f ratified st e v
    rw [hold] at hih
    rw [List.foldl_cons, scoredLanguages_cons]
    split_ifs with h
    · rw [List.map_cons, List.map_cons, List.sum_cons, List.sum_cons, hnew]
      omega
    · have hsame : measureLanguage f ratified st e = st := by
        rw [measureLanguage, if_pos (not_not.mp h)]
      rw [hsame] at hih ⊢
      exact hih

end

/-! ### The sample of a store -/

section

variable {f : Faults} {s : LiveStore} {ratified : List String}

def ratifiedTally (s : LiveStore) (ratified : List String) (v : Verdict) : Nat :=
  s.claims.countP fun c => c.1 ∈ ratified && s.verdict c.2 = v

theorem sample_nodup : (s.livePrecisionSampleByLanguage.entries.map Prod.fst).Nodup := by
  rw [List.Nodup, List.pairwise_map]
  exact s.livePrecisionSampleByLanguage.sorted.imp fun h => ne_of_lt h

theorem sample_entry {e : String × LivePrecision}
    (he : e ∈ s.livePrecisionSampleByLanguage.entries) (v : Verdict) :
    e.2.bucket v = s.tally e.1 v := by
  have hget : s.livePrecisionSampleByLanguage.get? e.1 = some e.2 := OrdMap.get?_eq_some.mpr he
  rw [← s.sample_bucket, hget, Option.getD_some]

theorem tally_pos {c : String × RefResolution} (hc : c ∈ s.claims) :
    0 < s.tally c.1 (s.verdict c.2) := by
  rw [LiveStore.tally, List.countP_pos_iff]
  exact ⟨c, hc, by simp⟩

theorem exists_claim_of_tally {l : String} {v : Verdict} (h : 0 < s.tally l v) :
    ∃ c ∈ s.claims, c.1 = l := by
  rw [LiveStore.tally, List.countP_pos_iff] at h
  obtain ⟨c, hc, hl⟩ := h
  rw [Bool.and_eq_true, decide_eq_true_eq] at hl
  exact ⟨c, hc, hl.1⟩

theorem exists_sample_entry {c : String × RefResolution} (hc : c ∈ s.claims) :
    ∃ p, (c.1, p) ∈ s.livePrecisionSampleByLanguage.entries := by
  have hpos := tally_pos hc
  rw [← s.sample_bucket] at hpos
  cases hget : s.livePrecisionSampleByLanguage.get? c.1 with
  | none =>
    rw [hget, Option.getD_none, LivePrecision.bucket_zero] at hpos
    exact absurd hpos (lt_irrefl 0)
  | some p => exact ⟨p, OrdMap.get?_eq_some.mp hget⟩

theorem claims_eq_sum_buckets (p : LivePrecision) :
    p.claims = p.bucket .agree + p.bucket .disagree + p.bucket .unverifiable := rfl

theorem claims_ne_zero_iff {p : LivePrecision} : p.claims ≠ 0 ↔ ∃ v, 0 < p.bucket v := by
  rw [claims_eq_sum_buckets]
  constructor
  · intro h
    by_contra hn
    have hzero : ∀ v, p.bucket v = 0 := fun v => by
      by_contra hv
      exact hn ⟨v, Nat.pos_of_ne_zero hv⟩
    apply h
    rw [hzero, hzero, hzero]
  · rintro ⟨v, hv⟩
    cases v <;> omega

def scored (s : LiveStore) (ratified : List String) : List String :=
  scoredLanguages ratified s.livePrecisionSampleByLanguage.entries

theorem mem_scored {l : String} :
    l ∈ scored s ratified ↔ l ∈ ratified ∧ ∃ c ∈ s.claims, c.1 = l := by
  unfold scored scoredLanguages
  rw [List.mem_map]
  constructor
  · rintro ⟨e, he, rfl⟩
    rw [List.mem_filter, decide_eq_true_eq, Scorable, not_or, not_not] at he
    obtain ⟨he, hclaims, hr⟩ := he
    obtain ⟨v, hv⟩ := claims_ne_zero_iff.mp hclaims
    rw [sample_entry he] at hv
    exact ⟨hr, exists_claim_of_tally hv⟩
  · rintro ⟨hr, c, hc, rfl⟩
    obtain ⟨p, hp⟩ := exists_sample_entry hc
    refine ⟨(c.1, p), ?_, rfl⟩
    rw [List.mem_filter, decide_eq_true_eq, Scorable, not_or, not_not]
    refine ⟨hp, claims_ne_zero_iff.mpr ⟨s.verdict c.2, ?_⟩, hr⟩
    have hpos := tally_pos hc
    rwa [← sample_entry hp] at hpos

theorem scored_nodup : (scored s ratified).Nodup :=
  sample_nodup.sublist (List.filter_sublist.map Prod.fst)

theorem entries_isEmpty_iff :
    s.livePrecisionSampleByLanguage.entries.isEmpty ↔ s.claims = [] := by
  rw [List.isEmpty_iff]
  constructor
  · intro h
    rw [List.eq_nil_iff_forall_not_mem]
    intro c hc
    obtain ⟨p, hp⟩ := exists_sample_entry hc
    rw [h] at hp
    exact List.not_mem_nil hp
  · intro h
    rw [LiveStore.livePrecisionSampleByLanguage, h]
    rfl

theorem sum_tally (v : Verdict) :
    ((scored s ratified).map fun l => s.tally l v).sum = ratifiedTally s ratified v := by
  have hcount : ∀ (ls : List String), ls.Nodup → ∀ cs : List (String × RefResolution),
      (∀ c ∈ cs, c.1 ∈ ls ↔ c.1 ∈ ratified) →
      (ls.map fun l => cs.countP fun c => c.1 = l && s.verdict c.2 = v).sum =
        cs.countP fun c => c.1 ∈ ratified && s.verdict c.2 = v := by
    intro ls hnd cs
    induction cs with
    | nil =>
      simp
    | cons c cs ih =>
      intro h
      rw [List.forall_mem_cons] at h
      have hone : ∀ ls : List String, ls.Nodup →
          (ls.map fun l => (c :: cs).countP fun c => c.1 = l && s.verdict c.2 = v).sum =
            (ls.map fun l => cs.countP fun c => c.1 = l && s.verdict c.2 = v).sum +
              if c.1 ∈ ls ∧ s.verdict c.2 = v then 1 else 0 := by
        intro ls hnd
        induction ls with
        | nil => simp
        | cons l ls ihl =>
          obtain ⟨hl, hnd⟩ := List.nodup_cons.mp hnd
          rw [List.map_cons, List.sum_cons, ihl hnd, List.map_cons, List.sum_cons,
            List.countP_cons]
          by_cases hcl : c.1 = l
          · have hnot : c.1 ∉ ls := hcl ▸ hl
            simp only [hcl, decide_true, Bool.true_and, decide_eq_true_eq, List.mem_cons, true_or,
              true_and, hl, false_and, if_false]
            omega
          · simp only [hcl, decide_false, Bool.false_and, Bool.false_eq_true, if_false,
              List.mem_cons, false_or]
            omega
      rw [hone ls hnd, ih h.2, List.countP_cons]
      simp only [h.1, Bool.and_eq_true, decide_eq_true_eq]
  apply hcount _ scored_nodup
  intro c hc
  rw [mem_scored]
  exact ⟨fun h => h.1, fun h => ⟨h, c, hc, rfl⟩⟩

theorem counter_congr {s s' : LiveStore} (h : s'.metadata = s.metadata) :
    counter s' = counter s ∧ languageSum s' = languageSum s := by
  constructor
  · funext language v
    rw [counter, counter, LiveStore.getMeta, LiveStore.getMeta, h]
  · funext v
    rw [languageSum, languageSum, h]

theorem counter_measure (l : String) (v : Verdict) :
    counter (measureLivePrecision f s ratified) (some l) v =
      if f.sample = false ∧ l ∈ scored s ratified ∧ f.write (some l) = false then
        ((if f.read (some l) then 0 else counter s (some l) v) + s.tally l v) % 2 ^ 64
      else counter s (some l) v := by
  unfold measureLivePrecision
  cases hf : f.sample with
  | true => simp
  | false =>
    simp only [Bool.false_eq_true, if_false, true_and]
    by_cases hempty : s.livePrecisionSampleByLanguage.entries.isEmpty
    · have hnone : l ∉ scored s ratified := by
        rw [scored, List.isEmpty_iff.mp hempty]
        exact List.not_mem_nil
      rw [if_pos hempty, if_neg fun h => hnone h.1]
    · rw [if_neg hempty, counter_writePrecisionTotals (parseTotals_addPrecision _ _),
        if_neg fun h => nomatch h.1]
      by_cases hl : l ∈ s.livePrecisionSampleByLanguage.entries.map Prod.fst
      · obtain ⟨e, he, rfl⟩ := List.mem_map.mp hl
        have hscored : Scorable ratified e ↔ e.1 ∈ scored s ratified := by
          constructor
          · intro h
            exact List.mem_map.mpr ⟨e, List.mem_filter.mpr ⟨he, by simpa using h⟩, rfl⟩
          · intro h
            obtain ⟨x, hx, hxe⟩ := List.mem_map.mp h
            obtain ⟨hx, hs⟩ := List.mem_filter.mp hx
            rw [← List.inj_on_of_nodup_map sample_nodup hx he hxe]
            simpa using hs
        rw [counter_foldl sample_nodup _ he, sample_entry he]
        simp only [hscored]
      · have hnot : l ∉ scored s ratified := fun h => hl (scoredLanguages_subset h)
        rw [if_neg fun h => hnot h.1]
        apply counter_foldl_other
        intro e he hsame
        exact hl (List.mem_map.mpr ⟨e, he, (Option.some.inj hsame).symm⟩)

theorem aggregate_measure (v : Verdict) :
    counter (measureLivePrecision f s ratified) none v =
      if f.sample = false ∧ s.claims ≠ [] ∧ f.write none = false then
        ((if f.read none then 0 else counter s none v) + ratifiedTally s ratified v) % 2 ^ 64
      else counter s none v := by
  unfold measureLivePrecision
  cases hf : f.sample with
  | true => simp
  | false =>
    simp only [Bool.false_eq_true, if_false, true_and]
    by_cases hempty : s.livePrecisionSampleByLanguage.entries.isEmpty
    · rw [if_pos hempty]
      exact (if_neg fun h => h.1 (entries_isEmpty_iff.mp hempty)).symm
    · have hclaims : s.claims ≠ [] := fun h => hempty (entries_isEmpty_iff.mpr h)
      have hrun := @run_foldl f ratified _ _
        (fun e (he : e ∈ s.livePrecisionSampleByLanguage.entries) v => sample_entry he v)
        (s, .zero) v (by rw [LivePrecision.bucket_zero]; exact Nat.two_pow_pos 64)
      rw [LivePrecision.bucket_zero, Nat.zero_add, ← scored, sum_tally] at hrun
      rw [if_neg hempty, counter_writePrecisionTotals (parseTotals_addPrecision _ _),
        bucket_addPrecision, bucket_read, hrun, Nat.add_mod_mod,
        counter_foldl_other _ fun e _ => (Option.some_ne_none e.1).symm]
      simp only [true_and, hclaims, ne_eq, not_false_eq_true]

theorem languageSum_measure (v : Verdict) :
    languageSum (measureLivePrecision f s ratified) v +
        ((scored s ratified).map fun l => counter s (some l) v).sum =
      languageSum s v + ((scored s ratified).map fun l =>
        counter (measureLivePrecision f s ratified) (some l) v).sum := by
  unfold measureLivePrecision
  by_cases hf : f.sample
  · rw [if_pos hf]
  · rw [if_neg hf]
    dsimp only
    by_cases hempty : s.livePrecisionSampleByLanguage.entries.isEmpty
    · rw [if_pos hempty]
    · rw [if_neg hempty]
      have hfold := @languageSum_foldl f ratified _ (sample_nodup (s := s)) (s, .zero) v
      have hlast : ∀ (t : LiveStore) (p : LivePrecision) (l : String),
          counter (writePrecisionTotals f t none (addPrecision
            (readPrecisionTotalsFor f t none) p)) (some l) v = counter t (some l) v := by
        intro t p l
        rw [counter_writePrecisionTotals (parseTotals_addPrecision _ _),
          if_neg fun h => nomatch h.1]
      have hsum : ∀ (t : LiveStore) (p : LivePrecision),
          languageSum (writePrecisionTotals f t none p) v = languageSum t v :=
        fun t p => @languageSum_writePrecisionTotals _ _ none _ _
      rw [hsum]
      simp only [hlast]
      exact hfold

end

/-! ### A ratification -/

section

variable {f : Faults} {s : LiveStore} {ratified : List String}

/-- The claim is of a ratified language. -/
def OfRatified (s : LiveStore) (ratified : List String) (r : RefResolution) : Prop :=
  ∃ l ∈ s.languageOf r.src, l ∈ ratified

theorem languageOf_eq_some {x : NodeId} {l : String} :
    s.languageOf x = some l ↔ ∃ n, n ∈ s.nodes ∧ n.id = x ∧ n.vname.language = l := by
  unfold SqliteStore.languageOf
  rw [Option.map_eq_some_iff]
  constructor
  · rintro ⟨n, hn, hl⟩
    obtain ⟨hmem, hid⟩ := Table.mem_of_find? hn
    exact ⟨n, hmem, hid, hl⟩
  · rintro ⟨n, hn, rfl, hl⟩
    exact ⟨n, Table.find?_of_mem (t := s.nodes.toTable) hn, hl⟩

theorem ofRatified_iff (r : RefResolution) :
    OfRatified s ratified r ↔ r.src ∈ s.idsWhere fun n => n.vname.language ∈ ratified := by
  rw [SqliteStore.mem_idsWhere]
  constructor
  · rintro ⟨l, hl, hr⟩
    obtain ⟨n, hn, hid, hnl⟩ := languageOf_eq_some.mp hl
    exact ⟨n, hn, hid, hnl ▸ hr⟩
  · rintro ⟨n, hn, hid, hr⟩
    exact ⟨n.vname.language, languageOf_eq_some.mpr ⟨n, hn, hid, rfl⟩, hr⟩

theorem stored_iff_languageOf {x : NodeId} : s.Stored x ↔ ∃ l, s.languageOf x = some l := by
  constructor
  · rintro ⟨n, hn, hid⟩
    exact ⟨n.vname.language, languageOf_eq_some.mpr ⟨n, hn, hid, rfl⟩⟩
  · rintro ⟨l, hl⟩
    obtain ⟨n, hn, hid, -⟩ := languageOf_eq_some.mp hl
    exact ⟨n, hn, hid⟩

theorem mem_claims {c : String × RefResolution} :
    c ∈ s.claims ↔ c.2 ∈ s.refs ∧ c.2.IsClaim ∧ s.languageOf c.2.src = some c.1 := by
  unfold LiveStore.claims
  rw [List.mem_filterMap]
  constructor
  · rintro ⟨r, hr, hc⟩
    obtain ⟨l, hl, rfl⟩ := Option.map_eq_some_iff.mp hc
    rw [List.mem_filter, decide_eq_true_eq] at hr
    exact ⟨hr.1, hr.2, hl⟩
  · rintro ⟨hr, hc, hl⟩
    refine ⟨c.2, List.mem_filter.mpr ⟨hr, by simpa using hc⟩, ?_⟩
    rw [hl]
    rfl

theorem claim_ratify {r : RefResolution} (hr : r.IsClaim) :
    r ∈ (ratifyLiveOverlay f s ratified).refs ↔
      r ∈ s.refs ∧ (f.consume = false → ¬ OfRatified s ratified r) ∧
        (f.reconcile = false → s.Stored r.src) := by
  have hmeasure := @measureLivePrecision_frame f s ratified
  have hconsume : r ∈ (consumeClaims f (measureLivePrecision f s ratified) ratified).refs ↔
      r ∈ s.refs ∧ (f.consume = false → ¬ OfRatified s ratified r) := by
    unfold consumeClaims LiveStore.consumeMeasuredRefResolutions
    cases f.consume with
    | true =>
      rw [if_pos rfl, hmeasure.2]
      simp
    | false =>
      rw [if_neg Bool.false_ne_true]
      by_cases hnil : ratified.isEmpty
      · rw [if_pos hnil, hmeasure.2, List.isEmpty_iff.mp hnil]
        simp [OfRatified]
      · rw [if_neg hnil, hmeasure.1, ofRatified_iff]
        change r ∈ Table.deleteWhere _ _ ↔ _
        rw [Table.mem_deleteWhere, hmeasure.2]
        simp [hr]
  have hnodes : (sweepOverlay f (consumeClaims f (measureLivePrecision f s ratified) ratified)
      ratified).nodes = s.nodes := by
    rw [sweepOverlay_frame.1, consumeClaims_frame.1, hmeasure.1]
  have hpending : r.state ≠ .pending := by
    rw [hr.1]
    decide
  unfold ratifyLiveOverlay reconcileClaims LiveStore.reconcileRefResolutionStates
  cases f.reconcile with
  | true =>
    rw [if_pos rfl, sweepOverlay_frame.2.1, hconsume]
    simp
  | false =>
    rw [if_neg Bool.false_ne_true]
    change r ∈ Table.deleteWhere _ _ ↔ _
    rw [Table.mem_deleteWhere, Table.mem_deleteWhere, sweepOverlay_frame.2.1, hconsume]
    unfold SqliteStore.Stored
    rw [hnodes]
    simp only [hpending, false_and, not_false_eq_true, and_true, not_not, forall_const, and_assoc]

/-- A ratification counts the claims of its languages, each once under its verdict, retires them,
and leaves the claims and the counters of other languages. -/
structure Conserves (f : Faults) (s : LiveStore) (ratified : List String) : Prop where
  counted : ∀ l v, counter (ratifyLiveOverlay f s ratified) (some l) v =
    counter s (some l) v + if l ∈ ratified then s.tally l v else 0
  retired : ∀ r : RefResolution, r.IsClaim → (r ∈ (ratifyLiveOverlay f s ratified).refs ↔
    r ∈ s.refs ∧ ¬ OfRatified s ratified r)

/-- The aggregate counters are the sums of the per-language counters. -/
def Balanced (s : LiveStore) : Prop := ∀ v, counter s none v = languageSum s v

/-- The counters of a key are read as they are. -/
def ReadsTrue (f : Faults) (s : LiveStore) (language : Option String) : Prop :=
  f.read language = true → ∀ v, counter s language v = 0

/-- The queries a ratification depends on go through: with a claim to score, all that score and
retire it; and with any claim, the aggregate is not read wrongly and written back. The totals fit,
and no claim has lost its source, or the reconciliation that would purge it fails. -/
structure Sound (f : Faults) (s : LiveStore) (ratified : List String) : Prop where
  scores : ∀ c ∈ s.claims, c.1 ∈ ratified →
    f.sample = false ∧ f.consume = false ∧ f.write none = false ∧ f.write (some c.1) = false ∧
      ReadsTrue f s (some c.1)
  aggregate : f.sample = false → s.claims ≠ [] → f.write none = false → ReadsTrue f s none
  fits : ∀ v, counter s none v + ratifiedTally s ratified v < 2 ^ 64
  anchored : f.reconcile = false → ∀ r, r ∈ s.refs → r.IsClaim → s.Stored r.src

theorem ratify_metadata :
    (ratifyLiveOverlay f s ratified).metadata = (measureLivePrecision f s ratified).metadata := by
  unfold ratifyLiveOverlay
  rw [reconcileClaims_frame.2, sweepOverlay_frame.2.2, consumeClaims_frame.2]

theorem counter_ratify :
    counter (ratifyLiveOverlay f s ratified) = counter (measureLivePrecision f s ratified) ∧
      languageSum (ratifyLiveOverlay f s ratified) =
        languageSum (measureLivePrecision f s ratified) :=
  counter_congr ratify_metadata

theorem tally_eq_zero {l : String} (h : ¬ ∃ c ∈ s.claims, c.1 = l) (v : Verdict) :
    s.tally l v = 0 := by
  by_contra hn
  exact h (exists_claim_of_tally (Nat.pos_of_ne_zero hn))

theorem languageSum_of_counted
    (h : ∀ l v, counter (ratifyLiveOverlay f s ratified) (some l) v =
      counter s (some l) v + if l ∈ ratified then s.tally l v else 0) (v : Verdict) :
    languageSum (ratifyLiveOverlay f s ratified) v =
      languageSum s v + ratifiedTally s ratified v := by
  have hsum := @languageSum_measure f s ratified v
  rw [counter_ratify.1] at h
  have hmap : ((scored s ratified).map fun l =>
      counter (measureLivePrecision f s ratified) (some l) v) =
      (scored s ratified).map fun l => counter s (some l) v + s.tally l v := by
    apply List.map_congr_left
    intro l hl
    rw [h, if_pos (mem_scored.mp hl).1]
  have hadd : ∀ ls : List String, (ls.map fun l => counter s (some l) v + s.tally l v).sum =
      (ls.map fun l => counter s (some l) v).sum + (ls.map fun l => s.tally l v).sum := by
    intro ls
    induction ls with
    | nil => rfl
    | cons l ls ih =>
      simp only [List.map_cons, List.sum_cons, ih]
      omega
  rw [hmap, hadd, sum_tally] at hsum
  rw [counter_ratify.2]
  omega

theorem ratifiedTally_pos {c : String × RefResolution} (hc : c ∈ s.claims) (hr : c.1 ∈ ratified) :
    0 < ratifiedTally s ratified (s.verdict c.2) := by
  rw [ratifiedTally, List.countP_pos_iff]
  exact ⟨c, hc, by simp [hr]⟩

theorem ratifiedTally_eq_zero (h : ∀ c ∈ s.claims, c.1 ∉ ratified) (v : Verdict) :
    ratifiedTally s ratified v = 0 := by
  rw [ratifiedTally, List.countP_eq_zero]
  intro c hc
  simp [h c hc]

theorem tally_le {l : String} (hl : l ∈ ratified) (v : Verdict) :
    s.tally l v ≤ ratifiedTally s ratified v := by
  unfold LiveStore.tally ratifiedTally
  apply List.countP_mono_left
  intro c _ h
  rw [Bool.and_eq_true, decide_eq_true_eq] at h
  rw [Bool.and_eq_true, decide_eq_true_eq]
  exact ⟨h.1 ▸ hl, h.2⟩

theorem counter_le_languageSum (l : String) (v : Verdict) :
    counter s (some l) v ≤ languageSum s v := by
  unfold counter languageSum LiveStore.getMeta
  cases hf : s.metadata.find? (livePrecisionMetaKey (some l)) with
  | none => simp [parseTotals_empty]
  | some o =>
    obtain ⟨hmem, hname⟩ := Table.mem_of_find? hf
    have hrow : o = ⟨livePrecisionMetaKey (some l), o.value⟩ := by rw [← hname]
    have hpart : languagePart v o = (parseTotals o.value).bucket v := by
      rw [languagePart, if_pos]
      rw [hrow, isLanguageRow_key]
      rfl
    rw [Option.map_some, Option.getD_some, ← hpart]
    exact List.le_sum_of_mem (List.mem_map_of_mem hmem)

theorem Sound.conserves (hb : Balanced s) (h : Sound f s ratified) :
    Conserves f s ratified ∧ Balanced (ratifyLiveOverlay f s ratified) := by
  have hread : ∀ {language : Option String}, ReadsTrue f s language → ∀ v,
      (if f.read language then 0 else counter s language v) = counter s language v := by
    intro language hr v
    split_ifs with hf
    · exact (hr hf v).symm
    · rfl
  have hcounted : ∀ l v, counter (ratifyLiveOverlay f s ratified) (some l) v =
      counter s (some l) v + if l ∈ ratified then s.tally l v else 0 := by
    intro l v
    rw [counter_ratify.1, counter_measure]
    by_cases hs : l ∈ scored s ratified
    · obtain ⟨hl, c, hc, rfl⟩ := mem_scored.mp hs
      obtain ⟨hsample, -, -, hwrite, hr⟩ := h.scores c hc hl
      have hroom : counter s (some c.1) v + s.tally c.1 v < 2 ^ 64 := by
        have hfits := h.fits v
        have h1 := counter_le_languageSum (s := s) c.1 v
        have h2 := tally_le (s := s) hl v
        rw [hb v] at hfits
        omega
      rw [if_pos ⟨hsample, hs, hwrite⟩, if_pos hl, hread hr, Nat.mod_eq_of_lt hroom]
    · rw [if_neg fun hc => hs hc.2.1]
      split_ifs with hl
      · rw [tally_eq_zero fun hc => hs (mem_scored.mpr ⟨hl, hc⟩), Nat.add_zero]
      · rfl
  refine ⟨⟨hcounted, ?_⟩, ?_⟩
  · intro r hr
    rw [claim_ratify hr]
    constructor
    · intro ⟨hmem, hkept, _⟩
      refine ⟨hmem, fun hof => ?_⟩
      obtain ⟨l, hl, hlr⟩ := hof
      have hc : (l, r) ∈ s.claims := mem_claims.mpr ⟨hmem, hr, hl⟩
      exact hkept (h.scores (l, r) hc hlr).2.1 ⟨l, hl, hlr⟩
    · intro ⟨hmem, hn⟩
      exact ⟨hmem, fun _ => hn, fun hrec => h.anchored hrec r hmem hr⟩
  · intro v
    rw [languageSum_of_counted hcounted, ← hb v, counter_ratify.1, aggregate_measure]
    by_cases hw : f.sample = false ∧ s.claims ≠ [] ∧ f.write none = false
    · rw [if_pos hw, hread (h.aggregate hw.1 hw.2.1 hw.2.2), Nat.mod_eq_of_lt (h.fits v)]
    · rw [if_neg hw, ratifiedTally_eq_zero, Nat.add_zero]
      intro c hc hcr
      obtain ⟨h1, -, h3, -⟩ := h.scores c hc hcr
      exact hw ⟨h1, List.ne_nil_of_mem hc, h3⟩

theorem Conserves.sound (hb : Balanced s) (h : Conserves f s ratified)
    (hb' : Balanced (ratifyLiveOverlay f s ratified)) : Sound f s ratified := by
  have haggregate : ∀ v, counter (measureLivePrecision f s ratified) none v =
      counter s none v + ratifiedTally s ratified v := by
    intro v
    have := hb' v
    rw [languageSum_of_counted h.counted, counter_ratify.1] at this
    rw [this, hb v]
  have hcounted : ∀ l v, counter (measureLivePrecision f s ratified) (some l) v =
      counter s (some l) v + if l ∈ ratified then s.tally l v else 0 := by
    intro l v
    rw [← h.counted, counter_ratify.1]
  refine ⟨?_, ?_, ?_, ?_⟩
  · intro c hc hr
    have hpos := tally_pos hc
    have hrpos := ratifiedTally_pos hc hr
    have hl := hcounted c.1 (s.verdict c.2)
    have ha := haggregate (s.verdict c.2)
    rw [counter_measure, if_pos hr] at hl
    rw [aggregate_measure] at ha
    have hwrote : f.sample = false ∧ c.1 ∈ scored s ratified ∧ f.write (some c.1) = false := by
      by_contra hn
      rw [if_neg hn] at hl
      omega
    have hagg : f.sample = false ∧ s.claims ≠ [] ∧ f.write none = false := by
      by_contra hn
      rw [if_neg hn] at ha
      omega
    obtain ⟨hmem, hclaim, hlang⟩ := mem_claims.mp hc
    refine ⟨hwrote.1, ?_, hagg.2.2, hwrote.2.2, ?_⟩
    · by_contra hcons
      have hgone : c.2 ∉ (ratifyLiveOverlay f s ratified).refs := by
        intro hin
        exact ((h.retired c.2 hclaim).mp hin).2 ⟨c.1, hlang, hr⟩
      apply hgone
      rw [claim_ratify hclaim]
      exact ⟨hmem, fun hf => absurd hf hcons, fun _ => stored_iff_languageOf.mpr ⟨c.1, hlang⟩⟩
    · intro hread v
      have hv := hcounted c.1 v
      rw [counter_measure, if_pos hwrote, if_pos hread, if_pos hr, Nat.zero_add] at hv
      have hle := Nat.mod_le (s.tally c.1 v) (2 ^ 64)
      omega
  · intro hsample hclaims hwrite hread v
    have hv := haggregate v
    rw [aggregate_measure, if_pos ⟨hsample, hclaims, hwrite⟩, if_pos hread, Nat.zero_add] at hv
    have hle := Nat.mod_le (ratifiedTally s ratified v) (2 ^ 64)
    omega
  · intro v
    rw [← haggregate v]
    exact counter_lt _ _ _
  · intro hrec r hmem hr
    by_contra hn
    have hnot : ¬ OfRatified s ratified r := by
      rintro ⟨l, hl, -⟩
      exact hn (stored_iff_languageOf.mpr ⟨l, hl⟩)
    exact hn (((claim_ratify hr).mp ((h.retired r hr).mpr ⟨hmem, hnot⟩)).2.2 hrec)

end

/-! ### Runs -/

/-- What happens to the store, as far as the meter is concerned: a live pass, a ratification with
some of its queries failing, and whatever else writes the graph. -/
inductive MeterStep where
  | live (pass : LivePassInput)
  | graph (graph : SqliteStore)
  | ratify (ratified : List String) (f : Faults)

def meterStep (s : LiveStore) : MeterStep → LiveStore
  | .live pass => livePass s pass
  | .graph graph => { s with toSqliteStore := graph }
  | .ratify ratified f => ratifyLiveOverlay f s ratified

/-- What the meter owes at a step: a ratification conserves the evidence, and nothing else touches
the counters. -/
def StepConserves (s : LiveStore) : MeterStep → Prop
  | .ratify ratified f => Conserves f s ratified
  | step => counter (meterStep s step) = counter s

def StepSound (s : LiveStore) : MeterStep → Prop
  | .ratify ratified f => Sound f s ratified
  | _ => True

theorem step_conserves_iff {s : LiveStore} (hb : Balanced s) (step : MeterStep) :
    (Balanced (meterStep s step) ∧ StepConserves s step) ↔ StepSound s step := by
  have hsame : ∀ s' : LiveStore, s'.metadata = s.metadata →
      Balanced s' ∧ counter s' = counter s := by
    intro s' h
    obtain ⟨hc, hs⟩ := counter_congr h
    refine ⟨?_, hc⟩
    intro v
    rw [hc, hs]
    exact hb v
  cases step with
  | live pass => exact iff_of_true (hsame _ (livePass_metadata pass)) trivial
  | graph graph => exact iff_of_true (hsame { s with toSqliteStore := graph } rfl) trivial
  | ratify ratified f =>
    constructor
    · exact fun h => h.2.sound hb h.1
    · intro h
      obtain ⟨hc, hb'⟩ := h.conserves hb
      exact ⟨hb', hc⟩

/-- Over a whole run: the aggregate is the sum of the languages in every state and every
ratification conserves its evidence, exactly when they agree to begin with and every ratification
is sound. -/
theorem meter_conserves_iff (s : LiveStore) (steps : List MeterStep) :
    (Always meterStep Balanced s steps ∧ Every meterStep StepConserves s steps) ↔
      (Balanced s ∧ Every meterStep StepSound s steps) := by
  induction steps generalizing s with
  | nil => simp [always_nil, every_nil]
  | cons step steps ih =>
    rw [always_cons, every_cons, every_cons]
    constructor
    · rintro ⟨⟨hb, ha⟩, hc, he⟩
      have hb' : Balanced (meterStep s step) := ha [] steps rfl
      exact ⟨hb, (step_conserves_iff hb step).mp ⟨hb', hc⟩, ((ih _).mp ⟨ha, he⟩).2⟩
    · rintro ⟨hb, hs, hrest⟩
      obtain ⟨hb', hc⟩ := (step_conserves_iff hb step).mpr hs
      obtain ⟨ha, he⟩ := (ih _).mpr ⟨hb', hrest⟩
      exact ⟨⟨hb, ha⟩, hc, he⟩

def claimStore : LiveStore where
  __ := SqliteStore.empty
  nodes := (phaseBNodes SqliteStore.empty [parsed "a.py" "python" "fn:main" "function"]).1
  refs := putRef Table.empty ⟨11, 2, 0, "go", .resolved, some 9⟩
  metadata := Table.empty

/-- When the sample cannot be taken the claim is retired all the same, and counted nowhere. -/
theorem meter_loses_evidence :
    ¬ ∀ (s : LiveStore) (steps : List MeterStep), Balanced s →
      Always meterStep Balanced s steps ∧ Every meterStep StepConserves s steps := by
  intro h
  have hbalanced : Balanced claimStore := by
    intro v
    cases v <;> decide +kernel
  obtain ⟨-, hevery⟩ := h claimStore [.ratify ["python"] { Faults.none with sample := true }]
    hbalanced
  have hstep : Conserves { Faults.none with sample := true } claimStore ["python"] :=
    hevery [] _ [] rfl
  have hcounted := hstep.counted "python" .unverifiable
  revert hcounted
  decide +kernel

end Travsr.Daemon
