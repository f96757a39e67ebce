import Mathlib.Data.Finset.Card
import Mathlib.Logic.Function.Basic
import Mathlib.Order.Interval.Finset.Nat

/-! Elements kept sorted by a key, with the first position of every key: lowering a key by one is
one swap. -/

namespace Buckets

variable {n top : Nat} {key bin order pos : Nat → Nat}

/-- `order` and `pos` are inverse to each other, and `bin e` divides the positions of the smaller
keys from the others. -/
structure Bucketed (n top : Nat) (key bin order pos : Nat → Nat) : Prop where
  order_lt : ∀ p < n, order p < n
  pos_lt : ∀ v < n, pos v < n
  order_pos : ∀ v < n, order (pos v) = v
  pos_order : ∀ p < n, pos (order p) = p
  key_le : ∀ v < n, key v ≤ top
  lt_bin : ∀ e ≤ top, ∀ p < n, p < bin e ↔ key (order p) < e

namespace Bucketed

variable (h : Bucketed n top key bin order pos)

include h

theorem order_inj {p q : Nat} (hp : p < n) (hq : q < n) (he : order p = order q) : p = q := by
  rw [← h.pos_order p hp, ← h.pos_order q hq, he]

theorem key_mono {p q : Nat} (hpq : p ≤ q) (hq : q < n) : key (order p) ≤ key (order q) := by
  by_contra hlt
  have hp : p < n := hpq.trans_lt hq
  have hle := h.key_le _ (h.order_lt p hp)
  have hbefore := (h.lt_bin _ hle q hq).mpr (not_le.mp hlt)
  exact lt_irrefl _ ((h.lt_bin _ hle p hp).mp (hpq.trans_lt hbefore))

theorem bin_le_pos {u : Nat} (hu : u < n) : bin (key u) ≤ pos u := by
  by_contra hlt
  have hbefore := (h.lt_bin _ (h.key_le u hu) _ (h.pos_lt u hu)).mp (not_le.mp hlt)
  rw [h.order_pos u hu] at hbefore
  exact lt_irrefl _ hbefore

theorem lt_bin_of_key_lt {u p : Nat} (hu : u < n) (hp : p < n) (hk : key (order p) < key u) :
    p < bin (key u) := (h.lt_bin _ (h.key_le u hu) p hp).mpr hk

theorem key_bin {u : Nat} (hu : u < n) : key (order (bin (key u))) = key u := by
  have hle := h.bin_le_pos hu
  have hfirst := hle.trans_lt (h.pos_lt u hu)
  refine le_antisymm ?_ ?_
  · have hmono := h.key_mono hle (h.pos_lt u hu)
    rwa [h.order_pos u hu] at hmono
  · by_contra hlt
    exact lt_irrefl _ ((h.lt_bin _ (h.key_le u hu) _ hfirst).mpr (not_le.mp hlt))

theorem swap_order {u : Nat} (hu : u < n) (p : Nat) :
    Function.update (Function.update order (pos u) (order (bin (key u)))) (bin (key u)) u p =
      order (if p = bin (key u) then pos u else if p = pos u then bin (key u) else p) := by
  rw [Function.update_apply, Function.update_apply]
  by_cases hb : p = bin (key u)
  · rw [if_pos hb, if_pos hb, h.order_pos u hu]
  · rw [if_neg hb, if_neg hb]
    by_cases hpu : p = pos u
    · rw [if_pos hpu, if_pos hpu]
    · rw [if_neg hpu, if_neg hpu]

/-- One key is lowered by one: its element trades places with the first of the bucket, and the
bucket starts one further on. -/
theorem lower {u : Nat} (hu : u < n) (hpos : 0 < key u) :
    Bucketed n top (Function.update key u (key u - 1))
      (Function.update bin (key u) (bin (key u) + 1))
      (Function.update (Function.update order (pos u) (order (bin (key u)))) (bin (key u)) u)
      (Function.update (Function.update pos (order (bin (key u))) (pos u)) u (bin (key u))) := by
  have hle := h.bin_le_pos hu
  have hpu := h.pos_lt u hu
  have hb : bin (key u) < n := hle.trans_lt hpu
  have hw : order (bin (key u)) < n := h.order_lt _ hb
  have hkey := h.key_bin hu
  have hposw : pos (order (bin (key u))) = bin (key u) := h.pos_order _ hb
  -- the swapped position of an element
  have hswap : ∀ v < n, Function.update (Function.update pos (order (bin (key u))) (pos u)) u
      (bin (key u)) v =
        if v = u then bin (key u) else if v = order (bin (key u)) then pos u else pos v := by
    intro v _
    rw [Function.update_apply, Function.update_apply]
  refine ⟨?_, ?_, ?_, ?_, ?_, ?_⟩
  · intro p hp
    rw [h.swap_order hu p]
    refine h.order_lt _ ?_
    split_ifs <;> assumption
  · intro v hv
    rw [hswap v hv]
    split_ifs
    · exact hb
    · exact hpu
    · exact h.pos_lt v hv
  · intro v hv
    rw [hswap v hv]
    by_cases hvu : v = u
    · rw [if_pos hvu, h.swap_order hu (bin (key u)), if_pos rfl, h.order_pos u hu, hvu]
    · rw [if_neg hvu]
      by_cases hvw : v = order (bin (key u))
      · rw [if_pos hvw, h.swap_order hu (pos u)]
        by_cases hsame : pos u = bin (key u)
        · rw [if_pos hsame, hsame, ← hvw]
        · rw [if_neg hsame, if_pos rfl, hvw]
      · have hne : pos v ≠ bin (key u) := fun he => hvw (by rw [← he, h.order_pos v hv])
        have hne' : pos v ≠ pos u := fun he =>
          hvu (by rw [← h.order_pos v hv, he, h.order_pos u hu])
        rw [if_neg hvw, h.swap_order hu (pos v), if_neg hne, if_neg hne', h.order_pos v hv]
  · intro p hp
    rw [h.swap_order hu p]
    by_cases hpb : p = bin (key u)
    · rw [if_pos hpb, hswap _ (h.order_lt _ hpu), h.order_pos u hu, if_pos rfl, hpb]
    · rw [if_neg hpb]
      by_cases hpp : p = pos u
      · have hwu : order (bin (key u)) ≠ u := fun he => hpb (by rw [hpp, ← hposw, he])
        rw [if_pos hpp, hswap _ hw, if_neg hwu, if_pos rfl, hpp]
      · have hne : order p ≠ u := fun he => hpp (by rw [← h.pos_order p hp, he])
        have hne' : order p ≠ order (bin (key u)) := fun he => hpb (h.order_inj hp hb he)
        rw [if_neg hpp, hswap _ (h.order_lt p hp), if_neg hne, if_neg hne', h.pos_order p hp]
  · intro v hv
    rw [Function.update_apply]
    have hv' := h.key_le v hv
    have hu' := h.key_le u hu
    split_ifs
    · omega
    · exact hv'
  · intro e he p hp
    rw [h.swap_order hu p, Function.update_apply, Function.update_apply]
    by_cases hpb : p = bin (key u)
    · rw [if_pos hpb, h.order_pos u hu, if_pos rfl]
      by_cases heu : e = key u
      · rw [if_pos heu]
        omega
      · rw [if_neg heu, h.lt_bin e he p hp, hpb, hkey]
        omega
    · rw [if_neg hpb]
      by_cases hpp : p = pos u
      · have hwu : order (bin (key u)) ≠ u := fun heq => hpb (by rw [hpp, ← hposw, heq])
        rw [if_pos hpp, if_neg hwu, hkey]
        by_cases heu : e = key u
        · rw [if_pos heu]
          omega
        · rw [if_neg heu, h.lt_bin e he p hp, hpp, h.order_pos u hu]
      · have hne : order p ≠ u := fun heq => hpp (by rw [← h.pos_order p hp, heq])
        rw [if_neg hpp, if_neg hne]
        by_cases heu : e = key u
        · rw [if_pos heu, heu]
          have hold := h.lt_bin (key u) (h.key_le u hu) p hp
          omega
        · rw [if_neg heu]
          exact h.lt_bin e he p hp

theorem lower_order {u p : Nat} (hu : u < n) (hp : p < bin (key u)) :
    Function.update (Function.update order (pos u) (order (bin (key u)))) (bin (key u)) u p =
      order p := by
  have hle := h.bin_le_pos hu
  have hpu := h.pos_lt u hu
  rw [h.swap_order hu p, if_neg (by omega), if_neg (by omega)]

end Bucketed

/-! ### Counting sort -/

/-- How many of the first `m` elements have a key that the predicate holds of. -/
def count (m : Nat) (key : Nat → Nat) (P : Nat → Prop) [DecidablePred P] : Nat :=
  ((Finset.range m).filter fun v => P (key v)).card

/-- The place of an element: after the smaller keys, and after the earlier ones of its own. -/
def rank (n : Nat) (key : Nat → Nat) (v : Nat) : Nat :=
  count n key (· < key v) + count v key (· = key v)

theorem count_succ (m : Nat) (key : Nat → Nat) (P : Nat → Prop) [DecidablePred P] :
    count (m + 1) key P = count m key P + if P (key m) then 1 else 0 := by
  rw [count, Finset.range_add_one, Finset.filter_insert]
  split_ifs
  · rw [Finset.card_insert_of_notMem (by simp)]
    rfl
  · rfl

theorem count_mono {m m' : Nat} (h : m ≤ m') (P : Nat → Prop) [DecidablePred P] :
    count m key P ≤ count m' key P := by
  induction h with
  | refl => exact le_rfl
  | step _ ih =>
    rw [count_succ]
    exact ih.trans (Nat.le_add_right _ _)

/-- The keys up to `e` are those below it and those that are `e`. -/
theorem count_lt_succ (m e : Nat) :
    count m key (· < e + 1) = count m key (· < e) + count m key (· = e) := by
  induction m with
  | zero => rfl
  | succ m ih =>
    rw [count_succ, count_succ, count_succ, ih]
    split_ifs <;> omega

theorem count_lt_mono {m d e : Nat} (h : d ≤ e) : count m key (· < d) ≤ count m key (· < e) := by
  induction h with
  | refl => exact le_rfl
  | step _ ih =>
    rw [count_lt_succ]
    exact ih.trans (Nat.le_add_right _ _)

theorem rank_lt_count {v e : Nat} (hv : v < n) (he : key v < e) : rank n key v < count n key (· < e) := by
  have hown : count (v + 1) key (· = key v) = count v key (· = key v) + 1 := by
    rw [count_succ, if_pos rfl]
  have hall := @count_mono key _ _ (show v + 1 ≤ n from hv) (· = key v) _
  have hnext := @count_lt_succ key n (key v)
  have hup := @count_lt_mono key n _ _ (show key v + 1 ≤ e from he)
  rw [rank]
  omega

theorem count_le_rank {v e : Nat} (he : e ≤ key v) : count n key (· < e) ≤ rank n key v :=
  (count_lt_mono he).trans (Nat.le_add_right _ _)

theorem rank_lt {v : Nat} (hv : v < n) : rank n key v < n := by
  have hlt := @rank_lt_count n key v (key v + 1) hv (Nat.lt_succ_self _)
  have hle : count n key (· < key v + 1) ≤ n := by
    rw [count]
    exact (Finset.card_filter_le _ _).trans (Finset.card_range n).le
  exact hlt.trans_le hle

theorem rank_inj {v w : Nat} (hv : v < n) (hw : w < n) (h : rank n key v = rank n key w) : v = w := by
  rcases Nat.lt_trichotomy (key v) (key w) with hk | hk | hk
  · have h1 := @rank_lt_count n key v (key w) hv hk
    have h2 := @count_le_rank n key w (key w) le_rfl
    omega
  · -- of one key: the later of the two counts the earlier one
    have hstep : ∀ a b, key a = key b → a < b → rank n key a < rank n key b := by
      intro a b hab hlt
      have hown : count (a + 1) key (· = key a) = count a key (· = key a) + 1 := by
        rw [count_succ, if_pos rfl]
      have hall := @count_mono key _ _ (show a + 1 ≤ b from hlt) (· = key a) _
      rw [rank, rank, ← hab]
      omega
    rcases Nat.lt_trichotomy v w with hlt | heq | hgt
    · exact absurd h (hstep v w hk hlt).ne
    · exact heq
    · exact absurd h.symm (hstep w v hk.symm hgt).ne
  · have h1 := @rank_lt_count n key w (key v) hw hk
    have h2 := @count_le_rank n key v (key v) le_rfl
    omega

theorem exists_rank {p : Nat} (hp : p < n) : ∃ v < n, rank n key v = p := by
  have himage : (Finset.range n).image (rank n key) = Finset.range n := by
    refine Finset.eq_of_subset_of_card_le ?_ ?_
    · intro q hq
      obtain ⟨v, hv, rfl⟩ := Finset.mem_image.mp hq
      exact Finset.mem_range.mpr (rank_lt (Finset.mem_range.mp hv))
    · rw [Finset.card_image_of_injOn]
      intro v hv w hw he
      exact rank_inj (Finset.mem_range.mp hv) (Finset.mem_range.mp hw) he
  have hmem : p ∈ (Finset.range n).image (rank n key) := by
    rw [himage]
    exact Finset.mem_range.mpr hp
  obtain ⟨v, hv, he⟩ := Finset.mem_image.mp hmem
  exact ⟨v, Finset.mem_range.mp hv, he⟩

theorem bucketed_rank (hkey : ∀ v < n, key v ≤ top) (hpos : ∀ v < n, pos v = rank n key v)
    (horder : ∀ v < n, order (pos v) = v) :
    Bucketed n top key (fun e => count n key (· < e)) order pos := by
  have hsurj : ∀ p < n, ∃ v < n, pos v = p := by
    intro p hp
    obtain ⟨v, hv, hrank⟩ := @exists_rank n key p hp
    exact ⟨v, hv, (hpos v hv).trans hrank⟩
  refine ⟨?_, ?_, horder, ?_, hkey, ?_⟩
  · intro p hp
    obtain ⟨v, hv, rfl⟩ := hsurj p hp
    rwa [horder v hv]
  · intro v hv
    rw [hpos v hv]
    exact rank_lt hv
  · intro p hp
    obtain ⟨v, hv, rfl⟩ := hsurj p hp
    rw [horder v hv]
  · intro e _ p hp
    obtain ⟨v, hv, rfl⟩ := hsurj p hp
    rw [horder v hv, hpos v hv]
    constructor
    · intro hlt
      by_contra hge
      exact absurd (count_le_rank (not_lt.mp hge)) (not_le.mpr hlt)
    · exact rank_lt_count hv

end Buckets
