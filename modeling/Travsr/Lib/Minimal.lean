import Mathlib.Data.List.Infix
import Mathlib.Data.List.Lex
import Mathlib.Data.List.Sort

/-! One pass over a sorted list that keeps what nothing kept so far lies below, and the order on
lists, which puts a prefix first. -/

namespace Minimal

variable {α : Type}

section pass

variable (r : α → α → Prop) [DecidableRel r] (excepted : α → Bool)

/-- An entry stays unless something kept lies below it; an excepted one stays in any case. -/
def keep (kept : List α) (a : α) : List α :=
  if !(kept.any fun b => r b a) || excepted a then kept ++ [a] else kept

def keepAll (l : List α) : List α := l.foldl (keep r excepted) []

variable {r excepted}

theorem sublist_keepAll (l : List α) : (keepAll r excepted l).Sublist l := by
  suffices ∀ kept : List α, (l.foldl (keep r excepted) kept).Sublist (kept ++ l) from this []
  induction l with
  | nil => simp
  | cons c l ih =>
    intro kept
    apply (ih _).trans
    unfold keep
    split
    · simp
    · exact (List.sublist_cons_self c l).append_left kept

/-- The state of the pass: what is kept was seen, and it covers all that was seen. -/
structure Covers (seen kept : List α) : Prop where
  subset : ∀ k ∈ kept, k ∈ seen
  below : ∀ s ∈ seen, ∃ k ∈ kept, r k s

variable [IsPreorder α r]

theorem mem_keep {seen kept l : List α} {c : α} (cover : Covers (r := r) seen kept)
    (sorted : (seen ++ c :: l).Pairwise fun a b => ¬ r b a) (a : α) :
    a ∈ keep r excepted kept c ↔
      a ∈ kept ∨ (a = c ∧ (excepted c ∨ ∀ b ∈ seen ++ c :: l, r b c → b = c)) := by
  have hc : (!(kept.any fun b => r b c) || excepted c) = true ↔
      excepted c ∨ ∀ b ∈ seen ++ c :: l, r b c → b = c := by
    obtain ⟨_, hl, hseen⟩ := List.pairwise_append.mp sorted
    rw [Bool.or_eq_true, or_comm]
    apply or_congr Iff.rfl
    simp only [Bool.not_eq_true', List.any_eq_false, decide_eq_true_eq]
    constructor
    · intro free b hb hbc
      rcases List.mem_append.mp hb with hb | hb
      · obtain ⟨k, hk, hkb⟩ := cover.below b hb
        exact absurd (trans_of r hkb hbc) (free k hk)
      · rcases List.mem_cons.mp hb with hb | hb
        · exact hb
        · exact absurd hbc ((List.pairwise_cons.mp hl).1 b hb)
    · intro least k hk hkc
      have hks := cover.subset k hk
      have := least k (List.mem_append_left _ hks) hkc
      apply hseen k hks c List.mem_cons_self
      rw [this]
      exact refl_of r c
  by_cases h : (!(kept.any fun b => r b c) || excepted c) = true
  · rw [keep, if_pos h, List.mem_append, List.mem_singleton, and_iff_left (hc.mp h)]
  · rw [keep, if_neg h, or_iff_left fun ⟨_, least⟩ => h (hc.mpr least)]

theorem Covers.keep {seen kept : List α} {c : α} (cover : Covers (r := r) seen kept) :
    Covers (r := r) (seen ++ [c]) (keep r excepted kept c) := by
  unfold Minimal.keep
  split
  · case isTrue h =>
    refine ⟨fun k hk => ?_, fun s hs => ?_⟩
    · rcases List.mem_append.mp hk with hk | hk
      · exact List.mem_append_left _ (cover.subset k hk)
      · exact List.mem_append_right _ hk
    · rcases List.mem_append.mp hs with hs | hs
      · obtain ⟨k, hk, hks⟩ := cover.below s hs
        exact ⟨k, List.mem_append_left _ hk, hks⟩
      · exact ⟨s, List.mem_append_right _ hs, refl_of r s⟩
  · case isFalse h =>
    refine ⟨fun k hk => List.mem_append_left _ (cover.subset k hk), fun s hs => ?_⟩
    rcases List.mem_append.mp hs with hs | hs
    · exact cover.below s hs
    · have covered : (kept.any fun b => r b c) = true := by
        by_contra hn
        exact h (by simp [hn])
      simpa [List.mem_singleton.mp hs] using covered

theorem mem_foldl_keep {seen kept l : List α} (cover : Covers (r := r) seen kept)
    (sorted : (seen ++ l).Pairwise fun a b => ¬ r b a) (a : α) :
    a ∈ l.foldl (keep r excepted) kept ↔
      a ∈ kept ∨ (a ∈ l ∧ (excepted a ∨ ∀ b ∈ seen ++ l, r b a → b = a)) := by
  induction l generalizing seen kept with
  | nil => simp
  | cons c l ih =>
    have hstep : seen ++ c :: l = seen ++ [c] ++ l := by simp
    rw [List.foldl_cons, ih cover.keep (hstep ▸ sorted), mem_keep cover sorted, ← hstep, or_assoc]
    apply or_congr Iff.rfl
    constructor
    · rintro (⟨rfl, h⟩ | ⟨h, hmin⟩)
      · exact ⟨List.mem_cons_self, h⟩
      · exact ⟨List.mem_cons_of_mem _ h, hmin⟩
    · rintro ⟨h, hmin⟩
      rcases List.mem_cons.mp h with rfl | h
      · exact .inl ⟨rfl, hmin⟩
      · exact .inr ⟨h, hmin⟩

/-- In a list where nothing comes after what it lies below, the pass keeps the least entries and
the excepted ones. -/
theorem mem_keepAll {l : List α} (sorted : l.Pairwise fun a b => ¬ r b a) (a : α) :
    a ∈ keepAll r excepted l ↔ a ∈ l ∧ (excepted a ∨ ∀ b ∈ l, r b a → b = a) := by
  have cover : Covers (r := r) [] ([] : List α) := ⟨by simp, by simp⟩
  have hfold : a ∈ l.foldl (keep r excepted) [] ↔ _ :=
    mem_foldl_keep cover (by simpa using sorted) a
  simpa [keepAll] using hfold

end pass

section lists

variable [LinearOrder α] {a b : List α}

theorem le_of_isPrefix (h : a <+: b) : a ≤ b := by
  induction a generalizing b with
  | nil =>
    cases b with
    | nil => exact le_rfl
    | cons y b => exact le_of_lt (List.Lex.nil : List.Lex (· < ·) [] (y :: b))
  | cons x a ih =>
    obtain ⟨t, rfl⟩ := h
    exact List.cons_le_cons x (ih (List.prefix_append a t))

theorem sortedLists (l : List (List α)) : (l.insertionSort (· ≤ ·)).Pairwise (· ≤ ·) :=
  List.pairwise_insertionSort _ _

theorem no_prefix_after {l : List (List α)} (nodup : l.Nodup) (sorted : l.Pairwise (· ≤ ·)) :
    l.Pairwise fun a b => ¬ b <+: a :=
  (nodup.and sorted).imp fun ⟨hne, hle⟩ h => hne (le_antisymm hle (le_of_isPrefix h))

theorem sort_congr {l l' : List (List α)} (nodup : l.Nodup) (nodup' : l'.Nodup)
    (h : ∀ a, a ∈ l ↔ a ∈ l') : l.insertionSort (· ≤ ·) = l'.insertionSort (· ≤ ·) := by
  have hperm : l.Perm l' := (List.perm_ext_iff_of_nodup nodup nodup').mpr h
  apply List.Perm.eq_of_pairwise' (sortedLists l) (sortedLists l')
  exact (List.perm_insertionSort _ l).trans (hperm.trans (List.perm_insertionSort _ l').symm)

end lists

end Minimal
