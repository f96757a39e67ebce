import Mathlib.Algebra.GroupWithZero.Nat
import Mathlib.Data.List.Nodup
import Mathlib.Data.List.Sort

namespace FirstFit

variable {α : Type*} {cost : α → Nat} {as : List α} {a b : α} {w : Nat}

/-- Takes every entry of the order that fits what is left of the capacity. -/
def taken (cost : α → Nat) : List α → Nat → List α
  | [], _ => []
  | a :: as, w => if cost a ≤ w then a :: taken cost as (w - cost a) else taken cost as w

theorem taken_sublist (as : List α) (w : Nat) : (taken cost as w).Sublist as := by
  induction as generalizing w with
  | nil => exact List.Sublist.refl []
  | cons a as ih =>
    rw [taken]
    split_ifs with hle
    · exact (ih _).cons_cons a
    · exact (ih w).cons a

theorem taken_cost (as : List α) (w : Nat) : ((taken cost as w).map cost).sum ≤ w := by
  induction as generalizing w with
  | nil => simp [taken]
  | cons a as ih =>
    rw [taken]
    split_ifs with hle
    · have hrest := ih (w - cost a)
      rw [List.map_cons, List.sum_cons]
      omega
    · exact ih w

theorem lt_cost_of_not_taken (h : a ∈ as) (hnot : a ∉ taken cost as w) :
    w - ((taken cost as w).map cost).sum < cost a := by
  induction as generalizing w with
  | nil => exact absurd h List.not_mem_nil
  | cons c as ih =>
    rw [taken] at hnot ⊢
    split_ifs at hnot ⊢ with hle
    · have hne : a ≠ c := fun heq => hnot (heq ▸ List.mem_cons_self)
      have hrest := ih ((List.mem_cons.mp h).resolve_left hne)
        fun hmem => hnot (List.mem_cons_of_mem c hmem)
      rw [List.map_cons, List.sum_cons]
      omega
    · cases List.mem_cons.mp h with
      | inl heq =>
        have hle' := Nat.sub_le w ((taken cost as w).map cost).sum
        rw [heq]
        omega
      | inr hmem => exact ih hmem hnot

end FirstFit

namespace StableSort

variable {α : Type*} {as : List α} {a b : α}

theorem pair_or_pair (ha : a ∈ as) (hb : b ∈ as) (hne : a ≠ b) :
    [a, b].Sublist as ∨ [b, a].Sublist as := by
  obtain ⟨s, t, rfl⟩ := List.append_of_mem ha
  cases List.mem_append.mp hb with
  | inl hs =>
    exact Or.inr ((List.singleton_sublist.mpr hs).append
      (List.singleton_sublist.mpr List.mem_cons_self))
  | inr ht =>
    have htail := (List.mem_cons.mp ht).resolve_left (Ne.symm hne)
    exact Or.inl (((List.singleton_sublist.mpr htail).cons_cons a).trans
      (List.sublist_append_right s _))

theorem not_pair_of_pair (hnd : as.Nodup) (h : [a, b].Sublist as) : ¬ [b, a].Sublist as := by
  induction as with
  | nil => exact fun h' => absurd (h'.subset List.mem_cons_self) List.not_mem_nil
  | cons c as ih =>
    intro h'
    obtain ⟨hc, has⟩ := List.nodup_cons.mp hnd
    cases h with
    | cons _ hab =>
      cases h' with
      | cons _ hba => exact ih has hab hba
      | cons_cons _ hba => exact hc (hab.subset (List.mem_cons_of_mem a List.mem_cons_self))
    | cons_cons _ hab =>
      cases h' with
      | cons _ hba => exact hc (hba.subset (List.mem_cons_of_mem b List.mem_cons_self))
      | cons_cons _ hba => exact hc (hab.subset List.mem_cons_self)

/-- A stable sort puts one entry before another exactly where its key is smaller, or the keys are
alike and it came first. -/
theorem pair_insertionSort_iff (r : α → α → Prop) [DecidableRel r] [Std.Total r] [IsTrans α r]
    (hnd : as.Nodup) (ha : a ∈ as) (hb : b ∈ as) :
    [a, b].Sublist (as.insertionSort r) ↔ ¬ r b a ∨ r a b ∧ [a, b].Sublist as := by
  have hperm := List.perm_insertionSort r as
  have hnd' : (as.insertionSort r).Nodup := hperm.nodup_iff.mpr hnd
  apply Iff.intro
  · intro h
    have hr : r a b := by
      have hpair := (List.pairwise_insertionSort r as).sublist h
      exact (List.pairwise_cons.mp hpair).1 b List.mem_cons_self
    by_cases hba : r b a
    · have hne : a ≠ b := by
        have hnd2 := hnd'.sublist h
        exact fun heq => (List.nodup_cons.mp hnd2).1 (heq ▸ List.mem_cons_self)
      refine Or.inr ⟨hr, (pair_or_pair ha hb hne).resolve_right fun h' => ?_⟩
      exact not_pair_of_pair hnd' h (List.pair_sublist_insertionSort hba h')
    · exact Or.inl hba
  · intro h
    cases h with
    | inl hba =>
      have hne : a ≠ b := fun heq => hba (heq ▸ (Std.Total.total (r := r) a a).elim id id)
      refine (pair_or_pair (hperm.mem_iff.mpr ha) (hperm.mem_iff.mpr hb) hne).resolve_right ?_
      intro h'
      have hpair := (List.pairwise_insertionSort r as).sublist h'
      exact hba ((List.pairwise_cons.mp hpair).1 a List.mem_cons_self)
    | inr hab => exact List.pair_sublist_insertionSort hab.1 hab.2

end StableSort
