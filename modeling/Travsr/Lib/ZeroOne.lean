import Mathlib.Algebra.BigOperators.Group.Finset.Basic
import Mathlib.Algebra.GroupWithZero.Nat
import Mathlib.Algebra.Order.BigOperators.Group.Finset
import Mathlib.Order.Bounds.Basic

namespace ZeroOne

open Finset

variable (cost value : Nat → Nat)

/-- The most that a choice among the first items is worth, within a capacity. -/
def best : Nat → Nat → Nat
  | 0, _ => 0
  | i + 1, w => max (best i w) (if cost i ≤ w then best i (w - cost i) + value i else 0)

/-- The choice read back from the optimal values: an item is in where it made a difference. -/
def picked : Nat → Nat → List Nat
  | 0, _ => []
  | i + 1, w =>
    if best cost value (i + 1) w = best cost value i w then picked i w
    else i :: picked i (w - cost i)

def bestUpTo (limit : Nat) : Nat → Nat → Nat
  | 0, _ => 0
  | i + 1, w =>
    max (bestUpTo limit i w)
      (if cost i ≤ w then min (bestUpTo limit i (w - cost i) + value i) limit else 0)

def readBack (f : Nat → Nat → Nat) : Nat → Nat → List Nat
  | 0, _ => []
  | i + 1, w =>
    if f (i + 1) w = f i w then readBack f i w else i :: readBack f i (w - cost i)

variable {cost value}

theorem best_succ_of_lt {i w : Nat} (h : w < cost i) :
    best cost value (i + 1) w = best cost value i w := by
  simp [best, Nat.not_le.mpr h]

theorem best_succ_of_le {i w : Nat} (h : cost i ≤ w) :
    best cost value (i + 1) w =
      max (best cost value i w) (best cost value i (w - cost i) + value i) := by
  simp [best, h]

theorem best_succ_of_ne {i w : Nat} (h : best cost value (i + 1) w ≠ best cost value i w) :
    cost i ≤ w ∧ best cost value (i + 1) w = best cost value i (w - cost i) + value i := by
  have hle : cost i ≤ w := by
    by_contra hlt
    exact h (best_succ_of_lt (by omega))
  rw [best_succ_of_le hle] at h ⊢
  exact ⟨hle, by omega⟩

theorem best_le_sum (i w : Nat) : best cost value i w ≤ ∑ j ∈ range i, value j := by
  induction i generalizing w with
  | zero => simp [best]
  | succ i ih =>
    rw [sum_range_succ]
    have hskip := ih w
    by_cases hle : cost i ≤ w
    · have htake := ih (w - cost i)
      rw [best_succ_of_le hle]
      omega
    · rw [best_succ_of_lt (by omega)]
      omega

theorem sum_le_best {i w : Nat} {S : Finset Nat} (hS : S ⊆ range i)
    (hw : ∑ j ∈ S, cost j ≤ w) : ∑ j ∈ S, value j ≤ best cost value i w := by
  induction i generalizing S w with
  | zero =>
    have hnil : S = ∅ := by simpa using hS
    simp [hnil]
  | succ i ih =>
    by_cases hi : i ∈ S
    · have hrest : S.erase i ⊆ range i := by
        intro j hj
        have hne := ne_of_mem_erase hj
        have hlt := mem_range.mp (hS (mem_of_mem_erase hj))
        exact mem_range.mpr (by omega)
      have hcost := add_sum_erase S cost hi
      have hvalue := add_sum_erase S value hi
      have htake := ih hrest (w := w - cost i) (by omega)
      rw [best_succ_of_le (show cost i ≤ w by omega)]
      omega
    · have hrest : S ⊆ range i := by
        intro j hj
        have hne : j ≠ i := fun h => hi (h ▸ hj)
        have hlt := mem_range.mp (hS hj)
        exact mem_range.mpr (by omega)
      have hskip := ih hrest hw
      rw [best]
      omega

theorem bestUpTo_eq_best {limit i : Nat} (h : ∑ j ∈ range i, value j ≤ limit) (w : Nat) :
    bestUpTo cost value limit i w = best cost value i w := by
  induction i generalizing w with
  | zero => rfl
  | succ i ih =>
    rw [sum_range_succ] at h
    have hrest : best cost value i (w - cost i) ≤ ∑ j ∈ range i, value j := best_le_sum i _
    rw [bestUpTo, best, ih (by omega), ih (by omega), Nat.min_eq_left (by omega)]

theorem cost_le_of_bestUpTo_ne {limit i w : Nat}
    (h : bestUpTo cost value limit (i + 1) w ≠ bestUpTo cost value limit i w) : cost i ≤ w := by
  by_contra hlt
  rw [bestUpTo, if_neg hlt, Nat.max_zero] at h
  exact h rfl

section

variable {f g : Nat → Nat → Nat} {i w : Nat}

theorem readBack_congr (h : ∀ j ≤ i, ∀ v ≤ w, f j v = g j v) :
    readBack cost f i w = readBack cost g i w := by
  induction i generalizing w with
  | zero => rfl
  | succ i ih =>
    rw [readBack, readBack, h (i + 1) le_rfl w le_rfl, h i (Nat.le_succ i) w le_rfl,
      ih fun j hj v hv => h j (by omega) v hv, ih fun j hj v hv => h j (by omega) v (by omega)]

theorem readBack_best : readBack cost (best cost value) i w = picked cost value i w := by
  induction i generalizing w with
  | zero => rfl
  | succ i ih => rw [readBack, picked, ih, ih]

theorem readBack_lt {j : Nat} (h : j ∈ readBack cost f i w) : j < i := by
  induction i generalizing w with
  | zero => simp [readBack] at h
  | succ i ih =>
    rw [readBack] at h
    split_ifs at h with heq
    · exact (ih h).trans (Nat.lt_succ_self i)
    · cases List.mem_cons.mp h with
      | inl hj => omega
      | inr hj => exact (ih hj).trans (Nat.lt_succ_self i)

theorem readBack_pairwise (i w : Nat) : (readBack cost f i w).Pairwise fun a b => b < a := by
  induction i generalizing w with
  | zero => simp [readBack]
  | succ i ih =>
    rw [readBack]
    split_ifs with heq
    · exact ih w
    · exact List.pairwise_cons.mpr ⟨fun j hj => readBack_lt hj, ih _⟩

theorem readBack_nodup (i w : Nat) : (readBack cost f i w).Nodup :=
  (readBack_pairwise i w).imp fun h => (Nat.ne_of_lt h).symm

theorem readBack_cost (h : ∀ i w, f (i + 1) w ≠ f i w → cost i ≤ w) (i w : Nat) :
    ((readBack cost f i w).map cost).sum ≤ w := by
  induction i generalizing w with
  | zero => simp [readBack]
  | succ i ih =>
    rw [readBack]
    split_ifs with heq
    · exact ih w
    · have hle := h i w heq
      have hrest := ih (w - cost i)
      simp only [List.map_cons, List.sum_cons]
      omega

end

theorem picked_lt {i w j : Nat} (h : j ∈ picked cost value i w) : j < i :=
  readBack_lt (readBack_best ▸ h)

theorem picked_nodup (i w : Nat) : (picked cost value i w).Nodup :=
  readBack_best ▸ readBack_nodup i w

theorem picked_cost (i w : Nat) : ((picked cost value i w).map cost).sum ≤ w :=
  readBack_best ▸ readBack_cost (fun _ _ h => (best_succ_of_ne h).1) i w

theorem picked_value (i w : Nat) :
    ((picked cost value i w).map value).sum = best cost value i w := by
  induction i generalizing w with
  | zero => simp [picked, best]
  | succ i ih =>
    rw [picked]
    split_ifs with heq
    · rw [ih, heq]
    · rw [List.map_cons, List.sum_cons, ih, (best_succ_of_ne heq).2, Nat.add_comm]

end ZeroOne
