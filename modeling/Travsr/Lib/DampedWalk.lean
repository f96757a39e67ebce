import Mathlib.Algebra.Module.LinearMap.Defs
import Mathlib.Algebra.Module.Pi
import Mathlib.Algebra.Order.BigOperators.Group.Finset
import Mathlib.Algebra.Order.Field.Basic
import Mathlib.Algebra.BigOperators.Ring.Finset
import Mathlib.Tactic.Abel
import Mathlib.Tactic.Linarith
import Mathlib.Tactic.Module
import Mathlib.Tactic.Positivity

namespace DampedWalk

variable {ι K : Type*} [Field K] [LinearOrder K]

def mass (S : Finset ι) (x : ι → K) : K := ∑ v ∈ S, |x v|

/-- A walk that moves mass along weighted edges inside the set and creates none. -/
structure Substochastic (S : Finset ι) (W : (ι → K) →ₗ[K] (ι → K)) : Prop where
  nonneg : ∀ x : ι → K, (∀ v, 0 ≤ x v) → ∀ v, 0 ≤ W x v
  off : ∀ x : ι → K, ∀ v ∉ S, W x v = 0
  mass_le : ∀ x : ι → K, (∀ v ∉ S, x v = 0) → mass S (W x) ≤ mass S x

/-- The walk that restarts from `p` with probability `1 - a` at every step. -/
def damped (a : K) (W : (ι → K) →ₗ[K] (ι → K)) (p : ι → K) : Nat → ι → K
  | 0 => p
  | t + 1 => (1 - a) • p + a • W (damped a W p t)

variable {S : Finset ι} {W : (ι → K) →ₗ[K] (ι → K)} {a ε : K} {p : ι → K}

omit [LinearOrder K] in
theorem damped_sub (t : Nat) :
    damped a W p (t + 1) - damped a W p t = a ^ (t + 1) • (W^[t + 1] p - W^[t] p) := by
  induction t with
  | zero =>
    show (1 - a) • p + a • W p - p = a ^ (0 + 1) • (W p - p)
    module
  | succ t ih =>
    have hstep : damped a W p (t + 2) - damped a W p (t + 1) =
        a • W (damped a W p (t + 1) - damped a W p t) := by
      rw [map_sub]
      show (1 - a) • p + a • W (damped a W p (t + 1)) - ((1 - a) • p + a • W (damped a W p t)) = _
      module
    rw [hstep, ih, map_smul, map_sub, Function.iterate_succ_apply' _ (t + 1),
      Function.iterate_succ_apply' _ t, smul_smul, ← pow_succ']

variable [IsStrictOrderedRing K]

theorem mass_smul (x : ι → K) : mass S (a • x) = |a| * mass S x := by
  rw [mass, mass, Finset.mul_sum]
  exact Finset.sum_congr rfl fun v _ => abs_mul a (x v)

theorem mass_nonneg (x : ι → K) : 0 ≤ mass S x := Finset.sum_nonneg fun _ _ => abs_nonneg _

theorem mass_of_nonneg {x : ι → K} (hx : ∀ v, 0 ≤ x v) : mass S x = ∑ v ∈ S, x v :=
  Finset.sum_congr rfl fun v _ => abs_of_nonneg (hx v)

theorem mass_damped_sub (ha : 0 ≤ a) (t : Nat) :
    mass S (damped a W p (t + 1) - damped a W p t) =
      a ^ (t + 1) * mass S (W^[t + 1] p - W^[t] p) := by
  rw [damped_sub, mass_smul, abs_of_nonneg (pow_nonneg ha _)]

namespace Substochastic

variable (h : Substochastic S W)

include h

omit [IsStrictOrderedRing K] in
theorem iterate_off (hp : ∀ v ∉ S, p v = 0) (t : Nat) : ∀ v ∉ S, W^[t] p v = 0 := by
  cases t with
  | zero => exact hp
  | succ t =>
    rw [Function.iterate_succ_apply']
    exact h.off _

omit [IsStrictOrderedRing K] in
theorem mass_iterate_sub_le (hp : ∀ v ∉ S, p v = 0) (t : Nat) :
    mass S (W^[t + 2] p - W^[t + 1] p) ≤ mass S (W^[t + 1] p - W^[t] p) := by
  have hstep : W^[t + 2] p - W^[t + 1] p = W (W^[t + 1] p - W^[t] p) := by
    rw [map_sub, ← Function.iterate_succ_apply' W (t + 1) p, ← Function.iterate_succ_apply' W t p]
  rw [hstep]
  refine h.mass_le _ fun v hv => ?_
  show W^[t + 1] p v - W^[t] p v = 0
  rw [h.iterate_off hp (t + 1) v hv, h.iterate_off hp t v hv, sub_zero]

theorem damped_nonneg (ha : 0 ≤ a) (ha1 : a ≤ 1) (hp : ∀ v, 0 ≤ p v) (t : Nat) :
    ∀ v, 0 ≤ damped a W p t v := by
  induction t with
  | zero => exact hp
  | succ t ih =>
    intro v
    have hw := h.nonneg _ ih v
    have hpv := hp v
    show 0 ≤ (1 - a) * p v + a * W (damped a W p t) v
    have h1 : 0 ≤ 1 - a := by linarith
    positivity

omit [IsStrictOrderedRing K] in
theorem damped_off (hp : ∀ v ∉ S, p v = 0) (t : Nat) : ∀ v ∉ S, damped a W p t v = 0 := by
  cases t with
  | zero => exact hp
  | succ t =>
    intro v hv
    show (1 - a) * p v + a * W (damped a W p t) v = 0
    rw [hp v hv, h.off _ v hv, mul_zero, mul_zero, add_zero]

theorem sum_damped_le (ha : 0 ≤ a) (ha1 : a ≤ 1) (hp : ∀ v, 0 ≤ p v) (hoff : ∀ v ∉ S, p v = 0)
    (t : Nat) : ∑ v ∈ S, damped a W p t v ≤ ∑ v ∈ S, p v := by
  induction t with
  | zero => exact le_rfl
  | succ t ih =>
    have hn := h.damped_nonneg ha ha1 hp t
    have hw := h.mass_le _ (h.damped_off (a := a) hoff t)
    rw [mass_of_nonneg (h.nonneg _ hn), mass_of_nonneg hn] at hw
    calc ∑ v ∈ S, damped a W p (t + 1) v
        = (1 - a) * ∑ v ∈ S, p v + a * ∑ v ∈ S, W (damped a W p t) v := by
          rw [Finset.mul_sum, Finset.mul_sum, ← Finset.sum_add_distrib]
          rfl
      _ ≤ (1 - a) * ∑ v ∈ S, p v + a * ∑ v ∈ S, p v := by
          have hle := mul_le_mul_of_nonneg_left (hw.trans ih) ha
          linarith
      _ = ∑ v ∈ S, p v := by ring

theorem mass_damped_sub_succ (ha : 0 ≤ a) (hp : ∀ v ∉ S, p v = 0) (t : Nat) :
    mass S (damped a W p (t + 2) - damped a W p (t + 1)) ≤
      a * mass S (damped a W p (t + 1) - damped a W p t) := by
  rw [mass_damped_sub ha, mass_damped_sub ha, ← mul_assoc, ← pow_succ']
  exact mul_le_mul_of_nonneg_left (h.mass_iterate_sub_le hp t) (pow_nonneg ha _)

theorem mass_damped_sub_anti (ha : 0 ≤ a) (ha1 : a ≤ 1) (hp : ∀ v ∉ S, p v = 0) {t u : Nat}
    (htu : t ≤ u) :
    mass S (damped a W p (u + 1) - damped a W p u) ≤
      mass S (damped a W p (t + 1) - damped a W p t) := by
  induction htu with
  | refl => exact le_rfl
  | @step u _ ih =>
    refine le_trans (h.mass_damped_sub_succ ha hp u) (le_trans ?_ ih)
    exact mul_le_of_le_one_left (mass_nonneg _) ha1

/-- A step below the tolerance comes before the `n`-th exactly if the last before it is one. -/
theorem exists_step_lt_iff (ha : 0 ≤ a) (ha1 : a ≤ 1) (hp : ∀ v ∉ S, p v = 0) (n : Nat) :
    (∃ t, t + 1 < n ∧ mass S (damped a W p (t + 1) - damped a W p t) < ε) ↔
      2 ≤ n ∧ a ^ (n - 1) * mass S (W^[n - 1] p - W^[n - 2] p) < ε := by
  constructor
  · rintro ⟨t, ht, hlt⟩
    obtain ⟨m, rfl⟩ : ∃ m, n = m + 2 := ⟨n - 2, by omega⟩
    refine ⟨by omega, ?_⟩
    have hanti := h.mass_damped_sub_anti ha ha1 hp (show t ≤ m by omega)
    rw [mass_damped_sub ha m] at hanti
    exact hanti.trans_lt hlt
  · rintro ⟨hn, hlt⟩
    obtain ⟨m, rfl⟩ : ∃ m, n = m + 2 := ⟨n - 2, by omega⟩
    refine ⟨m, by omega, ?_⟩
    rw [mass_damped_sub ha]
    exact hlt

end Substochastic

end DampedWalk
