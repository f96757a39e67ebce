import Mathlib.Data.List.Range
import Mathlib.Algebra.Order.Ring.Int

/-! A search that fans out from a place and stops at the first hit, the place after it first. -/

namespace Nearest

variable (hit : Int → Bool) (e : Int)

def ring (r : Nat) : Option Int :=
  if hit (e + r) then some (e + r)
  else if 0 < r ∧ hit (e - r) then some (e - r)
  else none

def search (R : Nat) : Option Int := (List.range (R + 1)).findSome? (ring hit e)

/-- The first of two places comes before the second in the order of the search. -/
def Before (e l k : Int) : Prop :=
  (l - e).natAbs < (k - e).natAbs ∨ ((l - e).natAbs = (k - e).natAbs ∧ k ≤ l)

variable {hit e}

theorem ring_eq_none {r : Nat} :
    ring hit e r = none ↔ ∀ l, (l - e).natAbs = r → hit l = false := by
  apply Iff.intro
  · intro hnone l hl
    have hside : l = e + r ∨ l = e - r := by omega
    unfold ring at hnone
    split_ifs at hnone with hdown hup
    rcases hside with rfl | rfl
    · simpa using hdown
    · by_cases hpos : 0 < r
      · simpa [hpos] using hup
      · have hr : e - (r : Int) = e + r := by omega
        rw [hr]
        simpa using hdown
  · intro hall
    have hdown : hit (e + r) = false := hall _ (by omega)
    have hup : hit (e - r) = false := hall _ (by omega)
    simp [ring, hdown, hup]

theorem ring_eq_some {r : Nat} {l : Int} (h : ring hit e r = some l) :
    hit l = true ∧ (l - e).natAbs = r ∧ ∀ k, (k - e).natAbs = r → hit k = true → k ≤ l := by
  unfold ring at h
  split_ifs at h with hdown hup
  · cases h
    exact ⟨hdown, by omega, fun k hk _ => by omega⟩
  · cases h
    refine ⟨hup.2, by omega, fun k hk hhit => ?_⟩
    have hside : k = e + r ∨ k = e - r := by omega
    rcases hside with rfl | rfl
    · exact absurd hhit hdown
    · exact le_refl _

theorem search_succ (R : Nat) :
    search hit e (R + 1) = (search hit e R).or (ring hit e (R + 1)) := by
  rw [search, List.range_succ, List.findSome?_append, List.findSome?_singleton, search]

theorem search_eq_none {R : Nat} :
    search hit e R = none ↔ ∀ l, (l - e).natAbs ≤ R → hit l = false := by
  induction R with
  | zero =>
    rw [search, zero_add, List.range_one, List.findSome?_singleton, ring_eq_none]
    simp
  | succ R ih =>
    rw [search_succ, Option.or_eq_none_iff, ih, ring_eq_none]
    apply Iff.intro
    · rintro ⟨hin, hon⟩ l hl
      by_cases hlast : (l - e).natAbs = R + 1
      · exact hon l hlast
      · exact hin l (by omega)
    · intro hall
      exact ⟨fun l hl => hall l (by omega), fun l hl => hall l (by omega)⟩

/-- What the search stops at is hit, and comes before every other hit it could have stopped at. -/
theorem search_sound {R : Nat} {l : Int} (h : search hit e R = some l) :
    hit l = true ∧ (l - e).natAbs ≤ R ∧
      ∀ k, (k - e).natAbs ≤ R → hit k = true → Before e l k := by
  induction R with
  | zero =>
    rw [search, zero_add, List.range_one, List.findSome?_singleton] at h
    obtain ⟨hhit, hdist, hbest⟩ := ring_eq_some h
    refine ⟨hhit, by omega, fun k hk hk' => Or.inr ⟨by omega, hbest k (by omega) hk'⟩⟩
  | succ R ih =>
    rw [search_succ] at h
    cases hprev : search hit e R with
    | some m =>
      rw [hprev, Option.some_or, Option.some.injEq] at h
      subst h
      obtain ⟨hhit, hdist, hbest⟩ := ih hprev
      refine ⟨hhit, by omega, fun k hk hk' => ?_⟩
      by_cases hin : (k - e).natAbs ≤ R
      · exact hbest k hin hk'
      · exact Or.inl (by omega)
    | none =>
      rw [hprev, Option.none_or] at h
      obtain ⟨hhit, hdist, hbest⟩ := ring_eq_some h
      refine ⟨hhit, by omega, fun k hk hk' => ?_⟩
      have hout : ¬(k - e).natAbs ≤ R := by
        intro hin
        rw [search_eq_none.mp hprev k hin] at hk'
        simp at hk'
      exact Or.inr ⟨by omega, hbest k (by omega) hk'⟩

theorem Before.eq {l k : Int} (h : Before e l k) (h' : Before e k l) : l = k := by
  rcases h with hlt | ⟨heq, hle⟩
  · rcases h' with hlt' | ⟨heq', hle'⟩ <;> omega
  · rcases h' with hlt' | ⟨heq', hle'⟩ <;> omega

theorem search_eq_some {R : Nat} {l : Int} :
    search hit e R = some l ↔ hit l = true ∧ (l - e).natAbs ≤ R ∧
      ∀ k, (k - e).natAbs ≤ R → hit k = true → Before e l k := by
  apply Iff.intro search_sound
  rintro ⟨hhit, hdist, hbest⟩
  cases hfound : search hit e R with
  | none =>
    rw [search_eq_none.mp hfound l hdist] at hhit
    simp at hhit
  | some m =>
    obtain ⟨hhit', hdist', hbest'⟩ := search_sound hfound
    rw [(hbest' l hdist hhit).eq (hbest m hdist' hhit')]

end Nearest
