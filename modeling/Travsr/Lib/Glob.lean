import Mathlib.Data.List.Infix

/-! Patterns of single characters and stars. -/

namespace Glob

variable {α : Type}

inductive Item (α : Type) where
  | star
  | one (p : α → Bool)

def Matches : List (Item α) → List α → Bool
  | [], s => s.isEmpty
  | .one p :: pat, s =>
    match s with
    | [] => false
    | c :: s => p c && Matches pat s
  | .star :: pat, s => s.tails.any (Matches pat)

variable {pat : List (Item α)} {s w : List α} {p : α → Bool}

def literal [DecidableEq α] (w : List α) : List (Item α) := w.map fun a => .one (· = a)

@[simp] theorem matches_nil : Matches [] s = true ↔ s = [] := by simp [Matches]

@[simp] theorem matches_one : Matches (.one p :: pat) s = true ↔
    ∃ c t, s = c :: t ∧ p c = true ∧ Matches pat t = true := by
  cases s <;> simp [Matches]

@[simp] theorem matches_star : Matches (.star :: pat) s = true ↔
    ∃ a t, s = a ++ t ∧ Matches pat t = true := by
  simp only [Matches, List.any_eq_true, List.mem_tails]
  constructor
  · intro h
    obtain ⟨t, ⟨a, hs⟩, ht⟩ := h
    exact ⟨a, t, hs.symm, ht⟩
  · intro h
    obtain ⟨a, t, hs, ht⟩ := h
    exact ⟨t, ⟨a, hs.symm⟩, ht⟩

@[simp] theorem matches_literal [DecidableEq α] : Matches (literal w ++ pat) s = true ↔
    ∃ t, s = w ++ t ∧ Matches pat t = true := by
  induction w generalizing s with
  | nil => simp [literal]
  | cons a w ih =>
    simp only [literal] at ih
    simp only [literal, List.map_cons, List.cons_append, matches_one, ih, decide_eq_true_eq]
    constructor
    · intro h
      obtain ⟨c, t, hs, rfl, u, rfl, hu⟩ := h
      exact ⟨u, hs, hu⟩
    · intro h
      obtain ⟨u, hs, hu⟩ := h
      exact ⟨a, w ++ u, hs, rfl, u, rfl, hu⟩

end Glob
