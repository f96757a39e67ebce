import Mathlib.Data.List.Forall2

namespace Chunks

variable {α β : Type} {step : List α → Option (List β × List α)} {s u v : List α} {o p : List β}

def runFuel (step : List α → Option (List β × List α)) : Nat → List α → Option (List β)
  | _, [] => some []
  | 0, _ :: _ => none
  | fuel + 1, a :: s =>
    (step (a :: s)).bind fun r => (runFuel step fuel r.2).map (r.1 ++ ·)

/-- Takes a list apart from left to right: of what is left, `step` says what is written for the
chunk it begins with, and what follows the chunk. -/
def run (step : List α → Option (List β × List α)) (s : List α) : Option (List β) :=
  runFuel step s.length s

def Shrinks (step : List α → Option (List β × List α)) : Prop :=
  ∀ a s r, step (a :: s) = some r → r.2.length ≤ s.length

theorem runFuel_eq (h : Shrinks step) {fuel : Nat} (hf : s.length ≤ fuel) :
    runFuel step fuel s = run step s := by
  induction hs : s.length using Nat.strongRecOn generalizing s fuel with
  | _ n ih =>
    cases s with
    | nil => cases fuel <;> rfl
    | cons a s =>
      obtain ⟨fuel, rfl⟩ : ∃ k, fuel = k + 1 := ⟨fuel - 1, by simp at hf; omega⟩
      simp only [run, List.length_cons, runFuel] at hs hf ⊢
      cases hr : step (a :: s) with
      | none => rfl
      | some r =>
        have hle := h a s r hr
        simp only [Option.bind_some]
        rw [ih r.2.length (by omega) (by omega) rfl, ih r.2.length (by omega) hle rfl]

@[simp] theorem run_nil : run step [] = some [] := rfl

theorem run_cons (h : Shrinks step) (a : α) (s : List α) :
    run step (a :: s) = (step (a :: s)).bind fun r => (run step r.2).map (r.1 ++ ·) := by
  simp only [run, List.length_cons, runFuel]
  cases hr : step (a :: s) with
  | none => rfl
  | some r => simp only [Option.bind_some, runFuel_eq h (h a s r hr), run]

def WritesOver (R : α → β → Prop) (step : List α → Option (List β × List α)) : Prop :=
  ∀ s o t, step s = some (o, t) → ∃ u, s = u ++ t ∧ u ≠ [] ∧ List.Forall₂ R u o

variable {R : α → β → Prop}

theorem WritesOver.shrinks (h : WritesOver R step) : Shrinks step := by
  intro a s r hr
  obtain ⟨u, hs, hu, -⟩ := h _ _ _ hr
  have hpos := List.length_pos_iff.mpr hu
  have hlen := congrArg List.length hs
  simp only [List.length_cons, List.length_append] at hlen
  omega

theorem WritesOver.run (h : WritesOver R step) (hs : run step s = some o) : List.Forall₂ R s o := by
  induction hn : s.length using Nat.strongRecOn generalizing s o with
  | _ n ih =>
    cases s with
    | nil =>
      simp only [run_nil, Option.some.injEq] at hs
      simp [← hs]
    | cons a s =>
      rw [run_cons h.shrinks] at hs
      obtain ⟨r, hr, hs⟩ := Option.bind_eq_some_iff.mp hs
      obtain ⟨p, hp, rfl⟩ := Option.map_eq_some_iff.mp hs
      obtain ⟨u, hu, -, hover⟩ := h _ _ _ hr
      have hle := h.shrinks a s r hr
      rw [List.length_cons] at hn
      rw [hu]
      exact List.rel_append hover (ih r.2.length (by omega) hp rfl)

/-- Whatever follows, `u` is a row of whole chunks, for which `o` is written. -/
def Emits (step : List α → Option (List β × List α)) (u : List α) (o : List β) : Prop :=
  ∀ s, run step (u ++ s) = (run step s).map (o ++ ·)

theorem Emits.nil : Emits step [] [] := by
  intro s
  simp

theorem Emits.append (hu : Emits step u o) (hv : Emits step v p) :
    Emits step (u ++ v) (o ++ p) := by
  intro s
  rw [List.append_assoc, hu, hv, Option.map_map]
  simp [Function.comp_def]

theorem Emits.of_step (h : Shrinks step) {a : α} (hs : ∀ s, step (a :: (u ++ s)) = some (o, s)) :
    Emits step (a :: u) o := by
  intro s
  rw [List.cons_append, run_cons h, hs]
  rfl

theorem Emits.run_eq (h : Emits step u o) : run step u = some o := by
  have := h []
  simpa using this

theorem Emits.flatMap {γ : Type} {f : γ → List α} {g : γ → List β} {l : List γ}
    (h : ∀ x ∈ l, Emits step (f x) (g x)) : Emits step (l.flatMap f) (l.flatMap g) := by
  induction l with
  | nil => exact Emits.nil
  | cons x l ih =>
    simp only [List.flatMap_cons]
    exact (h x List.mem_cons_self).append (ih fun y hy => h y (List.mem_cons_of_mem x hy))

end Chunks
