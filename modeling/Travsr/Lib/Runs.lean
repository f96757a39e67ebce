import Mathlib.Data.List.Basic

namespace Runs

variable {σ α : Type} {step : σ → α → σ} {s : σ} {a : α} {as : List α}

def run (step : σ → α → σ) (s : σ) (as : List α) : σ := as.foldl step s

/-- Something holds of every step, in the state it is taken in. -/
def Every (step : σ → α → σ) (P : σ → α → Prop) (s : σ) (as : List α) : Prop :=
  ∀ pre a post, as = pre ++ a :: post → P (run step s pre) a

/-- Something holds of every state on the way, the first and the last among them. -/
def Always (step : σ → α → σ) (I : σ → Prop) (s : σ) (as : List α) : Prop :=
  ∀ pre post, as = pre ++ post → I (run step s pre)

theorem every_nil {P : σ → α → Prop} : Every step P s [] := by
  intro pre a post h
  simp at h

theorem every_cons {P : σ → α → Prop} :
    Every step P s (a :: as) ↔ P s a ∧ Every step P (step s a) as := by
  constructor
  · intro h
    refine ⟨h [] a as rfl, ?_⟩
    intro pre b post has
    exact h (a :: pre) b post (by rw [has]; rfl)
  · intro h pre b post has
    cases pre with
    | nil =>
      obtain ⟨hb, _⟩ := List.cons.inj has
      exact hb ▸ h.1
    | cons c pre =>
      obtain ⟨hc, hrest⟩ := List.cons.inj has
      subst hc
      exact h.2 pre b post hrest

theorem always_nil {I : σ → Prop} : Always step I s [] ↔ I s := by
  constructor
  · exact fun h => h [] [] rfl
  · intro h pre post hnil
    rw [(List.append_eq_nil_iff.mp hnil.symm).1]
    exact h

theorem always_cons {I : σ → Prop} :
    Always step I s (a :: as) ↔ I s ∧ Always step I (step s a) as := by
  constructor
  · intro h
    refine ⟨h [] (a :: as) rfl, ?_⟩
    intro pre post has
    exact h (a :: pre) post (by rw [has]; rfl)
  · intro h pre post has
    cases pre with
    | nil => exact h.1
    | cons c pre =>
      obtain ⟨hc, hrest⟩ := List.cons.inj has
      subst hc
      exact h.2 pre post hrest

theorem always_of_step {I : σ → Prop} (hstep : ∀ s a, I s → I (step s a)) (h0 : I s) :
    Always step I s as := by
  induction as generalizing s with
  | nil => exact always_nil.mpr h0
  | cons a as ih => exact always_cons.mpr ⟨h0, ih (hstep s a h0)⟩

/-- An invariant that a step keeps under its condition holds all along where every step meets its
condition. -/
theorem always_of_every {I : σ → Prop} {P : σ → α → Prop}
    (hstep : ∀ s a, I s → P s a → I (step s a)) (hP : Every step P s as) (h0 : I s) :
    Always step I s as := by
  induction as generalizing s with
  | nil => exact always_nil.mpr h0
  | cons a as ih =>
    obtain ⟨ha, hrest⟩ := every_cons.mp hP
    exact always_cons.mpr ⟨h0, ih hrest (hstep s a h0 ha)⟩

theorem Always.mono {I J : σ → Prop} (h : ∀ s, I s → J s) (hI : Always step I s as) :
    Always step J s as := fun pre post has => h _ (hI pre post has)

/-- An invariant that a step keeps exactly under its condition holds all along exactly when every
step meets its condition. -/
theorem always_iff_every {I J : σ → Prop} {P Q : σ → α → Prop}
    (hkeep : ∀ s a, J s → J (step s a))
    (hstep : ∀ s a, J s → P s a → I s → (I (step s a) ↔ Q s a))
    (hP : Every step P s as) (hJ : J s) (hI : I s) : Always step I s as ↔ Every step Q s as := by
  induction as generalizing s with
  | nil => exact iff_of_true (always_nil.mpr hI) every_nil
  | cons a as ih =>
    obtain ⟨ha, hrest⟩ := every_cons.mp hP
    rw [always_cons, every_cons]
    have hiff := hstep s a hJ ha hI
    constructor
    · intro h
      have hI' : I (step s a) := h.2 [] as rfl
      exact ⟨hiff.mp hI', (ih hrest (hkeep s a hJ) hI').mp h.2⟩
    · intro h
      exact ⟨hI, (ih hrest (hkeep s a hJ) (hiff.mpr h.1)).mpr h.2⟩

end Runs
