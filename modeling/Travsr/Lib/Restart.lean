import Mathlib.Data.List.Basic

/-! Scripts that may be broken off after any step and are run again from their beginning. -/

namespace Restart

variable {σ : Type} {steps : List (σ → σ)} {s t : σ}

def finish (steps : List (σ → σ)) (s : σ) : σ := steps.foldl (fun s f => f s) s

def after (steps : List (σ → σ)) (k : Nat) (s : σ) : σ := finish (steps.take k) s

@[simp] theorem finish_nil (s : σ) : finish [] s = s := rfl

@[simp] theorem finish_cons (f : σ → σ) (steps : List (σ → σ)) (s : σ) :
    finish (f :: steps) s = finish steps (f s) := rfl

theorem finish_append (steps more : List (σ → σ)) (s : σ) :
    finish (steps ++ more) s = finish more (finish steps s) := by simp [finish]

/-- Wherever it was broken off, the script run again comes to the same end. -/
def Resumable (steps : List (σ → σ)) : Prop :=
  ∀ k s, finish steps (after steps k s) = finish steps s

/-- Steps with conditions: each brings its own about, does nothing where it holds, and spoils none. -/
structure Guarded (gs : List ((σ → σ) × (σ → Prop))) : Prop where
  brings : ∀ g ∈ gs, ∀ s, g.2 (g.1 s)
  idle : ∀ g ∈ gs, ∀ s, g.2 s → g.1 s = s
  keeps : ∀ g ∈ gs, ∀ h ∈ gs, ∀ s, g.2 s → g.2 (h.1 s)

variable {gs part : List ((σ → σ) × (σ → Prop))} {g : (σ → σ) × (σ → Prop)}

theorem Guarded.finish_keeps (h : Guarded gs) (hg : g ∈ gs) (hpart : part ⊆ gs) (hs : g.2 s) :
    g.2 (finish (part.map Prod.fst) s) := by
  induction part generalizing s with
  | nil => simpa using hs
  | cons f part ih =>
    obtain ⟨hf, hrest⟩ := List.cons_subset.mp hpart
    rw [List.map_cons, finish_cons]
    exact ih hrest (h.keeps g hg f hf s hs)

theorem Guarded.finish_done (h : Guarded gs) (hpart : part ⊆ gs) (s : σ) :
    ∀ g ∈ part, g.2 (finish (part.map Prod.fst) s) := by
  induction part generalizing s with
  | nil => simp
  | cons f part ih =>
    obtain ⟨hf, hrest⟩ := List.cons_subset.mp hpart
    intro g hg
    rw [List.map_cons, finish_cons]
    cases List.mem_cons.mp hg with
    | inl heq =>
      rw [heq]
      exact h.finish_keeps hf hrest (h.brings f hf s)
    | inr hg => exact ih hrest (f.1 s) g hg

theorem Guarded.finish_idle (h : Guarded gs) (hpart : part ⊆ gs) (hs : ∀ g ∈ part, g.2 s) :
    finish (part.map Prod.fst) s = s := by
  induction part with
  | nil => simp
  | cons f part ih =>
    obtain ⟨hf, hrest⟩ := List.cons_subset.mp hpart
    rw [List.map_cons, finish_cons, h.idle f hf s (hs f List.mem_cons_self)]
    exact ih hrest fun g hg => hs g (List.mem_cons_of_mem f hg)

theorem Guarded.resumable (h : Guarded gs) : Resumable (gs.map Prod.fst) := by
  intro k s
  have htake : gs.take k ⊆ gs := List.take_subset k gs
  have hidle := h.finish_idle htake (h.finish_done htake s)
  have hsplit : ∀ t, finish (gs.map Prod.fst) t =
      finish ((gs.drop k).map Prod.fst) (finish ((gs.take k).map Prod.fst) t) := by
    intro t
    rw [← finish_append, ← List.map_append, List.take_append_drop]
  rw [hsplit, after, ← List.map_take, hidle, hsplit s]

end Restart
