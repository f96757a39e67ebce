import Mathlib.Data.Option.Basic
import Mathlib.Data.Finset.Card

namespace Loop

variable {σ τ : Type*}

/-- Repeats `step` until it answers `none`, at most `fuel` times. -/
def iterate (step : σ → Option σ) : Nat → σ → σ
  | 0, s => s
  | fuel + 1, s =>
    match step s with
    | none => s
    | some s' => iterate step fuel s'

/-- Every step lowers the measure, so a loop with that much fuel never runs out of it. -/
def Decreases (step : σ → Option σ) (μ : σ → Nat) : Prop :=
  ∀ s s', step s = some s' → μ s' < μ s

theorem iterate_of_none {step : σ → Option σ} {s : σ} (h : step s = none) (fuel : Nat) :
    iterate step fuel s = s := by
  cases fuel with
  | zero => rfl
  | succ n => simp only [iterate, h]

theorem iterate_succ_of_some {step : σ → Option σ} {s s' : σ} (h : step s = some s')
    (fuel : Nat) : iterate step (fuel + 1) s = iterate step fuel s' := by
  simp only [iterate, h]

theorem Decreases.none_of_zero {step : σ → Option σ} {μ : σ → Nat} (hμ : Decreases step μ)
    {s : σ} (h : μ s = 0) : step s = none := by
  cases hs : step s with
  | none => rfl
  | some s' =>
    have := hμ s s' hs
    omega

theorem iterate_halts {step : σ → Option σ} {μ : σ → Nat} (hμ : Decreases step μ) :
    ∀ (fuel : Nat) (s : σ), μ s ≤ fuel → step (iterate step fuel s) = none := by
  intro fuel
  induction fuel with
  | zero => intro s hs; exact hμ.none_of_zero (Nat.le_zero.mp hs)
  | succ n ih =>
    intro s hs
    cases h : step s with
    | none => rw [iterate_of_none h]; exact h
    | some s' =>
      rw [iterate_succ_of_some h]
      have := hμ s s' h
      exact ih s' (by omega)

theorem iterate_halts_of_invariant {step : σ → Option σ} {μ : σ → Nat} {P : σ → Prop}
    (hstep : ∀ s s', P s → step s = some s' → P s' ∧ μ s' < μ s) :
    ∀ (fuel : Nat) (s : σ), P s → μ s ≤ fuel →
      P (iterate step fuel s) ∧ step (iterate step fuel s) = none := by
  intro fuel
  induction fuel with
  | zero =>
    intro s hs hμ
    refine ⟨hs, ?_⟩
    cases h : step s with
    | none => exact h
    | some s' =>
      have := (hstep s s' hs h).2
      omega
  | succ n ih =>
    intro s hs hμ
    cases h : step s with
    | none =>
      rw [iterate_of_none h]
      exact ⟨hs, h⟩
    | some s' =>
      rw [iterate_succ_of_some h]
      obtain ⟨hs', hlt⟩ := hstep s s' hs h
      exact ih s' hs' (by omega)

theorem iterate_invariant {step : σ → Option σ} {P : σ → Prop}
    (hstep : ∀ s s', P s → step s = some s' → P s') :
    ∀ (fuel : Nat) (s : σ), P s → P (iterate step fuel s) := by
  intro fuel
  induction fuel with
  | zero => intro s hs; exact hs
  | succ n ih =>
    intro s hs
    cases h : step s with
    | none => rw [iterate_of_none h]; exact hs
    | some s' => rw [iterate_succ_of_some h]; exact ih s' (hstep s s' hs h)

theorem iterate_rel {f : σ → Option σ} {g : τ → Option τ} {μ : σ → Nat} {ν : τ → Nat}
    (hμ : Decreases f μ) (hν : Decreases g ν) {R : σ → τ → Prop}
    (hsim : ∀ s t, R s t → Option.Rel R (f s) (g t)) :
    ∀ (n m : Nat) (s : σ) (t : τ), μ s ≤ n → ν t ≤ m → R s t →
      R (iterate f n s) (iterate g m t) := by
  intro n
  induction n with
  | zero =>
    intro m s t hs ht h
    have hf : f s = none := hμ.none_of_zero (Nat.le_zero.mp hs)
    have hr := hsim s t h
    rw [hf] at hr
    have hg : g t = none := by
      cases hg : g t with
      | none => rfl
      | some t' => rw [hg] at hr; cases hr
    rw [iterate_of_none hf, iterate_of_none hg]
    exact h
  | succ n ih =>
    intro m s t hs ht h
    have hr := hsim s t h
    cases hf : f s with
    | none =>
      rw [hf] at hr
      have hg : g t = none := by
        cases hg : g t with
        | none => rfl
        | some t' => rw [hg] at hr; cases hr
      rw [iterate_of_none hf, iterate_of_none hg]
      exact h
    | some s' =>
      rw [hf] at hr
      cases hg : g t with
      | none => rw [hg] at hr; cases hr
      | some t' =>
        rw [hg] at hr
        have hR : R s' t' := by cases hr; assumption
        have h1 := hμ s s' hf
        have h2 := hν t t' hg
        obtain ⟨m', rfl⟩ : ∃ m', m = m' + 1 := ⟨m - 1, by omega⟩
        rw [iterate_succ_of_some hf, iterate_succ_of_some hg]
        exact ih m' s' t' (by omega) (by omega) hR

/-- A first-in first-out worklist that takes each element once; elements carry their depth. -/
structure Worklist (α : Type*) where
  visited : Finset α
  queue : List (α × Nat)

namespace Worklist

variable {α : Type*} [DecidableEq α]

def start (a : α) : Worklist α := ⟨{a}, [(a, 0)]⟩

def push (w : Worklist α) (a : α) (depth : Nat) : Worklist α :=
  if a ∈ w.visited then w else ⟨insert a w.visited, w.queue ++ [(a, depth)]⟩

/-- What is queued and what may still be: over a finite universe no push raises it. -/
def potential (univ : Finset α) (w : Worklist α) : Nat := w.queue.length + (univ \ w.visited).card

theorem potential_push_le {univ : Finset α} {a : α} (ha : a ∈ univ) (w : Worklist α)
    (depth : Nat) : (w.push a depth).potential univ ≤ w.potential univ := by
  unfold push
  split_ifs with h
  · exact le_rfl
  · have hlt : (univ \ insert a w.visited).card < (univ \ w.visited).card := by
      apply Finset.card_lt_card
      rw [Finset.ssubset_iff_of_subset (Finset.sdiff_subset_sdiff le_rfl (Finset.subset_insert _ _))]
      exact ⟨a, by simp [ha, h], by simp⟩
    simp only [potential, List.length_append, List.length_singleton]
    omega

theorem mem_queue_push {w : Worklist α} {a : α} {depth : Nat} {x : α × Nat}
    (h : x ∈ (w.push a depth).queue) : x ∈ w.queue ∨ x = (a, depth) := by
  unfold push at h
  split_ifs at h
  · exact .inl h
  · simpa using h

theorem potential_start_le (univ : Finset α) (a : α) :
    (start a).potential univ ≤ 1 + univ.card := by
  simp only [start, potential, List.length_singleton]
  have := Finset.card_le_card (Finset.sdiff_subset (s := univ) (t := {a}))
  omega

end Worklist

end Loop
