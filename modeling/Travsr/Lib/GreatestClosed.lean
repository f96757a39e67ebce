import Mathlib.Data.Finset.SDiff
import Mathlib.Order.Bounds.Basic
import Travsr.Lib.Loop

namespace GreatestClosed

variable {α : Type*} [DecidableEq α]

/-- No pair leads from the set to a point of the scope outside it. -/
def Closed (pairs : List (α × α)) (scope s : Finset α) : Prop :=
  ∀ p ∈ pairs, p.1 ∈ s → p.2 ∈ scope → p.2 ∈ s

instance (pairs : List (α × α)) (scope s : Finset α) : Decidable (Closed pairs scope s) :=
  inferInstanceAs (Decidable (∀ p ∈ pairs, p.1 ∈ s → p.2 ∈ scope → p.2 ∈ s))

def demoted (pairs : List (α × α)) (scope s : Finset α) : List α :=
  (pairs.filter (fun p => p.1 ∈ s ∧ p.2 ∈ scope ∧ p.2 ∉ s)).map Prod.fst

theorem mem_demoted {pairs : List (α × α)} {scope s : Finset α} {a : α} :
    a ∈ demoted pairs scope s ↔ ∃ p ∈ pairs, p.1 = a ∧ p.1 ∈ s ∧ p.2 ∈ scope ∧ p.2 ∉ s := by
  unfold demoted
  rw [List.mem_map]
  constructor
  · rintro ⟨p, hp, rfl⟩
    rw [List.mem_filter, decide_eq_true_eq] at hp
    exact ⟨p, hp.1, rfl, hp.2⟩
  · rintro ⟨p, hp, rfl, hs⟩
    exact ⟨p, List.mem_filter.mpr ⟨hp, by simpa using hs⟩, rfl⟩

/-- One round of demotion; `none` once nothing is demoted. -/
def demoteStep (pairs : List (α × α)) (scope s : Finset α) : Option (Finset α) :=
  if (demoted pairs scope s).isEmpty then none else some (s \ (demoted pairs scope s).toFinset)

def demote (pairs : List (α × α)) (scope s : Finset α) : Finset α :=
  Loop.iterate (demoteStep pairs scope) s.card s

theorem demoteStep_eq_some {pairs : List (α × α)} {scope s t : Finset α}
    (h : demoteStep pairs scope s = some t) :
    demoted pairs scope s ≠ [] ∧ t = s \ (demoted pairs scope s).toFinset := by
  unfold demoteStep at h
  split_ifs at h with he
  exact ⟨by simpa using he, (Option.some.inj h).symm⟩

theorem demoteStep_decreases (pairs : List (α × α)) (scope : Finset α) :
    Loop.Decreases (demoteStep pairs scope) Finset.card := by
  intro s t h
  obtain ⟨hne, rfl⟩ := demoteStep_eq_some h
  obtain ⟨a, ha⟩ := List.exists_mem_of_ne_nil _ hne
  apply Finset.card_lt_card
  rw [Finset.ssubset_iff_of_subset Finset.sdiff_subset]
  obtain ⟨p, _, rfl, hs, _⟩ := mem_demoted.mp ha
  exact ⟨p.1, hs, by simp [ha]⟩

theorem closed_iff_demoteStep {pairs : List (α × α)} {scope s : Finset α} :
    Closed pairs scope s ↔ demoteStep pairs scope s = none := by
  unfold demoteStep
  constructor
  · intro h
    rw [if_pos]
    rw [List.isEmpty_iff, List.eq_nil_iff_forall_not_mem]
    intro a ha
    obtain ⟨p, hp, _, hs, hsc, hn⟩ := mem_demoted.mp ha
    exact hn (h p hp hs hsc)
  · intro h p hp hs hsc
    split_ifs at h with he
    by_contra hn
    have : p.1 ∈ demoted pairs scope s := mem_demoted.mpr ⟨p, hp, rfl, hs, hsc, hn⟩
    rw [List.isEmpty_iff.mp he] at this
    cases this

theorem demote_closed (pairs : List (α × α)) (scope s : Finset α) :
    Closed pairs scope (demote pairs scope s) :=
  closed_iff_demoteStep.mpr
    (Loop.iterate_halts (demoteStep_decreases pairs scope) s.card s le_rfl)

theorem demote_subset (pairs : List (α × α)) (scope s : Finset α) :
    demote pairs scope s ⊆ s := by
  refine Loop.iterate_invariant (P := fun t => t ⊆ s) ?_ s.card s (Finset.Subset.refl s)
  intro t u ht h
  obtain ⟨_, rfl⟩ := demoteStep_eq_some h
  exact Finset.sdiff_subset.trans ht

theorem subset_demote {pairs : List (α × α)} {scope s q : Finset α} (hq : q ⊆ s)
    (hc : Closed pairs scope q) : q ⊆ demote pairs scope s := by
  refine Loop.iterate_invariant (P := fun t => q ⊆ t) ?_ s.card s hq
  intro t u ht h
  obtain ⟨_, rfl⟩ := demoteStep_eq_some h
  intro a ha
  rw [Finset.mem_sdiff, List.mem_toFinset]
  refine ⟨ht ha, ?_⟩
  intro hd
  obtain ⟨p, hp, rfl, _, hsc, hn⟩ := mem_demoted.mp hd
  exact hn (ht (hc p hp ha hsc))

theorem demote_isGreatest (pairs : List (α × α)) (scope s : Finset α) :
    IsGreatest { q | q ⊆ s ∧ Closed pairs scope q } (demote pairs scope s) :=
  ⟨⟨demote_subset pairs scope s, demote_closed pairs scope s⟩, fun _ hq => subset_demote hq.1 hq.2⟩

omit [DecidableEq α] in
theorem closed_congr {pairs pairs' : List (α × α)} {scope s : Finset α}
    (h : ∀ p, p ∈ pairs ↔ p ∈ pairs') : Closed pairs scope s ↔ Closed pairs' scope s :=
  ⟨fun hc p hp => hc p ((h p).mpr hp), fun hc p hp => hc p ((h p).mp hp)⟩

theorem demote_congr {pairs pairs' : List (α × α)} (h : ∀ p, p ∈ pairs ↔ p ∈ pairs')
    (scope s : Finset α) : demote pairs scope s = demote pairs' scope s := by
  refine (demote_isGreatest pairs scope s).unique ?_
  have hset : { q | q ⊆ s ∧ Closed pairs scope q } = { q | q ⊆ s ∧ Closed pairs' scope q } := by
    ext q
    exact and_congr_right fun _ => closed_congr h
  rw [hset]
  exact demote_isGreatest pairs' scope s

end GreatestClosed
