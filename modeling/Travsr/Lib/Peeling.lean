import Mathlib.Data.Finset.Card
import Mathlib.Data.Finset.Image
import Mathlib.Data.Nat.Find
import Mathlib.Order.Bounds.Basic

namespace Peeling

variable {V : Type*} (adj : V → V → Prop) [DecidableRel adj]

def degreeIn (S : Finset V) (v : V) : Nat := (S.filter (adj v)).card

/-- Every vertex of the set has at least `k` neighbours inside it. -/
def IsCore (k : Nat) (S : Finset V) : Prop := ∀ v ∈ S, k ≤ degreeIn adj S v

def coreDepths (U : Finset V) (v : V) : Set Nat := {k | ∃ S ⊆ U, v ∈ S ∧ IsCore adj k S}

/-- The largest `k` such that the vertex belongs to a `k`-core. -/
def IsCoreness (U : Finset V) (v : V) (k : Nat) : Prop := IsGreatest (coreDepths adj U v) k

variable {adj}

theorem degreeIn_mono {S T : Finset V} (h : S ⊆ T) (v : V) : degreeIn adj S v ≤ degreeIn adj T v :=
  Finset.card_le_card (Finset.filter_subset_filter _ h)

def level (order : Nat → V) (shell : V → Nat) : Nat → Nat
  | 0 => 0
  | i + 1 => shell (order i)

theorem level_congr {order order' : Nat → V} {shell shell' : V → Nat} {i : Nat}
    (h : ∀ p < i, shell (order p) = shell' (order' p)) :
    level order shell i = level order' shell' i := by
  cases i with
  | zero => rfl
  | succ i => exact h i (Nat.lt_succ_self i)

variable [DecidableEq V]

theorem degreeIn_erase_of_adj {S : Finset V} {v u : V} (hv : v ∈ S) (h : adj u v) :
    degreeIn adj (S.erase v) u + 1 = degreeIn adj S u := by
  rw [degreeIn, Finset.filter_erase]
  exact Finset.card_erase_add_one (Finset.mem_filter.mpr ⟨hv, h⟩)

theorem degreeIn_erase_of_not_adj {S : Finset V} {v u : V} (h : ¬ adj u v) :
    degreeIn adj (S.erase v) u = degreeIn adj S u := by
  rw [degreeIn, Finset.filter_erase, Finset.erase_eq_of_notMem]
  · rfl
  · exact fun hm => h (Finset.mem_filter.mp hm).2

/-! ### Peeling orders -/

/-- What is left after the first `i` removals. -/
def pending (U : Finset V) (order : Nat → V) (i : Nat) : Finset V :=
  U.filter fun v => ∀ p < i, order p ≠ v

/-- The `j`-th removal takes a vertex of least degree, or one that is at the level already. -/
structure Removes (adj : V → V → Prop) [DecidableRel adj] (U : Finset V) (order : Nat → V)
    (shell : V → Nat) (j : Nat) : Prop where
  mem : order j ∈ pending U order j
  shell_eq : shell (order j) =
    max (degreeIn adj (pending U order j) (order j)) (level order shell j)
  shell_le : ∀ u ∈ pending U order j,
    shell (order j) ≤ max (degreeIn adj (pending U order j) u) (level order shell j)

/-- The first `i` removals. -/
def Peeled (adj : V → V → Prop) [DecidableRel adj] (U : Finset V) (order : Nat → V)
    (shell : V → Nat) (i : Nat) : Prop := ∀ j < i, Removes adj U order shell j

variable {U : Finset V} {order order' : Nat → V} {shell shell' : V → Nat} {i j n : Nat}

theorem mem_pending {v : V} : v ∈ pending U order i ↔ v ∈ U ∧ ∀ p < i, order p ≠ v :=
  Finset.mem_filter

theorem pending_anti (h : i ≤ j) : pending U order j ⊆ pending U order i := fun _ hv =>
  mem_pending.mpr ⟨(mem_pending.mp hv).1, fun p hp => (mem_pending.mp hv).2 p (hp.trans_le h)⟩

theorem pending_succ : pending U order (i + 1) = (pending U order i).erase (order i) := by
  ext v
  rw [mem_pending, Finset.mem_erase, mem_pending]
  constructor
  · intro h
    exact ⟨fun hv => h.2 i (Nat.lt_succ_self i) hv.symm, h.1, fun p hp => h.2 p (Nat.lt_succ_of_lt hp)⟩
  · intro h
    refine ⟨h.2.1, fun p hp => ?_⟩
    rcases Nat.lt_succ_iff_lt_or_eq.mp hp with hlt | rfl
    · exact h.2.2 p hlt
    · exact fun he => h.1 he.symm

theorem pending_congr (h : ∀ p < i, order p = order' p) : pending U order i = pending U order' i := by
  ext v
  rw [mem_pending, mem_pending]
  refine and_congr_right fun _ => forall₂_congr fun p hp => ?_
  rw [h p hp]

theorem Peeled.congr (hp : Peeled adj U order shell i) (h : ∀ p < i, order p = order' p)
    (hs : ∀ p < i, shell (order p) = shell' (order p)) : Peeled adj U order' shell' i := by
  have hshell : ∀ p < i, shell (order p) = shell' (order' p) := by
    intro p hpi
    rw [← h p hpi]
    exact hs p hpi
  intro j hj
  have hpend := @pending_congr _ _ U order order' j fun p hp => h p (hp.trans hj)
  have hlevel := @level_congr _ order order' shell shell' j fun p hp => hshell p (hp.trans hj)
  obtain ⟨hm, he, hl⟩ := hp j hj
  rw [hpend, h j hj] at hm
  rw [hpend, hlevel, hshell j hj, h j hj] at he
  rw [hpend, hlevel, hshell j hj] at hl
  exact ⟨hm, he, hl⟩

theorem Peeled.succ (hp : Peeled adj U order shell i) (h : Removes adj U order shell i) :
    Peeled adj U order shell (i + 1) := by
  intro j hj
  rcases Nat.lt_succ_iff_lt_or_eq.mp hj with hlt | rfl
  · exact hp j hlt
  · exact h

namespace Peeled

theorem level_mono (h : Peeled adj U order shell n) (hij : i ≤ j) (hj : j ≤ n) :
    level order shell i ≤ level order shell j := by
  induction hij with
  | refl => exact le_rfl
  | @step j hij ih =>
    refine (ih (by omega)).trans ?_
    show level order shell j ≤ shell (order j)
    rw [(h j (by omega)).shell_eq]
    exact le_max_right _ _

theorem mem_coreDepths (h : Peeled adj U order shell n) (hj : j < n) :
    shell (order j) ∈ coreDepths adj U (order j) := by
  rcases Nat.eq_zero_or_pos (shell (order j)) with hzero | hpos
  · refine ⟨{order j}, ?_, Finset.mem_singleton_self _, fun v _ => ?_⟩
    · exact Finset.singleton_subset_iff.mpr (mem_pending.mp (h j hj).mem).1
    · rw [hzero]
      exact Nat.zero_le _
  · have hex : ∃ i, shell (order j) ≤ level order shell (i + 1) := ⟨j, le_rfl⟩
    classical
    let i := Nat.find hex
    have hreach : shell (order j) ≤ shell (order i) := Nat.find_spec hex
    have hij : i ≤ j := Nat.find_min' hex le_rfl
    have hbelow : level order shell i < shell (order j) := by
      rcases Nat.eq_zero_or_pos i with hi | hi
      · rw [hi]
        exact hpos
      · have hmin := Nat.find_min hex (show i - 1 < i by omega)
        rw [Nat.sub_add_cancel hi] at hmin
        exact not_le.mp hmin
    refine ⟨pending U order i, Finset.filter_subset _ _, pending_anti hij (h j hj).mem, ?_⟩
    intro u hu
    have hle := hreach.trans ((h i (hij.trans_lt hj)).shell_le u hu)
    exact (le_max_iff.mp hle).resolve_right (not_le.mpr hbelow)

theorem le_of_mem_coreDepths (h : Peeled adj U order shell n) (hj : j < n) {k : Nat}
    (hk : k ∈ coreDepths adj U (order j)) : k ≤ shell (order j) := by
  obtain ⟨S, hSU, hjS, hcore⟩ := hk
  have hex : ∃ i, order i ∈ S := ⟨j, hjS⟩
  classical
  let i := Nat.find hex
  have hiS : order i ∈ S := Nat.find_spec hex
  have hij : i ≤ j := Nat.find_min' hex hjS
  have hsub : S ⊆ pending U order i := fun v hv =>
    mem_pending.mpr ⟨hSU hv, fun p hp he => Nat.find_min hex hp (he ▸ hv)⟩
  calc k ≤ degreeIn adj S (order i) := hcore _ hiS
    _ ≤ degreeIn adj (pending U order i) (order i) := degreeIn_mono hsub _
    _ ≤ shell (order i) := by
      rw [(h i (hij.trans_lt hj)).shell_eq]
      exact le_max_left _ _
    _ ≤ shell (order j) := h.level_mono (Nat.succ_le_succ hij) hj

theorem isCoreness (h : Peeled adj U order shell n) (hall : ∀ v ∈ U, ∃ p < n, order p = v) {v : V}
    (hv : v ∈ U) : IsCoreness adj U v (shell v) := by
  obtain ⟨j, hj, rfl⟩ := hall v hv
  exact ⟨h.mem_coreDepths hj, fun k hk => h.le_of_mem_coreDepths hj hk⟩

end Peeled

/-! ### Renaming the vertices -/

section Rename

variable {W : Type*} [DecidableEq W] {adj' : W → W → Prop} [DecidableRel adj'] {f : V → W}

omit [DecidableEq V] in
theorem degreeIn_image (hf : Set.InjOn f U) (hadj : ∀ a ∈ U, ∀ b ∈ U, adj' (f a) (f b) ↔ adj a b)
    {S : Finset V} (hS : S ⊆ U) {v : V} (hv : v ∈ U) :
    degreeIn adj' (S.image f) (f v) = degreeIn adj S v := by
  have hfilter : (S.image f).filter (adj' (f v)) = (S.filter (adj v)).image f := by
    rw [Finset.filter_image]
    congr 1
    exact Finset.filter_congr fun b hb => hadj v hv b (hS hb)
  rw [degreeIn, hfilter, Finset.card_image_of_injOn]
  · rfl
  · exact hf.mono fun b hb => hS (Finset.mem_filter.mp hb).1

omit [DecidableEq V] in
theorem coreDepths_image (hf : Set.InjOn f U)
    (hadj : ∀ a ∈ U, ∀ b ∈ U, adj' (f a) (f b) ↔ adj a b) {v : V} (hv : v ∈ U) :
    coreDepths adj' (U.image f) (f v) = coreDepths adj U v := by
  ext k
  constructor
  · rintro ⟨T, hTU, hvT, hcore⟩
    let S := U.filter fun a => f a ∈ T
    have hSU : S ⊆ U := Finset.filter_subset _ _
    have hT : S.image f = T := by
      ext b
      rw [Finset.mem_image]
      constructor
      · rintro ⟨a, ha, rfl⟩
        exact (Finset.mem_filter.mp ha).2
      · intro hb
        obtain ⟨a, ha, rfl⟩ := Finset.mem_image.mp (hTU hb)
        exact ⟨a, Finset.mem_filter.mpr ⟨ha, hb⟩, rfl⟩
    refine ⟨S, hSU, Finset.mem_filter.mpr ⟨hv, hvT⟩, fun a ha => ?_⟩
    have hle := hcore (f a) (Finset.mem_filter.mp ha).2
    rwa [← hT, degreeIn_image hf hadj hSU (hSU ha)] at hle
  · rintro ⟨S, hSU, hvS, hcore⟩
    refine ⟨S.image f, Finset.image_subset_image hSU, Finset.mem_image_of_mem f hvS, ?_⟩
    intro b hb
    obtain ⟨a, ha, rfl⟩ := Finset.mem_image.mp hb
    rw [degreeIn_image hf hadj hSU (hSU ha)]
    exact hcore a ha

end Rename

end Peeling
