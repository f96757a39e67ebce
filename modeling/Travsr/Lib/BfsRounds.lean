import Mathlib.Data.Nat.Find
import Travsr.Lib.Bfs

/-! A breadth-first walk in rounds, each over what the round before met. -/

namespace Bfs

variable {α : Type} {succ : α → List α} {root : α}

theorem within_succ_iff {k : Nat} {x : α} :
    Within succ root (k + 1) x ↔ x = root ∨ ∃ y ∈ succ root, Within succ y k x := by
  induction k generalizing x with
  | zero =>
    constructor
    · rintro (h | ⟨y, rfl, hx⟩)
      · exact .inl h
      · exact .inr ⟨x, hx, rfl⟩
    · rintro (h | ⟨y, hy, rfl⟩)
      · exact .inl h
      · exact .inr ⟨root, rfl, hy⟩
  | succ k ih =>
    constructor
    · rintro (h | ⟨z, hz, hx⟩)
      · rcases ih.mp h with h | ⟨y, hy, h⟩
        · exact .inl h
        · exact .inr ⟨y, hy, .inl h⟩
      · rcases ih.mp hz with rfl | ⟨y, hy, h⟩
        · exact .inr ⟨x, hx, within_start _⟩
        · exact .inr ⟨y, hy, h.step hx⟩
    · rintro (h | ⟨y, hy, h | ⟨z, hz, hx⟩⟩)
      · exact .inl (ih.mpr (.inl h))
      · exact .inl (ih.mpr (.inr ⟨y, hy, h⟩))
      · exact Within.step (ih.mpr (.inr ⟨y, hy, hz⟩)) hx

theorem Within.closed {p : α → Prop} (hroot : p root) (closed : ∀ x, p x → ∀ y ∈ succ x, p y)
    {k : Nat} {x : α} (hx : Within succ root k x) : p x := by
  induction k generalizing x with
  | zero => exact hx ▸ hroot
  | succ k ih =>
    rcases hx with hx | ⟨y, hy, hx⟩
    · exact ih hx
    · exact closed y (ih hy) x hx

theorem within_congr {succ' : α → List α} {p : α → Prop} (hroot : p root)
    (closed : ∀ x, p x → ∀ y ∈ succ x, p y) (same : ∀ x, p x → ∀ y, y ∈ succ' x ↔ y ∈ succ x)
    {k : Nat} {x : α} : Within succ' root k x ↔ Within succ root k x := by
  induction k generalizing x with
  | zero => exact Iff.rfl
  | succ k ih =>
    apply or_congr ih
    constructor
    · intro ⟨y, hy, hx⟩
      have hy := ih.mp hy
      exact ⟨y, hy, (same y (hy.closed hroot closed) x).mp hx⟩
    · exact fun ⟨y, hy, hx⟩ => ⟨y, ih.mpr hy, (same y (hy.closed hroot closed) x).mpr hx⟩

/-- The first entry is at least as near to the start as the second. -/
def Nearer (succ : α → List α) (root x y : α) : Prop :=
  ∀ k, Within succ root k y → Within succ root k x

theorem nearer_of_find? {l : List α} {hit : α → Bool} {d : α} (sorted : l.Pairwise (Nearer succ root))
    (hd : l.find? hit = some d) : ∀ x ∈ l, hit x = true → Nearer succ root d x := by
  obtain ⟨-, before, after, rfl, hskip⟩ := List.find?_eq_some_iff_append.mp hd
  intro x hx hxhit
  rcases List.mem_append.mp hx with hx | hx
  · have := hskip x hx
    rw [hxhit] at this
    cases this
  · rcases List.mem_cons.mp hx with rfl | hx
    · exact fun _ h => h
    · exact (List.pairwise_cons.mp (List.pairwise_append.mp sorted).2.1).1 x hx

/-- What the first rounds have met: everything as near as they reach, the nearest first; what they
leave to the next round is all that has successors yet to meet. -/
structure Met (succ : α → List α) (root : α) (k : Nat) (ordered frontier : List α) : Prop where
  mem : ∀ x, x ∈ ordered ↔ Within succ root k x ∧ x ≠ root
  within : ∀ x ∈ frontier, Within succ root k x
  rest : ∀ x, Within succ root k x → x ∈ frontier ∨ ∀ y ∈ succ x, Within succ root k y
  sorted : ordered.Pairwise (Nearer succ root)

theorem met_start : Met succ root 0 [] [root] := by
  refine ⟨fun x => ?_, fun x hx => List.mem_singleton.mp hx, fun x hx => ?_, List.Pairwise.nil⟩
  · simp [Within]
  · exact .inl (List.mem_singleton.mpr hx)

theorem Met.round {k : Nat} {ordered frontier fresh : List α}
    (h : Met succ root k ordered frontier)
    (hfresh : ∀ x, x ∈ fresh ↔ x ∈ frontier.flatMap succ ∧ x ≠ root ∧ x ∉ ordered) :
    Met succ root (k + 1) (ordered ++ fresh) fresh := by
  have hwithin : ∀ x ∈ fresh, Within succ root (k + 1) x := by
    intro x hx
    obtain ⟨y, hy, hxy⟩ := List.mem_flatMap.mp ((hfresh x).mp hx).1
    exact (h.within y hy).step hxy
  have hfar : ∀ x ∈ fresh, ¬ Within succ root k x := by
    intro x hx hk
    obtain ⟨-, hroot, hout⟩ := (hfresh x).mp hx
    exact hout ((h.mem x).mpr ⟨hk, hroot⟩)
  have hmem : ∀ x, x ∈ ordered ++ fresh ↔ Within succ root (k + 1) x ∧ x ≠ root := by
    intro x
    rw [List.mem_append]
    constructor
    · rintro (hx | hx)
      · exact ⟨((h.mem x).mp hx).1.mono (Nat.le_succ k), ((h.mem x).mp hx).2⟩
      · exact ⟨hwithin x hx, ((hfresh x).mp hx).2.1⟩
    · rintro ⟨hx, hroot⟩
      by_cases hk : Within succ root k x
      · exact .inl ((h.mem x).mpr ⟨hk, hroot⟩)
      · obtain ⟨y, hy, hxy⟩ := hx.resolve_left hk
        have hy' : y ∈ frontier := (h.rest y hy).resolve_right fun hall => hk (hall x hxy)
        exact .inr ((hfresh x).mpr ⟨List.mem_flatMap.mpr ⟨y, hy', hxy⟩, hroot,
          fun hin => hk ((h.mem x).mp hin).1⟩)
  refine ⟨hmem, hwithin, fun x hx => ?_, List.pairwise_append.mpr ⟨h.sorted, ?_, ?_⟩⟩
  · by_cases hk : Within succ root k x
    · exact .inr fun y hy => hk.step hy
    · have hroot : x ≠ root := fun heq => hk (heq ▸ within_start k)
      rcases List.mem_append.mp ((hmem x).mpr ⟨hx, hroot⟩) with hin | hin
      · exact absurd ((h.mem x).mp hin).1 hk
      · exact .inl hin
  -- a fresh entry lies beyond everything the rounds before have met
  · refine List.pairwise_of_forall_mem_list fun a ha b hb j hj => ?_
    have hlt : k < j := Nat.lt_of_not_le fun hle => hfar b hb (hj.mono hle)
    exact (hwithin a ha).mono hlt
  · intro a ha b hb j hj
    have hlt : k < j := Nat.lt_of_not_le fun hle => hfar b hb (hj.mono hle)
    exact ((h.mem a).mp ha).1.mono hlt.le

theorem Met.closed {k : Nat} {ordered : List α} (h : Met succ root k ordered []) (m : Nat) :
    Met succ root (k + m) ordered [] := by
  have hclosed : ∀ m x, Within succ root (k + m) x → Within succ root k x := by
    intro m
    induction m with
    | zero => exact fun x hx => hx
    | succ m ih =>
      rintro x (hx | ⟨y, hy, hxy⟩)
      · exact ih x hx
      · rcases h.rest y (ih y hy) with hin | hall
        · cases hin
        · exact hall x hxy
  have hiff : ∀ x, Within succ root (k + m) x ↔ Within succ root k x :=
    fun x => ⟨hclosed m x, fun hx => hx.mono (Nat.le_add_right k m)⟩
  refine ⟨fun x => ?_, by simp, fun x hx => ?_, h.sorted⟩
  · rw [hiff, h.mem]
  · refine .inr fun y hy => ?_
    rcases h.rest x ((hiff x).mp hx) with hin | hall
    · cases hin
    · exact (hiff y).mpr (hall y hy)

/-! ### One successor at most -/

section single

variable (single : ∀ x, (succ x).length ≤ 1)

include single

theorem eq_of_mem_succ {x a b : α} (ha : a ∈ succ x) (hb : b ∈ succ x) : a = b := by
  have hlen := single x
  cases hs : succ x with
  | nil =>
    rw [hs] at ha
    cases ha
  | cons d rest =>
    rw [hs, List.length_cons] at hlen
    have hrest : rest = [] := List.length_eq_zero_iff.mp (by omega)
    rw [hs, hrest, List.mem_singleton] at ha hb
    rw [ha, hb]

theorem eq_of_distance {k : Nat} {x y : α} (hx : Within succ root k x)
    (hxk : ∀ j < k, ¬ Within succ root j x) (hy : Within succ root k y)
    (hyk : ∀ j < k, ¬ Within succ root j y) : x = y := by
  induction k generalizing x y with
  | zero => exact hx.trans hy.symm
  | succ k ih =>
    obtain ⟨x', hx', hxx⟩ := hx.resolve_left (hxk k (Nat.lt_succ_self k))
    obtain ⟨y', hy', hyy⟩ := hy.resolve_left (hyk k (Nat.lt_succ_self k))
    have heq : x' = y' := ih hx' (fun j hj h => hxk (j + 1) (by omega) (h.step hxx)) hy'
      (fun j hj h => hyk (j + 1) (by omega) (h.step hyy))
    exact eq_of_mem_succ single hxx (heq ▸ hyy)

theorem eq_of_nearer {k : Nat} {x y : α} (hx : Within succ root k x) (hxy : Nearer succ root x y)
    (hyx : Nearer succ root y x) : x = y := by
  classical
  have hex : ∃ k, Within succ root k x := ⟨k, hx⟩
  have hmin : ∀ j < Nat.find hex, ¬ Within succ root j x := fun j hj => Nat.find_min hex hj
  exact eq_of_distance single (Nat.find_spec hex) hmin (hyx _ (Nat.find_spec hex))
    fun j hj h => hmin j hj (hxy j h)

end single

/-! ### The walk -/

section walk

variable (succ root) [DecidableEq α]

def meet (walk : List α × List α) (x : α) : List α × List α :=
  if x = root ∨ x ∈ walk.1 then walk else (walk.1 ++ [x], walk.2 ++ [x])

def rounds : Nat → List α → List α → List α
  | 0, ordered, _ => ordered
  | fuel + 1, ordered, frontier =>
    let walk := (frontier.flatMap succ).foldl (meet root) (ordered, [])
    if walk.2.isEmpty then walk.1 else rounds fuel walk.1 walk.2

variable {succ root}

theorem foldl_meet (root : α) (l ordered frontier : List α) :
    ∃ fresh, l.foldl (meet root) (ordered, frontier) = (ordered ++ fresh, frontier ++ fresh) ∧
      ∀ x, x ∈ fresh ↔ x ∈ l ∧ x ≠ root ∧ x ∉ ordered := by
  induction l generalizing ordered frontier with
  | nil => exact ⟨[], by simp, by simp⟩
  | cons a l ih =>
    rw [List.foldl_cons, meet]
    by_cases h : a = root ∨ a ∈ ordered
    · obtain ⟨fresh, hwalk, hmem⟩ := ih ordered frontier
      rw [if_pos h]
      refine ⟨fresh, hwalk, fun x => ?_⟩
      rw [hmem, List.mem_cons]
      constructor
      · exact fun ⟨hx, hnew⟩ => ⟨.inr hx, hnew⟩
      · rintro ⟨rfl | hx, hroot, hout⟩
        · exact absurd h (not_or.mpr ⟨hroot, hout⟩)
        · exact ⟨hx, hroot, hout⟩
    · obtain ⟨fresh, hwalk, hmem⟩ := ih (ordered ++ [a]) (frontier ++ [a])
      obtain ⟨hroot, hout⟩ := not_or.mp h
      rw [if_neg h]
      refine ⟨a :: fresh, by simp [hwalk], fun x => ?_⟩
      rw [List.mem_cons, hmem, List.mem_cons]
      by_cases hx : x = a
      · simp [hx, hroot, hout]
      · simp [hx]

theorem Met.rounds (fuel : Nat) {k : Nat} {ordered frontier : List α}
    (h : Met succ root k ordered frontier) :
    ∃ left, Met succ root (k + fuel) (Bfs.rounds succ root fuel ordered frontier) left := by
  induction fuel generalizing k ordered frontier with
  | zero => exact ⟨frontier, h⟩
  | succ fuel ih =>
    obtain ⟨fresh, hwalk, hfresh⟩ := foldl_meet root (frontier.flatMap succ) ordered []
    have hnext := h.round hfresh
    rw [Bfs.rounds, hwalk, List.nil_append]
    have hlevel : k + (fuel + 1) = k + 1 + fuel := by omega
    rw [hlevel]
    dsimp only
    split
    · case isTrue hnone =>
      rw [List.isEmpty_iff] at hnone
      rw [hnone] at hnext ⊢
      exact ⟨[], hnext.closed fuel⟩
    · exact ih hnext

end walk

end Bfs
