import Mathlib.Data.List.Nodup
import Travsr.Lib.BfsRounds

/-! The C3 linearisation of the bases of a class. -/

namespace Linearisation

open Bfs

variable {α β : Type} {ls : List (List α)} {l : List α} {c : α}

theorem mapM_eq_some {f : α → Option β} {as : List α} {bs : List β}
    (h : as.mapM f = some bs) :
    (∀ a ∈ as, ∃ b, f a = some b) ∧ ∀ b, b ∈ bs ↔ ∃ a ∈ as, f a = some b := by
  induction as generalizing bs with
  | nil =>
    rw [List.mapM_nil] at h
    obtain rfl := Option.some.inj h
    simp
  | cons a as ih =>
    rw [List.mapM_cons] at h
    obtain ⟨b, hb, h⟩ := Option.bind_eq_some_iff.mp h
    obtain ⟨bs', hbs, h⟩ := Option.bind_eq_some_iff.mp h
    obtain rfl := Option.some.inj h
    obtain ⟨hall, hmem⟩ := ih hbs
    refine ⟨fun a' ha => ?_, fun b' => ?_⟩
    · rcases List.mem_cons.mp ha with rfl | ha
      · exact ⟨b, hb⟩
      · exact hall a' ha
    · simp [hmem, hb, eq_comm]

theorem mapM_of_imp {f g : α → Option β} {as : List α} {bs : List β}
    (hfg : ∀ a ∈ as, ∀ b, f a = some b → g a = some b) (h : as.mapM f = some bs) :
    as.mapM g = some bs := by
  induction as generalizing bs with
  | nil => exact h
  | cons a as ih =>
    rw [List.mapM_cons] at h ⊢
    obtain ⟨b, hb, h⟩ := Option.bind_eq_some_iff.mp h
    obtain ⟨bs', hbs, h⟩ := Option.bind_eq_some_iff.mp h
    rw [hfg a List.mem_cons_self b hb, Option.bind_eq_bind, Option.bind_some,
      ih (fun a' ha => hfg a' (List.mem_cons_of_mem a ha)) hbs]
    exact h

/-- What a merge holds. -/
structure IsMerge (ls : List (List α)) (l : List α) : Prop where
  mem : ∀ x, x ∈ l ↔ ∃ k ∈ ls, x ∈ k
  nodup : l.Nodup
  keeps : ∀ k ∈ ls, k.Sublist l

theorem isMerge_nil (hdone : ls.all List.isEmpty = true) : IsMerge ls [] := by
  have hnil : ∀ k ∈ ls, k = [] := by simpa using hdone
  refine ⟨fun x => ?_, List.nodup_nil, fun k hk => ?_⟩
  · simp only [List.not_mem_nil, false_iff, not_exists, not_and]
    intro k hk
    simp [hnil k hk]
  · simp [hnil k hk]

section c3

variable [DecidableEq α]

def nextHead (ls : List (List α)) : Option α :=
  (ls.filterMap List.head?).find? fun c => ls.all fun l => c ∉ l.tail

def dropHead (c : α) (l : List α) : List α := if l.head? = some c then l.tail else l

/-- The merge while entries are left; it is stuck when every head stands behind another. -/
def mergeFrom : Nat → List (List α) → Option (List α)
  | 0, ls => if ls.all List.isEmpty then some [] else none
  | n + 1, ls =>
    if ls.all List.isEmpty then some []
    else (nextHead ls).bind fun c => (mergeFrom n (ls.map (dropHead c))).map (c :: ·)

def merge (ls : List (List α)) : Option (List α) := mergeFrom ls.flatten.length ls

variable (bases : α → List α)

/-- The linearisation of a class with at most so many generations of bases: the class, then its
bases' linearisations merged with the bases themselves. -/
def linearise : Nat → α → Option (List α)
  | 0, c => if (bases c).isEmpty then some [c] else none
  | depth + 1, c =>
    ((bases c).mapM (linearise depth)).bind fun ls => (merge (ls ++ [bases c])).map (c :: ·)

variable {bases}

theorem nextHead_eq_some (h : nextHead ls = some c) :
    (∃ k ∈ ls, k.head? = some c) ∧ ∀ k ∈ ls, c ∉ k.tail := by
  have htail := List.find?_some h
  have hhead := List.mem_filterMap.mp (List.mem_of_find?_eq_some h)
  simp only [List.all_eq_true, decide_eq_true_eq] at htail
  exact ⟨hhead, htail⟩

theorem mem_dropHead {x : α} {k : List α} (htail : c ∉ k.tail) :
    x ∈ dropHead c k ↔ x ∈ k ∧ x ≠ c := by
  rw [dropHead]
  cases k with
  | nil => simp
  | cons a k =>
    rw [List.tail_cons] at htail
    by_cases ha : a = c
    · simp only [List.head?_cons, ha, if_true, List.tail_cons, List.mem_cons]
      constructor
      · exact fun hx => ⟨.inr hx, fun heq => htail (heq ▸ hx)⟩
      · exact fun ⟨hx, hne⟩ => hx.resolve_left hne
    · simp only [List.head?_cons, Option.some.injEq, ha, if_false, List.mem_cons]
      constructor
      · rintro (rfl | hx)
        · exact ⟨.inl rfl, ha⟩
        · exact ⟨.inr hx, fun heq => htail (heq ▸ hx)⟩
      · exact fun ⟨hx, _⟩ => hx

theorem isMerge_cons {rest : List α} (hhead : ∃ k ∈ ls, k.head? = some c)
    (htail : ∀ k ∈ ls, c ∉ k.tail) (h : IsMerge (ls.map (dropHead c)) rest) :
    IsMerge ls (c :: rest) := by
  have hmem : ∀ x, x ∈ rest ↔ (∃ k ∈ ls, x ∈ k) ∧ x ≠ c := by
    intro x
    rw [h.mem]
    constructor
    · rintro ⟨_, hk', hx⟩
      obtain ⟨k, hk, rfl⟩ := List.mem_map.mp hk'
      obtain ⟨hx, hne⟩ := (mem_dropHead (htail k hk)).mp hx
      exact ⟨⟨k, hk, hx⟩, hne⟩
    · rintro ⟨⟨k, hk, hx⟩, hne⟩
      exact ⟨_, List.mem_map_of_mem hk, (mem_dropHead (htail k hk)).mpr ⟨hx, hne⟩⟩
  obtain ⟨k₀, hk₀, hhead⟩ := hhead
  have hc : c ∈ k₀ := List.mem_of_mem_head? hhead
  refine ⟨fun x => ?_, List.nodup_cons.mpr ⟨fun hin => ((hmem c).mp hin).2 rfl, h.nodup⟩, ?_⟩
  · rw [List.mem_cons, hmem]
    constructor
    · rintro (rfl | ⟨hx, -⟩)
      · exact ⟨k₀, hk₀, hc⟩
      · exact hx
    · intro hx
      by_cases heq : x = c
      · exact .inl heq
      · exact .inr ⟨hx, heq⟩
  · intro k hk
    have hsub := h.keeps _ (List.mem_map_of_mem hk)
    rw [dropHead] at hsub
    split at hsub
    · case isTrue heq =>
      rw [← List.cons_head?_tail heq]
      exact hsub.cons_cons c
    · exact hsub.cons c

theorem isMerge_mergeFrom {n : Nat} (h : mergeFrom n ls = some l) : IsMerge ls l := by
  induction n generalizing ls l with
  | zero =>
    rw [mergeFrom] at h
    split at h
    · case isTrue hdone =>
      rw [← Option.some.inj h]
      exact isMerge_nil hdone
    · cases h
  | succ n ih =>
    rw [mergeFrom] at h
    split at h
    · case isTrue hdone =>
      rw [← Option.some.inj h]
      exact isMerge_nil hdone
    · obtain ⟨c, hc, h⟩ := Option.bind_eq_some_iff.mp h
      obtain ⟨rest, hrest, rfl⟩ := Option.map_eq_some_iff.mp h
      obtain ⟨hhead, htail⟩ := nextHead_eq_some hc
      exact isMerge_cons hhead htail (ih hrest)

/-! ### Linearisations -/

/-- What a linearisation goes on with. -/
structure IsRest (bases : α → List α) (depth : Nat) (c : α) (rest : List α) : Prop where
  base : ∀ b ∈ bases c, ∃ k, linearise bases depth b = some k
  mem : ∀ x, x ∈ rest ↔ ∃ b ∈ bases c, x = b ∨ ∃ k, linearise bases depth b = some k ∧ x ∈ k
  nodup : rest.Nodup
  keeps : ∀ b ∈ bases c, ∀ k, linearise bases depth b = some k → k.Sublist rest

theorem linearise_succ {depth : Nat} (h : linearise bases (depth + 1) c = some l) :
    ∃ rest, IsRest bases depth c rest ∧ l = c :: rest := by
  rw [linearise] at h
  obtain ⟨ls, hls, h⟩ := Option.bind_eq_some_iff.mp h
  obtain ⟨rest, hrest, rfl⟩ := Option.map_eq_some_iff.mp h
  have hmerge := isMerge_mergeFrom hrest
  obtain ⟨hall, hmem⟩ := mapM_eq_some hls
  refine ⟨rest, ⟨hall, fun x => ?_, hmerge.nodup, fun b hb k hk => ?_⟩, rfl⟩
  · rw [hmerge.mem]
    constructor
    · rintro ⟨k, hk, hx⟩
      rcases List.mem_append.mp hk with hk | hk
      · obtain ⟨b, hb, hlin⟩ := (hmem k).mp hk
        exact ⟨b, hb, .inr ⟨k, hlin, hx⟩⟩
      · rw [List.mem_singleton.mp hk] at hx
        exact ⟨x, hx, .inl rfl⟩
    · rintro ⟨b, hb, rfl | ⟨k, hlin, hx⟩⟩
      · exact ⟨bases c, by simp, hb⟩
      · exact ⟨k, List.mem_append_left _ ((hmem k).mpr ⟨b, hb, hlin⟩), hx⟩
  · exact hmerge.keeps k (List.mem_append_left _ ((hmem k).mpr ⟨b, hb, hk⟩))

theorem mem_linearise {depth : Nat} (h : linearise bases depth c = some l) (x : α) :
    x ∈ l ↔ Within bases c depth x := by
  induction depth generalizing c l with
  | zero =>
    rw [linearise] at h
    split at h
    · rw [← Option.some.inj h, List.mem_singleton]
      rfl
    · cases h
  | succ depth ih =>
    obtain ⟨rest, hrest, rfl⟩ := linearise_succ h
    rw [List.mem_cons, hrest.mem, within_succ_iff]
    apply or_congr Iff.rfl
    constructor
    · rintro ⟨b, hb, rfl | ⟨k, hlin, hx⟩⟩
      · exact ⟨x, hb, within_start _⟩
      · exact ⟨b, hb, (ih hlin).mp hx⟩
    · intro ⟨b, hb, hx⟩
      obtain ⟨k, hlin⟩ := hrest.base b hb
      exact ⟨b, hb, .inr ⟨k, hlin, (ih hlin).mpr hx⟩⟩

theorem linearise_mono {depth : Nat} (h : linearise bases depth c = some l) :
    linearise bases (depth + 1) c = some l := by
  induction depth generalizing c l with
  | zero =>
    rw [linearise] at h
    split at h
    · case isTrue hnone =>
      rw [linearise, List.isEmpty_iff.mp hnone, ← h]
      rfl
    · cases h
  | succ depth ih =>
    rw [linearise] at h
    obtain ⟨ls, hls, h⟩ := Option.bind_eq_some_iff.mp h
    have hnext : (bases c).mapM (linearise bases (depth + 1)) = some ls :=
      mapM_of_imp (fun _ _ _ hb => ih hb) hls
    rw [linearise, hnext]
    exact h

theorem linearise_within {depth k : Nat} {x : α} (h : ∃ l, linearise bases depth c = some l)
    (hx : Within bases c k x) : ∃ l, linearise bases depth x = some l := by
  induction k generalizing c depth with
  | zero => exact hx ▸ h
  | succ k ih =>
    rcases within_succ_iff.mp hx with rfl | ⟨b, hb, hx⟩
    · exact h
    · obtain ⟨l, h⟩ := h
      cases depth with
      | zero => simp [linearise, List.ne_nil_of_mem hb] at h
      | succ depth =>
        obtain ⟨rest, hrest, -⟩ := linearise_succ h
        obtain ⟨l', hl'⟩ := ih (hrest.base b hb) hx
        exact ⟨l', linearise_mono hl'⟩

theorem not_within_base {depth k : Nat} {b : α} (h : linearise bases depth c = some l)
    (hb : b ∈ bases c) : ¬ Within bases b k c := by
  intro hcycle
  induction depth generalizing l with
  | zero => simp [linearise, List.ne_nil_of_mem hb] at h
  | succ depth ih =>
    obtain ⟨rest, hrest, -⟩ := linearise_succ h
    obtain ⟨l', hl'⟩ := linearise_within (hrest.base b hb) hcycle
    exact ih hl'

/-! ### Single inheritance -/

theorem sorted_linearise (single : ∀ c, (bases c).length ≤ 1) {depth : Nat}
    (h : linearise bases depth c = some l) : l.Pairwise (Nearer bases c) := by
  induction depth generalizing c l with
  | zero =>
    rw [linearise] at h
    split at h
    · rw [← Option.some.inj h]
      exact List.pairwise_singleton _ _
    · cases h
  | succ depth ih =>
    have hacyclic : ∀ b ∈ bases c, ∀ k, ¬ Within bases b k c :=
      fun b hb k => not_within_base h hb
    obtain ⟨rest, hrest, rfl⟩ := linearise_succ h
    refine List.pairwise_cons.mpr ⟨fun x _ j _ => within_start j, ?_⟩
    cases hbases : bases c with
    | nil =>
      have hnil : rest = [] := by
        apply List.eq_nil_iff_forall_not_mem.mpr
        intro x hx
        simp [hrest.mem, hbases] at hx
      rw [hnil]
      exact List.Pairwise.nil
    | cons b others =>
      have hb : b ∈ bases c := by simp [hbases]
      obtain ⟨k, hk⟩ := hrest.base b hb
      -- the base's own linearisation is all there is to merge
      have hsub : rest ⊆ k := by
        intro x hx
        obtain ⟨b', hb', hx⟩ := (hrest.mem x).mp hx
        rw [eq_of_mem_succ single hb' hb] at hx
        rcases hx with rfl | ⟨k', hk', hx⟩
        · exact (mem_linearise hk x).mpr (within_start _)
        · rw [hk] at hk'
          rwa [Option.some.inj hk']
      have heq : k = rest := (hrest.keeps b hb k hk).eq_of_length_le
        (List.subperm_of_subset hrest.nodup hsub).length_le
      rw [← heq]
      refine (ih hk).imp_of_mem fun {x y} hx hy hnear j hj => ?_
      have hyc : y ≠ c := by
        rintro rfl
        exact hacyclic b hb depth ((mem_linearise hk y).mp hy)
      cases j with
      | zero => exact absurd hj hyc
      | succ j =>
        obtain ⟨b', hb', hj⟩ := (within_succ_iff.mp hj).resolve_left hyc
        rw [eq_of_mem_succ single hb' hb] at hj
        exact within_succ_iff.mpr (.inr ⟨b, hb, hnear j hj⟩)

end c3

end Linearisation
