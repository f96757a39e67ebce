import Mathlib.Data.List.Destutter
import Mathlib.Data.List.Perm.Subperm
import Mathlib.Data.List.Sort
import Mathlib.Order.Lattice
import Travsr.Lib.Table

/-! A list sorted by a key and then freed of neighbours that repeat one. -/

namespace SortDedup

variable {α κ : Type} [LinearOrder κ] (key : α → κ)

def sortBy (l : List α) : List α := l.insertionSort fun a b => key a ≤ key b

def dedupBy (l : List α) : List α := l.destutter fun a b => key a ≠ key b

variable {key} {l : List α} {k : κ}

theorem mem_sortBy {a : α} : a ∈ sortBy key l ↔ a ∈ l := List.mem_insertionSort _

theorem sorted_sortBy (l : List α) : (sortBy key l).Pairwise fun a b => key a ≤ key b := by
  have : Std.Total (fun a b : α => key a ≤ key b) := ⟨fun a b => le_total (key a) (key b)⟩
  have : IsTrans α (fun a b : α => key a ≤ key b) := ⟨fun _ _ _ => le_trans⟩
  exact List.pairwise_insertionSort _ _

theorem perm_sortBy (l : List α) : (sortBy key l).Perm l := List.perm_insertionSort _ _

theorem eq_sortBy {l' : List α} (hn : (l.map key).Nodup) (hs : l'.Pairwise fun a b => key a ≤ key b)
    (hp : l'.Perm l) : l' = sortBy key l := by
  apply List.Perm.eq_of_pairwise _ hs (sorted_sortBy l) (hp.trans (perm_sortBy l).symm)
  intro a b ha hb hab hba
  exact List.inj_on_of_nodup_map hn (hp.subset ha) (mem_sortBy.mp hb) (le_antisymm hab hba)

theorem sortBy_filter (hn : (l.map key).Nodup) (p : α → Bool) :
    sortBy key (l.filter p) = (sortBy key l).filter p := by
  symm
  apply eq_sortBy
  · exact hn.sublist (List.filter_sublist.map key)
  · exact (sorted_sortBy l).sublist List.filter_sublist
  · exact (perm_sortBy l).filter p

theorem find?_orderedInsert (a : α) (l : List α) (k : κ) :
    (l.orderedInsert (fun a b => key a ≤ key b) a).find? (fun x => key x = k) =
      (a :: l).find? fun x => key x = k := by
  induction l with
  | nil => rfl
  | cons b l ih =>
    by_cases hab : key a ≤ key b
    · rw [List.orderedInsert_cons_of_le _ l hab]
    · rw [List.orderedInsert_of_not_le _ l hab]
      by_cases hb : key b = k
      · have ha : ¬ key a = k := fun ha => hab (ha.trans hb.symm).le
        simp [hb, ha]
      · rw [List.find?_cons_of_neg (by simpa using hb), ih]
        by_cases ha : key a = k
        · simp [ha]
        · simp [ha, hb]

theorem find?_sortBy (l : List α) (k : κ) :
    (sortBy key l).find? (fun x => key x = k) = l.find? fun x => key x = k := by
  induction l with
  | nil => rfl
  | cons a l ih =>
    rw [sortBy, List.insertionSort_cons, find?_orderedInsert]
    rw [sortBy] at ih
    by_cases ha : key a = k
    · simp [ha]
    · simp [ha, ih]

theorem find?_destutter' (a : α) (l : List α) (k : κ) :
    (l.destutter' (fun a b => key a ≠ key b) a).find? (fun x => key x = k) =
      (a :: l).find? fun x => key x = k := by
  induction l generalizing a with
  | nil => rfl
  | cons b l ih =>
    by_cases hab : key a = key b
    · rw [List.destutter'_cons_neg _ (not_not.mpr hab), ih]
      by_cases ha : key a = k
      · simp [ha]
      · have hb : ¬ key b = k := hab ▸ ha
        simp [ha, hb]
    · rw [List.destutter'_cons_pos _ hab]
      by_cases ha : key a = k
      · simp [ha]
      · rw [List.find?_cons_of_neg (by simpa using ha), List.find?_cons_of_neg (by simpa using ha), ih]

theorem find?_dedupBy (l : List α) (k : κ) :
    (dedupBy key l).find? (fun x => key x = k) = l.find? fun x => key x = k := by
  cases l with
  | nil => rfl
  | cons a l => exact find?_destutter' a l k

theorem nodup_dedupBy_sortBy (l : List α) : ((dedupBy key (sortBy key l)).map key).Nodup := by
  have hmap : (dedupBy key (sortBy key l)).map key =
      ((sortBy key l).map key).destutter fun a b => a ≠ b :=
    List.map_destutter fun a _ b _ => Iff.rfl
  have hsorted : ((sortBy key l).map key).Pairwise fun a b => a ≤ b :=
    List.pairwise_map.mpr (sorted_sortBy l)
  rw [hmap, hsorted.destutter_eq_dedup]
  exact List.nodup_dedup _

theorem mem_dedupBy_sortBy {a : α} :
    a ∈ dedupBy key (sortBy key l) ↔ l.find? (fun x => key x = key a) = some a := by
  rw [← find?_sortBy, ← find?_dedupBy]
  constructor
  · intro ha
    exact Relational.Table.find?_of_mem (t := ⟨_, nodup_dedupBy_sortBy l⟩) ha
  · exact List.mem_of_find?_eq_some

theorem eq_of_mem_iff [LinearOrder α] {l l' : List α} (hl : l.Pairwise (· ≤ ·))
    (hl' : l'.Pairwise (· ≤ ·)) (hn : l.Nodup) (hn' : l'.Nodup) (h : ∀ a, a ∈ l ↔ a ∈ l') :
    l = l' :=
  ((List.perm_ext_iff_of_nodup hn hn').mpr h).eq_of_pairwise' hl hl'

theorem nodup_sortBy (h : l.Nodup) : (sortBy key l).Nodup :=
  (List.perm_insertionSort _ l).nodup_iff.mpr h

theorem mem_destutter_ne [DecidableEq α] {a : α} {l : List α} :
    a ∈ l.destutter (· ≠ ·) ↔ a ∈ l := by
  constructor
  · exact fun h => (List.destutter_sublist _ _).subset h
  · intro h
    have hgen : ∀ (l : List α) (b : α), a ∈ b :: l → a ∈ l.destutter' (· ≠ ·) b := by
      intro l
      induction l with
      | nil => exact fun b h => h
      | cons c l ih =>
        intro b h
        by_cases hbc : b = c
        · subst hbc
          rw [List.destutter'_cons_neg _ (not_not.mpr rfl)]
          rcases List.mem_cons.mp h with rfl | h
          · exact ih _ List.mem_cons_self
          · exact ih _ h
        · rw [List.destutter'_cons_pos _ hbc]
          rcases List.mem_cons.mp h with rfl | h
          · exact List.mem_cons_self
          · exact List.mem_cons_of_mem _ (ih _ h)
    cases l with
    | nil => exact h
    | cons b l => exact hgen l b h

theorem dedupBy_sortBy_congr [LinearOrder α] {l l' : List α} (h : ∀ a, a ∈ l ↔ a ∈ l') :
    dedupBy id (sortBy id l) = dedupBy id (sortBy id l') := by
  have hsorted : ∀ l : List α, (dedupBy id (sortBy id l)).Pairwise (· ≤ ·) := fun l =>
    (sorted_sortBy l).sublist (List.destutter_sublist _ _)
  have hnodup : ∀ l : List α, (dedupBy id (sortBy id l)).Nodup := fun l => by
    have hn : ((dedupBy id (sortBy id l)).map id).Nodup := nodup_dedupBy_sortBy l
    rwa [List.map_id] at hn
  have hmem : ∀ (l : List α) a, a ∈ dedupBy id (sortBy id l) ↔ a ∈ l := fun l a =>
    mem_destutter_ne.trans mem_sortBy
  refine eq_of_mem_iff (hsorted l) (hsorted l') (hnodup l) (hnodup l') fun a => ?_
  rw [hmem, hmem, h]

end SortDedup

/-! The first entries of a list that is sorted by a preorder. -/

namespace SortedCut

variable {α : Type} {R : α → α → Prop} {l : List α} {k : Nat}

/-- No more than so many have the property. -/
def AtMost (k : Nat) (P : α → Prop) : Prop := ∀ l : List α, l.Nodup → (∀ x ∈ l, P x) → l.length ≤ k

/-- So many have the property. -/
def AtLeast (k : Nat) (P : α → Prop) : Prop := ∃ l : List α, l.Nodup ∧ (∀ x ∈ l, P x) ∧ k ≤ l.length

theorem mem_take_append {x : α} {pre post : List α} (hx : x ∉ pre) :
    x ∈ (pre ++ x :: post).take k ↔ pre.length < k := by
  rw [List.take_append, List.mem_append]
  constructor
  · rintro (h | h)
    · exact absurd (List.mem_of_mem_take h) hx
    · by_contra hk
      rw [Nat.sub_eq_zero_of_le (Nat.not_lt.mp hk), List.take_zero] at h
      cases h
  · intro hk
    obtain ⟨n, hn⟩ := Nat.exists_eq_succ_of_ne_zero (Nat.sub_ne_zero_of_lt hk)
    right
    rw [hn, List.take_succ_cons]
    exact List.mem_cons_self

theorem related_of_cut (hs : l.Pairwise R) {x y : α} (hx : x ∈ l) (hx' : x ∉ l.take k)
    (hy : y ∈ l.take k) : R y x := by
  rw [← List.take_append_drop k l] at hs hx
  have hdrop := (List.mem_append.mp hx).resolve_left hx'
  exact (List.pairwise_append.mp hs).2.2 y hy x hdrop

section sorted

variable (hs : l.Pairwise R) (hn : l.Nodup) (hrefl : ∀ x ∈ l, R x x)

include hs hn hrefl

theorem mem_take_of_atMost {x : α} (hx : x ∈ l) (h : AtMost k fun y => y ∈ l ∧ R y x) :
    x ∈ l.take k := by
  obtain ⟨pre, post, rfl⟩ := List.append_of_mem hx
  have hxpre : x ∉ pre := fun hp => (List.nodup_append.mp hn).2.2 x hp x List.mem_cons_self rfl
  have hlen := h (pre ++ [x]) (hn.sublist (by simp)) fun y hy => by
    rcases List.mem_append.mp hy with hy | hy
    · exact ⟨List.mem_append_left _ hy, (List.pairwise_append.mp hs).2.2 y hy x List.mem_cons_self⟩
    · rw [List.mem_singleton.mp hy]
      exact ⟨hx, hrefl x hx⟩
  rw [List.length_append, List.length_singleton] at hlen
  exact (mem_take_append hxpre).mpr hlen

theorem not_mem_take_of_atLeast {x : α} (hx : x ∈ l) (h : AtLeast k fun y => y ∈ l ∧ ¬ R x y) :
    x ∉ l.take k := by
  obtain ⟨pre, post, rfl⟩ := List.append_of_mem hx
  have hdisj := (List.nodup_append.mp hn).2.2
  have hxpre : x ∉ pre := fun hp => hdisj x hp x List.mem_cons_self rfl
  obtain ⟨m, hm, hbefore, hlen⟩ := h
  have hsub : m ⊆ pre := by
    intro y hy
    obtain ⟨hyl, hxy⟩ := hbefore y hy
    rcases List.mem_append.mp hyl with hy | hy
    · exact hy
    · rcases List.mem_cons.mp hy with rfl | hy
      · exact absurd (hrefl y hx) hxy
      · exact absurd ((List.pairwise_cons.mp (List.pairwise_append.mp hs).2.1).1 y hy) hxy
  have hle := (List.subperm_of_subset hm hsub).length_le
  rw [mem_take_append hxpre]
  omega

variable (hanti : ∀ x ∈ l, ∀ y ∈ l, R x y → R y x → x = y)

include hanti

theorem atMost_of_mem_take {x : α} (hx : x ∈ l.take k) : AtMost k fun y => y ∈ l ∧ R y x := by
  have hxl := List.mem_of_mem_take hx
  obtain ⟨pre, post, rfl⟩ := List.append_of_mem hxl
  have hdisj := (List.nodup_append.mp hn).2.2
  have hxpre : x ∉ pre := fun hp => hdisj x hp x List.mem_cons_self rfl
  rw [mem_take_append hxpre] at hx
  intro m hm hno
  have hsub : m ⊆ pre ++ [x] := by
    intro y hy
    obtain ⟨hyl, hyx⟩ := hno y hy
    rcases List.mem_append.mp hyl with hy | hy
    · exact List.mem_append_left _ hy
    · rcases List.mem_cons.mp hy with rfl | hy
      · simp
      · have hxy := (List.pairwise_cons.mp (List.pairwise_append.mp hs).2.1).1 y hy
        rw [hanti x hxl y hyl hxy hyx]
        simp
  have hle := (List.subperm_of_subset hm hsub).length_le
  rw [List.length_append, List.length_singleton] at hle
  omega

theorem atLeast_of_not_mem_take {x : α} (hx : x ∈ l) (hx' : x ∉ l.take k) :
    AtLeast k fun y => y ∈ l ∧ ¬ R x y := by
  obtain ⟨pre, post, rfl⟩ := List.append_of_mem hx
  have hdisj := (List.nodup_append.mp hn).2.2
  have hxpre : x ∉ pre := fun hp => hdisj x hp x List.mem_cons_self rfl
  rw [mem_take_append hxpre, Nat.not_lt] at hx'
  refine ⟨pre, (List.nodup_append.mp hn).1, fun y hy => ⟨List.mem_append_left _ hy, fun hxy => ?_⟩,
    hx'⟩
  have hyx := (List.pairwise_append.mp hs).2.2 y hy x List.mem_cons_self
  exact hxpre (hanti y (List.mem_append_left _ hy) x hx hyx hxy ▸ hy)

end sorted

end SortedCut
