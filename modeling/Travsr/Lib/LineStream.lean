import Mathlib.Data.List.Forall2
import Mathlib.Data.List.Induction

/-! Ended lines cut from a stream, whatever chunks it arrives in. -/

namespace LineStream

variable {α β : Type} {nl : α} {s t r l : List α} {ls : List (List α)}

def join (nl : α) (ls : List (List α)) (r : List α) : List α := ls.flatMap (· ++ [nl]) ++ r

@[simp] theorem join_nil (r : List α) : join nl [] r = r := by simp [join]

theorem join_open (ls : List (List α)) (r : List α) : join nl ls [] ++ r = join nl ls r := by
  simp [join]

@[simp] theorem join_cons (l : List α) (ls : List (List α)) (r : List α) :
    join nl (l :: ls) r = l ++ nl :: join nl ls r := by simp [join]

theorem join_append (ls ks : List (List α)) (r : List α) :
    join nl (ls ++ ks) r = join nl ls (join nl ks r) := by simp [join]

section Cut

variable [DecidableEq α]

def cut (nl : α) : List α → List (List α) × List α
  | [] => ([], [])
  | a :: s =>
    if a = nl then ([] :: (cut nl s).1, (cut nl s).2)
    else ((cut nl s).1.modifyHead (a :: ·), if (cut nl s).1 = [] then a :: (cut nl s).2 else (cut nl s).2)

@[simp] theorem cut_nil : cut nl [] = ([], []) := by simp [cut]

@[simp] theorem cut_terminator (s : List α) : cut nl (nl :: s) = ([] :: (cut nl s).1, (cut nl s).2) := by
  simp [cut]

theorem cut_open (h : nl ∉ r) : cut nl r = ([], r) := by
  induction r with
  | nil => simp
  | cons a r ih =>
    obtain ⟨ha, hr⟩ := List.mem_cons.not.mp h |> not_or.mp
    simp [cut, Ne.symm ha, ih hr]

theorem cut_line (h : nl ∉ l) (s : List α) :
    cut nl (l ++ nl :: s) = (l :: (cut nl s).1, (cut nl s).2) := by
  induction l with
  | nil => simp
  | cons a l ih =>
    obtain ⟨ha, hl⟩ := List.mem_cons.not.mp h |> not_or.mp
    simp [cut, Ne.symm ha, ih hl]

theorem cut_join (hls : ∀ l ∈ ls, nl ∉ l) (hr : nl ∉ r) : cut nl (join nl ls r) = (ls, r) := by
  induction ls with
  | nil => simpa using cut_open hr
  | cons l ls ih =>
    rw [join_cons, cut_line (hls l List.mem_cons_self), ih]
    intro k hk
    exact hls k (List.mem_cons_of_mem l hk)

theorem exists_join (nl : α) (s : List α) :
    ∃ ls r, s = join nl ls r ∧ (∀ l ∈ ls, nl ∉ l) ∧ nl ∉ r := by
  induction s with
  | nil => exact ⟨[], [], by simp⟩
  | cons a s ih =>
    obtain ⟨ls, r, rfl, hls, hr⟩ := ih
    by_cases ha : a = nl
    · refine ⟨[] :: ls, r, by simp [ha], ?_, hr⟩
      simpa using hls
    · cases ls with
      | nil => exact ⟨[], a :: r, by simp, by simp, by simp [Ne.symm ha, hr]⟩
      | cons l ls =>
        refine ⟨(a :: l) :: ls, r, by simp, ?_, hr⟩
        intro k hk
        rcases List.mem_cons.mp hk with rfl | hk
        · simp [Ne.symm ha, hls l List.mem_cons_self]
        · exact hls k (List.mem_cons_of_mem l hk)

theorem join_cut (nl : α) (s : List α) : join nl (cut nl s).1 (cut nl s).2 = s := by
  obtain ⟨ls, r, rfl, hls, hr⟩ := exists_join nl s
  rw [cut_join hls hr]

theorem not_mem_line (h : l ∈ (cut nl s).1) : nl ∉ l := by
  obtain ⟨ls, r, rfl, hls, hr⟩ := exists_join nl s
  rw [cut_join hls hr] at h
  exact hls l h

theorem not_mem_open (nl : α) (s : List α) : nl ∉ (cut nl s).2 := by
  obtain ⟨ls, r, rfl, hls, hr⟩ := exists_join nl s
  rw [cut_join hls hr]
  exact hr

theorem cut_append (s t : List α) :
    cut nl (s ++ t) = ((cut nl s).1 ++ (cut nl ((cut nl s).2 ++ t)).1,
      (cut nl ((cut nl s).2 ++ t)).2) := by
  have hs : s ++ t = join nl ((cut nl s).1 ++ (cut nl ((cut nl s).2 ++ t)).1)
      (cut nl ((cut nl s).2 ++ t)).2 := by
    rw [join_append, join_cut]
    conv_lhs => rw [← join_cut nl s]
    simp [join]
  rw [hs, cut_join]
  · intro l hl
    rcases List.mem_append.mp hl with hl | hl
    · exact not_mem_line hl
    · exact not_mem_line hl
  · exact not_mem_open nl _

theorem cut_open_append (h : nl ∉ r) (s : List α) :
    cut nl (r ++ s) = ((cut nl s).1.modifyHead (r ++ ·),
      if (cut nl s).1 = [] then r ++ (cut nl s).2 else (cut nl s).2) := by
  obtain ⟨ls, k, rfl, hls, hk⟩ := exists_join nl s
  rw [cut_join hls hk]
  cases ls with
  | nil =>
    have hopen : nl ∉ r ++ k := by simp [h, hk]
    simp [cut_open hopen]
  | cons l ls =>
    have hline : nl ∉ r ++ l := by simp [h, hls l List.mem_cons_self]
    have hrest : cut nl (join nl ls k) = (ls, k) :=
      cut_join (fun m hm => hls m (List.mem_cons_of_mem l hm)) hk
    have := cut_line hline (join nl ls k)
    simpa [hrest] using this

def entries (nl : α) (s : List α) : List (List α) :=
  (cut nl s).1 ++ if (cut nl s).2 = [] then [] else [(cut nl s).2]

theorem not_mem_entry (h : l ∈ entries nl s) : nl ∉ l := by
  rcases List.mem_append.mp h with h | h
  · exact not_mem_line h
  · split_ifs at h
    · simp at h
    · simpa [List.mem_singleton.mp h] using not_mem_open nl s

def lastOf {γ : Type} (n : Nat) (l : List γ) : List γ := l.drop (l.length - n)

@[simp] theorem lastOf_zero {γ : Type} (l : List γ) : lastOf 0 l = [] := by simp [lastOf]

@[simp] theorem length_lastOf {γ : Type} (n : Nat) (l : List γ) :
    (lastOf n l).length = min n l.length := by
  simp only [lastOf, List.length_drop]
  omega

theorem lastOf_append {γ : Type} (n : Nat) (l k : List γ) :
    lastOf n (l ++ k) = lastOf (n - (lastOf n k).length) l ++ lastOf n k := by
  simp only [lastOf, List.length_append, List.drop_append, List.length_drop]
  by_cases h : n ≤ k.length
  · have h1 : l.length ≤ l.length + k.length - n := by omega
    have h2 : l.length ≤ l.length - (n - (k.length - (k.length - n))) := by omega
    rw [List.drop_eq_nil_of_le h1, List.drop_eq_nil_of_le h2]
    congr 2
    omega
  · have h1 : l.length + k.length - n - l.length = k.length - n := by omega
    have h2 : l.length + k.length - n = l.length - (n - (k.length - (k.length - n))) := by omega
    rw [h1, h2]

/-! ### Readings that keep terminators -/

end Cut

/-- A reading of texts that splits where a terminator is, and makes no other. -/
structure Reading (f : List α → List β) (nl : α) (nl' : β) : Prop where
  split : ∀ s t, f (s ++ nl :: t) = f s ++ nl' :: f t
  clean : ∀ s, nl ∉ s → nl' ∉ f s

variable {f : List α → List β} {nl' : β}

theorem Reading.join (hf : Reading f nl nl') (ls : List (List α)) (r : List α) :
    f (join nl ls r) = LineStream.join nl' (ls.map f) (f r) := by
  induction ls with
  | nil => simp
  | cons l ls ih => simp [hf.split, ih]

/-- The text is what is read of the source, piece by piece. -/
def InPieces (f : List α → List β) (s : List α) (u : List β) : Prop :=
  ∃ ps : List (List α), ps.flatten = s ∧ ps.flatMap f = u

theorem InPieces.nil : InPieces f [] [] := ⟨[], by simp⟩

theorem InPieces.whole (f : List α → List β) (s : List α) : InPieces f s (f s) := ⟨[s], by simp⟩

theorem InPieces.append {u v : List β} (hs : InPieces f s u) (ht : InPieces f t v) :
    InPieces f (s ++ t) (u ++ v) := by
  obtain ⟨ps, rfl, rfl⟩ := hs
  obtain ⟨qs, rfl, rfl⟩ := ht
  exact ⟨ps ++ qs, by simp⟩

variable [DecidableEq α] [DecidableEq β]

theorem Reading.cut (hf : Reading f nl nl') (s : List α) :
    cut nl' (f s) = ((LineStream.cut nl s).1.map f, f (LineStream.cut nl s).2) := by
  conv_lhs => rw [← join_cut nl s, hf.join]
  apply cut_join
  · intro l hl
    obtain ⟨k, hk, rfl⟩ := List.mem_map.mp hl
    exact hf.clean k (not_mem_line hk)
  · exact hf.clean _ (not_mem_open nl s)

theorem InPieces.cut {u : List β} (hf : Reading f nl nl') (h : InPieces f s u) :
    List.Forall₂ (InPieces f) (LineStream.cut nl s).1 (LineStream.cut nl' u).1 ∧
      InPieces f (LineStream.cut nl s).2 (LineStream.cut nl' u).2 := by
  obtain ⟨ps, rfl, rfl⟩ := h
  induction ps using List.reverseRecOn with
  | nil => exact ⟨by simp, by simpa using InPieces.nil⟩
  | append_singleton ps p ih =>
    obtain ⟨hlines, hopen⟩ := ih
    rw [List.flatten_append, List.flatMap_append, cut_append ps.flatten, cut_append (ps.flatMap f)]
    simp only [List.flatten_singleton, List.flatMap_singleton]
    rw [cut_open_append (not_mem_open nl _), cut_open_append (not_mem_open nl' _), hf.cut p]
    cases hp : (LineStream.cut nl p).1 with
    | nil => simpa using ⟨hlines, hopen.append (InPieces.whole f _)⟩
    | cons l ls =>
      have hrest : List.Forall₂ (InPieces f) ls (ls.map f) := by
        rw [List.forall₂_map_right_iff, List.forall₂_same]
        intro k _
        exact InPieces.whole f k
      have hnew : List.Forall₂ (InPieces f) (((LineStream.cut nl ps.flatten).2 ++ l) :: ls)
          (((LineStream.cut nl' (ps.flatMap f)).2 ++ f l) :: ls.map f) :=
        .cons (hopen.append (InPieces.whole f l)) hrest
      simpa using ⟨List.rel_append hlines hnew, InPieces.whole f _⟩

end LineStream
