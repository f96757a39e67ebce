import Mathlib.Data.List.Basic
import Mathlib.Order.Lattice

/-- A map that is walked in the order of its keys. -/
structure OrdMap (κ α : Type) [LinearOrder κ] where
  entries : List (κ × α)
  sorted : entries.Pairwise fun e e' => e.1 < e'.1

namespace OrdMap

variable {κ α σ : Type}

/-- `retain` with a closure that carries state from entry to entry. -/
def retainList (f : σ → κ × α → Bool × σ) : σ → List (κ × α) → List (κ × α)
  | _, [] => []
  | s, e :: es =>
    if (f s e).1 then e :: retainList f (f s e).2 es else retainList f (f s e).2 es

theorem retainList_sublist (f : σ → κ × α → Bool × σ) (s : σ) (es : List (κ × α)) :
    (retainList f s es).Sublist es := by
  induction es generalizing s with
  | nil => exact List.Sublist.refl []
  | cons e es ih =>
    rw [retainList]
    split_ifs
    · exact (ih _).cons_cons e
    · exact (ih _).cons e

/-- The closure that takes what `p` admits until `limit` entries are taken. -/
def upTo (limit : Nat) (p : κ × α → Bool) (kept : Nat) (e : κ × α) : Bool × Nat :=
  let take := p e && decide (kept < limit)
  (take, if take then kept + 1 else kept)

theorem retainList_upTo {limit kept : Nat} {p : κ × α → Bool} {es : List (κ × α)} :
    retainList (upTo limit p) kept es = (es.filter p).take (limit - kept) := by
  induction es generalizing kept with
  | nil => simp [retainList]
  | cons e es ih =>
    rw [retainList, upTo]
    by_cases hp : p e = true
    · rw [List.filter_cons_of_pos hp]
      by_cases hkept : kept < limit
      · have hsub : limit - kept = limit - (kept + 1) + 1 := by omega
        simp only [hp, hkept, decide_true, Bool.and_self, if_true]
        rw [ih, hsub, List.take_succ_cons]
      · have hsub : limit - kept = 0 := by omega
        simp only [hp, hkept, decide_false, Bool.and_false, Bool.false_eq_true, if_false]
        rw [ih, hsub, List.take_zero, List.take_zero]
    · rw [List.filter_cons_of_neg hp]
      simp only [hp, Bool.false_and, Bool.false_eq_true, if_false]
      exact ih

variable [LinearOrder κ]


def empty : OrdMap κ α := ⟨[], List.Pairwise.nil⟩

instance : Inhabited (OrdMap κ α) := ⟨empty⟩

def get? (m : OrdMap κ α) (k : κ) : Option α :=
  (m.entries.find? fun e => e.1 = k).map Prod.snd

def size (m : OrdMap κ α) : Nat := m.entries.length

def values (m : OrdMap κ α) : List α := m.entries.map Prod.snd

theorem get?_eq_some {m : OrdMap κ α} {k : κ} {a : α} :
    m.get? k = some a ↔ (k, a) ∈ m.entries := by
  obtain ⟨es, hs⟩ := m
  simp only [get?]
  induction es with
  | nil => simp
  | cons e es ih =>
    obtain ⟨hlt, hs⟩ := List.pairwise_cons.mp hs
    by_cases he : e.1 = k
    · have hnot : (k, a) ∉ es := fun hm => absurd (hlt _ hm) (by simp [he])
      rw [List.find?_cons_of_pos (by simpa using he)]
      simp only [Option.map_some, Option.some.injEq, List.mem_cons, hnot, or_false]
      constructor
      · intro ha
        rw [← he, ← ha]
      · intro ha
        rw [← ha]
    · rw [List.find?_cons_of_neg (by simpa using he), ih hs, List.mem_cons]
      have hne : (k, a) ≠ e := fun h => he (by rw [← h])
      simp [hne]

/-- `insert`, in the place of the key. -/
def insertEntry (k : κ) (a : α) : List (κ × α) → List (κ × α)
  | [] => [(k, a)]
  | e :: es =>
    if k < e.1 then (k, a) :: e :: es
    else if k = e.1 then (k, a) :: es
    else e :: insertEntry k a es

theorem mem_insertEntry {k : κ} {a : α} {e : κ × α} {es : List (κ × α)}
    (hs : es.Pairwise fun e e' => e.1 < e'.1) :
    e ∈ insertEntry k a es ↔ e = (k, a) ∨ e ∈ es ∧ e.1 ≠ k := by
  induction es with
  | nil => simp [insertEntry]
  | cons x xs ih =>
    obtain ⟨hlt, hs⟩ := List.pairwise_cons.mp hs
    have hx : ∀ y ∈ xs, k ≤ x.1 → y.1 ≠ k :=
      fun y hy hk hyk => absurd (hlt y hy) (not_lt.mpr (hyk ▸ hk))
    rw [insertEntry]
    split_ifs with hkx hkx'
    · have hne : ∀ y ∈ x :: xs, y.1 ≠ k := by
        intro y hy
        rcases List.mem_cons.mp hy with h | h
        · rw [h]; exact ne_of_gt hkx
        · exact hx y h hkx.le
      rw [List.mem_cons]
      refine or_congr Iff.rfl ?_
      exact ⟨fun h => ⟨h, hne e h⟩, fun h => h.1⟩
    · rw [List.mem_cons, List.mem_cons]
      refine or_congr Iff.rfl ?_
      constructor
      · exact fun h => ⟨Or.inr h, hx e h hkx'.le⟩
      · intro h
        rcases h.1 with h' | h'
        · exact absurd (h' ▸ hkx').symm h.2
        · exact h'
    · have hne : x.1 ≠ k := fun h => hkx' h.symm
      rw [List.mem_cons, ih hs, List.mem_cons]
      constructor
      · intro h
        rcases h with h | h | h
        · exact Or.inr ⟨Or.inl h, h ▸ hne⟩
        · exact Or.inl h
        · exact Or.inr ⟨Or.inr h.1, h.2⟩
      · intro h
        rcases h with h | ⟨h | h, hk⟩
        · exact Or.inr (Or.inl h)
        · exact Or.inl h
        · exact Or.inr (Or.inr ⟨h, hk⟩)

theorem sorted_insertEntry {k : κ} {a : α} {es : List (κ × α)}
    (hs : es.Pairwise fun e e' => e.1 < e'.1) :
    (insertEntry k a es).Pairwise fun e e' => e.1 < e'.1 := by
  induction es with
  | nil => simp [insertEntry]
  | cons x xs ih =>
    obtain ⟨hlt, hs'⟩ := List.pairwise_cons.mp hs
    rw [insertEntry]
    split_ifs with hkx hkx'
    · refine List.pairwise_cons.mpr ⟨?_, hs⟩
      intro y hy
      rcases List.mem_cons.mp hy with h | h
      · rw [h]; exact hkx
      · exact hkx.trans (hlt y h)
    · refine List.pairwise_cons.mpr ⟨?_, hs'⟩
      intro y hy
      exact hkx' ▸ hlt y hy
    · refine List.pairwise_cons.mpr ⟨?_, ih hs'⟩
      intro y hy
      rcases (mem_insertEntry hs').mp hy with h | h
      · rw [h]; exact lt_of_le_of_ne (not_lt.mp hkx) (Ne.symm hkx')
      · exact hlt y h.1

def insert (m : OrdMap κ α) (k : κ) (a : α) : OrdMap κ α :=
  ⟨insertEntry k a m.entries, sorted_insertEntry m.sorted⟩

theorem get?_insert {m : OrdMap κ α} {k j : κ} {a : α} :
    (m.insert k a).get? j = if j = k then some a else m.get? j := by
  apply Option.ext
  intro b
  rw [get?_eq_some]
  simp only [insert, mem_insertEntry m.sorted, Prod.mk.injEq]
  split_ifs with hjk
  · simp [hjk, eq_comm]
  · rw [get?_eq_some]
    simp [hjk]

def retainWith (f : σ → κ × α → Bool × σ) (s : σ) (m : OrdMap κ α) : OrdMap κ α :=
  ⟨retainList f s m.entries, m.sorted.sublist (retainList_sublist f s m.entries)⟩

/-- `retain` with a closure that only looks at the entry. -/
def retain (p : κ × α → Bool) (m : OrdMap κ α) : OrdMap κ α :=
  ⟨m.entries.filter p, m.sorted.sublist List.filter_sublist⟩

theorem get?_retain {p : κ × α → Bool} {m : OrdMap κ α} {k : κ} {a : α} :
    (m.retain p).get? k = some a ↔ m.get? k = some a ∧ p (k, a) := by
  rw [get?_eq_some, get?_eq_some]
  exact List.mem_filter

theorem mem_take_filter {p : κ × α → Bool} {n : Nat} {e : κ × α} {es : List (κ × α)}
    (hs : es.Pairwise fun e e' => e.1 < e'.1) :
    e ∈ (es.filter p).take n ↔
      e ∈ es ∧ p e ∧ (es.countP fun x => p x && decide (x.1 < e.1)) < n := by
  induction es generalizing n with
  | nil => simp
  | cons x xs ih =>
    obtain ⟨hlt, hs⟩ := List.pairwise_cons.mp hs
    rw [List.countP_cons]
    by_cases hex : e = x
    · -- no later entry has a smaller key
      have hcount : (xs.countP fun y => p y && decide (y.1 < e.1)) = 0 := by
        rw [List.countP_eq_zero]
        intro y hy
        have hey : e.1 < y.1 := by
          rw [hex]
          exact hlt y hy
        simp [not_lt.mpr hey.le]
      have hnot : e ∉ xs := fun h => absurd (hlt e h) (by simp [hex])
      have hnot' : ∀ k, e ∉ (xs.filter p).take k :=
        fun k h => hnot (List.mem_filter.mp (List.mem_of_mem_take h)).1
      rw [hcount, ← hex]
      by_cases hp : p e = true
      · rw [List.filter_cons_of_pos hp]
        cases n with
        | zero => simp
        | succ n => simp [hp]
      · rw [List.filter_cons_of_neg hp]
        simp [hp, hnot']
    · have hmem : e ∈ x :: xs ↔ e ∈ xs := by simp [hex]
      rw [hmem]
      by_cases hp : p x = true
      · rw [List.filter_cons_of_pos hp]
        cases n with
        | zero => simp
        | succ n =>
          rw [List.take_succ_cons, List.mem_cons, or_iff_right hex, ih hs]
          refine and_congr_right fun he => ?_
          simp [hp, hlt e he]
      · rw [List.filter_cons_of_neg hp, ih hs]
        simp [hp]

/-- Keep the entries `p` admits, in key order, while fewer than `limit` are kept. -/
def retainUpTo (limit : Nat) (p : κ × α → Bool) (m : OrdMap κ α) : OrdMap κ α :=
  m.retainWith (upTo limit p) 0

def before (m : OrdMap κ α) (p : κ × α → Bool) (k : κ) : Nat :=
  m.entries.countP fun e => p e && decide (e.1 < k)

/-- An entry is kept when it is admitted and fewer than `limit` admitted ones come before it. -/
theorem get?_retainUpTo {limit : Nat} {p : κ × α → Bool} {m : OrdMap κ α} {k : κ} {a : α} :
    (m.retainUpTo limit p).get? k = some a ↔
      m.get? k = some a ∧ p (k, a) ∧ m.before p k < limit := by
  rw [get?_eq_some, get?_eq_some]
  simp only [retainUpTo, retainWith, retainList_upTo, Nat.sub_zero]
  exact mem_take_filter m.sorted

/-- `values_mut`. -/
def mapValues (f : α → α) (m : OrdMap κ α) : OrdMap κ α :=
  ⟨m.entries.map fun e => (e.1, f e.2), by
    rw [List.pairwise_map]
    exact m.sorted⟩

theorem get?_mapValues {f : α → α} {m : OrdMap κ α} {k : κ} :
    (m.mapValues f).get? k = (m.get? k).map f := by
  simp only [get?, mapValues, List.find?_map, Option.map_map]
  rfl

def ofList (es : List (κ × α)) : OrdMap κ α := es.foldl (fun m e => m.insert e.1 e.2) empty

theorem get?_ofList {es : List (κ × α)} {k : κ} :
    (ofList es).get? k = (es.reverse.find? fun e => e.1 = k).map Prod.snd := by
  have hfold : ∀ (es : List (κ × α)) (m : OrdMap κ α),
      (es.foldl (fun m e => m.insert e.1 e.2) m).get? k =
        ((es.reverse.find? fun e => e.1 = k).map Prod.snd).or (m.get? k) := by
    intro es
    induction es with
    | nil =>
      intro m
      simp
    | cons e es ih =>
      intro m
      rw [List.foldl_cons, ih, List.reverse_cons, List.find?_append, get?_insert]
      by_cases he : e.1 = k
      · have he' : k = e.1 := he.symm
        cases h : es.reverse.find? fun e => e.1 = k <;> simp [he']
      · have he' : ¬ k = e.1 := fun h => he h.symm
        cases h : es.reverse.find? fun e => e.1 = k <;> simp [he, he']
  have hempty : (empty : OrdMap κ α).get? k = none := rfl
  rw [ofList, hfold, hempty, Option.or_none]

def lookupEntry (k : κ) (es : List (κ × α)) : Option α :=
  (es.find? fun e => e.1 = k).map Prod.snd

def eraseEntry (k : κ) (es : List (κ × α)) : List (κ × α) := es.filter fun e => e.1 ≠ k

end OrdMap
