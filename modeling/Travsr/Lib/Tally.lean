import Mathlib.Algebra.Group.Basic
import Travsr.Lib.Table

namespace Relational

variable {κ M : Type}

abbrev Tally (κ M : Type) := Table (κ × M) (Prod.fst : κ × M → κ)

namespace Tally

variable [DecidableEq κ] [AddCommMonoid M]

def value (t : Tally κ M) (k : κ) : M := ((t.find? k).map Prod.snd).getD 0

/-- `*entry(k).or_insert(0) += x`. -/
def add (t : Tally κ M) (k : κ) (x : M) : Tally κ M :=
  Table.upsert t (k, 0 + x) (fun p => (p.1, p.2 + x)) (fun _ => rfl)

/-- `entry(k).or_insert(0)`. -/
def touch (t : Tally κ M) (k : κ) : Tally κ M := Table.insertIgnore t (k, 0)

def addAll (t : Tally κ M) (es : List (κ × M)) : Tally κ M :=
  es.foldl (fun t e => t.add e.1 e.2) t

theorem find?_add (t : Tally κ M) (k : κ) (x : M) (j : κ) :
    (t.add k x).find? j = if k = j then some (k, t.value k + x) else t.find? j := by
  unfold add
  rw [Table.find?_upsert]
  by_cases h : k = j
  · subst h
    rw [if_pos rfl, if_pos rfl]
    unfold value
    cases hk : t.find? k with
    | none => rfl
    | some p =>
      have hp : p.1 = k := (Table.mem_of_find? hk).2
      rw [← hp]
      rfl
  · rw [if_neg h, if_neg h]

theorem find?_touch (t : Tally κ M) (k j : κ) :
    (t.touch k).find? j = (t.add k 0).find? j := by
  unfold touch
  rw [Table.find?_insertIgnore, find?_add]
  by_cases h : k = j
  · subst h
    rw [if_pos rfl, if_pos rfl, add_zero]
    unfold value
    cases hk : t.find? k with
    | none => rfl
    | some p =>
      have hp : p.1 = k := (Table.mem_of_find? hk).2
      rw [← hp]
      rfl
  · rw [if_neg h, if_neg h]

theorem touch_same_add (t : Tally κ M) (k : κ) : Table.Same (t.touch k) (t.add k 0) :=
  Table.same_of_find? (find?_touch t k)

theorem value_congr {t u : Tally κ M} (h : Table.Same t u) (k : κ) : t.value k = u.value k := by
  unfold value
  rw [h.find?]

theorem add_congr {t u : Tally κ M} (h : Table.Same t u) (k : κ) (x : M) :
    Table.Same (t.add k x) (u.add k x) := by
  apply Table.same_of_find?
  intro j
  rw [find?_add, find?_add, value_congr h, h.find?]

theorem add_comm_same (t : Tally κ M) (k : κ) (x : M) (l : κ) (y : M) :
    Table.Same ((t.add k x).add l y) ((t.add l y).add k x) := by
  apply Table.same_of_find?
  intro j
  have hval : ∀ (t : Tally κ M) (k : κ) (x : M) (j : κ),
      (t.add k x).value j = if k = j then t.value k + x else t.value j := by
    intro t k x j
    unfold value
    rw [find?_add]
    split_ifs <;> rfl
  rw [find?_add, find?_add, find?_add, find?_add, hval, hval]
  by_cases hk : k = j
  · subst hk
    by_cases hl : l = k
    · subst hl
      simp only [if_true]
      rw [add_right_comm]
    · simp [hl]
  · by_cases hl : l = j
    · subst hl
      simp [hk]
    · simp [hk, hl]

theorem addAll_congr {t u : Tally κ M} (h : Table.Same t u) (es : List (κ × M)) :
    Table.Same (t.addAll es) (u.addAll es) := by
  unfold addAll
  induction es generalizing t u with
  | nil => exact h
  | cons e es ih => exact ih (add_congr h e.1 e.2)

theorem addAll_perm {es es' : List (κ × M)} (hp : es.Perm es') {t u : Tally κ M}
    (h : Table.Same t u) : Table.Same (t.addAll es) (u.addAll es') := by
  induction hp generalizing t u with
  | nil => exact h
  | cons e _ ih => exact ih (add_congr h e.1 e.2)
  | swap e e' es =>
    change Table.Same (((t.add e'.1 e'.2).add e.1 e.2).addAll es)
      (((u.add e.1 e.2).add e'.1 e'.2).addAll es)
    refine addAll_congr ?_ es
    exact (add_comm_same t e'.1 e'.2 e.1 e.2).trans (add_congr (add_congr h _ _) _ _)
  | trans _ _ ih₁ ih₂ => exact (ih₁ (Table.Same.refl t)).trans (ih₂ h)

theorem value_add (t : Tally κ M) (k : κ) (x : M) (j : κ) :
    (t.add k x).value j = t.value j + if k = j then x else 0 := by
  rw [value, find?_add]
  by_cases h : k = j
  · subst h
    rw [if_pos rfl, if_pos rfl]
    rfl
  · rw [if_neg h, if_neg h, add_zero]
    rfl

theorem value_addAll (t : Tally κ M) (es : List (κ × M)) (k : κ) :
    (t.addAll es).value k = t.value k + ((es.filter fun e => e.1 = k).map Prod.snd).sum := by
  unfold addAll
  induction es generalizing t with
  | nil => simp
  | cons e es ih =>
    rw [List.foldl_cons, ih, value_add]
    by_cases h : e.1 = k
    · rw [if_pos h, List.filter_cons_of_pos (by simpa using h), List.map_cons, List.sum_cons,
        add_assoc]
    · rw [if_neg h, List.filter_cons_of_neg (by simpa using h), add_zero]

theorem value_touch (t : Tally κ M) (k j : κ) : (t.touch k).value j = t.value j := by
  rw [value_congr (touch_same_add t k), value_add, ite_self, add_zero]

theorem sum_filter_rows (t : Tally κ M) (k : κ) :
    ((t.rows.filter fun e => e.1 = k).map Prod.snd).sum = t.value k := by
  rw [Table.filter_key, value]
  cases t.find? k <;> simp

theorem value_of_not_has {t : Tally κ M} {k : κ} (h : ¬ t.Has k) : t.value k = 0 := by
  rw [value, Table.find?_eq_none.mpr h]
  rfl

theorem value_of_mem {t : Tally κ M} {e : κ × M} (h : e ∈ t) : t.value e.1 = e.2 := by
  rw [value, Table.find?_of_mem h]
  rfl

theorem has_add (t : Tally κ M) (k : κ) (x : M) (j : κ) :
    (t.add k x).Has j ↔ k = j ∨ t.Has j := by
  rw [Table.has_iff_find?, Table.has_iff_find?, find?_add]
  by_cases h : k = j <;> simp [h]

theorem has_addAll (t : Tally κ M) (es : List (κ × M)) (j : κ) :
    (t.addAll es).Has j ↔ j ∈ es.map Prod.fst ∨ t.Has j := by
  unfold addAll
  induction es generalizing t with
  | nil => simp
  | cons e es ih =>
    rw [List.foldl_cons, ih, has_add, List.map_cons, List.mem_cons]
    constructor
    · rintro (h | h | h)
      · exact .inl (.inr h)
      · exact .inl (.inl h.symm)
      · exact .inr h
    · rintro ((h | h) | h)
      · exact .inr (.inl h.symm)
      · exact .inl h
      · exact .inr (.inr h)

end Tally

end Relational
