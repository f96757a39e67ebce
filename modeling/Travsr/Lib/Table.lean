import Mathlib.Algebra.GroupWithZero.Nat
import Mathlib.Data.List.Dedup
import Mathlib.Data.List.Nodup

namespace Relational

variable {ρ κ υ : Type}

/-- A table: rows in some order, no two under one primary key. -/
structure Table (ρ : Type) {κ : Type} (key : ρ → κ) where
  rows : List ρ
  nodup : (rows.map key).Nodup

/-- A table with a second UNIQUE constraint. -/
structure IndexedTable (ρ : Type) {κ υ : Type} (key : ρ → κ) (index : ρ → υ)
    extends Table ρ key where
  index_nodup : (rows.map index).Nodup

/-- `GROUP BY key`: at most one row for each key that occurs. -/
theorem filter_groups [DecidableEq κ] {key : ρ → κ} {rows : List ρ} {f : κ → Option ρ}
    (hf : ∀ k r, f k = some r → key r = k) (k : κ) :
    (((rows.map key).dedup.filterMap f).filter fun r => key r = k) =
      if k ∈ rows.map key then (f k).toList else [] := by
  have hgen : ∀ ks : List κ, ks.Nodup → ((ks.filterMap f).filter fun r => key r = k) =
      if k ∈ ks then (f k).toList else [] := by
    intro ks hks
    induction ks with
    | nil => rfl
    | cons a ks ih =>
      obtain ⟨ha, hks⟩ := List.nodup_cons.mp hks
      by_cases hak : a = k
      · subst hak
        have hrest := ih hks
        rw [if_neg ha] at hrest
        cases hfa : f a with
        | none => rw [List.filterMap_cons_none hfa, hrest, if_pos List.mem_cons_self]; rfl
        | some r =>
          rw [List.filterMap_cons_some hfa, List.filter_cons_of_pos (by simpa using hf a r hfa),
            hrest, if_pos List.mem_cons_self]
          rfl
      · have hmem : k ∈ a :: ks ↔ k ∈ ks := by simp [Ne.symm hak]
        simp only [hmem]
        rw [← ih hks]
        cases hfa : f a with
        | none => rw [List.filterMap_cons_none hfa]
        | some r =>
          have hr : key r ≠ k := hf a r hfa ▸ hak
          rw [List.filterMap_cons_some hfa, List.filter_cons_of_neg (by simpa using hr)]
  rw [hgen _ (List.nodup_dedup _)]
  simp only [List.mem_dedup]

namespace Table

variable {key : ρ → κ}

instance : Membership ρ (Table ρ key) := ⟨fun t r => r ∈ t.rows⟩

instance [DecidableEq ρ] (r : ρ) (t : Table ρ key) : Decidable (r ∈ t) :=
  inferInstanceAs (Decidable (r ∈ t.rows))

theorem mem_rows {t : Table ρ key} {r : ρ} : r ∈ t.rows ↔ r ∈ t := Iff.rfl

theorem eq_of_key {t : Table ρ key} {r r' : ρ} (hr : r ∈ t) (hr' : r' ∈ t)
    (h : key r = key r') : r = r' :=
  List.inj_on_of_nodup_map t.nodup hr hr' h

theorem nodup_rows (t : Table ρ key) : t.rows.Nodup := t.nodup.of_map

/-- A row stands under the key. -/
def Has (t : Table ρ key) (k : κ) : Prop := ∃ r, r ∈ t ∧ key r = k

instance [DecidableEq κ] (t : Table ρ key) (k : κ) : Decidable (t.Has k) :=
  inferInstanceAs (Decidable (∃ r, r ∈ t.rows ∧ key r = k))

theorem has_of_mem {t : Table ρ key} {r : ρ} (h : r ∈ t) : t.Has (key r) := ⟨r, h, rfl⟩

def find? [DecidableEq κ] (t : Table ρ key) (k : κ) : Option ρ :=
  t.rows.find? (fun r => key r = k)

theorem mem_of_find? [DecidableEq κ] {t : Table ρ key} {k : κ} {r : ρ}
    (h : t.find? k = some r) : r ∈ t ∧ key r = k := by
  refine ⟨List.mem_of_find?_eq_some h, ?_⟩
  have := List.find?_some h
  rwa [decide_eq_true_eq] at this

theorem find?_of_mem [DecidableEq κ] {t : Table ρ key} {r : ρ} (hr : r ∈ t) :
    t.find? (key r) = some r := by
  have hs : (t.find? (key r)).isSome := by
    rw [find?, List.find?_isSome]
    exact ⟨r, hr, by simp⟩
  obtain ⟨x, hx⟩ := Option.isSome_iff_exists.mp hs
  obtain ⟨hm, hk⟩ := mem_of_find? hx
  rw [hx, eq_of_key hm hr hk]

theorem find?_eq_some [DecidableEq κ] {t : Table ρ key} {k : κ} {r : ρ} :
    t.find? k = some r ↔ r ∈ t ∧ key r = k := by
  refine ⟨mem_of_find?, ?_⟩
  rintro ⟨hr, rfl⟩
  exact find?_of_mem hr

theorem mem_iff_find? [DecidableEq κ] {t : Table ρ key} {r : ρ} :
    r ∈ t ↔ t.find? (key r) = some r := by
  rw [find?_eq_some]
  exact (and_iff_left rfl).symm

theorem find?_eq_none [DecidableEq κ] {t : Table ρ key} {k : κ} :
    t.find? k = none ↔ ¬ t.Has k := by
  rw [find?, List.find?_eq_none]
  constructor
  · rintro h ⟨r, hr, hk⟩
    exact h r hr (by simp [hk])
  · intro h r hr hk
    exact h ⟨r, hr, by simpa using hk⟩

theorem has_iff_find? [DecidableEq κ] {t : Table ρ key} {k : κ} :
    t.Has k ↔ (t.find? k).isSome := by
  rw [Option.isSome_iff_ne_none, ne_eq, find?_eq_none, not_not]

theorem filter_key [DecidableEq κ] (t : Table ρ key) (k : κ) :
    (t.rows.filter fun r => key r = k) = (t.find? k).toList := by
  have hnd : (t.rows.filter fun r => key r = k).Nodup := t.nodup_rows.filter _
  cases hf : t.find? k with
  | none =>
    rw [find?_eq_none] at hf
    rw [Option.toList_none, List.filter_eq_nil_iff]
    intro r hr hk
    exact hf ⟨r, hr, of_decide_eq_true hk⟩
  | some r =>
    obtain ⟨hr, hk⟩ := mem_of_find? hf
    have hperm : (t.rows.filter fun r => key r = k).Perm [r] := by
      rw [List.perm_ext_iff_of_nodup hnd (List.nodup_singleton r)]
      intro x
      rw [List.mem_filter, decide_eq_true_eq, List.mem_singleton]
      constructor
      · exact fun h => eq_of_key h.1 hr (h.2.trans hk.symm)
      · intro h
        rw [h]
        exact ⟨hr, hk⟩
    exact List.perm_singleton.mp hperm

def empty : Table ρ key := ⟨[], List.nodup_nil⟩

@[simp] theorem not_mem_empty (r : ρ) : ¬ r ∈ (empty : Table ρ key) := List.not_mem_nil

/-- `DELETE FROM t WHERE p`. -/
def deleteWhere (t : Table ρ key) (p : ρ → Prop) [DecidablePred p] : Table ρ key where
  rows := t.rows.filter (fun r => ¬ p r)
  nodup := t.nodup.sublist (List.filter_sublist.map key)

@[simp] theorem mem_deleteWhere {t : Table ρ key} {p : ρ → Prop} [DecidablePred p] {r : ρ} :
    r ∈ t.deleteWhere p ↔ r ∈ t ∧ ¬ p r := by
  change r ∈ t.rows.filter _ ↔ r ∈ t.rows ∧ ¬ p r
  rw [List.mem_filter, decide_eq_true_eq]

theorem find?_deleteWhere [DecidableEq κ] (t : Table ρ key) (p : ρ → Prop) [DecidablePred p]
    (k : κ) : (t.deleteWhere p).find? k = (t.find? k).filter (fun r => ¬ p r) := by
  apply Option.ext
  intro r
  rw [find?_eq_some, mem_deleteWhere, Option.filter_eq_some_iff, find?_eq_some,
    decide_eq_true_eq, and_right_comm]

theorem nodup_concat {t : Table ρ key} {r : ρ} (h : ¬ t.Has (key r)) :
    ((t.rows ++ [r]).map key).Nodup := by
  rw [List.map_append, List.map_singleton, ← List.concat_eq_append]
  refine t.nodup.concat ?_
  intro hk
  obtain ⟨x, hx, hxk⟩ := List.mem_map.mp hk
  exact h ⟨x, hx, hxk⟩

/-- `INSERT … ON CONFLICT(key) DO NOTHING`. -/
def insertIgnore [DecidableEq κ] (t : Table ρ key) (r : ρ) : Table ρ key :=
  if h : t.Has (key r) then t else ⟨t.rows ++ [r], nodup_concat h⟩

@[simp] theorem mem_insertIgnore [DecidableEq κ] {t : Table ρ key} {r x : ρ} :
    x ∈ t.insertIgnore r ↔ x ∈ t ∨ (x = r ∧ ¬ t.Has (key r)) := by
  unfold insertIgnore
  split_ifs with h
  · simp [h]
  · change x ∈ t.rows ++ [r] ↔ x ∈ t.rows ∨ _
    simp [h]

/-- `UPDATE t SET …` on the rows where `p`; the update keeps the key. -/
def updateWhere (t : Table ρ key) (p : ρ → Prop) [DecidablePred p] (f : ρ → ρ)
    (hf : ∀ r, key (f r) = key r) : Table ρ key where
  rows := t.rows.map (fun r => if p r then f r else r)
  nodup := by
    have : key ∘ (fun r => if p r then f r else r) = key := by
      funext r
      change key (if p r then f r else r) = key r
      split_ifs
      · exact hf r
      · rfl
    rw [List.map_map, this]
    exact t.nodup

theorem mem_updateWhere {t : Table ρ key} {p : ρ → Prop} [DecidablePred p] {f : ρ → ρ}
    {hf : ∀ r, key (f r) = key r} {x : ρ} :
    x ∈ t.updateWhere p f hf ↔ (x ∈ t ∧ ¬ p x) ∨ ∃ r, r ∈ t ∧ p r ∧ x = f r := by
  change x ∈ t.rows.map _ ↔ _
  rw [List.mem_map]
  constructor
  · rintro ⟨r, hr, rfl⟩
    by_cases hp : p r
    · exact .inr ⟨r, hr, hp, by simp [hp]⟩
    · left
      rw [if_neg hp]
      exact ⟨hr, hp⟩
  · rintro (⟨hx, hp⟩ | ⟨r, hr, hp, rfl⟩)
    · exact ⟨x, hx, by simp [hp]⟩
    · exact ⟨r, hr, by simp [hp]⟩

/-- `INSERT … ON CONFLICT(key) DO UPDATE SET …`. -/
def upsert [DecidableEq κ] (t : Table ρ key) (r : ρ) (f : ρ → ρ)
    (hf : ∀ x, key (f x) = key x) : Table ρ key :=
  if t.Has (key r) then t.updateWhere (fun x => key x = key r) f hf else t.insertIgnore r

theorem mem_upsert [DecidableEq κ] {t : Table ρ key} {r : ρ} {f : ρ → ρ}
    {hf : ∀ x, key (f x) = key x} {x : ρ} :
    x ∈ t.upsert r f hf ↔ (x ∈ t ∧ key x ≠ key r) ∨
      (∃ o, o ∈ t ∧ key o = key r ∧ x = f o) ∨ (x = r ∧ ¬ t.Has (key r)) := by
  unfold upsert
  split_ifs with h
  · rw [mem_updateWhere]
    simp [h]
  · rw [mem_insertIgnore]
    have hne : ∀ o, o ∈ t → key o ≠ key r := fun o ho hk => h ⟨o, ho, hk⟩
    constructor
    · rintro (hx | hx)
      · exact .inl ⟨hx, hne x hx⟩
      · exact .inr (.inr hx)
    · rintro (hx | ⟨o, ho, hk, _⟩ | hx)
      · exact .inl hx.1
      · exact absurd hk (hne o ho)
      · exact .inr hx

theorem find?_insertIgnore [DecidableEq κ] (t : Table ρ key) (r : ρ) (k : κ) :
    (t.insertIgnore r).find? k = if key r = k then some ((t.find? k).getD r) else t.find? k := by
  apply Option.ext
  intro x
  rw [find?_eq_some, mem_insertIgnore]
  split_ifs with h
  · subst h
    cases hf : t.find? (key r) with
    | none =>
      have hn := find?_eq_none.mp hf
      rw [Option.getD_none, Option.some_inj]
      constructor
      · rintro ⟨hx | hx, hk⟩
        · exact absurd ⟨x, hx, hk⟩ hn
        · exact hx.1.symm
      · rintro rfl
        exact ⟨.inr ⟨rfl, hn⟩, rfl⟩
    | some y =>
      obtain ⟨hy, hyk⟩ := mem_of_find? hf
      rw [Option.getD_some, Option.some_inj]
      constructor
      · rintro ⟨hx | hx, hk⟩
        · exact eq_of_key hy hx (hyk.trans hk.symm)
        · exact absurd ⟨y, hy, hyk⟩ hx.2
      · rintro rfl
        exact ⟨.inl hy, hyk⟩
  · rw [find?_eq_some]
    constructor
    · rintro ⟨hx | hx, hk⟩
      · exact ⟨hx, hk⟩
      · exact absurd (hx.1 ▸ hk) h
    · rintro ⟨hx, hk⟩
      exact ⟨.inl hx, hk⟩

theorem find?_upsert [DecidableEq κ] (t : Table ρ key) (r : ρ) (f : ρ → ρ)
    (hf : ∀ x, key (f x) = key x) (k : κ) :
    (t.upsert r f hf).find? k =
      if key r = k then some ((t.find? k).elim r f) else t.find? k := by
  apply Option.ext
  intro x
  rw [find?_eq_some, mem_upsert]
  split_ifs with h
  · subst h
    cases ho : t.find? (key r) with
    | none =>
      have hn := find?_eq_none.mp ho
      rw [Option.elim_none, Option.some_inj]
      constructor
      · rintro ⟨hx | ⟨o, hm, hok, _⟩ | hx, hk⟩
        · exact absurd hk hx.2
        · exact absurd ⟨o, hm, hok⟩ hn
        · exact hx.1.symm
      · rintro rfl
        exact ⟨.inr (.inr ⟨rfl, hn⟩), rfl⟩
    | some y =>
      obtain ⟨hy, hyk⟩ := mem_of_find? ho
      rw [Option.elim_some, Option.some_inj]
      constructor
      · rintro ⟨hx | ⟨o, hm, hok, rfl⟩ | hx, hk⟩
        · exact absurd hk hx.2
        · rw [eq_of_key hy hm (hyk.trans hok.symm)]
        · exact absurd ⟨y, hy, hyk⟩ hx.2
      · rintro rfl
        exact ⟨.inr (.inl ⟨y, hy, hyk, rfl⟩), (hf y).trans hyk⟩
  · rw [find?_eq_some]
    constructor
    · rintro ⟨hx | ⟨o, hm, hok, rfl⟩ | hx, hk⟩
      · exact ⟨hx.1, hk⟩
      · exact absurd (hok.symm.trans ((hf o).symm.trans hk)) h
      · exact absurd (hx.1 ▸ hk) h
    · rintro ⟨hx, hk⟩
      exact ⟨.inl ⟨hx, fun hxr => h (hxr.symm.trans hk)⟩, hk⟩

theorem has_upsert [DecidableEq κ] {t : Table ρ key} {r : ρ} {f : ρ → ρ}
    {hf : ∀ x, key (f x) = key x} {k : κ} : (t.upsert r f hf).Has k ↔ t.Has k ∨ key r = k := by
  rw [has_iff_find?, has_iff_find?, find?_upsert]
  split_ifs with h <;> simp [h]

theorem find?_foldl_upsert [DecidableEq κ] {β : Type} (row : β → ρ) (f : β → ρ → ρ)
    (hf : ∀ b x, key (f b x) = key x) (bs : List β) (t : Table ρ key) (k : κ) :
    (bs.foldl (fun t b => t.upsert (row b) (f b) (hf b)) t).find? k =
      (bs.filter fun b => key (row b) = k).foldl (fun o b => some (o.elim (row b) (f b)))
        (t.find? k) := by
  induction bs generalizing t with
  | nil => rfl
  | cons b bs ih =>
    rw [List.foldl_cons, ih, find?_upsert]
    by_cases hk : key (row b) = k
    · rw [if_pos hk, List.filter_cons_of_pos (by simpa using hk)]
      rfl
    · rw [if_neg hk, List.filter_cons_of_neg (by simpa using hk)]

theorem has_foldl_upsert [DecidableEq κ] {β : Type} (row : β → ρ) (f : β → ρ → ρ)
    (hf : ∀ b x, key (f b x) = key x) {bs : List β} {t : Table ρ key} {k : κ} :
    (bs.foldl (fun t b => t.upsert (row b) (f b) (hf b)) t).Has k ↔
      t.Has k ∨ ∃ b ∈ bs, key (row b) = k := by
  induction bs generalizing t with
  | nil => simp
  | cons b bs ih => rw [List.foldl_cons, ih, has_upsert, or_assoc, List.exists_mem_cons_iff]

/-- What an upsert makes of a sum over the rows: the new row's part takes the place of the old. -/
theorem sum_upsert [DecidableEq κ] (t : Table ρ key) (r : ρ) (f : ρ → ρ)
    (hf : ∀ x, key (f x) = key x) (g : ρ → Nat) :
    ((t.upsert r f hf).rows.map g).sum + ((t.find? (key r)).elim 0 g) =
      (t.rows.map g).sum + g ((t.find? (key r)).elim r f) := by
  unfold upsert
  split_ifs with h
  · obtain ⟨o, ho, hk⟩ := h
    have hfind : t.find? (key r) = some o := hk ▸ find?_of_mem ho
    rw [hfind, Option.elim_some, Option.elim_some]
    change ((t.rows.map fun x => if key x = key r then f x else x).map g).sum + g o = _
    have hrun : ∀ rows : List ρ, (rows.map key).Nodup → o ∈ rows →
        ((rows.map fun x => if key x = key r then f x else x).map g).sum + g o =
          (rows.map g).sum + g (f o) := by
      intro rows
      induction rows with
      | nil => exact fun _ h => absurd h List.not_mem_nil
      | cons x rows ih =>
        intro hnd hmem
        obtain ⟨hx, hnd⟩ := List.nodup_cons.mp hnd
        rcases List.mem_cons.mp hmem with hox | hmem
        · have hrest : rows.map (fun x => if key x = key r then f x else x) = rows := by
            rw [List.map_congr_left (g := id), List.map_id]
            intro y hy
            have hne : key y ≠ key r := by
              intro hyk
              apply hx
              rw [← hox, hk, ← hyk]
              exact List.mem_map_of_mem hy
            rw [if_neg hne]
            rfl
          subst hox
          rw [List.map_cons, if_pos hk, hrest]
          simp only [List.map_cons, List.sum_cons]
          omega
        · have hne : key x ≠ key r := by
            intro hxk
            apply hx
            rw [hxk, ← hk]
            exact List.mem_map_of_mem hmem
          have hih := ih hnd hmem
          rw [List.map_cons, if_neg hne]
          simp only [List.map_cons, List.sum_cons]
          omega
    exact hrun t.rows t.nodup ho
  · rw [find?_eq_none.mpr h, Option.elim_none, Option.elim_none, insertIgnore, dif_neg h]
    change ((t.rows ++ [r]).map g).sum + 0 = _
    simp
/-- `INSERT … ON CONFLICT(key) DO NOTHING` of several rows: the first under a key stays. -/
def insertAll [DecidableEq κ] (t : Table ρ key) (rs : List ρ) : Table ρ key :=
  rs.foldl insertIgnore t

theorem find?_insertAll [DecidableEq κ] (t : Table ρ key) (rs : List ρ) (k : κ) :
    (t.insertAll rs).find? k = (t.find? k).or (rs.find? (fun r => key r = k)) := by
  unfold insertAll
  induction rs generalizing t with
  | nil => simp
  | cons r rs ih =>
    rw [List.foldl_cons, ih, find?_insertIgnore]
    by_cases h : key r = k
    · rw [if_pos h, List.find?_cons_of_pos (by simpa using h)]
      cases t.find? k <;> rfl
    · rw [if_neg h, List.find?_cons_of_neg (by simpa using h)]

theorem mem_insertAll_of_mem [DecidableEq κ] {t : Table ρ key} {rs : List ρ} {x : ρ} (h : x ∈ t) :
    x ∈ t.insertAll rs := by
  have hx : (t.insertAll rs).find? (key x) = some x := by
    rw [find?_insertAll, find?_of_mem h, Option.some_or]
  exact (mem_of_find? hx).1

theorem mem_insertAll [DecidableEq κ] {t : Table ρ key} {rs : List ρ} {x : ρ} :
    x ∈ t.insertAll rs ↔
      x ∈ t ∨ (¬ t.Has (key x) ∧ rs.find? (fun r => key r = key x) = some x) := by
  rw [mem_iff_find?, find?_insertAll, ← find?_eq_none]
  cases h : t.find? (key x) with
  | none =>
    have hn : x ∉ t := fun hm => find?_eq_none.mp h ⟨x, hm, rfl⟩
    simp [hn]
  | some y =>
    obtain ⟨hy, hk⟩ := mem_of_find? h
    simp only [Option.some_or, Option.some.injEq, reduceCtorEq, false_and, or_false]
    constructor
    · rintro rfl
      exact hy
    · intro hm
      exact eq_of_key hy hm hk

/-- Two tables hold the same rows, whatever the order they are kept in. -/
def Same (t u : Table ρ key) : Prop := ∀ r, r ∈ t ↔ r ∈ u

theorem Same.refl (t : Table ρ key) : t.Same t := fun _ => Iff.rfl

theorem Same.symm {t u : Table ρ key} (h : t.Same u) : u.Same t := fun r => (h r).symm

theorem Same.trans {t u v : Table ρ key} (h : t.Same u) (h' : u.Same v) : t.Same v :=
  fun r => (h r).trans (h' r)

theorem Same.has {t u : Table ρ key} (h : t.Same u) (k : κ) : t.Has k ↔ u.Has k :=
  exists_congr fun r => and_congr_left' (h r)

theorem Same.find? [DecidableEq κ] {t u : Table ρ key} (h : t.Same u) (k : κ) :
    t.find? k = u.find? k := by
  cases hu : u.find? k with
  | none =>
    rw [find?_eq_none] at hu ⊢
    rwa [h.has]
  | some r =>
    rw [find?_eq_some] at hu ⊢
    rwa [h r]

theorem same_of_find? [DecidableEq κ] {t u : Table ρ key}
    (h : ∀ k, t.find? k = u.find? k) : t.Same u := by
  intro r
  constructor
  · intro hr
    exact (mem_of_find? ((h (key r)).symm.trans (find?_of_mem hr))).1
  · intro hr
    exact (mem_of_find? ((h (key r)).trans (find?_of_mem hr))).1

theorem Same.perm {t u : Table ρ key} (h : t.Same u) : t.rows.Perm u.rows :=
  (List.perm_ext_iff_of_nodup t.nodup_rows u.nodup_rows).mpr h

/-- Tables that hold their keys in one order and agree under each of them are equal row by row. -/
theorem rows_eq_of_find? [DecidableEq κ] {t u : Table ρ key} (hk : t.rows.map key = u.rows.map key)
    (hf : ∀ k, t.find? k = u.find? k) : t.rows = u.rows := by
  have hlen : t.rows.length = u.rows.length := by
    simpa using congrArg List.length hk
  apply List.ext_getElem hlen
  intro i hi hi'
  have hki : key t.rows[i] = key u.rows[i] := by
    have := List.getElem_of_eq hk (by simpa using hi)
    simpa using this
  have ht : t.find? (key t.rows[i]) = some t.rows[i] := find?_of_mem (List.getElem_mem hi)
  have hu : u.find? (key u.rows[i]) = some u.rows[i] := find?_of_mem (List.getElem_mem hi')
  rw [hf, hki, hu] at ht
  exact (Option.some.inj ht).symm

end Table

namespace IndexedTable

variable {key : ρ → κ} {index : ρ → υ}

instance : Membership ρ (IndexedTable ρ key index) := ⟨fun t r => r ∈ t.rows⟩

instance [DecidableEq ρ] (r : ρ) (t : IndexedTable ρ key index) : Decidable (r ∈ t) :=
  inferInstanceAs (Decidable (r ∈ t.rows))

theorem eq_of_key {t : IndexedTable ρ key index} {r r' : ρ} (hr : r ∈ t) (hr' : r' ∈ t)
    (h : key r = key r') : r = r' :=
  Table.eq_of_key (t := t.toTable) hr hr' h

theorem eq_of_index {t : IndexedTable ρ key index} {r r' : ρ} (hr : r ∈ t) (hr' : r' ∈ t)
    (h : index r = index r') : r = r' :=
  List.inj_on_of_nodup_map t.index_nodup hr hr' h

/-- A row holds the indexed value. -/
def HasIndex (t : IndexedTable ρ key index) (u : υ) : Prop := ∃ r, r ∈ t ∧ index r = u

instance [DecidableEq υ] (t : IndexedTable ρ key index) (u : υ) : Decidable (t.HasIndex u) :=
  inferInstanceAs (Decidable (∃ r, r ∈ t.rows ∧ index r = u))

def empty : IndexedTable ρ key index := ⟨Table.empty, List.nodup_nil⟩

@[simp] theorem not_mem_empty (r : ρ) : ¬ r ∈ (empty : IndexedTable ρ key index) :=
  List.not_mem_nil

def deleteWhere (t : IndexedTable ρ key index) (p : ρ → Prop) [DecidablePred p] :
    IndexedTable ρ key index where
  toTable := t.toTable.deleteWhere p
  index_nodup := t.index_nodup.sublist (List.filter_sublist.map index)

@[simp] theorem mem_deleteWhere {t : IndexedTable ρ key index} {p : ρ → Prop} [DecidablePred p]
    {r : ρ} : r ∈ t.deleteWhere p ↔ r ∈ t ∧ ¬ p r :=
  Table.mem_deleteWhere (t := t.toTable)

def insert (t : IndexedTable ρ key index) (r : ρ) (hk : ¬ t.Has (key r))
    (hi : ¬ t.HasIndex (index r)) : IndexedTable ρ key index where
  rows := t.rows ++ [r]
  nodup := Table.nodup_concat hk
  index_nodup := by
    rw [List.map_append, List.map_singleton, ← List.concat_eq_append]
    refine t.index_nodup.concat ?_
    intro h
    obtain ⟨x, hx, hxi⟩ := List.mem_map.mp h
    exact hi ⟨x, hx, hxi⟩

@[simp] theorem mem_insert {t : IndexedTable ρ key index} {r x : ρ} {hk : ¬ t.Has (key r)}
    {hi : ¬ t.HasIndex (index r)} : x ∈ t.insert r hk hi ↔ x ∈ t ∨ x = r := by
  change x ∈ t.rows ++ [r] ↔ x ∈ t.rows ∨ x = r
  simp

/-- A change of a row that leaves both constrained values alone. -/
structure Update (key : ρ → κ) (index : ρ → υ) where
  apply : ρ → ρ
  key_apply : ∀ r, key (apply r) = key r
  index_apply : ∀ r, index (apply r) = index r

def updateWhere (t : IndexedTable ρ key index) (p : ρ → Prop) [DecidablePred p]
    (f : Update key index) : IndexedTable ρ key index where
  toTable := t.toTable.updateWhere p f.apply f.key_apply
  index_nodup := by
    have : index ∘ (fun r => if p r then f.apply r else r) = index := by
      funext r
      change index (if p r then f.apply r else r) = index r
      split_ifs
      · exact f.index_apply r
      · rfl
    change ((t.rows.map _).map index).Nodup
    rw [List.map_map, this]
    exact t.index_nodup

theorem mem_updateWhere {t : IndexedTable ρ key index} {p : ρ → Prop} [DecidablePred p]
    {f : Update key index} {x : ρ} :
    x ∈ t.updateWhere p f ↔ (x ∈ t ∧ ¬ p x) ∨ ∃ r, r ∈ t ∧ p r ∧ x = f.apply r :=
  @Table.mem_updateWhere _ _ key t.toTable p _ f.apply f.key_apply x

variable [DecidableEq κ] [DecidableEq υ]

/-- `INSERT … ON CONFLICT(key) DO UPDATE SET …`; `none` when the other constraint fails. -/
def upsert (t : IndexedTable ρ key index) (r : ρ) (f : Update key index) :
    Option (IndexedTable ρ key index) :=
  if hk : t.Has (key r) then some (t.updateWhere (fun x => key x = key r) f)
  else if hi : t.HasIndex (index r) then none
  else some (t.insert r hk hi)

/-- `INSERT … ON CONFLICT(key) DO UPDATE SET … ON CONFLICT(index) DO NOTHING`. -/
def upsertSkip (t : IndexedTable ρ key index) (r : ρ) (f : Update key index) :
    IndexedTable ρ key index :=
  (t.upsert r f).getD t

/-- `INSERT OR IGNORE`. -/
def insertIgnore (t : IndexedTable ρ key index) (r : ρ) : IndexedTable ρ key index :=
  if hk : t.Has (key r) then t
  else if hi : t.HasIndex (index r) then t
  else t.insert r hk hi

theorem find?_of_upsert {t u : IndexedTable ρ key index} {r : ρ} {f : Update key index}
    (h : t.upsert r f = some u) (k : κ) :
    u.find? k = if key r = k then some ((t.find? k).elim r f.apply) else t.find? k := by
  have hu : u.toTable.Same (t.toTable.upsert r f.apply f.key_apply) := by
    unfold upsert at h
    unfold Table.upsert
    split_ifs at h ⊢ with hk hi
    · obtain rfl := Option.some.inj h
      exact Table.Same.refl _
    · obtain rfl := Option.some.inj h
      intro x
      rw [Table.mem_insertIgnore]
      change x ∈ t.insert r hk hi ↔ _
      rw [mem_insert]
      exact or_congr_right (and_iff_left hk).symm
  rw [hu.find?, Table.find?_upsert]

def upsertAll (upd : ρ → Update key index) :
    IndexedTable ρ key index → List ρ → Option (IndexedTable ρ key index)
  | t, [] => some t
  | t, r :: rs =>
    match t.upsert r (upd r) with
    | some u => upsertAll upd u rs
    | none => none

def evolve (upd : ρ → Update key index) (old : Option ρ) (rs : List ρ) : Option ρ :=
  rs.foldl (fun o r => some (o.elim r (upd r).apply)) old

theorem find?_of_upsertAll {upd : ρ → Update key index} {rs : List ρ}
    {t u : IndexedTable ρ key index} (h : upsertAll upd t rs = some u) (k : κ) :
    u.find? k = evolve upd (t.find? k) (rs.filter (fun r => key r = k)) := by
  induction rs generalizing t with
  | nil =>
    obtain rfl := Option.some.inj h
    rfl
  | cons r rs ih =>
    unfold upsertAll at h
    cases hu : t.upsert r (upd r) with
    | none =>
      rw [hu] at h
      cases h
    | some t' =>
      rw [hu] at h
      rw [ih h, find?_of_upsert hu]
      by_cases hk : key r = k
      · rw [if_pos hk, List.filter_cons_of_pos (by simpa using hk)]
        rfl
      · rw [if_neg hk, List.filter_cons_of_neg (by simpa using hk)]

omit [DecidableEq κ] [DecidableEq υ] in
theorem evolve_some (upd : ρ → Update key index) (o : ρ) (rs : List ρ) :
    ∃ r, evolve upd (some o) rs = some r ∧ key r = key o ∧ index r = index o := by
  induction rs generalizing o with
  | nil => exact ⟨o, rfl, rfl, rfl⟩
  | cons r rs ih =>
    obtain ⟨x, hx, hk, hi⟩ := ih ((upd r).apply o)
    exact ⟨x, hx, hk.trans ((upd r).key_apply o), hi.trans ((upd r).index_apply o)⟩

omit [DecidableEq κ] [DecidableEq υ] in
theorem evolve_eq_some {upd : ρ → Update key index} {old : Option ρ} {rs : List ρ} {x : ρ}
    (h : evolve upd old rs = some x) :
    ∃ o, (old.toList ++ rs).head? = some o ∧ key x = key o ∧ index x = index o := by
  cases old with
  | some o =>
    obtain ⟨r, hr, hk, hi⟩ := evolve_some upd o rs
    obtain rfl := Option.some.inj (hr.symm.trans h)
    exact ⟨o, rfl, hk, hi⟩
  | none =>
    cases rs with
    | nil => cases h
    | cons r rs =>
      obtain ⟨y, hy, hk, hi⟩ := evolve_some upd r rs
      obtain rfl := Option.some.inj (hy.symm.trans h)
      exact ⟨r, rfl, hk, hi⟩

omit [DecidableEq κ] [DecidableEq υ] in
theorem evolve_eq_none {upd : ρ → Update key index} {old : Option ρ} {rs : List ρ} :
    evolve upd old rs = none ↔ old = none ∧ rs = [] := by
  cases old with
  | some o =>
    obtain ⟨r, hr, _⟩ := evolve_some upd o rs
    simp [hr]
  | none =>
    cases rs with
    | nil => simp [evolve]
    | cons r rs =>
      obtain ⟨y, hy, _⟩ := evolve_some upd r rs
      have : evolve upd none (r :: rs) = some y := hy
      simp [this]

omit [DecidableEq κ] [DecidableEq υ] in
theorem evolve_append (upd : ρ → Update key index) (old : Option ρ) (rs rs' : List ρ) :
    evolve upd old (rs ++ rs') = evolve upd (evolve upd old rs) rs' :=
  List.foldl_append

omit [DecidableEq κ] [DecidableEq υ] in
theorem evolve_filter {upd : ρ → Update key index} {p : ρ → Prop} [DecidablePred p]
    (hp : ∀ a b, index a = index b → (p a ↔ p b)) {old : Option ρ} {rs : List ρ}
    (hi : ∀ a ∈ old.toList ++ rs, ∀ b ∈ old.toList ++ rs, index a = index b) :
    (evolve upd old rs).filter (fun r => p r) =
      evolve upd (old.filter (fun r => p r)) (rs.filter (fun r => p r)) := by
  cases hall : old.toList ++ rs with
  | nil =>
    obtain ⟨ho, hr⟩ := List.append_eq_nil_iff.mp hall
    rw [Option.toList_eq_nil_iff.mp ho, hr]
    rfl
  | cons a l =>
    have ha : a ∈ old.toList ++ rs := hall ▸ List.mem_cons_self
    have hsame : ∀ b ∈ old.toList ++ rs, (p b ↔ p a) := fun b hb => hp b a (hi b hb a ha)
    have hold : ∀ b ∈ old, (p b ↔ p a) :=
      fun b hb => hsame b (List.mem_append_left _ (Option.mem_toList.mpr hb))
    have hrs : ∀ b ∈ rs, (p b ↔ p a) := fun b hb => hsame b (List.mem_append_right _ hb)
    by_cases hpa : p a
    · have hkeep : old.filter (fun r => p r) = old := by
        cases old with
        | none => rfl
        | some o => simp [(hold o rfl).mpr hpa]
      rw [hkeep, List.filter_eq_self.mpr fun b hb => by simpa using (hrs b hb).mpr hpa]
      cases he : evolve upd old rs with
      | none => rfl
      | some x =>
        obtain ⟨o, ho, _, hix⟩ := evolve_eq_some he
        have hpo : p o := (hsame o (List.mem_of_mem_head? ho)).mpr hpa
        simp [(hp x o hix).mpr hpo]
    · have hdrop : old.filter (fun r => p r) = none := by
        cases old with
        | none => rfl
        | some o => simp [mt (hold o rfl).mp hpa]
      rw [hdrop, List.filter_eq_nil_iff.mpr fun b hb => by simpa using mt (hrs b hb).mp hpa]
      cases he : evolve upd old rs with
      | none => rfl
      | some x =>
        obtain ⟨o, ho, _, hix⟩ := evolve_eq_some he
        have hpo : ¬ p o := mt (hsame o (List.mem_of_mem_head? ho)).mp hpa
        simp [evolve, mt (hp x o hix).mp hpo]

omit [DecidableEq υ] in
theorem eq_of_rows_find? {t u : IndexedTable ρ key index} (hk : t.rows.map key = u.rows.map key)
    (hf : ∀ k, t.find? k = u.find? k) : t = u := by
  have hrows := Table.rows_eq_of_find? hk hf
  obtain ⟨⟨rows, hn⟩, hi⟩ := t
  obtain ⟨⟨rows', hn'⟩, hi'⟩ := u
  subst hrows
  rfl

theorem upsertSkip_keys {t : IndexedTable ρ key index} {r : ρ} {f : Update key index}
    (h : t.Has (key r) ∨ t.HasIndex (index r)) :
    (t.upsertSkip r f).rows.map key = t.rows.map key := by
  unfold upsertSkip upsert
  split_ifs with hk hi
  · change (t.rows.map fun x => if key x = key r then f.apply x else x).map key = _
    rw [List.map_map]
    refine List.map_congr_left ?_
    intro x _
    simp only [Function.comp_apply]
    split_ifs
    · exact f.key_apply x
    · rfl
  · rfl
  · exact absurd h (not_or.mpr ⟨hk, hi⟩)

/-- An upsert of a row outside a choice of rows, over a row outside it, leaves the choice alone. -/
theorem filter_upsertSkip {t : IndexedTable ρ key index} {r : ρ} {f : Update key index}
    {p : ρ → Bool} (hr : p r = false)
    (hold : ∀ x ∈ t.rows, key x = key r → p x = false ∧ p (f.apply x) = false) :
    (t.upsertSkip r f).rows.filter p = t.rows.filter p := by
  unfold upsertSkip upsert
  split_ifs with hk hi
  · change (t.rows.map fun x => if key x = key r then f.apply x else x).filter p = _
    rw [List.filter_map]
    have hsame : t.rows.filter (p ∘ fun x => if key x = key r then f.apply x else x) =
        t.rows.filter p := by
      apply List.filter_congr
      intro x hx
      simp only [Function.comp_apply]
      split_ifs with hkey
      · rw [(hold x hx hkey).1, (hold x hx hkey).2]
      · rfl
    have hkeep : ∀ x ∈ t.rows.filter p, (if key x = key r then f.apply x else x) = id x := by
      intro x hx
      obtain ⟨hmem, hpx⟩ := List.mem_filter.mp hx
      refine if_neg fun hkey => ?_
      rw [(hold x hmem hkey).1] at hpx
      cases hpx
    rw [hsame, List.map_congr_left hkeep, List.map_id]
  · rfl
  · change (t.rows ++ [r]).filter p = _
    rw [List.filter_append]
    simp [hr]

theorem upsert_eq_none {t : IndexedTable ρ key index} {r : ρ} {f : Update key index} :
    t.upsert r f = none ↔ ¬ t.Has (key r) ∧ t.HasIndex (index r) := by
  unfold upsert
  split_ifs with hk hi <;> simp [hk]
  · exact hi
  · exact hi

theorem find?_upsertSkip {t : IndexedTable ρ key index} {r : ρ} {f : Update key index} (k : κ) :
    (t.upsertSkip r f).find? k =
      if key r = k ∧ (t.Has (key r) ∨ ¬ t.HasIndex (index r)) then
        some ((t.find? k).elim r f.apply) else t.find? k := by
  unfold upsertSkip
  cases hu : t.upsert r f with
  | some u =>
    have hok : t.Has (key r) ∨ ¬ t.HasIndex (index r) := by
      by_contra hn
      obtain ⟨hk, hi⟩ := not_or.mp hn
      rw [upsert_eq_none.mpr ⟨hk, not_not.mp hi⟩] at hu
      cases hu
    rw [Option.getD_some, find?_of_upsert hu]
    simp only [hok, and_true]
  | none =>
    obtain ⟨hk, hi⟩ := upsert_eq_none.mp hu
    rw [Option.getD_none, if_neg]
    exact fun h => h.2.elim hk (fun hn => hn hi)

theorem mem_of_upsert {t u : IndexedTable ρ key index} {r : ρ} {f : Update key index}
    (h : t.upsert r f = some u) {x : ρ} :
    x ∈ u ↔ (x ∈ t ∧ key x ≠ key r) ∨ (∃ o, o ∈ t ∧ key o = key r ∧ x = f.apply o) ∨
      (x = r ∧ ¬ t.Has (key r)) := by
  unfold upsert at h
  split_ifs at h with hk hi
  · obtain rfl := Option.some.inj h
    rw [mem_updateWhere]
    simp [hk]
  · obtain rfl := Option.some.inj h
    have hne : ∀ o, o ∈ t → key o ≠ key r := fun o ho hok => hk ⟨o, ho, hok⟩
    rw [mem_insert]
    constructor
    · rintro (hx | hx)
      · exact .inl ⟨hx, hne x hx⟩
      · exact .inr (.inr ⟨hx, hk⟩)
    · rintro (hx | ⟨o, ho, hok, _⟩ | hx)
      · exact .inl hx.1
      · exact absurd hok (hne o ho)
      · exact .inr hx.1

/-- After an upsert of a row that agrees with the one under its key, the pairs of constrained
values are those before and the row's own. -/
theorem pairs_of_upsert {t u : IndexedTable ρ key index} {r : ρ} {f : Update key index}
    (h : t.upsert r f = some u) (hr : ∀ o, o ∈ t → key o = key r → index o = index r)
    {k : κ} {i : υ} :
    (∃ x, x ∈ u ∧ key x = k ∧ index x = i) ↔
      (∃ x, x ∈ t ∧ key x = k ∧ index x = i) ∨ (key r = k ∧ index r = i) := by
  constructor
  · intro ⟨x, hx, hk, hi⟩
    rcases (mem_of_upsert h).mp hx with ⟨hx, _⟩ | ⟨o, ho, _, hxo⟩ | ⟨hxr, _⟩
    · exact .inl ⟨x, hx, hk, hi⟩
    · subst hxo
      exact .inl ⟨o, ho, (f.key_apply o).symm.trans hk, (f.index_apply o).symm.trans hi⟩
    · subst hxr
      exact .inr ⟨hk, hi⟩
  · intro hx
    have hold : ∀ x, x ∈ t → ∃ y, y ∈ u ∧ key y = key x ∧ index y = index x := by
      intro x hx
      by_cases hxr : key x = key r
      · exact ⟨f.apply x, (mem_of_upsert h).mpr (.inr (.inl ⟨x, hx, hxr, rfl⟩)), f.key_apply x,
          f.index_apply x⟩
      · exact ⟨x, (mem_of_upsert h).mpr (.inl ⟨hx, hxr⟩), rfl, rfl⟩
    rcases hx with ⟨x, hx, hk, hi⟩ | ⟨hk, hi⟩
    · obtain ⟨y, hy, hyk, hyi⟩ := hold x hx
      exact ⟨y, hy, hyk.trans hk, hyi.trans hi⟩
    · by_cases hh : t.Has (key r)
      · obtain ⟨o, ho, hok⟩ := hh
        obtain ⟨y, hy, hyk, hyi⟩ := hold o ho
        exact ⟨y, hy, hyk.trans (hok.trans hk), hyi.trans ((hr o ho hok).trans hi)⟩
      · exact ⟨r, (mem_of_upsert h).mpr (.inr (.inr ⟨rfl, hh⟩)), hk, hi⟩

/-- Where a key determines the indexed value, the upserts go through exactly when the indexed
value determines the key as well. -/
theorem upsertAll_isSome_iff (upd : ρ → Update key index) (rs : List ρ)
    (t : IndexedTable ρ key index)
    (ht : ∀ a, a ∈ t → ∀ b ∈ rs, key a = key b → index a = index b)
    (hrs : ∀ a ∈ rs, ∀ b ∈ rs, key a = key b → index a = index b) :
    (t.upsertAll upd rs).isSome ↔
      (∀ a, a ∈ t → ∀ b ∈ rs, index a = index b → key a = key b) ∧
        ∀ a ∈ rs, ∀ b ∈ rs, index a = index b → key a = key b := by
  induction rs generalizing t with
  | nil => simp [upsertAll]
  | cons r rs ih =>
    rw [upsertAll]
    cases hu : t.upsert r (upd r) with
    | none =>
      obtain ⟨hk, o, ho, hi⟩ := upsert_eq_none.mp hu
      refine iff_of_false (by simp) ?_
      intro h
      exact hk ⟨o, ho, h.1 o ho r List.mem_cons_self hi⟩
    | some u =>
      dsimp only
      have hro : ∀ o, o ∈ t → key o = key r → index o = index r :=
        fun o ho => ht o ho r List.mem_cons_self
      have hpair := fun (x : ρ) => pairs_of_upsert hu hro (k := key x) (i := index x)
      have hsrc : ∀ a, a ∈ u → (∃ x, x ∈ t ∧ key x = key a ∧ index x = index a) ∨
          (key r = key a ∧ index r = index a) := fun a ha => (hpair a).mp ⟨a, ha, rfl, rfl⟩
      have hmem : ∀ b ∈ rs, b ∈ r :: rs := fun b hb => List.mem_cons_of_mem r hb
      have hut : ∀ a, a ∈ u → ∀ b ∈ rs, key a = key b → index a = index b := by
        intro a ha b hb hk
        rcases hsrc a ha with ⟨x, hx, hxk, hxi⟩ | ⟨hrk, hri⟩
        · exact hxi.symm.trans (ht x hx b (hmem b hb) (hxk.trans hk))
        · exact hri.symm.trans (hrs r List.mem_cons_self b (hmem b hb) (hrk.trans hk))
      rw [ih u hut fun a ha b hb => hrs a (hmem a ha) b (hmem b hb)]
      constructor
      · intro ⟨h1, h2⟩
        have hold : ∀ a, a ∈ t → ∀ b ∈ rs, index a = index b → key a = key b := by
          intro a ha b hb hi
          obtain ⟨x, hx, hxk, hxi⟩ := (hpair a).mpr (.inl ⟨a, ha, rfl, rfl⟩)
          exact hxk.symm.trans (h1 x hx b hb (hxi.trans hi))
        have hnew : ∀ b ∈ rs, index r = index b → key r = key b := by
          intro b hb hi
          obtain ⟨x, hx, hxk, hxi⟩ := (hpair r).mpr (.inr ⟨rfl, rfl⟩)
          exact hxk.symm.trans (h1 x hx b hb (hxi.trans hi))
        refine ⟨?_, ?_⟩
        · intro a ha b hb hi
          rcases List.mem_cons.mp hb with hbr | hb
          · subst hbr
            by_cases hk : t.Has (key b)
            · obtain ⟨o, ho, hok⟩ := hk
              rw [eq_of_index ha ho (hi.trans (hro o ho hok).symm), hok]
            · have hn : t.upsert b (upd b) = none := upsert_eq_none.mpr ⟨hk, a, ha, hi⟩
              rw [hu] at hn
              cases hn
          · exact hold a ha b hb hi
        · intro a ha b hb hi
          rcases List.mem_cons.mp ha with har | har <;> rcases List.mem_cons.mp hb with hbr | hbr
          · rw [har, hbr]
          · subst har
            exact hnew b hbr hi
          · subst hbr
            exact (hnew a har hi.symm).symm
          · exact h2 a har b hbr hi
      · intro ⟨h1, h2⟩
        refine ⟨?_, fun a ha b hb => h2 a (hmem a ha) b (hmem b hb)⟩
        intro a ha b hb hi
        rcases hsrc a ha with ⟨x, hx, hxk, hxi⟩ | ⟨hrk, hri⟩
        · exact hxk.symm.trans (h1 x hx b (hmem b hb) (hxi.trans hi))
        · exact hrk.symm.trans (h2 r List.mem_cons_self b (hmem b hb) (hri.trans hi))

theorem mem_upsertSkip {t : IndexedTable ρ key index} {r : ρ} {f : Update key index} {x : ρ} :
    x ∈ t.upsertSkip r f ↔ (x ∈ t ∧ key x ≠ key r) ∨ (∃ o, o ∈ t ∧ key o = key r ∧ x = f.apply o) ∨
      (x = r ∧ ¬ t.Has (key r) ∧ ¬ t.HasIndex (index r)) := by
  unfold upsertSkip
  cases h : t.upsert r f with
  | some u =>
    have hn : ¬ (¬ t.Has (key r) ∧ t.HasIndex (index r)) := by
      rw [← upsert_eq_none (f := f), h]
      simp
    rw [Option.getD_some, mem_of_upsert h]
    refine or_congr_right (or_congr_right (and_congr_right fun _ => ?_))
    exact ⟨fun hk => ⟨hk, fun hi => hn ⟨hk, hi⟩⟩, And.left⟩
  | none =>
    obtain ⟨hk, hi⟩ := upsert_eq_none.mp h
    have hne : ∀ o, o ∈ t → key o ≠ key r := fun o ho hok => hk ⟨o, ho, hok⟩
    rw [Option.getD_none]
    constructor
    · intro hx
      exact .inl ⟨hx, hne x hx⟩
    · rintro (hx | ⟨o, ho, hok, _⟩ | hx)
      · exact hx.1
      · exact absurd hok (hne o ho)
      · exact absurd hi hx.2.2

theorem has_upsertSkip {t : IndexedTable ρ key index} {r : ρ} {f : Update key index} {k : κ} :
    (t.upsertSkip r f).Has k ↔ t.Has k ∨ (key r = k ∧ ¬ t.HasIndex (index r)) := by
  constructor
  · intro ⟨x, hx, hk⟩
    rcases mem_upsertSkip.mp hx with ⟨hx, _⟩ | ⟨o, ho, hok, rfl⟩ | ⟨rfl, _, hi⟩
    · exact .inl ⟨x, hx, hk⟩
    · exact .inl ⟨o, ho, (f.key_apply o).symm.trans hk⟩
    · exact .inr ⟨hk, hi⟩
  · intro h
    by_cases hr : t.Has (key r)
    · obtain ⟨o, ho, hok⟩ := hr
      rcases h with ⟨x, hx, hk⟩ | ⟨hk, _⟩
      · by_cases hxr : key x = key r
        · refine ⟨f.apply x, mem_upsertSkip.mpr (.inr (.inl ⟨x, hx, hxr, rfl⟩)), ?_⟩
          rw [f.key_apply, hk]
        · exact ⟨x, mem_upsertSkip.mpr (.inl ⟨hx, hxr⟩), hk⟩
      · refine ⟨f.apply o, mem_upsertSkip.mpr (.inr (.inl ⟨o, ho, hok, rfl⟩)), ?_⟩
        rw [f.key_apply, hok, hk]
    · rcases h with ⟨x, hx, hk⟩ | ⟨hk, hi⟩
      · exact ⟨x, mem_upsertSkip.mpr (.inl ⟨hx, fun hxr => hr ⟨x, hx, hxr⟩⟩), hk⟩
      · exact ⟨r, mem_upsertSkip.mpr (.inr (.inr ⟨rfl, hr, hi⟩)), hk⟩

theorem hasIndex_upsertSkip {t : IndexedTable ρ key index} {r : ρ} {f : Update key index} {u : υ} :
    (t.upsertSkip r f).HasIndex u ↔
      t.HasIndex u ∨ (index r = u ∧ ¬ t.Has (key r) ∧ ¬ t.HasIndex (index r)) := by
  constructor
  · intro ⟨x, hx, hi⟩
    rcases mem_upsertSkip.mp hx with ⟨hx, _⟩ | ⟨o, ho, _, rfl⟩ | ⟨rfl, hn⟩
    · exact .inl ⟨x, hx, hi⟩
    · exact .inl ⟨o, ho, (f.index_apply o).symm.trans hi⟩
    · exact .inr ⟨hi, hn⟩
  · intro h
    rcases h with ⟨x, hx, hi⟩ | ⟨hi, hn⟩
    · by_cases hxr : key x = key r
      · refine ⟨f.apply x, mem_upsertSkip.mpr (.inr (.inl ⟨x, hx, hxr, rfl⟩)), ?_⟩
        rw [f.index_apply, hi]
      · exact ⟨x, mem_upsertSkip.mpr (.inl ⟨hx, hxr⟩), hi⟩
    · exact ⟨r, mem_upsertSkip.mpr (.inr (.inr ⟨rfl, hn⟩)), hi⟩

theorem mem_insertIgnore {t : IndexedTable ρ key index} {r x : ρ} :
    x ∈ t.insertIgnore r ↔
      x ∈ t ∨ (x = r ∧ ¬ t.Has (key r) ∧ ¬ t.HasIndex (index r)) := by
  unfold insertIgnore
  split_ifs with hk hi
  · simp [hk]
  · simp [hi]
  · rw [mem_insert]
    simp [hk, hi]

end IndexedTable

end Relational
