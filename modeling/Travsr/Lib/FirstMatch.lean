import Mathlib.Data.List.Perm.Basic

/-! Entries with an id and a key are settled in two walks. The first settles those that match at
once, and remembers the keys of some of them; the second settles the pending ones, by what is
remembered of their key or else on their own, and remembers their keys as it goes. -/

namespace FirstMatch

theorem exists_split_cons {α : Type} {P : List α → α → Prop} {m : α} {l : List α} :
    (∃ pre a post, m :: l = pre ++ a :: post ∧ P pre a) ↔
      P [] m ∨ ∃ pre a post, l = pre ++ a :: post ∧ P (m :: pre) a := by
  constructor
  · rintro ⟨pre, a, post, hl, hP⟩
    cases pre with
    | nil =>
      obtain ⟨rfl, _⟩ := List.cons.inj hl
      exact .inl hP
    | cons b pre =>
      obtain ⟨rfl, hrest⟩ := List.cons.inj hl
      exact .inr ⟨pre, a, post, hrest, hP⟩
  · rintro (hP | ⟨pre, a, post, rfl, hP⟩)
    · exact ⟨[], m, l, rfl, hP⟩
    · exact ⟨m :: pre, a, post, rfl, hP⟩

/-- How each entry can be settled. -/
@[ext] structure Rules (α ι κ : Type) where
  id : α → ι
  key : α → κ
  /-- At once, and its key is remembered. -/
  teaches : α → Prop
  /-- At once, for itself alone. -/
  alone : α → Prop
  /-- Left to the second walk. -/
  pending : α → Prop
  /-- On its own in the second walk, and its key is remembered from there. -/
  own : α → Prop

namespace Rules

variable {α ι κ : Type} {r : Rules α ι κ} {l l' pre post : List α} {a b : α} {i : ι}

/-- The first walk remembers the key. -/
def Taught (r : Rules α ι κ) (l : List α) (k : κ) : Prop := ∃ b ∈ l, r.teaches b ∧ r.key b = k

/-- The second walk has come to the key in this stretch. -/
def Learnt (r : Rules α ι κ) (l : List α) (k : κ) : Prop :=
  ∃ b ∈ l, r.pending b ∧ r.own b ∧ r.key b = k

theorem learnt_cons {k : κ} :
    r.Learnt (a :: l) k ↔ (r.pending a ∧ r.own a ∧ r.key a = k) ∨ r.Learnt l k := by
  simp [Learnt]

/-- The entry after `pre` is settled. -/
def Settles (r : Rules α ι κ) (l pre : List α) (a : α) : Prop :=
  r.teaches a ∨ r.alone a ∨
    (r.pending a ∧ (r.Taught l (r.key a) ∨ r.Learnt (pre ++ [a]) (r.key a)))

/-- An entry of the id is settled. -/
def Settled (r : Rules α ι κ) (l : List α) (i : ι) : Prop :=
  ∃ pre a post, l = pre ++ a :: post ∧ r.id a = i ∧ r.Settles l pre a

/-- The entry is settled wherever it stands. -/
def Sure (r : Rules α ι κ) (l : List α) (a : α) : Prop :=
  r.teaches a ∨ r.alone a ∨ (r.pending a ∧ (r.Taught l (r.key a) ∨ r.own a))

def SureId (r : Rules α ι κ) (l : List α) (i : ι) : Prop := ∃ a ∈ l, r.id a = i ∧ r.Sure l a

def NoOrphan (r : Rules α ι κ) (l : List α) : Prop :=
  ∀ a ∈ l, ∀ b ∈ l, r.key a = r.key b → r.Settled l (r.id a) → r.pending b → r.Settled l (r.id b)

theorem taught_perm (h : l'.Perm l) {k : κ} : r.Taught l' k ↔ r.Taught l k := by
  simp only [Taught, h.mem_iff]

theorem sure_perm (h : l'.Perm l) : r.Sure l' a ↔ r.Sure l a := by
  simp only [Sure, taught_perm h]

theorem sureId_perm (h : l'.Perm l) : r.SureId l' i ↔ r.SureId l i := by
  simp only [SureId, sure_perm h, h.mem_iff]

theorem Sure.settles (h : r.Sure l a) (pre : List α) : r.Settles l pre a := by
  refine h.imp_right (Or.imp_right fun hp => ⟨hp.1, hp.2.imp_right fun hown => ?_⟩)
  exact ⟨a, List.mem_append_right pre (List.mem_singleton_self a), hp.1, hown, rfl⟩

theorem SureId.settled (h : r.SureId l i) : r.Settled l i := by
  obtain ⟨a, ha, hid, hsure⟩ := h
  obtain ⟨pre, post, hl⟩ := List.append_of_mem ha
  exact ⟨pre, a, post, hl, hid, hsure.settles pre⟩

theorem Settles.sure_or_learnt (h : r.Settles l pre a) :
    r.Sure l a ∨ (r.pending a ∧ ∃ b ∈ pre ++ [a], r.pending b ∧ r.own b ∧ r.key b = r.key a) := by
  rcases h with hteach | halone | ⟨hp, htaught | hlearnt⟩
  · exact .inl (.inl hteach)
  · exact .inl (.inr (.inl halone))
  · exact .inl (.inr (.inr ⟨hp, .inl htaught⟩))
  · exact .inr ⟨hp, hlearnt⟩

theorem Settled.sureId
    (hshare : ∀ a ∈ l, ∀ b ∈ l, r.key a = r.key b → r.SureId l (r.id a) → r.pending b →
      r.SureId l (r.id b)) (h : r.Settled l i) : r.SureId l i := by
  obtain ⟨pre, c, post, hl, rfl, hc⟩ := h
  have hmem : c ∈ l := hl ▸ List.mem_append_right pre List.mem_cons_self
  rcases hc.sure_or_learnt with hsure | ⟨hp, e, he, hpe, hown, hkey⟩
  · exact ⟨c, hmem, rfl, hsure⟩
  · have hel : e ∈ l := by
      rw [hl]
      rcases List.mem_append.mp he with hpre | hlast
      · exact List.mem_append_left _ hpre
      · rw [List.mem_singleton.mp hlast]
        exact List.mem_append_right pre List.mem_cons_self
    exact hshare e hel c hmem hkey ⟨e, hel, rfl, .inr (.inr ⟨hpe, .inr hown⟩)⟩ hp

/-- In an order that begins with all entries of an id, the id is settled only when it is sure. -/
theorem sureId_of_settled_first (hid : ∀ x ∈ pre, r.id x = i) (hrest : ∀ x ∈ post, r.id x ≠ i)
    (h : r.Settled (pre ++ post) i) : r.SureId (pre ++ post) i := by
  obtain ⟨before, c, after, hl, hc, hsettles⟩ := h
  have hmem : c ∈ pre ++ post := hl ▸ List.mem_append_right before List.mem_cons_self
  have hfront : ∀ e ∈ before ++ [c], e ∈ pre := by
    rcases List.append_eq_append_iff.mp hl with ⟨w, hb, hp⟩ | ⟨w, hp, hw⟩
    · exact absurd hc (hrest c (hp ▸ List.mem_append_right w List.mem_cons_self))
    · cases w with
      | nil =>
        have hpost : c ∈ post := by
          rw [← List.nil_append post, ← hw]
          exact List.mem_cons_self
        exact absurd hc (hrest c hpost)
      | cons d w =>
        obtain ⟨rfl, _⟩ := List.cons.inj hw
        intro e he
        rw [hp, List.append_cons before c w]
        exact List.mem_append_left w he
  rcases hsettles.sure_or_learnt with hsure | ⟨_, e, he, hpe, hown, _⟩
  · exact ⟨c, hmem, hc, hsure⟩
  · exact ⟨e, List.mem_append_left post (hfront e he), hid e (hfront e he),
      .inr (.inr ⟨hpe, .inr hown⟩)⟩

/-- In every order no pending entry stays behind, and the same ids are settled, exactly when keys
share what is sure among their entries. -/
theorem noOrphan_iff [DecidableEq ι] (r : Rules α ι κ) (l : List α) :
    (∀ l', l'.Perm l → r.NoOrphan l' ∧ ∀ i, r.Settled l' i ↔ r.Settled l i) ↔
      ∀ a ∈ l, ∀ b ∈ l, r.key a = r.key b → r.SureId l (r.id a) → r.pending b →
        r.SureId l (r.id b) := by
  constructor
  · intro h a ha b hb hkey hsure hp
    have hperm := List.filter_append_perm (fun x => decide (r.id x = r.id b)) l
    have ha' : a ∈ l.filter (fun x => decide (r.id x = r.id b)) ++
        l.filter (fun x => !decide (r.id x = r.id b)) := hperm.mem_iff.mpr ha
    have hb' := hperm.mem_iff.mpr hb
    have hsettled := (h _ hperm).1 a ha' b hb' hkey ((sureId_perm hperm).mpr hsure).settled hp
    refine (sureId_perm hperm).mp (sureId_of_settled_first ?_ ?_ hsettled)
    · intro x hx
      simpa using (List.mem_filter.mp hx).2
    · intro x hx
      simpa using (List.mem_filter.mp hx).2
  · intro hshare l' hperm
    have hiff : ∀ i, r.Settled l' i ↔ r.SureId l i := by
      intro i
      refine ⟨fun h => (sureId_perm hperm).mp (h.sureId ?_), fun h =>
        ((sureId_perm hperm).mpr h).settled⟩
      intro a ha b hb hkey hsure hp
      exact (sureId_perm hperm).mpr
        (hshare a (hperm.mem_iff.mp ha) b (hperm.mem_iff.mp hb) hkey ((sureId_perm hperm).mp hsure) hp)
    refine ⟨?_, fun i => (hiff i).trans ⟨fun h => h.settled, fun h => h.sureId hshare⟩⟩
    intro a ha b hb hkey hsettled hp
    rw [hiff] at hsettled ⊢
    exact hshare a (hperm.mem_iff.mp ha) b (hperm.mem_iff.mp hb) hkey hsettled hp

end Rules

end FirstMatch
