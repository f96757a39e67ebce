import Mathlib.Data.List.Induction
import Mathlib.Data.List.Nodup

namespace TopTwo

variable {α : Type*} {better : α → α → Bool} {l : List α} {st : Option α × Option α} {x : α}

def track (better : α → α → Bool) (st : Option α × Option α) (x : α) : Option α × Option α :=
  if st.1.all (better x ·) then (some x, st.1)
  else if st.2.all (better x ·) then (st.1, some x)
  else st

/-- Of two different entries one is better. -/
structure Ranks (better : α → α → Bool) (l : List α) : Prop where
  total : ∀ a ∈ l, ∀ b ∈ l, a ≠ b → better a b = true ∨ better b a = true
  trans : ∀ a b c, better a b = true → better b c = true → better a c = true

/-- The first is better than all others, and the second than all others but the first. -/
structure Tops (better : α → α → Bool) (l : List α) (st : Option α × Option α) : Prop where
  none_iff : st.1 = none ↔ l = []
  second_none : st.1 = none → st.2 = none
  best : ∀ b, st.1 = some b → b ∈ l ∧ ∀ a ∈ l, a = b ∨ better b a = true
  alone : ∀ b, st.1 = some b → st.2 = none → ∀ a ∈ l, a = b
  second : ∀ b c, st.1 = some b → st.2 = some c →
    c ∈ l ∧ c ≠ b ∧ ∀ a ∈ l, a ≠ b → a = c ∨ better c a = true

theorem Ranks.sublist {l' : List α} (h : Ranks better l) (hsub : l'.Sublist l) : Ranks better l' :=
  ⟨fun a ha b hb => h.total a (hsub.subset ha) b (hsub.subset hb), h.trans⟩

theorem Tops.lead {b : α} (h : Tops better l st) (hr : Ranks better (l ++ [x])) (hx : x ∉ l)
    (hb : st.1 = some b) (hxb : better x b = true) : Tops better (l ++ [x]) (some x, some b) := by
  obtain ⟨hbl, hall⟩ := h.best b hb
  have hne : b ≠ x := fun heq => hx (heq ▸ hbl)
  have hbeats : ∀ a ∈ l, better x a = true := by
    intro a ha
    cases hall a ha with
    | inl heq => exact heq ▸ hxb
    | inr hba => exact hr.trans x b a hxb hba
  refine ⟨by simp, nofun, ?_, nofun, ?_⟩
  · intro b' hb'
    obtain rfl := Option.some.inj hb'
    refine ⟨List.mem_append_right l (List.mem_singleton.mpr rfl), fun a ha => ?_⟩
    cases List.mem_append.mp ha with
    | inl hal => exact Or.inr (hbeats a hal)
    | inr hax => exact Or.inl (List.mem_singleton.mp hax)
  · intro b' c hb' hc
    obtain rfl := Option.some.inj hb'
    obtain rfl := Option.some.inj hc
    refine ⟨List.mem_append_left _ hbl, hne, fun a ha hax => ?_⟩
    cases List.mem_append.mp ha with
    | inl hal => exact hall a hal
    | inr hmem => exact absurd (List.mem_singleton.mp hmem) hax

theorem Tops.follow {b c : α} (h : Tops better l st) (hb : st.1 = some b)
    (hbx : better b x = true) (hc : c ∈ l ++ [x]) (hne : c ≠ b)
    (hall : ∀ a ∈ l ++ [x], a ≠ b → a = c ∨ better c a = true) :
    Tops better (l ++ [x]) (some b, some c) := by
  obtain ⟨hbl, hbest⟩ := h.best b hb
  refine ⟨by simp, nofun, ?_, nofun, ?_⟩
  · intro b' hb'
    obtain rfl := Option.some.inj hb'
    refine ⟨List.mem_append_left _ hbl, fun a ha => ?_⟩
    cases List.mem_append.mp ha with
    | inl hal => exact hbest a hal
    | inr hax => exact Or.inr (List.mem_singleton.mp hax ▸ hbx)
  · intro b' c' hb' hc'
    obtain rfl := Option.some.inj hb'
    obtain rfl := Option.some.inj hc'
    exact ⟨hc, hne, hall⟩

theorem Tops.track (h : Tops better l st) (hr : Ranks better (l ++ [x])) (hx : x ∉ l) :
    Tops better (l ++ [x]) (track better st x) := by
  have hxmem : x ∈ l ++ [x] := List.mem_append_right l (List.mem_singleton.mpr rfl)
  obtain ⟨first, second⟩ := st
  cases first with
  | none =>
    obtain rfl := h.none_iff.mp rfl
    obtain rfl : second = none := h.second_none rfl
    have htrack : TopTwo.track better (none, none) x = (some x, none) := rfl
    rw [htrack]
    refine ⟨by simp, nofun, ?_, ?_, nofun⟩
    · intro b hb
      obtain rfl := Option.some.inj hb
      exact ⟨List.mem_singleton.mpr rfl, fun a ha => Or.inl (List.mem_singleton.mp ha)⟩
    · intro b hb _ a ha
      obtain rfl := Option.some.inj hb
      exact List.mem_singleton.mp ha
  | some b =>
    obtain ⟨hbl, hall⟩ := h.best b rfl
    by_cases hxb : better x b = true
    · rw [TopTwo.track, if_pos (by simpa using hxb)]
      exact h.lead hr hx rfl hxb
    · have hne : x ≠ b := fun heq => hx (heq ▸ hbl)
      have hbx := (hr.total x hxmem b (List.mem_append_left _ hbl) hne).resolve_left hxb
      rw [TopTwo.track, if_neg (by simpa using hxb)]
      cases second with
      | none =>
        rw [if_pos (show Option.all (better x ·) (none : Option α) = true from rfl)]
        refine h.follow rfl hbx hxmem hne fun a ha hab => ?_
        cases List.mem_append.mp ha with
        | inl hal => exact absurd (h.alone b rfl rfl a hal) hab
        | inr hax => exact Or.inl (List.mem_singleton.mp hax)
      | some c =>
        obtain ⟨hcl, hcb, hcall⟩ := h.second b c rfl rfl
        by_cases hxc : better x c = true
        · rw [if_pos (by simpa using hxc)]
          refine h.follow rfl hbx hxmem hne fun a ha hab => ?_
          cases List.mem_append.mp ha with
          | inl hal =>
            cases hcall a hal hab with
            | inl heq => exact Or.inr (heq ▸ hxc)
            | inr hca => exact Or.inr (hr.trans x c a hxc hca)
          | inr hax => exact Or.inl (List.mem_singleton.mp hax)
        · have hxc' : x ≠ c := fun heq => hx (heq ▸ hcl)
          have hcx := (hr.total x hxmem c (List.mem_append_left _ hcl) hxc').resolve_left hxc
          rw [if_neg (by simpa using hxc)]
          refine h.follow rfl hbx (List.mem_append_left _ hcl) hcb fun a ha hab => ?_
          cases List.mem_append.mp ha with
          | inl hal => exact hcall a hal hab
          | inr hax => exact Or.inr (List.mem_singleton.mp hax ▸ hcx)

theorem tops_foldl (hnd : l.Nodup) (hr : Ranks better l) :
    Tops better l (l.foldl (TopTwo.track better) (none, none)) := by
  induction l using List.reverseRecOn with
  | nil =>
    exact ⟨by simp, fun _ => rfl, nofun, nofun,
      nofun⟩
  | append_singleton l x ih =>
    rw [List.foldl_append]
    have hnd' := List.nodup_append.mp hnd
    have hsub : l.Sublist (l ++ [x]) := List.sublist_append_left l [x]
    have hx : x ∉ l := fun hmem => hnd'.2.2 x hmem x (List.mem_singleton.mpr rfl) rfl
    exact (ih hnd'.1 (hr.sublist hsub)).track hr hx

end TopTwo
