import Mathlib.Data.List.Basic

namespace Scan

variable {α : Type} [DecidableEq α] {pat s t before after : List α} {a : α}

/-- The text around the first place where `pat` begins. -/
def splitOnce (pat : List α) : List α → Option (List α × List α)
  | [] => if pat.isEmpty then some ([], []) else none
  | a :: as =>
    if pat.isPrefixOf (a :: as) then some ([], (a :: as).drop pat.length)
    else (splitOnce pat as).map fun r => (a :: r.1, r.2)

theorem splitOnce_nil (h : pat ≠ []) : splitOnce pat [] = none := by
  rw [splitOnce, if_neg]
  simpa using h

theorem splitOnce_cons (h : ¬ pat <+: a :: s) :
    splitOnce pat (a :: s) = (splitOnce pat s).map fun r => (a :: r.1, r.2) := by
  rw [splitOnce, if_neg]
  rwa [List.isPrefixOf_iff_prefix]

theorem splitOnce_append (h : pat ≠ []) : splitOnce pat (pat ++ s) = some ([], s) := by
  obtain ⟨a, as, rfl⟩ := List.exists_cons_of_ne_nil h
  rw [List.cons_append, splitOnce, if_pos]
  · simp
  · rw [List.isPrefixOf_iff_prefix]
    exact List.prefix_append (a :: as) s

theorem splitOnce_eq_some (h : pat ≠ []) (hs : splitOnce pat s = some (before, after)) :
    s = before ++ pat ++ after := by
  induction s generalizing before with
  | nil => simp [splitOnce_nil h] at hs
  | cons a s ih =>
    rw [splitOnce] at hs
    split_ifs at hs with hpre
    · obtain ⟨rest, hrest⟩ := List.isPrefixOf_iff_prefix.mp hpre
      obtain ⟨rfl, rfl⟩ := Prod.mk.inj (Option.some.inj hs)
      rw [← hrest]
      simp
    · obtain ⟨⟨b, c⟩, hr, heq⟩ := Option.map_eq_some_iff.mp hs
      obtain ⟨rfl, rfl⟩ := Prod.mk.inj heq
      rw [ih hr]
      rfl

theorem splitOnce_eq_none (h : pat ≠ []) (hs : ¬ pat <:+: s) : splitOnce pat s = none := by
  cases hsplit : splitOnce pat s with
  | none => rfl
  | some r => exact absurd ⟨r.1, r.2, (splitOnce_eq_some h hsplit).symm⟩ hs

theorem splitOnce_singleton (hs : a ∉ s) : splitOnce [a] (s ++ a :: t) = some (s, t) := by
  induction s with
  | nil => simp [splitOnce]
  | cons b s ih =>
    obtain ⟨hb, hs⟩ := not_or.mp (fun h => hs (List.mem_cons.mpr h))
    simp [splitOnce, hb, ih hs]

theorem splitOnce_singleton_eq_none (hs : a ∉ s) : splitOnce [a] s = none :=
  splitOnce_eq_none (List.cons_ne_nil a []) fun h => hs (h.subset (List.mem_singleton_self a))

def replaceLoop (pat : List α) (f : List α → List α × List α) : Nat → List α → List α
  | 0, rest => rest
  | fuel + 1, rest =>
    match splitOnce pat rest with
    | none => rest
    | some (before, after) => before ++ (f after).1 ++ replaceLoop pat f fuel (f after).2

/-- Replace each place where `pat` begins, from left to right: `f` says, of the text after it, what
is written and what is left. -/
def replaceEach (pat : List α) (f : List α → List α × List α) (s : List α) : List α :=
  replaceLoop pat f s.length s

variable {f : List α → List α × List α}

theorem replaceLoop_cons (h : ¬ pat <+: a :: s) (fuel : Nat) :
    replaceLoop pat f fuel (a :: s) = a :: replaceLoop pat f fuel s := by
  cases fuel with
  | zero => rfl
  | succ fuel =>
    rw [replaceLoop, replaceLoop, splitOnce_cons h]
    cases splitOnce pat s with
    | none => rfl
    | some r => rfl

theorem replaceLoop_succ (hpat : pat ≠ []) (hf : ∀ s, (f s).2.length ≤ s.length) {fuel : Nat}
    (hfuel : s.length ≤ fuel) : replaceLoop pat f (fuel + 1) s = replaceLoop pat f fuel s := by
  induction fuel generalizing s with
  | zero =>
    have hs : s = [] := List.length_eq_zero_iff.mp (Nat.le_zero.mp hfuel)
    rw [hs]
    simp [replaceLoop, splitOnce_nil hpat]
  | succ fuel ih =>
    have hunfold : ∀ k, replaceLoop pat f (k + 1) s =
        match splitOnce pat s with
        | none => s
        | some (before, after) => before ++ (f after).1 ++ replaceLoop pat f k (f after).2 :=
      fun _ => rfl
    rw [hunfold, hunfold]
    cases hsplit : splitOnce pat s with
    | none => rfl
    | some r =>
      have hlen := congrArg List.length (splitOnce_eq_some hpat hsplit)
      have hpos : 0 < pat.length := List.length_pos_of_ne_nil hpat
      have hle := hf r.2
      simp only [List.length_append] at hlen
      simp only
      rw [ih (by omega)]

theorem replaceLoop_of_le (hpat : pat ≠ []) (hf : ∀ s, (f s).2.length ≤ s.length) {fuel : Nat}
    (hfuel : s.length ≤ fuel) : replaceLoop pat f fuel s = replaceEach pat f s := by
  induction hfuel with
  | refl => rfl
  | step hle ih => rw [replaceLoop_succ hpat hf hle, ih]

theorem replaceEach_cons (hpat : pat ≠ []) (hf : ∀ s, (f s).2.length ≤ s.length)
    (h : ¬ pat <+: a :: s) : replaceEach pat f (a :: s) = a :: replaceEach pat f s := by
  rw [replaceEach, replaceLoop_cons h, List.length_cons,
    replaceLoop_of_le hpat hf (Nat.le_succ s.length)]

theorem replaceEach_append (hpat : pat ≠ []) (hf : ∀ s, (f s).2.length ≤ s.length) :
    replaceEach pat f (pat ++ s) = (f s).1 ++ replaceEach pat f (f s).2 := by
  obtain ⟨a, as, ha⟩ := List.exists_cons_of_ne_nil hpat
  have hlen : (pat ++ s).length = (as ++ s).length + 1 := by simp [ha]
  have hle : (f s).2.length ≤ (as ++ s).length := by
    rw [List.length_append]
    exact Nat.le_trans (hf s) (Nat.le_add_left _ _)
  have hlen' : pat.length + s.length = (as ++ s).length + 1 := by rw [← hlen, List.length_append]
  rw [replaceEach, List.length_append, hlen', replaceLoop, splitOnce_append hpat]
  simp only [List.nil_append]
  rw [replaceLoop_of_le hpat hf hle]

/-- Nothing is replaced in a stretch where `pat` does not begin. -/
theorem replaceEach_stretch (hpat : pat ≠ []) (hf : ∀ s, (f s).2.length ≤ s.length)
    (h : ∀ r, r ≠ [] → r <:+ t → ¬ pat <+: r ++ s) :
    replaceEach pat f (t ++ s) = t ++ replaceEach pat f s := by
  induction t with
  | nil => rfl
  | cons a t ih =>
    have hhead : ¬ pat <+: a :: (t ++ s) := h (a :: t) (List.cons_ne_nil a t) List.suffix_rfl
    rw [List.cons_append, replaceEach_cons hpat hf hhead,
      ih fun r hr hrt => h r hr (hrt.trans (List.suffix_cons a t))]
    rfl

theorem replaceEach_eq_self (hpat : pat ≠ []) (h : ¬ pat <:+: s) : replaceEach pat f s = s := by
  rw [replaceEach]
  cases hlen : s.length with
  | zero => rfl
  | succ fuel => rw [replaceLoop, splitOnce_eq_none hpat h]

theorem forall_replaceEach (hpat : pat ≠ []) {P : α → Prop}
    (hf : ∀ s, (∀ x ∈ pat ++ s, P x) → ∀ x ∈ (f s).1 ++ (f s).2, P x) (hs : ∀ x ∈ s, P x) :
    ∀ x ∈ replaceEach pat f s, P x := by
  have hloop : ∀ fuel s, (∀ x ∈ s, P x) → ∀ x ∈ replaceLoop pat f fuel s, P x := by
    intro fuel
    induction fuel with
    | zero => exact fun s hs => hs
    | succ fuel ih =>
      intro s hs
      rw [replaceLoop]
      cases hsplit : splitOnce pat s with
      | none => exact hs
      | some r =>
        obtain ⟨before, after⟩ := r
        have heq := splitOnce_eq_some hpat hsplit
        have hwrite := hf after fun x hx => hs x (by rw [heq]; simp at hx ⊢; tauto)
        intro x hx
        simp only [List.mem_append, or_assoc] at hx
        rcases hx with hx | hx | hx
        · exact hs x (by rw [heq]; simp [hx])
        · exact hwrite x (List.mem_append_left _ hx)
        · exact ih _ (fun y hy => hwrite y (List.mem_append_right _ hy)) x hx
  exact hloop s.length s hs

/-- What each replacement leaves: it begins with the sign, or it is the pattern itself. -/
def Signs (sign : α) (pat : List α) (f : List α → List α × List α) : Prop :=
  ∀ s, (f s).1.head? = some sign ∨ f s = (pat, s)

theorem prefix_of_prefix_replaceEach (hpat : pat ≠ []) (hf : ∀ s, (f s).2.length ≤ s.length)
    {sign : α} (hsign : Signs sign pat f) {p : List α} (hp : sign ∉ p)
    (h : p <+: replaceEach pat f s) : p <+: s := by
  induction hlen : s.length using Nat.strongRecOn generalizing s p with
  | _ n ih =>
    by_cases hpre : pat <+: s
    · obtain ⟨r, rfl⟩ := hpre
      have hpos : 0 < pat.length := List.length_pos_of_ne_nil hpat
      rw [replaceEach_append hpat hf] at h
      rcases hsign r with hs | hs
      · cases p with
        | nil => exact List.nil_prefix
        | cons b p =>
          obtain ⟨x, xs, hx⟩ : ∃ x xs, (f r).1 = x :: xs := List.exists_cons_of_ne_nil
            (by intro hnil; rw [hnil] at hs; simp at hs)
          rw [hx] at hs h
          have hb : b = x := (List.cons_prefix_cons.mp h).1
          have hxs : x = sign := by simpa using hs
          exact absurd (by rw [← hxs, ← hb]; exact List.mem_cons_self) hp
      · rw [hs] at h
        rcases List.prefix_or_prefix_of_prefix h (List.prefix_append pat _) with hq | hq
        · exact hq.trans (List.prefix_append pat r)
        · obtain ⟨q, rfl⟩ := hq
          have hq : q <+: replaceEach pat f r := (List.prefix_append_right_inj pat).mp h
          have hq' : q <+: r := by
            refine ih r.length ?_ (fun hmem => hp (List.mem_append_right pat hmem)) hq rfl
            rw [← hlen, List.length_append]
            exact Nat.lt_add_of_pos_left hpos
          exact (List.prefix_append_right_inj pat).mpr hq'
    · cases s with
      | nil => exact h
      | cons a s =>
        rw [replaceEach_cons hpat hf hpre] at h
        cases p with
        | nil => exact List.nil_prefix
        | cons b p =>
          obtain ⟨rfl, hrest⟩ := List.cons_prefix_cons.mp h
          refine List.cons_prefix_cons.mpr ⟨rfl, ih s.length ?_ ?_ hrest rfl⟩
          · rw [← hlen, List.length_cons]
            exact Nat.lt_succ_self _
          · exact fun hmem => hp (List.mem_cons_of_mem b hmem)

end Scan
