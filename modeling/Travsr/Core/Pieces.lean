import Travsr.Core.ImportNormalisation

namespace Travsr.Core.Text

/-! ### Pieces between separators -/

variable {p : Char → Bool}

theorem pieces_induction {motive : List Char → Prop}
    (last : ∀ w, (∀ c ∈ w, p c = false) → motive w)
    (more : ∀ w d rest, (∀ c ∈ w, p c = false) → p d = true → motive rest →
      motive (w ++ d :: rest)) (s : List Char) : motive s := by
  have hsplit : ∀ n (s : List Char), s.length ≤ n → motive s := by
    intro n
    induction n with
    | zero =>
      intro s hs
      have hnil : s = [] := List.length_eq_zero_iff.mp (by omega)
      subst hnil
      exact last [] (by simp)
    | succ n ih =>
      intro s hs
      have hspan : s.takeWhile (fun c => !p c) ++ s.dropWhile (fun c => !p c) = s :=
        List.takeWhile_append_dropWhile
      have hfree : ∀ c ∈ s.takeWhile (fun c => !p c), p c = false := by
        intro c hc
        simpa using List.mem_takeWhile_imp hc
      cases hrest : s.dropWhile (fun c => !p c) with
      | nil =>
        rw [hrest, List.append_nil] at hspan
        exact last s (hspan ▸ hfree)
      | cons d rest =>
        have hd : p d = true := by
          have h := List.dropWhile_get_zero_not (fun c => !p c) s (by rw [hrest]; simp)
          simpa [hrest] using h
        have hlen : rest.length ≤ n := by
          have h := congrArg List.length hspan
          rw [hrest] at h
          simp only [List.length_append, List.length_cons] at h
          omega
        rw [hrest] at hspan
        rw [← hspan]
        exact more _ d rest hfree hd (ih rest hlen)
  exact hsplit s.length s le_rfl

theorem splitOn_append_separator {d : Char} (hd : p d = true) (a b : List Char) :
    splitOn p (a ++ d :: b) = splitOn p a ++ splitOn p b := by
  induction a using pieces_induction (p := p) with
  | last w hw => rw [splitOn_append_cons hw hd, splitOn_of_not_mem hw, List.singleton_append]
  | more w e rest hw he ih =>
    rw [List.append_assoc, List.cons_append, splitOn_append_cons hw he, ih,
      splitOn_append_cons hw he, List.cons_append]

theorem lines_append (a b : List Char) :
    lines (String.ofList (a ++ '\n' :: b)) =
      (splitOn (fun c => c == '\n') a).map stripCr ++ lines (String.ofList b) := by
  have hne := splitOn_ne_nil (fun c => c == '\n') b
  unfold lines
  rw [String.toList_ofList, String.toList_ofList, splitOn_append_separator rfl]
  dsimp only
  rw [List.dropLast_append_of_ne_nil hne, List.getLast?_append_of_ne_nil _ hne, List.map_append,
    List.append_assoc]

theorem lines_cons {l : List Char} (h : '\n' ∉ l) (rest : List Char) :
    lines (String.ofList (l ++ '\n' :: rest)) = stripCr l :: lines (String.ofList rest) := by
  rw [lines_append, splitOn_of_not_mem]
  · rfl
  · intro c hc
    refine beq_eq_false_iff_ne.mpr ?_
    rintro rfl
    exact h hc

theorem lines_unlines {ls : List (List Char)} (h : ∀ l ∈ ls, '\n' ∉ l ∧ stripCr l = l) :
    lines (String.ofList (ls.flatMap fun l => l ++ ['\n'])) = ls := by
  induction ls with
  | nil => rfl
  | cons l ls ih =>
    obtain ⟨hl, hls⟩ := List.forall_mem_cons.mp h
    rw [List.flatMap_cons, List.append_assoc, List.singleton_append, lines_cons hl.1, hl.2, ih hls]

theorem infix_of_mem_dropLast {s w : List Char} (h : w ∈ (splitOn p s).dropLast) :
    ∃ d, p d = true ∧ w ++ [d] <:+: s := by
  induction s using pieces_induction (p := p) with
  | last v hv =>
    rw [splitOn_of_not_mem hv] at h
    simp at h
  | more v d rest hv hd ih =>
    rw [splitOn_append_cons hv hd, List.dropLast_cons_of_ne_nil (splitOn_ne_nil p rest)] at h
    rcases List.mem_cons.mp h with rfl | hrest
    · exact ⟨d, hd, [], rest, by simp⟩
    · obtain ⟨e, he, hin⟩ := ih hrest
      exact ⟨e, he, hin.trans ⟨v ++ [d], [], by simp⟩⟩

theorem suffix_of_getLast {s w : List Char} (h : (splitOn p s).getLast? = some w) :
    s = w ∨ ∃ d, p d = true ∧ d :: w <:+ s := by
  induction s using pieces_induction (p := p) with
  | last v hv =>
    rw [splitOn_of_not_mem hv] at h
    exact Or.inl (by simpa using h)
  | more v d rest hv hd ih =>
    rw [splitOn_append_cons hv hd, List.getLast?_cons_of_ne_nil (splitOn_ne_nil p rest)] at h
    apply Or.inr
    rcases ih h with rfl | ⟨e, he, hsuf⟩
    · exact ⟨d, hd, List.suffix_append v _⟩
    · exact ⟨e, he, hsuf.trans ((List.suffix_cons d rest).trans (List.suffix_append v _))⟩

theorem getLast_of_suffix {s w : List Char} {d : Char} (hd : p d = true)
    (hw : ∀ c ∈ w, p c = false) (h : d :: w <:+ s) : (splitOn p s).getLast? = some w := by
  obtain ⟨before, rfl⟩ := h
  rw [splitOn_append_separator hd, splitOn_of_not_mem hw]
  simp

theorem mem_dropLast_of_infix {s t : List Char} {d : Char} (hd : p d = true)
    (ht : ∀ c ∈ t, p c = false) (h : t ++ [d] <:+: s) :
    ∃ w ∈ (splitOn p s).dropLast, t <:+ w := by
  obtain ⟨before, after, rfl⟩ := h
  obtain ⟨pieces, x, -, hpieces⟩ := splitOn_append ht before
  have hs : before ++ (t ++ [d]) ++ after = (before ++ t) ++ d :: after := by simp
  rw [hs, splitOn_append_separator hd, hpieces,
    List.dropLast_append_of_ne_nil (splitOn_ne_nil p after)]
  exact ⟨x ++ t, by simp, List.suffix_append x t⟩

theorem splitOn_prefix_iff {sep : Char} {a b : List Char} :
    splitOn (· = sep) a <+: splitOn (· = sep) b ↔ b = a ∨ ∃ rest, b = a ++ sep :: rest := by
  constructor
  · intro h
    induction a using pieces_induction (p := fun c => decide (c = sep)) generalizing b with
    | last w hw =>
      rw [splitOn_of_not_mem hw] at h
      induction b using pieces_induction (p := fun c => decide (c = sep)) with
      | last v hv =>
        rw [splitOn_of_not_mem hv] at h
        exact .inl (List.cons_prefix_cons.mp h).1.symm
      | more v d rest hv hd _ =>
        rw [splitOn_append_cons hv hd] at h
        rw [(List.cons_prefix_cons.mp h).1, of_decide_eq_true hd]
        exact .inr ⟨rest, rfl⟩
    | more w d more hw hd ih =>
      rw [splitOn_append_cons hw hd] at h
      induction b using pieces_induction (p := fun c => decide (c = sep)) with
      | last v hv =>
        rw [splitOn_of_not_mem hv] at h
        exact absurd (List.prefix_nil.mp (List.cons_prefix_cons.mp h).2) (splitOn_ne_nil _ more)
      | more v e rest hv he _ =>
        rw [splitOn_append_cons hv he] at h
        obtain ⟨hvw, htail⟩ := List.cons_prefix_cons.mp h
        rw [of_decide_eq_true hd, of_decide_eq_true he, hvw]
        rcases ih htail with rfl | ⟨after, rfl⟩
        · exact .inl rfl
        · exact .inr ⟨after, by simp⟩
  · rintro (rfl | ⟨rest, rfl⟩)
    · exact List.prefix_rfl
    · rw [splitOn_append_separator (by simp)]
      exact List.prefix_append _ _

/-! ### Texts in texts -/

theorem afterFirst_isSome {pat s : List Char} : (afterFirst pat s).isSome = true ↔ pat <:+: s := by
  induction s with
  | nil =>
    rw [afterFirst]
    cases pat <;> simp
  | cons c s ih =>
    rw [afterFirst, List.infix_cons_iff, ← ih]
    by_cases hpre : pat.isPrefixOf (c :: s) = true
    · rw [if_pos hpre]
      simp [List.isPrefixOf_iff_prefix.mp hpre]
    · rw [if_neg hpre]
      have hnot : ¬ pat <+: c :: s := fun h => hpre (List.isPrefixOf_iff_prefix.mpr h)
      simp [hnot]

theorem contains_iff {s pat : String} : contains s pat = true ↔ pat.toList <:+: s.toList :=
  afterFirst_isSome

theorem contains_char {s pat : String} {c : Char} (hpat : pat.toList = [c]) :
    contains s pat = true ↔ c ∈ s.toList := by
  rw [contains_iff, hpat]
  apply Iff.intro
  · intro h
    exact h.subset (by simp)
  · intro h
    obtain ⟨before, after, hs⟩ := List.append_of_mem h
    exact ⟨before, after, by simp [hs]⟩

theorem afterLast_eq_none {c : Char} {s : List Char} (h : c ∉ s) : afterLast [c] s = none := by
  induction s with
  | nil => rfl
  | cons x s ih =>
    rw [List.mem_cons, not_or] at h
    rw [afterLast, ih h.2]
    simp [h.1]

theorem afterLast_last {c : Char} {ext : List Char} (h : c ∉ ext) (stem : List Char) :
    afterLast [c] (stem ++ c :: ext) = some ext := by
  induction stem with
  | nil =>
    rw [List.nil_append, afterLast, afterLast_eq_none h]
    simp
  | cons x stem ih => rw [List.cons_append, afterLast, ih]

theorem rsplitOnce_eq_none {c : Char} {s : List Char} (h : c ∉ s) : rsplitOnce c s = none := by
  simp [rsplitOnce, afterLast_eq_none h]

theorem rsplitOnce_last {c : Char} {ext : List Char} (h : c ∉ ext) (stem : List Char) :
    rsplitOnce c (stem ++ c :: ext) = some (stem, ext) := by
  have hlen : (stem ++ c :: ext).length - ext.length - 1 = stem.length := by
    simp only [List.length_append, List.length_cons]
    omega
  rw [rsplitOnce, afterLast_last h, Option.map_some, hlen, List.take_left]

end Travsr.Core.Text
