import Travsr.Lib.PosixQuiet
import Mathlib.Data.List.Count

/-! What the shell keeps of a text: no more backslashes than it was given, and every character that
stands for itself. -/

namespace PosixShell

namespace State

variable {σ τ : State} {c : Char}

def text (σ : State) : List Char := σ.words.flatten ++ σ.word.getD []

theorem text_put (σ : State) (c : Char) : (σ.put c).text = σ.text ++ [c] :=
  (List.append_assoc _ _ _).symm

theorem text_openQuote (σ : State) (m : Mode) : (σ.openQuote m).text = σ.text := rfl

theorem flatten_endWord (σ : State) : σ.endWord.words.flatten = σ.text := by
  unfold endWord text
  cases σ.word with
  | none => simp
  | some w => simp

theorem text_endWord (σ : State) : σ.endWord.text = σ.text := by
  rw [text, endWord_word, flatten_endWord]
  exact List.append_nil _

theorem text_of_not_begun (h : ¬σ.Begun) : σ.text = [] := by
  have hwords : σ.endWord.words = [] := not_not.mp (mt (begun_iff σ).mpr h)
  rw [← flatten_endWord, hwords]
  rfl

/-! ### Backslashes -/

def Mode.Waits (m : Mode) : Prop := m = .escaped ∨ m = .doubleEscaped

instance (m : Mode) : Decidable (Mode.Waits m) := inferInstanceAs (Decidable (_ ∨ _))

def backslashes (σ : State) : Nat := σ.text.count '\\' + if Mode.Waits σ.mode then 1 else 0

theorem backslashes_of_not_waits {m : Mode} (hm : σ.mode = m) (h : ¬Mode.Waits m) :
    σ.backslashes = σ.text.count '\\' := by
  rw [backslashes, hm, if_neg h]
  rfl

theorem backslashes_of_waits {m : Mode} (hm : σ.mode = m) (h : Mode.Waits m) :
    σ.backslashes = σ.text.count '\\' + 1 := by
  rw [backslashes, hm, if_pos h]

theorem count_le_backslashes (σ : State) : σ.text.count '\\' ≤ σ.backslashes :=
  Nat.le_add_right _ _

theorem backslashes_put {m : Mode} (hm : σ.mode = m) (h : ¬Mode.Waits m) (c : Char) :
    (σ.put c).backslashes = σ.backslashes + [c].count '\\' := by
  have hput : (σ.put c).mode = m := hm
  rw [backslashes_of_not_waits hput h, backslashes_of_not_waits hm h, text_put, List.count_append]

theorem backslashes_put_mode {m : Mode} (h : ¬Mode.Waits m) (c : Char) :
    ({ σ.put c with mode := m } : State).backslashes = σ.text.count '\\' + [c].count '\\' := by
  have htext : ({ σ.put c with mode := m } : State).text = σ.text ++ [c] := text_put σ c
  rw [backslashes_of_not_waits rfl h, htext, List.count_append]

theorem backslashes_plainStep (hmode : σ.mode = .plain) (c : Char) :
    (σ.plainStep c).1.backslashes ≤ σ.backslashes + [c].count '\\' := by
  have hend : σ.endWord.mode = .plain := by rw [endWord_mode, hmode]
  have hbefore := backslashes_of_not_waits hmode (by decide)
  rw [hbefore]
  apply plainStep_cases (P := fun r => r.1.backslashes ≤ σ.text.count '\\' + [c].count '\\')
  case escape =>
    rintro rfl
    exact Nat.le_refl _
  case single => exact fun _ => Nat.le_add_right _ _
  case double => exact fun _ => Nat.le_add_right _ _
  case comment => exact fun _ => Nat.le_add_right _ _
  case blank =>
    intro _
    rw [backslashes_of_not_waits hend (by decide), text_endWord]
    exact Nat.le_add_right _ _
  case newline => exact fun _ => Nat.zero_le _
  case operator => exact fun _ => Nat.zero_le _
  case group => exact fun _ => Nat.zero_le _
  case bar =>
    intro _
    have htext : ({ σ.endWord with mode := .bar } : State).text = σ.text := text_endWord σ
    rw [backslashes_of_not_waits (m := .bar) rfl (by decide), htext]
    exact Nat.le_add_right _ _
  case redirect =>
    intro _
    have htext : (σ.redirect c).text = σ.text ++ [c] := by
      have hwords : (σ.redirect c).words.flatten = σ.text ++ [c] := by
        show (σ.endWord.words ++ [[c]]).flatten = σ.text ++ [c]
        rw [List.flatten_append, flatten_endWord]
        rfl
      have hword : (σ.redirect c).word = none := endWord_word σ
      rw [text, hwords, hword]
      exact List.append_nil _
    have hplain : (σ.redirect c).mode = .plain := hend
    have hafter := backslashes_of_not_waits hplain (by decide)
    rw [htext, List.count_append] at hafter
    exact Nat.le_of_eq hafter
  case other =>
    have hafter := backslashes_put hmode (by decide) c
    rw [hbefore] at hafter
    exact Nat.le_of_eq hafter

theorem backslashes_step (σ : State) (c : Char) :
    (σ.step c).1.backslashes ≤ σ.backslashes + [c].count '\\' := by
  show (σ.read c).1.backslashes ≤ σ.backslashes + [c].count '\\'
  unfold read
  cases hm : σ.mode with
  | plain => exact backslashes_plainStep hm c
  | escaped =>
    have hw : σ.backslashes = σ.text.count '\\' + 1 :=
      backslashes_of_waits hm (by decide)
    simp only
    split_ifs
    · exact Nat.le_add_right_of_le (count_le_backslashes σ)
    · have hput := backslashes_put_mode (σ := σ) (m := .plain) (by decide) c
      show ({ σ.put c with mode := .plain } : State).backslashes ≤ _
      omega
  | single =>
    simp only
    split_ifs
    · exact Nat.le_add_right_of_le (count_le_backslashes σ)
    · exact Nat.le_of_eq (backslashes_put hm (by decide) c)
  | double =>
    have hw : σ.backslashes = σ.text.count '\\' :=
      backslashes_of_not_waits hm (by decide)
    simp only
    split_ifs with hquote hslash
    · exact Nat.le_add_right_of_le (count_le_backslashes σ)
    · subst hslash
      rw [hw]
      exact Nat.le_refl _
    · exact Nat.le_of_eq (backslashes_put hm (by decide) c)
  | doubleEscaped =>
    have hw : σ.backslashes = σ.text.count '\\' + 1 :=
      backslashes_of_waits hm (by decide)
    simp only
    split_ifs
    · exact Nat.le_add_right_of_le (count_le_backslashes σ)
    · have hput := backslashes_put_mode (σ := σ) (m := .double) (by decide) c
      show ({ σ.put c with mode := .double } : State).backslashes ≤ _
      omega
    · have hput := backslashes_put_mode (σ := σ.put '\\') (m := .double) (by decide) c
      have hslash : (σ.put '\\').text.count '\\' = σ.text.count '\\' + 1 := by
        rw [text_put, List.count_append]
        rfl
      show ({ (σ.put '\\').put c with mode := .double } : State).backslashes ≤ _
      omega
  | comment =>
    simp only
    split_ifs
    · exact Nat.zero_le _
    · exact Nat.le_add_right _ _
  | bar =>
    simp only
    split_ifs
    · exact Nat.zero_le _
    · have hnew := backslashes_plainStep (σ := σ.clear true) rfl c
      have hzero : (σ.clear true).backslashes = 0 := rfl
      rw [hzero] at hnew
      exact Nat.le_trans hnew (by omega)

theorem backslashes_run (σ : State) (s : List Char) :
    (run σ s).1.backslashes ≤ σ.backslashes + s.count '\\' := by
  induction s generalizing σ with
  | nil => exact Nat.le_refl _
  | cons c s ih =>
    have hstep := backslashes_step σ c
    have hrest := ih (σ.step c).1
    have hcount : (c :: s).count '\\' = [c].count '\\' + s.count '\\' := by
      rw [← List.count_append]
      rfl
    rw [run_cons, hcount]
    show (run (σ.step c).1 s).1.backslashes ≤ _
    omega

/-! ### Characters that stand for themselves -/

/-- A character that neither escapes nor is escaped, and starts no comment. -/
structure Literal (σ : State) (c : Char) : Prop where
  quiet : Quiet c
  noEscape : σ.mode = .plain → c ≠ '\\'
  noComment : σ.mode = .plain → σ.word = none → c ≠ '#'
  notEscaped : σ.mode = .doubleEscaped → c ≠ '"' ∧ c ≠ '\\'
  mode : σ.mode = .plain ∨ σ.mode.Quoted

/-- What such a character does. -/
inductive Kept (σ : State) (c : Char) : State → Prop where
  | opens (m : Mode) (hmode : σ.mode = .plain)
      (hc : (c = '\'' ∧ m = .single) ∨ (c = '"' ∧ m = .double)) : Kept σ c (σ.openQuote m)
  | blank (hmode : σ.mode = .plain) (hc : c = ' ' ∨ c = '\t') : Kept σ c σ.endWord
  | char (hmode : σ.mode = .plain) (hquote : c ≠ '\'' ∧ c ≠ '"') (hblank : c ≠ ' ' ∧ c ≠ '\t') :
      Kept σ c (σ.put c)
  | closes (h : (σ.mode = .single ∧ c = '\'') ∨ (σ.mode = .double ∧ c = '"')) :
      Kept σ c { σ with mode := .plain }
  | inside (h : (σ.mode = .single ∧ c ≠ '\'') ∨ (σ.mode = .double ∧ c ≠ '"' ∧ c ≠ '\\')) :
      Kept σ c (σ.put c)
  | escape (hmode : σ.mode = .double) (hc : c = '\\') :
      Kept σ c { σ with mode := .doubleEscaped }
  | escaped (hmode : σ.mode = .doubleEscaped) (hc : c ≠ '"' ∧ c ≠ '\\') :
      Kept σ c { (σ.put '\\').put c with mode := .double }

theorem kept_plainStep (hmode : σ.mode = .plain) (h : Literal σ c) :
    Kept σ c (σ.plainStep c).1 := by
  have hquiet := h.quiet
  unfold Quiet special at hquiet
  simp only [List.mem_cons, List.not_mem_nil, or_false, not_or] at hquiet
  unfold plainStep
  rw [if_neg (h.noEscape hmode)]
  by_cases hsingle : c = '\''
  · rw [if_pos hsingle]
    exact Kept.opens .single hmode (Or.inl ⟨hsingle, rfl⟩)
  rw [if_neg hsingle]
  by_cases hdouble : c = '"'
  · rw [if_pos hdouble]
    exact Kept.opens .double hmode (Or.inr ⟨hdouble, rfl⟩)
  rw [if_neg hdouble, if_neg fun hc => h.noComment hmode hc.2 hc.1]
  by_cases hblank : c = ' ' ∨ c = '\t'
  · rw [if_pos hblank]
    exact Kept.blank hmode hblank
  rw [if_neg hblank, if_neg hquiet.1, if_neg (by tauto), if_neg (by tauto), if_neg (by tauto),
    if_neg (by tauto)]
  exact Kept.char hmode ⟨hsingle, hdouble⟩ (not_or.mp hblank)

theorem kept_step (h : Literal σ c) : ∃ τ, Kept σ c τ ∧ (σ.step c).1 = { τ with pos := σ.pos + 1 } := by
  refine ⟨(σ.read c).1, ?_, rfl⟩
  have hquiet := h.quiet
  unfold Quiet special at hquiet
  simp only [List.mem_cons, List.not_mem_nil, or_false, not_or] at hquiet
  unfold read
  rcases h.mode with hm | hm | hm | hm
  · rw [hm]
    exact kept_plainStep hm h
  · rw [hm]
    by_cases hc : c = '\''
    · simp only [if_pos hc]
      exact Kept.closes (Or.inl ⟨hm, hc⟩)
    · simp only [if_neg hc]
      exact Kept.inside (Or.inl ⟨hm, hc⟩)
  · rw [hm]
    by_cases hc : c = '"'
    · simp only [if_pos hc]
      exact Kept.closes (Or.inr ⟨hm, hc⟩)
    by_cases hslash : c = '\\'
    · simp only [if_neg hc, if_pos hslash]
      exact Kept.escape hm hslash
    · simp only [if_neg hc, if_neg hslash]
      exact Kept.inside (Or.inr ⟨hm, hc, hslash⟩)
  · rw [hm]
    obtain ⟨hquote, hslash⟩ := h.notEscaped hm
    have hnone : ¬(c = '$' ∨ c = '`' ∨ c = '"' ∨ c = '\\') := by tauto
    simp only [if_neg hquiet.1, if_neg hnone]
    exact Kept.escaped hm ⟨hquote, hslash⟩

end State

end PosixShell
