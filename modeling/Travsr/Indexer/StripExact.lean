import Travsr.Indexer.StripInverse
import Travsr.Lib.Jsonc.Tight

namespace Travsr.Indexer

open Jsonc Travsr.Cli

/-! ### Strings stay as they are -/

theorem strings_skipGap (s : List Byte) : strings .text (skipGap s) = strings .text s := by
  rcases skipGap_spec s with ⟨hbehind, -⟩ | ⟨e, hbehind, hend, -, hnil⟩
  · exact (strings_behind hbehind).symm
  · rw [hnil, strings_behind hbehind, strings_looseEnd hend]
    rfl

def OpensOn (s : List Byte) : Prop := s.head? = some slash ∨ s.head? = some asterisk

theorem not_opensOn_cons {b : Byte} (hslash : b ≠ slash) (hstar : b ≠ asterisk) (s : List Byte) :
    ¬ OpensOn (b :: s) := by
  simp [OpensOn, hslash, hstar]

theorem not_opensOn_behind {c : Byte} (hc : Closing c) {t r : List Byte} (h : Behind t (c :: r)) :
    ¬ OpensOn (strip false t) := by
  have hclose : ¬ OpensOn (strip false (c :: r)) := by
    rw [strip_plain hc.plain]
    refine not_opensOn_cons hc.plain.slash ?_ _
    rintro rfl
    exact absurd hc.closer (by decide)
  generalize hu : c :: r = u at h
  induction h with
  | none => exact hu ▸ hclose
  | formFeed _ _ =>
    rw [strip_plain ⟨by decide, by decide, by decide⟩]
    exact not_opensOn_cons (by decide) (by decide) _
  | @trivia x t _ hrest _ =>
    have hskip : skipGap (x.bytes ++ t) = c :: r := by
      rw [skipGap_trivia, skipGap_behind hrest, ← hu, hc.stops r]
    cases x with
    | blank b =>
      show ¬ OpensOn (strip false (b.byte :: t))
      rw [strip_plain (plain_blank b)]
      cases b <;> exact not_opensOn_cons (by decide) (by decide) _
    | line body =>
      rw [strip_opens (.inl rfl), hskip]
      exact hclose
    | block body =>
      rw [strip_opens (.inr rfl), hskip]
      exact hclose

theorem closing_of_isCloser {c : Byte} (h : isCloser c = true) : Closing c := by
  simp only [isCloser, Bool.or_eq_true, decide_eq_true_eq] at h
  rcases h with rfl | rfl
  · exact closing_rbrace
  · exact closing_rbracket

/-- Behind a slash that opens no comment the loop writes nothing that would make it open one. -/
theorem not_opensOn_strip {s : List Byte} (h : ¬ OpensOn s) : ¬ OpensOn (strip false s) := by
  cases s with
  | nil =>
    rw [strip_nil]
    exact h
  | cons b s =>
    obtain ⟨hslash, hstar⟩ : b ≠ slash ∧ b ≠ asterisk := by
      simpa [OpensOn, not_or] using h
    by_cases hquote : b = quote
    · rw [hquote, strip_quote]
      exact not_opensOn_cons (by decide) (by decide) _
    by_cases hcomma : b = comma
    · rw [hcomma, strip_comma]
      split_ifs with hcloses
      · rcases skipGap_spec s with ⟨hbehind, -⟩ | ⟨e, -, -, -, hnil⟩
        · generalize skipGap s = j at hcloses hbehind
          cases j with
          | nil => simp [closes] at hcloses
          | cons c r =>
            rw [closes_cons] at hcloses
            exact not_opensOn_behind (closing_of_isCloser hcloses) hbehind
        · simp [hnil, closes] at hcloses
      · exact not_opensOn_cons (by decide) (by decide) _
    · rw [strip_plain ⟨hquote, hslash, hcomma⟩]
      exact not_opensOn_cons hslash hstar _

theorem strings_slash {s : List Byte} (h : ¬ OpensOn s) :
    strings .text (slash :: s) = strings .text s := by
  have hopen : strings .text (slash :: s) = strings .slash s := rfl
  rw [hopen]
  cases s with
  | nil => rfl
  | cons b s =>
    obtain ⟨hslash, hstar⟩ : b ≠ slash ∧ b ≠ asterisk := by
      simpa [OpensOn, not_or] using h
    have hstep : Mode.slash.step b = Mode.text.step b := by
      simp [Mode.step, hslash, hstar]
    rw [strings, strings, hstep]
    rfl

def modeOf (inString : Bool) : Mode := if inString then .str else .text

/-- The loop leaves every string of the text as it is, one that is cut off by the end included. -/
theorem strings_strip (inString : Bool) (s : List Byte) :
    strings (modeOf inString) (strip inString s) = strings (modeOf inString) s := by
  fun_induction strip inString s with
  | case1 => rfl
  | case2 => rfl
  | case3 d s ih =>
    have hstep : Mode.str.step backslash = .esc := rfl
    show strings .str _ = strings .str _
    rw [strings_inside rfl, strings_inside rfl, hstep, strings_inside rfl, strings_inside rfl]
    exact congrArg (backslash :: d :: ·) ih
  | case4 c s hc ih =>
    have hstep : Mode.str.step c = modeOf (c ≠ quote) := by
      by_cases hquote : c = quote
      · simp [Mode.step, modeOf, hquote]
      · simp [Mode.step, modeOf, hquote, hc]
    show strings .str _ = strings .str _
    rw [strings_inside rfl, strings_inside rfl, hstep, ih]
  | case5 s ih =>
    show quote :: strings .str _ = quote :: strings .str _
    exact congrArg (quote :: ·) ih
  | case6 c s _ _ ih => exact ih.trans (strings_skipGap (c :: s))
  | case7 c s hquote _ hcomma ih =>
    rw [hcomma.1]
    exact ih.trans (strings_text (by decide) (by decide) s).symm
  | case8 c s hquote hopens _ ih =>
    show strings .text _ = strings .text _
    by_cases hslash : c = slash
    · have hon : ¬ OpensOn s := by
        intro hon
        rcases hon with hon | hon <;> simp [opensLine, opensBlock, hslash, hon] at hopens
      rw [hslash, strings_slash hon, strings_slash (not_opensOn_strip hon)]
      exact ih
    · rw [strings_text hquote hslash, strings_text hquote hslash]
      exact ih

/-! ### When nothing but JSONC is made JSON -/

variable {N : Type} (lits : Literals N)

/-- What is left of the text is JSON exactly when the text is JSONC, of the same value, and its
strings stay as they are. -/
def StripsExactly (t : List Byte) : Prop :=
  (∀ v : Value N, JsonText lits (stripJsonc t) v ↔ JsoncText lits t v) ∧
    strings .text (stripJsonc t) = strings .text t

theorem stripsExactly_iff (t : List Byte) :
    StripsExactly lits t ↔ ¬ (TakesLiberty t ∧ ∃ v, LooseText lits t v) := by
  constructor
  · rintro ⟨hexact, -⟩ ⟨hliberty, v, hloose⟩
    have hjsonc := (hexact v).mp (jsonText_strip lits hloose)
    exact ((jsoncText_iff lits).mp hjsonc).2 hliberty
  · intro h
    refine ⟨fun v => ⟨fun hjson => ?_, fun hjsonc => ?_⟩, strings_strip false t⟩
    · have hloose := looseText_of_strip lits hjson
      exact jsoncText_of_loose lits hloose fun hliberty => h ⟨hliberty, v, hloose⟩
    · exact jsonText_strip lits (looseText_of_jsonc lits hjsonc)

/-- Numbers without sign, fraction and exponent, and strings without escapes. -/
def plainLiterals : Literals Nat where
  num w :=
    if !w.isEmpty && w.all (fun b => byte 48 ≤ b && b ≤ byte 57) && (w.head? ≠ some (byte 48) || w.length = 1) then
      some (w.foldl (fun n b => 10 * n + (b.val - 48)) 0)
    else none
  str w := if w.any (· = backslash) then none else some w.tail.dropLast

/-- `1/**/2` -/
def cutNumber : List Byte := [byte 49, slash, asterisk, asterisk, slash, byte 50]

theorem loose_cutNumber : LooseText plainLiterals cutNumber (.scalar (.num 12)) := by
  have hcomment : Comments ((Trivia.block ⟨[], by decide⟩).bytes ++ [50]) [50] :=
    .some (by simp [Trivia.IsComment]) (.none _)
  have hatom : LooseAtom [49, 50] cutNumber [] := .next 49 hcomment (.last 50 [])
  have hgap : ∀ t, LooseGap t t := fun t => .comments (.none t)
  exact ⟨.atom ⟨49, [50], List.all_eq_true.mp rfl⟩, rfl, _, _, _, hgap _, hatom, hgap _, .none⟩

theorem cutNumber_not_exact : ¬ StripsExactly plainLiterals cutNumber := by
  rintro ⟨hexact, -⟩
  have hjsonc := (hexact _).mp (jsonText_strip plainLiterals loose_cutNumber)
  exact ((jsoncText_iff plainLiterals).mp hjsonc).2 (by decide)

end Travsr.Indexer
