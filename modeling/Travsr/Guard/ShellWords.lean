import Travsr.Guard.ShellCut
import Mathlib.Data.List.Count

/-! What the guard's own reading keeps of a text. -/

namespace Travsr.Guard

open Travsr.Core Core.Text

def isOddBlank (c : Char) : Bool := isWhitespace c && c ≠ ' ' && c ≠ '\t'

/-- Outside quotes such a blank. -/
def OddBlank (s : List Char) : Prop :=
  ∃ a c b, s = a ++ c :: b ∧ quoteAfter a = none ∧ isOddBlank c = true

/-- Inside double quotes a backslash before a quote or a backslash, as the guard reads quotes. -/
def EscapesInDouble (s : List Char) : Prop :=
  ∃ a e b, s = a ++ '\\' :: e :: b ∧ quoteAfter a = some '"' ∧ (e = '"' ∨ e = '\\')

theorem append_eq_single {s a b : List Char} {c d : Char} (h : s ++ [c] = a ++ d :: b) :
    (∃ b', s = a ++ d :: b') ∨ (s = a ∧ c = d) := by
  rcases List.eq_nil_or_concat' b with rfl | ⟨b', e, rfl⟩
  · obtain ⟨hs, hc⟩ := List.append_inj' h rfl
    exact Or.inr ⟨hs, by simpa using hc⟩
  · have heq : s ++ [c] = (a ++ d :: b') ++ [e] := by simpa using h
    exact Or.inl ⟨b', (List.append_inj' heq rfl).1⟩

theorem oddBlank_snoc {s : List Char} {c : Char} (h : OddBlank (s ++ [c])) :
    OddBlank s ∨ (quoteAfter s = none ∧ isOddBlank c = true) := by
  obtain ⟨a, d, b, heq, hq, hd⟩ := h
  rcases append_eq_single heq with ⟨b', hs⟩ | ⟨rfl, rfl⟩
  · exact Or.inl ⟨a, d, b', hs, hq, hd⟩
  · exact Or.inr ⟨hq, hd⟩

theorem oddBlank_append {s : List Char} (h : OddBlank s) (t : List Char) : OddBlank (s ++ t) := by
  obtain ⟨a, c, b, rfl, hq, hc⟩ := h
  exact ⟨a, c, b ++ t, by simp, hq, hc⟩

theorem escapes_append {s : List Char} (h : EscapesInDouble s) (t : List Char) :
    EscapesInDouble (s ++ t) := by
  obtain ⟨a, e, b, rfl, hq, he⟩ := h
  exact ⟨a, e, b ++ t, by simp, hq, he⟩

theorem first_escape {s : List Char} (h : EscapesInDouble s) :
    ∃ a e b, s = a ++ '\\' :: e :: b ∧ quoteAfter a = some '"' ∧ (e = '"' ∨ e = '\\') ∧
      ¬EscapesInDouble (a ++ ['\\']) := by
  induction s using List.reverseRecOn with
  | nil =>
    obtain ⟨a, e, b, heq, -⟩ := h
    simp at heq
  | append_singleton s c ih =>
    by_cases hold : EscapesInDouble s
    · obtain ⟨a, e, b, rfl, hq, he, hnone⟩ := ih hold
      exact ⟨a, e, b ++ [c], by simp, hq, he, hnone⟩
    · obtain ⟨a, e, b, heq, hq, he⟩ := h
      rcases append_eq_pair heq with ⟨b', hs⟩ | ⟨hs, -⟩
      · exact absurd ⟨a, e, b', hs, hq, he⟩ hold
      · exact ⟨a, e, b, heq, hq, he, hs ▸ hold⟩

theorem quoteAfter_cases {s : List Char} {q : Char} (h : quoteAfter s = some q) :
    q = '\'' ∨ q = '"' := by
  induction s using List.reverseRecOn with
  | nil => simp [quoteAfter] at h
  | append_singleton s c ih =>
    rw [quoteAfter_append] at h
    cases hs : quoteAfter s with
    | none =>
      rw [hs] at h
      simp only [quoteNext] at h
      split_ifs at h with hc
      rwa [Option.some.inj h] at hc
    | some r =>
      rw [hs] at h
      simp only [quoteNext] at h
      split_ifs at h
      exact ih (hs.trans h)

/-! ### One character -/

variable {w w' : WordState} {c q : Char}

def WordState.endWord (w : WordState) : WordState :=
  if w.hasWord then { w with words := w.words ++ [w.current], current := [], hasWord := false }
  else w

theorem wordStep_closes (h : w.quote = some c) :
    wordStep w c = some { w with quote := none } := by
  simp [wordStep, h]

theorem wordStep_inside (h : w.quote = some q) (hc : c ≠ q) :
    wordStep w c = some { w with current := w.current ++ [c] } := by
  simp [wordStep, h, hc]

theorem wordStep_opens (h : w.quote = none) (hc : c = '\'' ∨ c = '"') :
    wordStep w c = some { w with quote := some c, hasWord := true } := by
  rcases hc with rfl | rfl <;> simp [wordStep, h]

theorem wordStep_blank (h : w.quote = none) (hquote : ¬(c = '\'' ∨ c = '"')) (hslash : c ≠ '\\')
    (hc : isWhitespace c = true) : wordStep w c = some w.endWord := by
  unfold wordStep WordState.endWord
  rw [h]
  simp only [if_neg hslash, if_neg hquote, if_pos hc]
  exact (apply_ite some _ _ _).symm

theorem wordStep_char (h : w.quote = none) (hquote : ¬(c = '\'' ∨ c = '"')) (hslash : c ≠ '\\')
    (hc : ¬isWhitespace c = true) :
    wordStep w c = some { w with current := w.current ++ [c], hasWord := true } := by
  simp [wordStep, h, hquote, hslash, hc]

theorem wordStep_cases {P : WordState → Prop} (h : wordStep w c = some w')
    (closes : w.quote = some c → P { w with quote := none })
    (inside : ∀ q, w.quote = some q → c ≠ q → P { w with current := w.current ++ [c] })
    (opens : w.quote = none → (c = '\'' ∨ c = '"') →
      P { w with quote := some c, hasWord := true })
    (blank : w.quote = none → isWhitespace c = true → P w.endWord)
    (char : w.quote = none → ¬(c = '\'' ∨ c = '"') → c ≠ '\\' → ¬isWhitespace c = true →
      P { w with current := w.current ++ [c], hasWord := true }) : P w' := by
  cases hq : w.quote with
  | some q =>
    by_cases hc : c = q
    · subst hc
      rw [wordStep_closes hq] at h
      exact Option.some.inj h ▸ closes hq
    · rw [wordStep_inside hq hc] at h
      exact Option.some.inj h ▸ inside q hq hc
  | none =>
    have hslash : c ≠ '\\' := by
      rintro rfl
      simp [wordStep, hq] at h
    by_cases hquote : c = '\'' ∨ c = '"'
    · rw [wordStep_opens hq hquote] at h
      exact Option.some.inj h ▸ opens hq hquote
    by_cases hblank : isWhitespace c = true
    · rw [wordStep_blank hq hquote hslash hblank] at h
      exact Option.some.inj h ▸ blank hq hblank
    · rw [wordStep_char hq hquote hslash hblank] at h
      exact Option.some.inj h ▸ char hq hquote hslash hblank

namespace WordState

def text (w : WordState) : List Char := w.words.flatten ++ w.current

def Fresh (w : WordState) : Prop := w.hasWord = false → w.current = []

theorem text_endWord (w : WordState) : w.endWord.text = w.text := by
  unfold endWord text
  split_ifs <;> simp

theorem endWord_quote (w : WordState) : w.endWord.quote = w.quote := by
  unfold endWord
  split_ifs <;> rfl

theorem endWord_hasWord (w : WordState) : w.endWord.hasWord = false := by
  unfold endWord
  split_ifs with h
  · rfl
  · simpa using h

theorem fresh_endWord (h : Fresh w) : Fresh w.endWord := by
  unfold endWord
  split_ifs
  · exact fun _ => rfl
  · exact h

theorem flatten_all (h : Fresh w) : w.all.flatten = w.text := by
  unfold all text
  cases hw : w.hasWord with
  | true => simp
  | false => simp [h hw]

end WordState

/-! ### A whole text -/

/-- What the guard has read of a text, up to its end. -/
structure Scanned (s : List Char) (w : WordState) : Prop where
  quote : w.quote = quoteAfter s
  fresh : w.Fresh
  word : w.quote ≠ none → w.hasWord = true
  backslashes : w.text.count '\\' = s.count '\\'
  blanks : w.text.countP isOddBlank ≤ s.countP isOddBlank
  dropped : OddBlank s → w.text.countP isOddBlank < s.countP isOddBlank
  escaped : ∀ a b, s = a ++ '\\' :: b → quoteAfter a ≠ none

theorem scanned_init : Scanned [] WordState.init where
  quote := rfl
  fresh := fun _ => rfl
  word h := absurd rfl h
  backslashes := rfl
  blanks := Nat.le_refl _
  dropped h := by
    obtain ⟨a, c, b, heq, -⟩ := h
    simp at heq
  escaped a b heq := by simp at heq

theorem scanned_counts {s : List Char} (t : List Char) (c : Char) (kept : Bool) (h : Scanned s w)
    (htext : t = w.text ++ if kept then [c] else [])
    (hslash : kept = false → c ≠ '\\') (hblank : quoteAfter s = none → isOddBlank c = true →
      kept = false) :
    t.count '\\' = (s ++ [c]).count '\\' ∧
      t.countP isOddBlank ≤ (s ++ [c]).countP isOddBlank ∧
      (OddBlank (s ++ [c]) → t.countP isOddBlank < (s ++ [c]).countP isOddBlank) := by
  have hcount := h.backslashes
  have hblanks := h.blanks
  subst htext
  rw [List.count_append, List.count_append, List.countP_append, List.countP_append]
  cases hk : kept with
  | true =>
    refine ⟨by simp [hcount], by simpa using hblanks, fun hodd => ?_⟩
    rcases oddBlank_snoc hodd with hold | ⟨hq, hc⟩
    · simpa using h.dropped hold
    · rw [hblank hq hc] at hk
      simp at hk
  | false =>
    have hne : [c].count '\\' = 0 := List.count_eq_zero.mpr (by simpa using (hslash hk).symm)
    refine ⟨by simp [hcount, hne], ?_, fun hodd => ?_⟩
    · simpa using Nat.le_add_right_of_le hblanks
    · rcases oddBlank_snoc hodd with hold | ⟨-, hc⟩
      · have hlt := h.dropped hold
        simp only [Bool.false_eq_true, if_false, List.countP_nil]
        omega
      · have hone : [c].countP isOddBlank = 1 := by simp [hc]
        simp only [Bool.false_eq_true, if_false, List.countP_nil, hone]
        omega

theorem scanned_step {s : List Char} (h : Scanned s w) (hstep : wordStep w c = some w') :
    Scanned (s ++ [c]) w' := by
  have hescaped : ∀ a b, s ++ [c] = a ++ '\\' :: b → quoteAfter a ≠ none := by
    intro a b heq
    rcases append_eq_single heq with ⟨b', hs⟩ | ⟨rfl, rfl⟩
    · exact h.escaped a b' hs
    · intro hnone
      have hq := h.quote.trans hnone
      simp [wordStep, hq] at hstep
  have hquote : ∀ {q}, w.quote = some q → quoteAfter s = some q := fun hq => h.quote ▸ hq
  have hplain : w.quote = none → quoteAfter s = none := fun hq => h.quote ▸ hq
  apply wordStep_cases hstep
  case closes =>
    intro hq
    have hmark := quoteAfter_cases (hquote hq)
    obtain ⟨h1, h2, h3⟩ := scanned_counts w.text c false h (by simp)
      (fun _ => by rcases hmark with rfl | rfl <;> decide) (fun _ _ => rfl)
    refine ⟨?_, h.fresh, fun hopen => absurd rfl hopen, h1, h2, h3, hescaped⟩
    rw [quoteAfter_append, hquote hq]
    exact (if_pos rfl).symm
  case inside =>
    intro q hq hc
    have htext : ({ w with current := w.current ++ [c] } : WordState).text =
        w.text ++ if true then [c] else [] := (List.append_assoc _ _ _).symm
    obtain ⟨h1, h2, h3⟩ := scanned_counts _ c true h htext (by simp)
      (fun hnone => by rw [hquote hq] at hnone; simp at hnone)
    have hword : w.hasWord = true := h.word (by rw [hq]; simp)
    refine ⟨?_, fun hnone => ?_, fun _ => hword, h1, h2, h3, hescaped⟩
    · rw [quoteAfter_append, hquote hq]
      exact hq.trans (if_neg hc).symm
    · have hfalse : w.hasWord = false := hnone
      rw [hword] at hfalse
      simp at hfalse
  case opens =>
    intro hq hc
    obtain ⟨h1, h2, h3⟩ := scanned_counts w.text c false h (by simp)
      (fun _ => by rcases hc with rfl | rfl <;> decide) (fun _ _ => rfl)
    refine ⟨?_, by intro hf; simp at hf, fun _ => rfl, h1, h2, h3, hescaped⟩
    rw [quoteAfter_append, hplain hq]
    exact (if_pos hc).symm
  case blank =>
    intro hq hc
    have hmark : ¬(c = '\'' ∨ c = '"') := by
      rintro (rfl | rfl) <;> simp [isWhitespace] at hc
    obtain ⟨h1, h2, h3⟩ := scanned_counts w.endWord.text c false h
      (by rw [WordState.text_endWord]; simp)
      (fun _ => by rintro rfl; simp [isWhitespace] at hc) (fun _ _ => rfl)
    refine ⟨?_, WordState.fresh_endWord h.fresh, ?_, h1, h2, h3, hescaped⟩
    · rw [quoteAfter_append, hplain hq, WordState.endWord_quote, hq]
      exact (if_neg hmark).symm
    · rw [WordState.endWord_quote, hq]
      simp
  case char =>
    intro hq hmark hslash hc
    have htext : ({ w with current := w.current ++ [c], hasWord := true } : WordState).text =
        w.text ++ if true then [c] else [] := (List.append_assoc _ _ _).symm
    have hkept : ¬isOddBlank c = true := by simp [isOddBlank, hc]
    obtain ⟨h1, h2, h3⟩ := scanned_counts _ c true h htext (by simp) (fun _ hodd => absurd hodd hkept)
    refine ⟨?_, by intro hf; simp at hf, fun _ => rfl, h1, h2, h3, hescaped⟩
    rw [quoteAfter_append, hplain hq]
    exact hq.trans (if_neg hmark).symm

theorem scanned_foldlM {s : List Char} (h : s.foldlM wordStep WordState.init = some w) :
    Scanned s w := by
  induction s using List.reverseRecOn generalizing w with
  | nil =>
    have hinit : WordState.init = w := Option.some.inj h
    exact hinit ▸ scanned_init
  | append_singleton s c ih =>
    rw [List.foldlM_append] at h
    obtain ⟨v, hv, hlast⟩ := Option.bind_eq_some_iff.mp h
    have hstep : wordStep v c = some w := by simpa using hlast
    exact scanned_step (ih hv) hstep

end Travsr.Guard
