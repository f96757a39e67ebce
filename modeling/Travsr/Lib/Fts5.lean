import Mathlib.Data.List.TakeWhile
import Mathlib.Tactic.Common

namespace Travsr.Lib.Fts5

/-- Where the reader of a MATCH text stands: before a string literal, inside one, behind a quote
that may close it or be the first of two, behind a literal, or inside the word `OR`. -/
inductive Place where
  | before
  | inside (body : List Char)
  | closing (body : List Char)
  | after
  | bar
  deriving DecidableEq

/-- The literals read so far, with their escapes undone. -/
structure Reader where
  place : Place
  strings : List (List Char)
  deriving DecidableEq

def isBlank (c : Char) : Bool := c = ' ' || c = '\t' || c = '\n' || c = '\r'

/-- What may follow a literal: blanks and the word `OR`. -/
def Reader.stepAfter (strings : List (List Char)) (c : Char) : Option Reader :=
  if isBlank c then some ⟨.after, strings⟩
  else if c = 'O' then some ⟨.bar, strings⟩
  else none

/-- One character of a disjunction of string literals; inside a literal two quotes stand for
one. Every other token of the query language (a bare word, `NOT`, `NEAR`, a column filter, `*`,
`^`, `+`, a parenthesis) ends the reading. -/
def Reader.step (st : Reader) (c : Char) : Option Reader :=
  match st.place with
  | .before =>
    if isBlank c then some st
    else if c = '"' then some ⟨.inside [], st.strings⟩
    else none
  | .inside body =>
    if c = '"' then some ⟨.closing body, st.strings⟩
    else some ⟨.inside (body ++ [c]), st.strings⟩
  | .closing body =>
    if c = '"' then some ⟨.inside (body ++ ['"']), st.strings⟩
    else Reader.stepAfter (st.strings ++ [body]) c
  | .after => Reader.stepAfter st.strings c
  | .bar => if c = 'R' then some ⟨.before, st.strings⟩ else none

def Reader.run (st : Reader) : List Char → Option Reader
  | [] => some st
  | c :: text => (st.step c).bind (fun next => next.run text)

/-- The end of the text: an open literal and an `OR` without a right side are errors. -/
def Reader.finish (st : Reader) : Option (List (List Char)) :=
  match st.place with
  | .closing body => some (st.strings ++ [body])
  | .after => some st.strings
  | _ => none

def cString (text : List Char) : List Char := text.takeWhile (fun c => c != '\x00')

/-- The contents of the literals, when the text is a disjunction of string literals. -/
def readDisjunction (text : List Char) : Option (List (List Char)) :=
  ((Reader.run ⟨.before, []⟩ (cString text)).bind Reader.finish)

def quote (w : List Char) : List Char := '"' :: (w ++ ['"'])

/-- The text without escaping: each word between two quotes, ` OR ` between the words. -/
def quoteJoin (words : List (List Char)) : List Char :=
  [' ', 'O', 'R', ' '].intercalate (words.map quote)

/-- A word that can stand between two quotes as it is. -/
def Plain (w : List Char) : Prop := '"' ∉ w ∧ '\x00' ∉ w

instance (w : List Char) : Decidable (Plain w) := inferInstanceAs (Decidable (_ ∧ _))

example : readDisjunction "\"a\" OR\"b\"\"c\"".toList = some ["a".toList, "b\"c".toList] := by
  decide +kernel

theorem Reader.run_append (st : Reader) (s t : List Char) :
    st.run (s ++ t) = (st.run s).bind (fun next => next.run t) := by
  induction s generalizing st with
  | nil => rfl
  | cons c s ih =>
    simp only [List.cons_append, Reader.run]
    cases st.step c with
    | none => rfl
    | some next => exact ih next

/-! ### What a reading says about the quotes of the text -/

/-- The quotes of the text that the reader has taken: two around each literal and two for each
quote of its contents. -/
def Place.quotes : Place → Nat
  | .inside body => 1 + 2 * body.count '"'
  | .closing body => 2 + 2 * body.count '"'
  | _ => 0

def literalQuotes (strings : List (List Char)) : Nat :=
  2 * strings.length + 2 * strings.flatten.count '"'

def Reader.quotes (st : Reader) : Nat := st.place.quotes + literalQuotes st.strings

theorem literalQuotes_concat (strings : List (List Char)) (w : List Char) :
    literalQuotes (strings ++ [w]) = literalQuotes strings + 2 + 2 * w.count '"' := by
  simp only [literalQuotes, List.length_append, List.length_singleton, List.flatten_append,
    List.flatten_singleton, List.count_append]
  omega

theorem isBlank_ne_quote {c : Char} (h : isBlank c = true) : c ≠ '"' := by
  rintro rfl
  exact absurd h (by decide)

theorem Reader.stepAfter_quotes {strings : List (List Char)} {c : Char} {next : Reader}
    (h : Reader.stepAfter strings c = some next) :
    next.quotes = literalQuotes strings ∧ c ≠ '"' := by
  unfold Reader.stepAfter at h
  split at h
  case isTrue hb =>
    obtain rfl := Option.some.inj h
    exact ⟨by simp [Reader.quotes, Place.quotes], isBlank_ne_quote hb⟩
  case isFalse =>
    split at h
    case isTrue ho =>
      obtain rfl := Option.some.inj h
      exact ⟨by simp [Reader.quotes, Place.quotes], by simp [ho]⟩
    case isFalse => cases h

theorem Reader.step_quotes {st next : Reader} {c : Char} (h : st.step c = some next) :
    next.quotes = st.quotes + [c].count '"' := by
  obtain ⟨place, strings⟩ := st
  cases place with
  | before =>
    simp only [Reader.step] at h
    split at h
    case isTrue hb =>
      obtain rfl := Option.some.inj h
      simp [isBlank_ne_quote hb]
    case isFalse =>
      split at h
      case isTrue hq =>
        obtain rfl := Option.some.inj h
        simp only [Reader.quotes, Place.quotes, hq, List.count_nil, List.count_singleton_self]
        omega
      case isFalse => cases h
  | inside body =>
    simp only [Reader.step] at h
    split at h
    case isTrue hq =>
      obtain rfl := Option.some.inj h
      simp only [Reader.quotes, Place.quotes, hq, List.count_singleton_self]
      omega
    case isFalse hq =>
      obtain rfl := Option.some.inj h
      simp [Reader.quotes, Place.quotes, hq]
  | closing body =>
    simp only [Reader.step] at h
    split at h
    case isTrue hq =>
      obtain rfl := Option.some.inj h
      simp only [Reader.quotes, Place.quotes, hq, List.count_append, List.count_singleton_self]
      omega
    case isFalse hq =>
      rw [(Reader.stepAfter_quotes h).1, literalQuotes_concat]
      simp only [Reader.quotes, Place.quotes, List.count_singleton, beq_iff_eq, if_neg hq]
      omega
  | after =>
    obtain ⟨hn, hq⟩ := Reader.stepAfter_quotes h
    rw [hn]
    simp [Reader.quotes, Place.quotes, hq]
  | bar =>
    simp only [Reader.step] at h
    split at h
    case isTrue hr =>
      obtain rfl := Option.some.inj h
      simp [Reader.quotes, Place.quotes, hr]
    case isFalse => cases h

theorem Reader.run_quotes {st fin : Reader} {text : List Char} (h : st.run text = some fin) :
    fin.quotes = st.quotes + text.count '"' := by
  induction text generalizing st with
  | nil =>
    obtain rfl := Option.some.inj h
    simp
  | cons c text ih =>
    obtain ⟨next, hs, hr⟩ := Option.bind_eq_some_iff.mp h
    have hstep := Reader.step_quotes hs
    have hrun := ih hr
    rw [← List.singleton_append, List.count_append]
    omega

theorem Reader.finish_quotes {st : Reader} {strings : List (List Char)}
    (h : st.finish = some strings) : literalQuotes strings = st.quotes := by
  obtain ⟨place, done⟩ := st
  cases place with
  | closing body =>
    obtain rfl := Option.some.inj h
    rw [literalQuotes_concat]
    simp only [Reader.quotes, Place.quotes]
    omega
  | after =>
    obtain rfl := Option.some.inj h
    simp [Reader.quotes, Place.quotes]
  | before => cases h
  | inside body => cases h
  | bar => cases h

theorem readDisjunction_quotes {text : List Char} {strings : List (List Char)}
    (h : readDisjunction text = some strings) :
    (cString text).count '"' = literalQuotes strings := by
  obtain ⟨fin, hr, hf⟩ := Option.bind_eq_some_iff.mp h
  have hrun := Reader.run_quotes hr
  rw [Reader.finish_quotes hf, hrun]
  simp [Reader.quotes, Place.quotes, literalQuotes]

/-! ### Words quoted without escaping -/

theorem quoteJoin_singleton (w : List Char) : quoteJoin [w] = quote w := by
  simp [quoteJoin]

theorem quoteJoin_cons_cons (w v : List Char) (ws : List (List Char)) :
    quoteJoin (w :: v :: ws) = quote w ++ ([' ', 'O', 'R', ' '] ++ quoteJoin (v :: ws)) := by
  simp [quoteJoin]

theorem count_quote (w : List Char) : (quote w).count '"' = 2 + w.count '"' := by
  have hlast : ['"'].count '"' = 1 := List.count_singleton_self
  simp only [quote, List.count_cons_self, List.count_append, hlast]
  omega

theorem count_quoteJoin (words : List (List Char)) :
    (quoteJoin words).count '"' = 2 * words.length + words.flatten.count '"' := by
  induction words with
  | nil => rfl
  | cons w ws ih =>
    cases ws with
    | nil => simp [quoteJoin_singleton, count_quote]
    | cons v ws =>
      have hbar : [' ', 'O', 'R', ' '].count '"' = 0 := by decide
      have hflat : (w :: v :: ws).flatten = w ++ (v :: ws).flatten := rfl
      rw [quoteJoin_cons_cons, List.count_append, List.count_append, hbar, ih, count_quote,
        hflat, List.count_append]
      simp only [List.length_cons]
      omega

theorem getLast?_quoteJoin {words : List (List Char)} (h : words ≠ []) :
    (quoteJoin words).getLast? = some '"' := by
  induction words with
  | nil => exact absurd rfl h
  | cons w ws ih =>
    cases ws with
    | nil => simp [quoteJoin_singleton, quote, List.getLast?_cons]
    | cons v ws =>
      rw [quoteJoin_cons_cons, List.getLast?_append, List.getLast?_append, ih (by simp)]
      rfl

theorem count_cString_lt {text : List Char} (hnul : '\x00' ∈ text)
    (hlast : text.getLast? = some '"') : (cString text).count '"' < text.count '"' := by
  have hsplit : cString text ++ text.dropWhile (fun c => c != '\x00') = text :=
    List.takeWhile_append_dropWhile
  have hne : text.dropWhile (fun c => c != '\x00') ≠ [] := by
    intro h
    have hall := List.dropWhile_eq_nil_iff.mp h _ hnul
    simp at hall
  have hmem : '"' ∈ text.dropWhile (fun c => c != '\x00') := by
    rw [← hsplit, List.getLast?_append, List.getLast?_eq_some_getLast hne] at hlast
    rw [← Option.some.inj hlast]
    exact List.getLast_mem hne
  have hpos := List.count_pos_iff.mpr hmem
  conv_rhs => rw [← hsplit, List.count_append]
  omega

theorem Reader.run_inside {body w : List Char} (strings : List (List Char)) (h : '"' ∉ w) :
    Reader.run ⟨.inside body, strings⟩ w = some ⟨.inside (body ++ w), strings⟩ := by
  induction w generalizing body with
  | nil => simp [Reader.run]
  | cons c w ih =>
    have hc : c ≠ '"' := fun e => h (by simp [e])
    simp only [Reader.run, Reader.step, if_neg hc, Option.bind_some]
    rw [ih (fun hm => h (List.mem_cons_of_mem c hm)), List.append_assoc, List.singleton_append]

theorem Reader.run_quote {w : List Char} (strings : List (List Char)) (h : '"' ∉ w) :
    Reader.run ⟨.before, strings⟩ (quote w) = some ⟨.closing w, strings⟩ := by
  show Reader.run ⟨.inside [], strings⟩ (w ++ ['"']) = _
  rw [Reader.run_append, Reader.run_inside strings h]
  rfl

theorem Reader.run_quoteJoin {words : List (List Char)} (strings : List (List Char))
    (hne : words ≠ []) (h : ∀ w ∈ words, '"' ∉ w) :
    (Reader.run ⟨.before, strings⟩ (quoteJoin words)).bind Reader.finish =
      some (strings ++ words) := by
  induction words generalizing strings with
  | nil => exact absurd rfl hne
  | cons w ws ih =>
    have hw := h w (by simp)
    cases ws with
    | nil =>
      rw [quoteJoin_singleton, Reader.run_quote strings hw]
      rfl
    | cons v ws =>
      have hrest := ih (strings ++ [w]) (by simp) (fun u hu => h u (List.mem_cons_of_mem w hu))
      rw [quoteJoin_cons_cons, Reader.run_append, Reader.run_quote strings hw]
      -- the four characters of the bar carry the closed literal to the next place
      show (Reader.run ⟨.before, strings ++ [w]⟩ (quoteJoin (v :: ws))).bind Reader.finish = _
      rw [hrest, List.append_assoc, List.singleton_append]

theorem nul_mem_quoteJoin {words : List (List Char)} :
    '\x00' ∈ quoteJoin words ↔ ∃ w ∈ words, '\x00' ∈ w := by
  induction words with
  | nil => simp [quoteJoin]
  | cons w ws ih =>
    cases ws with
    | nil => simp [quoteJoin_singleton, quote]
    | cons v ws =>
      rw [quoteJoin_cons_cons, List.mem_append, List.mem_append, ih]
      simp [quote]

/-- Quoting without escaping is read back as the words it was made of exactly when every word
is free of quotes and NULs. -/
theorem readDisjunction_quoteJoin_iff {words : List (List Char)} (hne : words ≠ []) :
    readDisjunction (quoteJoin words) = some words ↔ ∀ w ∈ words, Plain w := by
  constructor
  · intro h
    have hq := readDisjunction_quotes h
    have hcount := count_quoteJoin words
    have hle : (cString (quoteJoin words)).count '"' ≤ (quoteJoin words).count '"' :=
      (List.takeWhile_sublist _).count_le '"'
    simp only [literalQuotes] at hq
    have hzero : words.flatten.count '"' = 0 := by omega
    have hnul : '\x00' ∉ quoteJoin words := by
      intro hmem
      have hlt := count_cString_lt hmem (getLast?_quoteJoin hne)
      omega
    intro w hw
    constructor
    · intro hmem
      exact List.count_eq_zero.mp hzero (List.mem_flatten.mpr ⟨w, hw, hmem⟩)
    · intro hmem
      exact hnul (nul_mem_quoteJoin.mpr ⟨w, hw, hmem⟩)
  · intro h
    have hnul : '\x00' ∉ quoteJoin words := by
      intro hmem
      obtain ⟨w, hw, hc⟩ := nul_mem_quoteJoin.mp hmem
      exact (h w hw).2 hc
    have hall : cString (quoteJoin words) = quoteJoin words := by
      apply List.takeWhile_eq_self_iff.mpr
      intro c hc
      simp only [bne_iff_ne, ne_eq]
      rintro rfl
      exact hnul hc
    rw [readDisjunction, hall, Reader.run_quoteJoin [] hne (fun w hw => (h w hw).1)]
    rfl

end Travsr.Lib.Fts5
