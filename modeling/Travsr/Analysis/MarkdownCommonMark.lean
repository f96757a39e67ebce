import Travsr.Analysis.MarkdownElision

namespace Travsr.Analysis.CommonMark

open Travsr.Core Travsr.Core.Text

/-! ## Lines as CommonMark reads them -/

def isBlankChar (c : Char) : Bool := c = ' ' || c = '\t'

def strip (s : Line) : Line := (s.dropWhile isBlankChar).rdropWhile isBlankChar

def atColumnZero (line : Line) : Bool := line.head?.any fun c => !isBlankChar c

/-- The content of an ATX heading without a closing sequence, which a space or tab separates. -/
def dropClosing (content : Line) : Line :=
  let body := content.rdropWhile (· = '#')
  if body = [] then []
  else if body.getLast?.any isBlankChar then body.rdropWhile isBlankChar
  else content

def atx (line : Line) : Option (Nat × Line) :=
  let hashes := line.takeWhile (· = '#')
  let rest := line.dropWhile (· = '#')
  if hashes = [] ∨ 6 < hashes.length then none
  else if rest = [] ∨ rest.head?.any isBlankChar then some (hashes.length, dropClosing (strip rest))
  else none

def backtick : Char := Char.ofNat 0x60

def fence (line : Line) : Option (Char × Nat) :=
  match line with
  | [] => none
  | c :: _ =>
    let run := line.takeWhile (· = c)
    if c ≠ backtick ∧ c ≠ '~' then none
    else if run.length < 3 ∨ (c = backtick ∧ backtick ∈ line.dropWhile (· = c)) then none
    else some (c, run.length)

def closes (opened : Char × Nat) (line : Line) : Bool :=
  let body := line.dropWhile (· = ' ')
  (line.takeWhile (· = ' ')).length ≤ 3 &&
    opened.2 ≤ (body.takeWhile (· = opened.1)).length && (body.dropWhile (· = opened.1)).all isBlankChar

def isThematic (line : Line) : Bool :=
  let marks := line.filter fun c => !isBlankChar c
  3 ≤ marks.length && ['*', '-', '_'].any fun c => marks.all (· = c)

def underline (line : Line) : Option Nat :=
  let body := line.rdropWhile isBlankChar
  if body ≠ [] ∧ body.all (· = '=') then some 1
  else if body ≠ [] ∧ body.all (· = '-') then some 2
  else none

/-! ## Documents -/

/-- The blocks a document is made of. -/
inductive Block where
  | atx (line : Line)
  | setext (text : Line) (more : List Line) (under : Line)
  | paragraph (text : Line) (more : List Line)
  | thematic (line : Line)
  | blank (line : Line)
  | fenced (opening : Line) (content : List Line) (closing : Option Line)

def Block.lines : Block → List Line
  | .atx line => [line]
  | .setext text more under => text :: (more ++ [under])
  | .paragraph text more => text :: more
  | .thematic line => [line]
  | .blank line => [line]
  | .fenced opening content closing => opening :: (content ++ closing.toList)

/-- The first line of a paragraph, or a later one. `foreign` tells the lines that begin what these
documents do not hold: quotes, lists, HTML, link definitions. -/
structure IsText (foreign : Bool → Line → Prop) (first : Bool) (line : Line) : Prop where
  column : atColumnZero line = true
  notAtx : CommonMark.atx line = none
  notFence : fence line = none
  notThematic : isThematic line = false
  notUnderline : first = false → underline line = none
  native : ¬ foreign first line

def IsParagraph (foreign : Bool → Line → Prop) (text : Line) (more : List Line) : Prop :=
  IsText foreign true text ∧ ∀ line ∈ more, IsText foreign false line

def Block.Valid (foreign : Bool → Line → Prop) : Block → Prop
  | .atx line => (CommonMark.atx line).isSome
  | .setext text more under => IsParagraph foreign text more ∧ (underline under).isSome
  | .paragraph text more => IsParagraph foreign text more
  | .thematic line => atColumnZero line = true ∧ isThematic line = true
  | .blank line => line.all isBlankChar = true
  | .fenced opening content closing => ∃ opened, fence opening = some opened ∧
      (∀ line ∈ content, closes opened line = false) ∧ ∀ line ∈ closing, closes opened line = true

/-- What may stand directly behind what: a fence without an end is the last block, and a paragraph
would go on in another one, or be underlined by dashes. -/
def Block.Apart : Block → Block → Prop
  | .fenced _ _ none, _ => False
  | .paragraph _ _, .paragraph _ _ => False
  | .paragraph _ _, .setext _ _ _ => False
  | .paragraph _ _, .thematic line => underline line = none
  | _, _ => True

/-- A document without front matter. -/
structure Document (foreign : Bool → Line → Prop) where
  blocks : List Block
  valid : ∀ b ∈ blocks, b.Valid foreign
  apart : blocks.IsChain Block.Apart
  oneLine : ∀ line ∈ blocks.flatMap Block.lines, '\n' ∉ line ∧ '\r' ∉ line
  noFrontMatter : (scanFrontMatter (blocks.flatMap Block.lines)).2 = 0

variable {foreign : Bool → Line → Prop}

def Document.lines (doc : Document foreign) : List Line := doc.blocks.flatMap Block.lines

def setextText (text : Line) (more : List Line) : Line :=
  List.intercalate ['\n'] ((text :: more).map strip)

def Block.heading (ln : Nat) : Block → Option RawHeading
  | .atx line => (CommonMark.atx line).map fun h => ⟨h.1, h.2, ln⟩
  | .setext text more under => (underline under).map fun level => ⟨level, setextText text more, ln⟩
  | _ => none

def headingsFrom (ln : Nat) : List Block → List RawHeading
  | [] => []
  | b :: rest => (b.heading ln).toList ++ headingsFrom (ln + b.lines.length) rest

def Document.headings (doc : Document foreign) : List RawHeading := headingsFrom 1 doc.blocks

/-- The scan finds the headings of the document, no more and no fewer. -/
def ReadRight (doc : Document foreign) : Prop := (ScanResult.scan doc.lines).headings = doc.headings

/-! ## When the scan reads them -/

/-- What a line is in its block. -/
inductive Role where
  | atx
  | setext (more : List Line) (under : Line)
  /-- The underline of a Setext heading, of one line or of more. -/
  | underline (single : Bool)
  | other

def Block.marks : Block → List (Line × Role)
  | .atx line => [(line, .atx)]
  | .setext text more under =>
    (text, .setext more under) :: (more.map (fun line => (line, .other)) ++ [(under, .underline more.isEmpty)])
  | b => b.lines.map fun line => (line, .other)

def Document.marks (doc : Document foreign) : List (Line × Role) := doc.blocks.flatMap Block.marks

/-- A line outside the fences as the scanner's own tests pair them up, and no opening one. -/
def Free (before : List Line) (line : Line) : Prop :=
  before.foldl fenceStep none = none ∧ fenceOpen (trimChars line) = none

/-- A free line that passes for text. -/
def Bare (before : List Line) (line : Line) : Prop :=
  Free before line ∧ trimChars line ≠ [] ∧ atxHeading (trimChars line) = none

/-- An ATX heading whose hashes at the end, where there are any, are a closing sequence, and whose
text has no white space but spaces and tabs at its ends. -/
def AtxPlain (line : Line) : Prop :=
  let content := strip (line.dropWhile (· = '#'))
  trimChars (dropClosing content) = dropClosing content ∧
    (content.getLast? = some '#' → dropClosing content ≠ content)

/-- The headings stand free and are spelled plainly, Setext headings on one line; and nothing else
that stands free passes for a heading: no line for an ATX heading, and no text for one underlined by
the line behind it. -/
structure Plain (marks : List (Line × Role)) : Prop where
  atx : ∀ before line after, marks = before ++ (line, .atx) :: after →
    Free (before.map Prod.fst) line ∧ AtxPlain line
  setext : ∀ before line more under after, marks = before ++ (line, .setext more under) :: after →
    more = [] ∧ Free (before.map Prod.fst) line ∧ trimChars line = strip line
  other : ∀ before line after, marks = before ++ (line, .other) :: after →
    Free (before.map Prod.fst) line → atxHeading (trimChars line) = none
  apart : ∀ before x y after, marks = before ++ x :: y :: after →
    (∀ single, x.2 ≠ .underline single) → (∀ single, y.2 ≠ .underline single) →
    Bare (before.map Prod.fst) x.1 → Free ((before ++ [x]).map Prod.fst) y.1 →
    setextUnderline (trimChars y.1) = none

/-! ## The scanner's tests on lines of CommonMark -/

theorem isWhitespace_of_blank {c : Char} (h : isBlankChar c = true) : isWhitespace c = true := by
  simp only [isBlankChar, Bool.or_eq_true, decide_eq_true_eq] at h
  rcases h with rfl | rfl <;> decide

theorem rdropWhile_append {α : Type} (p : α → Bool) (l l' : List α) :
    (l ++ l').rdropWhile p = if l'.all p then l.rdropWhile p else l ++ l'.rdropWhile p := by
  induction l' using List.reverseRec with
  | nil => simp
  | append_singleton l' a ih =>
    rw [← List.append_assoc, List.rdropWhile_concat, List.rdropWhile_concat, ih, List.all_append]
    by_cases ha : p a = true
    · simp [ha]
    · simp [ha]

theorem rdropWhile_of_last {α : Type} {p : α → Bool} {l : List α} (h : ∀ a ∈ l.getLast?, p a = false) :
    l.rdropWhile p = l := by
  rw [List.rdropWhile_eq_self_iff]
  intro hl hp
  have hlast := h _ (List.getLast?_eq_getLast_of_ne_nil hl)
  rw [hlast] at hp
  exact Bool.false_ne_true hp

theorem dropWhile_of_head {α : Type} {p : α → Bool} {l : List α} (h : ∀ a ∈ l.head?, p a = false) :
    l.dropWhile p = l := by
  cases l with
  | nil => rfl
  | cons a l => rw [List.dropWhile_cons, h a rfl]; rfl

theorem trimChars_eq_rdropWhile (s : Line) : trimChars s = (s.dropWhile isWhitespace).rdropWhile isWhitespace :=
  rfl

theorem trimChars_of_head {s : Line} (h : ∀ c ∈ s.head?, isWhitespace c = false) :
    trimChars s = s.rdropWhile isWhitespace := by
  rw [trimChars_eq_rdropWhile, dropWhile_of_head h]

theorem rdropWhile_split {α : Type} (p : α → Bool) (l : List α) :
    ∃ dropped, l = l.rdropWhile p ++ dropped ∧ dropped.all p = true := by
  induction l using List.reverseRec with
  | nil => exact ⟨[], rfl, rfl⟩
  | append_singleton l a ih =>
    by_cases ha : p a = true
    · obtain ⟨dropped, hl, hdropped⟩ := ih
      refine ⟨dropped ++ [a], ?_, by rw [List.all_append, hdropped]; simp [ha]⟩
      rw [List.rdropWhile_concat_pos _ _ _ ha, ← List.append_assoc, ← hl]
    · exact ⟨[], by rw [List.rdropWhile_concat_neg _ _ _ ha, List.append_nil], rfl⟩

theorem rdropWhile_getLast {α : Type} (p : α → Bool) (l : List α) : ∀ a ∈ (l.rdropWhile p).getLast?, p a = false := by
  intro a ha
  have hne : l.rdropWhile p ≠ [] := fun hnil => by rw [hnil] at ha; exact absurd ha nofun
  have hlast := List.rdropWhile_last_not p l hne
  rw [List.getLast?_eq_getLast_of_ne_nil hne] at ha
  rw [Option.some.inj ha] at hlast
  exact Bool.eq_false_iff.mpr hlast

theorem all_mono {α : Type} {p q : α → Bool} (hpq : ∀ a, p a = true → q a = true) {l : List α}
    (h : l.all p = true) : l.all q = true :=
  List.all_eq_true.mpr fun a ha => hpq a (List.all_eq_true.mp h a ha)

theorem trimChars_append_blanks {s blanks : Line} (h : blanks.all isWhitespace = true) :
    trimChars (s ++ blanks) = trimChars s := by
  rw [trimChars_eq_rdropWhile, trimChars_eq_rdropWhile, List.dropWhile_append]
  split_ifs with hempty
  · rw [List.isEmpty_iff.mp hempty, List.dropWhile_eq_nil_iff.mpr (List.all_eq_true.mp h)]
  · rw [rdropWhile_append, if_pos h]

theorem trimChars_strip (s : Line) : trimChars (strip s) = trimChars s := by
  have hleft : (s.dropWhile isBlankChar).dropWhile isWhitespace = s.dropWhile isWhitespace := by
    induction s with
    | nil => rfl
    | cons c s ih =>
      by_cases hc : isBlankChar c = true
      · rw [List.dropWhile_cons, if_pos hc, ih, List.dropWhile_cons, if_pos (isWhitespace_of_blank hc)]
      · rw [List.dropWhile_cons, if_neg hc]
  obtain ⟨dropped, hsplit, hdropped⟩ := rdropWhile_split isBlankChar (s.dropWhile isBlankChar)
  have hall : dropped.all isWhitespace = true := all_mono (fun _ => isWhitespace_of_blank) hdropped
  have hright : trimChars (s.dropWhile isBlankChar) = trimChars (strip s) := by
    conv_lhs => rw [hsplit]
    exact trimChars_append_blanks hall
  rw [← hright, trimChars_eq_rdropWhile, hleft]
  rfl

theorem length_trimChars_le (s : Line) : (trimChars s).length ≤ (strip s).length := by
  rw [← trimChars_strip]
  exact (trimChars_isInfix (strip s)).length_le

def scannedText (content : Line) : Line := ((trimChars content).rdropWhile (· = '#')).rdropWhile isWhitespace

/-- Neither end is a space or a tab. -/
structure Stripped (content : Line) : Prop where
  head : ∀ c ∈ content.head?, isBlankChar c = false
  last : ∀ c ∈ content.getLast?, isBlankChar c = false

theorem stripped_strip (s : Line) : Stripped (strip s) := by
  refine ⟨fun c hc => ?_, rdropWhile_getLast isBlankChar _⟩
  obtain ⟨rest, hrest⟩ := List.rdropWhile_prefix isBlankChar (s.dropWhile isBlankChar)
  have hdrop : (s.dropWhile isBlankChar).head? = some c := by
    rw [← hrest, List.head?_append]
    exact Option.or_eq_some_iff.mpr (.inl hc)
  have hnot := List.head?_dropWhile_not isBlankChar s
  rw [hdrop] at hnot
  exact hnot

theorem not_isWhitespace_hash {hashes : Line} (h : hashes.all (· = '#') = true) :
    ∀ c ∈ hashes, isWhitespace c = false := by
  intro c hc
  rw [of_decide_eq_true (List.all_eq_true.mp h c hc)]
  decide

theorem scannedText_hashes {text hashes : Line} (hne : hashes ≠ []) (h : hashes.all (· = '#') = true)
    (hlast : ∀ c ∈ text.getLast?, c ≠ '#') :
    scannedText (text ++ hashes) = (text.dropWhile isWhitespace).rdropWhile isWhitespace := by
  have hkeep : (text ++ hashes).dropWhile isWhitespace = text.dropWhile isWhitespace ++ hashes := by
    rw [List.dropWhile_append]
    split_ifs with hempty
    · rw [List.isEmpty_iff.mp hempty, List.nil_append]
      exact dropWhile_of_head fun c hc => not_isWhitespace_hash h c (List.mem_of_mem_head? hc)
    · rfl
  have hend : (text.dropWhile isWhitespace ++ hashes).rdropWhile isWhitespace =
      text.dropWhile isWhitespace ++ hashes := by
    refine rdropWhile_of_last fun c hc => not_isWhitespace_hash h c ?_
    rw [List.getLast?_append_of_ne_nil _ hne] at hc
    exact List.mem_of_getLast? hc
  have hdrop : (text.dropWhile isWhitespace).rdropWhile (· = '#') = text.dropWhile isWhitespace := by
    refine rdropWhile_of_last fun c hc => decide_eq_false ?_
    obtain ⟨front, hfront⟩ := List.dropWhile_suffix (l := text) isWhitespace
    have hne' : text.dropWhile isWhitespace ≠ [] := fun hnil => by rw [hnil] at hc; exact absurd hc nofun
    refine hlast c ?_
    rw [← hfront, List.getLast?_append_of_ne_nil _ hne']
    exact hc
  rw [scannedText, trimChars_eq_rdropWhile, hkeep, hend, rdropWhile_append, if_pos h, hdrop]

theorem scannedText_length (content : Line) :
    (scannedText content).length ≤ ((trimChars content).rdropWhile (· = '#')).length :=
  (List.rdropWhile_prefix _ _).length_le

theorem scannedText_eq_iff {content : Line} (hstrip : Stripped content) :
    scannedText content = dropClosing content ↔
      trimChars (dropClosing content) = dropClosing content ∧
        (content.getLast? = some '#' → dropClosing content ≠ content) := by
  obtain ⟨hashes, hsplit, hhashes⟩ := rdropWhile_split (fun c => decide (c = '#')) content
  have hlast := rdropWhile_getLast (fun c => decide (c = '#')) content
  have hlast' : ∀ c ∈ (content.rdropWhile (· = '#')).getLast?, c ≠ '#' :=
    fun c hc => of_decide_eq_false (hlast c hc)
  by_cases hnil : content.rdropWhile (· = '#') = []
  · -- The content is a closing sequence, or nothing.
    have hclosing : dropClosing content = [] := if_pos hnil
    rw [hclosing]
    refine iff_of_true ?_ ⟨rfl, fun hend hc => by rw [← hc] at hend; exact absurd hend nofun⟩
    by_cases hne : hashes = []
    · rw [hsplit, hnil, hne]
      rfl
    · rw [hsplit, hnil, scannedText_hashes hne hhashes fun c hc => absurd hc (by simp)]
      rfl
  by_cases hblank : (content.rdropWhile (· = '#')).getLast?.any isBlankChar = true
  · -- A space or tab stands before the hashes, so that there are some.
    have hclosing : dropClosing content = (content.rdropWhile (· = '#')).rdropWhile isBlankChar := by
      unfold dropClosing
      dsimp only
      rw [if_neg hnil, if_pos hblank]
    have hne : hashes ≠ [] := by
      rintro rfl
      rw [List.append_nil] at hsplit
      rw [← hsplit] at hblank
      obtain ⟨c, hc, hcb⟩ := (Option.any_eq_true _ _).mp hblank
      rw [hstrip.last c hc] at hcb
      exact Bool.false_ne_true hcb
    have htrim : scannedText content = trimChars (dropClosing content) := by
      obtain ⟨blanks, hbody, hblanks⟩ := rdropWhile_split isBlankChar (content.rdropWhile (· = '#'))
      conv_lhs => rw [hsplit]
      rw [scannedText_hashes hne hhashes hlast', ← trimChars_eq_rdropWhile, hclosing]
      conv_lhs => rw [hbody]
      exact trimChars_append_blanks (all_mono (fun _ => isWhitespace_of_blank) hblanks)
    rw [htrim]
    refine ⟨fun h => ⟨h, fun _ hc => ?_⟩, fun h => h.1⟩
    have hlen := congrArg List.length (hc.symm.trans hclosing)
    have hle := (List.rdropWhile_prefix isBlankChar (content.rdropWhile (· = '#'))).length_le
    have hlen' := congrArg List.length hsplit
    rw [List.length_append] at hlen'
    have hpos := List.length_pos_of_ne_nil hne
    omega
  · have hclosing : dropClosing content = content := by
      unfold dropClosing
      dsimp only
      rw [if_neg hnil, if_neg hblank]
    rw [hclosing]
    constructor
    · intro h
      have hlen := congrArg List.length h
      have hle := scannedText_length content
      have hle' := (List.rdropWhile_prefix (fun c => decide (c = '#')) (trimChars content)).length_le
      have hle'' := (trimChars_isInfix content).length_le
      have htrim : trimChars content = content := (trimChars_isInfix content).eq_of_length (by omega)
      refine ⟨htrim, fun hend _ => ?_⟩
      rw [htrim] at hle hle'
      have hself : content.rdropWhile (· = '#') = content :=
        (List.rdropWhile_prefix _ content).eq_of_length (by omega)
      rw [hself] at hlast'
      exact hlast' '#' hend rfl
    · rintro ⟨htrim, hend⟩
      have hself : content.rdropWhile (· = '#') = content := by
        refine rdropWhile_of_last fun c hc => decide_eq_false ?_
        rintro rfl
        exact hend hc rfl
      rw [scannedText, htrim, hself]
      refine rdropWhile_of_last ?_
      rw [← htrim]
      exact rdropWhile_getLast isWhitespace _

theorem hashes_all (line : Line) : (line.takeWhile (· = '#')).all (· = '#') = true :=
  List.all_eq_true.mpr fun c hc => by simpa using List.mem_takeWhile_imp hc

theorem trimChars_hashes {line : Line} (h : line.takeWhile (· = '#') ≠ []) :
    trimChars line = line.takeWhile (· = '#') ++ (line.dropWhile (· = '#')).rdropWhile isWhitespace := by
  have hline : line.takeWhile (· = '#') ++ line.dropWhile (· = '#') = line := List.takeWhile_append_dropWhile
  have hhashes := not_isWhitespace_hash (hashes_all line)
  have hhead : ∀ c ∈ line.head?, isWhitespace c = false := by
    intro c hc
    rw [← hline, List.head?_append_of_ne_nil _ h] at hc
    exact hhashes c (List.mem_of_mem_head? hc)
  rw [trimChars_of_head hhead]
  conv_lhs => rw [← hline]
  rw [rdropWhile_append]
  split_ifs with hall
  · rw [List.rdropWhile_eq_nil_iff.mpr (List.all_eq_true.mp hall), List.append_nil]
    exact rdropWhile_of_last fun c hc => hhashes c (List.mem_of_getLast? hc)
  · rfl

theorem head_rdropWhile {p : Char → Bool} {s : Line} {c : Char} (h : c ∈ (s.rdropWhile p).head?) : c ∈ s.head? := by
  obtain ⟨rest, hrest⟩ := List.rdropWhile_prefix p s
  rw [← hrest, List.head?_append]
  exact Option.or_eq_some_iff.mpr (.inl h)

theorem fenceOpen_of_head {s : Line} (h : ∀ c ∈ s.head?, c ≠ backtick ∧ c ≠ '~') : fenceOpen s = none := by
  cases s with
  | nil => rfl
  | cons c s => exact if_pos (h c rfl)

theorem take_trimmed {hashes rest : Line} (hall : hashes.all (· = '#') = true)
    (hrest : ∀ c ∈ rest.head?, c ≠ '#') :
    (hashes ++ rest).takeWhile (· = '#') = hashes ∧ (hashes ++ rest).dropWhile (· = '#') = rest := by
  have hpos := List.all_eq_true.mp hall
  have hstop : ∀ c ∈ rest.head?, decide (c = '#') = false := fun c hc => decide_eq_false (hrest c hc)
  constructor
  · rw [List.takeWhile_append_of_pos hpos]
    cases rest with
    | nil => simp
    | cons c rest => rw [List.takeWhile_cons, hstop c rfl]; simp
  · rw [List.dropWhile_append_of_pos hpos, dropWhile_of_head hstop]

theorem atxHeading_append {hashes rest : Line} (hne : hashes ≠ []) (hshort : hashes.length ≤ 6)
    (hall : hashes.all (· = '#') = true) (hblank : ∀ c ∈ rest.head?, isBlankChar c = true) :
    atxHeading (hashes ++ rest) = some (hashes.length, scannedText rest) := by
  have hrest : ∀ c ∈ rest.head?, c ≠ '#' := by
    intro c hc
    rintro rfl
    exact Bool.false_ne_true (hblank '#' hc)
  have hpos := List.length_pos_of_ne_nil hne
  have hopen : ¬ (rest ≠ [] ∧ rest.head? ≠ some ' ' ∧ rest.head? ≠ some '\t') := by
    rintro ⟨hnil, hspace, htab⟩
    obtain ⟨c, rest, rfl⟩ := List.exists_cons_of_ne_nil hnil
    have hc := hblank c rfl
    simp only [isBlankChar, Bool.or_eq_true, decide_eq_true_eq] at hc
    rcases hc with rfl | rfl
    · exact hspace rfl
    · exact htab rfl
  unfold atxHeading
  dsimp only
  rw [(take_trimmed hall hrest).1, List.drop_left, if_neg (by omega), if_neg hopen]
  rfl

theorem atxHeading_of_atx {line text : Line} {level : Nat} (h : atx line = some (level, text)) :
    fenceOpen (trimChars line) = none ∧
      ∃ scanned, atxHeading (trimChars line) = some (level, scanned) ∧ (scanned = text ↔ AtxPlain line) := by
  unfold atx at h
  dsimp only at h
  split_ifs at h with hhashes hrest
  rw [not_or] at hhashes
  rw [Option.some.injEq, Prod.mk.injEq] at h
  obtain ⟨rfl, rfl⟩ := h
  have hall := hashes_all line
  have hblank : ∀ c ∈ (line.dropWhile (· = '#')).head?, isBlankChar c = true := by
    intro c hc
    rcases hrest with hnil | hany
    · rw [hnil] at hc
      exact absurd hc nofun
    · rw [hc] at hany
      exact hany
  obtain ⟨dropped, hsplit, hdropped⟩ := rdropWhile_split isWhitespace (line.dropWhile (· = '#'))
  have hscanned : scannedText ((line.dropWhile (· = '#')).rdropWhile isWhitespace) =
      scannedText (strip (line.dropWhile (· = '#'))) := by
    have htrim : trimChars ((line.dropWhile (· = '#')).rdropWhile isWhitespace) =
        trimChars (line.dropWhile (· = '#')) := by
      conv_rhs => rw [hsplit]
      exact (trimChars_append_blanks hdropped).symm
    rw [scannedText, scannedText, htrim, trimChars_strip]
  refine ⟨fenceOpen_of_head fun c hc => ?_, scannedText (strip (line.dropWhile (· = '#'))), ?_,
    scannedText_eq_iff (stripped_strip _)⟩
  · rw [trimChars_hashes hhashes.1, List.head?_append_of_ne_nil _ hhashes.1] at hc
    have hhash := of_decide_eq_true (List.all_eq_true.mp hall c (List.mem_of_mem_head? hc))
    rw [hhash]
    decide
  · rw [trimChars_hashes hhashes.1, ← hscanned]
    exact atxHeading_append hhashes.1 (Nat.le_of_not_lt hhashes.2) hall fun c hc =>
      hblank c (head_rdropWhile hc)

theorem atxHeading_length {trimmed text : Line} {level : Nat} (h : atxHeading trimmed = some (level, text)) :
    text.length < trimmed.length := by
  unfold atxHeading at h
  dsimp only at h
  split_ifs at h with hcount hrest
  rw [Option.some.injEq, Prod.mk.injEq] at h
  obtain ⟨rfl, rfl⟩ := h
  rw [not_or] at hcount
  have hle := scannedText_length (trimmed.drop (trimmed.takeWhile (· = '#')).length)
  have hle' := (List.rdropWhile_prefix (fun c => decide (c = '#'))
    (trimChars (trimmed.drop (trimmed.takeWhile (· = '#')).length))).length_le
  have hle'' := (trimChars_isInfix (trimmed.drop (trimmed.takeWhile (· = '#')).length)).length_le
  have htake := (List.takeWhile_prefix (fun c => decide (c = '#')) (l := trimmed)).length_le
  rw [List.length_drop] at hle''
  rw [scannedText] at hle
  omega

theorem strip_of_column {line : Line} (h : atColumnZero line = true) :
    strip line = line.rdropWhile isBlankChar ∧ strip line ≠ [] := by
  obtain ⟨c, hc, hblank⟩ := (Option.any_eq_true _ _).mp h
  have hstrip : strip line = line.rdropWhile isBlankChar := by
    rw [strip, dropWhile_of_head fun d hd => by rw [hc] at hd; rw [← Option.some.inj hd]; simpa using hblank]
  refine ⟨hstrip, fun hnil => ?_⟩
  rw [hstrip, List.rdropWhile_eq_nil_iff] at hnil
  have hall := hnil c (List.mem_of_mem_head? hc)
  rw [hall] at hblank
  exact Bool.false_ne_true hblank

theorem drop_hashes (line : Line) : line.drop (line.takeWhile (· = '#')).length = line.dropWhile (· = '#') := by
  have hline : line.takeWhile (· = '#') ++ line.dropWhile (· = '#') = line := List.takeWhile_append_dropWhile
  have hleft : (line.takeWhile (· = '#') ++ line.dropWhile (· = '#')).drop (line.takeWhile (· = '#')).length =
      line.dropWhile (· = '#') := List.drop_left
  rwa [hline] at hleft

theorem atxHeading_inv {trimmed : Line} {heading : Nat × Line} (h : atxHeading trimmed = some heading) :
    trimmed.takeWhile (· = '#') ≠ [] ∧ (trimmed.takeWhile (· = '#')).length ≤ 6 ∧
      ∀ c ∈ (trimmed.dropWhile (· = '#')).head?, isBlankChar c = true := by
  unfold atxHeading at h
  dsimp only at h
  rw [drop_hashes] at h
  split_ifs at h with hcount hrest
  rw [not_or] at hcount
  refine ⟨fun hnil => hcount.1 (by rw [hnil]; rfl), Nat.le_of_not_lt hcount.2, fun c hc => ?_⟩
  by_contra hblank
  refine hrest ⟨fun hnil => by rw [hnil] at hc; exact absurd hc nofun, ?_, ?_⟩
  · rw [hc, ne_eq, Option.some.injEq]
    rintro rfl
    exact hblank rfl
  · rw [hc, ne_eq, Option.some.injEq]
    rintro rfl
    exact hblank rfl

theorem atx_append {hashes rest : Line} (hne : hashes ≠ []) (hshort : hashes.length ≤ 6)
    (hall : hashes.all (· = '#') = true) (hblank : ∀ c ∈ rest.head?, isBlankChar c = true) :
    atx (hashes ++ rest) ≠ none := by
  have hrest : ∀ c ∈ rest.head?, c ≠ '#' := by
    intro c hc
    rintro rfl
    exact Bool.false_ne_true (hblank '#' hc)
  have hopen : rest = [] ∨ rest.head?.any isBlankChar = true := by
    cases rest with
    | nil => exact .inl rfl
    | cons c rest => exact .inr (hblank c rfl)
  unfold atx
  dsimp only
  rw [(take_trimmed hall hrest).1, (take_trimmed hall hrest).2, if_neg (by rw [not_or]; exact ⟨hne, by omega⟩),
    if_pos hopen]
  exact Option.some_ne_none _

theorem atxHeading_of_text {line : Line} (hcolumn : atColumnZero line = true) (hatx : atx line = none)
    (htrim : trimChars line = strip line) : trimChars line ≠ [] ∧ atxHeading (trimChars line) = none := by
  obtain ⟨hstrip, hne⟩ := strip_of_column hcolumn
  rw [htrim]
  refine ⟨hne, ?_⟩
  by_contra hsome
  obtain ⟨heading, hheading⟩ := Option.ne_none_iff_exists'.mp hsome
  obtain ⟨hhashes, hshort, hblank⟩ := atxHeading_inv hheading
  obtain ⟨blanks, hsplit, hblanks⟩ := rdropWhile_split isBlankChar line
  have hline : (strip line).takeWhile (· = '#') ++ ((strip line).dropWhile (· = '#') ++ blanks) = line := by
    rw [← List.append_assoc, List.takeWhile_append_dropWhile, hstrip, ← hsplit]
  refine atx_append hhashes hshort (hashes_all _) ?_ (hline ▸ hatx)
  intro c hc
  rw [List.head?_append, Option.mem_def, Option.or_eq_some_iff] at hc
  rcases hc with hin | ⟨-, hin⟩
  · exact hblank c hin
  · exact List.all_eq_true.mp hblanks c (List.mem_of_mem_head? hin)

theorem underlined {body blanks : Line} {c : Char} (hall : body.all (· = c) = true)
    (hblanks : blanks.all isBlankChar = true) (hc : isWhitespace c = false) :
    trimChars (body ++ blanks) = body := by
  have hbody : ∀ d ∈ body, isWhitespace d = false := fun d hd => by
    rw [of_decide_eq_true (List.all_eq_true.mp hall d hd), hc]
  rw [trimChars_append_blanks (all_mono (fun _ => isWhitespace_of_blank) hblanks),
    trimChars_of_head fun d hd => hbody d (List.mem_of_mem_head? hd)]
  exact rdropWhile_of_last fun d hd => hbody d (List.mem_of_getLast? hd)

theorem setextUnderline_of_underline {line : Line} {level : Nat} (h : underline line = some level) :
    setextUnderline (trimChars line) = some level := by
  obtain ⟨blanks, hsplit, hblanks⟩ := rdropWhile_split isBlankChar line
  unfold underline at h
  dsimp only at h
  split_ifs at h with hequals hdashes
  · have htrim : trimChars line = line.rdropWhile isBlankChar := by
      conv_lhs => rw [hsplit]
      exact underlined hequals.2 hblanks (by decide)
    rw [htrim, setextUnderline, if_pos hequals]
    exact h
  · have htrim : trimChars line = line.rdropWhile isBlankChar := by
      conv_lhs => rw [hsplit]
      exact underlined hdashes.2 hblanks (by decide)
    rw [htrim, setextUnderline, if_neg hequals, if_pos hdashes]
    exact h

theorem underline_plain {trimmed : Line} {level : Nat} (h : setextUnderline trimmed = some level) :
    fenceOpen trimmed = none ∧ trimmed ≠ [] ∧ atxHeading trimmed = none := by
  have hhead : trimmed ≠ [] ∧ ∀ c ∈ trimmed, c = '=' ∨ c = '-' := by
    unfold setextUnderline at h
    split_ifs at h with hequals hdashes
    · exact ⟨hequals.1, fun c hc => .inl (of_decide_eq_true (List.all_eq_true.mp hequals.2 c hc))⟩
    · exact ⟨hdashes.1, fun c hc => .inr (of_decide_eq_true (List.all_eq_true.mp hdashes.2 c hc))⟩
  obtain ⟨hne, hall⟩ := hhead
  refine ⟨fenceOpen_of_head fun c hc => ?_, hne, ?_⟩
  · rcases hall c (List.mem_of_mem_head? hc) with rfl | rfl <;> decide
  · by_contra hsome
    obtain ⟨heading, hheading⟩ := Option.ne_none_iff_exists'.mp hsome
    obtain ⟨c, hashes, hcons⟩ := List.exists_cons_of_ne_nil (atxHeading_inv hheading).1
    have hhash : c = '#' := of_decide_eq_true
      (List.all_eq_true.mp (hashes_all trimmed) c (by rw [hcons]; exact List.mem_cons_self))
    have hmem : c ∈ trimmed := (List.takeWhile_prefix _).subset (by rw [hcons]; exact List.mem_cons_self)
    subst hhash
    rcases hall '#' hmem with heq | heq <;> exact absurd heq (by decide)

theorem length_setextText (text : Line) (more : List Line) :
    (strip text).length ≤ (setextText text more).length ∧
      (more ≠ [] → (strip text).length < (setextText text more).length) := by
  cases more with
  | nil => exact ⟨by rw [setextText]; simp, fun h => absurd rfl h⟩
  | cons line more =>
    have hjoin : setextText text (line :: more) = strip text ++ ['\n'] ++ setextText line more := by
      rw [setextText, List.map_cons, List.intercalate_cons_of_ne_nil (by simp), setextText]
    rw [hjoin, List.append_assoc, List.length_append, List.length_append, List.length_singleton]
    exact ⟨by omega, fun _ => by omega⟩

/-! ## The scan by lines -/

def foundAt (fence : Option (Char × Nat)) (pending : Bool) (line : Line) (next : Option Line) :
    Option (Nat × Line) :=
  let trimmed := trimChars line
  if fence ≠ none ∨ fenceOpen trimmed ≠ none then none
  else
    match atxHeading trimmed with
    | some heading => some heading
    | none =>
      if trimmed = [] ∨ (pending ∧ (setextUnderline trimmed).isSome) then none
      else (next.bind fun u => setextUnderline (trimChars u)).map fun level => (level, trimmed)

def pendingAfter (fence : Option (Char × Nat)) (pending : Bool) (line : Line) : Bool :=
  let trimmed := trimChars line
  fence = none && fenceOpen trimmed = none && trimmed ≠ [] && atxHeading trimmed = none &&
    !(pending && (setextUnderline trimmed).isSome)

def headingAt (ln : Nat) (heading : Option (Nat × Line)) : List RawHeading :=
  (heading.map fun h => ⟨h.1, h.2, ln⟩).toList

def foundFrom (fence : Option (Char × Nat)) (pending : Bool) (ln : Nat) : List Line → List RawHeading
  | [] => []
  | line :: rest =>
    headingAt ln (foundAt fence pending line rest.head?) ++
      foundFrom (fenceStep fence line) (pendingAfter fence pending line) (ln + 1) rest

def pendingHeading (st : ScanState) (next : Option Line) : List RawHeading :=
  (st.pendingPara.bind fun p =>
    (next.bind fun u => setextUnderline (trimChars u)).map fun level => ⟨level, p.2, p.1⟩).toList

theorem pendingHeading_none {st : ScanState} (h : st.pendingPara = none) (next : Option Line) :
    pendingHeading st next = [] := by
  rw [pendingHeading, h]
  rfl

/-- A turn of the scan: the headings found so far, with that of the pending line, go on with the one
whose first line is read. -/
theorem scanLine_found (st : ScanState) (i : Nat) (line : Line) (next : Option Line)
    (hpending : st.fence ≠ none → st.pendingPara = none) :
    (scanLine st i line).headings ++ pendingHeading (scanLine st i line) next =
        st.headings ++ pendingHeading st (some line) ++
          headingAt (i + 1) (foundAt st.fence st.pendingPara.isSome line next) ∧
      (scanLine st i line).pendingPara.isSome = pendingAfter st.fence st.pendingPara.isSome line ∧
      ((scanLine st i line).fence ≠ none → (scanLine st i line).pendingPara = none) := by
  unfold scanLine foundAt pendingAfter
  cases hfence : st.fence with
  | some opened =>
    have hnone := hpending (by rw [hfence]; exact Option.some_ne_none _)
    refine ⟨?_, rfl, fun _ => rfl⟩
    dsimp only
    rw [pendingHeading_none rfl, pendingHeading_none hnone, if_pos (.inl (Option.some_ne_none _))]
    simp [headingAt]
  | none =>
    dsimp only
    cases hopen : fenceOpen (trimChars line) with
    | some opened =>
      have hset : setextUnderline (trimChars line) = none := by
        by_contra hsome
        obtain ⟨level, hlevel⟩ := Option.ne_none_iff_exists'.mp hsome
        rw [(underline_plain hlevel).1] at hopen
        exact absurd hopen nofun
      refine ⟨?_, by simp, fun _ => rfl⟩
      dsimp only
      rw [pendingHeading_none rfl, if_pos (.inr (Option.some_ne_none _)), pendingHeading, Option.bind_some, hset]
      cases st.pendingPara <;> simp [headingAt]
    | none =>
      dsimp only
      rw [if_neg (not_or.mpr ⟨not_not.mpr rfl, not_not.mpr rfl⟩)]
      by_cases hblank : trimChars line = []
      · have hatx : atxHeading (trimChars line) = none := by rw [hblank]; rfl
        have hset : setextUnderline (trimChars line) = none := by rw [hblank]; rfl
        rw [if_pos hblank]
        refine ⟨?_, by simp [hblank], fun _ => rfl⟩
        dsimp only
        rw [hatx, pendingHeading_none rfl, pendingHeading, Option.bind_some, hset, if_pos (.inl hblank)]
        cases st.pendingPara <;> simp [headingAt]
      · rw [if_neg hblank]
        cases hatx : atxHeading (trimChars line) with
        | some heading =>
          have hset : setextUnderline (trimChars line) = none := by
            by_contra hsome
            obtain ⟨level, hlevel⟩ := Option.ne_none_iff_exists'.mp hsome
            rw [(underline_plain hlevel).2.2] at hatx
            exact absurd hatx nofun
          refine ⟨?_, by simp, fun _ => rfl⟩
          dsimp only
          rw [pendingHeading_none rfl, pendingHeading, Option.bind_some, hset]
          cases st.pendingPara <;> simp [headingAt]
        | none =>
          cases hset : setextUnderline (trimChars line) with
          | none =>
            refine ⟨?_, by simp [hblank], fun hne => absurd rfl hne⟩
            dsimp only
            rw [pendingHeading, pendingHeading, Option.bind_some, Option.bind_some, hset,
              if_neg (by simp [hblank])]
            cases st.pendingPara <;> cases next <;> simp [headingAt, Function.comp_def]
          | some level =>
            cases hpara : st.pendingPara with
            | none =>
              refine ⟨?_, by simp [hblank], fun hne => absurd rfl hne⟩
              dsimp only
              rw [pendingHeading_none hpara, pendingHeading, Option.bind_some, if_neg (by simp [hblank])]
              cases next <;> simp [headingAt, Function.comp_def]
            | some p =>
              refine ⟨?_, by simp, fun _ => rfl⟩
              dsimp only
              rw [pendingHeading_none rfl, pendingHeading, hpara, if_pos (.inr ⟨rfl, rfl⟩)]
              simp [headingAt, hset]

theorem scanFrom_found (lines : List Line) (st : ScanState) (i : Nat)
    (hpending : st.fence ≠ none → st.pendingPara = none) :
    (scanFrom st i lines).headings =
      st.headings ++ pendingHeading st lines.head? ++
        foundFrom st.fence st.pendingPara.isSome (i + 1) lines := by
  induction lines generalizing st i with
  | nil =>
    have hnone : pendingHeading st none = [] := by
      rw [pendingHeading]
      cases st.pendingPara <;> rfl
    rw [List.head?_nil, hnone, foundFrom, List.append_nil, List.append_nil]
    rfl
  | cons line rest ih =>
    obtain ⟨hheadings, hkept, hclean⟩ := scanLine_found st i line rest.head? hpending
    rw [scanFrom_cons, ih _ _ hclean, hheadings, hkept, scanLine_fence, foundFrom, List.head?_cons]
    simp only [List.append_assoc]

theorem scan_found {lines : List Line} (h : (scanFrontMatter lines).2 = 0) :
    (ScanResult.scan lines).headings = foundFrom none false 1 lines := by
  have hscan := scanFrom_found lines ⟨none, none, []⟩ 0 fun hne => absurd rfl hne
  rw [ScanResult.scan]
  dsimp only
  rw [h, List.drop_zero, hscan]
  rfl

/-! ## Line by line -/

def definedAt (mark : Line × Role) : Option (Nat × Line) :=
  match mark.2 with
  | .atx => atx mark.1
  | .setext more under => (underline under).map fun level => (level, setextText mark.1 more)
  | _ => none

def definedFrom (ln : Nat) : List (Line × Role) → List RawHeading
  | [] => []
  | mark :: rest => headingAt ln (definedAt mark) ++ definedFrom (ln + 1) rest

def pendingBehind (fence : Option (Char × Nat)) (pending : Bool) : List Line → Bool
  | [] => pending
  | line :: rest => pendingBehind (fenceStep fence line) (pendingAfter fence pending line) rest

theorem pendingBehind_concat (fence : Option (Char × Nat)) (pending : Bool) (lines : List Line) (line : Line) :
    pendingBehind fence pending (lines ++ [line]) =
      pendingAfter (lines.foldl fenceStep fence) (pendingBehind fence pending lines) line := by
  induction lines generalizing fence pending with
  | nil => rfl
  | cons l lines ih => exact ih _ _

theorem le_line_foundFrom {fence : Option (Char × Nat)} {pending : Bool} {ln : Nat} {lines : List Line}
    {h : RawHeading} (hmem : h ∈ foundFrom fence pending ln lines) : ln ≤ h.line := by
  induction lines generalizing fence pending ln with
  | nil => exact absurd hmem List.not_mem_nil
  | cons line rest ih =>
    rcases List.mem_append.mp hmem with hhere | hrest
    · obtain ⟨heading, -, rfl⟩ := Option.map_eq_some_iff.mp (Option.mem_toList.mp hhere)
      exact le_rfl
    · exact Nat.le_of_succ_le (ih hrest)

theorem le_line_definedFrom {ln : Nat} {marks : List (Line × Role)} {h : RawHeading}
    (hmem : h ∈ definedFrom ln marks) : ln ≤ h.line := by
  induction marks generalizing ln with
  | nil => exact absurd hmem List.not_mem_nil
  | cons mark rest ih =>
    rcases List.mem_append.mp hmem with hhere | hrest
    · obtain ⟨heading, -, rfl⟩ := Option.map_eq_some_iff.mp (Option.mem_toList.mp hhere)
      exact le_rfl
    · exact Nat.le_of_succ_le (ih hrest)

theorem headingAt_append_inj {ln : Nat} {a b : Option (Nat × Line)} {l l' : List RawHeading}
    (hl : ∀ h ∈ l, ln < h.line) (hl' : ∀ h ∈ l', ln < h.line) :
    headingAt ln a ++ l = headingAt ln b ++ l' ↔ a = b ∧ l = l' := by
  refine ⟨fun h => ?_, fun h => by rw [h.1, h.2]⟩
  cases a with
  | none =>
    cases b with
    | none => exact ⟨rfl, h⟩
    | some y => exact absurd (hl ⟨y.1, y.2, ln⟩ (by rw [show l = _ from h]; simp [headingAt])) (Nat.lt_irrefl ln)
  | some x =>
    cases b with
    | none => exact absurd (hl' ⟨x.1, x.2, ln⟩ (by rw [← show _ = l' from h]; simp [headingAt])) (Nat.lt_irrefl ln)
    | some y =>
      have hcons : (⟨x.1, x.2, ln⟩ : RawHeading) = ⟨y.1, y.2, ln⟩ ∧ l = l' := List.cons.inj h
      rw [RawHeading.mk.injEq] at hcons
      exact ⟨congrArg some (Prod.ext hcons.1.1 hcons.1.2.1), hcons.2⟩

theorem found_eq_defined_iff (fence : Option (Char × Nat)) (pending : Bool) (ln : Nat)
    (marks : List (Line × Role)) :
    foundFrom fence pending ln (marks.map Prod.fst) = definedFrom ln marks ↔
      ∀ before mark after, marks = before ++ mark :: after →
        foundAt ((before.map Prod.fst).foldl fenceStep fence)
            (pendingBehind fence pending (before.map Prod.fst)) mark.1 (after.head?.map Prod.fst) =
          definedAt mark := by
  induction marks generalizing fence pending ln with
  | nil => exact iff_of_true rfl fun before mark after h => absurd h (by simp)
  | cons mark rest ih =>
    rw [List.map_cons, foundFrom, definedFrom,
      headingAt_append_inj (fun h hmem => le_line_foundFrom hmem) (fun h hmem => le_line_definedFrom hmem), ih,
      List.head?_map]
    constructor
    · rintro ⟨hhere, hrest⟩ before m after hsplit
      cases before with
      | nil =>
        obtain ⟨rfl, rfl⟩ := List.cons.inj hsplit
        exact hhere
      | cons b before =>
        obtain ⟨rfl, hsplit'⟩ := List.cons.inj hsplit
        exact hrest before m after hsplit'
    · intro hall
      refine ⟨hall [] mark rest rfl, fun before m after hsplit => ?_⟩
      exact hall (mark :: before) m after (by rw [hsplit]; rfl)

/-! ## The marks of a document -/

theorem Block.marks_lines (b : Block) : b.marks.map Prod.fst = b.lines := by
  cases b with
  | atx line => rfl
  | setext text more under =>
    rw [Block.marks, Block.lines, List.map_cons, List.map_append, List.map_map]
    exact congrArg (fun l => text :: (l ++ [under])) (List.map_id' more)
  | paragraph text more => exact (List.map_map).trans (List.map_id' _)
  | thematic line => rfl
  | blank line => rfl
  | fenced opening content closing => exact (List.map_map).trans (List.map_id' _)

theorem definedFrom_append (ln : Nat) (marks more : List (Line × Role)) :
    definedFrom ln (marks ++ more) = definedFrom ln marks ++ definedFrom (ln + marks.length) more := by
  induction marks generalizing ln with
  | nil => rfl
  | cons mark marks ih =>
    rw [List.cons_append, definedFrom, definedFrom, ih, List.append_assoc, List.length_cons,
      Nat.add_assoc, Nat.add_comm 1]

theorem definedFrom_other (ln : Nat) (lines : List Line) :
    definedFrom ln (lines.map fun line => (line, Role.other)) = [] := by
  induction lines generalizing ln with
  | nil => rfl
  | cons line lines ih => exact ih (ln + 1)

theorem Block.defined (b : Block) (ln : Nat) : definedFrom ln b.marks = (b.heading ln).toList := by
  cases b with
  | atx line => exact List.append_nil _
  | setext text more under =>
    rw [Block.marks, definedFrom, definedFrom_append, definedFrom_other]
    have hunder : definedAt (text, .setext more under) =
        (underline under).map fun level => (level, setextText text more) := rfl
    rw [hunder, Block.heading, headingAt, Option.map_map]
    simp [definedFrom, definedAt, headingAt, Function.comp_def]
  | paragraph text more => exact definedFrom_other ln _
  | thematic line => rfl
  | blank line => rfl
  | fenced opening content closing => exact definedFrom_other ln _

theorem definedFrom_marks (blocks : List Block) (ln : Nat) :
    definedFrom ln (blocks.flatMap Block.marks) = headingsFrom ln blocks := by
  induction blocks generalizing ln with
  | nil => rfl
  | cons b blocks ih =>
    rw [List.flatMap_cons, definedFrom_append, b.defined, ih, headingsFrom, ← b.marks_lines, List.length_map]

theorem marks_lines (doc : Document foreign) : doc.marks.map Prod.fst = doc.lines := by
  rw [Document.marks, Document.lines, List.map_flatMap]
  exact congrArg (fun f => doc.blocks.flatMap f) (funext Block.marks_lines)

theorem readRight_iff_lines (doc : Document foreign) :
    ReadRight doc ↔ ∀ before mark after, doc.marks = before ++ mark :: after →
      foundAt ((before.map Prod.fst).foldl fenceStep none)
          (pendingBehind none false (before.map Prod.fst)) mark.1 (after.head?.map Prod.fst) =
        definedAt mark := by
  have hscan : (ScanResult.scan doc.lines).headings = foundFrom none false 1 doc.lines :=
    scan_found doc.noFrontMatter
  rw [← found_eq_defined_iff none false 1, marks_lines, ReadRight, hscan, Document.headings,
    ← definedFrom_marks]
  rfl

/-- The first line of a Setext heading of one line stands before its underline, and no other does. -/
def Follows (x y : Line × Role) : Prop :=
  (∀ under, x.2 = .setext [] under → y = (under, .underline true)) ∧
    (y.2 = .underline true → x.2 = .setext [] y.1)

theorem follows_of_other {x y : Line × Role} (hx : ∀ under, x.2 ≠ .setext [] under)
    (hy : y.2 ≠ .underline true) : Follows x y :=
  ⟨fun under h => absurd h (hx under), fun h => absurd h hy⟩

theorem isChain_of_other {marks : List (Line × Role)} (h : ∀ x ∈ marks, x.2 = .other) :
    marks.IsChain Follows := by
  rw [List.isChain_iff_forall_rel_of_append_cons_cons]
  rintro x y before after rfl
  refine follows_of_other (fun under hx => ?_) fun hy => ?_
  · rw [h x (by simp)] at hx
    exact Role.noConfusion hx
  · rw [h y (by simp)] at hy
    exact Role.noConfusion hy

theorem Block.marks_chain (b : Block) :
    b.marks.IsChain Follows ∧ (∀ x ∈ b.marks.head?, x.2 ≠ .underline true) ∧
      ∀ x ∈ b.marks.getLast?, ∀ under, x.2 ≠ .setext [] under := by
  have hother (lines : List Line) : ∀ x ∈ lines.map fun line => (line, Role.other), x.2 = .other := by
    intro x hx
    obtain ⟨line, -, rfl⟩ := List.mem_map.mp hx
    rfl
  have hplain {marks : List (Line × Role)} (h : ∀ x ∈ marks, x.2 = .other) :
      marks.IsChain Follows ∧ (∀ x ∈ marks.head?, x.2 ≠ .underline true) ∧
        ∀ x ∈ marks.getLast?, ∀ under, x.2 ≠ .setext [] under := by
    refine ⟨isChain_of_other h, fun x hx hc => ?_, fun x hx under hc => ?_⟩
    · rw [h x (List.mem_of_mem_head? hx)] at hc
      exact Role.noConfusion hc
    · rw [h x (List.mem_of_getLast? hx)] at hc
      exact Role.noConfusion hc
  cases b with
  | atx line =>
    refine ⟨.singleton _, fun x hx hc => ?_, fun x hx under hc => ?_⟩
    · rw [← Option.some.inj hx] at hc
      exact Role.noConfusion hc
    · rw [← Option.some.inj hx] at hc
      exact Role.noConfusion hc
  | setext text more under =>
    refine ⟨?_, fun x hx hc => ?_, fun x hx u hc => ?_⟩
    · cases more with
      | nil =>
        rw [Block.marks]
        refine List.isChain_pair.mpr ⟨fun u h => ?_, fun _ => rfl⟩
        rw [Role.setext.injEq] at h
        rw [h.2]
        rfl
      | cons line more =>
        have hmarks : Block.marks (.setext text (line :: more) under) =
            (text, .setext (line :: more) under) ::
              (((line :: more).map fun l => (l, Role.other)) ++ [(under, .underline false)]) := rfl
        rw [hmarks, List.isChain_cons, List.isChain_append]
        refine ⟨fun y hy => follows_of_other (fun u h => ?_) fun h => ?_,
          isChain_of_other (hother (line :: more)), .singleton _, fun x hx y hy =>
            follows_of_other (fun u h => ?_) fun h => ?_⟩
        · rw [Role.setext.injEq] at h
          exact absurd h.1 (List.cons_ne_nil _ _)
        · rw [← Option.some.inj hy] at h
          exact Role.noConfusion h
        · rw [hother (line :: more) x (List.mem_of_getLast? hx)] at h
          exact Role.noConfusion h
        · rw [← Option.some.inj hy, Role.underline.injEq] at h
          exact Bool.false_ne_true h
    · rw [← Option.some.inj hx] at hc
      exact Role.noConfusion hc
    · rw [Block.marks, ← List.cons_append, List.getLast?_concat] at hx
      rw [← Option.some.inj hx] at hc
      exact Role.noConfusion hc
  | paragraph text more => exact hplain (hother _)
  | thematic line => exact hplain (hother _)
  | blank line => exact hplain (hother _)
  | fenced opening content closing => exact hplain (hother _)

theorem marks_ne_nil (b : Block) : b.marks ≠ [] := by
  cases b <;> exact List.cons_ne_nil _ _

theorem marks_chain (blocks : List Block) :
    (blocks.flatMap Block.marks).IsChain Follows ∧
      (∀ x ∈ (blocks.flatMap Block.marks).head?, x.2 ≠ .underline true) ∧
        ∀ x ∈ (blocks.flatMap Block.marks).getLast?, ∀ under, x.2 ≠ .setext [] under := by
  induction blocks with
  | nil => exact ⟨.nil, fun x hx => absurd hx nofun, fun x hx => absurd hx nofun⟩
  | cons b blocks ih =>
    obtain ⟨hchain, hhead, hlast⟩ := b.marks_chain
    obtain ⟨hchain', hhead', hlast'⟩ := ih
    rw [List.flatMap_cons]
    refine ⟨List.isChain_append.mpr ⟨hchain, hchain', fun x hx y hy =>
      follows_of_other (hlast x hx) (hhead' y hy)⟩, ?_, ?_⟩
    · rw [List.head?_append_of_ne_nil _ (marks_ne_nil b)]
      exact hhead
    · by_cases hnil : blocks.flatMap Block.marks = []
      · rw [hnil, List.append_nil]
        exact hlast
      · rw [List.getLast?_append_of_ne_nil _ hnil]
        exact hlast'

variable {doc : Document foreign}

theorem underline_follows {before after : List (Line × Role)} {text under : Line}
    (h : doc.marks = before ++ (text, .setext [] under) :: after) :
    ∃ rest, after = (under, .underline true) :: rest := by
  obtain ⟨hchain, -, hlast⟩ := marks_chain doc.blocks
  rw [← Document.marks, h] at hchain hlast
  cases after with
  | nil => exact absurd rfl (hlast _ List.getLast?_concat under)
  | cons y rest =>
    have hfollows := (List.isChain_append_cons_cons.mp hchain).2.1
    exact ⟨rest, by rw [hfollows.1 under rfl]⟩

theorem text_before {before after : List (Line × Role)} {under : Line}
    (h : doc.marks = before ++ (under, .underline true) :: after) :
    ∃ front text, before = front ++ [(text, .setext [] under)] := by
  obtain ⟨hchain, hhead, -⟩ := marks_chain doc.blocks
  rw [← Document.marks, h] at hchain hhead
  induction before using List.reverseRec with
  | nil => exact absurd rfl (hhead _ rfl)
  | append_singleton front x _ =>
    rw [List.append_assoc] at hchain
    have hfollows := (List.isChain_append_cons_cons.mp hchain).2.1
    exact ⟨front, x.1, by rw [← hfollows.2 rfl]⟩

theorem mark_valid {mark : Line × Role} (h : mark ∈ doc.marks) :
    (mark.2 = .atx → (atx mark.1).isSome) ∧
      (∀ more under, mark.2 = .setext more under →
        IsText foreign true mark.1 ∧ (underline under).isSome) ∧
      ∀ single, mark.2 = .underline single →
        ∃ text more, (text, Role.setext more mark.1) ∈ doc.marks ∧ single = more.isEmpty := by
  obtain ⟨b, hb, hmark⟩ := List.mem_flatMap.mp h
  have hvalid := doc.valid b hb
  have hother {lines : List Line} (hin : mark ∈ lines.map fun line => (line, Role.other)) : mark.2 = .other := by
    obtain ⟨line, -, rfl⟩ := List.mem_map.mp hin
    rfl
  have hrest (hrole : mark.2 = .other) : (mark.2 = .atx → (atx mark.1).isSome) ∧
      (∀ more under, mark.2 = .setext more under → IsText foreign true mark.1 ∧ (underline under).isSome) ∧
      ∀ single, mark.2 = .underline single →
        ∃ text more, (text, Role.setext more mark.1) ∈ doc.marks ∧ single = more.isEmpty := by
    rw [hrole]
    exact ⟨nofun, nofun, nofun⟩
  cases b with
  | atx line =>
    obtain rfl := List.mem_singleton.mp hmark
    exact ⟨fun _ => hvalid, nofun, nofun⟩
  | setext text more under =>
    rcases List.mem_cons.mp hmark with rfl | hin
    · refine ⟨nofun, fun more' under' hrole => ?_, nofun⟩
      rw [Role.setext.injEq] at hrole
      exact ⟨hvalid.1.1, hrole.2 ▸ hvalid.2⟩
    rcases List.mem_append.mp hin with hmore | hunder
    · exact hrest (hother hmore)
    · obtain rfl := List.mem_singleton.mp hunder
      refine ⟨nofun, nofun, fun single hrole => ⟨text, more, ?_, (Role.underline.inj hrole).symm⟩⟩
      exact List.mem_flatMap.mpr ⟨_, hb, List.mem_cons_self⟩
  | paragraph text more => exact hrest (hother hmark)
  | thematic line => exact hrest (hother hmark)
  | blank line => exact hrest (hother hmark)
  | fenced opening content closing => exact hrest (hother hmark)

/-! ## Right at every line -/

def fenceBehind (before : List (Line × Role)) : Option (Char × Nat) :=
  (before.map Prod.fst).foldl fenceStep none

def isPending (before : List (Line × Role)) : Bool := pendingBehind none false (before.map Prod.fst)

def Consumed (before : List (Line × Role)) (line : Line) : Prop :=
  isPending before = true ∧ (setextUnderline (trimChars line)).isSome

variable {before after : List (Line × Role)} {mark : Line × Role} {line : Line} {next : Option Line}

theorem isPending_concat : isPending (before ++ [mark]) = true ↔
    Bare (before.map Prod.fst) mark.1 ∧ ¬ Consumed before mark.1 := by
  rw [isPending, List.map_append, List.map_singleton, pendingBehind_concat]
  unfold pendingAfter Bare Free Consumed isPending
  simp only [Bool.and_eq_true, decide_eq_true_eq, Bool.not_eq_true', ← Bool.not_eq_true, and_assoc, ne_eq]

theorem exists_of_isPending (h : isPending before = true) :
    ∃ front x, before = front ++ [x] ∧ Bare (front.map Prod.fst) x.1 ∧ ¬ Consumed front x.1 := by
  induction before using List.reverseRec with
  | nil => exact absurd h nofun
  | append_singleton front x _ => exact ⟨front, x, rfl, isPending_concat.mp h⟩

theorem foundAt_atx (hfree : Free (before.map Prod.fst) line) {heading : Nat × Line}
    (h : atxHeading (trimChars line) = some heading) (next : Option Line) :
    foundAt (fenceBehind before) (isPending before) line next = some heading := by
  have hfence : fenceBehind before = none := hfree.1
  unfold foundAt
  dsimp only
  rw [if_neg (not_or.mpr ⟨not_not.mpr hfence, not_not.mpr hfree.2⟩), h]

theorem foundAt_bare (hbare : Bare (before.map Prod.fst) line) (hkept : ¬ Consumed before line) :
    foundAt (fenceBehind before) (isPending before) line next =
      (next.bind fun u => setextUnderline (trimChars u)).map fun level => (level, trimChars line) := by
  have hfence : fenceBehind before = none := hbare.1.1
  unfold foundAt
  dsimp only
  rw [if_neg (not_or.mpr ⟨not_not.mpr hfence, not_not.mpr hbare.1.2⟩), hbare.2.2]
  exact if_neg (not_or.mpr ⟨hbare.2.1, hkept⟩)

theorem foundAt_some {heading : Nat × Line}
    (h : foundAt (fenceBehind before) (isPending before) line next = some heading) :
    Free (before.map Prod.fst) line ∧ (atxHeading (trimChars line) = some heading ∨
      Bare (before.map Prod.fst) line ∧ ¬ Consumed before line ∧
        ∃ u, next = some u ∧ setextUnderline (trimChars u) = some heading.1 ∧ heading.2 = trimChars line) := by
  unfold foundAt at h
  dsimp only at h
  by_cases hfence : fenceBehind before ≠ none ∨ fenceOpen (trimChars line) ≠ none
  · rw [if_pos hfence] at h
    exact absurd h nofun
  rw [if_neg hfence] at h
  rw [not_or, not_not, not_not] at hfence
  refine ⟨hfence, ?_⟩
  cases hatx : atxHeading (trimChars line) with
  | some found =>
    rw [hatx] at h
    exact .inl h
  | none =>
    rw [hatx] at h
    dsimp only at h
    split_ifs at h with hplain
    rw [not_or] at hplain
    obtain ⟨level, hlevel, rfl⟩ := Option.map_eq_some_iff.mp h
    obtain ⟨u, hu, hunder⟩ := Option.bind_eq_some_iff.mp hlevel
    exact .inr ⟨⟨hfence, hplain.1, hatx⟩, hplain.2, u, hu, hunder, rfl⟩

theorem mem_marks (h : doc.marks = before ++ mark :: after) : mark ∈ doc.marks := by
  rw [h]
  exact List.mem_append_right _ List.mem_cons_self

def RightEverywhere (doc : Document foreign) : Prop :=
  ∀ before mark after, doc.marks = before ++ mark :: after →
    foundAt (fenceBehind before) (isPending before) mark.1 (after.head?.map Prod.fst) = definedAt mark

theorem RightEverywhere.setext (h : RightEverywhere doc) {more : List Line} {under : Line}
    (hmarks : doc.marks = before ++ (line, .setext more under) :: after) :
    more = [] ∧ Free (before.map Prod.fst) line ∧ trimChars line = strip line := by
  obtain ⟨-, hunder⟩ := (mark_valid (mem_marks hmarks)).2.1 more under rfl
  obtain ⟨level, hlevel⟩ := Option.isSome_iff_exists.mp hunder
  have hfound := h before _ after hmarks
  have hdefined : definedAt (line, .setext more under) = some (level, setextText line more) := by
    show (underline under).map _ = _
    rw [hlevel]
    rfl
  rw [hdefined] at hfound
  obtain ⟨hle, hlt⟩ := length_setextText line more
  have htrim := length_trimChars_le line
  obtain ⟨hfree, hatx | ⟨-, -, u, -, -, htext⟩⟩ := foundAt_some hfound
  · have hshort : (setextText line more).length < (trimChars line).length := atxHeading_length hatx
    omega
  · have hlen : (setextText line more).length = (trimChars line).length := congrArg List.length htext
    have hsingle : more = [] := by
      by_contra hne
      have := hlt hne
      omega
    refine ⟨hsingle, hfree, ?_⟩
    rw [← htext, hsingle, setextText]
    simp

theorem RightEverywhere.underlined (h : RightEverywhere doc) {y : Line × Role}
    (hmarks : doc.marks = before ++ mark :: y :: after) (hbare : Bare (before.map Prod.fst) mark.1)
    (hkept : ¬ Consumed before mark.1) (hunder : (setextUnderline (trimChars y.1)).isSome) :
    y.2 = .underline true := by
  obtain ⟨level, hlevel⟩ := Option.isSome_iff_exists.mp hunder
  have hfound := h before mark (y :: after) hmarks
  rw [foundAt_bare hbare hkept] at hfound
  have hsome : definedAt mark = some (level, trimChars mark.1) := by
    rw [← hfound, List.head?_cons, Option.map_some, Option.bind_some, hlevel]
    rfl
  obtain ⟨line, role⟩ := mark
  cases role with
  | atx =>
    obtain ⟨-, scanned, hscanned, -⟩ := atxHeading_of_atx hsome
    rw [hbare.2.2] at hscanned
    exact absurd hscanned nofun
  | setext more under =>
    obtain ⟨rfl, -⟩ := h.setext hmarks
    obtain ⟨rest, hrest⟩ := underline_follows hmarks
    rw [(List.cons.inj hrest).1]
  | underline single => exact absurd hsome nofun
  | other => exact absurd hsome nofun

theorem RightEverywhere.plain (h : RightEverywhere doc) : Plain doc.marks where
  atx := by
    intro before line after hmarks
    obtain ⟨heading, hatx⟩ := Option.isSome_iff_exists.mp ((mark_valid (mem_marks hmarks)).1 rfl)
    obtain ⟨-, scanned, hscanned, hplain⟩ := atxHeading_of_atx hatx
    have hfound := h before _ after hmarks
    have hdefined : definedAt (line, .atx) = some heading := hatx
    rw [hdefined] at hfound
    obtain ⟨hfree, hsame | ⟨hbare, -⟩⟩ := foundAt_some hfound
    · rw [hscanned, Option.some.injEq] at hsame
      exact ⟨hfree, hplain.mp (congrArg Prod.snd hsame)⟩
    · rw [hbare.2.2] at hscanned
      exact absurd hscanned nofun
  setext := fun _ _ _ _ _ hmarks => h.setext hmarks
  other := by
    intro before line after hmarks hfree
    by_contra hsome
    obtain ⟨heading, hheading⟩ := Option.ne_none_iff_exists'.mp hsome
    have hfound := h before _ after hmarks
    rw [foundAt_atx hfree hheading] at hfound
    exact absurd hfound nofun
  apart := by
    intro before x y after hmarks hx hy hbare hfree
    by_contra hsome
    have hunder := Option.isSome_iff_ne_none.mpr hsome
    by_cases hkept : Consumed before x.1
    · obtain ⟨front, z, rfl, hbare', hkept'⟩ := exists_of_isPending hkept.1
      rw [List.append_assoc] at hmarks
      exact hx true (h.underlined hmarks hbare' hkept' hkept.2)
    · exact hy true (h.underlined hmarks hbare hkept hunder)

theorem Plain.bare (h : Plain doc.marks) {more : List Line} {under : Line}
    (hmarks : doc.marks = before ++ (line, .setext more under) :: after) :
    Bare (before.map Prod.fst) line := by
  obtain ⟨-, hfree, htrim⟩ := h.setext before line more under after hmarks
  obtain ⟨htext, -⟩ := (mark_valid (mem_marks hmarks)).2.1 more under rfl
  exact ⟨hfree, atxHeading_of_text htext.column htext.notAtx htrim⟩

theorem Plain.underline (h : Plain doc.marks) {single : Bool}
    (hmarks : doc.marks = before ++ (line, .underline single) :: after) :
    ∃ front text, before = front ++ [(text, .setext [] line)] ∧ (CommonMark.underline line).isSome := by
  obtain ⟨text, more, hmem, hsingle⟩ := (mark_valid (mem_marks hmarks)).2.2 single rfl
  obtain ⟨front, rest, hsplit⟩ := List.append_of_mem hmem
  obtain ⟨rfl, -⟩ := h.setext front text more line rest hsplit
  have htrue : single = true := hsingle
  obtain ⟨front', text', hbefore⟩ := text_before (htrue ▸ hmarks)
  exact ⟨front', text', hbefore, ((mark_valid hmem).2.1 [] line rfl).2⟩

theorem Plain.isPending_iff (h : Plain doc.marks) (hmarks : doc.marks = before ++ mark :: after) :
    isPending (before ++ [mark]) = true ↔
      Bare (before.map Prod.fst) mark.1 ∧ ∀ single, mark.2 ≠ .underline single := by
  induction before using List.reverseRec generalizing mark after with
  | nil =>
    rw [isPending_concat]
    refine and_congr_right fun _ => iff_of_true (fun hc => absurd hc.1 nofun) fun single hrole => ?_
    obtain ⟨line, role⟩ := mark
    obtain rfl : role = .underline single := hrole
    obtain ⟨front, text, hnil, -⟩ := h.underline hmarks
    simp at hnil
  | append_singleton front x ih =>
    rw [isPending_concat]
    refine and_congr_right fun hbare => ?_
    rw [List.append_assoc] at hmarks
    have hpending := ih hmarks
    constructor
    · intro hkept single hrole
      obtain ⟨line, role⟩ := mark
      obtain rfl : role = .underline single := hrole
      have hmarks' : doc.marks = (front ++ [x]) ++ (line, .underline single) :: after := by
        rw [List.append_assoc]
        exact hmarks
      obtain ⟨front', text, hbefore, hunder⟩ := h.underline hmarks'
      obtain ⟨rfl, hx⟩ := List.append_inj' hbefore rfl
      obtain rfl := (List.cons.inj hx).1
      obtain ⟨level, hlevel⟩ := Option.isSome_iff_exists.mp hunder
      refine hkept ⟨hpending.mpr ⟨h.bare hmarks, nofun⟩, ?_⟩
      rw [setextUnderline_of_underline hlevel]
      rfl
    · rintro hrole ⟨hbehind, hunder⟩
      obtain ⟨hbare', hrole'⟩ := hpending.mp hbehind
      have hnone := h.apart front x mark after hmarks hrole' hrole hbare' hbare.1
      rw [hnone] at hunder
      exact absurd hunder nofun

theorem Plain.kept (h : Plain doc.marks) (hmarks : doc.marks = before ++ mark :: after)
    (hbare : Bare (before.map Prod.fst) mark.1) (hrole : ∀ single, mark.2 ≠ .underline single) :
    ¬ Consumed before mark.1 :=
  (isPending_concat.mp ((h.isPending_iff hmarks).mpr ⟨hbare, hrole⟩)).2

theorem Plain.right (h : Plain doc.marks) : RightEverywhere doc := by
  intro before mark after hmarks
  obtain ⟨line, role⟩ := mark
  cases role with
  | atx =>
    obtain ⟨hfree, hplain⟩ := h.atx before line after hmarks
    obtain ⟨heading, hatx⟩ := Option.isSome_iff_exists.mp ((mark_valid (mem_marks hmarks)).1 rfl)
    obtain ⟨-, scanned, hscanned, hiff⟩ := atxHeading_of_atx hatx
    have hdefined : definedAt (line, .atx) = some heading := hatx
    rw [foundAt_atx hfree hscanned, hdefined, hiff.mpr hplain]
  | setext more under =>
    obtain ⟨rfl, -, htrim⟩ := h.setext before line more under after hmarks
    obtain ⟨rest, rfl⟩ := underline_follows hmarks
    obtain ⟨-, hunder⟩ := (mark_valid (mem_marks hmarks)).2.1 [] under rfl
    obtain ⟨level, hlevel⟩ := Option.isSome_iff_exists.mp hunder
    have hbare := h.bare hmarks
    have hdefined : definedAt (line, .setext [] under) = some (level, strip line) := by
      show (CommonMark.underline under).map _ = _
      rw [hlevel, setextText]
      simp
    rw [foundAt_bare hbare (h.kept hmarks hbare nofun), hdefined, List.head?_cons, Option.map_some,
      Option.bind_some, setextUnderline_of_underline hlevel, htrim]
    rfl
  | underline single =>
    have hdefined : definedAt (line, .underline single) = none := rfl
    rw [hdefined]
    by_contra hsome
    obtain ⟨heading, hfound⟩ := Option.ne_none_iff_exists'.mp hsome
    obtain ⟨front, text, -, hunder⟩ := h.underline hmarks
    obtain ⟨level, hlevel⟩ := Option.isSome_iff_exists.mp hunder
    obtain ⟨-, hatx | ⟨hbare, hkept, -⟩⟩ := foundAt_some hfound
    · rw [(underline_plain (setextUnderline_of_underline hlevel)).2.2] at hatx
      exact absurd hatx nofun
    · exact ((h.isPending_iff hmarks).mp (isPending_concat.mpr ⟨hbare, hkept⟩)).2 single rfl
  | other =>
    have hdefined : definedAt (line, .other) = none := rfl
    rw [hdefined]
    by_contra hsome
    obtain ⟨heading, hfound⟩ := Option.ne_none_iff_exists'.mp hsome
    obtain ⟨hfree, hatx | ⟨hbare, -, u, hnext, hunder, -⟩⟩ := foundAt_some hfound
    · rw [h.other before line after hmarks hfree] at hatx
      exact absurd hatx nofun
    obtain ⟨y, hy, rfl⟩ := Option.map_eq_some_iff.mp hnext
    obtain ⟨rest, rfl⟩ := List.head?_eq_some_iff.mp hy
    have hmarks' : doc.marks = (before ++ [(line, .other)]) ++ y :: rest := by
      rw [hmarks, List.append_assoc]
      rfl
    by_cases hrole : ∃ single, y.2 = .underline single
    · obtain ⟨single, hsingle⟩ := hrole
      obtain ⟨uline, urole⟩ := y
      obtain rfl : urole = .underline single := hsingle
      obtain ⟨front, text, hbefore, -⟩ := h.underline hmarks'
      obtain ⟨-, hmark⟩ := List.append_inj' hbefore rfl
      have hrole' := congrArg Prod.snd (List.cons.inj hmark).1
      exact Role.noConfusion hrole'
    · have hfree' : Free ((before ++ [(line, Role.other)]).map Prod.fst) y.1 := by
        refine ⟨?_, (underline_plain hunder).1⟩
        rw [List.map_append, List.foldl_append, hfree.1]
        exact hfree.2
      rw [h.apart before (line, .other) y rest hmarks nofun (not_exists.mp hrole) hbare hfree'] at hunder
      exact absurd hunder nofun

/-- The scan reads a document's headings as CommonMark does exactly when they are plain. -/
theorem readRight_iff (foreign : Bool → Line → Prop) (doc : Document foreign) :
    ReadRight doc ↔ Plain doc.marks := by
  rw [readRight_iff_lines]
  exact ⟨RightEverywhere.plain, Plain.right⟩

def sharpHeading : Document fun _ _ => False where
  blocks := [.atx "# C#".toList]
  valid := by
    intro b hb
    obtain rfl := List.mem_singleton.mp hb
    rfl
  apart := .singleton _
  oneLine := by decide
  noFrontMatter := by decide

/-- The hash of `C#` is dropped as a closing sequence. -/
theorem own_hash_dropped :
    ¬ ∀ (foreign : Bool → Line → Prop) (doc : Document foreign), ReadRight doc := by
  intro h
  have hread := h _ sharpHeading
  unfold ReadRight at hread
  revert hread
  decide

end Travsr.Analysis.CommonMark
