import Mathlib.Algebra.Ring.Int.Defs
import Mathlib.Data.List.DropRight
import Mathlib.Data.List.Flatten
import Mathlib.Data.List.Sort
import Mathlib.Tactic.Tauto
import Travsr.Core.Text

namespace Travsr.Analysis.Snippet

open Travsr.Core.Text

/-- A line of the file, as the slices of it know their place. -/
structure Slice where
  place : Nat
  text : List Char
  deriving DecidableEq

def startsWith (t : List Char) (pat : String) : Bool := pat.toList.isPrefixOf t

def isCommentLine (s : List Char) : Bool :=
  let t := trimChars s
  t.isEmpty
    || startsWith t "//"
    || startsWith t "*"
    || startsWith t "/*"
    || startsWith t "*/"
    || (startsWith t "#" && !startsWith t "#[" && !startsWith t "#![")
    || startsWith t "\"\"\""
    || (List.replicate 3 (Char.ofNat 0x27)).isPrefixOf t
    || startsWith t "--"
    || startsWith t "rem "
    || startsWith t "REM "

def skipLeadingComments : List Slice → List Slice
  | [] => []
  | signature :: rest => signature :: rest.dropWhile fun line => isCommentLine line.text

def bracketDelta (line : List Char) : Int := (line.count ']' : Int) - line.count '['

def takeBlock (depth : Int) : List Slice → List Slice × List Slice
  | [] => ([], [])
  | up :: rest =>
    if 0 < depth then
      let taken := takeBlock (depth + bracketDelta up.text) rest
      (up :: taken.1, taken.2)
    else ([], up :: rest)

theorem takeBlock_append (depth : Int) (lines : List Slice) :
    (takeBlock depth lines).1 ++ (takeBlock depth lines).2 = lines := by
  induction lines generalizing depth with
  | nil => rfl
  | cons up rest ih =>
    rw [takeBlock]
    split_ifs
    · exact congrArg (up :: ·) (ih _)
    · rfl

def endsInBracket (line : List Char) : Bool := (trimChars line).getLast? = some ']'

/-- The attribute blocks above a line, nearest first; the lines come nearest first too. -/
def attributeBlocks : List Slice → List (List Slice)
  | [] => []
  | line :: up =>
    if isCommentLine line.text then attributeBlocks up
    else if !endsInBracket line.text then []
    else
      let block := (line :: (takeBlock (bracketDelta line.text) up).1).reverse
      if block.head?.any fun top => startsWith (trimChars top.text) "#[" then
        block :: attributeBlocks (takeBlock (bracketDelta line.text) up).2
      else []
  termination_by lines => lines.length
  decreasing_by
    · exact Nat.lt_succ_self _
    · have hlen := congrArg List.length (takeBlock_append (bracketDelta line.text) up)
      rw [List.length_append] at hlen
      rw [List.length_cons]
      omega

def isCfgBlock (block : List Slice) : Bool :=
  block.head?.any fun top => startsWith (trimChars top.text) "#[cfg("

def precedingCfgLines (lines : List Slice) (start : Nat) : List Slice :=
  ((attributeBlocks (lines.take start).reverse).reverse.filter isCfgBlock).flatten

/-- The first line of the window and the line behind it, counted from zero. -/
def windowBounds (line endLine : Nat) (lines : List Slice) (cap : Nat) : Nat × Nat :=
  (line - 1, min (min endLine (line - 1 + cap)) lines.length)

def window (line endLine : Nat) (lines : List Slice) (cap : Nat) : List Slice :=
  let bounds := windowBounds line endLine lines cap
  (lines.drop bounds.1).take (bounds.2 - bounds.1)

def snippetParts (kind : String) (line : Nat) (endLine : Option Nat) (lines : List Slice) (cap : Nat) :
    Option (List Slice × List Slice) :=
  let last := endLine.getD line
  let bounds := windowBounds line last lines cap
  if lines.length ≤ bounds.1 ∨ bounds.2 < bounds.1 then none
  else
    let trimmed :=
      if kind = "doc-chunk" then window line last lines cap
      else skipLeadingComments (window line last lines cap)
    if trimmed = [] then none else some (precedingCfgLines lines bounds.1, trimmed)

def joinLines (lines : List Slice) : List Char := List.intercalate ['\n'] (lines.map Slice.text)

/-- `snippet_for_node_capped`, of the lines of the node's file. -/
def snippetForNodeCapped (kind : String) (line : Nat) (endLine : Option Nat) (lines : List Slice)
    (cap : Nat) : Option (List Char) :=
  (snippetParts kind line endLine lines cap).map fun parts =>
    let body := joinLines parts.2
    if parts.1 = [] then body else joinLines parts.1 ++ '\n' :: body

/-! ## What the language makes of the file -/

/-- What a character is part of: blank space, comments and docstrings; an outer attribute, with the
comments inside it; the rest. -/
inductive Mark where
  | free
  | attr (cfg : Bool)
  | code
  deriving DecidableEq

/-- A line with what the lexer of its language makes of each character, and of the line break. -/
structure Line where
  chars : List (Mark × Char)
  ending : Mark

def Line.text (line : Line) : List Char := line.chars.map Prod.snd

def Line.marks (line : Line) : List Mark := line.chars.map Prod.fst ++ [line.ending]

def Line.isQuiet (line : Line) : Bool := line.chars.all fun c => c.1 = .free || isWhitespace c.2

structure Source where
  lines : List Line

def Source.slices (src : Source) : List Slice := src.lines.zipIdx.map fun line => ⟨line.2, line.1.text⟩

def Source.line (src : Source) (place : Nat) : Line := src.lines.getD place ⟨[], .free⟩

def Source.isQuiet (src : Source) (place : Nat) : Bool := (src.line place).isQuiet

def noCode (marks : List Mark) : Bool := marks.all (· ≠ .code)

/-- A node in a file, with the characters that stand before its declaration on the line. -/
structure NodeIn (src : Source) where
  kind : String
  line : Nat
  endLine : Option Nat
  column : Nat
  inside : 1 ≤ line ∧ line ≤ endLine.getD line ∧ endLine.getD line ≤ src.lines.length

variable {src : Source}

/-- The line holds part of a `cfg` attribute that no code parts from the declaration. -/
def NodeIn.isGate (node : NodeIn src) (place : Nat) : Bool :=
  place < node.line - 1 &&
    ((src.line place).marks.rtakeWhile (· ≠ .code)).any (· = .attr true) &&
    (List.range' (place + 1) (node.line - 1 - (place + 1))).all (fun p => noCode (src.line p).marks) &&
    noCode ((src.line (node.line - 1)).marks.take node.column)

/-- The lines of the `cfg` attributes attached to the declaration. -/
def NodeIn.gates (node : NodeIn src) : List Slice := src.slices.filter fun s => node.isGate s.place

def NodeIn.window (node : NodeIn src) (cap : Nat) : List Slice :=
  Snippet.window node.line (node.endLine.getD node.line) src.slices cap

/-- What the snippet leaves out of the window is quiet, and what it prepends are the lines of the
attached `cfg` attributes. -/
structure DropsOnlyComments (node : NodeIn src) (cap : Nat) : Prop where
  dropped : ∀ gates body, snippetParts node.kind node.line node.endLine src.slices cap = some (gates, body) →
    ∀ s ∈ node.window cap, s ∉ body → src.isQuiet s.place = true
  gates : ∀ gates body, snippetParts node.kind node.line node.endLine src.slices cap = some (gates, body) →
    gates = node.gates

/-! ## When it does -/

/-- The first line behind the signature that is not quiet, or a quiet line before it, fails the comment
test. -/
def NodeIn.Stops (node : NodeIn src) (cap : Nat) : Prop :=
  ∀ front line back, (node.window cap).tail = front ++ line :: back →
    (∀ s ∈ front, src.isQuiet s.place = true) → src.isQuiet line.place = false →
      ∃ s ∈ front ++ [line], isCommentLine s.text = false

/-- Lines from one that begins with `#[` down to one that ends in `]`, where the square brackets balance
from below, or the file begins; nearest first, with the lines above. -/
structure IsBlock (block above : List Slice) : Prop where
  bottom : ∃ line ups, block = line :: ups ∧ isCommentLine line.text = false ∧ endsInBracket line.text = true ∧
    (∀ k < ups.length, 0 < bracketDelta line.text + ((ups.take k).map fun s => bracketDelta s.text).sum) ∧
    (bracketDelta line.text + (ups.map fun s => bracketDelta s.text).sum ≤ 0 ∨ above = [])
  top : block.getLast?.any (fun top => startsWith (trimChars top.text) "#[") = true

/-- Lines, nearest first, that are comment lines or stand in blocks. -/
inductive Passed : List Slice → List Slice → Prop
  | here (above : List Slice) : Passed [] above
  | skip {line : Slice} {below above : List Slice} : isCommentLine line.text = true → Passed below above →
      Passed (line :: below) above
  | block {block below above : List Slice} : IsBlock block (below ++ above) → Passed below above →
      Passed (block ++ below) above

/-- A block that begins with `#[cfg(`, with only comment lines and blocks down to the declaration. -/
def NodeIn.GateBlock (node : NodeIn src) (block : List Slice) : Prop :=
  ∃ below above, (src.slices.take (node.line - 1)).reverse = below ++ (block ++ above) ∧
    Passed below (block ++ above) ∧ IsBlock block above ∧ isCfgBlock block.reverse = true

/-- Every line of an attached `cfg` attribute stands in a gate block, and every line of a gate block is
one of an attached `cfg` attribute. -/
structure NodeIn.Gated (node : NodeIn src) : Prop where
  found : ∀ s ∈ node.gates, ∃ block, node.GateBlock block ∧ s ∈ block
  attached : ∀ block, node.GateBlock block → ∀ s ∈ block, s ∈ node.gates

/-! ## The window -/

theorem length_slices (src : Source) : src.slices.length = src.lines.length := by
  rw [Source.slices, List.length_map, List.length_zipIdx]

variable {node : NodeIn src} {cap : Nat}

theorem length_window (node : NodeIn src) (cap : Nat) :
    (node.window cap).length = min (node.endLine.getD node.line - (node.line - 1)) cap := by
  obtain ⟨hfirst, horder, hlast⟩ := node.inside
  rw [NodeIn.window, Snippet.window, windowBounds]
  dsimp only
  rw [List.length_take, List.length_drop, length_slices]
  omega

theorem snippetParts_zero (node : NodeIn src) :
    snippetParts node.kind node.line node.endLine src.slices 0 = none := by
  have hnil : node.window 0 = [] :=
    List.eq_nil_of_length_eq_zero (by rw [length_window]; exact Nat.min_zero _)
  have hwindow : Snippet.window node.line (node.endLine.getD node.line) src.slices 0 = [] := hnil
  unfold snippetParts
  dsimp only
  rw [hwindow]
  simp [skipLeadingComments]

theorem snippetParts_eq (node : NodeIn src) (hcap : cap ≠ 0) :
    ∃ signature rest, node.window cap = signature :: rest ∧
      snippetParts node.kind node.line node.endLine src.slices cap =
        some (precedingCfgLines src.slices (node.line - 1),
          signature :: if node.kind = "doc-chunk" then rest
            else rest.dropWhile fun line => isCommentLine line.text) := by
  obtain ⟨hfirst, horder, hlast⟩ := node.inside
  have hlen := length_window node cap
  have hne : node.window cap ≠ [] := by
    intro hnil
    rw [hnil, List.length_nil] at hlen
    omega
  obtain ⟨signature, rest, hwindow⟩ := List.exists_cons_of_ne_nil hne
  have hbounds : ¬ (src.slices.length ≤ (windowBounds node.line (node.endLine.getD node.line) src.slices cap).1 ∨
      (windowBounds node.line (node.endLine.getD node.line) src.slices cap).2 <
        (windowBounds node.line (node.endLine.getD node.line) src.slices cap).1) := by
    rw [windowBounds, length_slices]
    dsimp only
    omega
  have hwindow' : Snippet.window node.line (node.endLine.getD node.line) src.slices cap = signature :: rest :=
    hwindow
  refine ⟨signature, rest, hwindow, ?_⟩
  unfold snippetParts
  dsimp only
  rw [if_neg hbounds, hwindow']
  rw [skipLeadingComments]
  by_cases hkind : node.kind = "doc-chunk"
  · rw [if_pos hkind, if_pos hkind, if_neg (List.cons_ne_nil _ _)]
    rfl
  · rw [if_neg hkind, if_neg hkind, if_neg (List.cons_ne_nil _ _)]
    rfl

/-! ## The lines left out -/

theorem first_loud {p : Slice → Bool} {lines : List Slice} {s : Slice} (hs : s ∈ lines) (hp : p s = false) :
    ∃ front line back, lines = front ++ line :: back ∧ (∀ x ∈ front, p x = true) ∧ p line = false ∧
      (s = line ∨ s ∈ back) := by
  induction lines with
  | nil => exact absurd hs List.not_mem_nil
  | cons x lines ih =>
    cases hx : p x with
    | false =>
      refine ⟨[], x, lines, rfl, fun y hy => absurd hy List.not_mem_nil, hx, ?_⟩
      exact List.mem_cons.mp hs
    | true =>
      have htail : s ∈ lines := by
        rcases List.mem_cons.mp hs with rfl | hin
        · rw [hp] at hx
          exact absurd hx Bool.false_ne_true
        · exact hin
      obtain ⟨front, line, back, rfl, hfront, hline, hplace⟩ := ih htail
      exact ⟨x :: front, line, back, rfl, List.forall_mem_cons.mpr ⟨hx, hfront⟩, hline, hplace⟩

theorem takeWhile_quiet_iff (quiet : Slice → Bool) (rest : List Slice) :
    (∀ s ∈ rest.takeWhile (fun line => isCommentLine line.text), quiet s = true) ↔
      ∀ front line back, rest = front ++ line :: back → (∀ s ∈ front, quiet s = true) → quiet line = false →
        ∃ s ∈ front ++ [line], isCommentLine s.text = false := by
  constructor
  · rintro hrun front line back rfl hfront hline
    by_contra hall
    have hcomment : ∀ s ∈ front ++ [line], isCommentLine s.text = true := by
      intro s hs
      by_contra hs'
      exact hall ⟨s, hs, Bool.eq_false_iff.mpr hs'⟩
    have hmem : line ∈ (front ++ line :: back).takeWhile fun line => isCommentLine line.text := by
      have hline' : isCommentLine line.text = true := hcomment line (by simp)
      rw [List.takeWhile_append_of_pos fun s hs => hcomment s (List.mem_append_left _ hs),
        List.takeWhile_cons, if_pos hline']
      simp
    rw [hrun line hmem] at hline
    exact absurd hline.symm Bool.false_ne_true
  · intro hstops s hs
    by_contra hloud
    have hsplit : rest.takeWhile (fun line => isCommentLine line.text) ++
        rest.dropWhile (fun line => isCommentLine line.text) = rest := List.takeWhile_append_dropWhile
    obtain ⟨front, line, back, hfront, hquiet, hline, -⟩ := first_loud hs (Bool.eq_false_iff.mpr hloud)
    rw [hfront, List.append_assoc, List.cons_append] at hsplit
    obtain ⟨t, ht, hcomment⟩ := hstops front line _ hsplit.symm hquiet hline
    have hin : t ∈ rest.takeWhile fun line => isCommentLine line.text := by
      rw [hfront, List.append_cons]
      exact List.mem_append_left _ ht
    rw [List.mem_takeWhile_imp hin] at hcomment
    exact absurd hcomment.symm Bool.false_ne_true

/-! ## The blocks above -/

abbrev deltas (lines : List Slice) : Int := (lines.map fun s => bracketDelta s.text).sum

theorem takeBlock_open (depth : Int) (lines : List Slice) :
    (∀ k < (takeBlock depth lines).1.length, 0 < depth + deltas ((takeBlock depth lines).1.take k)) ∧
      (depth + deltas (takeBlock depth lines).1 ≤ 0 ∨ (takeBlock depth lines).2 = []) := by
  induction lines generalizing depth with
  | nil => exact ⟨fun k hk => absurd hk (Nat.not_lt_zero k), .inr rfl⟩
  | cons up rest ih =>
    rw [takeBlock]
    split_ifs with hdepth
    · obtain ⟨hopen, hclosed⟩ := ih (depth + bracketDelta up.text)
      constructor
      · intro k hk
        cases k with
        | zero => simpa [deltas] using hdepth
        | succ k =>
          have hk' := hopen k (Nat.lt_of_succ_lt_succ hk)
          rw [List.take_succ_cons, deltas, List.map_cons, List.sum_cons, ← Int.add_assoc]
          exact hk'
      · rw [deltas, List.map_cons, List.sum_cons, ← Int.add_assoc]
        exact hclosed
    · exact ⟨fun k hk => absurd hk (Nat.not_lt_zero k), .inl (by simpa [deltas] using hdepth)⟩

theorem takeBlock_unique {depth : Int} {ups above : List Slice}
    (hopen : ∀ k < ups.length, 0 < depth + deltas (ups.take k))
    (hclosed : depth + deltas ups ≤ 0 ∨ above = []) : takeBlock depth (ups ++ above) = (ups, above) := by
  induction ups generalizing depth with
  | nil =>
    cases above with
    | nil => rfl
    | cons up rest =>
      have hdepth : depth ≤ 0 := by
        rcases hclosed with hle | hnil
        · simpa [deltas] using hle
        · exact absurd hnil (List.cons_ne_nil _ _)
      rw [List.nil_append, takeBlock, if_neg (by omega)]
  | cons up ups ih =>
    have hdepth : 0 < depth := by simpa [deltas] using hopen 0 (Nat.succ_pos _)
    have hopen' : ∀ k < ups.length, 0 < depth + bracketDelta up.text + deltas (ups.take k) := by
      intro k hk
      have hk' := hopen (k + 1) (Nat.succ_lt_succ hk)
      rw [List.take_succ_cons, deltas, List.map_cons, List.sum_cons, ← Int.add_assoc] at hk'
      exact hk'
    have hclosed' : depth + bracketDelta up.text + deltas ups ≤ 0 ∨ above = [] := by
      rw [deltas, List.map_cons, List.sum_cons, ← Int.add_assoc] at hclosed
      exact hclosed
    rw [List.cons_append, takeBlock, if_pos hdepth, ih hopen' hclosed']

theorem isBlock_cons {line : Slice} {ups above : List Slice} (h : IsBlock (line :: ups) above) :
    isCommentLine line.text = false ∧ endsInBracket line.text = true ∧
      takeBlock (bracketDelta line.text) (ups ++ above) = (ups, above) := by
  obtain ⟨line', ups', hcons, hcomment, hend, hopen, hclosed⟩ := h.bottom
  obtain ⟨rfl, rfl⟩ := List.cons.inj hcons
  exact ⟨hcomment, hend, takeBlock_unique hopen hclosed⟩

theorem IsBlock.ne_nil {block above : List Slice} (h : IsBlock block above) :
    ∃ line ups, block = line :: ups := by
  obtain ⟨line, ups, hblock, -⟩ := h.bottom
  exact ⟨line, ups, hblock⟩

theorem first_block {line : Slice} {up below block above : List Slice} (hcomment : isCommentLine line.text = false)
    (hsplit : line :: up = below ++ (block ++ above)) (hpassed : Passed below (block ++ above))
    (hblock : IsBlock block above) :
    ∃ ups rest, up = ups ++ rest ∧ IsBlock (line :: ups) rest ∧
      ((block = line :: ups ∧ above = rest) ∨
        ∃ below', Passed below' (block ++ above) ∧ rest = below' ++ (block ++ above)) := by
  generalize hrest : block ++ above = lines at hpassed
  cases hpassed with
  | here =>
    obtain ⟨line', ups, rfl⟩ := hblock.ne_nil
    rw [List.nil_append, List.cons_append, List.cons.injEq] at hsplit
    obtain ⟨rfl, rfl⟩ := hsplit
    exact ⟨ups, above, rfl, hblock, .inl ⟨rfl, rfl⟩⟩
  | skip hcomment' hpassed =>
    rw [List.cons_append, List.cons.injEq] at hsplit
    rw [← hsplit.1, hcomment] at hcomment'
    exact absurd hcomment' Bool.false_ne_true
  | @block block' below _ hblock' hpassed =>
    subst hrest
    obtain ⟨line', ups, rfl⟩ := hblock'.ne_nil
    rw [List.append_assoc, List.cons_append, List.cons.injEq] at hsplit
    obtain ⟨rfl, rfl⟩ := hsplit
    exact ⟨ups, _, rfl, hblock', .inr ⟨below, hpassed, rfl⟩⟩

/-- The blocks that the walk up collects are those that it can pass down to the declaration from. -/
theorem mem_attributeBlocks_iff (lines : List Slice) (b : List Slice) :
    b ∈ attributeBlocks lines ↔ ∃ below block above, lines = below ++ (block ++ above) ∧
      Passed below (block ++ above) ∧ IsBlock block above ∧ b = block.reverse := by
  induction lines using attributeBlocks.induct with
  | case1 =>
    rw [attributeBlocks]
    refine iff_of_false List.not_mem_nil ?_
    rintro ⟨below, block, above, hnil, -, hblock, -⟩
    obtain ⟨line, ups, rfl⟩ := hblock.ne_nil
    simp at hnil
  | case2 line up hcomment ih =>
    rw [attributeBlocks, if_pos hcomment, ih]
    constructor
    · rintro ⟨below, block, above, rfl, hpassed, hblock, rfl⟩
      exact ⟨line :: below, block, above, rfl, hpassed.skip hcomment, hblock, rfl⟩
    · rintro ⟨below, block, above, hsplit, hpassed, hblock, rfl⟩
      generalize hrest : block ++ above = rest at hpassed
      cases hpassed with
      | here =>
        obtain ⟨line', ups, rfl⟩ := hblock.ne_nil
        rw [List.nil_append, List.cons_append, List.cons.injEq] at hsplit
        rw [← hsplit.1] at hblock
        rw [(isBlock_cons hblock).1] at hcomment
        exact absurd hcomment Bool.false_ne_true
      | @skip line' below _ _ hpassed =>
        subst hrest
        rw [List.cons_append, List.cons.injEq] at hsplit
        exact ⟨below, block, above, hsplit.2, hpassed, hblock, rfl⟩
      | @block block' below _ hblock' _ =>
        obtain ⟨line', ups, rfl⟩ := hblock'.ne_nil
        rw [List.cons_append, List.cons_append, List.cons.injEq] at hsplit
        rw [← hsplit.1] at hblock'
        rw [(isBlock_cons hblock').1] at hcomment
        exact absurd hcomment Bool.false_ne_true
  | case3 line up hcomment hend =>
    rw [attributeBlocks, if_neg hcomment, if_pos hend]
    refine iff_of_false List.not_mem_nil ?_
    rintro ⟨below, block, above, hsplit, hpassed, hblock, -⟩
    obtain ⟨ups, rest, -, hfirst, -⟩ := first_block (Bool.eq_false_iff.mpr hcomment) hsplit hpassed hblock
    rw [(isBlock_cons hfirst).2.1] at hend
    exact absurd hend (by decide)
  | case4 line up hcomment hend block htop ih =>
    have hblock : IsBlock (line :: (takeBlock (bracketDelta line.text) up).1)
        (takeBlock (bracketDelta line.text) up).2 := by
      obtain ⟨hopen, hclosed⟩ := takeBlock_open (bracketDelta line.text) up
      refine ⟨⟨line, _, rfl, Bool.eq_false_iff.mpr hcomment, by simpa using hend, hopen, hclosed⟩, ?_⟩
      rw [← List.head?_reverse]
      exact htop
    have hup : (takeBlock (bracketDelta line.text) up).1 ++ (takeBlock (bracketDelta line.text) up).2 = up :=
      takeBlock_append _ _
    rw [attributeBlocks, if_neg hcomment, if_neg hend]
    dsimp only
    rw [if_pos htop, List.mem_cons, ih]
    constructor
    · rintro (rfl | ⟨below, block', above, hsplit, hpassed, hblock', rfl⟩)
      · refine ⟨[], _, _, ?_, .here _, hblock, rfl⟩
        rw [List.nil_append, List.cons_append, hup]
      · refine ⟨line :: (takeBlock (bracketDelta line.text) up).1 ++ below, block', above, ?_, ?_, hblock', rfl⟩
        · rw [List.append_assoc, ← hsplit, List.cons_append, hup]
        · exact .block (hsplit ▸ hblock) hpassed
    · rintro ⟨below, block', above, hsplit, hpassed, hblock', rfl⟩
      obtain ⟨ups, rest, rfl, hfirst, hplace⟩ :=
        first_block (Bool.eq_false_iff.mpr hcomment) hsplit hpassed hblock'
      have htaken := (isBlock_cons hfirst).2.2
      rcases hplace with ⟨rfl, rfl⟩ | ⟨below', hpassed', hrest⟩
      · refine .inl ?_
        show (line :: ups).reverse = (line :: (takeBlock (bracketDelta line.text) (ups ++ above)).1).reverse
        rw [htaken]
      · refine .inr ⟨below', block', above, ?_, hpassed', hblock', rfl⟩
        rw [htaken]
        exact hrest
  | case5 line up hcomment hend block htop =>
    rw [attributeBlocks, if_neg hcomment, if_neg hend]
    dsimp only
    rw [if_neg htop]
    refine iff_of_false List.not_mem_nil ?_
    rintro ⟨below, block', above, hsplit, hpassed, hblock', -⟩
    obtain ⟨ups, rest, rfl, hfirst, -⟩ :=
      first_block (Bool.eq_false_iff.mpr hcomment) hsplit hpassed hblock'
    refine htop ?_
    rw [show block = (line :: (takeBlock (bracketDelta line.text) (ups ++ rest)).1).reverse from rfl,
      (isBlock_cons hfirst).2.2, List.head?_reverse]
    exact hfirst.top

theorem attributeBlocks_sublist (lines : List Slice) :
    (attributeBlocks lines).reverse.flatten.Sublist lines.reverse := by
  induction lines using attributeBlocks.induct with
  | case1 =>
    rw [attributeBlocks]
    exact List.Sublist.refl _
  | case2 line up hcomment ih =>
    rw [attributeBlocks, if_pos hcomment, List.reverse_cons]
    exact ih.trans (List.sublist_append_left _ _)
  | case3 line up hcomment hend =>
    rw [attributeBlocks, if_neg hcomment, if_pos hend]
    exact List.nil_sublist _
  | case4 line up hcomment hend block htop ih =>
    have hup := takeBlock_append (bracketDelta line.text) up
    have hreverse : (line :: up).reverse = (takeBlock (bracketDelta line.text) up).2.reverse ++ block := by
      show _ = _ ++ (line :: (takeBlock (bracketDelta line.text) up).1).reverse
      rw [← List.reverse_append, List.cons_append, hup]
    rw [attributeBlocks, if_neg hcomment, if_neg hend]
    dsimp only
    rw [if_pos htop, List.reverse_cons, List.flatten_append, List.flatten_singleton, hreverse]
    exact ih.append (List.Sublist.refl _)
  | case5 line up hcomment hend block htop =>
    rw [attributeBlocks, if_neg hcomment, if_neg hend]
    dsimp only
    rw [if_neg htop]
    exact List.nil_sublist _

theorem precedingCfgLines_sublist (lines : List Slice) (start : Nat) :
    (precedingCfgLines lines start).Sublist lines := by
  have hblocks := attributeBlocks_sublist (lines.take start).reverse
  rw [List.reverse_reverse] at hblocks
  exact (List.filter_sublist.flatten.trans hblocks).trans (List.take_sublist _ _)

theorem mem_precedingCfgLines_iff {s : Slice} :
    s ∈ precedingCfgLines src.slices (node.line - 1) ↔ ∃ block, node.GateBlock block ∧ s ∈ block := by
  rw [precedingCfgLines, List.mem_flatten]
  constructor
  · rintro ⟨b, hb, hs⟩
    rw [List.mem_filter, List.mem_reverse, mem_attributeBlocks_iff] at hb
    obtain ⟨⟨below, block, above, hsplit, hpassed, hblock, rfl⟩, hcfg⟩ := hb
    exact ⟨block, ⟨below, above, hsplit, hpassed, hblock, hcfg⟩, List.mem_reverse.mp hs⟩
  · rintro ⟨block, ⟨below, above, hsplit, hpassed, hblock, hcfg⟩, hs⟩
    refine ⟨block.reverse, ?_, List.mem_reverse.mpr hs⟩
    rw [List.mem_filter, List.mem_reverse, mem_attributeBlocks_iff]
    exact ⟨⟨below, block, above, hsplit, hpassed, hblock, rfl⟩, hcfg⟩

theorem slices_sorted (src : Source) : src.slices.Pairwise fun a b => a.place < b.place := by
  rw [Source.slices, List.pairwise_map]
  have hplaces : (src.lines.zipIdx.map Prod.snd).Pairwise (· < ·) := by
    rw [List.zipIdx_map_snd]
    exact List.pairwise_lt_range'
  exact List.pairwise_map.mp hplaces

theorem slices_nodup (src : Source) : src.slices.Nodup :=
  (slices_sorted src).imp fun hlt => mt (congrArg Slice.place) (Nat.ne_of_lt hlt)

theorem parts_eq_iff {part part' : List Slice} (h : part.Sublist src.slices) (h' : part'.Sublist src.slices) :
    part = part' ↔ ∀ s, s ∈ part ↔ s ∈ part' := by
  constructor
  · rintro rfl s
    exact Iff.rfl
  · intro hmem
    have hperm : part.Perm part' := by
      rw [List.perm_ext_iff_of_nodup ((slices_nodup src).sublist h) ((slices_nodup src).sublist h')]
      exact hmem
    refine List.Perm.eq_of_pairwise ?_ ((slices_sorted src).sublist h) ((slices_sorted src).sublist h') hperm
    intro a b _ _ hab hba
    exact absurd hab (Nat.lt_asymm hba)

theorem gates_eq_iff (node : NodeIn src) :
    precedingCfgLines src.slices (node.line - 1) = node.gates ↔ node.Gated := by
  have hgates : node.gates.Sublist src.slices := List.filter_sublist
  rw [parts_eq_iff (precedingCfgLines_sublist _ _) hgates]
  constructor
  · intro hmem
    refine ⟨fun s hs => mem_precedingCfgLines_iff.mp ((hmem s).mpr hs), fun block hblock s hs => ?_⟩
    exact (hmem s).mp (mem_precedingCfgLines_iff.mpr ⟨block, hblock, hs⟩)
  · intro hgated s
    constructor
    · intro hs
      obtain ⟨block, hblock, hin⟩ := mem_precedingCfgLines_iff.mp hs
      exact hgated.attached block hblock s hin
    · intro hs
      exact mem_precedingCfgLines_iff.mpr (hgated.found s hs)

/-! ## The snippet -/

theorem window_nodup (node : NodeIn src) (cap : Nat) : (node.window cap).Nodup := by
  have hpart : (node.window cap).Sublist src.slices := (List.take_sublist _ _).trans (List.drop_sublist _ _)
  exact (slices_nodup src).sublist hpart

theorem mem_run_iff {signature s : Slice} {rest : List Slice} (hnodup : (signature :: rest).Nodup) :
    s ∈ rest.takeWhile (fun line => isCommentLine line.text) ↔
      s ∈ signature :: rest ∧ s ∉ signature :: rest.dropWhile fun line => isCommentLine line.text := by
  have hsplit : rest.takeWhile (fun line => isCommentLine line.text) ++
      rest.dropWhile (fun line => isCommentLine line.text) = rest := List.takeWhile_append_dropWhile
  rw [← hsplit, List.nodup_cons, List.nodup_append] at hnodup
  obtain ⟨hsignature, -, -, hapart⟩ := hnodup
  constructor
  · intro hs
    refine ⟨List.mem_cons_of_mem _ ((List.takeWhile_sublist _).subset hs), ?_⟩
    intro hkept
    rcases List.mem_cons.mp hkept with rfl | hkept
    · exact hsignature (List.mem_append_left _ hs)
    · exact hapart s hs s hkept rfl
  · rintro ⟨hs, hout⟩
    rw [List.mem_cons, not_or] at hout
    have hrest : s ∈ rest := List.mem_of_ne_of_mem hout.1 hs
    rw [← hsplit] at hrest
    exact (List.mem_append.mp hrest).resolve_right hout.2

/-- A snippet drops only comments and has the attached gates exactly when there is none to make, or when
the run of comment lines behind the signature ends in time and the gate blocks are the attached ones. -/
theorem drops_only_comments_iff (src : Source) (node : NodeIn src) (cap : Nat) :
    DropsOnlyComments node cap ↔ cap = 0 ∨ ((node.kind = "doc-chunk" ∨ node.Stops cap) ∧ node.Gated) := by
  by_cases hcap : cap = 0
  · subst hcap
    refine iff_of_true ⟨?_, ?_⟩ (.inl rfl)
    · intro gates body hparts
      rw [snippetParts_zero] at hparts
      exact absurd hparts (Option.some_ne_none _).symm
    · intro gates body hparts
      rw [snippetParts_zero] at hparts
      exact absurd hparts (Option.some_ne_none _).symm
  obtain ⟨signature, rest, hwindow, hparts⟩ := snippetParts_eq node hcap
  have hstops : node.Stops cap ↔
      ∀ s ∈ rest.takeWhile (fun line => isCommentLine line.text), src.isQuiet s.place = true := by
    rw [takeWhile_quiet_iff (fun s => src.isQuiet s.place), NodeIn.Stops, hwindow]
    exact Iff.rfl
  rw [or_iff_right hcap, ← gates_eq_iff]
  have hnodup : (signature :: rest).Nodup := hwindow ▸ (window_nodup node cap)
  constructor
  · intro hdrops
    refine ⟨?_, hdrops.gates _ _ hparts⟩
    by_cases hkind : node.kind = "doc-chunk"
    · exact .inl hkind
    · refine .inr (hstops.mpr fun s hs => ?_)
      rw [if_neg hkind] at hparts
      refine hdrops.dropped _ _ hparts s ?_ ((mem_run_iff hnodup).mp hs).2
      rw [hwindow]
      exact ((mem_run_iff hnodup).mp hs).1
  · rintro ⟨hkind, hgates⟩
    constructor
    · intro gates body hsome s hs hout
      rw [hparts, Option.some.injEq, Prod.mk.injEq] at hsome
      rw [← hsome.2] at hout
      rw [hwindow] at hs
      by_cases hdoc : node.kind = "doc-chunk"
      · rw [if_pos hdoc] at hout
        exact absurd hs hout
      · rw [if_neg hdoc] at hout
        exact hstops.mp (hkind.resolve_left hdoc) s ((mem_run_iff hnodup).mpr ⟨hs, hout⟩)
    · intro gates body hsome
      rw [hparts, Option.some.injEq, Prod.mk.injEq] at hsome
      rw [← hsome.1]
      exact hgates

def codeLine (text : String) : Line := ⟨text.toList.map fun c => (.code, c), .free⟩

def pointerStore : Source := ⟨[codeLine "void set(int *p) \x7b", codeLine "    *p = 1;", codeLine "\x7d"]⟩

def pointerStoreNode : NodeIn pointerStore where
  kind := "function"
  line := 1
  endLine := some 3
  column := 0
  inside := by decide

/-- The store is left out of the snippet. -/
theorem pointer_store_dropped : ¬ DropsOnlyComments pointerStoreNode 40 := by
  intro hdrops
  have hquiet := hdrops.dropped _ [⟨0, "void set(int *p) \x7b".toList⟩, ⟨2, "\x7d".toList⟩] rfl
    ⟨1, "    *p = 1;".toList⟩ (by decide) (by decide)
  exact absurd hquiet (by decide)

end Travsr.Analysis.Snippet
