import Travsr.Cli.JsoncMask
import Travsr.Lib.Jsonc.Loose

namespace Travsr.Indexer

open Jsonc Travsr.Cli

def pastLine (s : List Byte) : List Byte := s.dropWhile fun b => b ≠ lf

/-- A block comment from behind its `/*`; one that is not closed takes the rest. -/
def pastBlock : List Byte → List Byte
  | b :: c :: s => if b = asterisk ∧ c = slash then s else pastBlock (c :: s)
  | _ => []

theorem length_pastLine_le (s : List Byte) : (pastLine s).length ≤ s.length :=
  (List.dropWhile_sublist _).length_le

theorem length_pastBlock_le (s : List Byte) : (pastBlock s).length ≤ s.length := by
  fun_induction pastBlock s with
  | case1 =>
    simp only [List.length_cons]
    omega
  | case2 b c s _ ih =>
    simp only [List.length_cons] at ih ⊢
    omega
  | case3 => simp

def opensLine (s : List Byte) : Bool := s.head? = some slash && (s.drop 1).head? = some slash

def opensBlock (s : List Byte) : Bool := s.head? = some slash && (s.drop 1).head? = some asterisk

theorem two_le_of_opens {s : List Byte} (h : opensLine s = true ∨ opensBlock s = true) :
    2 ≤ s.length := by
  match s with
  | [] => simp [opensLine, opensBlock] at h
  | [_] => simp [opensLine, opensBlock] at h
  | _ :: _ :: _ => simp

/-- `skip_gap`, an index being the text from there on. -/
def skipGap (s : List Byte) : List Byte :=
  let j := skipWs s
  if opensLine j then skipGap (pastLine (j.drop 2))
  else if opensBlock j then skipGap (pastBlock (j.drop 2))
  else j
termination_by s.length
decreasing_by
  · have hj : (skipWs s).length ≤ s.length := (List.dropWhile_sublist _).length_le
    have htwo := two_le_of_opens (.inl ‹opensLine (skipWs s) = true›)
    have hle := length_pastLine_le ((skipWs s).drop 2)
    rw [List.length_drop] at hle
    omega
  · have hj : (skipWs s).length ≤ s.length := (List.dropWhile_sublist _).length_le
    have htwo := two_le_of_opens (.inr ‹opensBlock (skipWs s) = true›)
    have hle := length_pastBlock_le ((skipWs s).drop 2)
    rw [List.length_drop] at hle
    omega

theorem length_skipGap_le (s : List Byte) : (skipGap s).length ≤ s.length := by
  induction hn : s.length using Nat.strong_induction_on generalizing s with
  | _ n ih =>
    have hj : (skipWs s).length ≤ s.length := (List.dropWhile_sublist _).length_le
    rw [skipGap]
    split_ifs with hline hblock
    · have htwo := two_le_of_opens (.inl hline)
      have hle := length_pastLine_le ((skipWs s).drop 2)
      rw [List.length_drop] at hle
      have := ih _ (by omega) (pastLine ((skipWs s).drop 2)) rfl
      omega
    · have htwo := two_le_of_opens (.inr hblock)
      have hle := length_pastBlock_le ((skipWs s).drop 2)
      rw [List.length_drop] at hle
      have := ih _ (by omega) (pastBlock ((skipWs s).drop 2)) rfl
      omega
    · omega

theorem skipWs_of_opens {s : List Byte} (h : opensLine s = true ∨ opensBlock s = true) :
    skipWs s = s := by
  cases s with
  | nil => rfl
  | cons b s =>
    have hb : b = slash := by
      rcases h with h | h
      · simp only [opensLine, List.head?_cons, Option.some.injEq, Bool.and_eq_true,
          decide_eq_true_eq] at h
        exact h.1
      · simp only [opensBlock, List.head?_cons, Option.some.injEq, Bool.and_eq_true,
          decide_eq_true_eq] at h
        exact h.1
    rw [hb]
    exact skipWs_cons rfl

theorem length_skipGap_lt {s : List Byte} (h : opensLine s = true ∨ opensBlock s = true) :
    (skipGap s).length < s.length := by
  have htwo := two_le_of_opens h
  rw [skipGap, skipWs_of_opens h]
  split_ifs with hline hblock
  · have hle := length_pastLine_le (s.drop 2)
    have := length_skipGap_le (pastLine (s.drop 2))
    rw [List.length_drop] at hle
    omega
  · have hle := length_pastBlock_le (s.drop 2)
    have := length_skipGap_le (pastBlock (s.drop 2))
    rw [List.length_drop] at hle
    omega
  · exact absurd h (not_or.mpr ⟨hline, hblock⟩)

def closes (s : List Byte) : Bool := s.head?.any isCloser

/-- The loop of `strip_jsonc`, inside a string or not. -/
def strip : Bool → List Byte → List Byte
  | _, [] => []
  | true, c :: s =>
    if c = backslash then
      match s with
      | [] => [c]
      | d :: s => c :: d :: strip true s
    else c :: strip (c ≠ quote) s
  | false, c :: s =>
    if c = quote then c :: strip true s
    else if opensLine (c :: s) || opensBlock (c :: s) then strip false (skipGap (c :: s))
    else if c = comma ∧ closes (skipGap s) then strip false s
    else c :: strip false s
termination_by _ s => s.length
decreasing_by
  · simp only [List.length_cons]
    omega
  · simp only [List.length_cons]
    omega
  · simp only [List.length_cons]
    omega
  · exact length_skipGap_lt (by simpa using ‹(opensLine (c :: s) || opensBlock (c :: s)) = true›)
  · simp only [List.length_cons]
    omega
  · simp only [List.length_cons]
    omega

/-- `strip_jsonc`. Only whole characters are left out, so `from_utf8_lossy` has nothing to mend. -/
def stripJsonc (input : List Byte) : List Byte := strip false input

end Travsr.Indexer

namespace Travsr.Indexer

open Jsonc Travsr.Cli

/-! ### What `skip_gap` skips -/

theorem skipGap_white {b : Byte} (h : isAsciiWhitespace b = true) (s : List Byte) :
    skipGap (b :: s) = skipGap s := by
  have hws : skipWs (b :: s) = skipWs s := List.dropWhile_cons_of_pos h
  rw [skipGap, hws]
  conv_rhs => rw [skipGap]

theorem not_opens {c : Byte} (h : c ≠ slash) (s : List Byte) :
    opensLine (c :: s) = false ∧ opensBlock (c :: s) = false := by
  simp [opensLine, opensBlock, h]

theorem skipGap_token {c : Byte} (hws : isAsciiWhitespace c = false) (hslash : c ≠ slash)
    (s : List Byte) : skipGap (c :: s) = c :: s := by
  rw [skipGap, skipWs_cons hws, (not_opens hslash s).1, (not_opens hslash s).2]
  rfl

theorem pastLine_body (body : LineBody) (s : List Byte) (hs : s = [] ∨ ∃ t, s = lf :: t) :
    pastLine (body.bytes ++ s) = s := by
  have hall : ∀ c ∈ body.bytes, decide (c ≠ lf) = true := by
    intro c hc
    rw [decide_eq_true_eq]
    rintro rfl
    exact body.inLine hc
  rw [pastLine, List.dropWhile_append_of_pos hall]
  rcases hs with rfl | ⟨t, rfl⟩
  · rfl
  · exact List.dropWhile_cons_of_neg (by simp)

theorem pastBlock_body {bytes : List Byte} (h : ¬ [asterisk, slash] <:+: bytes ++ [asterisk])
    (s : List Byte) : pastBlock (bytes ++ asterisk :: slash :: s) = s := by
  induction bytes with
  | nil => simp [pastBlock]
  | cons b r ih =>
    have hr : ¬ [asterisk, slash] <:+: r ++ [asterisk] := fun hin => h (List.infix_cons hin)
    have hb : ∀ c w, r ++ asterisk :: slash :: s = c :: w → ¬ (b = asterisk ∧ c = slash) := by
      rintro c w hcw ⟨rfl, rfl⟩
      apply h
      cases r with
      | nil => cases hcw
      | cons d r =>
        rw [List.cons_append, List.cons.injEq] at hcw
        rw [hcw.1]
        exact ⟨[], r ++ [asterisk], rfl⟩
    rw [List.cons_append]
    cases hrest : r ++ asterisk :: slash :: s with
    | nil => simp at hrest
    | cons c w => rw [pastBlock, if_neg (hb c w hrest), ← hrest, ih hr]

theorem pastBlock_open {bytes : List Byte} (h : ¬ [asterisk, slash] <:+: bytes) :
    pastBlock bytes = [] := by
  fun_induction pastBlock bytes with
  | case1 b c s hb => exact absurd ⟨[], s, by simp [hb]⟩ h
  | case2 b c s _ ih => exact ih fun hin => h (List.infix_cons hin)
  | case3 => rfl

theorem skipGap_line (s : List Byte) :
    skipGap (slash :: slash :: s) = skipGap (pastLine s) := by
  have hopens : opensLine (slash :: slash :: s) = true := rfl
  rw [skipGap, skipWs_cons rfl, if_pos hopens]
  rfl

theorem skipGap_block (s : List Byte) :
    skipGap (slash :: asterisk :: s) = skipGap (pastBlock s) := by
  have hline : ¬ opensLine (slash :: asterisk :: s) = true := by simp [opensLine]; decide
  have hblock : opensBlock (slash :: asterisk :: s) = true := rfl
  rw [skipGap, skipWs_cons rfl, if_neg hline, if_pos hblock]
  rfl

theorem skipGap_nil : skipGap [] = [] := by
  rw [skipGap]
  rfl

theorem skipGap_trivia (x : Trivia) (s : List Byte) : skipGap (x.bytes ++ s) = skipGap s := by
  cases x with
  | blank b => exact skipGap_white (isAsciiWhitespace_blank b) s
  | line body =>
    have hpast := pastLine_body body (lf :: s) (.inr ⟨s, rfl⟩)
    rw [Trivia.bytes, List.cons_append, List.cons_append, List.append_assoc, skipGap_line,
      List.singleton_append, hpast]
    exact skipGap_white rfl s
  | block body =>
    have hpast := pastBlock_body body.unclosed s
    rw [Trivia.bytes, List.cons_append, List.cons_append, List.append_assoc, skipGap_block]
    exact congrArg skipGap hpast

theorem skipGap_behind {t r : List Byte} (h : Behind t r) : skipGap t = skipGap r := by
  induction h with
  | none t => rfl
  | formFeed _ ih => rw [skipGap_white rfl, ih]
  | trivia x _ ih => rw [skipGap_trivia, ih]

theorem skipGap_comments {t r : List Byte} (h : Comments t r) : skipGap t = skipGap r := by
  cases h with
  | none => rfl
  | some _ hbehind => rw [skipGap_trivia, skipGap_behind hbehind]

theorem skipGap_looseGap {t r : List Byte} (h : LooseGap t r) : skipGap t = skipGap r := by
  induction h with
  | comments hc => exact skipGap_comments hc
  | blank b _ ih => rw [skipGap_white (isAsciiWhitespace_blank b), ih]

theorem skipGap_looseEnd {e : List Byte} (h : LooseEnd e) : skipGap e = [] := by
  cases h with
  | none => exact skipGap_nil
  | line body =>
    have hpast := pastLine_body body [] (.inl rfl)
    rw [List.append_nil] at hpast
    rw [skipGap_line, hpast, skipGap_nil]
  | block unclosed => rw [skipGap_block, pastBlock_open unclosed, skipGap_nil]

/-! ### What `strip_jsonc` writes -/

theorem strip_nil (inString : Bool) : strip inString [] = [] := by
  cases inString <;> rw [strip]

theorem strip_quote (s : List Byte) : strip false (quote :: s) = quote :: strip true s := by
  rw [strip, if_pos rfl]

theorem strip_opens {s : List Byte} (h : opensLine s = true ∨ opensBlock s = true) :
    strip false s = strip false (skipGap s) := by
  cases s with
  | nil => simp [opensLine, opensBlock] at h
  | cons c s =>
    have hc : c ≠ quote := by
      rintro rfl
      have hnot := not_opens (show quote ≠ slash by decide) s
      rw [hnot.1, hnot.2] at h
      simp at h
    rw [strip, if_neg hc, if_pos (by simpa using h)]

theorem strip_comma (s : List Byte) : strip false (comma :: s) =
    if closes (skipGap s) then strip false s else comma :: strip false s := by
  have hquote : comma ≠ quote := by decide
  have hopens := not_opens (show comma ≠ slash by decide) s
  rw [strip, if_neg hquote, hopens.1, hopens.2]
  simp

/-- A byte that the loop copies wherever it stands outside strings. -/
structure Plain (c : Byte) : Prop where
  quote : c ≠ Jsonc.quote
  slash : c ≠ Jsonc.slash
  comma : c ≠ Jsonc.comma

theorem strip_plain {c : Byte} (h : Plain c) (s : List Byte) :
    strip false (c :: s) = c :: strip false s := by
  have hopens := not_opens h.slash s
  rw [strip, if_neg h.quote, hopens.1, hopens.2, if_neg (by simp), if_neg fun hc => h.comma hc.1]

theorem strip_escape (d : Byte) (s : List Byte) :
    strip true (backslash :: d :: s) = backslash :: d :: strip true s := by
  rw [strip, if_pos rfl]

theorem strip_inside {c : Byte} (h : c ≠ backslash) (s : List Byte) :
    strip true (c :: s) = c :: strip (c ≠ quote) s := by
  rw [strip.eq_def]
  dsimp only
  rw [if_neg h]

theorem strip_raw {raw : List Byte} (h : isRaw raw = true) (s : List Byte) :
    strip true (raw ++ quote :: s) = raw ++ quote :: strip false s := by
  have hend : strip true (quote :: s) = quote :: strip false s := strip_inside (by decide) s
  induction raw using isRaw.induct with
  | case1 => exact hend
  | case2 b =>
    simp only [isRaw, Bool.and_eq_true, bne_iff_ne] at h
    have hb := strip_inside h.1 (quote :: s)
    simp only [h.2, ne_eq, not_false_eq_true, decide_true, hend] at hb
    exact hb
  | case3 c r ih =>
    simp only [isRaw, if_true] at h
    rw [List.cons_append, List.cons_append, strip_escape, ih h]
    rfl
  | case4 b c r hb ih =>
    simp only [isRaw, hb, if_false, Bool.and_eq_true, bne_iff_ne] at h
    have hstep := strip_inside hb (c :: r ++ quote :: s)
    simp only [h.1, ne_eq, not_false_eq_true, decide_true, ih h.2] at hstep
    exact hstep

theorem strip_str (l : StrLit) (s : List Byte) :
    strip false (l.bytes ++ s) = l.bytes ++ strip false s := by
  have hbytes : l.bytes ++ s = quote :: (l.raw ++ quote :: s) := by simp [StrLit.bytes]
  rw [hbytes, strip_quote, strip_raw l.isRaw]
  simp [StrLit.bytes]

/-! ### A loose text is stripped to JSON -/

def Stops (s : List Byte) : Prop := skipGap s = s

theorem strip_comments {t r : List Byte} (h : Comments t r) (hr : Stops r) :
    strip false t = strip false r := by
  cases h with
  | none => rfl
  | @some x hx u _ hbehind =>
    have hopens : opensLine (x.bytes ++ u) = true ∨ opensBlock (x.bytes ++ u) = true := by
      cases x with
      | blank b => exact absurd rfl (hx b)
      | line body => exact .inl rfl
      | block body => exact .inr rfl
    rw [strip_opens hopens, skipGap_trivia, skipGap_behind hbehind, hr]

theorem plain_blank (b : Blank) : Plain b.byte := by
  cases b <;> exact ⟨by decide, by decide, by decide⟩

theorem strip_looseGap {t r : List Byte} (h : LooseGap t r) (hr : Stops r) :
    ∃ bs : List Blank, strip false t = Gap.bytes (bs.map .blank) ++ strip false r := by
  induction h with
  | comments hc => exact ⟨[], strip_comments hc hr⟩
  | blank b _ ih =>
    obtain ⟨bs, hbs⟩ := ih hr
    refine ⟨b :: bs, ?_⟩
    rw [strip_plain (plain_blank b), hbs]
    rfl

theorem strip_looseEnd {e : List Byte} (h : LooseEnd e) : strip false e = [] := by
  have hskip := skipGap_looseEnd h
  cases h with
  | none => exact strip_nil false
  | line body => rw [strip_opens (.inl rfl), hskip, strip_nil]
  | block unclosed => rw [strip_opens (.inr rfl), hskip, strip_nil]

theorem strip_gap_end {t e : List Byte} (h : LooseGap t e) (he : LooseEnd e) :
    ∃ bs : List Blank, strip false t = Gap.bytes (bs.map .blank) := by
  induction h with
  | @comments t e hc =>
    refine ⟨[], ?_⟩
    cases hc with
    | none => exact strip_looseEnd he
    | @some x hx u _ hbehind =>
      have hnil : Comments (x.bytes ++ u) e := .some hx hbehind
      have hskip := (skipGap_comments hnil).trans (skipGap_looseEnd he)
      cases x with
      | blank b => exact absurd rfl (hx b)
      | line body => rw [strip_opens (.inl rfl), hskip, strip_nil]; rfl
      | block body => rw [strip_opens (.inr rfl), hskip, strip_nil]; rfl
  | blank b _ ih =>
    obtain ⟨bs, hbs⟩ := ih he
    refine ⟨b :: bs, ?_⟩
    rw [strip_plain (plain_blank b), hbs]
    rfl

theorem stops_token {c : Byte} (hws : isAsciiWhitespace c = false) (hslash : c ≠ slash)
    (s : List Byte) : Stops (c :: s) := skipGap_token hws hslash s

theorem not_white_of_atom {b : Byte} (h : isAtomByte b = true) : isAsciiWhitespace b = false := by
  rw [Bool.eq_false_iff]
  intro hw
  simp only [isAsciiWhitespace, Bool.or_eq_true, decide_eq_true_eq] at hw
  rcases hw with (((hw | hw) | hw) | hw) | hw <;> exact ne_of_isAtomByte h rfl hw

theorem plain_atom {b : Byte} (h : isAtomByte b = true) : Plain b :=
  ⟨ne_of_isAtomByte h rfl, ne_of_isAtomByte h rfl, ne_of_isAtomByte h rfl⟩

theorem strip_looseAtom {a t r : List Byte} (h : LooseAtom a t r)
    (ha : ∀ b ∈ a, isAtomByte b = true) : strip false t = a ++ strip false r := by
  induction h with
  | last b t => rw [strip_plain (plain_atom (ha b (by simp)))]; rfl
  | next b hc hrest ih =>
    obtain ⟨c, a', u, rfl, rfl⟩ := looseAtom_head hrest
    have hatom := ha c (by simp)
    have hstops : Stops (c :: u) := stops_token (not_white_of_atom hatom) (plain_atom hatom).slash u
    rw [strip_plain (plain_atom (ha b (by simp))), strip_comments hc hstops,
      ih fun d hd => ha d (List.mem_cons_of_mem b hd)]
    rfl

/-- How a value or a member begins. -/
structure Begin (c : Byte) : Prop where
  white : isAsciiWhitespace c = false
  closer : isCloser c = false
  slash : c ≠ Jsonc.slash

theorem looseNode_head {n : Node} {t r : List Byte} (h : n.Loose t r) :
    ∃ c u, t = c :: u ∧ Begin c := by
  cases n with
  | atom a =>
    obtain ⟨b, a', u, heq, rfl⟩ := looseAtom_head h
    have hb : isAtomByte b = true := a.isAtom b (by
      rw [show a.first :: a.rest = b :: a' from heq]
      exact List.mem_cons_self)
    refine ⟨b, u, rfl, not_white_of_atom hb, ?_, (plain_atom hb).slash⟩
    simp [isCloser, ne_of_isAtomByte hb (c := rbrace) rfl, ne_of_isAtomByte hb (c := rbracket) rfl]
  | str s => exact ⟨quote, _, h, rfl, rfl, by decide⟩
  | arr es trailing tail =>
    rw [Node.loose_arr] at h
    obtain ⟨u, rfl, -⟩ := h
    exact ⟨lbracket, u, rfl, rfl, rfl, by decide⟩
  | obj fs trailing tail =>
    rw [Node.loose_obj] at h
    obtain ⟨u, rfl, -⟩ := h
    exact ⟨lbrace, u, rfl, rfl, rfl, by decide⟩

theorem Begin.stops {c : Byte} (h : Begin c) (s : List Byte) : Stops (c :: s) :=
  stops_token h.white h.slash s

/-- The closing bracket of an array or an object. -/
structure Closing (c : Byte) : Prop where
  white : isAsciiWhitespace c = false
  closer : isCloser c = true
  plain : Plain c

theorem plain_lbracket : Plain lbracket := ⟨by decide, by decide, by decide⟩

theorem plain_lbrace : Plain lbrace := ⟨by decide, by decide, by decide⟩

theorem closing_rbracket : Closing rbracket := ⟨rfl, rfl, by decide, by decide, by decide⟩

theorem closing_rbrace : Closing rbrace := ⟨rfl, rfl, by decide, by decide, by decide⟩

theorem Closing.stops {c : Byte} (h : Closing c) (s : List Byte) : Stops (c :: s) :=
  stops_token h.white h.plain.slash s

theorem closes_cons (c : Byte) (s : List Byte) : closes (c :: s) = isCloser c := by
  simp [closes]

theorem strip_trailing {c : Byte} (hc : Closing c) {u r : List Byte} (h : LooseGap u (c :: r)) :
    ∃ bs : List Blank, strip false (comma :: u) =
      Gap.bytes (bs.map .blank) ++ c :: strip false r := by
  obtain ⟨bs, hbs⟩ := strip_looseGap h (hc.stops r)
  have hcloses : closes (skipGap u) = true := by
    rw [skipGap_looseGap h, hc.stops r, closes_cons, hc.closer]
  exact ⟨bs, by rw [strip_comma, if_pos hcloses, hbs, strip_plain hc.plain]⟩

theorem strip_looseEmpty {c : Byte} (hc : Closing c) {u r : List Byte} (h : LooseEmpty c u r) :
    ∃ bs : List Blank, strip false u = Gap.bytes (bs.map .blank) ++ c :: strip false r := by
  rcases h with h | ⟨w, h, h'⟩
  · obtain ⟨bs, hbs⟩ := strip_looseGap h (hc.stops r)
    exact ⟨bs, by rw [hbs, strip_plain hc.plain]⟩
  · obtain ⟨bs, hbs⟩ := strip_looseGap h (stops_token rfl (by decide) w)
    obtain ⟨bs', hbs'⟩ := strip_trailing hc h'
    refine ⟨bs ++ bs', ?_⟩
    rw [hbs, hbs', List.map_append, gap_bytes_append, List.append_assoc]

section items

variable {α β : Type} {loose : α → Reads} {bytes : α → List Byte} {val : α → Option β}
  {P : α → Prop} {c : Byte}

/-- Each element of a container is stripped to one that is written as JSON. -/
structure Strips (loose : α → Reads) (bytes : α → List Byte) (val : α → Option β) (P : α → Prop)
    (x : α) : Prop where
  step : ∀ t r, loose x t r → Stops r → ∃ x', P x' ∧ val x' = val x ∧
    strip false t = bytes x' ++ strip false r
  head : ∀ t r, loose x t r → closes (skipGap t) = false

theorem looseItems_first {items : List Reads} {t r : List Byte} (h : LooseItems c items t r) :
    ∀ item, items.head? = some item → ∃ w, item t w := by
  cases h with
  | last hitem =>
    rintro _ ⟨⟩
    exact ⟨_, hitem⟩
  | trailing hitem _ =>
    rintro _ ⟨⟩
    exact ⟨_, hitem⟩
  | cons hitem _ =>
    rintro _ ⟨⟩
    exact ⟨_, hitem⟩

theorem strip_looseItems (hc : Closing c) {x : α} {xs : List α}
    (hx : ∀ y ∈ x :: xs, Strips loose bytes val P y) {t r : List Byte}
    (h : LooseItems c ((x :: xs).map loose) t r) :
    ∃ xs' : List α, xs' ≠ [] ∧ (∀ y ∈ xs', P y) ∧ xs'.mapM val = (x :: xs).mapM val ∧
      ∃ bs : List Blank, strip false t = commaSep false (xs'.map bytes) ++
        (Gap.bytes (bs.map .blank) ++ c :: strip false r) := by
  have hcomma : ∀ u, Stops (comma :: u) := stops_token rfl (by decide)
  have hfirst := hx x List.mem_cons_self
  induction xs generalizing x t with
  | nil =>
    cases h with
    | last hitem =>
      obtain ⟨x', hp, hval, hstrip⟩ := hfirst.step _ _ hitem (hc.stops r)
      refine ⟨[x'], by simp, by simpa using hp, by simp [hval], [], ?_⟩
      rw [hstrip, strip_plain hc.plain]
      simp [commaSep, Gap.bytes]
    | trailing hitem hgap =>
      obtain ⟨x', hp, hval, hstrip⟩ := hfirst.step _ _ hitem (hcomma _)
      obtain ⟨bs, hbs⟩ := strip_trailing hc hgap
      refine ⟨[x'], by simp, by simpa using hp, by simp [hval], bs, ?_⟩
      rw [hstrip, hbs]
      simp [commaSep]
    | cons _ hrest => cases hrest
  | cons y ys ih =>
    cases h with
    | cons hitem hrest =>
      rename_i u
      obtain ⟨x', hp, hval, hstrip⟩ := hfirst.step _ _ hitem (hcomma _)
      have hy := hx y (by simp)
      obtain ⟨ys', hne, hps, hvals, bs, hbs⟩ :=
        ih (fun z hz => hx z (List.mem_cons_of_mem x hz)) hrest hy
      obtain ⟨w, hw⟩ := looseItems_first hrest (loose y) rfl
      have hopen : ¬ closes (skipGap u) = true := by
        rw [hy.head u w hw]
        exact Bool.false_ne_true
      refine ⟨x' :: ys', by simp, List.forall_mem_cons.mpr ⟨hp, hps⟩, by
        rw [List.mapM_cons, List.mapM_cons, hval, hvals], bs, ?_⟩
      rw [hstrip, strip_comma, if_neg hopen, hbs]
      simp [commaSep, hne]

theorem strip_looseGroup {opening : Byte} (ho : Plain opening) (hc : Closing c) {xs : List α}
    (hx : ∀ y ∈ xs, Strips loose bytes val P y) {t r : List Byte}
    (h : LooseGroup opening c (xs.map loose) t r) :
    ∃ xs' : List α, (∀ y ∈ xs', P y) ∧ xs'.mapM val = xs.mapM val ∧ ∃ bs : List Blank,
      strip false t = group opening c (xs'.map bytes) false (bs.map .blank) ++ strip false r := by
  obtain ⟨u, rfl, h⟩ := h
  rw [strip_plain ho]
  cases xs with
  | nil =>
    rcases h with ⟨-, h⟩ | h
    · obtain ⟨bs, hbs⟩ := strip_looseEmpty hc h
      exact ⟨[], by simp, rfl, bs, by simp [hbs, group, commaSep]⟩
    · cases h
  | cons x xs =>
    rcases h with ⟨h, -⟩ | h
    · simp at h
    · obtain ⟨xs', -, hps, hvals, bs, hbs⟩ := strip_looseItems hc hx h
      exact ⟨xs', hps, hvals, bs, by simp [hbs, group]⟩

end items

section nodes

variable {N : Type} (lits : Literals N)

def StripsNode (n : Node) : Prop :=
  ∀ t r, n.Loose t r → ∃ n' : Node, n'.Strict ∧ n'.value lits = n.value lits ∧
    strip false t = n'.bytes ++ strip false r

theorem onlyBlanks_map (bs : List Blank) : OnlyBlanks (bs.map .blank) := by
  intro x hx
  obtain ⟨b, -, rfl⟩ := List.mem_map.mp hx
  exact ⟨b, rfl⟩

section slots

variable {L : Type} {label : L → Reads} {lab : L → List Byte} {Q : L → L → Prop}

/-- Each label begins like a value, and is stripped to one with only blanks in it. -/
def StripsLabel (label : L → Reads) (lab : L → List Byte) (Q : L → L → Prop) : Prop :=
  ∀ l t c u, label l t (c :: u) → Begin c → (∃ d z, t = d :: z ∧ Begin d) ∧
    ∃ l', Q l l' ∧ strip false t = lab l' ++ strip false (c :: u)

theorem strip_slot (hlabel : StripsLabel label lab Q) (s : Slot L Node)
    (ih : StripsNode lits s.value) {t r : List Byte} (h : (s.map Node.Loose).Loose label t r)
    (hr : Stops r) :
    ∃ s' : Slot L Node, OnlyBlanks s'.pre ∧ Q s.label s'.label ∧ s'.value.Strict ∧
      OnlyBlanks s'.post ∧ s'.value.value lits = s.value.value lits ∧
      strip false t = (s'.map Node.bytes).bytes lab ++ strip false r := by
  obtain ⟨u, w, z, hpre, hlab, hvalue, hpost⟩ := h
  obtain ⟨c, w, rfl, hc⟩ := looseNode_head hvalue
  obtain ⟨⟨d, u, rfl, hd⟩, l', hq, hstrip⟩ := hlabel _ _ _ _ hlab hc
  obtain ⟨bs, hbs⟩ := strip_looseGap hpre (hd.stops u)
  obtain ⟨n', hstrict, hvals, hnode⟩ := ih _ _ hvalue
  obtain ⟨bs', hbs'⟩ := strip_looseGap hpost hr
  refine ⟨⟨bs.map .blank, l', n', bs'.map .blank⟩, onlyBlanks_map bs, hq, hstrict,
    onlyBlanks_map bs', hvals, ?_⟩
  have hchain : strip false t = Gap.bytes (bs.map .blank) ++
      (lab l' ++ (n'.bytes ++ (Gap.bytes (bs'.map .blank) ++ strip false r))) := by
    rw [hbs, hstrip, ← hbs', ← hnode]
  rw [hchain]
  simp [Slot.bytes, Slot.map]

theorem head_slot (hlabel : StripsLabel label lab Q) (s : Slot L Node) {t r : List Byte}
    (h : (s.map Node.Loose).Loose label t r) : closes (skipGap t) = false := by
  obtain ⟨u, w, z, hpre, hlab, hvalue, -⟩ := h
  obtain ⟨c, w, rfl, hc⟩ := looseNode_head hvalue
  obtain ⟨⟨d, u, rfl, hd⟩, -⟩ := hlabel _ _ _ _ hlab hc
  rw [skipGap_looseGap hpre, hd.stops u, closes_cons, hd.closer]

end slots

theorem stripsLabel_none :
    StripsLabel (fun _ : Unit => Eq) (fun _ => []) fun _ _ => True := by
  rintro l t c u rfl hc
  exact ⟨⟨c, u, rfl, hc⟩, l, trivial, rfl⟩

theorem stripsLabel_name :
    StripsLabel Label.Loose Label.bytes fun l l' => l'.Strict ∧ l'.key lits = l.key lits := by
  rintro l _ c u ⟨w, z, rfl, hmid, hmid'⟩ hc
  obtain ⟨bs, hbs⟩ := strip_looseGap hmid (stops_token rfl (by decide) z)
  obtain ⟨bs', hbs'⟩ := strip_looseGap hmid' (hc.stops u)
  refine ⟨⟨quote, _, rfl, rfl, rfl, by decide⟩, ⟨l.name, bs.map .blank, bs'.map .blank⟩,
    ⟨⟨onlyBlanks_map bs, onlyBlanks_map bs'⟩, rfl⟩, ?_⟩
  have hcolon : Plain colon := ⟨by decide, by decide, by decide⟩
  rw [strip_str, hbs, strip_plain hcolon, hbs']
  simp [Label.bytes]

theorem strip_node (n : Node) : StripsNode lits n := by
  induction n using Node.induct with
  | atom a => exact fun t r h => ⟨.atom a, trivial, rfl, strip_looseAtom h a.isAtom⟩
  | str s =>
    rintro _ r rfl
    exact ⟨.str s, trivial, rfl, strip_str s r⟩
  | arr es trailing tail ih =>
    intro t r h
    rw [Node.loose_arr] at h
    have hslots : ∀ e ∈ es, Strips Elem.Loose Elem.bytes (fun e : Elem => e.value.value lits)
        (fun e => OnlyBlanks e.pre ∧ e.value.Strict ∧ OnlyBlanks e.post) e := by
      intro e he
      refine ⟨fun t r h hr => ?_, fun t r h => head_slot stripsLabel_none e h⟩
      obtain ⟨e', hpre, -, hstrict, hpost, hvals, hstrip⟩ :=
        strip_slot lits stripsLabel_none e (ih e he) h hr
      exact ⟨e', ⟨hpre, hstrict, hpost⟩, hvals, hstrip⟩
    obtain ⟨es', hall, hvals, bs, hstrip⟩ := strip_looseGroup plain_lbracket closing_rbracket hslots h
    refine ⟨.arr es' false (bs.map .blank), Node.strict_arr.mpr ⟨hall, rfl, onlyBlanks_map bs⟩, ?_, ?_⟩
    · rw [Node.value_arr, Node.value_arr, hvals]
    · rw [Node.bytes_arr, hstrip]
  | obj fs trailing tail ih =>
    intro t r h
    rw [Node.loose_obj] at h
    have hslots : ∀ f ∈ fs, Strips Field.Loose Field.bytes (Field.entry lits)
        (fun f => OnlyBlanks f.pre ∧ f.label.Strict ∧ f.value.Strict ∧ OnlyBlanks f.post) f := by
      intro f hf
      refine ⟨fun t r h hr => ?_, fun t r h => head_slot (stripsLabel_name lits) f h⟩
      obtain ⟨f', hpre, ⟨hlabel, hkey⟩, hstrict, hpost, hvals, hstrip⟩ :=
        strip_slot lits (stripsLabel_name lits) f (ih f hf) h hr
      refine ⟨f', ⟨hpre, hlabel, hstrict, hpost⟩, ?_, hstrip⟩
      simp only [Field.entry, Slot.entry, Slot.map, hkey, hvals]
    obtain ⟨fs', hall, hvals, bs, hstrip⟩ := strip_looseGroup plain_lbrace closing_rbrace hslots h
    refine ⟨.obj fs' false (bs.map .blank), Node.strict_obj.mpr ⟨hall, rfl, onlyBlanks_map bs⟩, ?_, ?_⟩
    · rw [Node.value_obj, Node.value_obj, hvals]
    · rw [Node.bytes_obj, hstrip]

theorem jsonText_strip {t : List Byte} {v : Value N} (h : LooseText lits t v) :
    JsonText lits (stripJsonc t) v := by
  obtain ⟨n, hv, u, w, z, hlead, hnode, htail, hend⟩ := h
  obtain ⟨c, u, rfl, hc⟩ := looseNode_head hnode
  obtain ⟨bs, hbs⟩ := strip_looseGap hlead (hc.stops u)
  obtain ⟨n', hstrict, hvals, hstrip⟩ := strip_node lits n _ _ hnode
  obtain ⟨bs', hbs'⟩ := strip_gap_end htail hend
  refine ⟨⟨bs.map .blank, n', bs'.map .blank, none⟩,
    ⟨onlyBlanks_map bs, hstrict, onlyBlanks_map bs', rfl⟩, ?_, hvals.trans hv⟩
  rw [stripJsonc, hbs, hstrip, hbs']
  simp [Doc.bytes, Doc.ending]

end nodes

end Travsr.Indexer
