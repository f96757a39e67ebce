import Travsr.Lib.Jsonc.Loose

/-! A scan from left to right that sees whether a text takes one of the four liberties. -/

namespace Jsonc

/-- What a byte stands in. -/
inductive Mode where
  | text | slash | line | block | star | str | esc
  deriving DecidableEq

def Mode.step : Mode → Byte → Mode
  | .text, b => if b = quote then .str else if b = Jsonc.slash then .slash else .text
  | .slash, b =>
    if b = Jsonc.slash then .line
    else if b = asterisk then .block
    else if b = quote then .str
    else .text
  | .line, b => if b = lf then .text else .line
  | .block, b => if b = asterisk then .star else .block
  | .star, b => if b = Jsonc.slash then .text else if b = asterisk then .star else .block
  | .str, b => if b = quote then .text else if b = backslash then .esc else .str
  | .esc, _ => .str

/-- What the last byte outside of gaps belongs to. -/
inductive Token where
  | opening | atom | other
  deriving DecidableEq

def Token.of (b : Byte) : Token :=
  if isAtomByte b then .atom else if b = lbracket ∨ b = lbrace then .opening else .other

structure Scanner where
  mode : Mode
  last : Token
  /-- A comment has stood behind the last token. -/
  comment : Bool
  liberty : Bool
  deriving DecidableEq

def Scanner.strays (s : Scanner) (b : Byte) : Bool :=
  (isAtomByte b && s.last = .atom && s.comment) || (b = comma && s.last = .opening)

def Scanner.stepText (s : Scanner) (b : Byte) : Scanner :=
  if b = slash then { s with mode := .slash }
  else if b = formFeed then { s with liberty := true }
  else if isBlankByte b then s
  else ⟨Mode.text.step b, .of b, false, s.liberty || s.strays b⟩

def Scanner.step (s : Scanner) (b : Byte) : Scanner :=
  match s.mode with
  | .text => s.stepText b
  | .line | .star => { s with mode := s.mode.step b, comment := s.comment || s.mode.step b = .text }
  | .slash | .block | .str | .esc => { s with mode := s.mode.step b }

def Scanner.run (s : Scanner) (t : List Byte) : Scanner := t.foldl Scanner.step s

def Scanner.start : Scanner := ⟨.text, .other, false, false⟩

/-- The text may end here. -/
def Scanner.Clean (s : Scanner) : Prop := s.liberty = false ∧ s.mode ≠ .block ∧ s.mode ≠ .star

instance (s : Scanner) : Decidable s.Clean := inferInstanceAs (Decidable (_ ∧ _ ∧ _))

def TakesLiberty (t : List Byte) : Prop := ¬ (Scanner.start.run t).Clean

instance (t : List Byte) : Decidable (TakesLiberty t) := inferInstanceAs (Decidable (¬ _))

namespace Scanner

theorem run_cons (s : Scanner) (b : Byte) (t : List Byte) : s.run (b :: t) = (s.step b).run t := rfl

theorem run_append (s : Scanner) (t u : List Byte) : s.run (t ++ u) = (s.run t).run u :=
  List.foldl_append

theorem liberty_step {s : Scanner} (h : s.liberty = true) (b : Byte) :
    (s.step b).liberty = true := by
  unfold step stepText
  cases s.mode with
  | text => split_ifs <;> simp [h]
  | _ => exact h

theorem liberty_run {s : Scanner} (h : s.liberty = true) (t : List Byte) :
    (s.run t).liberty = true := by
  induction t generalizing s with
  | nil => exact h
  | cons b t ih => exact ih (liberty_step h b)

theorem Clean.liberty {s : Scanner} {t : List Byte} (h : (s.run t).Clean) : s.liberty = false := by
  by_contra hl
  have := liberty_run (by simpa using hl) t
  simp [h.1] at this

/-! ### Gaps -/

theorem run_blank {s : Scanner} (h : s.mode = .text) (b : Blank) : s.step b.byte = s := by
  have htext : s.step b.byte = s.stepText b.byte := by
    rw [step, h]
  rw [htext, stepText]
  cases b <;> rfl

theorem run_line {s : Scanner} (h : s.mode = .line) {body : List Byte} (hbody : lf ∉ body) :
    s.run body = s := by
  induction body with
  | nil => rfl
  | cons b body ih =>
    have hb : b ≠ lf := fun hb => hbody (hb ▸ List.mem_cons_self)
    have hstep : s.step b = s := by
      obtain ⟨mode, last, comment, liberty⟩ := s
      simp only at h
      subst h
      simp [step, Mode.step, hb]
    rw [run_cons, hstep]
    exact ih fun hmem => hbody (List.mem_cons_of_mem b hmem)

def Within (s : Scanner) (t : List Byte) : Prop :=
  s.mode = .block ∧ ¬ [asterisk, slash] <:+: t ∨ s.mode = .star ∧ ¬ [asterisk, slash] <:+: asterisk :: t

theorem step_within {s : Scanner} {b : Byte} {t : List Byte} (h : s.Within (b :: t)) :
    ∃ m, s.step b = { s with mode := m } ∧ (s.step b).Within t := by
  obtain ⟨mode, last, comment, liberty⟩ := s
  rcases h with ⟨rfl, h⟩ | ⟨rfl, h⟩
  · by_cases hb : b = asterisk
    · subst hb
      exact ⟨.star, rfl, .inr ⟨rfl, h⟩⟩
    · have hstep : (Scanner.mk .block last comment liberty).step b = ⟨.block, last, comment, liberty⟩ := by
        simp [step, Mode.step, hb]
      rw [hstep]
      exact ⟨.block, rfl, .inl ⟨rfl, fun hmem => h (hmem.trans (List.suffix_cons b t).isInfix)⟩⟩
  · have hslash : b ≠ slash := by
      rintro rfl
      exact h ⟨[], t, rfl⟩
    have hrest : ¬ [asterisk, slash] <:+: b :: t := fun hmem =>
      h (hmem.trans (List.suffix_cons asterisk _).isInfix)
    by_cases hb : b = asterisk
    · subst hb
      exact ⟨.star, by simp [step, Mode.step, hslash], .inr ⟨by simp [step, Mode.step, hslash], hrest⟩⟩
    · have hstep : (Scanner.mk .star last comment liberty).step b = ⟨.block, last, comment, liberty⟩ := by
        simp [step, Mode.step, hb, hslash]
      rw [hstep]
      exact ⟨.block, rfl,
        .inl ⟨rfl, fun hmem => hrest (hmem.trans (List.suffix_cons b t).isInfix)⟩⟩

theorem run_within {s : Scanner} {t : List Byte} (h : s.Within t) :
    ∃ m, (m = .block ∨ m = .star) ∧ s.run t = { s with mode := m } := by
  induction t generalizing s with
  | nil => exact ⟨s.mode, h.imp And.left And.left, rfl⟩
  | cons b t ih =>
    obtain ⟨m, hstep, hwithin⟩ := step_within h
    obtain ⟨m', hm', hrun⟩ := ih hwithin
    exact ⟨m', hm', by rw [run_cons, hrun, hstep]⟩

theorem run_close {m : Mode} (h : m = .block ∨ m = .star) {last : Token} {comment liberty : Bool} :
    (Scanner.mk m last comment liberty).run [asterisk, slash] = ⟨.text, last, true, liberty⟩ := by
  rcases h with rfl | rfl <;> cases comment <;> rfl

theorem run_trivia {s : Scanner} (h : s.mode = .text) (x : Trivia) : ∃ c, s.run x.bytes =
    { s with comment := c } ∧ (x.IsComment → c = true) ∧ (s.comment = true → c = true) := by
  obtain ⟨mode, last, comment, liberty⟩ := s
  simp only at h
  subst h
  cases x with
  | blank b =>
    have hrun : (Scanner.mk .text last comment liberty).run [b.byte] =
        ⟨.text, last, comment, liberty⟩ := @run_blank ⟨.text, last, comment, liberty⟩ rfl b
    exact ⟨comment, hrun, fun hx => absurd rfl (hx b), id⟩
  | line body =>
    have hopen : (Scanner.mk .text last comment liberty).run [slash, slash] =
        ⟨.line, last, comment, liberty⟩ := rfl
    refine ⟨true, ?_, fun _ => rfl, fun _ => rfl⟩
    show Scanner.run _ ([slash, slash] ++ (body.bytes ++ [lf])) = _
    rw [run_append, run_append, hopen, run_line rfl body.inLine]
    simp [run, step, Mode.step]
  | block body =>
    have hopen : (Scanner.mk .text last comment liberty).run [slash, asterisk] =
        ⟨.block, last, comment, liberty⟩ := rfl
    obtain ⟨m, hm, hrun⟩ := run_within (s := ⟨.block, last, comment, liberty⟩)
      (.inl ⟨rfl, fun hmem => body.unclosed (hmem.trans (List.prefix_append _ [asterisk]).isInfix)⟩)
    refine ⟨true, ?_, fun _ => rfl, fun _ => rfl⟩
    show Scanner.run _ ([slash, asterisk] ++ (body.bytes ++ [asterisk, slash])) = _
    rw [run_append, run_append, hopen, hrun, run_close hm]

theorem run_gap {s : Scanner} (h : s.mode = .text) (g : Gap) : ∃ c, s.run g.bytes =
    { s with comment := c } ∧ (s.comment = true → c = true) := by
  induction g generalizing s with
  | nil => exact ⟨s.comment, rfl, id⟩
  | cons x g ih =>
    obtain ⟨c, hx, _, hc⟩ := run_trivia h x
    obtain ⟨c', hg, hc'⟩ := @ih { s with comment := c } h
    refine ⟨c', ?_, fun hs => hc' (hc hs)⟩
    have hbytes : Gap.bytes (x :: g) = x.bytes ++ Gap.bytes g := rfl
    rw [hbytes, run_append, hx, hg]

/-- Between two tokens, no liberty being taken so far. -/
structure Between (s : Scanner) : Prop where
  mode : s.mode = .text
  liberty : s.liberty = false

/-- A value may begin. -/
structure Ready (s : Scanner) : Prop extends Between s where
  last : s.last ≠ .atom

/-- A value has been read. -/
structure Past (s : Scanner) : Prop extends Between s where
  last : s.last ≠ .opening

theorem Between.gap {s : Scanner} (h : s.Between) (g : Gap) : (s.run g.bytes).Between := by
  obtain ⟨c, hrun, _⟩ := run_gap h.mode g
  rw [hrun]
  exact ⟨h.mode, h.liberty⟩

theorem Ready.gap {s : Scanner} (h : s.Ready) (g : Gap) : (s.run g.bytes).Ready := by
  obtain ⟨c, hrun, _⟩ := run_gap h.mode g
  rw [hrun]
  exact ⟨⟨h.mode, h.liberty⟩, h.last⟩

theorem Past.gap {s : Scanner} (h : s.Past) (g : Gap) : (s.run g.bytes).Past := by
  obtain ⟨c, hrun, _⟩ := run_gap h.mode g
  rw [hrun]
  exact ⟨⟨h.mode, h.liberty⟩, h.last⟩

/-! ### Tokens -/

def isTokenByte (b : Byte) : Bool := b ≠ slash && b ≠ formFeed && !isBlankByte b

theorem step_token {s : Scanner} (h : s.mode = .text) {b : Byte} (hb : isTokenByte b = true) :
    s.step b = ⟨Mode.text.step b, .of b, false, s.liberty || s.strays b⟩ := by
  simp only [isTokenByte, Bool.and_eq_true, decide_eq_true_eq, Bool.not_eq_true', ne_eq] at hb
  have htext : s.step b = s.stepText b := by
    rw [step, h]
  rw [htext, stepText, if_neg hb.1.1, if_neg hb.1.2, if_neg (by simp [hb.2])]

theorem isTokenByte_atom {b : Byte} (h : isAtomByte b = true) : isTokenByte b = true := by
  have hne : ∀ c, isAtomByte c = false → b ≠ c := fun c => ne_of_isAtomByte h
  simp [isTokenByte, isBlankByte, hne slash rfl, hne formFeed rfl, hne space rfl, hne tab rfl,
    hne lf rfl, hne cr rfl]

theorem step_atom {s : Scanner} (h : s.Between) {b : Byte} (hb : isAtomByte b = true)
    (hs : s.last ≠ .atom ∨ s.comment = false) : s.step b = ⟨.text, .atom, false, false⟩ := by
  have hquote : b ≠ quote := ne_of_isAtomByte hb rfl
  have hslash : b ≠ slash := ne_of_isAtomByte hb rfl
  have hcomma : b ≠ comma := ne_of_isAtomByte hb rfl
  have hstrays : s.strays b = false := by
    rcases hs with hs | hs <;> simp [strays, hcomma, hs]
  rw [step_token h.mode (isTokenByte_atom hb), hstrays, h.liberty]
  simp [Mode.step, Token.of, hquote, hslash, hb]

theorem run_atom {s : Scanner} (h : s.Ready) (a : Atom) : s.run a.bytes = ⟨.text, .atom, false, false⟩ := by
  have hrest : ∀ l : List Byte, (∀ b ∈ l, isAtomByte b = true) →
      (Scanner.mk .text .atom false false).run l = ⟨.text, .atom, false, false⟩ := by
    intro l hl
    induction l with
    | nil => rfl
    | cons b l ih =>
      rw [run_cons, step_atom ⟨rfl, rfl⟩ (hl b List.mem_cons_self) (.inr rfl)]
      exact ih fun c hc => hl c (List.mem_cons_of_mem b hc)
  rw [Atom.bytes, run_cons, step_atom h.toBetween (a.isAtom _ List.mem_cons_self) (.inl h.last)]
  exact hrest _ fun b hb => a.isAtom b (List.mem_cons_of_mem _ hb)

theorem run_raw {s : Scanner} (h : s.mode = .str) {raw : List Byte} (hraw : isRaw raw = true) :
    s.run raw = s := by
  obtain ⟨mode, last, comment, liberty⟩ := s
  simp only at h
  subst h
  have hplain : ∀ b, b ≠ backslash → b ≠ quote →
      (Scanner.mk .str last comment liberty).step b = ⟨.str, last, comment, liberty⟩ := by
    intro b hb hq
    simp [step, Mode.step, hb, hq]
  induction raw using isRaw.induct with
  | case1 => rfl
  | case2 b =>
    simp only [isRaw, Bool.and_eq_true, bne_iff_ne] at hraw
    exact hplain b hraw.1 hraw.2
  | case3 c r ih =>
    simp only [isRaw, if_true] at hraw
    exact ih hraw
  | case4 b c r hb ih =>
    simp only [isRaw, hb, if_false, Bool.and_eq_true, bne_iff_ne] at hraw
    rw [run_cons, hplain b hb hraw.1]
    exact ih hraw.2

theorem run_str {s : Scanner} (h : s.Between) (l : StrLit) :
    s.run l.bytes = ⟨.text, .other, false, false⟩ := by
  have hopen : s.step quote = ⟨.str, .other, false, false⟩ := by
    have hstrays : s.strays quote = false := by
      have hatom : isAtomByte quote = false := by decide
      have hcomma : quote ≠ comma := by decide
      simp [strays, hatom, hcomma]
    rw [step_token h.mode (by decide), h.liberty, hstrays]
    rfl
  rw [StrLit.bytes, run_cons, hopen, run_append, run_raw rfl l.isRaw]
  rfl

theorem Past.comma {s : Scanner} (h : s.Past) : (s.step comma).Ready := by
  have hatom : isAtomByte Jsonc.comma = false := rfl
  have hstrays : s.strays Jsonc.comma = false := by
    simp [strays, hatom, h.last]
  rw [step_token h.mode rfl, hstrays, h.liberty]
  exact ⟨⟨rfl, rfl⟩, by decide⟩

/-- A byte that is a token alone and no comma. -/
structure Mark (b : Byte) : Prop where
  token : isTokenByte b = true
  atom : isAtomByte b = false
  comma : b ≠ Jsonc.comma
  quote : b ≠ Jsonc.quote

theorem step_mark {s : Scanner} (h : s.Between) {b : Byte} (hb : Mark b) :
    s.step b = ⟨.text, .of b, false, false⟩ := by
  have hslash : b ≠ slash := by
    rintro rfl
    exact absurd hb.token (by decide)
  have hstrays : s.strays b = false := by
    simp [strays, hb.atom, hb.comma]
  rw [step_token h.mode hb.token, hstrays, h.liberty]
  simp [Mode.step, hb.quote, hslash]

theorem mark_colon : Mark colon := ⟨rfl, rfl, by decide, by decide⟩

/-- The first byte of a container, and its last. -/
structure Fences (opening closing : Byte) : Prop where
  first : Mark opening
  opens : Token.of opening = .opening
  last : Mark closing
  closes : Token.of closing = .other

theorem fences_brackets : Fences lbracket rbracket :=
  ⟨⟨rfl, rfl, by decide, by decide⟩, rfl, ⟨rfl, rfl, by decide, by decide⟩, rfl⟩

theorem fences_braces : Fences lbrace rbrace :=
  ⟨⟨rfl, rfl, by decide, by decide⟩, rfl, ⟨rfl, rfl, by decide, by decide⟩, rfl⟩

variable {opening closing : Byte}

theorem Fences.open (h : Fences opening closing) {s : Scanner} (hs : s.Between) :
    s.step opening = ⟨.text, .opening, false, false⟩ := by
  rw [step_mark hs h.first, h.opens]

theorem Fences.close (h : Fences opening closing) {s : Scanner} (hs : s.Between) :
    (s.step closing).Past := by
  rw [step_mark hs h.last, h.closes]
  exact ⟨⟨rfl, rfl⟩, by decide⟩

/-! ### Values -/

def Passes (t : List Byte) : Prop := ∀ s : Scanner, s.Ready → (s.run t).Past

theorem run_label {s : Scanner} (h : s.Between) (l : Label) : (s.run l.bytes).Ready := by
  have hname : (s.run l.name.bytes).Between := by
    rw [run_str h]
    exact ⟨rfl, rfl⟩
  have hcolon : (((s.run l.name.bytes).run l.mid.bytes).step colon).Ready := by
    rw [step_mark (hname.gap l.mid) mark_colon]
    exact ⟨⟨rfl, rfl⟩, by decide⟩
  rw [Label.bytes, run_append, run_append, run_cons]
  exact hcolon.gap l.mid'

theorem passes_slot {L : Type} {lab : L → List Byte} {s : Slot L (List Byte)}
    (hlabel : ∀ σ : Scanner, σ.Ready → (σ.run (lab s.label)).Ready) (h : Passes s.value) :
    Passes (s.bytes lab) := by
  intro σ hσ
  rw [Slot.bytes, run_append, run_append, run_append]
  exact (h _ (hlabel _ (hσ.gap s.pre))).gap s.post

theorem run_commaSep {trailing : Bool} {x : List Byte} {xs : List (List Byte)}
    (h : ∀ y ∈ x :: xs, Passes y) {s : Scanner} (hs : s.Ready) :
    (s.run (commaSep trailing (x :: xs))).Between := by
  have hx := h x List.mem_cons_self s hs
  induction xs generalizing x s with
  | nil =>
    cases trailing with
    | false =>
      have hbytes : commaSep false [x] = x := by simp [commaSep]
      rw [hbytes]
      exact hx.toBetween
    | true =>
      have hbytes : commaSep true [x] = x ++ [Jsonc.comma] := by simp [commaSep]
      rw [hbytes, run_append]
      exact hx.comma.toBetween
  | cons y xs ih =>
    have hbytes : commaSep trailing (x :: y :: xs) =
        x ++ (Jsonc.comma :: commaSep trailing (y :: xs)) := by
      rw [commaSep]
      simp
    rw [hbytes, run_append, run_cons]
    have hrest := fun z hz => h z (List.mem_cons_of_mem x hz)
    exact ih hrest hx.comma (hrest y List.mem_cons_self _ hx.comma)

theorem passes_group (hf : Fences opening closing) {items : List (List Byte)}
    (h : ∀ y ∈ items, Passes y) (trailing : Bool) (tail : Gap) :
    Passes (group opening closing items trailing tail) := by
  intro s hs
  have hopen := hf.open hs.toBetween
  have hready : (s.step opening).Ready := by
    rw [hopen]
    exact ⟨⟨rfl, rfl⟩, by decide⟩
  have hitems : ((s.step opening).run (commaSep trailing items)).Between := by
    cases items with
    | nil => exact hready.toBetween
    | cons x xs => exact run_commaSep h hready
  rw [group, run_cons, run_append, run_append]
  exact hf.close (hitems.gap tail)

theorem passes_node (n : Node) : Passes n.bytes := by
  induction n using Node.induct with
  | atom a =>
    intro s hs
    show (s.run a.bytes).Past
    rw [run_atom hs a]
    exact ⟨⟨rfl, rfl⟩, by decide⟩
  | str l =>
    intro s hs
    show (s.run l.bytes).Past
    rw [run_str hs.toBetween l]
    exact ⟨⟨rfl, rfl⟩, by decide⟩
  | arr es trailing tail ih =>
    rw [Node.bytes_arr]
    refine passes_group fences_brackets ?_ trailing tail
    simp only [List.forall_mem_map]
    intro e he
    exact passes_slot (fun _ hs => hs) (ih e he)
  | obj fs trailing tail ih =>
    rw [Node.bytes_obj]
    refine passes_group fences_braces ?_ trailing tail
    simp only [List.forall_mem_map]
    intro f hf
    exact passes_slot (fun _ hs => run_label hs.toBetween f.label) (ih f hf)

theorem ready_start : start.Ready := ⟨⟨rfl, rfl⟩, by decide⟩

end Scanner

theorem not_takesLiberty (d : Doc) : ¬ TakesLiberty d.bytes := by
  rw [TakesLiberty, not_not]
  have htail := (Scanner.passes_node d.root _ (Scanner.ready_start.gap d.lead)).gap d.tail
  rw [Doc.bytes, Scanner.run_append, Scanner.run_append, Scanner.run_append, Doc.ending]
  generalize Scanner.run _ d.tail.bytes = s at htail
  obtain ⟨mode, last, comment, liberty⟩ := s
  obtain ⟨⟨hmode, hliberty⟩, -⟩ := htail
  simp only at hmode hliberty
  subst hmode hliberty
  cases d.last with
  | none => exact ⟨rfl, Mode.noConfusion, Mode.noConfusion⟩
  | some body =>
    have hopen : (Scanner.mk .text last comment false).run [slash, slash] =
        ⟨.line, last, comment, false⟩ := rfl
    show (Scanner.run _ ([slash, slash] ++ body.bytes)).Clean
    rw [Scanner.run_append, hopen, Scanner.run_line rfl body.inLine]
    exact ⟨rfl, Mode.noConfusion, Mode.noConfusion⟩

end Jsonc

namespace Jsonc

def Mode.inString (m : Mode) : Bool := m = .str || m = .esc

def strings : Mode → List Byte → List Byte
  | _, [] => []
  | m, b :: t =>
    if m.inString || (m.step b).inString then b :: strings (m.step b) t else strings (m.step b) t

theorem strings_outside {m : Mode} {b : Byte} (h : m.inString = false)
    (h' : (m.step b).inString = false) (t : List Byte) :
    strings m (b :: t) = strings (m.step b) t := by
  simp [strings, h, h']

theorem strings_inside {m : Mode} (h : m.inString = true) (b : Byte) (t : List Byte) :
    strings m (b :: t) = b :: strings (m.step b) t := by
  simp [strings, h]

theorem strings_text {b : Byte} (hquote : b ≠ quote) (hslash : b ≠ slash) (t : List Byte) :
    strings .text (b :: t) = strings .text t := by
  have hstep : Mode.text.step b = .text := by simp [Mode.step, hquote, hslash]
  rw [strings_outside rfl (by rw [hstep]; rfl), hstep]

theorem strings_line {body : List Byte} (hbody : lf ∉ body) (t : List Byte) :
    strings .line (body ++ t) = strings .line t := by
  induction body with
  | nil => rfl
  | cons b body ih =>
    have hb : b ≠ lf := fun hb => hbody (hb ▸ List.mem_cons_self)
    have hstep : Mode.line.step b = .line := by simp [Mode.step, hb]
    rw [List.cons_append, strings_outside rfl (by rw [hstep]; rfl), hstep]
    exact ih fun hmem => hbody (List.mem_cons_of_mem b hmem)

theorem strings_within {s : Scanner} {u : List Byte} (h : s.Within u) (t : List Byte) :
    strings s.mode (u ++ t) = strings (s.run u).mode t := by
  induction u generalizing s with
  | nil => rfl
  | cons b u ih =>
    obtain ⟨-, -, hwithin⟩ := Scanner.step_within h
    have hmode : ∀ {s : Scanner} {u : List Byte}, s.Within u → s.mode.inString = false ∧
        ∀ b, (s.step b).mode = s.mode.step b := by
      intro s u hs
      rcases hs with ⟨hs, -⟩ | ⟨hs, -⟩ <;> exact ⟨by rw [hs]; rfl, fun b => by simp [Scanner.step, hs]⟩
    obtain ⟨hout, hstep⟩ := hmode h
    have hout' : (s.mode.step b).inString = false := by
      rw [← hstep b]
      exact (hmode hwithin).1
    rw [List.cons_append, strings_outside hout hout', ← hstep b, ih hwithin]
    rfl

theorem strings_block {body : List Byte} (h : ¬ [asterisk, slash] <:+: body) (t : List Byte) :
    ∃ m : Mode, (m = .block ∨ m = .star) ∧ strings .block (body ++ t) = strings m t := by
  have hwithin : (Scanner.mk .block .other false false).Within body := .inl ⟨rfl, h⟩
  obtain ⟨m, hm, hrun⟩ := Scanner.run_within hwithin
  refine ⟨m, hm, ?_⟩
  have hstrings := strings_within hwithin t
  rw [hrun] at hstrings
  exact hstrings

theorem strings_trivia (x : Trivia) (t : List Byte) :
    strings .text (x.bytes ++ t) = strings .text t := by
  cases x with
  | blank b => cases b <;> exact strings_text (by decide) (by decide) t
  | line body =>
    have hbytes : (Trivia.line body).bytes ++ t = slash :: slash :: (body.bytes ++ lf :: t) := by
      simp [Trivia.bytes]
    have hopen : strings .text (slash :: slash :: (body.bytes ++ lf :: t)) =
        strings .line (body.bytes ++ lf :: t) := rfl
    rw [hbytes, hopen, strings_line body.inLine]
    rfl
  | block body =>
    have hbytes : (Trivia.block body).bytes ++ t =
        slash :: asterisk :: (body.bytes ++ asterisk :: slash :: t) := by
      simp [Trivia.bytes]
    have hopen : strings .text (slash :: asterisk :: (body.bytes ++ asterisk :: slash :: t)) =
        strings .block (body.bytes ++ asterisk :: slash :: t) := rfl
    have hbody : ¬ [asterisk, slash] <:+: body.bytes := fun hmem =>
      body.unclosed (hmem.trans (List.prefix_append _ [asterisk]).isInfix)
    obtain ⟨m, hm, hrest⟩ := strings_block hbody (asterisk :: slash :: t)
    rw [hbytes, hopen, hrest]
    rcases hm with rfl | rfl <;> rfl

theorem strings_behind {t r : List Byte} (h : Behind t r) : strings .text t = strings .text r := by
  induction h with
  | none => rfl
  | formFeed _ ih => rw [strings_text (by decide) (by decide), ih]
  | trivia x _ ih => rw [strings_trivia, ih]

theorem strings_looseEnd {e : List Byte} (h : LooseEnd e) : strings .text e = [] := by
  cases h with
  | none => rfl
  | line body =>
    have hopen : strings .text (slash :: slash :: body.bytes) = strings .line body.bytes := rfl
    have hbody := strings_line body.inLine []
    rw [List.append_nil] at hbody
    rw [hopen, hbody]
    rfl
  | @block body hunclosed =>
    have hopen : strings .text (slash :: asterisk :: body) = strings .block body := rfl
    obtain ⟨m, -, hbody⟩ := strings_block hunclosed []
    rw [List.append_nil] at hbody
    rw [hopen, hbody]
    rfl

end Jsonc
