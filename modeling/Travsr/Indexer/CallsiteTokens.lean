import Travsr.Core.Ascii
import Travsr.Indexer.Callsite

open Travsr.Core.Text

namespace Travsr.Indexer.Callsite

open Lexicon (Token punctuation)

variable {table : CharTable} {s after rest : List Char} {c : Char} {bang : Bool}

/-! ### The first token of a text -/

theorem stripPrefix_eq_some {pat : String} : stripPrefix pat s = some rest ↔ s = pat.toList ++ rest := by
  unfold stripPrefix
  constructor
  · intro h
    split_ifs at h with hpre
    obtain ⟨more, rfl⟩ := List.isPrefixOf_iff_prefix.mp hpre
    rw [List.drop_left, Option.some.injEq] at h
    rw [h]
  · intro h
    rw [h, if_pos (List.isPrefixOf_iff_prefix.mpr ⟨rest, rfl⟩), List.drop_left]

theorem stripPrefix_eq_none {pat : String} : stripPrefix pat s = none ↔ ¬pat.toList <+: s := by
  rw [Option.eq_none_iff_forall_ne_some]
  simp only [ne_eq, stripPrefix_eq_some, ← not_exists]
  exact not_congr ⟨fun ⟨more, h⟩ => ⟨more, h.symm⟩, fun ⟨more, h⟩ => ⟨more, h.symm⟩⟩

theorem pieces_trimStart (s : List Char) : table.lexicon.pieces (trimStart s) = table.lexicon.pieces s :=
  congrArg (List.flatMap Token.pieces) (@Lexicon.tokens_dropSpace table.lexicon s)

theorem xid_of_ascii (table : CharTable) {c : Char} (hc : c.toNat < 128) (hno : (c.isAlphanum || c == '_') = false) :
    table.xidContinue c = false := (table.xid_ascii c hc).trans hno

theorem tokens_punct (hspace : isWhitespace c = false) (hslash : c ≠ '/') (hstring : c ≠ '"')
    (hquote : c ≠ Lexicon.quote) (hword : table.xidContinue c = false) :
    table.lexicon.tokens (c :: s) = .punct (punctuation (c :: s)) ::
      table.lexicon.tokens ((c :: s).drop (punctuation (c :: s)).length) := by
  have hnext : table.lexicon.next (c :: s) =
      some (.punct (punctuation (c :: s)), (c :: s).drop (punctuation (c :: s)).length) := by
    have hspace' : ¬table.lexicon.space c = true := Bool.eq_false_iff.mp hspace
    have hword' : ¬table.lexicon.word c = true := Bool.eq_false_iff.mp hword
    rw [Lexicon.next, if_neg hspace', if_neg fun h => hslash h.1, if_neg fun h => hslash h.1,
      if_neg hstring, if_neg hquote, if_neg hword']
  rw [Lexicon.tokens_of_next hnext, if_neg (by simp)]

theorem pieces_bang (h : s.head? ≠ some '=') :
    table.lexicon.pieces ('!' :: s) = .punct ['!'] :: table.lexicon.pieces s := by
  have hone : punctuation ('!' :: s) = ['!'] := by
    rcases Lexicon.punctuation_cases '!' s with ⟨hmem, hpre⟩ | hone
    · have hall : ∀ p ∈ Lexicon.joined, p.head? = some '!' → p = ['!', '='] := by decide
      have hhead : (punctuation ('!' :: s)).head? = some '!' := by
        obtain ⟨more, hmore⟩ := Lexicon.punctuation_cons '!' s
        rw [hmore]
        rfl
      rw [hall _ hmem hhead] at hpre
      obtain ⟨more, hmore⟩ := hpre
      injection hmore with _ hs
      exact absurd (congrArg List.head? hs.symm) h
    · exact hone
  have hword := xid_of_ascii table (c := '!') (by decide) (by decide)
  rw [Lexicon.pieces, tokens_punct (by decide) (by decide) (by decide) (by decide) hword, hone]
  rfl

theorem pieces_colons (s : List Char) :
    table.lexicon.pieces (':' :: ':' :: s) = .punct [':', ':'] :: table.lexicon.pieces s := by
  have htwo : punctuation (':' :: ':' :: s) = [':', ':'] := rfl
  have hword := xid_of_ascii table (c := ':') (by decide) (by decide)
  rw [Lexicon.pieces, tokens_punct (by decide) (by decide) (by decide) (by decide) hword, htwo]
  rfl

theorem pieces_angle (s : List Char) : (table.lexicon.pieces ('<' :: s)).head? = some (.punct ['<']) := by
  have hword := xid_of_ascii table (c := '<') (by decide) (by decide)
  obtain ⟨more, hmore⟩ := Lexicon.punctuation_cons '<' s
  rw [Lexicon.pieces, tokens_punct (by decide) (by decide) (by decide) (by decide) hword, hmore]
  rfl

theorem pieces_of_next {t : Token} (h : table.lexicon.next s = some (t, rest))
    (ht : t = .word ∨ t = .literal) : table.lexicon.pieces s = t :: table.lexicon.pieces rest := by
  rw [Lexicon.pieces, Lexicon.tokens_of_next h]
  rcases ht with rfl | rfl <;> rfl

theorem quoteToken_opaque (lex : Lexicon) (s : List Char) :
    (lex.quoteToken s).1 = .word ∨ (lex.quoteToken s).1 = .literal := by
  cases s with
  | nil => exact Or.inl rfl
  | cons c s =>
    unfold Lexicon.quoteToken
    dsimp only
    split_ifs
    · exact Or.inr rfl
    · exact Or.inr rfl
    · exact Or.inl rfl

theorem wordToken_opaque (lex : Lexicon) (s : List Char) :
    (lex.wordToken s).1 = .word ∨ (lex.wordToken s).1 = .literal := by
  unfold Lexicon.wordToken
  dsimp only
  split_ifs
  · exact Or.inr rfl
  · exact Or.inl rfl
  · exact Or.inl rfl

def Opaque (table : CharTable) (c : Char) : Prop :=
  c = '"' ∨ c = Lexicon.quote ∨ table.xidContinue c = true

theorem pieces_opaque (hspace : isWhitespace c = false) (hop : Opaque table c) (s : List Char) :
    ∃ t ts, table.lexicon.pieces (c :: s) = t :: ts ∧ (t = .word ∨ t = .literal) := by
  have hspace' : ¬table.lexicon.space c = true := Bool.eq_false_iff.mp hspace
  have hslash : c ≠ '/' := by
    rintro rfl
    have hword := xid_of_ascii table (c := '/') (by decide) (by decide)
    rcases hop with h | h | h
    · exact absurd h (by decide)
    · exact absurd h (by decide)
    · exact absurd (hword.symm.trans h) (by decide)
  by_cases hstring : c = '"'
  · have hnext : table.lexicon.next (c :: s) = some (.literal, Lexicon.quoted '"' s) := by
      rw [Lexicon.next, if_neg hspace', if_neg fun h => hslash h.1, if_neg fun h => hslash h.1,
        if_pos hstring]
    exact ⟨_, _, pieces_of_next hnext (Or.inr rfl), Or.inr rfl⟩
  by_cases hquote : c = Lexicon.quote
  · have hnext : table.lexicon.next (c :: s) = some (table.lexicon.quoteToken s) := by
      rw [Lexicon.next, if_neg hspace', if_neg fun h => hslash h.1, if_neg fun h => hslash h.1,
        if_neg hstring, if_pos hquote]
    have ht := quoteToken_opaque table.lexicon s
    exact ⟨_, _, pieces_of_next hnext ht, ht⟩
  · have hword : table.lexicon.word c = true := (hop.resolve_left hstring).resolve_left hquote
    have hnext : table.lexicon.next (c :: s) = some (table.lexicon.wordToken (c :: s)) := by
      rw [Lexicon.next, if_neg hspace', if_neg fun h => hslash h.1, if_neg fun h => hslash h.1,
        if_neg hstring, if_neg hquote, if_pos hword]
    have ht := wordToken_opaque table.lexicon (c :: s)
    exact ⟨_, _, pieces_of_next hnext ht, ht⟩

theorem pieces_punct (hspace : isWhitespace c = false) (hcomment : startsComment (c :: s) = false)
    (hop : ¬Opaque table c) :
    ∃ p ts, table.lexicon.pieces (c :: s) = .punct p :: ts ∧ p <+: c :: s ∧
      (p = [c] ∨ p = punctuation (c :: s)) := by
  have hspace' : ¬table.lexicon.space c = true := Bool.eq_false_iff.mp hspace
  obtain ⟨hstring, hrest⟩ := not_or.mp hop
  obtain ⟨hquote, hword⟩ := not_or.mp hrest
  have hline : ¬(c = '/' ∧ s.head? = some '/') := by
    rintro ⟨rfl, hs⟩
    obtain ⟨more, rfl⟩ := List.head?_eq_some_iff.mp hs
    exact absurd hcomment (by simp [startsComment])
  have hblock : ¬(c = '/' ∧ s.head? = some '*') := by
    rintro ⟨rfl, hs⟩
    obtain ⟨more, rfl⟩ := List.head?_eq_some_iff.mp hs
    exact absurd hcomment (by simp [startsComment])
  have hword' : ¬table.lexicon.word c = true := hword
  have hnext : table.lexicon.next (c :: s) =
      some (.punct (punctuation (c :: s)), (c :: s).drop (punctuation (c :: s)).length) := by
    rw [Lexicon.next, if_neg hspace', if_neg hline, if_neg hblock, if_neg hstring, if_neg hquote,
      if_neg hword']
  have htokens := Lexicon.tokens_of_next hnext
  rw [if_neg (by simp)] at htokens
  obtain ⟨more, hmore⟩ := Lexicon.punctuation_cons c s
  rw [Lexicon.pieces, htokens, List.flatMap_cons, Token.pieces]
  split_ifs with hangle
  · rw [hmore]
    exact ⟨[c], _, rfl, ⟨s, rfl⟩, Or.inl rfl⟩
  · refine ⟨_, _, rfl, ?_, Or.inr rfl⟩
    rcases Lexicon.punctuation_cases c s with ⟨-, hpre⟩ | hone
    · exact hpre
    · rw [hone]
      exact ⟨s, rfl⟩

/-! ### Heads -/

theorem trimStart_head (s : List Char) (h : (trimStart s).head? = some c) : isWhitespace c = false := by
  have hnot := List.head?_dropWhile_not isWhitespace s
  unfold trimStart at h
  rw [h] at hnot
  exact hnot

theorem punct_eq_iff {p : List Char} {x : Char} (hx : x = '(' ∨ x = '[' ∨ x = '{') (hpre : p <+: c :: s)
    (hp : p = [c] ∨ p = punctuation (c :: s)) : p = [x] ↔ c = x := by
  constructor
  · intro h
    rw [h] at hpre
    exact (List.cons_prefix_cons.mp hpre).1.symm
  · rintro rfl
    have hone : punctuation (c :: s) = [c] := by
      rcases hx with rfl | rfl | rfl <;> rfl
    rcases hp with h | h
    · exact h
    · exact h.trans hone

theorem not_opaque_opener {x : Char} (hx : x = '(' ∨ x = '[' ∨ x = '{') : ¬Opaque table x := by
  have hword : table.xidContinue x = false := by
    rcases hx with rfl | rfl | rfl <;> exact xid_of_ascii table (by decide) (by decide)
  rintro (h | h | h)
  · rcases hx with rfl | rfl | rfl <;> exact absurd h (by decide)
  · rcases hx with rfl | rfl | rfl <;> exact absurd h (by decide)
  · exact absurd (hword.symm.trans h) (by decide)

theorem opens_pieces (hspace : ∀ c, s.head? = some c → isWhitespace c = false)
    (hcomment : startsComment s = false) : opens bang (table.lexicon.pieces s) = opener bang s := by
  cases s with
  | nil => rfl
  | cons c s =>
    have hc := hspace c rfl
    unfold opens opener
    by_cases hop : Opaque table c
    · obtain ⟨t, ts, hpieces, ht⟩ := pieces_opaque hc hop s
      have hno (x : Char) (hx : x = '(' ∨ x = '[' ∨ x = '{') : c ≠ x := by
        rintro rfl
        exact not_opaque_opener hx hop
      rw [hpieces]
      rcases ht with rfl | rfl <;> simp [hno]
    · obtain ⟨p, ts, hpieces, hpre, hp⟩ := pieces_punct hc hcomment hop
      have heq {x : Char} (hx : x = '(' ∨ x = '[' ∨ x = '{') : p = [x] ↔ c = x :=
        punct_eq_iff hx hpre hp
      rw [hpieces]
      simp [heq]

theorem opensAfterBang_comment (h : startsComment s = true) : opensAfterBang bang s = false := by
  have hslash : ∃ rest, s = '/' :: rest := by
    rw [startsComment, Bool.or_eq_true] at h
    rcases h with h | h
    · obtain ⟨rest, rfl⟩ := List.isPrefixOf_iff_prefix.mp h
      exact ⟨_, rfl⟩
    · obtain ⟨rest, rfl⟩ := List.isPrefixOf_iff_prefix.mp h
      exact ⟨_, rfl⟩
  obtain ⟨rest, rfl⟩ := hslash
  cases bang <;> rfl

theorem opensAfterBang_apart (h : rest.head? ≠ some '<') : opensAfterBang bang (':' :: ':' :: rest) = false := by
  have hnone : stripPrefix "::<" (':' :: ':' :: rest) = none := by
    rw [stripPrefix_eq_none]
    intro hpre
    obtain ⟨more, hmore⟩ := hpre
    injection hmore with _ hmore
    injection hmore with _ hmore
    exact h (congrArg List.head? hmore.symm)
  rw [opensAfterBang, hnone]
  cases bang <;> rfl

theorem opensAfterBang_list (args : List Char) :
    opensAfterBang bang (':' :: ':' :: '<' :: args) =
      (closeAngle 1 args).any fun rest => opener bang (trimStart rest) := by
  have hsome : stripPrefix "::<" (':' :: ':' :: '<' :: args) = some args := stripPrefix_eq_some.mpr rfl
  rw [opensAfterBang, hsome]
  dsimp only
  cases closeAngle 1 args <;> rfl

theorem calledAfterBang_list (args : List Char) :
    calledAfterBang bang (table.lexicon.pieces (':' :: ':' :: '<' :: args)) =
      (Lexicon.closeAngles 0 (table.lexicon.pieces ('<' :: args))).any (opens bang) := by
  rw [pieces_colons, calledAfterBang, if_pos ⟨rfl, pieces_angle args⟩]
  rfl

theorem opensAfterBang_direct (h : stripPrefix "::" s = none) : opensAfterBang bang s = opener bang s := by
  have hnone : stripPrefix "::<" s = none := by
    rw [stripPrefix_eq_none] at h ⊢
    intro hpre
    have hshort : "::".toList <+: "::<".toList := ⟨['<'], rfl⟩
    exact h (hshort.trans hpre)
  rw [opensAfterBang, hnone]

theorem prefix_of_pieces {p : List Char} (hspace : ∀ c, s.head? = some c → isWhitespace c = false)
    (hcomment : startsComment s = false) (h : (table.lexicon.pieces s).head? = some (.punct p)) :
    p <+: s := by
  cases s with
  | nil => exact nomatch h
  | cons c s =>
    have hc := hspace c rfl
    by_cases hop : Opaque table c
    · obtain ⟨t, ts, hpieces, ht⟩ := pieces_opaque hc hop s
      rw [hpieces] at h
      rcases ht with rfl | rfl <;> exact nomatch h
    · obtain ⟨q, ts, hpieces, hpre, -⟩ := pieces_punct hc hcomment hop
      rw [hpieces] at h
      injection h with h
      injection h with h
      exact h ▸ hpre

theorem calledAfterBang_direct (hspace : ∀ c, s.head? = some c → isWhitespace c = false)
    (hcomment : startsComment s = false) (h : stripPrefix "::" s = none) :
    calledAfterBang bang (table.lexicon.pieces s) = opener bang s := by
  have hno : ¬((table.lexicon.pieces s).head? = some (.punct [':', ':']) ∧
      (table.lexicon.pieces s).tail.head? = some (.punct ['<'])) := by
    rintro ⟨hcolons, -⟩
    exact stripPrefix_eq_none.mp h (prefix_of_pieces hspace hcomment hcolons)
  rw [calledAfterBang, if_neg hno, opens_pieces hspace hcomment]

/-! ### Characters and tokens -/

/-- `ReadsAlike`, from the place behind the `!`. -/
def AlikeFrom (table : CharTable) (bang : Bool) (s : List Char) : Head → Prop
  | .apart => calledAfterBang bang (table.lexicon.pieces s) = false
  | .list bang args =>
    (closeAngle 1 args).any (fun rest => opener bang (trimStart rest)) =
      (Lexicon.closeAngles 0 (table.lexicon.pieces ('<' :: args))).any (opens bang)
  | .direct => True

theorem afterBang_iff (hspace : ∀ c, s.head? = some c → isWhitespace c = false) :
    opensAfterBang bang s = calledAfterBang bang (table.lexicon.pieces s) ↔
      AlikeFrom table bang s (headAfterBang bang s) := by
  unfold headAfterBang
  split_ifs with hcomment
  · rw [opensAfterBang_comment hcomment]
    exact eq_comm
  · have hcomment' := Bool.eq_false_iff.mpr hcomment
    cases hcolons : stripPrefix "::" s with
    | none =>
      rw [opensAfterBang_direct hcolons, calledAfterBang_direct hspace hcomment' hcolons]
      exact iff_of_true rfl trivial
    | some rest =>
      have hs : s = ':' :: ':' :: rest := stripPrefix_eq_some.mp hcolons
      dsimp only
      split_ifs with hangle
      · obtain ⟨args, rfl⟩ := List.head?_eq_some_iff.mp hangle
        rw [hs, opensAfterBang_list, calledAfterBang_list]
        exact Iff.rfl
      · rw [hs, opensAfterBang_apart hangle]
        exact eq_comm

theorem readsAlike_of_bang (hnot : rest.head? ≠ some '=') (h : trimStart after = '!' :: rest) :
    opensCall after = called table after ↔ ReadsAlike table after := by
  have hstrip : stripPrefix "!" (trimStart after) = some rest := stripPrefix_eq_some.mpr h
  have hcalled : called table after = calledAfterBang true (table.lexicon.pieces (trimStart rest)) := by
    rw [called, ← pieces_trimStart after, h, pieces_bang hnot, pieces_trimStart]
    rfl
  have hopens : opensCall after = opensAfterBang true (trimStart rest) := by
    rw [opensCall, hstrip]
  have hhead : head after = headAfterBang true (trimStart rest) := by
    rw [head, hstrip]
    exact if_neg hnot
  rw [hopens, hcalled, afterBang_iff (fun c => trimStart_head rest), ReadsAlike, hhead, hcalled]
  cases headAfterBang true (trimStart rest) <;> exact Iff.rfl

/-- `!=` is one token: neither reading sees a call. -/
theorem not_called_ne (table : CharTable) (h : trimStart after = '!' :: '=' :: rest) :
    opensCall after = false ∧ called table after = false := by
  have hstrip : stripPrefix "!" (trimStart after) = some ('=' :: rest) := stripPrefix_eq_some.mpr h
  have hne : punctuation ('!' :: '=' :: rest) = ['!', '='] := rfl
  have hword := xid_of_ascii table (c := '!') (by decide) (by decide)
  have hpieces : table.lexicon.pieces ('!' :: '=' :: rest) =
      .punct ['!', '='] :: table.lexicon.pieces rest := by
    rw [Lexicon.pieces, tokens_punct (by decide) (by decide) (by decide) (by decide) hword, hne]
    rfl
  constructor
  · rw [opensCall, hstrip]
    rfl
  · rw [called, ← pieces_trimStart after, h, hpieces]
    rfl

theorem readsAlike_of_no_bang (h : stripPrefix "!" (trimStart after) = none) :
    opensCall after = called table after ↔ ReadsAlike table after := by
  have hspace (c : Char) : (trimStart after).head? = some c → isWhitespace c = false := trimStart_head after
  have hopens : opensCall after = opensAfterBang false (trimStart after) := by
    rw [opensCall, h]
  have hhead : head after = headAfterBang false (trimStart after) := by
    rw [head, h]
  by_cases hcomment : startsComment (trimStart after) = true
  · have hapart : headAfterBang false (trimStart after) = .apart := if_pos hcomment
    rw [hopens, opensAfterBang_comment hcomment, ReadsAlike, hhead, hapart]
    exact eq_comm
  · have hno : ¬(table.lexicon.pieces (trimStart after)).head? = some (.punct ['!']) := fun hbang =>
      stripPrefix_eq_none.mp h (prefix_of_pieces hspace (Bool.eq_false_iff.mpr hcomment) hbang)
    have hcalled : called table after = calledAfterBang false (table.lexicon.pieces (trimStart after)) := by
      rw [called, ← pieces_trimStart after, if_neg hno]
    rw [hopens, hcalled, afterBang_iff hspace, ReadsAlike, hhead, hcalled]
    cases headAfterBang false (trimStart after) <;> exact Iff.rfl

theorem opensCall_eq_called_iff (table : CharTable) (after : List Char) :
    opensCall after = called table after ↔ ReadsAlike table after := by
  cases hbang : stripPrefix "!" (trimStart after) with
  | none => exact readsAlike_of_no_bang hbang
  | some rest =>
    have hrest : trimStart after = '!' :: rest := stripPrefix_eq_some.mp hbang
    by_cases hne : rest.head? = some '='
    · obtain ⟨more, rfl⟩ := List.head?_eq_some_iff.mp hne
      obtain ⟨hopens, hcalled⟩ := not_called_ne table hrest
      have hhead : head after = .direct := by
        rw [head, hbang]
        exact if_pos rfl
      rw [hopens, hcalled, ReadsAlike, hhead]
      exact iff_of_true rfl trivial
    · exact readsAlike_of_bang hne hrest

/-! ### Columns -/

theorem lenUtf16_pos (c : Char) : 0 < lenUtf16 c := by
  unfold lenUtf16
  split_ifs <;> decide

theorem sliceFrom_bytes (pre rest : List Char) : sliceFrom (pre ++ rest) (bytes pre) = some rest := by
  induction pre with
  | nil => cases rest <;> rfl
  | cons c pre ih =>
    have hpos := c.utf8Size_pos
    have hlen : bytes (c :: pre) = c.utf8Size + bytes pre := rfl
    obtain ⟨n, hn⟩ : ∃ n, bytes (c :: pre) = n + 1 := ⟨bytes (c :: pre) - 1, by omega⟩
    have hle : c.utf8Size ≤ n + 1 := by omega
    have hsub : n + 1 - c.utf8Size = bytes pre := by omega
    rw [List.cons_append, hn, sliceFrom, if_pos hle, hsub, ih]

theorem byteOfColumn_boundary (column units byte : Nat) (s : List Char) :
    ∃ pre rest, s = pre ++ rest ∧ byteOfColumn column units byte s = byte + bytes pre := by
  induction s generalizing units byte with
  | nil => exact ⟨[], [], rfl, rfl⟩
  | cons c s ih =>
    rw [byteOfColumn]
    split_ifs
    · exact ⟨[], c :: s, rfl, rfl⟩
    · obtain ⟨pre, rest, rfl, hbyte⟩ := ih ((units + lenUtf16 c) % UInt32.size) (byte + c.utf8Size)
      refine ⟨c :: pre, rest, rfl, hbyte.trans ?_⟩
      have hlen : bytes (c :: pre) = c.utf8Size + bytes pre := rfl
      omega

theorem sliceFrom_utf16ColToByte (line : List Char) (column : Nat) :
    ∃ pre rest, line = pre ++ rest ∧ utf16ColToByte line column = bytes pre ∧
      sliceFrom line (utf16ColToByte line column) = some rest := by
  obtain ⟨pre, rest, hline, hbyte⟩ := byteOfColumn_boundary column 0 0 line
  have hbytes : utf16ColToByte line column = bytes pre := by
    rw [utf16ColToByte, hbyte, Nat.zero_add]
  refine ⟨pre, rest, hline, hbytes, ?_⟩
  rw [hbytes, hline, sliceFrom_bytes]

theorem byteOfColumn_units {pre rest : List Char} {column seen byte : Nat}
    (hcolumn : column = seen + units pre) (hfits : column < UInt32.size) :
    byteOfColumn column seen byte (pre ++ rest) = byte + bytes pre := by
  induction pre generalizing seen byte with
  | nil =>
    have hle : column ≤ seen := hcolumn.le
    cases rest with
    | nil => rfl
    | cons c rest => rw [List.nil_append, byteOfColumn, if_pos hle]; rfl
  | cons c pre ih =>
    have hunits : units (c :: pre) = lenUtf16 c + units pre := rfl
    have hlen : bytes (c :: pre) = c.utf8Size + bytes pre := rfl
    have hpos := lenUtf16_pos c
    have hnot : ¬column ≤ seen := by omega
    have hmod : (seen + lenUtf16 c) % UInt32.size = seen + lenUtf16 c := Nat.mod_eq_of_lt (by omega)
    rw [List.cons_append, byteOfColumn, if_neg hnot, hmod, ih (by omega)]
    omega

theorem sliceFrom_units {pre rest : List Char} (hfits : units pre < UInt32.size) :
    sliceFrom (pre ++ rest) (utf16ColToByte (pre ++ rest) (units pre)) = some rest := by
  rw [utf16ColToByte, byteOfColumn_units (Nat.zero_add _).symm hfits, Nat.zero_add, sliceFrom_bytes]

/-! ### Occurrences -/

theorem isWordChar_of_ascii (hc : c.toNat < 128) (hno : (c.isAlphanum || c == '_') = false) :
    isWordChar table c = false := by
  rw [isWordChar, table.alphanumeric_ascii c hc]
  exact hno

theorem opensCall_xid (hc : table.xidContinue c = true) : opensCall (c :: s) = false := by
  have hno {x : Char} (hx : x.toNat < 128) (hxno : (x.isAlphanum || x == '_') = false) : c ≠ x := by
    rintro rfl
    exact absurd ((xid_of_ascii table hx hxno).symm.trans hc) (by decide)
  have htrim : trimStart (c :: s) = c :: s :=
    List.dropWhile_cons_of_neg (Bool.eq_false_iff.mp (table.xid_not_space c hc))
  have hbang : stripPrefix "!" (c :: s) = none := by
    rw [stripPrefix_eq_none]
    exact fun h => hno (x := '!') (by decide) (by decide) (List.cons_prefix_cons.mp h).1.symm
  have hcolons : stripPrefix "::" (c :: s) = none := by
    rw [stripPrefix_eq_none]
    exact fun h => hno (x := ':') (by decide) (by decide) (List.cons_prefix_cons.mp h).1.symm
  have hopener : c ≠ '(' := hno (by decide) (by decide)
  rw [opensCall, htrim, hbang]
  dsimp only
  rw [opensAfterBang_direct hcolons, opener]
  simp [hopener]

theorem called_of_foreign (hword : isWordChar table c = true) (hxid : table.xidContinue c = false) :
    called table (c :: s) = false := by
  have hascii : ¬c.toNat < 128 := by
    intro hc
    rw [isWordChar, table.alphanumeric_ascii c hc, ← table.xid_ascii c hc, hxid] at hword
    exact nomatch hword
  have halpha : table.isAlphanumeric c = true := by
    rw [isWordChar, Bool.or_eq_true] at hword
    refine hword.resolve_right fun h => hascii ?_
    rw [beq_iff_eq.mp h]
    decide
  have hno {x : Char} (hx : x.toNat < 128) : c ≠ x := by
    rintro rfl
    exact hascii hx
  have hspace : ∀ d, (c :: s).head? = some d → isWhitespace d = false := by
    intro d hd
    injection hd with hd
    exact hd ▸ table.alphanumeric_not_space c halpha
  have hcomment : startsComment (c :: s) = false := by
    have hslash : ('/' == c) = false := beq_eq_false_iff_ne.mpr (hno (by decide)).symm
    simp [startsComment, List.isPrefixOf, hslash]
  have hbang : ¬(table.lexicon.pieces (c :: s)).head? = some (.punct ['!']) := fun h =>
    hno (x := '!') (by decide) (List.cons_prefix_cons.mp (prefix_of_pieces hspace hcomment h)).1.symm
  have hcolons : stripPrefix "::" (c :: s) = none := by
    rw [stripPrefix_eq_none]
    exact fun h => hno (x := ':') (by decide) (List.cons_prefix_cons.mp h).1.symm
  have hopener : c ≠ '(' := hno (by decide)
  rw [called, if_neg hbang, calledAfterBang_direct hspace hcomment hcolons, opener]
  simp [hopener]

namespace Occurrence

variable (o : Occurrence table)

theorem sliceFrom_line : sliceFrom o.line (utf16ColToByte o.line o.column) = some o.rest :=
  sliceFrom_units o.fits

theorem rest_of_raw (hraw : o.raw = true) : o.rest = 'r' :: '#' :: (o.name ++ o.after) := by
  rw [rest, if_pos hraw]
  rfl

theorem rest_of_plain (hraw : o.raw = false) : o.rest = o.name ++ o.after := by
  rw [rest, if_neg (Bool.eq_false_iff.mp hraw)]
  rfl

theorem identifierAt_eq :
    identifierAt table o.line o.column = some (if o.run = [] then none else some o.run) := by
  have hrest : (stripPrefix "r#" o.rest).getD o.rest = o.name ++ o.after := by
    cases hraw : o.raw with
    | true =>
      have hsome : stripPrefix "r#" o.rest = some (o.name ++ o.after) :=
        stripPrefix_eq_some.mpr (o.rest_of_raw hraw)
      rw [hsome, Option.getD_some]
    | false =>
      have hnone : stripPrefix "r#" o.rest = none := by
        rw [o.rest_of_plain hraw]
        exact stripPrefix_eq_none.mpr (o.plain hraw)
      rw [hnone, Option.getD_none, o.rest_of_plain hraw]
  rw [identifierAt, sliceFrom_line, Option.map_some]
  dsimp only
  rw [hrest]
  rfl

/-- Of a raw identifier the code tests the `r`. -/
theorem seen_raw (hraw : o.raw = true) : o.Seen ↔ o.run = ['r'] ∧ called table o.after = false := by
  have hr : isWordChar table 'r' = true := by
    rw [isWordChar, table.alphanumeric_ascii 'r' (by decide)]
    rfl
  have hhash : isWordChar table '#' = false := isWordChar_of_ascii (by decide) (by decide)
  have hconsumed : consumed table o.rest = (['r'], '#' :: (o.name ++ o.after)) := by
    rw [consumed, o.rest_of_raw hraw, List.takeWhile_cons_of_pos hr, List.dropWhile_cons_of_pos hr,
      List.takeWhile_cons_of_neg (Bool.eq_false_iff.mp hhash),
      List.dropWhile_cons_of_neg (Bool.eq_false_iff.mp hhash)]
  have hopens : opensCall ('#' :: (o.name ++ o.after)) = false := rfl
  rw [Seen, occurrenceIsCall, testedIdentifier, identifierAt_eq, sliceFrom_line, Option.map_some,
    Option.map_some, hconsumed]
  dsimp only
  rw [if_neg (List.cons_ne_nil _ _), if_neg (List.cons_ne_nil _ _), hopens, Option.some.injEq,
    Option.some.injEq, and_comm]
  refine and_congr ?_ eq_comm
  split_ifs with hnil
  · rw [hnil]
    exact iff_of_false (fun h => nomatch h) (fun h => nomatch h)
  · rw [Option.some.injEq]
    exact eq_comm

theorem consumed_plain (hraw : o.raw = false) : consumed table o.rest = (o.run, o.tail) := by
  rw [o.rest_of_plain hraw]
  rfl

theorem seen_plain (hraw : o.raw = false) :
    o.Seen ↔ (if o.run = [] then false else opensCall o.tail) = called table o.after := by
  rw [Seen, occurrenceIsCall, testedIdentifier, identifierAt_eq, sliceFrom_line, Option.map_some,
    Option.map_some, o.consumed_plain hraw, Option.some.injEq]
  exact and_iff_left rfl

theorem run_tail : o.run ++ o.tail = o.name ++ o.after := List.takeWhile_append_dropWhile

theorem name_xid (hc : c ∈ o.name) : table.xidContinue c = true := by
  rcases List.mem_cons.mp hc with rfl | hmore
  · rcases o.starts with hstart | ⟨hunder, -⟩
    · exact table.start_continue _ hstart
    · rw [hunder, table.xid_ascii '_' (by decide)]
      rfl
  · exact o.continues c hmore

theorem opensCall_tail_short (h : o.run.length < o.name.length) : opensCall o.tail = false := by
  have hlen := congrArg List.length o.run_tail
  have hdrop := congrArg (List.drop o.run.length) o.run_tail
  rw [List.drop_left, List.drop_append_of_le_length h.le] at hdrop
  obtain ⟨c, rest, hrest⟩ := List.exists_cons_of_ne_nil (List.drop_eq_nil_iff.not.mpr (not_le.mpr h))
  have hc : c ∈ o.name := List.mem_of_mem_drop (hrest ▸ List.mem_cons_self)
  rw [hdrop, hrest, List.cons_append]
  exact opensCall_xid (o.name_xid hc)

theorem tail_exact (h : o.run.length = o.name.length) : o.run = o.name ∧ o.tail = o.after :=
  List.append_inj o.run_tail h

theorem called_after_long (h : o.name.length < o.run.length) : called table o.after = false := by
  have hpre : o.name <+: o.run := by
    refine List.prefix_of_prefix_length_le ⟨o.after, rfl⟩ ⟨o.tail, o.run_tail⟩ h.le
  obtain ⟨extra, hextra⟩ := hpre
  have hne : extra ≠ [] := by
    rintro rfl
    rw [List.append_nil] at hextra
    exact absurd h (by rw [hextra]; exact lt_irrefl _)
  obtain ⟨c, more, rfl⟩ := List.exists_cons_of_ne_nil hne
  have hafter : o.after = c :: (more ++ o.tail) := by
    have hrun := o.run_tail
    rw [← hextra, List.append_assoc] at hrun
    exact (List.append_cancel_left hrun).symm
  have hword : isWordChar table c = true := by
    have hmem : c ∈ o.run := hextra ▸ List.mem_append_right _ List.mem_cons_self
    exact List.mem_takeWhile_imp hmem
  rw [hafter]
  exact called_of_foreign hword (o.ends c (congrArg List.head? hafter))

theorem seen_iff : o.Seen ↔ o.Readable := by
  rw [Readable]
  cases hraw : o.raw with
  | true =>
    rw [if_pos rfl]
    exact o.seen_raw hraw
  | false =>
    rw [if_neg (by decide), o.seen_plain hraw]
    have hname : 0 < o.name.length := Nat.succ_pos _
    split_ifs with hnil hshort hexact hshort hexact
    · exact eq_comm
    · rw [hnil, List.length_nil] at hexact
      omega
    · rw [hnil, List.length_nil] at hshort
      omega
    · rw [o.opensCall_tail_short hshort]
      exact eq_comm
    · rw [(o.tail_exact hexact).2]
      exact opensCall_eq_called_iff table o.after
    · have halike := opensCall_eq_called_iff table o.tail
      rw [o.called_after_long (by omega), ← halike]
      cases opensCall o.tail <;> cases called table o.tail <;> simp

end Occurrence

theorem isWhitespace_of_isAlphanum (h : (c.isAlphanum || c == '_') = true) : isWhitespace c = false := by
  have hrange : 48 ≤ c.toNat ∧ c.toNat ≤ 122 := by
    rw [Bool.or_eq_true, isAlphanum_iff, beq_iff_eq] at h
    rcases h with h | rfl
    · omega
    · decide
  simp only [isWhitespace, Bool.or_eq_false_iff, Bool.and_eq_false_iff, decide_eq_false_iff_not]
  omega

def asciiTable : CharTable where
  isAlphanumeric := Char.isAlphanum
  xidStart := Char.isAlpha
  xidContinue c := c.isAlphanum || c == '_'
  alphanumeric_ascii _ _ := rfl
  xid_ascii _ _ := rfl
  alphanumeric_not_space c h := isWhitespace_of_isAlphanum (Bool.or_eq_true _ _ ▸ Or.inl h)
  xid_not_space _ h := isWhitespace_of_isAlphanum h
  start_continue c h := by
    rw [Char.isAlphanum, h]
    rfl

instance (table : CharTable) (after : List Char) : Decidable (ReadsAlike table after) :=
  decidable_of_iff (opensCall after = called table after) (opensCall_eq_called_iff table after)

example : ReadsAlike asciiTable "::<Vec<Vec<u8>>> (x)".toList := by decide +kernel
example : ¬ReadsAlike asciiTable "::<fn(u8) -> u8>(x)".toList := by decide +kernel
example : ¬ReadsAlike asciiTable ":: <u8>(x)".toList := by decide +kernel

theorem units_nil_lt : units [] < UInt32.size := Nat.zero_lt_succ 4294967295

/-- `r#try()`. -/
def rawTry : Occurrence asciiTable where
  before := []
  raw := true
  first := 't'
  more := ['r', 'y']
  after := ['(', ')']
  starts := Or.inl (by decide)
  continues := by simp [asciiTable]
  ends := by simp [asciiTable]
  plain hraw := absurd hraw (by decide)
  fits := units_nil_lt

end Travsr.Indexer.Callsite
