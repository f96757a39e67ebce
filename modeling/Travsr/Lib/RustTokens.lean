import Mathlib.Data.List.TakeWhile

/-- The characters a lexer tells apart. -/
structure Lexicon where
  space : Char → Bool
  start : Char → Bool
  word : Char → Bool

namespace Lexicon

/-- What the lexer reads: of a word or a literal only that it is one. -/
inductive Token where
  | trivia
  | word
  | literal
  | punct (text : List Char)
deriving DecidableEq

def quote : Char := Char.ofNat 0x27

def quoted (q : Char) : List Char → List Char
  | [] => []
  | '\\' :: _ :: s => quoted q s
  | c :: s => if c = q then s else quoted q s

def blockComment : Nat → List Char → List Char
  | _, [] => []
  | n, '*' :: '/' :: s => if n ≤ 1 then s else blockComment (n - 1) s
  | n, '/' :: '*' :: s => blockComment (n + 1) s
  | n, _ :: s => blockComment n s

def rawString (hashes : Nat) : List Char → List Char
  | [] => []
  | c :: s =>
    if c = '"' ∧ (List.replicate hashes '#').isPrefixOf s then s.drop hashes
    else rawString hashes s

def quoteToken (lex : Lexicon) : List Char → Token × List Char
  | [] => (.word, [])
  | c :: s =>
    if c = '\\' then (.literal, quoted quote (c :: s))
    else if s.head? = some quote then (.literal, s.tail)
    else (.word, (c :: s).dropWhile lex.word)

def wordToken (lex : Lexicon) (s : List Char) : Token × List Char :=
  let w := s.takeWhile lex.word
  let rest := s.dropWhile lex.word
  let hashes := (rest.takeWhile (· = '#')).length
  if (w = ['r'] ∨ w = ['b', 'r'] ∨ w = ['c', 'r']) ∧ (rest.drop hashes).head? = some '"' then
    (.literal, rawString hashes (rest.drop (hashes + 1)))
  else if w = ['r'] ∧ rest.head? = some '#' ∧ rest.tail.head?.any lex.start then
    (.word, rest.tail.dropWhile lex.word)
  else (.word, rest)

/-- The tokens of more than one punctuation character, longer ones first. -/
def joined : List (List Char) :=
  [['<', '<', '='], ['>', '>', '='], ['.', '.', '.'], ['.', '.', '='], ['+', '='], ['-', '='],
    ['*', '='], ['/', '='], ['%', '='], ['^', '='], ['&', '='], ['|', '='], ['=', '='], ['!', '='],
    ['<', '='], ['>', '='], ['&', '&'], ['|', '|'], ['<', '<'], ['>', '>'], ['-', '>'], ['=', '>'],
    ['<', '-'], [':', ':'], ['.', '.']]

def punctuation (s : List Char) : List Char :=
  (joined.find? fun p => p.isPrefixOf s).getD (s.take 1)

def next (lex : Lexicon) : List Char → Option (Token × List Char)
  | [] => none
  | c :: s =>
    if lex.space c then some (.trivia, s)
    else if c = '/' ∧ s.head? = some '/' then some (.trivia, s.dropWhile (· ≠ '\n'))
    else if c = '/' ∧ s.head? = some '*' then some (.trivia, blockComment 1 s.tail)
    else if c = '"' then some (.literal, quoted '"' s)
    else if c = quote then some (lex.quoteToken s)
    else if lex.word c then some (lex.wordToken (c :: s))
    else some (.punct (punctuation (c :: s)), (c :: s).drop (punctuation (c :: s)).length)

def lexemes (lex : Lexicon) : Nat → List Char → List Token
  | 0, _ => []
  | n + 1, s =>
    match lex.next s with
    | none => []
    | some (t, rest) => t :: lexemes lex n rest

def tokens (lex : Lexicon) (s : List Char) : List Token :=
  (lex.lexemes s.length s).filter (· ≠ .trivia)

/-! ### Each token shortens the text -/

variable {lex : Lexicon} {s rest : List Char} {t : Token} {c : Char}

theorem length_quoted (q : Char) (s : List Char) : (quoted q s).length ≤ s.length := by
  induction s using quoted.induct q with
  | case1 => exact le_rfl
  | case2 c s ih =>
    rw [quoted]
    exact ih.trans (by simp only [List.length_cons]; omega)
  | case3 s h =>
    rw [quoted, if_pos rfl]
    · exact Nat.le_succ _
    · exact h
  | case4 c s h hne ih =>
    rw [quoted, if_neg hne]
    · exact ih.trans (Nat.le_succ _)
    · exact h

theorem length_blockComment (n : Nat) (s : List Char) : (blockComment n s).length ≤ s.length := by
  fun_induction blockComment n s <;> grind

theorem length_rawString (n : Nat) (s : List Char) : (rawString n s).length ≤ s.length := by
  induction s with
  | nil => exact le_rfl
  | cons c s ih =>
    rw [rawString]
    split_ifs
    · rw [List.length_drop, List.length_cons]
      omega
    · exact ih.trans (Nat.le_succ _)

theorem length_tail_le (s : List Char) : s.tail.length ≤ s.length := by
  rw [List.length_tail]
  exact Nat.sub_le _ _

theorem length_dropWhile_le (p : Char → Bool) (s : List Char) : (s.dropWhile p).length ≤ s.length :=
  (List.dropWhile_sublist p).length_le

theorem length_quoteToken : (lex.quoteToken s).2.length ≤ s.length := by
  cases s with
  | nil => exact le_rfl
  | cons c s =>
    unfold quoteToken
    dsimp only
    split_ifs
    · exact length_quoted quote (c :: s)
    · exact (length_tail_le s).trans (Nat.le_succ _)
    · exact length_dropWhile_le lex.word (c :: s)

theorem length_wordToken (hc : lex.word c = true) : (lex.wordToken (c :: s)).2.length ≤ s.length := by
  have hrest : ((c :: s).dropWhile lex.word).length ≤ s.length := by
    rw [List.dropWhile_cons_of_pos hc]
    exact length_dropWhile_le lex.word s
  unfold wordToken
  simp only
  split_ifs
  · refine (length_rawString _ _).trans ?_
    rw [List.length_drop]
    omega
  · exact ((length_dropWhile_le _ _).trans (length_tail_le _)).trans hrest
  · exact hrest

theorem punctuation_cases (c : Char) (s : List Char) :
    punctuation (c :: s) ∈ joined ∧ punctuation (c :: s) <+: c :: s ∨ punctuation (c :: s) = [c] := by
  unfold punctuation
  cases h : joined.find? fun p => p.isPrefixOf (c :: s) with
  | none => exact Or.inr rfl
  | some p =>
    have hfound := List.find?_some h
    exact Or.inl ⟨List.mem_of_find?_eq_some h, List.isPrefixOf_iff_prefix.mp hfound⟩

theorem punctuation_cons (c : Char) (s : List Char) : ∃ more, punctuation (c :: s) = c :: more := by
  rcases punctuation_cases c s with ⟨hmem, hpre⟩ | hone
  · have hne : punctuation (c :: s) ≠ [] := by
      have hall : ∀ q ∈ joined, q ≠ [] := by decide
      exact hall _ hmem
    obtain ⟨d, more, hp⟩ := List.exists_cons_of_ne_nil hne
    rw [hp] at hpre ⊢
    obtain ⟨rfl, -⟩ := List.cons_prefix_cons.mp hpre
    exact ⟨more, rfl⟩
  · exact ⟨[], hone⟩

theorem length_next (h : lex.next s = some (t, rest)) : rest.length < s.length := by
  cases s with
  | nil => exact nomatch h
  | cons c s =>
    rw [next] at h
    rw [List.length_cons, Nat.lt_succ_iff]
    split_ifs at h with hspace hline hblock hstring hquote hword
    · cases h
      exact le_rfl
    · cases h
      exact length_dropWhile_le _ s
    · cases h
      exact (length_blockComment 1 s.tail).trans (length_tail_le s)
    · cases h
      exact length_quoted '"' s
    · have hrest : (lex.quoteToken s).2 = rest := congrArg Prod.snd (Option.some.inj h)
      rw [← hrest]
      exact length_quoteToken
    · have hrest : (lex.wordToken (c :: s)).2 = rest := congrArg Prod.snd (Option.some.inj h)
      rw [← hrest]
      exact length_wordToken hword
    · obtain ⟨more, hmore⟩ := punctuation_cons c s
      cases h
      rw [hmore, List.length_drop, List.length_cons, List.length_cons]
      omega

theorem lexemes_fuel {n m : Nat} (hn : s.length ≤ n) (hm : s.length ≤ m) :
    lex.lexemes n s = lex.lexemes m s := by
  induction n generalizing m s with
  | zero =>
    have hnil : s = [] := List.eq_nil_of_length_eq_zero (Nat.le_zero.mp hn)
    rw [hnil]
    cases m <;> rfl
  | succ n ih =>
    cases hnext : lex.next s with
    | none =>
      cases m with
      | zero => rw [lexemes, lexemes, hnext]
      | succ m => rw [lexemes, lexemes, hnext]
    | some p =>
      have hlen := length_next hnext
      cases m with
      | zero => omega
      | succ m =>
        rw [lexemes, lexemes, hnext]
        exact congrArg (p.1 :: ·) (ih (by omega) (by omega))

theorem tokens_of_next (h : lex.next s = some (t, rest)) :
    lex.tokens s = if t = .trivia then lex.tokens rest else t :: lex.tokens rest := by
  have hlen := length_next h
  obtain ⟨n, hn⟩ := Nat.exists_eq_succ_of_ne_zero (Nat.ne_of_gt (Nat.zero_lt_of_lt hlen))
  have hfuel : lex.lexemes n rest = lex.lexemes rest.length rest :=
    lexemes_fuel (by omega) le_rfl
  rw [tokens, hn, lexemes, h]
  dsimp only
  rw [hfuel]
  split_ifs with htrivia
  · rw [htrivia, List.filter_cons_of_neg (by simp)]
    rfl
  · rw [List.filter_cons_of_pos (by simpa using htrivia)]
    rfl

theorem tokens_space (hc : lex.space c = true) : lex.tokens (c :: s) = lex.tokens s := by
  have hnext : lex.next (c :: s) = some (.trivia, s) := if_pos hc
  rw [tokens_of_next hnext, if_pos rfl]

theorem tokens_dropSpace (s : List Char) : lex.tokens (s.dropWhile lex.space) = lex.tokens s := by
  induction s with
  | nil => rfl
  | cons c s ih =>
    by_cases hc : lex.space c = true
    · rw [List.dropWhile_cons_of_pos hc, tokens_space hc, ih]
    · rw [List.dropWhile_cons_of_neg hc]

/-! ### Generic arguments -/

/-- The angle brackets within a token count one by one; the arrows hold none. -/
def Token.pieces : Token → List Token
  | .punct p => if p.head? = some '<' ∨ p.head? = some '>' then p.map fun c => .punct [c] else [.punct p]
  | t => [t]

def pieces (lex : Lexicon) (s : List Char) : List Token := (lex.tokens s).flatMap Token.pieces

def closeAngles : Nat → List Token → Option (List Token)
  | _, [] => none
  | depth, t :: ts =>
    if t = .punct ['<'] then closeAngles (depth + 1) ts
    else if t = .punct ['>'] then if depth ≤ 1 then some ts else closeAngles (depth - 1) ts
    else closeAngles depth ts

end Lexicon
