import Travsr.Core.Text
import Travsr.Lib.RustTokens

open Travsr.Core.Text

namespace Travsr.Indexer.Callsite

/-! ### The code -/

/-- The Unicode tables that the code and Rust's lexer read. -/
structure CharTable where
  isAlphanumeric : Char → Bool
  xidStart : Char → Bool
  xidContinue : Char → Bool
  alphanumeric_ascii : ∀ c, c.toNat < 128 → isAlphanumeric c = c.isAlphanum
  xid_ascii : ∀ c, c.toNat < 128 → xidContinue c = (c.isAlphanum || c == '_')
  alphanumeric_not_space : ∀ c, isAlphanumeric c = true → isWhitespace c = false
  xid_not_space : ∀ c, xidContinue c = true → isWhitespace c = false
  start_continue : ∀ c, xidStart c = true → xidContinue c = true

def lenUtf16 (c : Char) : Nat := if c.toNat < 0x10000 then 1 else 2

def bytes (s : List Char) : Nat := (s.map Char.utf8Size).sum

def units (s : List Char) : Nat := (s.map lenUtf16).sum

/-- The loop of `utf16_col_to_byte`; the count of units is a `u32`. -/
def byteOfColumn (column : Nat) : Nat → Nat → List Char → Nat
  | _, byte, [] => byte
  | units, byte, c :: s =>
    if column ≤ units then byte
    else byteOfColumn column ((units + lenUtf16 c) % UInt32.size) (byte + c.utf8Size) s

def utf16ColToByte (line : List Char) (column : Nat) : Nat := byteOfColumn column 0 0 line

/-- `&line[start..]`, which panics off a character boundary. -/
def sliceFrom : List Char → Nat → Option (List Char)
  | s, 0 => some s
  | [], _ + 1 => none
  | c :: s, n + 1 => if c.utf8Size ≤ n + 1 then sliceFrom s (n + 1 - c.utf8Size) else none

def trimStart (s : List Char) : List Char := s.dropWhile isWhitespace

/-- What follows the angle bracket that closes so many open ones, character by character. -/
def closeAngle : Nat → List Char → Option (List Char)
  | _, [] => none
  | depth, c :: s =>
    if c = '<' then closeAngle (depth + 1) s
    else if c = '>' then if depth ≤ 1 then some s else closeAngle (depth - 1) s
    else closeAngle depth s

def opener (macroBang : Bool) (s : List Char) : Bool :=
  s.head? = some '(' || macroBang && (s.head? = some '[' || s.head? = some '{')

def opensAfterBang (macroBang : Bool) (s : List Char) : Bool :=
  match stripPrefix "::<" s with
  | some rest =>
    match closeAngle 1 rest with
    | some rest => opener macroBang (trimStart rest)
    | none => false
  | none => opener macroBang s

def opensCall (after : List Char) : Bool :=
  let s := trimStart after
  match stripPrefix "!" s with
  | some rest => opensAfterBang true (trimStart rest)
  | none => opensAfterBang false s

def isWordChar (table : CharTable) (c : Char) : Bool := table.isAlphanumeric c || c == '_'

/-- The identifier `occurrence_is_call` consumes, and what follows it. -/
def consumed (table : CharTable) (rest : List Char) : List Char × List Char :=
  (rest.takeWhile (isWordChar table), rest.dropWhile (isWordChar table))

def occurrenceIsCall (table : CharTable) (line : List Char) (column : Nat) : Option Bool :=
  (sliceFrom line (utf16ColToByte line column)).map fun rest =>
    if (consumed table rest).1 = [] then false else opensCall (consumed table rest).2

/-- The identifier that `occurrence_is_call` tests, when it tests one. -/
def testedIdentifier (table : CharTable) (line : List Char) (column : Nat) : Option (Option (List Char)) :=
  (sliceFrom line (utf16ColToByte line column)).map fun rest =>
    if (consumed table rest).1 = [] then none else some (consumed table rest).1

def identifierAt (table : CharTable) (line : List Char) (column : Nat) : Option (Option (List Char)) :=
  (sliceFrom line (utf16ColToByte line column)).map fun rest =>
    let rest := (stripPrefix "r#" rest).getD rest
    let ident := rest.takeWhile (isWordChar table)
    if ident = [] then none else some ident

/-! ### Calls by tokens -/

def CharTable.lexicon (table : CharTable) : Lexicon where
  space := isWhitespace
  start c := table.xidStart c || c == '_'
  word := table.xidContinue

/-- The next token opens the arguments of a call, or of a macro call after a `!`. -/
def opens (bang : Bool) (ts : List Lexicon.Token) : Bool :=
  ts.head? = some (.punct ['(']) ||
    bang && (ts.head? = some (.punct ['[']) || ts.head? = some (.punct ['{']))

/-- An optional `::` with a generic list whose brackets balance, then the opener. -/
def calledAfterBang (bang : Bool) (ts : List Lexicon.Token) : Bool :=
  if ts.head? = some (.punct [':', ':']) ∧ ts.tail.head? = some (.punct ['<']) then
    (Lexicon.closeAngles 0 ts.tail).any (opens bang)
  else opens bang ts

def called (table : CharTable) (after : List Char) : Bool :=
  let ts := table.lexicon.pieces after
  if ts.head? = some (.punct ['!']) then calledAfterBang true ts.tail else calledAfterBang false ts

/-! ### Where the two readings part -/

/-- What stands between an identifier and the place where a call opens: a comment or a gap that the
code does not skip, a generic list, or neither. -/
inductive Head where
  | apart
  | list (bang : Bool) (args : List Char)
  | direct
deriving DecidableEq

def startsComment (s : List Char) : Bool := ['/', '/'].isPrefixOf s || ['/', '*'].isPrefixOf s

def headAfterBang (bang : Bool) (s : List Char) : Head :=
  if startsComment s then .apart
  else
    match stripPrefix "::" s with
    | some rest => if rest.head? = some '<' then .list bang rest.tail else .apart
    | none => .direct

def head (after : List Char) : Head :=
  let s := trimStart after
  match stripPrefix "!" s with
  | some rest => if rest.head? = some '=' then .direct else headAfterBang true (trimStart rest)
  | none => headAfterBang false s

/-- Characters and tokens tell the same about a call: no comment stands before its opener and no gap
within `::<`, or there is no call; and the place where the angle brackets balance by characters is
followed by an opener exactly if the place where they balance by tokens is. -/
def ReadsAlike (table : CharTable) (after : List Char) : Prop :=
  match head after with
  | .apart => called table after = false
  | .list bang args =>
    (closeAngle 1 args).any (fun rest => opener bang (trimStart rest)) =
      (Lexicon.closeAngles 0 (table.lexicon.pieces ('<' :: args))).any (opens bang)
  | .direct => True

/-! ### Occurrences -/

/-- An identifier, plain or raw, in a source line. A plain one is not followed by a `#` that would
make it a raw one. -/
structure Occurrence (table : CharTable) where
  before : List Char
  raw : Bool
  first : Char
  more : List Char
  after : List Char
  starts : table.xidStart first = true ∨ first = '_' ∧ more ≠ []
  continues : ∀ c ∈ more, table.xidContinue c = true
  ends : ∀ c, after.head? = some c → table.xidContinue c = false
  plain : raw = false → ¬['r', '#'] <+: first :: more ++ after
  fits : units before < UInt32.size

variable {table : CharTable}

def Occurrence.name (o : Occurrence table) : List Char := o.first :: o.more

def Occurrence.rest (o : Occurrence table) : List Char :=
  (if o.raw then ['r', '#'] else []) ++ (o.name ++ o.after)

def Occurrence.line (o : Occurrence table) : List Char := o.before ++ o.rest

def Occurrence.column (o : Occurrence table) : Nat := units o.before

/-- The code tells a call from its tokens, and both readers see one identifier. -/
def Occurrence.Seen (o : Occurrence table) : Prop :=
  occurrenceIsCall table o.line o.column = some (called table o.after) ∧
    testedIdentifier table o.line o.column = identifierAt table o.line o.column

/-- The alphanumeric characters from the identifier's first on, and what follows them. -/
def Occurrence.run (o : Occurrence table) : List Char := (consumed table (o.name ++ o.after)).1

def Occurrence.tail (o : Occurrence table) : List Char := (consumed table (o.name ++ o.after)).2

/-- A raw identifier is seen only when it is `r#r` and not called. A plain one is seen if its
characters are alphanumeric and what follows reads alike; one with a character that is not is seen
if it is not called, and one that runs on into characters that no identifier has if what follows
these is not taken for a call. -/
def Occurrence.Readable (o : Occurrence table) : Prop :=
  if o.raw then o.run = ['r'] ∧ called table o.after = false
  else if o.run.length < o.name.length then called table o.after = false
  else if o.run.length = o.name.length then ReadsAlike table o.after
  else ReadsAlike table o.tail ↔ called table o.tail = false

end Travsr.Indexer.Callsite
