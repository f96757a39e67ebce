import Mathlib.Algebra.Group.Nat.Defs
import Mathlib.Algebra.GroupWithZero.Nat
import Mathlib.Data.List.Basic

namespace Travsr.Core.Text

/-- `str::len`: the number of UTF-8 bytes. -/
def byteLen (s : String) : Nat := s.utf8ByteSize

def startsWith (s pat : String) : Bool := pat.toList.isPrefixOf s.toList

def endsWith (s pat : String) : Bool := pat.toList.isSuffixOf s.toList

/-- The text after the first place where `pat` begins. -/
def afterFirst (pat : List Char) : List Char → Option (List Char)
  | [] => if pat.isEmpty then some [] else none
  | c :: cs =>
    if pat.isPrefixOf (c :: cs) then some ((c :: cs).drop pat.length) else afterFirst pat cs

def contains (s pat : String) : Bool := (afterFirst pat.toList s.toList).isSome

/-- The text after the last place where `pat` begins. -/
def afterLast (pat : List Char) : List Char → Option (List Char)
  | [] => if pat.isEmpty then some [] else none
  | c :: cs =>
    match afterLast pat cs with
    | some rest => some rest
    | none => if pat.isPrefixOf (c :: cs) then some ((c :: cs).drop pat.length) else none

/-- The pieces between the characters that satisfy `p`. -/
def splitOn (p : Char → Bool) : List Char → List (List Char)
  | [] => [[]]
  | c :: cs =>
    if p c then [] :: splitOn p cs
    else
      match splitOn p cs with
      | [] => [[c]]
      | w :: ws => (c :: w) :: ws

/-- `char::is_whitespace`: Unicode's `White_Space`. -/
def isWhitespace (c : Char) : Bool :=
  (9 ≤ c.toNat && c.toNat ≤ 13) || c.toNat = 32 || c.toNat = 0x85 || c.toNat = 0xA0 ||
    c.toNat = 0x1680 || (0x2000 ≤ c.toNat && c.toNat ≤ 0x200A) || c.toNat = 0x2028 ||
    c.toNat = 0x2029 || c.toNat = 0x202F || c.toNat = 0x205F || c.toNat = 0x3000

def trimChars (s : List Char) : List Char :=
  ((s.dropWhile isWhitespace).reverse.dropWhile isWhitespace).reverse

/-- `str::trim`. -/
def trim (s : String) : String := String.ofList (trimChars s.toList)

/-- `str::split_whitespace`. -/
def splitWhitespace (s : String) : List String :=
  ((splitOn isWhitespace s.toList).filter (fun w => !w.isEmpty)).map String.ofList

def stripCr (l : List Char) : List Char :=
  if l.getLast? = some '\r' then l.dropLast else l

/-- `str::lines`: the text after the last newline counts only when it is not empty. -/
def lines (s : String) : List (List Char) :=
  let pieces := splitOn (fun c => c == '\n') s.toList
  pieces.dropLast.map stripCr ++ (pieces.getLast?.toList.filter (fun l => !l.isEmpty))

def toAsciiLowercase (s : String) : String := String.ofList (s.toList.map Char.toLower)

/-- `str::rsplit_once`, at a character. -/
def rsplitOnce (c : Char) (s : List Char) : Option (List Char × List Char) :=
  (afterLast [c] s).map fun rest => (s.take (s.length - rest.length - 1), rest)

/-- `str::strip_prefix`. -/
def stripPrefix (pat : String) (s : List Char) : Option (List Char) :=
  if pat.toList.isPrefixOf s then some (s.drop pat.toList.length) else none

/-- `str::strip_suffix`, of a character. -/
def stripSuffix (c : Char) (s : List Char) : Option (List Char) :=
  if s.getLast? = some c then some s.dropLast else none

def joinWith (sep : String) (ws : List String) : String := sep.intercalate ws

end Travsr.Core.Text

namespace Travsr.Core.Text

/-- `str::parse` to an unsigned integer of so many bits. -/
def parseUnsigned (bits : Nat) (s : List Char) : Option Nat :=
  let digits := if s.head? = some '+' then s.tail else s
  if digits ≠ [] ∧ digits.all Char.isDigit ∧ Nat.ofDigitChars 10 digits 0 < 2 ^ bits then
    some (Nat.ofDigitChars 10 digits 0)
  else none

def leadingDigits (s : List Char) : List Char := s.takeWhile Char.isDigit

theorem leadingDigits_append {ds rest : List Char} (hd : ∀ c ∈ ds, c.isDigit = true)
    (hrest : ∀ c, rest.head? = some c → c.isDigit = false) : leadingDigits (ds ++ rest) = ds := by
  rw [leadingDigits, List.takeWhile_append_of_pos hd]
  cases rest with
  | nil => simp
  | cons c rest => simp [hrest c rfl]

end Travsr.Core.Text

namespace Travsr.Core.Ident

/-- The splitter's loop state: the character before, the open segment and the closed ones. -/
structure Splitter where
  prev : Option Char
  current : List Char
  tokens : List String

def Splitter.flush (st : Splitter) : Splitter :=
  if st.current.isEmpty then st
  else { st with current := [], tokens := st.tokens ++ [String.ofList st.current] }

def Splitter.push (st : Splitter) (c : Char) : Splitter :=
  { st with current := st.current ++ [c] }

/-- One character of `raw_segments`: a delimiter closes the segment, and so does a change
from lower case or digit to upper case, from letter to digit, or from digit to lower case. -/
def Splitter.step (st : Splitter) (c : Char) : Splitter :=
  let next :=
    if !c.isAlphanum then st.flush
    else if c.isUpper then
      (if st.prev.any (fun p => p.isLower || p.isDigit) then st.flush else st).push c.toLower
    else if c.isDigit then
      (if st.prev.any Char.isAlpha then st.flush else st).push c
    else
      (if st.prev.any Char.isDigit then st.flush else st).push c
  { next with prev := some c }

def rawSegments (s : String) : List String :=
  (s.toList.foldl Splitter.step ⟨none, [], []⟩).flush.tokens

/-- `segments`: only the first occurrence of each word. -/
def segments (s : String) : List String :=
  (rawSegments s).foldl (fun tokens tok => if tok ∈ tokens then tokens else tokens ++ [tok]) []

def joinsTo (token : String) : String → List String → Bool
  | _, [] => false
  | acc, seg :: segs =>
    if acc ++ seg = token then true
    else if Text.byteLen token < Text.byteLen (acc ++ seg) then false
    else joinsTo token (acc ++ seg) segs

/-- `contains_token`: a run of neighbouring segments of the text spells the token. -/
def containsToken (token text : String) : Bool :=
  let tokenNorm := String.ofList ((token.toList.filter Char.isAlphanum).map Char.toLower)
  if token.isEmpty || tokenNorm.isEmpty then false
  else (rawSegments text).tails.any (joinsTo tokenNorm "")

/-- `leaf_of`: the part after the last `.` of what follows the first `:`. -/
def leafOf (sig : String) : String :=
  let body := (Text.afterFirst [':'] sig.toList).getD sig.toList
  String.ofList ((Text.afterLast ['.'] body).getD body)

example : leafOf "method:HttpResponse.render" = "render" := by decide
example : containsToken "sqlitestore" "fn:SqliteStore.exec" = true := by decide
example : segments "getCallers_utf8" = ["get", "callers", "utf", "8"] := by decide

end Travsr.Core.Ident
