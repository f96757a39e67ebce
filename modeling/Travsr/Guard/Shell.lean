import Mathlib.Data.List.Infix
import Travsr.Core.Ascii

namespace Travsr.Guard

open Travsr.Core Core.Text

/-! ### Recognising a search in a command line -/

inductive SearchTool where
  | content
  | files
deriving DecidableEq, Repr

/-- A command line the guard recognised. -/
structure SearchCommand where
  program : List Char
  kind : SearchTool
  term : Option (List Char)
deriving DecidableEq

def CONTENT_TOOLS : List String := ["grep", "rg", "ag", "ack"]

def FORBIDDEN : List Char := ['|', '&', ';', '(', ')', '<', '>', '`', '$', '\n', '\r', '!']

/-- The words so far, the one being read, and the open quote. -/
structure WordState where
  words : List (List Char)
  current : List Char
  hasWord : Bool
  quote : Option Char

def WordState.init : WordState := ⟨[], [], false, none⟩

/-- One character of `simple_words`; a backslash outside quotes is refused. -/
def wordStep (s : WordState) (c : Char) : Option WordState :=
  match s.quote with
  | some q =>
    if c = q then some { s with quote := none } else some { s with current := s.current ++ [c] }
  | none =>
    if c = '\\' then none
    else if c = '\'' ∨ c = '"' then some { s with quote := some c, hasWord := true }
    else if isWhitespace c then
      if s.hasWord then some { s with words := s.words ++ [s.current], current := [], hasWord := false }
      else some s
    else some { s with current := s.current ++ [c], hasWord := true }

def WordState.all (s : WordState) : List (List Char) :=
  if s.hasWord then s.words ++ [s.current] else s.words

/-- `simple_words`. -/
def simpleWords (command : List Char) : Option (List (List Char)) :=
  if command.any fun c => c ∈ FORBIDDEN then none
  else
    (command.foldlM wordStep WordState.init).bind fun s =>
      if s.quote.isSome then none else if s.all = [] then none else some s.all

def stripExe (name : List Char) : List Char :=
  if ".exe".toList.isSuffixOf name then name.take (name.length - 4) else name

/-- `basename`. -/
def basename (arg0 : List Char) : List Char :=
  stripExe ((((splitOn (fun c => c = '/' || c = '\\') arg0).getLast?).getD arg0).map Char.toLower)

/-- `is_flag`. -/
def isFlag (word : List Char) : Bool := word.head? = some '-' && word ≠ ['-']

def TAKES_VALUE : List String :=
  ["-f", "-m", "-A", "-B", "-C", "-d", "-D", "--file", "--max-count", "--after-context",
    "--before-context", "--context", "--include", "--exclude", "--exclude-dir", "-g"]

def PATTERN_FLAGS : List String := ["-e", "--regexp", "--pattern", "-p"]

def nonEmpty (s : List Char) : Option (List Char) := if s.isEmpty then none else some s

/-- `str::split_once('=')`. -/
def splitEq (s : List Char) : Option (List Char × List Char) :=
  if '=' ∈ s then some (s.takeWhile (· ≠ '='), (s.dropWhile (· ≠ '=')).tail) else none

/-- `content_term`. -/
def contentTerm : List (List Char) → Option (List Char)
  | [] => none
  | a :: rest =>
    if a = ['-', '-'] then rest.head?.bind nonEmpty
    else
      match splitEq a with
      | some (flag, value) =>
        if String.ofList flag ∈ PATTERN_FLAGS then nonEmpty value
        else if isFlag a then contentTerm rest
        else nonEmpty a
      | none =>
        if String.ofList a ∈ PATTERN_FLAGS then rest.head?.bind nonEmpty
        else if String.ofList a ∈ TAKES_VALUE then
          match rest with
          | [] => none
          | _ :: rest => contentTerm rest
        else if isFlag a then contentTerm rest
        else nonEmpty a

def NAME_FLAGS : List String := ["-name", "-iname", "-path", "-ipath", "-wholename"]

def isGlob (c : Char) : Bool := c = '*' || c = '?'

/-- `find_name_term`. -/
def findNameTerm : List (List Char) → Option (List Char)
  | [] => none
  | a :: rest =>
    if String.ofList a ∈ NAME_FLAGS then
      rest.head?.bind fun raw => nonEmpty ((raw.dropWhile isGlob).reverse.dropWhile isGlob).reverse
    else findNameTerm rest

/-- `short_flag_has`. -/
def shortFlagHas (word : List Char) (want : Char) : Bool :=
  match word with
  | '-' :: rest => rest.head? ≠ some '-' && !rest.isEmpty && decide (want ∈ rest)
  | _ => false

def classifyWords : List (List Char) → Option SearchCommand
  | [] => none
  | arg0 :: args =>
    let program := basename arg0
    if String.ofList program ∈ CONTENT_TOOLS then some ⟨program, .content, contentTerm args⟩
    else if program = "find".toList then some ⟨program, .files, findNameTerm args⟩
    else if program = "ls".toList ∧ args.any (shortFlagHas · 'R') then some ⟨program, .files, none⟩
    else none

/-- `classify_simple`. -/
def classifySimple (command : List Char) : Option SearchCommand :=
  (simpleWords command).bind classifyWords

/-! ### Chains -/

def quoteNext : Option Char → Char → Option Char
  | some q, c => if c = q then none else some q
  | none, c => if c = '\'' ∨ c = '"' then some c else none

/-- `writes_a_file`: a `>` outside quotes. -/
def writesFrom (quote : Option Char) : List Char → Bool
  | [] => false
  | c :: cs => (quote.isNone && c = '>') || writesFrom (quoteNext quote c) cs

def writesAFile (part : List Char) : Bool := writesFrom none part

/-- A part of a chain and the place where it starts. -/
structure Part where
  start : Nat
  text : List Char
deriving DecidableEq

inductive ChainMode where
  | plain
  | quoted (q : Char)
  | comment
  | second

/-- `u8::is_ascii_whitespace`. -/
def isAsciiWhitespace (c : Char) : Bool :=
  c = ' ' || c = '\t' || c = '\n' || c = '\r' || c = Char.ofNat 12

/-- The loop of `chain_parts`, with the character before and the part that is being read. -/
def chainScan (mode : ChainMode) (prev : Option Char) (start : Nat) (text : List Char) :
    List Char → List Part
  | [] => [⟨start, text⟩]
  | c :: cs =>
    match mode with
    -- the second character of `&&` and `||`
    | .second => chainScan .plain (some c) start text cs
    | .comment =>
      if c = '\n' then chainScan .plain (some c) (start + 1) text cs
      else chainScan .comment (some c) (start + 1) text cs
    | .quoted q =>
      if c = q then chainScan .plain (some c) start (text ++ [c]) cs
      else chainScan (.quoted q) (some c) start (text ++ [c]) cs
    | .plain =>
      if c = '\'' ∨ c = '"' then chainScan (.quoted c) (some c) start (text ++ [c]) cs
      else if c = '#' ∧ prev.all isAsciiWhitespace then
        ⟨start, text⟩ :: chainScan .comment (some c) (start + text.length + 1) [] cs
      else if c = ';' ∨ c = '\n' then
        ⟨start, text⟩ :: chainScan .plain (some c) (start + text.length + 1) [] cs
      else if (c = '&' ∨ c = '|') ∧ cs.head? = some c then
        ⟨start, text⟩ :: chainScan .second (some c) (start + text.length + 2) [] cs
      else chainScan .plain (some c) start (text ++ [c]) cs

/-- `chain_parts`; a command with a heredoc is one part. -/
def chainParts (command : List Char) : List Part :=
  if ['<', '<'] <:+: command then [⟨0, command⟩] else chainScan .plain none 0 [] command

/-- The searches of a chain, in its order: the parts that are a search on their own, if no part
writes a file. -/
def searchParts (command : List Char) : List (Part × SearchCommand) :=
  if (chainParts command).any fun p => writesAFile p.text then []
  else (chainParts command).filterMap fun p => (classifySimple p.text).map fun s => (p, s)

/-- `classify_chain`: those with a term first. -/
def classifyChain (command : List Char) : List SearchCommand :=
  let found := (searchParts command).map Prod.snd
  found.filter (fun s => s.term.isSome) ++ found.filter fun s => s.term.isNone

end Travsr.Guard
