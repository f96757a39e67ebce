import Travsr.Core.Types
import Travsr.Lib.Scan

namespace Travsr.Indexer

open Travsr.Core.Text

/-- The kind class of a name. -/
inductive ScipKind where
  | function
  | cls
  | var
  deriving DecidableEq, Repr

def ScipKind.asStr : ScipKind → String
  | function => "function"
  | cls => "class"
  | var => "variable"

/-- Parsed identity of a SCIP symbol's leaf descriptor. -/
structure ScipName where
  container : Option String
  name : String
  kind : ScipKind
  deriving DecidableEq, Repr

/-- Unicode's tables of letters and of letters and numbers. -/
structure CharTables where
  isAlphabetic : Char → Bool
  isAlphanumeric : Char → Bool

def backtick : Char := Char.ofNat 96

def rfindFrom (ch : Char) : List Char → Nat → Bool → Option Nat → Option Nat
  | [], _, _, found => found
  | c :: cs, i, inTick, found =>
    if c = backtick then rfindFrom ch cs (i + 1) (!inTick) found
    else if c = ch && !inTick then rfindFrom ch cs (i + 1) inTick (some i)
    else rfindFrom ch cs (i + 1) inTick found

/-- The place of the last `ch` outside a backtick-escaped segment. -/
def rfindOutsideBackticks (s : List Char) (ch : Char) : Option Nat := rfindFrom ch s 0 false none

def stripBackticks (s : List Char) : List Char :=
  if 2 ≤ s.length ∧ s.head? = some backtick ∧ s.getLast? = some backtick then (s.drop 1).dropLast
  else s

/-- What stands between `<` and `>`. -/
def bracketed (s : List Char) : Option (List Char) := (stripPrefix "<" s).bind (stripSuffix '>')

def isMetaTag (tag : List Char) : Bool := tag = "Class".toList || tag = "Module".toList

variable (tables : CharTables)

/-- `<Class:Name>` and `<Module:Name>` are `Name`; anything else passes through. -/
def unwrapMetaContainer (s : List Char) : List Char :=
  match (bracketed s).bind (Scan.splitOnce [':']) with
  | some (tag, name) =>
    if isMetaTag tag && !name.isEmpty && name.all (fun c => tables.isAlphanumeric c || c = '_') then
      name
    else s
  | none => s

/-- A descriptor segment that stands for a block of a test, not for a definition. -/
def isDslMetaScope (name : String) : Bool :=
  let s := name.toList
  match bracketed s with
  | none => false
  | some inner =>
    if (Scan.splitOnce [':'] inner).any fun p => isMetaTag p.1 then false
    else if inner = "init".toList then false
    else inner.head?.any tables.isAlphabetic && unwrapMetaContainer tables s = s

def isDslScopeLeaf (parsed : ScipName) : Bool := isDslMetaScope tables parsed.name

def isDslScopeContainer (parsed : ScipName) : Bool :=
  !isDslMetaScope tables parsed.name && parsed.container.any (isDslMetaScope tables)

/-- Split `Type#name`; nested types keep only the innermost container. -/
def splitContainer (s : List Char) : Option String × List Char :=
  match rfindOutsideBackticks s '#' with
  | some i =>
    let name := s.drop (i + 1)
    let pre := s.take i
    let containerRaw :=
      match rfindOutsideBackticks pre '#' with
      | some j => pre.drop (j + 1)
      | none => pre
    let container := unwrapMetaContainer tables (stripBackticks containerRaw)
    (if container.isEmpty then none else some (String.ofList container),
      unwrapMetaContainer tables (stripBackticks name))
  | none => (none, unwrapMetaContainer tables (stripBackticks s))

def named (split : Option String × List Char) (kind : ScipKind) : Option ScipName :=
  if split.2.isEmpty then none else some ⟨split.1, String.ofList split.2, kind⟩

def descriptorChainKind (descriptorChain : List Char) : Option ScipName :=
  match stripSuffix '/' descriptorChain with
  | some name =>
    if name.isEmpty || name.contains '/' then none
    else some ⟨none, String.ofList (stripBackticks name), .cls⟩
  | none =>
    let leaf :=
      match rfindOutsideBackticks descriptorChain '/' with
      | some i => descriptorChain.drop (i + 1)
      | none => descriptorChain
    if ").".toList.isSuffixOf leaf then
      (rfindOutsideBackticks leaf '(').bind fun open' =>
        named (splitContainer tables (leaf.take open')) .function
    else
      match stripSuffix '#' leaf, stripSuffix '.' leaf with
      | some stripped, _ => named (splitContainer tables stripped) .cls
      | none, some stripped =>
        let split := splitContainer tables stripped
        if split.2.contains '/' || split.2.contains ':' then none else named split .var
      | none, none => none

/-- What follows the `n`th space. -/
def afterSpaces : Nat → List Char → Option (List Char)
  | 0, s => some s
  | n + 1, s => (afterFirst [' '] s).bind (afterSpaces n)

/-- Container, name and kind of a SCIP symbol: its descriptors follow four fields. -/
def scipNameKind (symbol : String) : Option ScipName :=
  (afterSpaces 4 symbol.toList).bind (descriptorChainKind tables)

def innermost (owner : List Char) : List Char := ((rsplitOnce '.' owner).map Prod.snd).getD owner

/-- Container, name and kind of a SemanticDB symbol, a bare descriptor chain. -/
def semanticdbNameKind (symbol : String) : Option ScipName :=
  let s := symbol.toList
  (descriptorChainKind tables ((stripPrefix "sdb:" s).getD s)).map fun parsed =>
    match parsed.container, rsplitOnce '.' parsed.name.toList with
    | none, some (owner, name) =>
      let owner := innermost owner
      if owner.isEmpty || name.isEmpty then parsed
      else { parsed with container := some (String.ofList owner), name := String.ofList name }
    | _, _ => parsed

def dotted (c : String) : List String :=
  if c.toList.contains '.' then (splitOn (fun d => d == '.') c.toList).map String.ofList else []

def candidateSignatures (parsed : ScipName) : List String :=
  let name := parsed.name
  match parsed.kind with
  | .function =>
    (match parsed.container with
      | some c =>
        (if name = ".ctor" ∨ name = "<init>" then
          ["method:" ++ c ++ "." ++ c, "fn:" ++ c ++ "." ++ c] else []) ++
        ["method:" ++ c ++ "." ++ name, "fn:" ++ c ++ "." ++ name] ++
        (dotted c).flatMap fun seg => ["method:" ++ seg ++ "." ++ name, "fn:" ++ seg ++ "." ++ name]
      | none => []) ++
    ["fn:" ++ name]
  | .cls =>
    ["class", "struct", "interface", "trait", "enum", "type", "protocol", "namespace", "actor"].map
      fun p => p ++ ":" ++ name
  | .var =>
    (match parsed.container with
      | some c =>
        ["field:" ++ c ++ "." ++ name, "variant:" ++ c ++ "." ++ name] ++
        (dotted c).flatMap fun seg =>
          ["field:" ++ seg ++ "." ++ name, "variant:" ++ seg ++ "." ++ name]
      | none => []) ++
    ["var:" ++ name, "const:" ++ name, "static:" ++ name]

def overloadCollapseSignatures (parsed : ScipName) : List String :=
  if parsed.kind ≠ .function then []
  else
    match parsed.container with
    | none => []
    | some c =>
      if parsed.name = ".ctor" then ["method:" ++ c ++ "." ++ c, "fn:" ++ c ++ "." ++ c]
      else ["method:" ++ c ++ "." ++ parsed.name, "fn:" ++ c ++ "." ++ parsed.name]

def nativeKind (nodeKind : String) : Option ScipKind :=
  if nodeKind ∈ ["function", "method", "constructor"] then some .function
  else if nodeKind ∈ ["class", "struct", "interface", "trait", "enum", "type", "protocol", "object",
      "extension"] then some .cls
  else if nodeKind ∈ ["field", "variant", "variable", "const", "constant", "property", "var",
      "static"] then some .var
  else none

/-- The dotted name of a bespoke signature, without its scheme or its prefix. -/
def nativeBody (s : List Char) : List Char :=
  match afterLast "::".toList s with
  | some rest => rest
  | none =>
    match Scan.splitOnce [':'] s with
    | some (before, rest) => if !before.isEmpty && before.all Char.isAlpha then rest else s
    | none => s

def nativeNameKind (signature nodeKind : String) : Option ScipName :=
  (nativeKind nodeKind).bind fun kind =>
    let body := nativeBody signature.toList
    if body.contains '/' || body.contains '\\' then none
    else
      let whole := if body.isEmpty then none else some ⟨none, String.ofList body, kind⟩
      match rsplitOnce '.' body with
      | some (c, n) =>
        if c.isEmpty || n.isEmpty then whole
        else some ⟨some (String.ofList c), String.ofList n, kind⟩
      | none => whole

/-- The raw SCIP symbol of a signature, which may be packed as `scip:path:symbol`. -/
def scipSymbolFromSig (sig : String) : String :=
  match (stripPrefix "scip:" sig.toList).bind (afterFirst [':']) with
  | some rest => String.ofList rest
  | none => sig

end Travsr.Indexer
