import Mathlib.Data.List.DropRight
import Travsr.Lib.Chunks
import Travsr.Lib.Jsonc.Value

open Jsonc

namespace Travsr.Cli

def SERVER : Key := [116, 114, 97, 118, 115, 114].map byte

/-- `"$schema"`. -/
def SCHEMA : Key := [36, 115, 99, 104, 101, 109, 97].map byte

inductive Upsert where
  | changed (text : List Byte)
  | unchanged
  | refused
  | skipped (why : String)
  deriving DecidableEq

inductive Removal where
  | changed (text : List Byte)
  | deleteFile
  | absent
  | skipped (why : String)
  deriving DecidableEq

def NOT_JSONC : String := "existing file is not valid JSON or JSONC (left untouched)"

def NOT_OBJECT : String := "top level is not a JSON object"

def MCP_NOT_OBJECT : String := "`mcp` is not a JSON object"

def UNSAFE_EDIT : String := "could not edit safely (left untouched)"

/-- What the editor takes from `serde_json`: `str` is `from_slice` at `String`, `fromStr` is
`from_str` at `Value`. -/
structure Serde (N : Type) extends Literals N where
  fromStr : List Byte → Option (Value N)
  toString : Value N → Option (List Byte)
  toStringPretty : Value N → Option (List Byte)

/-- `u8::is_ascii_whitespace`. -/
def isAsciiWhitespace (b : Byte) : Bool := b = space || b = tab || b = lf || b = byte 12 || b = cr

/-- The encodings of Unicode's `White_Space`. -/
def whiteSpaces : List (List Byte) :=
  List.map (List.map byte)
    [[9], [10], [11], [12], [13], [32], [0xC2, 0x85], [0xC2, 0xA0], [0xE1, 0x9A, 0x80],
      [0xE2, 0x80, 0x80], [0xE2, 0x80, 0x81], [0xE2, 0x80, 0x82], [0xE2, 0x80, 0x83],
      [0xE2, 0x80, 0x84], [0xE2, 0x80, 0x85], [0xE2, 0x80, 0x86], [0xE2, 0x80, 0x87],
      [0xE2, 0x80, 0x88], [0xE2, 0x80, 0x89], [0xE2, 0x80, 0x8A], [0xE2, 0x80, 0xA8],
      [0xE2, 0x80, 0xA9], [0xE2, 0x80, 0xAF], [0xE2, 0x81, 0x9F], [0xE3, 0x80, 0x80]]

def whiteSpaceStep (s : List Byte) : Option (List (List Byte) × List Byte) :=
  (whiteSpaces.find? fun w => w.isPrefixOf s).map fun w => ([w], s.drop w.length)

/-- `text.trim().is_empty()`. -/
def trimIsEmpty (text : List Byte) : Bool := (Chunks.run whiteSpaceStep text).isSome

/-- What `skip_string` walks over after the opening quote, and what is left. -/
def stringEnd : List Byte → Option (List Byte × List Byte)
  | [] => none
  | [b] => if b = backslash then none else if b = quote then some ([b], []) else none
  | b :: c :: r =>
    if b = backslash then (stringEnd r).map fun p => (b :: c :: p.1, p.2)
    else if b = quote then some ([b], c :: r)
    else (stringEnd (c :: r)).map fun p => (b :: p.1, p.2)

/-- The string that the text begins with, and what follows it. An index of the source is here the
text from there on. -/
def skipString : List Byte → Option (List Byte × List Byte)
  | [] => none
  | b :: r => (stringEnd r).map fun p => (b :: p.1, p.2)

def skipStringLenient (s : List Byte) : List Byte × List Byte := (skipString s).getD (s, [])

def blanks (s : List Byte) : List Byte := s.takeWhile isAsciiWhitespace

def skipWs (s : List Byte) : List Byte := s.dropWhile isAsciiWhitespace

/-- The rest of a block comment, its `*/` included, and what follows it. -/
def blockEnd : List Byte → Option (List Byte × List Byte)
  | [] => none
  | b :: r =>
    if b = asterisk && r.head? = some slash then some ([asterisk, slash], r.drop 1)
    else (blockEnd r).map fun p => (b :: p.1, p.2)

/-- One round of the loop of `strip_comments`. -/
def stripStep : List Byte → Option (List Byte × List Byte)
  | [] => none
  | b :: r =>
    if b = quote then some (skipStringLenient (b :: r))
    else if b = slash && r.head? = some slash then
      some (((b :: r).takeWhile (· ≠ lf)).map fun c => if c = cr then c else space,
        (b :: r).dropWhile (· ≠ lf))
    else if b = slash && r.head? = some asterisk then
      (blockEnd (r.drop 1)).map fun p =>
        ((b :: asterisk :: p.1).map fun c => if c = lf || c = cr then c else space, p.2)
    else some ([b], r)

/-- The blanked text is UTF-8 when the text is: whole comments give way to ASCII. -/
def stripComments (text : List Byte) : Option (List Byte) := Chunks.run stripStep text

/-- One round of the loop of `mask`. -/
def commaStep : List Byte → Option (List Byte × List Byte)
  | [] => none
  | b :: r =>
    if b = quote then some (skipStringLenient (b :: r))
    else if b = comma then
      let next := (skipWs r).head?
      some ([if next = some rbrace || next = some rbracket then space else b], r)
    else some ([b], r)

def mask (text : List Byte) : Option (List Byte) :=
  (stripComments text).bind (Chunks.run commaStep)

/-- The loop of `skip_value` over a container, at some depth of it. -/
def skipNest : Nat → Nat → List Byte → Option (List Byte × List Byte)
  | 0, _, _ => none
  | _ + 1, _, [] => none
  | fuel + 1, depth, b :: r =>
    if b = quote then
      (skipString (b :: r)).bind fun p =>
        (skipNest fuel depth p.2).map fun q => (p.1 ++ q.1, q.2)
    else if b = lbrace || b = lbracket then
      (skipNest fuel (depth + 1) r).map fun q => (b :: q.1, q.2)
    else if b = rbrace || b = rbracket then
      match depth with
      | 0 => none
      | 1 => some ([b], r)
      | depth + 2 => (skipNest fuel (depth + 1) r).map fun q => (b :: q.1, q.2)
    else (skipNest fuel depth r).map fun q => (b :: q.1, q.2)

def isBareByte (b : Byte) : Bool :=
  !(b = comma || b = rbrace || b = rbracket) && !isAsciiWhitespace b

def skipValue : List Byte → Option (List Byte × List Byte)
  | [] => none
  | b :: r =>
    if b = quote then skipString (b :: r)
    else if b = lbrace || b = lbracket then skipNest (b :: r).length 0 (b :: r)
    else
      let v := (b :: r).takeWhile isBareByte
      if v.isEmpty then none else some (v, (b :: r).dropWhile isBareByte)

/-- One `"key": value` member of an object, as byte offsets into the text. -/
structure Member where
  key : Key
  keyStart : Nat
  valueStart : Nat
  valueEnd : Nat
  deriving DecidableEq

variable {N : Type} (S : Serde N)

/-- The loop of `members` from the index `i` on, where the text goes on with `s`. -/
def membersFrom : Nat → Nat → List Byte → Option (List Member)
  | 0, _, _ => none
  | fuel + 1, i, s =>
    let i := i + (blanks s).length
    match skipWs s with
    | [] => none
    | b :: r =>
      if b = rbrace then some []
      else if b = comma then membersFrom fuel (i + 1) r
      else if b = quote then do
        let (name, r) ← skipString (b :: r)
        let key ← S.str name
        let keyEnd := i + name.length
        let colonAt := keyEnd + (blanks r).length
        let r := skipWs r
        if r.head? = some colon then
          let r := r.drop 1
          let valueStart := colonAt + 1 + (blanks r).length
          let (value, r) ← skipValue (skipWs r)
          let valueEnd := valueStart + value.length
          let ms ← membersFrom fuel valueEnd r
          some (⟨key, i, valueStart, valueEnd⟩ :: ms)
        else none
      else none

/-- The members of the object whose `{` is at `b[open]`. -/
def members (b : List Byte) (opening : Nat) : Option (List Member) :=
  match b.drop opening with
  | [] => none
  | c :: r => if c = lbrace then membersFrom S (r.length + 1) (opening + 1) r else none

def findUnique (ms : List Member) (key : Key) : Except Unit (Option Member) :=
  match ms.filter fun m => m.key = key with
  | [] => .ok none
  | [m] => .ok (some m)
  | _ => .error ()

def leadOf (gap : List Byte) : List Byte :=
  if lf ∈ gap then lf :: gap.rtakeWhile (· ≠ lf) else gap

def insertMember (text masked : List Byte) (opening : Nat) (ms : List Member)
    (memberSrc : List Byte) : List Byte :=
  let (lead, sep) :=
    match ms with
    | first :: _ => (leadOf ((masked.take first.keyStart).drop (opening + 1)), [comma])
    | [] => ([], [])
  text.take (opening + 1) ++ lead ++ memberSrc ++ sep ++ text.drop (opening + 1)

variable [DecidableEq N]

/-- Whether `text` (comments allowed) parses to exactly `expected`. -/
def parsesTo (text : List Byte) (expected : Value N) : Bool :=
  match (mask text).bind S.fromStr with
  | none => false
  | some v => v = expected

def asObject : Value N → Option (Members N)
  | .obj ms => some ms
  | _ => none

/-- `"name": value`, the name as it is. -/
def memberSrc (name value : List Byte) : List Byte :=
  quote :: (name ++ [quote, colon, space] ++ value)

/-- The new text of `upsert`, or what it returns without one. -/
def upsertText (text masked : List Byte) (rootObj : Members N) (rootOpen : Nat)
    (rootMembers : List Member) (topKey : Key) (entry : Value N) (entrySrc : List Byte)
    (refuseNew : Bool) : Except Upsert (List Byte) :=
  match findUnique rootMembers topKey with
  | .error _ => .error (.skipped UNSAFE_EDIT)
  | .ok (some mcp) =>
    if ((rootObj.get topKey).bind asObject).isNone then .error (.skipped MCP_NOT_OBJECT)
    else
      match members S masked mcp.valueStart with
      | none => .error (.skipped UNSAFE_EDIT)
      | some mcpMembers =>
        match findUnique mcpMembers SERVER with
        | .error _ => .error (.skipped UNSAFE_EDIT)
        | .ok (some existing) =>
          if S.fromStr ((masked.take existing.valueEnd).drop existing.valueStart) = some entry then
            .error .unchanged
          else if refuseNew then .error .refused
          else .ok (text.take existing.valueStart ++ entrySrc ++ text.drop existing.valueEnd)
        | .ok none =>
          if refuseNew then .error .refused
          else .ok (insertMember text masked mcp.valueStart mcpMembers (memberSrc SERVER entrySrc))
  | .ok none =>
    if refuseNew then .error .refused
    else
      .ok (insertMember text masked rootOpen rootMembers
        (memberSrc topKey (lbrace :: (memberSrc SERVER entrySrc ++ [rbrace]))))

/-- The document with the entry in it; `none` where the slot for it is no object. -/
def withEntry (root : Value N) (topKey : Key) (entry : Value N) : Option (Value N) :=
  match root with
  | .obj ms =>
    match (Members.get ms topKey).getD (Value.obj []) with
    | .obj slot => some (.obj (Members.insert ms topKey (.obj (Members.insert slot SERVER entry))))
    | _ => none
  | root => some root

def freshRoot (topKey : Key) (entry : Value N) (schema : Option Key) : Value N :=
  let root : Members N :=
    match schema with
    | some s => Members.insert [] SCHEMA (.scalar (.str s))
    | none => []
  .obj (root.insert topKey (.obj (Members.insert [] SERVER entry)))

/-- Upsert `root[top_key]["travsr"] = entry`, keeping every comment and every other byte of
`text`. -/
def upsert (text : List Byte) (topKey : Key) (entry : Value N) (schema : Option Key)
    (refuseNew : Bool) : Upsert :=
  if trimIsEmpty text then
    if refuseNew then .refused
    else
      match S.toStringPretty (freshRoot topKey entry schema) with
      | some s => .changed (s ++ [lf])
      | none => .skipped UNSAFE_EDIT
  else
    match mask text with
    | none => .skipped NOT_JSONC
    | some masked =>
      match S.fromStr masked with
      | none => .skipped NOT_JSONC
      | some root =>
        match asObject root with
        | none => .skipped NOT_OBJECT
        | some rootObj =>
          let rootOpen := (blanks masked).length
          match members S masked rootOpen with
          | none => .skipped UNSAFE_EDIT
          | some rootMembers =>
            match S.toString entry with
            | none => .skipped UNSAFE_EDIT
            | some entrySrc =>
              match upsertText S text masked rootObj rootOpen rootMembers topKey entry entrySrc
                refuseNew with
              | .error r => r
              | .ok newText =>
                match withEntry root topKey entry with
                | none => .skipped UNSAFE_EDIT
                | some expected =>
                  if parsesTo S newText expected then .changed newText else .skipped UNSAFE_EDIT

/-- The ranges that `remove` cuts out for the member at `target`. -/
def cutRanges (text masked : List Byte) (ms : List Member) (target : Member) :
    Option (List (Nat × Nat)) :=
  let after := target.valueEnd + (blanks (masked.drop target.valueEnd)).length
  if (masked.drop after).head? = some comma then
    some [(target.keyStart, after + 1 + (blanks (text.drop (after + 1))).length)]
  else
    let start := ((text.take target.keyStart).rdropWhile isAsciiWhitespace).length
    let idx := (ms.findIdx? fun m => m.keyStart = target.keyStart).getD 0
    if idx = 0 then some [(start, target.valueEnd)]
    else do
      let prev ← ms[idx - 1]?
      let commaAt := prev.valueEnd + (blanks (masked.drop prev.valueEnd)).length
      if (masked.drop commaAt).head? = some comma then
        some [(start, target.valueEnd), (commaAt, commaAt + 1)]
      else none

def applyCuts (text : List Byte) (cuts : List (Nat × Nat)) : List Byte :=
  (cuts.mergeSort fun c c' => c'.1 ≤ c.1).foldl (fun t c => t.take c.1 ++ t.drop c.2) text

/-- The new text of `remove`. -/
def removeText (text masked : List Byte) (topKey : Key) : Option (List Byte) := do
  let rootMembers ← members S masked (blanks masked).length
  match findUnique rootMembers topKey with
  | .ok (some mcp) =>
    let mcpMembers ← members S masked mcp.valueStart
    match findUnique mcpMembers SERVER with
    | .ok (some target) => (cutRanges text masked mcpMembers target).map (applyCuts text)
    | _ => none
  | _ => none

def hasEntry (root : Value N) (topKey : Key) : Bool :=
  (((asObject root).bind fun ms => Members.get ms topKey).bind asObject).any fun m =>
    (Members.get m SERVER).isSome

def withoutEntry (root : Value N) (topKey : Key) : Value N :=
  match root with
  | .obj ms =>
    match Members.get ms topKey with
    | some (.obj slot) => .obj (Members.insert ms topKey (.obj (Members.remove slot SERVER)))
    | _ => root
  | _ => root

def onlyOurs (topKey : Key) (schema : Option Key) : List (Value N) :=
  .obj (Members.insert [] topKey (.obj [])) ::
    match schema with
    | some s =>
      [.obj (Members.insert (Members.insert [] SCHEMA (.scalar (.str s))) topKey (.obj []))]
    | none => []

/-- Cut `root[top_key]["travsr"]` out of `text`, leaving comments and every other member alone. -/
def remove (text : List Byte) (topKey : Key) (schema : Option Key) : Removal :=
  match mask text with
  | none => .skipped NOT_JSONC
  | some masked =>
    match S.fromStr masked with
    | none => .skipped NOT_JSONC
    | some root =>
      if !hasEntry root topKey then .absent
      else
        match removeText S text masked topKey with
        | none => .skipped UNSAFE_EDIT
        | some newText =>
          let expected := withoutEntry root topKey
          if !parsesTo S newText expected then .skipped UNSAFE_EDIT
          else if stripComments text = some text && (onlyOurs topKey schema).contains expected then
            .deleteFile
          else .changed newText

end Travsr.Cli
