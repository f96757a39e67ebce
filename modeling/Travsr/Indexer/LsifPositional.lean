import Travsr.Core.RelativeImport
import Travsr.Indexer.Callsite
import Travsr.Lib.OrdMap

open Travsr.Core Travsr.Core.Text

namespace Travsr.Indexer.Lsif

open Callsite (CharTable)

/-! ### Paths -/

/-- The shape of a verbatim mark, in back or in forward slashes. -/
inductive Slashes where
  | back
  | forward
deriving DecidableEq

def Slashes.mark : Slashes → List Char
  | .back => ['\\', '\\', '?', '\\']
  | .forward => ['/', '/', '?', '/']

def Slashes.uncMark : Slashes → List Char
  | .back => ['\\', '\\', '?', '\\', 'U', 'N', 'C', '\\']
  | .forward => ['/', '/', '?', '/', 'U', 'N', 'C', '/']

/-- `str::strip_prefix`. -/
def strip (pat s : List Char) : Option (List Char) :=
  if pat.isPrefixOf s then some (s.drop pat.length) else none

def stripVerbatim (p : List Char) : List Char :=
  ((strip Slashes.back.uncMark p).or ((strip Slashes.back.mark p).or
    ((strip Slashes.forward.uncMark p).or (strip Slashes.forward.mark p)))).getD p

def startsDrive : List Char → Bool
  | c :: d :: _ => c.isAlpha && d == ':'
  | _ => false

def lowerFirst : List Char → List Char
  | [] => []
  | c :: s => c.toLower :: s

def lowerDrive (s : List Char) : List Char := if startsDrive s then lowerFirst s else s

def normalizePath (p : List Char) : List Char := lowerDrive (slashed (stripVerbatim p))

def normalizedBasePrefix (base : List Char) : List Char :=
  let n := normalizePath base
  if n.getLast? = some '/' then n else n ++ ['/']

def relativeToBase (baseWithSep absPath : List Char) : List Char :=
  let absN := normalizePath absPath
  (strip baseWithSep absN).getD absN

def fileUriToPath (uri : List Char) : List Char :=
  let s := (stripPrefix "file://" uri).getD uri
  if s.head? = some '/' ∧ startsDrive s.tail then s.tail else s

/-! ### The dump -/

/-- A JSON value, as far as the ingestion tells values apart. -/
inductive Value where
  | other
  | num (n : Nat)
  | str (s : List Char)
  | arr (elems : List Value)
  | obj (members : List (String × Value))

namespace Value

def get (v : Value) (key : String) : Option Value :=
  match v with
  | .obj members => (members.find? fun m => m.1 = key).map Prod.snd
  | _ => none

def asU64 : Value → Option Nat
  | .num n => if n < UInt64.size then some n else none
  | _ => none

def asStr : Value → Option (List Char)
  | .str s => some s
  | _ => none

def asArray : Value → Option (List Value)
  | .arr elems => some elems
  | _ => none

def number (v : Value) (key : String) : Option Nat := (v.get key).bind asU64

def text (v : Value) (key : String) : Option (List Char) := (v.get key).bind asStr

def numbers (v : Value) (key : String) : Option (List Nat) :=
  ((v.get key).bind asArray).map fun elems => elems.filterMap asU64

end Value

/-- What a line of the dump tells. -/
inductive Entry where
  | document (id : Nat) (uri : List Char)
  | range (id line : Nat) (character : Option Nat)
  | contains (doc : Nat) (ranges : List Nat)
  | next (outV inV : Nat)
  | definition (outV inV : Nat)
  | item (outV doc : Nat) (ranges : List Nat)
deriving DecidableEq

def readVertex (v : Value) : Option Entry :=
  if v.text "label" = some "document".toList then do
    some (.document (← v.number "id") (← v.text "uri"))
  else if v.text "label" = some "range".toList then do
    some (.range (← v.number "id") (← (v.get "start").bind (·.number "line"))
      ((v.get "start").bind (·.number "character")))
  else none

def readEdge (v : Value) : Option Entry :=
  if v.text "label" = some "contains".toList then do
    some (.contains (← v.number "outV") (← v.numbers "inVs"))
  else if v.text "label" = some "next".toList then do
    some (.next (← v.number "outV") (← v.number "inV"))
  else if v.text "label" = some "textDocument/definition".toList then do
    some (.definition (← v.number "outV") (← v.number "inV"))
  else if v.text "label" = some "item".toList then do
    some (.item (← v.number "outV") (← v.number "document") (← v.numbers "inVs"))
  else none

def readEntry (v : Value) : Option Entry :=
  if v.text "type" = some "vertex".toList then readVertex v
  else if v.text "type" = some "edge".toList then readEdge v
  else none

/-- The entries of a dump's lines; one that is blank or does not parse is passed over. -/
def entries (parse : List Char → Option Value) (lines : List (List Char)) : List Entry :=
  lines.filterMap fun line =>
    if trimChars line = [] then none else (parse (trimChars line)).bind readEntry

/-- The side tables. -/
structure Tables where
  docPaths : OrdMap Nat (List Char)
  rangeLines : OrdMap Nat Nat
  rangeCols : OrdMap Nat Nat
  nextEdge : OrdMap Nat Nat
  rangeDoc : OrdMap Nat Nat
  resultDef : OrdMap Nat Nat
  items : OrdMap Nat (List (Nat × Nat))

def Tables.empty : Tables :=
  ⟨OrdMap.empty, OrdMap.empty, OrdMap.empty, OrdMap.empty, OrdMap.empty, OrdMap.empty, OrdMap.empty⟩

/-- `as u32`. -/
def asU32 (n : Nat) : Nat := n % UInt32.size

def Tables.add (t : Tables) : Entry → Tables
  | .document id uri => { t with docPaths := t.docPaths.insert id (fileUriToPath uri) }
  | .range id line character =>
    { t with
      rangeLines := t.rangeLines.insert id (asU32 line)
      rangeCols := (character.map fun c => t.rangeCols.insert id (asU32 c)).getD t.rangeCols }
  | .contains doc ranges => { t with rangeDoc := ranges.foldl (fun m r => m.insert r doc) t.rangeDoc }
  | .next outV inV => { t with nextEdge := t.nextEdge.insert outV inV }
  | .definition outV inV => { t with resultDef := t.resultDef.insert outV inV }
  | .item outV doc ranges =>
    { t with items := t.items.insert outV ((t.items.get? outV).getD [] ++ ranges.map fun r => (doc, r)) }

def tables (es : List Entry) : Tables := es.foldl Tables.add Tables.empty

def Tables.defRangeIds (t : Tables) : List Nat :=
  (t.resultDef.values.filterMap t.items.get?).flatMap fun targets => targets.map Prod.snd

/-! ### The join -/

structure PositionalRef where
  callerPath : List Char
  callerLine : Nat
  calleeDefPath : List Char
  calleeDefLine : Nat
  isCall : Bool
  callerCol : Option Nat
  calleeName : Option (List Char)
deriving DecidableEq

/-- What the classification of an occurrence reads besides the dump: the tables of Unicode, and the
lines of the files on disk, none for one that cannot be read. -/
structure Sources where
  chars : CharTable
  files : List Char → Option (List (List Char))

/-- `SourceLines::line`. -/
def Sources.line (src : Sources) (path : List Char) (line : Nat) : Option (List Char) := do
  let lines ← src.files path
  if line = 0 then none else lines[line - 1]?

def oneBased (line : Nat) : Nat := asU32 (line + 1)

/-- Whether an occurrence is a call, and its byte column; a call without a column where the line
cannot be read. A column is always on a character boundary. -/
def classify (src : Sources) (t : Tables) (rangeId callerLine : Nat) (callerAbs : List Char) :
    Bool × Option Nat :=
  match t.rangeCols.get? rangeId with
  | none => (true, none)
  | some col =>
    match src.line callerAbs (oneBased callerLine) with
    | none => (true, none)
    | some text =>
      ((Callsite.occurrenceIsCall src.chars text col).getD true,
        some (asU32 (Callsite.utf16ColToByte text col)))

def calleeName (src : Sources) (t : Tables) (trid defLine : Nat) (defAbs : List Char) :
    Option (List Char) := do
  let col ← t.rangeCols.get? trid
  let line ← src.line defAbs (oneBased defLine)
  (Callsite.identifierAt src.chars line col).getD none

def reference (src : Sources) (t : Tables) (base : List Char) (rangeId callerLine : Nat)
    (callerAbs : List Char) (target : Nat × Nat) : Option PositionalRef := do
  let defAbs ← t.docPaths.get? target.1
  let defLine ← t.rangeLines.get? target.2
  let (isCall, callerCol) := classify src t rangeId callerLine callerAbs
  some
    { callerPath := relativeToBase base callerAbs
      callerLine := oneBased callerLine
      calleeDefPath := relativeToBase base defAbs
      calleeDefLine := oneBased defLine
      isCall := isCall
      callerCol := callerCol
      calleeName := calleeName src t target.2 defLine defAbs }

def Tables.occurrence (t : Tables) (rangeId : Nat) : Option (List Char × List (Nat × Nat)) := do
  if rangeId ∈ t.defRangeIds then none
  else
    let doc ← t.rangeDoc.get? rangeId
    let rs ← t.nextEdge.get? rangeId
    let callerAbs ← t.docPaths.get? doc
    let defres ← t.resultDef.get? rs
    let targets ← t.items.get? defres
    some (callerAbs, targets)

/-- `ingest_rust_positional`; the order of the ranges is that of a hash table. -/
def ingest (src : Sources) (root : List Char) (es : List Entry) : List PositionalRef :=
  let t := tables es
  let base := normalizedBasePrefix root
  t.rangeLines.entries.flatMap fun r =>
    match t.occurrence r.1 with
    | none => []
    | some (callerAbs, targets) => targets.filterMap (reference src t base r.1 r.2 callerAbs)

def ingestRustPositional (parse : List Char → Option Value) (src : Sources) (root : List Char)
    (lines : List (List Char)) : List PositionalRef := ingest src root (entries parse lines)

end Travsr.Indexer.Lsif
