import Travsr.Indexer.ScipUnifier
import Travsr.Store.Unification

namespace Travsr.Daemon

open Travsr.Core Core.Text Indexer Store

def MAX_LINE_DELTA : Nat := 5

/-- A single unreconciled definition. -/
structure UnifyMiss where
  language : String
  symbol : String
  path : String
  line : Nat
  kind : String
  deriving DecidableEq, Repr

structure UnifyOutcome where
  aliasMap : NodeId → Option NodeId
  attempted : Nat
  unified : Nat
  dropped : List NodeId
  misses : List UnifyMiss

def ANONYMOUS_TYPE : String := "$anonymous_type_"

def clangLanguages : List String := ["c", "cpp", "objectivec"]

def isClang (language : String) : Bool := language ∈ clangLanguages

/-- What the pass reads besides its batch. -/
structure Unifier where
  tables : CharTables
  nodes : NodeTable
  corpus : String

/-- A definition that is looked up. -/
structure Definition where
  id : NodeId
  scipSym : String
  language : String
  path : String
  line : Nat
  parsed : ScipName
  dslContained : Bool
  candidates : List String
  sameFile : List String
  overloadSigs : List String
  deriving DecidableEq

def Definition.isCallableType (d : Definition) : Bool :=
  d.parsed.kind = .function || d.parsed.kind = .cls

/-- What becomes of a node before anything is looked up for it. -/
inductive Prepared where
  | skipped
  | dropped
  | lineless (parsed : ScipName)
  | definition (d : Definition)

namespace Unifier

variable (u : Unifier)

/-- The parsed name of a node, and whether its signature is SCIP's: a fallback stands in for the
sidecars that do not speak SCIP. -/
def parseName (node : Node) : Option (ScipName × Bool) :=
  match scipNameKind u.tables (scipSymbolFromSig node.vname.signature) with
  | some p => some (p, true)
  | none =>
    if node.vname.language = "scala" then
      (semanticdbNameKind u.tables node.vname.signature).map fun p => (p, true)
    else if node.vname.language ∈ ["kotlin", "swift", "dart"] then
      let kind :=
        if node.vname.language = "kotlin" ∧ node.kind = "symbol" then "variable" else node.kind
      (nativeNameKind node.vname.signature kind).map fun p => (p, false)
    else none

def clangTypes (batch : List Node) (path : String) : List String :=
  (batch.filter fun n => isClang n.vname.language && decide (n.vname.path = path)).filterMap fun n =>
    (scipNameKind u.tables (scipSymbolFromSig n.vname.signature)).bind fun p =>
      if p.kind = .cls ∧ startsWith p.name ANONYMOUS_TYPE = false then some p.name else none

/-- A definition of a package or of a file's namespace, which has no twin. -/
def isFilePackage (node : Node) : Bool :=
  let scipSym := scipSymbolFromSig node.vname.signature
  (node.vname.language = "go" && endsWith scipSym "/") ||
    (isClang node.vname.language && endsWith scipSym "`/" && contains scipSym "`<file>/")

def isAnonymousType (node : Node) (parsed : ScipName) : Bool :=
  isClang node.vname.language && parsed.kind = .cls && startsWith parsed.name ANONYMOUS_TYPE

/-- The name as Phase A has it: a block of a test is no container, and a property of PHP has no
sigil. -/
def adjust (node : Node) (parsed : ScipName) : ScipName :=
  let parsed :=
    if isDslScopeContainer u.tables parsed then { parsed with container := none } else parsed
  match stripPrefix "$" parsed.name.toList with
  | some name =>
    if node.vname.language = "php" then { parsed with name := String.ofList name } else parsed
  | none => parsed

def candidatesOf (node : Node) (parsed : ScipName) : List String :=
  if node.vname.language = "kotlin" ∧ node.kind = "symbol" then
    (candidateSignatures parsed).filter fun c => startsWith c "field:"
  else candidateSignatures parsed

def setterField (name : String) : Option String :=
  if endsWith name "_=" then some (String.ofList (name.toList.take (name.toList.length - 2)))
  else none

def sameFileOf (batch : List Node) (node : Node) (parsed : ScipName) : List String :=
  let language := node.vname.language
  candidatesOf node parsed ++
  (match parsed.container with
    | some c =>
      (if language = "scala" ∧ parsed.kind = .function then
        ["field:" ++ c ++ "." ++ (setterField parsed.name).getD parsed.name] else []) ++
      (if language = "go" ∧ parsed.kind = .var then ["method:" ++ c ++ "." ++ parsed.name] else []) ++
      (if isClang language ∧ parsed.kind = .var ∧ startsWith c ANONYMOUS_TYPE then
        (u.clangTypes batch node.vname.path).map fun t => "field:" ++ t ++ "." ++ parsed.name
      else [])
    | none =>
      if language = "scala" ∧ parsed.kind = .var then ["class:" ++ parsed.name] else []) ++
  (match parsed.container with
    | some c =>
      (if parsed.kind = .cls then ["variant:" ++ c ++ "." ++ parsed.name] else []) ++
      (if node.kind = "constructor" ∨ parsed.name = "<init>" then ["class:" ++ c] else [])
    | none => [])

def prepare (batch : List Node) (node : Node) : Prepared :=
  if isFilePackage node then .dropped
  else
    match u.parseName node with
    | none => .skipped
    | some (parsed, isScip) =>
      if isDslScopeLeaf u.tables parsed then .dropped
      else if isAnonymousType node parsed then .dropped
      else if isScip && !phaseAIndexed u.nodes u.corpus node.vname.path then .skipped
      else
        let name := u.adjust node parsed
        match node.line with
        | none => .lineless name
        | some line => .definition {
            id := node.id
            scipSym := scipSymbolFromSig node.vname.signature
            language := node.vname.language
            path := node.vname.path
            line := line
            parsed := name
            dslContained := isDslScopeContainer u.tables parsed
            candidates := candidatesOf node name
            sameFile := u.sameFileOf batch node name
            overloadSigs := overloadCollapseSignatures name }

/-- Scala's setters have no line: the field of the file is matched by its signature alone. -/
def setterTwin (node : Node) (parsed : ScipName) : Option NodeId :=
  match parsed.container, setterField parsed.name with
  | some c, some field =>
    if node.vname.language = "scala" then
      ((lookupNodesExact u.nodes ("field:" ++ c ++ "." ++ field) (some node.vname.path)).find?
        fun r => r.vname.path = node.vname.path ∧ r.vname.corpus = u.corpus).map NodeRow.id
    else none
  | _, _ => none

def spanRung (d : Definition) : Option NodeId :=
  findTsNodeForUnification u.nodes u.corpus d.path d.sameFile d.line MAX_LINE_DELTA

def overloadRung (d : Definition) : Option NodeId :=
  findUniqueTsNodeInFile u.nodes u.corpus d.path d.overloadSigs

def declarationLanguages (language : String) : List String :=
  if isClang language then clangLanguages else [language]

/-- Rung 2: the one declaration of a callable or a type, in another file. -/
def acrossRung (d : Definition) : Option NodeId :=
  if d.isCallableType then
    findUniqueTsNodeAcrossFiles u.nodes u.corpus (declarationLanguages d.language) d.candidates
  else none

end Unifier

/-- What the pass has gathered so far. -/
structure Pass where
  aliasMap : NodeId → Option NodeId
  dropped : List NodeId
  aliases : List (String × NodeId)
  attemptedSyms : List String
  unifiedSyms : List String
  symToTs : String → Option NodeId
  unmatched : List Definition
  missDetail : String → Option UnifyMiss

def insertNew (syms : List String) (s : String) : List String :=
  if s ∈ syms then syms else syms ++ [s]

/-- `HashMap::insert`. -/
def insertAlias (m : NodeId → Option NodeId) (k v : NodeId) : NodeId → Option NodeId :=
  fun x => if x = k then some v else m x

/-- `entry(k).or_insert(v)`. -/
def orInsert {α : Type} (m : String → Option α) (k : String) (v : α) : String → Option α :=
  fun x => if x = k then some ((m k).getD v) else m x

def missOf (d : Definition) : UnifyMiss where
  language := d.language
  symbol :=
    match d.parsed.container with
    | some c => c ++ "." ++ d.parsed.name
    | none => d.parsed.name
  path := d.path
  line := d.line
  kind := d.parsed.kind.asStr

namespace Pass

def empty : Pass where
  aliasMap := fun _ => none
  dropped := []
  aliases := []
  attemptedSyms := []
  unifiedSyms := []
  symToTs := fun _ => none
  unmatched := []
  missDetail := fun _ => none

/-- A definition is aliased; the first match of its symbol is remembered. -/
def bind (st : Pass) (d : Definition) (ts : NodeId) : Pass :=
  { st with
    aliases := st.aliases ++ [(d.scipSym, ts)]
    aliasMap := insertAlias st.aliasMap d.id ts
    symToTs := orInsert st.symToTs d.scipSym ts }

def attempt (st : Pass) (d : Definition) : Pass :=
  if d.isCallableType && !d.dslContained then
    { st with
      attemptedSyms := insertNew st.attemptedSyms d.scipSym
      missDetail := orInsert st.missDetail d.scipSym (missOf d) }
  else st

def credit (st : Pass) (d : Definition) : Pass :=
  if d.isCallableType then
    { st with
      attemptedSyms := insertNew st.attemptedSyms d.scipSym
      unifiedSyms := insertNew st.unifiedSyms d.scipSym }
  else st

def define (u : Unifier) (st : Pass) (d : Definition) : Pass :=
  let st := st.attempt d
  match u.spanRung d with
  | some ts => (st.bind d ts).credit d
  | none =>
    if d.dslContained then { st with dropped := st.dropped ++ [d.id] }
    else { st with unmatched := st.unmatched ++ [d] }

def visit (u : Unifier) (batch : List Node) (st : Pass) (node : Node) : Pass :=
  match u.prepare batch node with
  | .skipped => st
  | .dropped => { st with dropped := st.dropped ++ [node.id] }
  | .lineless parsed =>
    match u.setterTwin node parsed with
    | some ts =>
      { st with
        aliases := st.aliases ++ [(scipSymbolFromSig node.vname.signature, ts)]
        aliasMap := insertAlias st.aliasMap node.id ts }
    | none => st
  | .definition d => st.define u d

def creditAttempted (st : Pass) (sym : String) : Pass :=
  if sym ∈ st.attemptedSyms then { st with unifiedSyms := insertNew st.unifiedSyms sym } else st

/-- An unmatched definition: rung 1 is the node its symbol has unified onto. -/
def rescue (u : Unifier) (st : Pass) (d : Definition) : Pass :=
  match st.symToTs d.scipSym <|> u.overloadRung d <|> u.acrossRung d with
  | some ts => (st.bind d ts).creditAttempted d.scipSym
  | none => st

/-- A Kotlin symbol without a twin inside a function is a local variable. -/
def isLocal (u : Unifier) (node : Node) : Bool :=
  match node.line, nativeNameKind node.vname.signature "variable" with
  | some line, some parsed =>
    match parsed.container.bind fun c => nativeNameKind ("fn:" ++ c) "function" with
    | some owner =>
      (findTsNodeForUnification u.nodes u.corpus node.vname.path (candidateSignatures owner) line
        0).isSome
    | none => false
  | _, _ => false

def dropLocal (u : Unifier) (st : Pass) (node : Node) : Pass :=
  if node.vname.language = "kotlin" ∧ node.kind = "symbol" ∧ st.aliasMap node.id = none ∧
      isLocal u node = true then
    { st with dropped := st.dropped ++ [node.id] }
  else st

def misses (st : Pass) : List UnifyMiss :=
  ((st.attemptedSyms.filter fun s => s ∉ st.unifiedSyms).filterMap st.missDetail).insertionSort
    fun a b => a.path < b.path ∨ (a.path = b.path ∧ a.line ≤ b.line)

def outcome (st : Pass) : UnifyOutcome where
  aliasMap := st.aliasMap
  attempted := st.attemptedSyms.length
  unified := st.unifiedSyms.length
  dropped := st.dropped
  misses := st.misses

end Pass

/-- The batch in order, then what it left unmatched in order, then Kotlin's locals. -/
def unifyPass (u : Unifier) (batch : List Node) : Pass :=
  let st := batch.foldl (Pass.visit u batch) .empty
  batch.foldl (Pass.dropLocal u) (st.unmatched.foldl (Pass.rescue u) st)

/-- `unify_all`, with the references it redirects and the aliases it registers. -/
def unifyAll (u : Unifier) (batch : List Node) (refs : List ScipRef) :
    UnifyOutcome × List ScipRef × List (String × NodeId) :=
  let st := unifyPass u batch
  (st.outcome, refs.map fun r => { r with calleeId := (st.aliasMap r.calleeId).getD r.calleeId },
    st.aliases)

end Travsr.Daemon
