import Travsr.Store.RefResolution

namespace Travsr.Daemon

open Travsr.Core Travsr.Store Relational

/-- A position an editor's language provider resolved. -/
structure LiveResolution where
  refLine : Nat
  name : String
  targetPath : String
  targetLine : Nat
  edgeKind : String
  deriving DecidableEq, Repr

/-- What one live pass did. -/
structure LiveOutcome where
  emitted : Nat
  pending : Nat
  deriving DecidableEq, Repr

def DEFINITION_KINDS : List String :=
  ["function", "method", "fn", "class", "interface", "struct", "trait", "enum", "type", "typedef",
    "union", "object", "protocol", "mixin", "extension", "namespace", "init"]

def targetKinds : EdgeKind → List String
  | .refCall | .refImports => DEFINITION_KINDS
  | .refField => ["field"]
  | .isImplementation => ["interface", "trait", "class", "struct", "protocol"]
  | .overrides => ["method", "fn", "function"]
  | _ => []

def liveEdgeKind (s : String) : Option EdgeKind :=
  (EdgeKind.fromStr s).filter fun k => k ∈ [EdgeKind.refCall, .refField, .isImplementation]

def CONSTRUCTOR_LEAVES : List String := ["init", "new", "constructor"]

/-- The signature names the identifier by its leaf, or by its qualifier where the leaf is that of a
constructor. -/
def signatureFits (sig name : String) : Bool :=
  let leaf := Ident.leafOf sig
  let body := (Text.afterFirst [':'] sig.toList).getD sig.toList
  leaf = name ||
    (leaf ∈ CONSTRUCTOR_LEAVES && (Text.rsplitOnce '.' body).any fun split =>
      (Text.afterLast ['.'] split.1).getD split.1 = name.toList)

/-- `candidate_signatures`: the exact signatures a call could name, most specific first. -/
def candidateSignatures (call : UnresolvedCall) : List String :=
  let leaf := Ident.leafOf call.calleeSig
  let isField := Text.startsWith call.calleeSig "field:"
  match call.recvType with
  | some recv => [(if isField then "field" else "method") ++ ":" ++ recv ++ "." ++ leaf]
  | none => if call.isMethodCall || isField then [] else call.calleeSig :: call.altCalleeSig.toList

def lexicalEdgeKind (call : UnresolvedCall) : EdgeKind :=
  if Text.startsWith call.calleeSig "field:" then .refField else .refCall

def bareIdentifier (call : UnresolvedCall) : Bool :=
  !call.isMethodCall && !Text.startsWith call.calleeSig "field:"

def truncated (candidates : List NodeRow) : Bool := NODE_EXACT_LOOKUP_LIMIT ≤ candidates.length

def validTargets (candidates : List NodeRow) (edge : EdgeKind) (language : Option String) :
    List NodeRow :=
  candidates.filter fun n => n.kind ∈ targetKinds edge ∧ language.all fun l => n.vname.language = l

def languageScope (src : NodeRow) : Option String :=
  if src.vname.language.isEmpty then none else some src.vname.language

/-- `hint_crate_reaches`: a qualifier names one segment of the path of the definition. -/
def hintCrateReaches (hint : Option String) (dst : NodeRow) : Bool :=
  hint.all fun hint =>
    hint ∈ ["self", "super", "crate"] ||
      (Text.splitOn (fun c => c = '/' || c = '.') dst.vname.path.toList).any fun seg =>
        seg = hint.toList || seg = hint.toList.map fun c => if c = '_' then '-' else c

section

variable (nodes : NodeTable)

/-- `names_match`. -/
def namesMatch (dst : NodeId) (name : String) : Bool :=
  (nodes.find? dst).any fun node => signatureFits node.vname.signature name

/-- `edge_if_sound`: between two stored nodes of one corpus. -/
def edgeIfSound (src dst : NodeId) (kind : EdgeKind) : Option Edge :=
  if src = dst then none
  else
    (nodes.find? src).bind fun srcNode => (nodes.find? dst).bind fun dstNode =>
      if srcNode.vname.corpus = dstNode.vname.corpus then some ⟨src, dst, kind, none, none⟩ else none

/-- `resolve_one`: a reference at top level hangs from the file node. -/
def resolveOne (corpus file : String) (r : LiveResolution) : Option Edge :=
  (liveEdgeKind r.edgeKind).bind fun edge =>
    (enclosingDefinitionAt nodes corpus file r.refLine <|> fileNodeAt nodes corpus file).bind
      fun src =>
        (enclosingNodeAt nodes corpus r.targetPath r.targetLine (targetKinds edge) <|>
          nodeStartingAtOrBelow nodes corpus r.targetPath r.targetLine (targetKinds edge)).bind
          fun dst => if namesMatch nodes dst r.name then edgeIfSound nodes src dst edge else none

/-- `unique_definition`. -/
def uniqueDefinition (signature : String) (edge : EdgeKind) (language : Option String) :
    Option NodeRow :=
  let candidates := lookupNodesExact nodes signature none
  if truncated candidates then none
  else
    match validTargets candidates edge language with
    | [n] => some n
    | _ => none

/-- `lexical_one`. -/
def lexicalOne (call : UnresolvedCall) (locallyBound : Finset String) : Option Edge :=
  if bareIdentifier call ∧ Ident.leafOf call.calleeSig ∈ locallyBound then none
  else
    (nodes.find? call.src).bind fun srcNode =>
      ((candidateSignatures call).findSome? fun sig =>
        uniqueDefinition nodes sig (lexicalEdgeKind call) (languageScope srcNode)).bind fun dst =>
          if bareIdentifier call ∧ ¬ hintCrateReaches call.hintCrate dst then none
          else edgeIfSound nodes call.src dst.id (lexicalEdgeKind call)

/-- One candidate of the scan for a base type: a second definition ends it. -/
def baseCandidate (found : Option NodeId) (n : NodeRow) : Option (Option NodeId) :=
  match found with
  | some id => if id = n.id then some found else none
  | none => some (some n.id)

def baseKind (baseName : String) (language : Option String) (found : Option NodeId)
    (kind : String) : Option (Option NodeId) :=
  let candidates := lookupNodesExact nodes (kind ++ ":" ++ baseName) none
  if truncated candidates then none
  else (validTargets candidates .isImplementation language).foldlM baseCandidate found

/-- `unique_base_definition`: the scan ends without an answer at the first ambiguity. -/
def uniqueBaseDefinition (baseName : String) (language : Option String) : Option NodeId :=
  ((targetKinds .isImplementation).foldlM (baseKind nodes baseName language) none).join

/-- `inheritance_edge`. -/
def inheritanceEdge (src : NodeId) (baseName : String) (locallyBound : Finset String) :
    Option Edge :=
  if baseName ∈ locallyBound then none
  else
    (nodes.find? src).bind fun srcNode =>
      (uniqueBaseDefinition nodes baseName (languageScope srcNode)).bind fun dst =>
        edgeIfSound nodes src dst .isImplementation

end

/-- What a lane makes of one reference: the definition its row is recorded under, where it stands
and the edge it resolves to. -/
structure Examined where
  src : Option NodeId
  line : Nat
  col : Option Nat
  name : String
  edge : Option Edge
  deriving DecidableEq, Repr

/-- An edge a lane wrote, with the reference it answers. -/
structure Emission where
  edge : Edge
  line : Nat
  name : String
  deriving DecidableEq, Repr

/-- The loop state of a lane. The edges it wrote are kept beside their number. -/
structure LivePass where
  store : SqliteStore
  emitted : List Emission
  pending : Nat
  states : List RefResolution
  callSites : List (NodeId × NodeId × Nat × Option Nat)
  fieldSites : List (NodeId × NodeId × Nat × Option Nat)

namespace LivePass

def start (s : SqliteStore) : LivePass := ⟨s, [], 0, [], [], []⟩

def outcome (p : LivePass) : LiveOutcome := ⟨p.emitted.length, p.pending⟩

/-- The edge of a reference is written, and its occurrence kept for later. -/
def claim (p : LivePass) (r : Examined) (e : Edge) (s : SqliteStore) : LivePass :=
  let site := (e.src, e.dst, r.line, r.col)
  { p with
    store := s
    emitted := p.emitted ++ [⟨e, r.line, r.name⟩]
    callSites := if e.kind = .refCall then p.callSites ++ [site] else p.callSites
    fieldSites := if e.kind = .refField then p.fieldSites ++ [site] else p.fieldSites }

def note (p : LivePass) (r : Examined) (claimed : Option NodeId) : LivePass :=
  { p with
    states := p.states ++ r.src.toList.map fun src =>
      ⟨src, r.line, 0, r.name, if claimed.isSome then .resolved else .pending, claimed⟩ }

def examine (p : LivePass) (r : Examined) : LivePass :=
  match r.edge.bind fun e => (p.store.putEdgeLive e).toOption.map fun s => (e, s) with
  | some (e, s) => (p.claim r e s).note r (some e.dst)
  | none => { p with pending := p.pending + 1 }.note r none

def finish (p : LivePass) (s : LiveStore) : LiveStore :=
  { s with toSqliteStore := (p.store.recordEdgeSites p.callSites).recordFieldSites p.fieldSites }

end LivePass

def ofResolution (nodes : NodeTable) (corpus file : String) (r : LiveResolution) : Examined :=
  ⟨enclosingDefinitionAt nodes corpus file r.refLine, r.refLine, none, r.name,
    resolveOne nodes corpus file r⟩

def ofCall (nodes : NodeTable) (locallyBound : Finset String) (call : UnresolvedCall) : Examined :=
  ⟨some call.src, call.callerLine, call.callerCol, Ident.leafOf call.calleeSig,
    lexicalOne nodes call locallyBound⟩

def ofInheritance (nodes : NodeTable) (corpus path : String) (locallyBound : Finset String)
    (r : InheritanceRef) : Examined :=
  let src := enclosingDefinitionAt nodes corpus path r.line
  ⟨src, r.line, none, r.baseName,
    src.bind fun src => inheritanceEdge nodes src r.baseName locallyBound⟩

variable (s : LiveStore) (corpus path : String)

/-- The loop of `apply_live_resolutions`. -/
def editorPass (resolutions : List LiveResolution) : LivePass :=
  resolutions.foldl (fun p r => p.examine (ofResolution p.store.nodes corpus path r))
    (.start s.toSqliteStore)

def applyLiveResolutions (resolutions : List LiveResolution) : LiveStore × LiveOutcome :=
  let p := editorPass s corpus path resolutions
  ((p.finish s).upsertRefResolutionStates p.states, p.outcome)

/-- The loops of `resolve_unambiguous_lexical`. -/
def lexicalPass (unresolved : List UnresolvedCall) (inheritance : List InheritanceRef)
    (locallyBound : Finset String) : LivePass :=
  inheritance.foldl (fun p r => p.examine (ofInheritance p.store.nodes corpus path locallyBound r))
    (unresolved.foldl (fun p call => p.examine (ofCall p.store.nodes locallyBound call))
      (.start s.toSqliteStore))

def resolveUnambiguousLexical (unresolved : List UnresolvedCall)
    (inheritance : List InheritanceRef) (locallyBound : Finset String) : LiveStore × LiveOutcome :=
  let p := lexicalPass s corpus path unresolved inheritance locallyBound
  ((p.finish s).replaceRefResolutionStates corpus path p.states, p.outcome)

end Travsr.Daemon
