import Mathlib.Data.Prod.Lex
import Travsr.Lib.SortDedup
import Travsr.Store.Read

namespace Travsr.Daemon

open Travsr.Core Travsr.Store Relational SortDedup

/-- Crate directories, longest first, and what the crate of each depends on, itself included. -/
structure CrateGraph where
  dirsByLenDesc : List String
  reachable : String → List String

namespace CrateGraph

def crateDir (path : String) : Option String :=
  if path = "Cargo.toml" then some ""
  else if Text.endsWith path "/Cargo.toml" then
    some (String.ofList (path.toList.take (path.toList.length - "/Cargo.toml".toList.length)))
  else none

/-- `dir_by_id`: a later node of the same id takes over. -/
def dirById (pbNodes : List Node) (id : NodeId) : Option String :=
  pbNodes.reverse.findSome? fun n =>
    if n.id = id ∧ n.kind = "crate" then crateDir n.vname.path else none

def direct (pbNodes : List Node) (pbEdges : List Edge) (dir : String) : List String :=
  (pbEdges.filter fun e => e.kind = .depends ∧ dirById pbNodes e.src = some dir).filterMap
    fun e => dirById pbNodes e.dst

def widen (direct : String → List String) (seen : List String) : List String :=
  (seen ++ seen.flatMap direct).dedup

def build (pbNodes : List Node) (pbEdges : List Edge) : CrateGraph :=
  let dirs := ((pbNodes.map Node.id).dedup.filterMap (dirById pbNodes))
  { dirsByLenDesc :=
      (sortBy (fun dir => OrderDual.toDual (Text.byteLen dir)) dirs).destutter (· ≠ ·)
    reachable := fun dir => (widen (direct pbNodes pbEdges))^[dirs.length] [dir] }

/-- `crate_dir_for_path`: the longest directory the path lies in. -/
def crateDirForPath (crates : CrateGraph) (path : String) : Option String :=
  crates.dirsByLenDesc.find? fun dir =>
    dir.isEmpty || path = dir || Text.startsWith path (dir ++ "/")

end CrateGraph

def underTests (path : String) : Bool :=
  (Text.splitOn (fun c => c = '/') path.toList).any (· = "tests".toList)

theorem underTests_iff {path : String} :
    underTests path = true ↔ "tests".toList ∈ Text.splitOn (fun c => c = '/') path.toList := by
  unfold underTests
  simp only [List.any_eq_true, decide_eq_true_eq, exists_eq_right]

/-- `call_target_reachable`: a path in no known crate is let through. -/
def callTargetReachable (callerPath candidatePath : String) (crates : CrateGraph) : Bool :=
  if underTests candidatePath && !underTests callerPath then false
  else
    match crates.crateDirForPath callerPath, crates.crateDirForPath candidatePath with
    | some callerCrate, some candidateCrate =>
      callerCrate = candidateCrate || candidateCrate ∈ crates.reachable callerCrate
    | _, _ => true

/-- `bases_by_path`: the bases a class of a file declares, in the order of the edges. -/
structure ClassHierarchy where
  bases : String → String → List String

namespace ClassHierarchy

def MAX_DEPTH : Nat := 8

def classAt (nodes : NodeTable) (id : NodeId) : Option (String × String) :=
  (nodes.find? id).bind fun n =>
    (Text.stripPrefix "class:" n.vname.signature.toList).map fun name =>
      (n.vname.path, String.ofList name)

def build (nodes : NodeTable) (pbEdges : List Edge) : ClassHierarchy where
  bases path cls :=
    (pbEdges.filter fun e => e.kind = .isImplementation ∧ classAt nodes e.src = some (path, cls)
      ).filterMap fun e => (classAt nodes e.dst).map Prod.snd

def meet (cls : String) (walk : List String × List String) (base : String) :
    List String × List String :=
  if base = cls ∨ base ∈ walk.1 then walk else (walk.1 ++ [base], walk.2 ++ [base])

def ancestorsFrom (h : ClassHierarchy) (path cls : String) :
    Nat → List String → List String → List String
  | 0, ordered, _ => ordered
  | depth + 1, ordered, frontier =>
    let walk := (frontier.flatMap (h.bases path)).foldl (meet cls) (ordered, [])
    if walk.2.isEmpty then walk.1 else h.ancestorsFrom path cls depth walk.1 walk.2

def ancestors (h : ClassHierarchy) (path cls : String) : List String :=
  h.ancestorsFrom path cls MAX_DEPTH [] [cls]

end ClassHierarchy

/-- `scope_bare_call`: a definition in the caller's own file, else one in a file it imports. -/
def scopeBareCall (callerPath : String) (importedFiles : List (String × String))
    (candidates : List NodeRow) : List NodeRow :=
  let sameFile := candidates.filter fun n => n.vname.path = callerPath
  let imported := candidates.filter fun n => (callerPath, n.vname.path) ∈ importedFiles
  if !sameFile.isEmpty then sameFile
  else if !imported.isEmpty then imported
  else candidates

def methodSig (t leaf : String) : String := "method:" ++ t ++ "." ++ leaf

def fieldSig (t leaf : String) : String := "field:" ++ t ++ "." ++ leaf

def typeSigs (t : String) : List String :=
  ["struct:" ++ t, "enum:" ++ t, "trait:" ++ t, "class:" ++ t, "interface:" ++ t]

def isField (u : UnresolvedCall) : Bool := Text.startsWith u.calleeSig "field:"

def qualified (sig : String) : Bool :=
  '.' ∈ (Text.afterFirst [':'] sig.toList).getD sig.toList

/-- What `resolve_unresolved_calls` reads from the store before it looks at the calls one by one;
each `by_*` map is the list of its rows. -/
structure CallIndex where
  nodes : NodeTable
  bySig : List NodeRow
  byLeaf : List NodeRow
  byRecvSig : List NodeRow
  byFieldRecvSig : List NodeRow
  knownGraphTypes : List String
  hierarchy : ClassHierarchy
  byInheritedSig : List NodeRow
  importedFiles : List (String × String)
  crates : CrateGraph

/-- The entry of a `by_*` map. -/
def withSig (rows : List NodeRow) (sig : String) : List NodeRow :=
  rows.filter fun n => n.vname.signature = sig

/-- `caller_paths`, empty for a caller that is not stored. -/
def callerPath (nodes : NodeTable) (src : NodeId) : String :=
  ((nodes.find? src).map fun n => n.vname.path).getD ""

/-- `caller_langs`, empty for a caller that is not stored. -/
def callerLang (nodes : NodeTable) (src : NodeId) : String :=
  ((nodes.find? src).map fun n => n.vname.language).getD ""

def CallIndex.build (s : SqliteStore) (unresolved : List UnresolvedCall) (pbNodes : List Node)
    (pbEdges : List Edge) : CallIndex :=
  let bySig := nodesBySignatures s.nodes
    (unresolved.map (fun u => u.calleeSig) ++ unresolved.filterMap fun u => u.altCalleeSig)
  let byLeaf := fnNodesByLeafName s.nodes <|
    ((unresolved.filter fun u => (withSig bySig u.calleeSig).isEmpty).map fun u =>
      Ident.leafOf u.calleeSig).filter fun leaf => !leaf.isEmpty
  let byRecvSig := nodesBySignatures s.nodes <| unresolved.filterMap fun u =>
    u.recvType.map fun t => methodSig t (Ident.leafOf u.calleeSig)
  let byFieldRecvSig := nodesBySignatures s.nodes <| (unresolved.filter isField).filterMap fun u =>
    u.recvType.map fun t => fieldSig t (Ident.leafOf u.calleeSig)
  let knownGraphTypes := (nodesBySignatures s.nodes <|
      (unresolved.filterMap fun u => u.recvType).flatMap typeSigs).filterMap fun n =>
    (Text.afterFirst [':'] n.vname.signature.toList).map String.ofList
  let hierarchy := ClassHierarchy.build s.nodes pbEdges
  -- Only the calls that miss the exact method of a type of the graph try its bases.
  let inheritedSigs := (unresolved.filter fun u => u.isMethodCall).flatMap fun u =>
    u.recvType.toList.flatMap fun t =>
      let leaf := Ident.leafOf u.calleeSig
      if t ∉ knownGraphTypes ∨ !(withSig byRecvSig (methodSig t leaf)).isEmpty then []
      else (hierarchy.ancestors (callerPath s.nodes u.src) t).map fun base => methodSig base leaf
  { nodes := s.nodes
    bySig := bySig
    byLeaf := byLeaf
    byRecvSig := byRecvSig
    byFieldRecvSig := byFieldRecvSig
    knownGraphTypes := knownGraphTypes
    hierarchy := hierarchy
    byInheritedSig := nodesBySignatures s.nodes inheritedSigs
    importedFiles := s.fileImportPairs
    crates := CrateGraph.build pbNodes pbEdges }

/-- A candidate of another language is dropped when the caller has a language. -/
def langScoped (lang : String) (candidates : List NodeRow) : List NodeRow :=
  candidates.filter fun n => lang.isEmpty || n.vname.language = lang

def hintMatches (hint path : String) : Bool :=
  Text.contains path hint ||
    Text.contains path (String.ofList (hint.toList.map fun c => if c = '_' then '-' else c))

def bareFn (u : UnresolvedCall) : Bool := !u.isMethodCall && Text.startsWith u.calleeSig "fn:"

/-- The last gate: no call of oneself, none of what the caller's crate cannot reach. -/
def reachableFrom (u : UnresolvedCall) (path : String) (crates : CrateGraph)
    (candidates : List NodeRow) : List NodeRow :=
  candidates.filter fun n => u.src ≠ n.id ∧ callTargetReachable path n.vname.path crates

def hinted (u : UnresolvedCall) (candidates : List NodeRow) : List NodeRow :=
  candidates.filter fun n => u.hintCrate.all fun hint => hintMatches hint n.vname.path

/-- The targets among the candidates the caller's language and the hint leave: without a hint, the
only one there is once a bare call is scoped. -/
def settle (u : UnresolvedCall) (path : String) (importedFiles : List (String × String))
    (crates : CrateGraph) (candidates : List NodeRow) : List NodeRow :=
  let filtered :=
    if u.hintCrate.isNone && bareFn u && 1 < candidates.length then
      scopeBareCall path importedFiles candidates
    else candidates
  if u.hintCrate.isNone && filtered.length ≠ 1 then []
  else reachableFrom u path crates filtered

namespace CallIndex

variable (ix : CallIndex) (u : UnresolvedCall)

/-- The candidates of a method call whose receiver was recovered: the exact method of the type, or
that of the nearest base that has one. -/
def methodMatches (t : String) : List NodeRow :=
  let leaf := Ident.leafOf u.calleeSig
  let exact := withSig ix.byRecvSig (methodSig t leaf)
  if !exact.isEmpty then exact
  else if t ∉ ix.knownGraphTypes then []
  else
    (((ix.hierarchy.ancestors (callerPath ix.nodes u.src) t).map fun base =>
      withSig ix.byInheritedSig (methodSig base leaf)).find? fun m => !m.isEmpty).getD []

/-- The bare definitions of the leaf pool, for a callee that names no owner. -/
def leafMatches : List NodeRow :=
  if qualified u.calleeSig then []
  else
    ix.byLeaf.filter fun n =>
      Ident.leafOf n.vname.signature = Ident.leafOf u.calleeSig ∧ !qualified n.vname.signature

/-- The candidates of a free or constructor call: the first signature, then the second, then the
leaf. -/
def freeMatches : List NodeRow :=
  let exact := withSig ix.bySig u.calleeSig
  let alt := u.altCalleeSig.toList.flatMap (withSig ix.bySig)
  if !exact.isEmpty then exact
  else if !alt.isEmpty then alt
  else ix.leafMatches u

def callMatches : List NodeRow :=
  if u.isMethodCall then u.recvType.toList.flatMap (ix.methodMatches u) else ix.freeMatches u

/-- The targets of a field access: the exact field of the recovered type, if it is the only one. -/
def fieldTargets : List NodeRow :=
  u.recvType.toList.flatMap fun t =>
    let sameLang := langScoped (callerLang ix.nodes u.src)
      (withSig ix.byFieldRecvSig (fieldSig t (Ident.leafOf u.calleeSig)))
    if sameLang.length ≠ 1 then []
    else reachableFrom u (callerPath ix.nodes u.src) ix.crates sameLang

def chosen (candidates : List NodeRow) : List NodeRow :=
  settle u (callerPath ix.nodes u.src) ix.importedFiles ix.crates
    (hinted u (langScoped (callerLang ix.nodes u.src) candidates))

/-- What one call resolves to; a call site the positional references cover is left to them. -/
def targets (lsifCovered : List (String × Nat × String)) : List NodeRow :=
  if isField u then ix.fieldTargets u
  else if (callerPath ix.nodes u.src, u.callerLine, Ident.leafOf u.calleeSig) ∈ lsifCovered then []
  else ix.chosen u (ix.callMatches u)

end CallIndex

abbrev CallSite := NodeId × NodeId × Nat × Option Nat

def pushed (u : UnresolvedCall) (n : NodeRow) : Edge × CallSite :=
  (⟨u.src, n.id, if isField u then .refField else .refCall, none, none⟩,
    (u.src, n.id, u.callerLine, u.callerCol))

def edgeOrder (e : Edge) : ℕ ×ₗ ℕ := toLex (e.src, e.dst)

def siteOrder (r : CallSite) : ℕ ×ₗ ℕ ×ₗ ℕ := toLex (r.1, toLex (r.2.1, r.2.2.1))

def resolvedPushes (s : SqliteStore) (unresolved : List UnresolvedCall) (pbNodes : List Node)
    (pbEdges : List Edge) (lsifCovered : List (String × Nat × String)) : List (Edge × CallSite) :=
  let ix := CallIndex.build s unresolved pbNodes pbEdges
  unresolved.flatMap fun u => (ix.targets u lsifCovered).map (pushed u)

/-- `resolve_unresolved_calls`. The two sorts are taken to be stable. -/
def resolveUnresolvedCalls (s : SqliteStore) (unresolved : List UnresolvedCall)
    (pbNodes : List Node) (pbEdges : List Edge) (lsifCovered : List (String × Nat × String)) :
    List Edge × List CallSite :=
  let out := resolvedPushes s unresolved pbNodes pbEdges lsifCovered
  (dedupBy edgeOrder (sortBy edgeOrder (out.map Prod.fst)),
    (sortBy siteOrder (out.map Prod.snd)).destutter (· ≠ ·))

end Travsr.Daemon
