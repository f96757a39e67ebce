import Travsr.Core.RelativeImport
import Travsr.Mcp.GraphQuery
import Travsr.Store.NameSearch

namespace Travsr.Mcp

open Travsr.Core Travsr.Core.Text Travsr.Store

inductive AnalysisMode where
  | treeSitter
  | semantic
  deriving DecidableEq, Repr

def DEFAULT_BLAST_RADIUS_FILES : Nat := 500

def MAX_BLAST_RADIUS_NODES : Nat := 50000

/-! ### The candidate imports of a file -/

def blastRadiusHints (file : List Char) : List (List Char) :=
  let fp := slashed file
  let dirHint := ((pathParent fp).bind pathFileName).filter fun s => s ≠ []
  let stemHint := (pathFileStem fp).filter fun s => some s ≠ dirHint
  dirHint.toList ++ stemHint.toList

def importSigTokens (sig : List Char) : List (List Char) :=
  (splitOn (fun c => !c.isAlphanum) ((stripPrefix "import:" sig).getD sig)).filter fun t => t ≠ []

/-- `import_token_index`: the positions of the imports that have the token. -/
def importTokenIndex (imports : List NodeRow) (token : List Char) : List Nat :=
  imports.zipIdx.flatMap fun (row, idx) =>
    ((importSigTokens row.vname.signature.toList).filter fun t => t = token).map fun _ => idx

def importCandidates (imports : List NodeRow) (file : String) : List Nat :=
  retainFirst id [] (((blastRadiusHints file.toList).flatMap importSigTokens).flatMap
    (importTokenIndex imports))

/-- `resolves_to`, of the import's own language. -/
def importResolvesTo (row : NodeRow) (file : String) : Bool :=
  resolverForLanguage row.vname.language row.vname.signature.toList row.vname.path.toList file.toList

/-! ### The traversal -/

/-- The orders in which the store scans its nodes for the two queries. -/
structure NodeScans (r : Reader) where
  imports : List NodeRow
  atPath : String → List NodeRow
  imports_perm : imports.Perm (r.store.nodes.rows.filter fun n => n.kind = "import")
  atPath_perm : ∀ path, (atPath path).Perm
    (r.store.nodes.rows.filter fun n => n.vname.path = path ∧ n.kind ≠ "doc-chunk")

/-- The locals of the traversal. `visited` is a set, listed in the order of its insertions, and
`affectedOrder` stands for `affected_files` too; `halted` once it broke out of the fixpoint. -/
structure Radius where
  visited : List NodeId
  queue : List NodeId
  affectedOrder : List String
  phase2Done : List String
  resolvedImports : List Nat
  halted : Bool
  deriving DecidableEq, Repr

def followedKind (mode : AnalysisMode) (kind : EdgeKind) : Bool :=
  match mode with
  | .treeSitter => kind ∈ [.definesBinding, .refCall, .depends, .resolvesTo]
  | .semantic => kind == .refCall

def visit (id : NodeId) (st : Radius) : Radius :=
  if id ∈ st.visited then st
  else { st with visited := st.visited ++ [id], queue := st.queue ++ [id] }

/-- A file joins the order at its first node; at the limit the traversal stops. -/
def reachPath (limit : Nat) (path : String) (st : Radius) : Radius :=
  if path = "" ∨ path ∈ st.affectedOrder then st
  else { st with
    affectedOrder := st.affectedOrder ++ [path]
    halted := decide (limit ≤ st.affectedOrder.length + 1) }

def reachNode (r : Reader) (limit : Nat) (st : Radius) (id : NodeId) : Radius :=
  if st.halted then st
  else
    match r.getNode id with
    | some n => reachPath limit n.vname.path st
    | none => st

def newSrcs (visited : List NodeId) (edges : List Edge) : List NodeId :=
  retainFirst id visited (edges.map Edge.src)

def followEdges (r : Reader) (mode : AnalysisMode) (limit : Nat) (current : NodeId)
    (rest : List NodeId) (st : Radius) : Radius :=
  let fresh := newSrcs st.visited ((r.iterEdgesTo current).filter fun e => followedKind mode e.kind)
  fresh.foldl (reachNode r limit)
    { st with visited := st.visited ++ fresh, queue := rest ++ fresh }

def reachImporter (r : Reader) (limit : Nat) (st : Radius) (id : NodeId) : Radius :=
  if st.halted then st else reachNode r limit (visit id st) id

def importers (r : Reader) (importId : NodeId) : List NodeId :=
  ((r.iterEdgesTo importId).filter fun e => e.kind = .depends).map Edge.src

def checkImport (r : Reader) (imports : List NodeRow) (limit : Nat) (file : String) (st : Radius)
    (idx : Nat) : Radius :=
  if st.halted ∨ idx ∈ st.resolvedImports then st
  else
    match imports[idx]? with
    | some row =>
      if importResolvesTo row file then
        (importers r row.id).foldl (reachImporter r limit)
          { st with resolvedImports := idx :: st.resolvedImports }
      else st
    | none => st

def resolveFile (r : Reader) (imports : List NodeRow) (limit : Nat) (st : Radius) (file : String) :
    Radius :=
  if st.halted then st
  else
    (importCandidates imports file).foldl (checkImport r imports limit file)
      { st with phase2Done := file :: st.phase2Done }

def Radius.todo (st : Radius) : List String :=
  st.affectedOrder.filter fun f => f ∉ st.phase2Done

/-- One turn of the fixpoint: phase 1 while something is queued, else a pass of phase 2. At the
ceiling of nodes both phases give up. -/
def radiusStep (r : Reader) (imports : List NodeRow) (mode : AnalysisMode) (limit : Nat)
    (st : Radius) : Option Radius :=
  if st.halted ∨ MAX_BLAST_RADIUS_NODES ≤ st.visited.length then none
  else
    match st.queue with
    | current :: rest => some (followEdges r mode limit current rest st)
    | [] =>
      if mode ≠ .treeSitter ∨ MAX_BLAST_RADIUS_NODES ≤ st.affectedOrder.length ∨ st.todo = [] then
        none
      else some (st.todo.foldl (resolveFile r imports limit) st)

def seedNode (st : Radius) (n : NodeRow) : Radius :=
  let st := visit n.id st
  if n.vname.path = "" ∨ n.vname.path ∈ st.affectedOrder then st
  else { st with affectedOrder := st.affectedOrder ++ [n.vname.path] }

def Radius.start (seeds : List NodeRow) : Radius :=
  seeds.foldl seedNode ⟨[], [], [], [], [], false⟩

/-- Every node is queued once, and a pass resolves a file that was not resolved before. -/
def radiusFuel (r : Reader) (seeds : List NodeRow) : Nat :=
  seeds.length + 2 * r.store.edges.rows.length + r.store.nodes.rows.length + seeds.length

def traverse (r : Reader) (imports : List NodeRow) (mode : AnalysisMode) (limit : Nat)
    (seeds : List NodeRow) : Radius :=
  Loop.iterate (radiusStep r imports mode limit) (radiusFuel r seeds) (Radius.start seeds)

/-! ### The answer -/

def fileCap (maxFiles : Option Nat) : Nat :=
  (maxFiles.filter fun n => 0 < n).getD DEFAULT_BLAST_RADIUS_FILES

def fileLimit (maxFiles : Option Nat) : Nat :=
  min (fileCap maxFiles + 1) MAX_BLAST_RADIUS_NODES

def affected (r : Reader) (scans : NodeScans r) (mode : AnalysisMode) (maxFiles : Option Nat)
    (seeds : List NodeRow) : List String :=
  (traverse r (if mode = .treeSitter then scans.imports else []) mode (fileLimit maxFiles)
    seeds).affectedOrder

def shownFiles (r : Reader) (scans : NodeScans r) (mode : AnalysisMode) (maxFiles : Option Nat)
    (seeds : List NodeRow) : List String × Bool :=
  let order := affected r scans mode maxFiles seeds
  (SortDedup.sortBy id (order.take (fileCap maxFiles)), decide (fileCap maxFiles < order.length))

def cutNote (cap : Nat) : String :=
  "\n[note: showing the " ++ toString cap ++ " files nearest the change; more are affected, " ++
    "raise max_files for more]"

/-- A list of names, shortened after `limit` of them. -/
def named (limit : Nat) (names : List String) : String :=
  joinWith ", " (names.take limit) ++
    (if limit < names.length then " and " ++ toString (names.length - limit) ++ " more" else "")

def looseNote (file : String) (seeds : List NodeRow) : String :=
  let seedFiles := SortDedup.dedupBy id
    (SortDedup.sortBy id ((seeds.map fun n => n.vname.path).filter fun p => p ≠ ""))
  let capped :=
    if NODE_NAME_SEARCH_LIMIT ≤ seeds.length then
      " (the search stops at " ++ toString NODE_NAME_SEARCH_LIMIT ++
        " symbols, so other matching files can be missing)"
    else ""
  "\n[note: no file is stored at '" ++ file ++ "'; this is the radius of the " ++
    toString seedFiles.length ++ " file(s) a name search for it matched" ++ capped ++ ": " ++
    named 10 seedFiles ++ ". get_blast_radius takes a repo-relative file path.]"

def childModules (r : Reader) (file : String) (seeds : List NodeRow) : List String :=
  let dsts := (seeds.filter fun n => n.kind = "file-module").flatMap fun n =>
    ((r.iterEdgesFrom n.id).filter fun e => e.kind = .resolvesTo).map Edge.dst
  SortDedup.dedupBy id (SortDedup.sortBy id
    ((dsts.filterMap r.getNode).map (fun n => n.vname.path) |>.filter fun p => p ≠ "" ∧ p ≠ file))

def childrenNote (children : List String) : String :=
  "\n[note: dependents of the " ++ toString children.length ++ " child module(s) this file " ++
    "declares are not included (only removing or renaming a `mod` line breaks them); query " ++
    "those files for their own radius: " ++ named 10 children ++ "]"

/-- `get_blast_radius_raw`; `search` is the name search for a path that is not stored. -/
def getBlastRadiusRaw (r : Reader) (scans : NodeScans r) (search : String → List NodeRow)
    (file : String) (mode : AnalysisMode) (maxFiles : Option Nat) : String :=
  let loose := decide (scans.atPath file = [])
  let seeds := if loose then search file else scans.atPath file
  if seeds = [] then ""
  else
    let shown := shownFiles r scans mode maxFiles seeds
    let children := childModules r file seeds
    joinWith "\n" shown.1 ++ (if shown.2 then cutNote (fileCap maxFiles) else "") ++
      (if loose then looseNote file seeds else "") ++
      (if children = [] then "" else childrenNote children)

end Travsr.Mcp
