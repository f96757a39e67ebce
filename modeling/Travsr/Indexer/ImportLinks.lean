import Travsr.Core.RelativeImport
import Travsr.PluginHost.ParseCache

namespace Travsr.Indexer

open Travsr.Core Core.Text Travsr.PluginHost

/-! ### Paths by their components -/

/-- `Path::components`: a doubled slash and a `.` leave none, but for a `.` at the start; a leading
slash is left out. -/
def components (path : List Char) : List (List Char) :=
  match splitOn (· = '/') path with
  | ['.'] :: rest => ['.'] :: rest.filter isNamed
  | pieces => pieces.filter isNamed

/-- `Path::parent`. -/
def parentOf (parts : List (List Char)) : Option (List (List Char)) :=
  if parts = [] then none else some parts.dropLast

/-- `normalize_vname_path`: a `..` takes the component before it away, at the root nothing. -/
def normalizeVnamePath (parts : List (List Char)) : List (List Char) :=
  parts.foldl (fun kept w =>
    if w = ['.'] then kept else if w = ['.', '.'] then kept.dropLast else kept ++ [w]) []

/-- `Path::file_stem` of a name. -/
def fileStem (name : List Char) : List Char :=
  match rsplitOnce '.' name with
  | some (stem, _) => if stem = [] then name else stem
  | none => name

/-- `Path::with_extension`. -/
def withExtension (ext : String) (parts : List (List Char)) : List (List Char) :=
  match parts.getLast? with
  | some name => parts.dropLast ++ [fileStem name ++ '.' :: ext.toList]
  | none => parts

def pathText (parts : List (List Char)) : String :=
  String.ofList ((List.intercalate ['/'] parts).map fun c => if c = '\\' then '/' else c)

/-! ### The linkers -/

variable (env : Env) (corpus : String)

def resolvesToEdge (src dst : NodeId) : Edge := ⟨src, dst, .resolvesTo, none, none⟩

/-- The id of the file node that a parser of the language emits for the path. -/
def fileNodeId (language path : String) : NodeId := env.vnameId ⟨corpus, "", path, language, "file"⟩

def linkEach (targets : Node → List NodeId) (nodes : List Node) : List Edge :=
  nodes.flatMap fun n => (targets n).map (resolvesToEdge n.id)

/-- What follows `tag` in the signature of a node of the kind. -/
def specifier (kind tag : String) (n : Node) : Option (List Char) :=
  if n.kind = kind then stripPrefix tag n.vname.signature.toList else none

/-- `max_by_key`: of equal keys the last one. -/
def maxByKey {α : Type} (best : Option (Nat × α)) (c : Nat × α) : Option (Nat × α) :=
  match best with
  | some b => if b.1 ≤ c.1 then some c else some b
  | none => some c

/-- `rewrite_import_alias`: the longest alias that the specifier begins with. -/
def rewriteImportAlias (module : List Char) (aliases : List (String × String)) :
    Option (List Char) :=
  ((aliases.filterMap fun a =>
    (stripPrefix a.1 module).map fun rest => (byteLen a.1, a.2.toList ++ rest)).foldl
      maxByKey none).map Prod.snd

def importCandidates (importerExt : String) : List String :=
  if importerExt ∈ ["js", "jsx", "mjs", "cjs"] then ["js", "jsx", "mjs", "cjs"]
  else ["ts", "tsx", "js"]

/-- The path an import names, without its extension: next to the importer, or under an alias. -/
def resolveSpecifier (dir : List (List Char)) (aliases : List (String × String))
    (module : List Char) : Option (List (List Char)) :=
  if "./".toList.isPrefixOf module || "../".toList.isPrefixOf module then
    some (normalizeVnamePath (dir ++ components module))
  else (rewriteImportAlias module aliases).map fun p => normalizeVnamePath (components p)

/-- `link_imports_aliased`. -/
def linkImportsAliased (aliases : List (String × String)) (vnamePath : String)
    (nodes : List Node) : List Edge :=
  match parentOf (components vnamePath.toList) with
  | none => []
  | some dir => linkEach (fun n =>
      (((specifier "import" "import:" n).bind (resolveSpecifier dir aliases)).map fun base =>
        (importCandidates (extOf vnamePath)).map fun ext =>
          fileNodeId env corpus "typescript" (pathText (withExtension ext base))).getD []) nodes

/-- `str::split` at `::`. -/
def splitColons : List Char → List (List Char)
  | [] => [[]]
  | ':' :: ':' :: cs => [] :: splitColons cs
  | c :: cs =>
    match splitColons cs with
    | [] => [[c]]
    | w :: ws => (c :: w) :: ws

/-- One directory up for each `super::`. -/
def stripSuper : Nat → List Char → List (List Char) → Option (List Char × List (List Char))
  | 0, rest, base => some (rest, base)
  | fuel + 1, rest, base =>
    match stripPrefix "super::" rest with
    | none => some (rest, base)
    | some rest => (parentOf base).bind (stripSuper fuel rest)

/-- `resolve_rust_module_path`. -/
def resolveRustModulePath (usePath : List Char) (dir : List (List Char)) :
    Option (List (List Char)) :=
  match stripPrefix "self::" usePath with
  | some rest => some (normalizeVnamePath (dir ++ (splitColons rest).flatMap components))
  | none =>
    if "super::".toList.isPrefixOf usePath then
      (stripSuper usePath.length usePath dir).bind fun p =>
        if p.1 = [] then none
        else some (normalizeVnamePath (p.2 ++ (splitColons p.1).flatMap components))
    else none

/-- `rust_candidate_paths`: a flat file or a directory module. -/
def rustCandidatePaths (base : List (List Char)) : List String :=
  [pathText (withExtension "rs" base), pathText (base ++ ["mod.rs".toList])]

def rustTargets (dir : List (List Char)) (n : Node) : List String :=
  match specifier "import" "use:" n with
  | some path =>
    if "::*".toList.isSuffixOf path || path = ['*'] then []
    else ((resolveRustModulePath path dir).map rustCandidatePaths).getD []
  | none =>
    ((specifier "file-module" "filemod:" n).map fun name =>
      rustCandidatePaths (normalizeVnamePath (dir ++ components name))).getD []

/-- `link_imports_rust`. -/
def linkImportsRust (vnamePath : String) (nodes : List Node) : List Edge :=
  match parentOf (components vnamePath.toList) with
  | none => []
  | some dir => linkEach (fun n =>
      (rustTargets dir n).map (fileNodeId env corpus "rust")) nodes

def pyModulePaths (base : List (List Char)) : List String :=
  [pathText (withExtension "py" base), pathText (base ++ ["__init__.py".toList])]

def pySegments (spec : List Char) : List (List Char) := (splitOn (· = '.') spec).flatMap components

/-- The directory `level` dots name: the first stands for the importer's own. -/
def pyAnchor : Nat → List (List Char) → Option (List (List Char))
  | 0, dir => some dir
  | level + 1, dir => (parentOf dir).bind (pyAnchor level)

/-- `py_resolve_relative_candidates`. -/
def pyResolveRelativeCandidates (spec : List Char) (dir : List (List Char)) : List String :=
  let level := (spec.takeWhile (· = '.')).length
  match pyAnchor (level - 1) dir with
  | none => []
  | some anchor =>
    if spec.drop level = [] then [pathText (normalizeVnamePath (anchor ++ ["__init__.py".toList]))]
    else pyModulePaths (normalizeVnamePath (anchor ++ pySegments (spec.drop level)))

/-- `py_resolve_import_candidates`. -/
def pyResolveImportCandidates (spec : List Char) (dir : List (List Char)) : List String :=
  if spec.head? = some '.' then pyResolveRelativeCandidates spec dir
  else pyModulePaths (pySegments spec)

/-- `link_imports_python_fs`: only the candidates that are on disk. -/
def linkImportsPythonFs (onDisk : String → Bool) (vnamePath : String) (nodes : List Node) :
    List Edge :=
  match parentOf (components vnamePath.toList) with
  | none => []
  | some dir => linkEach (fun n =>
      (((specifier "import" "import:" n).map fun spec =>
        (pyResolveImportCandidates spec dir).filter onDisk).getD []).map
          (fileNodeId env corpus "python")) nodes

/-- The linker of the file's language; the one for Go links nothing without a module root. -/
def linkImports (aliases : List (String × String)) (onDisk : String → Bool) (vnamePath : String)
    (nodes : List Node) : List Edge :=
  match Language.fromExtension (extOf vnamePath) with
  | some .typeScript => linkImportsAliased env corpus aliases vnamePath nodes
  | some .rust => linkImportsRust env corpus vnamePath nodes
  | some .python => linkImportsPythonFs env corpus onDisk vnamePath nodes
  | _ => []

variable {env corpus}

theorem mem_linkEach {targets : Node → List NodeId} {nodes : List Node} {e : Edge}
    (h : e ∈ linkEach targets nodes) :
    ∃ n ∈ nodes, ∃ target ∈ targets n, e = resolvesToEdge n.id target := by
  obtain ⟨n, hn, he⟩ := List.mem_flatMap.mp h
  obtain ⟨target, ht, rfl⟩ := List.mem_map.mp he
  exact ⟨n, hn, target, ht, rfl⟩

theorem mem_linkImports {aliases : List (String × String)} {onDisk : String → Bool}
    {vnamePath : String} {nodes : List Node} {e : Edge}
    (h : e ∈ linkImports env corpus aliases onDisk vnamePath nodes) :
    ∃ n ∈ nodes, ∃ target, e = resolvesToEdge n.id target := by
  have hsome : ∀ {targets}, e ∈ linkEach targets nodes →
      ∃ n ∈ nodes, ∃ target, e = resolvesToEdge n.id target := by
    intro targets he
    obtain ⟨n, hn, target, _, heq⟩ := mem_linkEach he
    exact ⟨n, hn, target, heq⟩
  unfold linkImports at h
  split at h
  · unfold linkImportsAliased at h
    split at h
    · cases h
    · exact hsome h
  · unfold linkImportsRust at h
    split at h
    · cases h
    · exact hsome h
  · unfold linkImportsPythonFs at h
    split at h
    · cases h
    · exact hsome h
  · cases h

end Travsr.Indexer
