import Travsr.Indexer.FfiResolver
import Travsr.Lib.Table

namespace Travsr.PluginHost

open Travsr.Core Core.Text Travsr.Analysis Relational

/-! ### What travels between the host and a plugin -/

/-- The marker of the wire format. -/
structure WireMarker where
  sourceNodeId : NodeId
  kind : FfiMarkerKind
  localName : String
  boundName : Option String
  arity : Option Nat
  module : Option String
  corpus : String
  deriving DecidableEq

structure ParseRequest where
  path : String
  vnamePath : String
  corpus : String
  package : String
  source : Option (List UInt8)
  deriving DecidableEq

structure ParseResponse where
  nodes : List Node
  edges : List Edge
  ffiMarkers : List WireMarker
  deriving DecidableEq

inductive WorkspaceDepMarker where
  | provider (name version : String)
  | consumer (memberFile : NodeId) (name : String)
  deriving DecidableEq

structure ParseOutput where
  nodes : List Node
  edges : List Edge
  ffiMarkers : List FfiMarker
  workspaceDepMarkers : List WorkspaceDepMarker
  deriving DecidableEq

def ParseOutput.default : ParseOutput := ⟨[], [], [], []⟩

inductive IndexError where
  | parse (file message : String)
  | lsif (message : String)
  | io (message : String)
  | phaseNotSupported
  | protocolVersionMismatch (expected got : Nat)
  | unknownLanguage (reported : String)
  | pluginCrashed (language : String)
  deriving DecidableEq

def responseToOutput (resp : ParseResponse) : ParseOutput where
  nodes := resp.nodes
  edges := resp.edges
  ffiMarkers := resp.ffiMarkers.filterMap fun m =>
    FfiMarker.tryNew m.sourceNodeId m.kind m.localName m.boundName m.arity m.module m.corpus
  workspaceDepMarkers := []

/-! ### `ParseCache` -/

variable {D T : Type}

structure CacheKey (D : Type) where
  pluginVersion : String
  fileHash : D
  deriving DecidableEq

def MAX_CACHE_BYTES : Nat := 64 * 1024 * 1024

def NODE_OVERHEAD : Nat := 128

def EDGE_OVERHEAD : Nat := 48

def FFI_OVERHEAD : Nat := 160

def approxBytes (resp : ParseResponse) : Nat :=
  resp.nodes.foldr (fun n total =>
      byteLen n.vname.corpus + byteLen n.vname.root + byteLen n.vname.path +
        byteLen n.vname.language + byteLen n.vname.signature + byteLen n.kind +
        byteLen n.package + NODE_OVERHEAD + total) 0 +
    resp.edges.length * EDGE_OVERHEAD + resp.ffiMarkers.length * FFI_OVERHEAD

structure Cached (D : Type) where
  key : CacheKey D
  response : ParseResponse

/-- `insertion_order` is the queue for eviction, oldest first. -/
structure ParseCache (D : Type) where
  store : Table (Cached D) Cached.key
  approxBytes : Nat
  insertionOrder : List (CacheKey D)

namespace ParseCache

def new : ParseCache D := ⟨Table.empty, 0, []⟩

variable [DecidableEq D]

def get (c : ParseCache D) (key : CacheKey D) : Option ParseResponse :=
  (c.store.find? key).map Cached.response

/-- `HashMap::remove`, with the bytes of the removed value credited. -/
def remove (c : ParseCache D) (key : CacheKey D) : ParseCache D :=
  match c.store.find? key with
  | none => c
  | some e =>
    { c with
      store := c.store.deleteWhere fun e => e.key = key
      approxBytes := c.approxBytes - PluginHost.approxBytes e.response }

/-- Evict oldest-first until `cost` more bytes fit; the flag says that the key's own slot was
popped on the way. -/
def evict (key : CacheKey D) (cost : Nat) (c : ParseCache D) :
    List (CacheKey D) → ParseCache D × Bool
  | [] => ({ c with insertionOrder := [] }, false)
  | oldest :: rest =>
    if MAX_CACHE_BYTES < c.approxBytes + cost then
      if oldest = key then ((evict key cost c rest).1, true)
      else evict key cost (c.remove oldest) rest
    else ({ c with insertionOrder := oldest :: rest }, false)

def insert (c : ParseCache D) (key : CacheKey D) (resp : ParseResponse) : ParseCache D :=
  let cost := PluginHost.approxBytes resp
  if MAX_CACHE_BYTES < cost then c
  else
    let existed := (c.store.find? key).isSome
    let evicted := evict key cost (c.remove key) c.insertionOrder
    { store := evicted.1.store.insertIgnore ⟨key, resp⟩
      approxBytes := evicted.1.approxBytes + cost
      insertionOrder :=
        if !existed || evicted.2 then evicted.1.insertionOrder ++ [key]
        else evicted.1.insertionOrder }

end ParseCache

/-! ### Paths and languages -/

/-- `Path::file_name`: the last component, when it is a name. -/
def pathFileName (path : String) : Option String :=
  let parts := (splitOn (· = '/') path.toList).filter fun w => w ≠ [] ∧ w ≠ ['.']
  match parts.getLast? with
  | some w => if w = ['.', '.'] then none else some (String.ofList w)
  | none => none

/-- `Path::extension`: a dot at the start of the name begins no extension. -/
def pathExtension (path : String) : Option String :=
  (pathFileName path).bind fun name =>
    (afterLast ['.'] name.toList).bind fun ext =>
      if name.toList = '.' :: ext then none else some (String.ofList ext)

def extOf (path : String) : String := (pathExtension path).getD ""

inductive Language where
  | typeScript
  | rust
  | python
  | go
  | java
  | kotlin
  | ruby
  | cSharp
  | php
  | scala
  | cpp
  | c
  | swift
  | dart
  | objectiveC
  | json
  | yaml
  | toml
  | xml
  | markdown
  deriving DecidableEq

def Language.fromExtension (ext : String) : Option Language :=
  if ext ∈ ["ts", "tsx", "mts", "cts", "js", "jsx", "mjs", "cjs"] then some .typeScript
  else if ext = "rs" then some .rust
  else if ext ∈ ["py", "pyi"] then some .python
  else if ext = "go" then some .go
  else if ext = "java" then some .java
  else if ext ∈ ["kt", "kts"] then some .kotlin
  else if ext ∈ ["rb", "rake", "gemspec"] then some .ruby
  else if ext = "cs" then some .cSharp
  else if ext ∈ ["php", "phtml", "php8"] then some .php
  else if ext ∈ ["scala", "sc"] then some .scala
  else if ext ∈ ["cpp", "cc", "cxx", "hpp", "hh", "hxx"] then some .cpp
  else if ext ∈ ["c", "h"] then some .c
  else if ext = "swift" then some .swift
  else if ext = "dart" then some .dart
  else if ext ∈ ["m", "mm"] then some .objectiveC
  else if ext ∈ ["json", "jsonc"] then some .json
  else if ext ∈ ["yml", "yaml"] then some .yaml
  else if ext = "toml" then some .toml
  else if ext ∈ ["xml", "xsd", "xsl"] then some .xml
  else if ext ∈ ["md", "markdown", "mdx"] then some .markdown
  else none

def Language.isDataFormat (lang : Language) : Bool :=
  lang ∈ [.json, .yaml, .toml, .xml]

def isManifestFile (fileName : String) : Bool :=
  fileName = "go.mod" || endsWith fileName ".csproj"

/-! ### `PluginIndexer` -/

/-- One call, with what the file at the path holds then; `none` when it cannot be read. -/
structure Call where
  absPath : String
  vnamePath : String
  contents : Option (List UInt8)
  deriving DecidableEq

/-- What the indexer works with besides its own state: the digest, the extension table, the test
for a C++ header, the `docs.exclude` setting of a file's repository and the built-in emitters. -/
structure Host (D T : Type) where
  version : String
  sha256 : List UInt8 → D
  byExt : String → Option T
  headerIsCxx : List UInt8 → Bool
  docsExclude : String → List String
  dataFormat : (corpus absPath vnamePath : String) → List UInt8 → Except String ParseOutput
  markdown : (corpus absPath vnamePath : String) → (excludes : List String) → List UInt8 →
    Except String ParseOutput

/-- The `parse` of every transport; a plugin reads the file the request names. -/
abbrev Plugins (T : Type) := T → ParseRequest → List UInt8 → Except IndexError ParseResponse

structure PluginIndexer (D : Type) where
  corpus : String
  cache : ParseCache D
  docExcludes : List String
  configDocExcludes : Option (List String)

/-- `PluginIndexer::new`, then `with_doc_excludes`. -/
def PluginIndexer.new (corpus : String) (docExcludes : List String) : PluginIndexer D :=
  ⟨corpus, ParseCache.new, docExcludes, none⟩

def HEADER_SNIFF_BYTES : Nat := 64 * 1024

variable (h : Host D T) (plugins : Plugins T)

/-- The extension that a file is looked up under: a header in C++ counts as `hpp`. -/
def dispatchExt (absPath : String) (bytes : List UInt8) : String :=
  let ext := extOf absPath
  if ext = "h" ∧ h.headerIsCxx (bytes.take HEADER_SNIFF_BYTES) then "hpp" else ext

def request (corpus : String) (c : Call) : ParseRequest :=
  ⟨c.absPath, c.vnamePath, corpus, "", none⟩

/-- `Dispatcher::parse_file`. -/
def dispatch (corpus : String) (c : Call) (bytes : List UInt8) :
    Except IndexError (Option ParseResponse) :=
  match h.byExt (dispatchExt h c.absPath bytes) with
  | some t => (plugins t (request corpus c) bytes).map some
  | none => .ok none

/-- `doc_excludes_for`: the configured patterns are resolved once. -/
def PluginIndexer.docExcludesFor (ix : PluginIndexer D) (absPath : String) :
    List String × PluginIndexer D :=
  let resolved := ix.configDocExcludes.getD (h.docsExclude absPath)
  (ix.docExcludes ++ resolved, { ix with configDocExcludes := some resolved })

def parseError (absPath : String) (result : Except String ParseOutput) :
    Except IndexError ParseOutput :=
  result.mapError (.parse absPath)

def PluginIndexer.fallback (ix : PluginIndexer D) (c : Call) (bytes : List UInt8) :
    Except IndexError ParseOutput × PluginIndexer D :=
  let lang := Language.fromExtension (extOf c.absPath)
  let data := parseError c.absPath (h.dataFormat ix.corpus c.absPath c.vnamePath bytes)
  if lang.any Language.isDataFormat then (data, ix)
  else if lang = some .markdown then
    let (excludes, ix') := ix.docExcludesFor h c.absPath
    (parseError c.absPath (h.markdown ix.corpus c.absPath c.vnamePath excludes bytes), ix')
  else if isManifestFile ((pathFileName c.vnamePath).getD "") then (data, ix)
  else (.ok .default, ix)

/-- `parse_file_with_vname`: the key of the cache is the host's version and the digest of the
contents. -/
def PluginIndexer.parseFileWithVname [DecidableEq D] (ix : PluginIndexer D) (c : Call) :
    Except IndexError ParseOutput × PluginIndexer D :=
  match c.contents with
  | none => (.error (.parse c.absPath ("hashing " ++ c.absPath)), ix)
  | some bytes =>
    let key : CacheKey D := ⟨h.version, h.sha256 bytes⟩
    match ix.cache.get key with
    | some cached => (.ok (responseToOutput cached), ix)
    | none =>
      match dispatch h plugins ix.corpus c bytes with
      | .error e => (.error e, ix)
      | .ok none => ix.fallback h c bytes
      | .ok (some resp) =>
        (.ok (responseToOutput resp), { ix with cache := ix.cache.insert key resp })

end Travsr.PluginHost
