import Travsr.Guard.Session
import Travsr.Guard.Shell
import Travsr.Store.NameSearch

namespace Travsr.Guard

open Travsr.Core Core.Text Travsr.Store

/-! ### The payload -/

/-- The fields of `tool_input` that the guard reads. -/
structure ToolInput where
  command : Option String
  pattern : Option String
  glob : Option String
  filePath : Option String
  offset : Option Nat
  limit : Option Nat
  symbol : Option String
  query : Option String
  name : Option String
  file : Option String

def ToolInput.empty : ToolInput :=
  ⟨none, none, none, none, none, none, none, none, none, none⟩

structure HookInput where
  sessionId : Option String
  cwd : Option String
  hookEventName : Option String
  toolName : Option String
  toolInput : Option ToolInput

inductive HookOutput where
  | neutral
  | context (text : String)
  | deny (reason : String)
deriving DecidableEq

def HookOutput.blocks : HookOutput → Bool
  | .deny _ => true
  | _ => false

inductive GuardMode where
  | off
  | advisory
  | strict
deriving DecidableEq

inductive Request where
  | content (term : Option String) (via : String)
  | files (hint : Option String) (via : String)
  | read (path : String)
  | travsrQuery (term : Option String)
deriving DecidableEq

def GRAPH_TOOLS : List String :=
  ["get_callers", "find_references", "get_context", "search_symbol", "get_graph_json",
    "get_dependencies", "get_blast_radius"]

def nonEmptyString (s : Option String) : Option String := s.filter fun t => t ≠ ""

/-- `travsr_tool_term`. -/
def travsrToolTerm (tool : String) (input : HookInput) : Option (Option String) :=
  let leaf := String.ofList ((afterLast ['_', '_'] tool.toList).getD tool.toList)
  if startsWith tool "mcp__" = false ∨ leaf ∉ GRAPH_TOOLS then none
  else
    some (nonEmptyString (input.toolInput.bind fun a =>
      a.symbol.or (a.query.or (a.name.or a.file))))

def requestOf (found : SearchCommand) : Request :=
  let term := found.term.map String.ofList
  match found.kind with
  | .content => .content term (String.ofList found.program)
  | .files => .files term (String.ofList found.program)

/-- `bash_requests`. -/
def bashRequests (input : HookInput) : List Request :=
  let command := (input.toolInput.bind ToolInput.command).filter fun _ =>
    input.toolName = some "Bash"
  match command with
  | none => []
  | some c => (classifyChain c.toList).map requestOf

def classifyTool (tool : String) (input : HookInput) : Option Request :=
  let args := input.toolInput
  if tool = "Grep" then
    some (.content (nonEmptyString (args.bind ToolInput.pattern)) "Grep")
  else if tool = "Glob" then
    some (.files (args.bind fun a => a.pattern.or a.glob) "Glob")
  else if tool = "Read" then
    (nonEmptyString (args.bind ToolInput.filePath)).bind fun path =>
      if args.any fun a => a.offset.isSome || a.limit.isSome then none else some (.read path)
  else if tool = "Bash" then (bashRequests input).head?
  else none

/-- `classify`. -/
def classify (input : HookInput) : Option Request :=
  if input.hookEventName.any (· ≠ "PreToolUse") then none
  else
    input.toolName.bind fun tool =>
      match travsrToolTerm tool input with
      | some term => some (.travsrQuery term)
      | none => classifyTool tool input

/-! ### What the graph can answer -/

/-- `as_symbol`. -/
def asSymbol (term : String) : Option String :=
  let t := trim term
  if byteLen t < 3 ∨ 128 < byteLen t then none
  else
    match t.toList with
    | [] => none
    | first :: rest =>
      if ¬(first.isAlpha = true ∨ first = '_') then none
      else if (first :: rest).all fun c => c.isAlphanum || c = '_' || c = '.' || c = ':' then some t
      else none

def DOCS : List String := ["md", "mdx", "rst", "txt", "adoc", "org"]

def DATA : List String :=
  ["json", "toml", "yaml", "yml", "ini", "cfg", "conf", "xml", "properties", "env", "csv", "tsv"]

def BINARY : List String :=
  ["png", "jpg", "jpeg", "gif", "webp", "ico", "pdf", "zip", "gz", "tar", "bz2", "xz", "exe",
    "dll", "so", "dylib", "bin", "wasm", "class", "jar", "db", "sqlite"]

def LOCKS : List String :=
  ["cargo.lock", "package-lock.json", "yarn.lock", "pnpm-lock.yaml", "poetry.lock",
    "gemfile.lock", "composer.lock", "go.sum", "flake.lock"]

def isPathSeparator (c : Char) : Bool := c = '/' || c = '\\'

/-- `excluded_extension`. -/
def excludedExtension (path : String) : Bool :=
  let lower := (toAsciiLowercase path).toList
  let name := ((splitOn isPathSeparator lower).getLast?).getD lower
  if String.ofList name ∈ LOCKS ∨ endsWith (String.ofList name) ".lock" = true then true
  else
    match rsplitOnce '.' name with
    | none => true
    | some (_, ext) =>
      String.ofList ext ∈ DOCS ∨ String.ofList ext ∈ DATA ∨ String.ofList ext ∈ BINARY

def SKIP_DIRS : List String :=
  [".claude", ".git", ".travsr", "target", "node_modules", "dist", ".next", ".vscode",
    ".vscode-test"]

def EXTRA : List String :=
  ["vendor", "third_party", "thirdparty", ".venv", "site-packages", "bower_components"]

/-- `vendored`. -/
def vendored (rel : List Char) : Bool :=
  (splitOn isPathSeparator rel).any fun c =>
    String.ofList c ∈ SKIP_DIRS || String.ofList c ∈ EXTRA

/-- `Path::join`. -/
def pathJoin (base given : List Char) : List Char :=
  if given.head? = some '/' ∨ base = [] then given
  else if base.getLast? = some '/' then base ++ given
  else base ++ '/' :: given

def pushComponent (out : List (List Char)) (c : List Char) : List (List Char) :=
  if c = [] ∨ c = ['.'] then out
  else if c = ['.', '.'] then if out = [['/']] then out else out.dropLast
  else out ++ [c]

/-- `lexical`: the components that are left, the root as `/`. -/
def lexical (path : List Char) : List (List Char) :=
  (splitOn (· = '/') path).foldl pushComponent (if path.head? = some '/' then [['/']] else [])

def displayComponents : List (List Char) → List Char
  | ['/'] :: rest => '/' :: (['/'].intercalate rest)
  | components => ['/'].intercalate components

/-- `repo_relative`. -/
def repoRelative (root : String) (cwd : Option String) (raw : String) : Option String :=
  let absolute :=
    if startsWith raw "/" then raw.toList else pathJoin (cwd.getD root).toList raw.toList
  let base := lexical root.toList
  if base.isPrefixOf (lexical absolute) then
    let slashed := (displayComponents ((lexical absolute).drop base.length)).map fun c =>
      if c = '\\' then '/' else c
    if slashed = [] then none else some (String.ofList slashed)
  else none

/-- `file_indexed`, where `/` is the native separator. -/
def fileIndexed (s : SqliteStore) (rel : String) : Bool := (s.files.find? rel).isSome

structure Redirect where
  key : String
  text : String

def contentText (symbol via : String) : String :=
  "Travsr has indexed this repository and holds `" ++ symbol ++ "`. It can answer this " ++
    "structurally: call find_references(symbol=\"" ++ symbol ++ "\") for every use site, or " ++
    "get_callers(symbol=\"" ++ symbol ++ "\") for the callers, instead of " ++ via ++ ". If " ++
    "the graph comes back empty, run this search again and it will be allowed."

def readText (rel stem : String) : String :=
  "Travsr has `" ++ rel ++ "` in the graph. Call get_context(query=\"" ++ stem ++ "\", " ++
    "include_snippets=true) for the symbols in it with their source inline, or " ++
    "get_dependencies(file=\"" ++ rel ++ "\") for what it imports, instead of reading the whole " ++
    "file. Read it directly when you need something the graph does not carry; run this again " ++
    "and it will be allowed."

def stemOf (rel : String) : String :=
  match ((splitOn (· = '/') rel.toList).getLast?).bind (rsplitOnce '.') with
  | some (stem, _) => String.ofList stem
  | none => rel

structure Index where
  root : String
  store : SqliteStore

/-- `redirect_for`. -/
def redirectFor (index : Index) (cwd : Option String) : Request → Option Redirect
  | .content term via =>
    term.bind fun t => (asSymbol t).bind fun symbol =>
      if searchNodesByNameExact index.store symbol = [] then none
      else some ⟨symbol, contentText symbol via⟩
  | .read path =>
    if excludedExtension path then none
    else
      (repoRelative index.root cwd path).bind fun rel =>
        if vendored rel.toList || !fileIndexed index.store rel then none
        else some ⟨rel, readText rel (stemOf rel)⟩
  | .files _ _ => none
  | .travsrQuery _ => none

/-- `advisory_note`. -/
def advisoryNote : Request → Option String
  | .content (some t) via =>
    some ("Travsr indexes this repository: find_pattern(pattern=\"" ++ t ++ "\") runs the same " ++
      "search already scoped to the indexed files, and `scope` narrows it further. Continuing " ++
      "with " ++ via ++ ".")
  | .content none via =>
    some ("Travsr indexes this repository: find_pattern is the same search scoped to the " ++
      "indexed files. Continuing with " ++ via ++ ".")
  | .files (some h) via =>
    some ("Travsr indexes this repository: get_repo_map() lists the indexed files and " ++
      "get_context(query=\"" ++ h ++ "\") finds where something lives without walking the " ++
      "tree. Continuing with " ++ via ++ ".")
  | .files none via =>
    some ("Travsr indexes this repository: get_repo_map() lists the indexed files without " ++
      "walking the tree. Continuing with " ++ via ++ ".")
  | .read _ => none
  | .travsrQuery _ => none

/-! ### The decision -/

/-- The graph database, and the commit it was built at. -/
structure GraphDb where
  store : SqliteStore
  lastCommit : Option String

/-- What the guard finds at a repository root: a database file which opens or does not, the commit
of `HEAD`, and the session file. -/
structure Repo where
  root : String
  db : Option (Option GraphDb)
  head : Option String
  session : Option StateFile

/-- `short_shas_differ`. -/
def shortShasDiffer (a b : String) : Option Bool :=
  if a = "" ∨ b = "" then none
  else
    let short := if byteLen a ≤ byteLen b then a else b
    let long := if byteLen a ≤ byteLen b then b else a
    some !((long.toList.zip short.toList).all fun p => p.1.toLower = p.2.toLower)

/-- `head_index_mismatch_note(..).is_some()`. -/
def headIndexMismatch (head stored : String) : Bool :=
  !(head = "" || stored = "" || shortShasDiffer head stored = some false)

/-- `open_index`. -/
def openIndex (repo : Repo) : Option Index :=
  match repo.db with
  | some (some db) =>
    let stored := db.lastCommit.getD ""
    let head := repo.head.getD ""
    if db.store.nodes.rows.length = 0 then none
    else if stored = "" then none
    else if head = "" then none
    else if headIndexMismatch head stored then none
    else some ⟨repo.root, db.store⟩
  | _ => none

def candidates (input : HookInput) (request : Request) : List Request :=
  request :: (bashRequests input).drop 1

def decideRedirect (clock : Clock) (input : HookInput) (mode : GuardMode) (repo : Repo)
    (request : Request) (redirect : Option Redirect) : HookOutput × Repo :=
  match mode, redirect with
  | .strict, some r =>
    let released := release clock repo.session input.sessionId r.key
    (if released.1 then .context r.text else .deny r.text, { repo with session := released.2 })
  | .advisory, some r => (.context r.text, repo)
  | .strict, none => (.neutral, repo)
  | .advisory, none =>
    match advisoryNote request with
    | some note => (.context note, repo)
    | none => (.neutral, repo)
  | .off, _ => (.neutral, repo)

/-- What `decide` does inside a repository. -/
def decideIn (clock : Clock) (input : HookInput) (mode : GuardMode) (repo : Repo)
    (request : Request) : HookOutput × Repo :=
  match request with
  | .travsrQuery term =>
    match term, input.sessionId with
    | some term, some session =>
      (.neutral, { repo with session := recordQuery clock repo.session session term })
    | _, _ => (.neutral, repo)
  | request =>
    match openIndex repo with
    | none => (.neutral, repo)
    | some index =>
      decideRedirect clock input mode repo request
        ((candidates input request).findSome? (redirectFor index input.cwd))

/-- `decide`, with what it leaves of the repository. -/
def Policy.decide (clock : Clock) (input : HookInput) (mode : GuardMode) (repo : Option Repo) :
    HookOutput × Option Repo :=
  if mode = .off then (.neutral, repo)
  else
    match classify input, repo with
    | some request, some repo =>
      ((decideIn clock input mode repo request).1, some (decideIn clock input mode repo request).2)
    | _, _ => (.neutral, repo)

end Travsr.Guard
