import Mathlib.Data.Rat.Defs
import Mathlib.Tactic.NormNum
import Travsr.Core.Text

namespace Travsr.Core

/-- The value of a `u64` node id. -/
abbrev NodeId := Nat

/-- The five components that address a code entity. -/
structure VName where
  corpus : String
  root : String
  path : String
  language : String
  signature : String
  deriving DecidableEq, Repr

inductive EdgeKind where
  | depends
  | refCall
  | refField
  | definesBinding
  | exports
  | resolvesTo
  | refImports
  | isImplementation
  | overrides
  | ffiCall
  | configures
  | externalDependency
  deriving DecidableEq, Repr

namespace EdgeKind

def asStr : EdgeKind → String
  | depends => "depends"
  | refCall => "ref/call"
  | refField => "ref/field"
  | definesBinding => "defines/binding"
  | exports => "exports"
  | resolvesTo => "resolves-to"
  | refImports => "ref/imports"
  | isImplementation => "is-implementation"
  | overrides => "overrides"
  | ffiCall => "ffi/call"
  | configures => "configures"
  | externalDependency => "external-dependency"

def fromStr (s : String) : Option EdgeKind :=
  if s = "depends" then some depends
  else if s = "ref/call" then some refCall
  else if s = "ref/field" then some refField
  else if s = "defines/binding" then some definesBinding
  else if s = "exports" then some exports
  else if s = "resolves-to" then some resolvesTo
  else if s = "ref/imports" then some refImports
  else if s = "is-implementation" then some isImplementation
  else if s = "overrides" then some overrides
  else if s = "ffi/call" then some ffiCall
  else if s = "configures" then some configures
  else if s = "external-dependency" then some externalDependency
  else none

theorem fromStr_asStr (k : EdgeKind) : fromStr k.asStr = some k := by
  cases k <;> decide

theorem asStr_injective : Function.Injective asStr := by
  intro a b h
  have := fromStr_asStr b
  rw [← h, fromStr_asStr] at this
  exact Option.some.inj this

def pprWeight : EdgeKind → ℚ
  | refCall => 1
  | refField => 1 / 2
  | definesBinding => 7 / 10
  | exports => 3 / 5
  | depends => 1 / 2
  | resolvesTo => 1 / 2
  | refImports => 2 / 5
  | isImplementation => 2 / 5
  | overrides => 3 / 10
  | ffiCall => 17 / 20
  | configures => 7 / 20
  | externalDependency => 3 / 10

theorem pprWeight_pos (k : EdgeKind) : 0 < k.pprWeight := by
  cases k <;> norm_num [pprWeight]

end EdgeKind

inductive TestRole where
  | none
  | entryPoint
  | support
  deriving DecidableEq, Repr

def TestRole.asI64 : TestRole → Nat
  | none => 0
  | entryPoint => 1
  | support => 2

structure Node where
  id : NodeId
  vname : VName
  kind : String
  package : String
  line : Option Nat
  endLine : Option Nat
  testRole : TestRole
  deriving DecidableEq, Repr

/-- A typed edge; `provenance` is filled in by the readers only. -/
structure Edge where
  src : NodeId
  dst : NodeId
  kind : EdgeKind
  confidence : Option Nat
  provenance : Option String
  deriving DecidableEq, Repr

/-- A reference occurrence to be attributed to its enclosing definition. -/
structure ScipRef where
  callerPath : String
  callerLine : Nat
  calleeId : NodeId
  isCall : Bool
  callerCol : Option Nat
  deriving DecidableEq, Repr

/-- A reference occurrence whose target is known by the place of its definition. -/
structure LsifPositionalRef where
  callerPath : String
  callerLine : Nat
  calleeDefPath : String
  calleeDefLine : Nat
  isCall : Bool
  callerCol : Option Nat
  /-- The identifier at the place, where the file could be read. -/
  calleeName : Option String
  deriving DecidableEq, Repr

/-- A call or field access whose target the extractor does not know. -/
structure UnresolvedCall where
  src : NodeId
  calleeSig : String
  /-- A second exact signature, for a call whose shape fits two kinds of nodes. -/
  altCalleeSig : Option String
  /-- The last segment of a qualifier. -/
  hintCrate : Option String
  callerLine : Nat
  callerCol : Option Nat
  isMethodCall : Bool
  recvType : Option String
  deriving DecidableEq, Repr

/-- An `extends` or `implements` clause. -/
structure InheritanceRef where
  baseName : String
  line : Nat
  deriving DecidableEq, Repr

/-- What the program takes from outside: its two digests and Unicode's alphanumeric table. -/
structure Env where
  vnameId : VName → NodeId
  sha256 : String → String
  isAlphanumeric : Char → Bool

/-- `Node::new`. -/
def Node.new (env : Env) (vname : VName) (kind : String) : Node where
  id := env.vnameId vname
  vname := vname
  kind := kind
  package := ""
  line := none
  endLine := none
  testRole := .none

end Travsr.Core

namespace Travsr.Core.Noise

open Text

/-- A SCIP anonymous local: the signature ends in `local` and a number. -/
def isScipAnonymousLocal (sig : String) : Bool :=
  match afterLast "local ".toList sig.toList with
  | some suffix => !suffix.isEmpty && suffix.all Char.isDigit
  | none => false

def isNoiseNode (node : Node) : Bool :=
  let p := node.vname.path
  ["third_party/", "vendor/", "node_modules/"].any (startsWith p) ||
  contains p "/node_modules/" ||
  startsWith p "../" ||
  ["/Library/Caches/", "/.cache/", "/go-build/", "/go/pkg/mod/"].any (contains p) ||
  isScipAnonymousLocal node.vname.signature

def noiseInfixes : List String :=
  ["/tests/", "/benches/", "/fixtures/", "/fuzz/", "/_test/", "/target/debug/",
    "/target/release/", "/node_modules/", "/testdata/", "/__pycache__/", "/src/test/java/",
    "/src/test/kotlin/", "/src/test/scala/", "/build/classes/", "/build/generated/",
    "/target/classes/", "/target/generated-sources/", "/target/scala-", "/spec/",
    "/vendor/bundle/", "/CMakeFiles/", "/_deps/", "/.dart_tool/", "/.pub-cache/",
    "/obj/Debug/", "/obj/Release/", "/bin/Debug/", "/bin/Release/"]

def noisePrefixes : List String :=
  ["fixtures/", "fuzz/", "tests/", "benches/", "testdata/", "src/test/java/",
    "src/test/kotlin/", "src/test/scala/", "build/classes/", "build/generated/", "spec/",
    "obj/Debug/", "obj/Release/", "bin/Debug/", "bin/Release/"]

def noiseSuffixes : List String :=
  ["_test.go", ".pyc", ".class", ".o", ".obj", ".AssemblyInfo.cs", ".GlobalUsings.g.cs"]

def isStructuralNoise (node : Node) : Bool :=
  let p := node.vname.path
  isNoiseNode node ||
  node.kind == "doc-chunk" ||
  node.kind == "crate" ||
  startsWith node.vname.signature "scip:" ||
  noiseInfixes.any (contains p) ||
  noisePrefixes.any (startsWith p) ||
  noiseSuffixes.any (endsWith p) ||
  (contains p "/dist/" && endsWith p ".js") ||
  (contains p "/vendor/" && endsWith p ".php")

end Travsr.Core.Noise
