import Mathlib.Data.List.DropRight
import Travsr.Core.Ascii
import Travsr.Lib.StackWalk

namespace Travsr.Core

open Text StackWalk

/-! ### Importer-relative paths -/

/-- `replace('\\', "/")`. -/
def slashed (s : List Char) : List Char := s.map fun c => if c = '\\' then '/' else c

def joinSlash (parts : List (List Char)) : List Char := List.intercalate ['/'] parts

/-- A piece that `Path::components` keeps wherever it stands. -/
def isNamed (w : List Char) : Bool := w ≠ [] ∧ w ≠ ['.']

/-- The pieces that stand before the last component, those that name nothing trimmed at the end. -/
def dropComponent (body : List (List Char)) : Option (List (List Char)) :=
  match body.rdropWhile fun w => !isNamed w with
  | [] => none
  | w :: ws => some ((w :: ws).dropLast.rdropWhile fun w => !isNamed w)

/-- The pieces of `Path::parent`. A leading slash is the root, and a leading `.` counts. -/
def parentPieces : List (List Char) → Option (List (List Char))
  | [] => none
  | head :: body =>
    if head = [] ∧ body ≠ [] then
      (dropComponent body).map fun rest => [] :: (if rest = [] then [[]] else rest)
    else if head = ['.'] then
      if body.all fun w => !isNamed w then some [[]]
      else (dropComponent body).map fun rest => head :: rest
    else (dropComponent (head :: body)).map fun rest => if rest = [] then [[]] else rest

/-- `Path::parent`. -/
def pathParent (fp : List Char) : Option (List Char) :=
  (parentPieces (splitOn (· = '/') fp)).map joinSlash

/-- `file_parent_dir`. -/
def fileParentDir (fp : List Char) : List Char :=
  slashed (((pathParent fp).filter fun d => d ≠ [] ∧ d ≠ ['.']).getD [])

def segmentMove (seg : List Char) : Move (List Char) :=
  if seg = [] ∨ seg = ['.'] then .stay
  else if seg = ['.', '.'] then .up
  else .down seg

def importerParts (importerPath : List Char) : List (List Char) :=
  let dir := fileParentDir (slashed importerPath)
  if dir = [] then [] else splitOn (· = '/') dir

/-- `resolve_relative_to_importer`. -/
def resolveRelativeToImporter (importerPath spec : List Char) : Option (List Char) :=
  (walk (importerParts importerPath) ((splitOn (· = '/') (slashed spec)).map segmentMove)).map
    joinSlash

/-- `trim_matches('"')`. -/
def trimQuotes (s : List Char) : List Char := (s.dropWhile (· = '"')).rdropWhile (· = '"')

/-- `CppResolver::resolves_to`. -/
def CppResolver.resolvesTo (importSig importerPath targetPath : List Char) : Bool :=
  match stripPrefix "import:" importSig with
  | none => false
  | some inc =>
    if inc.head? = some '<' then false
    else
      match resolveRelativeToImporter importerPath (trimQuotes inc) with
      | some resolved => slashed targetPath = resolved
      | none => false

def rb : List Char := ['.', 'r', 'b']

def stripRb (spec : List Char) : List Char :=
  if rb.isSuffixOf spec then spec.take (spec.length - rb.length) else spec

/-- `RubyResolver::resolves_to`. -/
def RubyResolver.resolvesTo (importSig importerPath targetPath : List Char) : Bool :=
  match stripPrefix "import:" importSig with
  | none => false
  | some spec =>
    if "gem:".toList.isPrefixOf spec then false
    else
      match resolveRelativeToImporter importerPath (stripRb spec) with
      | none => false
      | some resolved => slashed targetPath = resolved ++ rb

/-! ### Lexical normalisation -/

def isSeparator (c : Char) : Bool := c = '/' || c = '\\'

/-- The directory a file stands in: the components of its path but the last. -/
def directory (path : List Char) : List (List Char) :=
  ((splitOn isSeparator path).filter isNamed).dropLast

/-- The importer's directory and the specifier one behind the other, `.` and `..` cancelled; none
when a `..` is left at the root. -/
def lexical (importerPath spec : List Char) : Option (List (List Char)) :=
  let left := reduce ((directory importerPath ++ splitOn isSeparator spec).map segmentMove)
  if left.1 = 0 then some left.2 else none

/-- The file that a Ruby specifier names: the extension is added where the specifier has none. -/
def lexicalRb (importerPath spec : List Char) : Option (List Char) :=
  (lexical importerPath spec).map fun parts =>
    if rb.isSuffixOf spec then joinSlash parts else joinSlash parts ++ rb

/-- A segment that is a name. -/
def IsName (seg : List Char) : Prop := seg ≠ [] ∧ seg ≠ ['.'] ∧ seg ≠ ['.', '.']

/-- Every segment is a name. -/
def AllNames (segs : List (List Char)) : Prop := ∀ seg ∈ segs, IsName seg

end Travsr.Core

namespace Travsr.Core

open Text

/-! ### The import resolvers of the languages -/

def pathSuffixMatch (haystack needle : List Char) : Bool :=
  haystack = needle ∨
    (needle <:+ haystack ∧ (haystack.take (haystack.length - needle.length)).getLast? = some '/')

def dotsToSlashes (s : List Char) : List Char := s.map fun c => if c = '.' then '/' else c

/-- `trim_end_matches(".*")`, on the reversed text. -/
def trimWildcards : List Char → List Char
  | '*' :: '.' :: rest => trimWildcards rest
  | s => s

def dotLangResolvesTo (importSig filePath : List Char) (exts : List String) : Bool :=
  match stripPrefix "import:" importSig with
  | none => false
  | some raw =>
    let asSlash := dotsToSlashes (trimWildcards raw.reverse).reverse
    let fp := slashed filePath
    (exts.any fun ext => pathSuffixMatch fp (asSlash ++ ext.toList)) ||
      pathSuffixMatch (fileParentDir fp) asSlash

def GoResolver.resolvesTo (importSig filePath : List Char) : Bool :=
  match stripPrefix "import:" importSig with
  | none => false
  | some importPath =>
    let fileDir := fileParentDir (slashed filePath)
    if fileDir = [] then false
    else
      let qualified := (splitOn (· = '/') importPath).head?.any fun h => h.contains '.'
      pathSuffixMatch importPath fileDir || (qualified && pathSuffixMatch fileDir importPath)

def JavaResolver.resolvesTo (importSig filePath : List Char) : Bool :=
  dotLangResolvesTo importSig filePath [".java"]

def KotlinResolver.resolvesTo (importSig filePath : List Char) : Bool :=
  dotLangResolvesTo importSig filePath [".kt", ".kts"]

def ScalaResolver.resolvesTo (importSig filePath : List Char) : Bool :=
  dotLangResolvesTo importSig filePath [".scala", ".sc"]

def PythonResolver.resolvesTo (importSig filePath : List Char) : Bool :=
  match stripPrefix "import:" importSig with
  | none => false
  | some spec =>
    if spec.head? = some '.' then false
    else
      let asSlash := dotsToSlashes spec
      let fp := slashed filePath
      pathSuffixMatch fp (asSlash ++ ".py".toList) ||
        pathSuffixMatch fp (asSlash ++ "/__init__.py".toList) ||
        pathSuffixMatch (fileParentDir fp) asSlash

def PhpResolver.resolvesTo (importSig filePath : List Char) : Bool :=
  match stripPrefix "import:" importSig with
  | none => false
  | some importPath =>
    let asSlash := slashed importPath
    let fp := slashed filePath
    pathSuffixMatch fp (asSlash ++ ".php".toList) || pathSuffixMatch (fileParentDir fp) asSlash

def CsharpResolver.resolvesTo (importSig filePath : List Char) : Bool :=
  dotLangResolvesTo importSig filePath [".cs"]

def SwiftResolver.resolvesTo (importSig filePath : List Char) : Bool :=
  match stripPrefix "import:" importSig with
  | none => false
  | some module =>
    let fp := slashed filePath
    if ".swift".toList.isSuffixOf fp then
      (splitOn (· = '/') (fileParentDir fp)).getLast? = some module
    else false

def dartPathPart (uri : List Char) : Option (List Char) :=
  match stripPrefix "package:" uri with
  | some rest => if '/' ∈ rest then some ((rest.dropWhile (· ≠ '/')).drop 1) else none
  | none => some uri

def DartResolver.resolvesTo (importSig filePath : List Char) : Bool :=
  match stripPrefix "import:" importSig with
  | none => false
  | some uri =>
    if "dart:".toList.isPrefixOf uri then false
    else if "./".toList.isPrefixOf uri || "../".toList.isPrefixOf uri then false
    else
      match dartPathPart uri with
      | some pathPart => pathSuffixMatch (slashed filePath) pathPart
      | none => false

/-- `resolver_for_language`, applied to the signature, the importer's path and the file. The rest
have a resolver that resolves nothing. -/
def resolverForLanguage (language : String) (importSig importerPath filePath : List Char) : Bool :=
  if language = "go" then GoResolver.resolvesTo importSig filePath
  else if language = "java" then JavaResolver.resolvesTo importSig filePath
  else if language = "kotlin" then KotlinResolver.resolvesTo importSig filePath
  else if language = "scala" then ScalaResolver.resolvesTo importSig filePath
  else if language = "python" then PythonResolver.resolvesTo importSig filePath
  else if language = "php" then PhpResolver.resolvesTo importSig filePath
  else if language ∈ ["csharp", "c#", "cs"] then CsharpResolver.resolvesTo importSig filePath
  else if language ∈ ["cpp", "c++", "c"] then CppResolver.resolvesTo importSig importerPath filePath
  else if language = "swift" then SwiftResolver.resolvesTo importSig filePath
  else if language = "dart" then DartResolver.resolvesTo importSig filePath
  else if language = "ruby" then RubyResolver.resolvesTo importSig importerPath filePath
  else if language ∈ ["objectivec", "objc"] then
    CppResolver.resolvesTo importSig importerPath filePath
  else false

/-! ### The name of a path -/

/-- `Path::file_name`. -/
def pathFileName (fp : List Char) : Option (List Char) :=
  ((splitOn (· = '/') fp).filter isNamed).getLast?.filter fun w => w ≠ ['.', '.']

/-- `Path::file_stem`: a dot at the front begins no extension. -/
def pathFileStem (fp : List Char) : Option (List Char) :=
  (pathFileName fp).map fun name =>
    match rsplitOnce '.' name with
    | some (before, _) => if before = [] then name else before
    | none => name

end Travsr.Core
