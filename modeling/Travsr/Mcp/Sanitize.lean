import Mathlib.Data.List.DropRight
import Travsr.Core.Text
import Travsr.Lib.Scan

open Travsr.Core.Text Scan

namespace Travsr.Mcp

/-- What the redactor takes from outside: the extended grapheme clusters of a text, and
`char::is_alphanumeric`. -/
structure Unicode where
  graphemes : List Char → List (List Char)
  isAlphanumeric : Char → Bool

def isAsciiPunctuation (c : Char) : Bool :=
  (33 ≤ c.toNat && c.toNat ≤ 47) || (58 ≤ c.toNat && c.toNat ≤ 64) ||
    (91 ≤ c.toNat && c.toNat ≤ 96) || (123 ≤ c.toNat && c.toNat ≤ 126)

def isIdentByte (c : Char) : Bool := c.isAlphanum || c == '_'

variable (u : Unicode)

def isUsernameMaterialBase (c : Char) : Bool :=
  u.isAlphanumeric c || c == '_' || c == '-' || c == '.'

/-- The length of the clusters before the first one whose base is no username material. -/
def usernameRun : List (List Char) → Nat
  | [] => 0
  | g :: gs =>
    if g.head?.any (isUsernameMaterialBase u) then g.length + usernameRun gs else 0

def usernameRunEnd (after : List Char) : Nat :=
  let run := usernameRun u (u.graphemes after)
  if run = 0 then
    -- fail closed: a token that is not all punctuation may be an exotic user name
    let candidate := after.takeWhile fun c => c != '/' && !isWhitespace c
    if candidate.all isAsciiPunctuation then 0 else candidate.length
  else run

/-- The user name after a marker gives `~`, with the slash that follows. -/
def replaceUser (after : List Char) : List Char × List Char :=
  let tail := after.drop (usernameRunEnd u after)
  if tail.head? = some '/' then (['~', '/'], tail.drop 1) else (['~'], tail)

def redactUnixHomeRun (s marker : List Char) : List Char := replaceEach marker (replaceUser u) s

def redactWindowsHomeRunLoop (marker : List Char) : Nat → List Char → List Char
  | 0, rest => rest
  | fuel + 1, rest =>
    match splitOnce marker rest with
    | none => rest
    | some (before, after) =>
      let kept := if before.getLast?.any Char.isAlpha then before.dropLast else before
      let tail := after.drop (usernameRunEnd u after)
      kept ++ '~' :: '/' :: redactWindowsHomeRunLoop marker fuel
        (if tail.head? = some (marker.getLastD '\\') then tail.drop 1 else tail)

/-- `redact_windows_home_run`: the drive letter goes with the marker. -/
def redactWindowsHomeRun (s marker : List Char) : List Char :=
  redactWindowsHomeRunLoop u marker s.length s

def atBoundary (after : List Char) : Bool :=
  after.isEmpty || after.head? == some '/' || after.head? == some '\\'

def replaceHome (home after : List Char) : List Char × List Char :=
  if atBoundary after then (['~'], after) else (home, after)

def replaceHomePrefixAtBoundary (s home : List Char) : List Char :=
  replaceEach home (replaceHome home) s

def homeMarker : List Char := ['/', 'h', 'o', 'm', 'e', '/']

def usersMarker : List Char := ['/', 'U', 's', 'e', 'r', 's', '/']

/-- `redact_home_paths`, with the home directory the process sees. -/
def redactHomePaths (homeDir : Option (List Char)) (s : List Char) : List Char :=
  let out :=
    match homeDir with
    | some home => if home.isEmpty then s else replaceHomePrefixAtBoundary s home
    | none => s
  let out := redactUnixHomeRun u out homeMarker
  let out := redactUnixHomeRun u out usersMarker
  let out := redactWindowsHomeRun u out ":\\Users\\".toList
  redactWindowsHomeRun u out ":/Users/".toList

def redacted : List Char := "[redacted]".toList

def redactBearerTokensLoop : Nat → List Char → List Char
  | 0, rest => rest
  | fuel + 1, rest =>
    match splitOnce "bearer ".toList (rest.map Char.toLower) with
    | none => rest
    | some (before, _) =>
      let after := rest.drop (before.length + 7)
      rest.take before.length ++ ("Bearer ".toList ++ redacted) ++
        redactBearerTokensLoop fuel (after.dropWhile fun c => !isWhitespace c)

def redactBearerTokens (s : List Char) : List Char := redactBearerTokensLoop s.length s

def TOKEN_PREFIXES : List (List Char) :=
  ["ghp_".toList, "gho_".toList, "ghu_".toList, "ghs_".toList, "ghr_".toList,
    "github_pat_".toList, "AKIA".toList, "xoxa-".toList, "xoxb-".toList, "xoxp-".toList,
    "xoxs-".toList, "xoxr-".toList, "sk-".toList]

/-- Where `pat` first begins without an identifier byte before it. -/
def findBoundaryOk (pat : List Char) (before : Option Char) : List Char → Option Nat
  | [] => none
  | c :: cs =>
    if pat.isPrefixOf (c :: cs) && !before.any isIdentByte then some 0
    else (findBoundaryOk pat (some c) cs).map (· + 1)

def nextToken (s : List Char) : Option (Nat × List Char) :=
  (TOKEN_PREFIXES.filterMap fun pat => (findBoundaryOk pat none s).map fun idx => (idx, pat)).foldl
    (fun best hit =>
      match best with
      | none => some hit
      | some b => if hit.1 < b.1 then some hit else some b) none

def redactPrefixedTokensLoop : Nat → List Char → List Char
  | 0, rest => rest
  | fuel + 1, rest =>
    match nextToken rest with
    | none => rest
    | some (idx, pat) =>
      let after := rest.drop (idx + pat.length)
      rest.take idx ++ redacted ++
        redactPrefixedTokensLoop fuel (after.dropWhile fun c => c.isAlphanum || c == '_' || c == '-')

def redactPrefixedTokens (s : List Char) : List Char := redactPrefixedTokensLoop s.length s

def privateKeyMarker : List Char := "-----BEGIN".toList

/-- A header is written over up to its suffix; a marker without one stays. -/
def replaceHeader (after : List Char) : List Char × List Char :=
  match splitOnce "PRIVATE KEY-----".toList after with
  | some (_, rest) => (redacted, rest)
  | none => (privateKeyMarker, after)

def redactPrivateKeyHeaders (s : List Char) : List Char :=
  replaceEach privateKeyMarker replaceHeader s

def SENSITIVE_KEY_NAMES : List (List Char) :=
  ["key".toList, "token".toList, "secret".toList, "password".toList, "passwd".toList,
    "authorization".toList, "api_key".toList]

def isSensitiveKey (key : List Char) : Bool :=
  SENSITIVE_KEY_NAMES.any fun name => key.map Char.toLower == name

def redactKeyValuePairsLoop : Nat → List Char → List Char
  | 0, rest => rest
  | fuel + 1, rest =>
    match splitOnce ['='] rest with
    | none => rest
    | some (before, value) =>
      before ++ '=' ::
        if !isSensitiveKey (before.rtakeWhile isIdentByte) then redactKeyValuePairsLoop fuel value
        else if value.head? = some '"' then
          match splitOnce ['"'] (value.drop 1) with
          | some (_, rest) => '"' :: redacted ++ '"' :: redactKeyValuePairsLoop fuel rest
          | none => '"' :: redacted
        else redacted ++ redactKeyValuePairsLoop fuel (value.dropWhile fun c => !isWhitespace c)

def redactKeyValuePairs (s : List Char) : List Char := redactKeyValuePairsLoop s.length s

def redactSensitive (homeDir : Option (List Char)) (s : List Char) : List Char :=
  let s := redactHomePaths u homeDir s
  let s := redactBearerTokens s
  let s := redactPrefixedTokens s
  let s := redactPrivateKeyHeaders s
  redactKeyValuePairs s

end Travsr.Mcp
