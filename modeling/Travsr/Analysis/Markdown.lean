import Mathlib.Logic.Function.Basic
import Travsr.Core.RelativeImport

namespace Travsr.Analysis

open Travsr.Core Travsr.Core.Text

def MERGE_UP_CHARS : Nat := 400

def SPLIT_CHARS : Nat := 2600

def HARD_SPLIT_CHARS : Nat := SPLIT_CHARS + SPLIT_CHARS / 2

def FENCE_ELIDE_THRESHOLD_LINES : Nat := 40

def FENCE_KEEP_LINES : Nat := 10

def SLUG_SEGMENT_MAX_CHARS : Nat := 48

def SLUG_TRAIL_MAX_CHARS : Nat := 160

abbrev Line := List Char

structure Chunk where
  anchor : List Char
  lineStart : Nat
  lineEnd : Nat
  embedText : List Char
  deriving DecidableEq, Repr

/-! ### Lines by their numbers -/

/-- `lines[ln - 1]`: nothing where the index is out of range. -/
def lineAt (lines : List Line) (ln : Nat) : Option Line := if ln = 0 then none else lines[ln - 1]?

def readLines (lines : List Line) (first last : Nat) : Option (List (Nat × Line)) :=
  (List.range' first (last + 1 - first)).mapM fun ln => (lineAt lines ln).map fun line => (ln, line)

def lineChars (line : Nat × Line) : Nat := line.2.length + 1

def rawCharLen (lines : List Line) (first last : Nat) : Option Nat :=
  if last < first then some 0 else (readLines lines first last).map fun l => (l.map lineChars).sum

/-! ### Fences and headings -/

def fenceOpen (trimmed : Line) : Option (Char × Nat) :=
  match trimmed with
  | [] => none
  | fchar :: _ =>
    if fchar ≠ Char.ofNat 0x60 ∧ fchar ≠ '~' then none
    else
      let run := (trimmed.takeWhile (· = fchar)).length
      if 3 ≤ run then some (fchar, run) else none

def isFenceClose (trimmed : Line) (fchar : Char) (openLen : Nat) : Bool :=
  let run := (trimmed.takeWhile (· = fchar)).length
  trimmed.head? = some fchar && openLen ≤ run && (trimmed.drop run).all isWhitespace

def atxHeading (trimmed : Line) : Option (Nat × Line) :=
  let hashes := (trimmed.takeWhile (· = '#')).length
  let rest := trimmed.drop hashes
  if hashes = 0 ∨ 6 < hashes then none
  else if rest ≠ [] ∧ rest.head? ≠ some ' ' ∧ rest.head? ≠ some '\t' then none
  else some (hashes, ((trimChars rest).rdropWhile (· = '#')).rdropWhile isWhitespace)

def setextUnderline (trimmed : Line) : Option Nat :=
  if trimmed ≠ [] ∧ trimmed.all (· = '=') then some 1
  else if trimmed ≠ [] ∧ trimmed.all (· = '-') then some 2
  else none

structure RawHeading where
  level : Nat
  text : Line
  line : Nat
  deriving DecidableEq, Repr

structure ScanState where
  fence : Option (Char × Nat)
  pendingPara : Option (Nat × Line)
  headings : List RawHeading
  deriving DecidableEq, Repr

def scanLine (st : ScanState) (i : Nat) (line : Line) : ScanState :=
  let trimmed := trimChars line
  match st.fence with
  | some (fchar, flen) =>
    { st with
      fence := if isFenceClose trimmed fchar flen then none else some (fchar, flen)
      pendingPara := none }
  | none =>
    match fenceOpen trimmed with
    | some opened => { st with fence := some opened, pendingPara := none }
    | none =>
      if trimmed = [] then { st with pendingPara := none }
      else
        match atxHeading trimmed with
        | some (level, text) =>
          { st with headings := st.headings ++ [⟨level, text, i + 1⟩], pendingPara := none }
        | none =>
          match setextUnderline trimmed, st.pendingPara with
          | some level, some (paraLine, paraText) =>
            { st with headings := st.headings ++ [⟨level, paraText, paraLine⟩], pendingPara := none }
          | _, _ => { st with pendingPara := some (i + 1, trimmed) }

/-! ### Front matter -/

def MAX_SCAN : Nat := 200

def trimMatches (c : Char) (s : Line) : Line := (s.dropWhile (· = c)).rdropWhile (· = c)

def isFrontMatterEnd (line : Line) : Bool :=
  trimChars line = "---".toList ∨ trimChars line = "...".toList

def titleOf (line : Line) : Option Line :=
  let t := trimChars line
  ((stripPrefix "title:" t).orElse fun _ => stripPrefix "Title:" t).bind fun rest =>
    let v := trimMatches (Char.ofNat 0x27) (trimMatches '"' (trimChars rest))
    if v = [] then none else some v

def frontMatterFrom (title : Option Line) (offset : Nat) : List Line → Option (Option Line × Nat)
  | [] => none
  | line :: rest =>
    if isFrontMatterEnd line then some (title, offset + 1)
    else frontMatterFrom ((titleOf line).orElse fun _ => title) (offset + 1) rest

def scanFrontMatter (lines : List Line) : Option Line × Nat :=
  if lines.head?.map trimChars ≠ some "---".toList then (none, 0)
  else (frontMatterFrom none 1 ((lines.drop 1).take MAX_SCAN)).getD (none, 0)

structure ScanResult where
  frontMatterTitle : Option Line
  contentStart : Nat
  headings : List RawHeading
  totalLines : Nat

def scanFrom (st : ScanState) (i : Nat) (lines : List Line) : ScanState :=
  (lines.zipIdx i).foldl (fun st p => scanLine st p.2 p.1) st

def ScanResult.scan (lines : List Line) : ScanResult :=
  let front := scanFrontMatter lines
  { frontMatterTitle := front.1
    contentStart := front.2
    headings := (scanFrom ⟨none, none, []⟩ front.2 (lines.drop front.2)).headings
    totalLines := lines.length }

/-! ### Sections -/

structure Section where
  trail : List Line
  lineStart : Nat
  lineEnd : Nat
  isPreamble : Bool
  deriving DecidableEq, Repr

def isStrictPrefix (a b : List Line) : Bool :=
  a ≠ [] && a.length < b.length && (a.zip b).all fun (x, y) => x = y

/-- Whether some line of the range is not blank; later lines are not read. -/
def anyNonBlank (lines : List Line) (first last : Nat) : Option Bool :=
  (List.range' first (last + 1 - first)).anyM fun ln =>
    (lineAt lines ln).map fun line => trimChars line ≠ []

def preamble (doc : ScanResult) (lines : List Line) : Option (List Section) :=
  let preambleStart := doc.contentStart + 1
  let preambleEnd := (doc.headings.head?.map fun h => h.line - 1).getD doc.totalLines
  let found :=
    if preambleStart ≤ preambleEnd ∧ preambleStart ≤ doc.totalLines then
      anyNonBlank lines preambleStart preambleEnd
    else some false
  found.map fun found => if found then [⟨[], preambleStart, preambleEnd, true⟩] else []

def extendLast (output : List Section) (sectionEnd : Nat) : List Section :=
  match output.getLast? with
  | some last => output.dropLast ++ [{ last with lineEnd := sectionEnd }]
  | none => []

def sectionsFrom (doc : ScanResult) (lines : List Line) (stack : List (Nat × Line))
    (output : List Section) : List RawHeading → Option (List Section)
  | [] => some output
  | h :: rest =>
    let stack := stack.rdropWhile fun entry => h.level ≤ entry.1
    let trail := stack.map Prod.snd ++ [h.text]
    let isLeaf := (rest.head?.map fun next => decide (next.level ≤ h.level)).getD true
    let sectionEnd := (rest.head?.map fun next => next.line - 1).getD doc.totalLines
    let mergeTarget := output.getLast?.filter fun s => !s.isPreamble && isStrictPrefix s.trail trail
    (if h.line < sectionEnd then rawCharLen lines (h.line + 1) sectionEnd else some 0).bind
      fun bodyLen =>
        sectionsFrom doc lines (stack ++ [(h.level, h.text)])
          (if isLeaf && bodyLen < MERGE_UP_CHARS && mergeTarget.isSome then
            extendLast output sectionEnd
          else output ++ [⟨trail, h.line, sectionEnd, false⟩]) rest

def buildSections (doc : ScanResult) (lines : List Line) : Option (List Section) :=
  (preamble doc lines).bind fun output => sectionsFrom doc lines [] output doc.headings

/-! ### Splitting -/

structure BlockState where
  fence : Option (Char × Nat)
  blockStart : Option Nat
  blocks : List (Nat × Nat)
  deriving DecidableEq, Repr

def blockLine (st : BlockState) (numbered : Nat × Line) : BlockState :=
  let ln := numbered.1
  let trimmed := trimChars numbered.2
  match st.fence with
  | some (fchar, flen) =>
    { st with
      fence := if isFenceClose trimmed fchar flen then none else some (fchar, flen)
      blockStart := some (st.blockStart.getD ln) }
  | none =>
    match fenceOpen trimmed with
    | some opened => { st with fence := some opened, blockStart := some (st.blockStart.getD ln) }
    | none =>
      if trimmed = [] then
        match st.blockStart with
        | some s => { st with blockStart := none, blocks := st.blocks ++ [(s, ln - 1)] }
        | none => st
      else { st with blockStart := some (st.blockStart.getD ln) }

def paragraphBlocks (lines : List Line) (first last : Nat) : Option (List (Nat × Nat)) :=
  (readLines lines first last).map fun l =>
    let st := l.foldl blockLine ⟨none, none, []⟩
    let blocks :=
      match st.blockStart with
      | some s => st.blocks ++ [(s, last)]
      | none => st.blocks
    if blocks = [] then [(first, last)] else blocks

structure HardCut where
  curStart : Nat
  curChars : Nat
  pieces : List (Nat × Nat)
  deriving DecidableEq, Repr

def hardCutLine (st : HardCut) (numbered : Nat × Line) : HardCut :=
  let ln := numbered.1
  let llen := lineChars numbered
  if SPLIT_CHARS < st.curChars + llen ∧ st.curStart < ln then
    ⟨ln, llen, st.pieces ++ [(st.curStart, ln - 1)]⟩
  else { st with curChars := st.curChars + llen }

def hardSplitBlock (lines : List Line) (first last : Nat) : Option (List (Nat × Nat)) :=
  (readLines lines first last).map fun l =>
    let st := l.foldl hardCutLine ⟨first, 0, []⟩
    st.pieces ++ [(st.curStart, last)]

structure Bins where
  pieces : List (Nat × Nat)
  binStart : Option Nat
  binChars : Nat
  deriving DecidableEq, Repr

def Bins.flush (st : Bins) (bstart : Nat) : Bins :=
  match st.binStart with
  | some s => ⟨st.pieces ++ [(s, max (bstart - 1) s)], none, 0⟩
  | none => st

def binBlock (lines : List Line) (st : Bins) (block : Nat × Nat) : Option Bins :=
  (rawCharLen lines block.1 block.2).bind fun blen =>
    if HARD_SPLIT_CHARS ≤ blen then
      (hardSplitBlock lines block.1 block.2).map fun cut =>
        { st.flush block.1 with pieces := (st.flush block.1).pieces ++ cut }
    else
      match st.binStart with
      | none => some { st with binStart := some block.1, binChars := blen }
      | some _ =>
        if SPLIT_CHARS < st.binChars + blen then
          some { st.flush block.1 with binStart := some block.1, binChars := blen }
        else some { st with binChars := st.binChars + blen }

def stitch (last : Nat) : List (Nat × Nat) → List (Nat × Nat)
  | [] => []
  | [(a, _)] => [(a, last)]
  | (a, _) :: (b, e) :: rest => (a, max (b - 1) a) :: stitch last ((b, e) :: rest)

def stitchRanges (pieces : List (Nat × Nat)) (first last : Nat) : List (Nat × Nat) :=
  match pieces with
  | [] => [(first, last)]
  | (_, e) :: rest => stitch last ((first, e) :: rest)

def splitSection (lines : List Line) (first last : Nat) : Option (List (Nat × Nat)) :=
  if last < first then some [(first, last)]
  else
    (rawCharLen lines first last).bind fun totalChars =>
      if totalChars ≤ SPLIT_CHARS then some [(first, last)]
      else
        (paragraphBlocks lines first last).bind fun blocks =>
          (blocks.foldlM (binBlock lines) ⟨[], none, 0⟩).map fun st =>
            stitchRanges
              (match st.binStart with
                | some s => st.pieces ++ [(s, last)]
                | none => st.pieces)
              first last

/-! ### Embedded text -/

def elisionMarker (elided : Nat) : Line :=
  "… (".toList ++ (toString elided).toList ++ " more lines elided)".toList

/-- The lines behind the one that opens a fence, of which the last one closes it. -/
def elidedBlock (block : List Line) : List Line :=
  if FENCE_ELIDE_THRESHOLD_LINES ≤ block.length + 1 then
    let elided := block.length - 1 - FENCE_KEEP_LINES
    block.dropLast.take FENCE_KEEP_LINES ++ (if 0 < elided then [elisionMarker elided] else []) ++
      block.getLast?.toList
  else block

def fenceReach (fchar : Char) (flen : Nat) (rest : List Line) : Nat :=
  match rest.findIdx? fun line => isFenceClose (trimChars line) fchar flen with
  | some k => k + 1
  | none => rest.length

/-- The loop of `elided_body`; the fuel is the number of lines. -/
def elideLines : Nat → List Line → List Line
  | 0, _ => []
  | _, [] => []
  | fuel + 1, line :: rest =>
    match fenceOpen (trimChars line) with
    | none => line :: elideLines fuel rest
    | some (fchar, flen) =>
      line :: elidedBlock (rest.take (fenceReach fchar flen rest)) ++
        elideLines fuel (rest.drop (fenceReach fchar flen rest))

def elidedBody (lines : List Line) (first last : Nat) : Option Line :=
  if last < first then some []
  else
    (readLines lines first last).map fun l =>
      trimChars (List.intercalate ['\n'] (elideLines l.length (l.map Prod.snd)))

/-! ### Chunks -/

section chunks

variable (isAlphanumeric : Char → Bool)

/-- One turn of the slug loop; the flag tells whether the last character is a dash. -/
def slugChar (st : Line × Bool) (c : Char) : Line × Bool :=
  if isAlphanumeric c then (st.1 ++ [c.toLower], false)
  else if st.2 = false ∧ st.1 ≠ [] then (st.1 ++ ['-'], true)
  else st

def slugifySegment (text : Line) : Line :=
  let slug := (text.foldl (slugChar isAlphanumeric) ([], false)).1.rdropWhile (· = '-')
  let slug := if slug = [] then "section".toList else slug
  if SLUG_SEGMENT_MAX_CHARS < slug.length then
    (slug.take SLUG_SEGMENT_MAX_CHARS).rdropWhile (· = '-')
  else slug

def slugifyTrail (trail : List Line) : Line :=
  let joined := List.intercalate ['/'] (trail.map (slugifySegment isAlphanumeric))
  if joined.length ≤ SLUG_TRAIL_MAX_CHARS then joined else joined.take SLUG_TRAIL_MAX_CHARS

def baseAnchor (s : Section) : Line :=
  if s.isPreamble then "_preamble".toList else slugifyTrail isAlphanumeric s.trail

/-- The anchor of the section with this many of its base so far, itself included. -/
def countedAnchor (base : Line) (count : Nat) : Line :=
  if count = 1 then base else base ++ '~' :: (toString count).toList

def pieceAnchor (anchor : Line) (pieceIdx : Nat) : Line :=
  if pieceIdx = 0 then anchor else anchor ++ '#' :: (toString (pieceIdx + 1)).toList

def docTitle (doc : ScanResult) (vnamePath : Line) : Line :=
  (doc.frontMatterTitle.orElse fun _ =>
    (doc.headings.find? fun h => h.level = 1).map RawHeading.text).getD
      ((pathFileStem vnamePath).getD "untitled".toList)

def chunkHeader (title vnamePath : Line) (s : Section) : Line :=
  "doc: ".toList ++ List.intercalate " > ".toList (title :: s.trail) ++ " | path: ".toList ++ vnamePath

def Section.bodyFrom (s : Section) : Nat := if s.isPreamble then s.lineStart else s.lineStart + 1

def pieceChunk (lines : List Line) (header anchor : Line) (s : Section) (piece : Nat × Nat)
    (pieceIdx : Nat) : Option Chunk :=
  (elidedBody lines piece.1 piece.2).map fun body =>
    { anchor := pieceAnchor anchor pieceIdx
      lineStart := if pieceIdx = 0 then s.lineStart else piece.1
      lineEnd := piece.2
      embedText := if body = [] then header else header ++ '\n' :: body }

def sectionChunks (lines : List Line) (header anchor : Line) (s : Section) : Option (List Chunk) :=
  (splitSection lines s.bodyFrom s.lineEnd).bind fun pieces =>
    pieces.zipIdx.mapM fun piece => pieceChunk lines header anchor s piece.1 piece.2

/-- The loop over the sections; `counts` is `anchor_counts`. -/
def chunksFrom (lines : List Line) (title vnamePath : Line) (counts : Line → Nat) :
    List Section → Option (List Chunk)
  | [] => some []
  | s :: rest =>
    let base := baseAnchor isAlphanumeric s
    let count := counts base + 1
    (sectionChunks lines (chunkHeader title vnamePath s) (countedAnchor base count) s).bind
      fun chunks =>
        (chunksFrom lines title vnamePath (Function.update counts base count) rest).map
          (chunks ++ ·)

def buildChunks (doc : ScanResult) (lines : List Line) (vnamePath : Line) : Option (List Chunk) :=
  if lines = [] then some []
  else
    (buildSections doc lines).bind fun sections =>
      chunksFrom isAlphanumeric lines (docTitle doc vnamePath) vnamePath (fun _ => 0) sections

def stripBom (text : String) : String :=
  match stripPrefix "\uFEFF" text.toList with
  | some rest => String.ofList rest
  | none => text

/-- `chunk_markdown`: nothing where an index into the lines is out of range. -/
def chunkMarkdown (text vnamePath : String) : Option (List Chunk) :=
  let docLines := lines (stripBom text)
  buildChunks isAlphanumeric (ScanResult.scan docLines) docLines vnamePath.toList

end chunks

end Travsr.Analysis
