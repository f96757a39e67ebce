import Travsr.Analysis.MarkdownSplit
import Travsr.Core.Pieces
import Travsr.Lib.Linearisation

namespace Travsr.Analysis

open Travsr.Core Travsr.Core.Text

variable {lines : List Line} {start a last : Nat}

/-! ### Sections -/

def Section.span (s : Section) : Nat × Nat := (s.lineStart, s.lineEnd)

/-- A section in its place: its body begins outside the fences. -/
structure Section.Placed (lines : List Line) (start : Nat) (s : Section) : Prop where
  within : start < s.lineStart ∧ s.lineStart ≤ s.lineEnd ∧ s.lineEnd ≤ lines.length
  head : fenceBefore lines start s.lineStart = none
  body : fenceBefore lines start s.bodyFrom = none

theorem Section.bodyFrom_le (s : Section) : s.lineStart ≤ s.bodyFrom ∧ s.bodyFrom ≤ s.lineStart + 1 := by
  unfold bodyFrom
  split_ifs <;> omega

def endBefore (total : Nat) (headings : List RawHeading) : Nat :=
  (headings.head?.map fun h => h.line - 1).getD total

theorem Headings.tail {h : RawHeading} {rest : List RawHeading}
    (hh : Headings lines start last (h :: rest)) : Headings lines start last rest :=
  ⟨(List.forall_mem_cons.mp hh.within).2, (List.forall_mem_cons.mp hh.level).2,
    (List.forall_mem_cons.mp hh.outside).2, (List.pairwise_cons.mp hh.increasing).2⟩

theorem Headings.endBefore_le {headings : List RawHeading} (hh : Headings lines start last headings) :
    endBefore last headings ≤ last := by
  cases headings with
  | nil => exact le_rfl
  | cons h rest => exact (Nat.sub_le _ _).trans (hh.within h List.mem_cons_self).2

theorem Headings.le_endBefore {h : RawHeading} {rest : List RawHeading}
    (hh : Headings lines start last (h :: rest)) : h.line ≤ endBefore last rest := by
  cases rest with
  | nil => exact (hh.within h List.mem_cons_self).2
  | cons next rest =>
    exact Nat.le_sub_one_of_lt ((List.pairwise_cons.mp hh.increasing).1 next List.mem_cons_self)

theorem extendLast_span {output : List Section} {s : Section} {sectionEnd b : Nat}
    (hlast : output.getLast? = some s) (htiles : Tiles (output.map Section.span) a b)
    (hle : b ≤ sectionEnd) : Tiles ((extendLast output sectionEnd).map Section.span) a sectionEnd := by
  obtain ⟨init, rfl⟩ := List.getLast?_eq_some_iff.mp hlast
  unfold extendLast
  rw [hlast]
  dsimp only
  rw [List.dropLast_concat, List.map_append]
  rw [List.map_append] at htiles
  exact htiles.grow hle

theorem extendLast_placed {output : List Section} {s : Section} {sectionEnd b : Nat}
    (hlast : output.getLast? = some s) (htiles : Tiles (output.map Section.span) a b)
    (hle : b ≤ sectionEnd) (hend : sectionEnd ≤ lines.length)
    (hplaced : ∀ s ∈ output, s.Placed lines start) :
    ∀ s ∈ extendLast output sectionEnd, s.Placed lines start := by
  have hs := htiles.bounds s.span (List.mem_map_of_mem (List.mem_of_getLast? hlast))
  have hplace := hplaced s (List.mem_of_getLast? hlast)
  unfold extendLast
  rw [hlast]
  refine List.forall_mem_append.mpr ⟨fun t ht => hplaced t (List.dropLast_subset _ ht), ?_⟩
  refine List.forall_mem_singleton.mpr ⟨⟨hplace.within.1, ?_, hend⟩, hplace.head, hplace.body⟩
  exact hs.2.1.trans (hs.2.2.trans hle)

variable {doc : ScanResult}

theorem sectionsFrom_spec (doc : ScanResult) {headings : List RawHeading} (stack : List (Nat × Line))
    {output : List Section} (htotal : doc.totalLines = lines.length)
    (hh : Headings lines start lines.length headings)
    (htiles : Tiles (output.map Section.span) a (endBefore lines.length headings))
    (hplaced : ∀ s ∈ output, s.Placed lines start) :
    ∃ sections, sectionsFrom doc lines stack output headings = some sections ∧
      Tiles (sections.map Section.span) a lines.length ∧ ∀ s ∈ sections, s.Placed lines start := by
  induction headings generalizing stack output with
  | nil => exact ⟨output, rfl, htiles, hplaced⟩
  | cons h rest ih =>
    have hline := hh.within h List.mem_cons_self
    have hle := hh.le_endBefore
    have hend := hh.tail.endBefore_le
    have hbefore : endBefore lines.length (h :: rest) = h.line - 1 := rfl
    rw [hbefore] at htiles
    have hlen : (if h.line < endBefore lines.length rest then
        rawCharLen lines (h.line + 1) (endBefore lines.length rest) else some 0) =
        some (charLen lines (h.line + 1) (endBefore lines.length rest)) := by
      split_ifs with hlt
      · exact rawCharLen_eq fun _ => ⟨Nat.succ_pos _, hend⟩
      · rw [charLen, sumLines_empty (by omega)]
    rw [sectionsFrom, htotal, ← endBefore, hlen, Option.bind_some]
    split_ifs with hmerge
    · -- a short leaf is read into the section of its ancestor
      rw [Bool.and_eq_true, Option.isSome_iff_exists] at hmerge
      obtain ⟨s, hs⟩ := hmerge.2
      have hlast := (Option.filter_eq_some_iff.mp hs).1
      exact ih _ hh.tail (extendLast_span hlast htiles (by omega))
        (extendLast_placed hlast htiles (by omega) hend hplaced)
    · refine ih _ hh.tail ?_ ?_
      · have hsingle := Tiles.single hle
        rw [List.map_append]
        refine htiles.append ?_
        rwa [Nat.sub_add_cancel (Nat.one_le_of_lt hline.1)]
      · have hout := hh.outside h List.mem_cons_self
        exact List.forall_mem_append.mpr ⟨hplaced, List.forall_mem_singleton.mpr
          ⟨⟨hline.1, hle, hend⟩, hout.1, hout.2⟩⟩

theorem anyNonBlank_eq (lines : List Line) {l : List Nat} (h : ∀ ln ∈ l, 0 < ln ∧ ln ≤ lines.length) :
    ∃ found, l.anyM (fun ln => (lineAt lines ln).map fun line => decide (trimChars line ≠ [])) = some found ∧
      (found = false → ∀ ln ∈ l, Blank lines ln) := by
  induction l with
  | nil => exact ⟨false, rfl, fun _ _ hln => (List.not_mem_nil hln).elim⟩
  | cons ln l ih =>
    obtain ⟨hln, hl⟩ := List.forall_mem_cons.mp h
    obtain ⟨found, hfound, hblank⟩ := ih hl
    rw [List.anyM_cons, lineAt_eq hln.1 hln.2, Option.map_some]
    by_cases hb : Blank lines ln
    · refine ⟨found, ?_, fun hf => List.forall_mem_cons.mpr ⟨hb, hblank hf⟩⟩
      have hdec : decide (trimChars (lineOf lines ln) ≠ []) = false := decide_eq_false (not_not_intro hb)
      rw [hdec]
      exact hfound
    · refine ⟨true, ?_, fun hf => nomatch hf⟩
      have hdec : decide (trimChars (lineOf lines ln) ≠ []) = true := decide_eq_true hb
      rw [hdec]
      rfl

theorem preamble_spec (doc : ScanResult) (htotal : doc.totalLines = lines.length) (hstart : doc.contentStart = start)
    (hle : start ≤ lines.length) (hh : Headings lines start lines.length doc.headings) :
    ∃ output, preamble doc lines = some output ∧ (∀ s ∈ output, s.Placed lines start) ∧
      ∃ a, start < a ∧ Tiles (output.map Section.span) a (endBefore lines.length doc.headings) ∧
        ∀ ln, start < ln → ln < a → Blank lines ln := by
  have hend := hh.endBefore_le
  have hstartEnd : start ≤ endBefore lines.length doc.headings := by
    cases hheads : doc.headings with
    | nil => exact hle
    | cons h rest => exact Nat.le_sub_one_of_lt (hh.within h (hheads ▸ List.mem_cons_self)).1
  unfold preamble
  rw [htotal, hstart, ← endBefore]
  dsimp only
  by_cases hcontent : start + 1 ≤ endBefore lines.length doc.headings ∧ start + 1 ≤ lines.length
  · rw [if_pos hcontent]
    unfold anyNonBlank
    obtain ⟨found, hfound, hblank⟩ := anyNonBlank_eq lines
      (l := List.range' (start + 1) (endBefore lines.length doc.headings + 1 - (start + 1)))
      fun ln hln => by have := mem_range.mp hln; omega
    rw [hfound, Option.map_some]
    cases found with
    | true =>
      refine ⟨_, rfl, ?_, start + 1, Nat.lt_succ_self start, .single hcontent.1, fun ln h1 h2 => ?_⟩
      · refine List.forall_mem_singleton.mpr ⟨⟨Nat.lt_succ_self start, hcontent.1, hend⟩, ?_, ?_⟩
        · exact fenceBefore_start
        · exact fenceBefore_start
      · exact absurd h2 (by omega)
    | false =>
      refine ⟨_, rfl, fun _ hs => (List.not_mem_nil hs).elim,
        endBefore lines.length doc.headings + 1, by omega, rfl, fun ln h1 h2 => ?_⟩
      exact hblank rfl ln (mem_range.mpr ⟨h1, Nat.le_of_lt_succ h2⟩)
  · rw [if_neg hcontent, Option.map_some]
    refine ⟨_, rfl, fun _ hs => (List.not_mem_nil hs).elim,
      endBefore lines.length doc.headings + 1, by omega, rfl, fun ln h1 h2 => ?_⟩
    exact absurd h2 (by omega)

theorem buildSections_spec (lines : List Line) :
    ∃ sections, buildSections (ScanResult.scan lines) lines = some sections ∧
      (∀ s ∈ sections, s.Placed lines (ScanResult.scan lines).contentStart) ∧
      ∃ a, (ScanResult.scan lines).contentStart < a ∧ Tiles (sections.map Section.span) a lines.length ∧
        ∀ ln, (ScanResult.scan lines).contentStart < ln → ln < a → Blank lines ln := by
  obtain ⟨output, hpre, hplaced, a, ha, htiles, hblank⟩ :=
    preamble_spec (ScanResult.scan lines) rfl rfl scan_contentStart_le scan_headings
  obtain ⟨sections, hsec, htiles, hplaced⟩ :=
    sectionsFrom_spec (ScanResult.scan lines) [] rfl scan_headings htiles hplaced
  refine ⟨sections, ?_, hplaced, a, ha, htiles, hblank⟩
  rw [buildSections, hpre, Option.bind_some, hsec]

/-! ### Chunks -/

def Chunk.span (c : Chunk) : Nat × Nat := (c.lineStart, c.lineEnd)

def Section.chunkSpan (s : Section) (piece : (Nat × Nat) × Nat) : Nat × Nat :=
  (if piece.2 = 0 then s.lineStart else piece.1.1, piece.1.2)

theorem pieceChunk_span {header anchor : Line} {s : Section} {piece : (Nat × Nat) × Nat} {c : Chunk}
    (h : pieceChunk lines header anchor s piece.1 piece.2 = some c) : c.span = s.chunkSpan piece := by
  obtain ⟨body, -, rfl⟩ := Option.map_eq_some_iff.mp h
  rfl

theorem map_of_mapM {α β γ : Type} {f : α → Option β} {g : β → γ} {k : α → γ} {l : List α} {r : List β}
    (h : l.mapM f = some r) (hf : ∀ x ∈ l, ∀ y, f x = some y → g y = k x) : r.map g = l.map k := by
  induction l generalizing r with
  | nil =>
    rw [List.mapM_nil] at h
    obtain rfl := Option.some.inj h
    rfl
  | cons x l ih =>
    obtain ⟨hx, hl⟩ := List.forall_mem_cons.mp hf
    rw [List.mapM_cons] at h
    obtain ⟨y, hy, h⟩ := Option.bind_eq_some_iff.mp h
    obtain ⟨r, hr, h⟩ := Option.bind_eq_some_iff.mp h
    obtain rfl := Option.some.inj h
    rw [List.map_cons, List.map_cons, hx y hy, ih hr hl]

theorem mapM_isSome {α β : Type} {f : α → Option β} {l : List α} (h : ∀ x ∈ l, ∃ y, f x = some y) :
    ∃ r, l.mapM f = some r := by
  induction l with
  | nil => exact ⟨[], rfl⟩
  | cons x l ih =>
    obtain ⟨⟨y, hy⟩, hl⟩ := List.forall_mem_cons.mp h
    obtain ⟨r, hr⟩ := ih hl
    rw [List.mapM_cons, hy, hr]
    exact ⟨_, rfl⟩

/-- The pieces of a section in its place. -/
structure Section.Split (lines : List Line) (start : Nat) (s : Section) (pieces : List (Nat × Nat)) : Prop where
  split : splitSection lines s.bodyFrom s.lineEnd = some pieces
  spans : Tiles (pieces.zipIdx.map s.chunkSpan) s.lineStart s.lineEnd
  good : ∀ p ∈ pieces, p.1 = s.bodyFrom ∨ Good lines start s.bodyFrom s.lineEnd p.1
  light : ∀ p ∈ pieces, Light lines start p
  within : ∀ p ∈ pieces, s.bodyFrom ≤ p.1 ∧ p.1 ≤ p.2 + 1 ∧ p.2 ≤ s.lineEnd
  first : ∀ p ∈ pieces.head?, p.1 = s.bodyFrom

theorem chunkSpan_rest (s : Section) (l : List (Nat × Nat)) (i : Nat) :
    (l.zipIdx (i + 1)).map s.chunkSpan = l := by
  induction l generalizing i with
  | nil => rfl
  | cons p l ih =>
    rw [List.zipIdx_cons, List.map_cons, ih]
    rfl

theorem Section.Placed.split {s : Section} (h : s.Placed lines start) : ∃ pieces, s.Split lines start pieces := by
  obtain ⟨hle, hle'⟩ := s.bodyFrom_le
  obtain ⟨hstart, hlines, hend⟩ := h.within
  rcases Nat.lt_or_ge s.lineEnd s.bodyFrom with hempty | hbody
  · refine ⟨_, splitSection_empty hempty, .single hlines, ?_, ?_, ?_, ?_⟩
    · exact List.forall_mem_singleton.mpr (.inl rfl)
    · refine List.forall_mem_singleton.mpr (.inl ?_)
      rw [weight, sumLines_empty hempty]
      decide
    · exact List.forall_mem_singleton.mpr ⟨le_rfl, by dsimp only; omega, le_rfl⟩
    · rintro p ⟨⟩
      rfl
  · obtain ⟨pieces, hsplit, hpieces⟩ :=
      splitSection_spec (hstart.trans_le hle) hbody hend h.body
    refine ⟨pieces, hsplit, ?_, hpieces.good, hpieces.light, fun p hp => ?_, fun p hp => ?_⟩
    · have htiles := hpieces.tiles
      cases pieces with
      | nil =>
        have hnil : s.bodyFrom = s.lineEnd + 1 := htiles
        omega
      | cons p l =>
        obtain ⟨hp, hle'', hrest⟩ := htiles
        rw [List.zipIdx_cons, List.map_cons, chunkSpan_rest]
        exact ⟨rfl, hle.trans hle'', hrest⟩
    · have := hpieces.tiles.bounds p hp
      omega
    · obtain ⟨l, rfl⟩ := List.head?_eq_some_iff.mp hp
      exact hpieces.tiles.1

def bodyText (lines : List Line) (piece : Nat × Nat) : Line :=
  trimChars (List.intercalate ['\n']
    (elideLines (numbered lines piece.1 piece.2).length ((numbered lines piece.1 piece.2).map Prod.snd)))

theorem elidedBody_eq {p : Nat × Nat} (h : p.1 ≤ p.2 → 0 < p.1 ∧ p.2 ≤ lines.length) :
    elidedBody lines p.1 p.2 = some (bodyText lines p) := by
  unfold elidedBody bodyText
  by_cases hlt : p.2 < p.1
  · rw [if_pos hlt, numbered_empty hlt]
    rfl
  · obtain ⟨hpos, hle⟩ := h (Nat.le_of_not_lt hlt)
    rw [if_neg hlt, readLines_eq hpos hle, Option.map_some]

section chunks

variable {isAlphanumeric : Char → Bool}

theorem Section.Split.chunks {s : Section} {pieces : List (Nat × Nat)} (header anchor : Line)
    (h : s.Split lines start pieces) :
    sectionChunks lines header anchor s =
      pieces.zipIdx.mapM fun piece => pieceChunk lines header anchor s piece.1 piece.2 := by
  rw [sectionChunks, h.split, Option.bind_some]

theorem Section.Split.elidedBody {s : Section} {pieces : List (Nat × Nat)} (hs : s.Placed lines start)
    (h : s.Split lines start pieces) {p : Nat × Nat} (hp : p ∈ pieces) :
    elidedBody lines p.1 p.2 = some (bodyText lines p) := by
  have hwithin := h.within p hp
  have hs := hs.within
  have hbody := s.bodyFrom_le
  exact elidedBody_eq fun _ => by omega

theorem chunksFrom_isSome (isAlphanumeric : Char → Bool) {sections : List Section} (title vnamePath : Line) (counts : Line → Nat)
    (h : ∀ s ∈ sections, s.Placed lines start) :
    ∃ chunks, chunksFrom isAlphanumeric lines title vnamePath counts sections = some chunks := by
  induction sections generalizing counts with
  | nil => exact ⟨[], rfl⟩
  | cons s rest ih =>
    obtain ⟨hs, hrest⟩ := List.forall_mem_cons.mp h
    obtain ⟨pieces, hpieces⟩ := hs.split
    obtain ⟨own, hown⟩ := mapM_isSome (l := pieces.zipIdx)
      (f := fun piece => pieceChunk lines (chunkHeader title vnamePath s)
        (countedAnchor (baseAnchor isAlphanumeric s) (counts (baseAnchor isAlphanumeric s) + 1)) s
        piece.1 piece.2) fun piece hpiece => by
          unfold pieceChunk
          rw [hpieces.elidedBody hs (List.fst_mem_of_mem_zipIdx hpiece)]
          exact ⟨_, rfl⟩
    obtain ⟨more, hmore⟩ := ih (Function.update counts (baseAnchor isAlphanumeric s)
      (counts (baseAnchor isAlphanumeric s) + 1)) hrest
    rw [chunksFrom, hpieces.chunks, hown, Option.bind_some, hmore]
    exact ⟨_, rfl⟩

theorem chunksFrom_cons {s : Section} {rest : List Section} {title vnamePath : Line}
    {counts : Line → Nat} {chunks : List Chunk} (hs : s.Placed lines start)
    (h : chunksFrom isAlphanumeric lines title vnamePath counts (s :: rest) = some chunks) :
    ∃ pieces own more, chunks = own ++ more ∧ s.Split lines start pieces ∧
      (pieces.zipIdx.mapM fun piece => pieceChunk lines (chunkHeader title vnamePath s)
        (countedAnchor (baseAnchor isAlphanumeric s) (counts (baseAnchor isAlphanumeric s) + 1)) s
        piece.1 piece.2) = some own ∧
      chunksFrom isAlphanumeric lines title vnamePath
        (Function.update counts (baseAnchor isAlphanumeric s) (counts (baseAnchor isAlphanumeric s) + 1))
        rest = some more := by
  obtain ⟨pieces, hpieces⟩ := hs.split
  rw [chunksFrom] at h
  obtain ⟨own, hown, h⟩ := Option.bind_eq_some_iff.mp h
  obtain ⟨more, hmore, rfl⟩ := Option.map_eq_some_iff.mp h
  rw [hpieces.chunks] at hown
  exact ⟨pieces, own, more, rfl, hpieces, hown, hmore⟩

theorem mem_chunksFrom {sections : List Section} {title vnamePath : Line} {counts : Line → Nat}
    {chunks : List Chunk} (h : ∀ s ∈ sections, s.Placed lines start)
    (hc : chunksFrom isAlphanumeric lines title vnamePath counts sections = some chunks)
    {c : Chunk} (hmem : c ∈ chunks) :
    ∃ s ∈ sections, ∃ pieces, s.Split lines start pieces ∧ ∃ piece ∈ pieces.zipIdx, ∃ anchor,
      pieceChunk lines (chunkHeader title vnamePath s) anchor s piece.1 piece.2 = some c := by
  induction sections generalizing counts chunks with
  | nil =>
    obtain rfl := Option.some.inj hc
    exact (List.not_mem_nil hmem).elim
  | cons s rest ih =>
    obtain ⟨hs, hrest⟩ := List.forall_mem_cons.mp h
    obtain ⟨pieces, own, more, rfl, hpieces, hown, hmore⟩ := chunksFrom_cons hs hc
    rcases List.mem_append.mp hmem with hmem | hmem
    · obtain ⟨piece, hpiece, hc⟩ := ((Linearisation.mapM_eq_some hown).2 c).mp hmem
      exact ⟨s, List.mem_cons_self, pieces, hpieces, piece, hpiece, _, hc⟩
    · obtain ⟨t, ht, found⟩ := ih hrest hmore hmem
      exact ⟨t, List.mem_cons_of_mem _ ht, found⟩

theorem chunksFrom_spans {sections : List Section} {title vnamePath : Line} {counts : Line → Nat}
    {chunks : List Chunk} {b : Nat} (h : ∀ s ∈ sections, s.Placed lines start)
    (htiles : Tiles (sections.map Section.span) a b)
    (hc : chunksFrom isAlphanumeric lines title vnamePath counts sections = some chunks) :
    Tiles (chunks.map Chunk.span) a b := by
  induction sections generalizing counts chunks a with
  | nil =>
    obtain rfl := Option.some.inj hc
    exact htiles
  | cons s rest ih =>
    obtain ⟨hs, hrest⟩ := List.forall_mem_cons.mp h
    obtain ⟨ha, -, htiles⟩ := htiles
    obtain ⟨pieces, own, more, rfl, hpieces, hown, hmore⟩ := chunksFrom_cons hs hc
    have hspans := hpieces.spans
    rw [← map_of_mapM (g := Chunk.span) hown fun piece _ c h => pieceChunk_span h] at hspans
    rw [List.map_append, ← ha]
    exact hspans.append (ih hrest htiles hmore)

end chunks

/-! ### The partition -/

def docLines (text : String) : List Line := Text.lines (stripBom text)

theorem docLines_unlines {ls : List Line} (h : ∀ l ∈ ls, '\n' ∉ l ∧ stripCr l = l)
    (hbom : (ls.flatMap fun l => l ++ ['\n']).head? ≠ some '\uFEFF') :
    docLines (String.ofList (ls.flatMap fun l => l ++ ['\n'])) = ls := by
  have hnone (s : List Char) (hs : s.head? ≠ some '\uFEFF') : stripPrefix "\uFEFF" s = none := by
    have hsingle : "\uFEFF".toList = ['\uFEFF'] := rfl
    rw [stripPrefix, hsingle, if_neg]
    cases s with
    | nil => exact Bool.false_ne_true
    | cons c s =>
      intro hpre
      obtain ⟨t, ht⟩ := List.isPrefixOf_iff_prefix.mp hpre
      exact hs (by rw [← ht]; rfl)
  unfold docLines stripBom
  rw [String.toList_ofList, hnone _ hbom]
  exact lines_unlines h

/-- Chunks that partition the lines of a document behind its front matter. -/
structure Partitioned (lines : List Line) (start : Nat) (sections : List Section) (chunks : List Chunk) :
    Prop where
  nonempty : ∀ c ∈ chunks, c.lineStart ≤ c.lineEnd
  contiguous : chunks.IsChain fun c d => d.lineStart = c.lineEnd + 1
  disjoint : chunks.Pairwise fun c d => c.lineEnd < d.lineStart
  last : ∀ c ∈ chunks.getLast?, c.lineEnd = lines.length
  behindFrontMatter : ∀ c ∈ chunks, start < c.lineStart
  covers : ∀ ln, start < ln → ln ≤ lines.length → ¬ Blank lines ln →
    ∃ c ∈ chunks, c.lineStart ≤ ln ∧ ln ≤ c.lineEnd
  /-- A chunk that begins inside a fence begins inside a block of many characters that holds it. -/
  fences : ∀ c ∈ chunks, fenceBefore lines start c.lineStart = none ∨
    ∃ s ∈ sections, ∃ b e, Block lines start s.bodyFrom s.lineEnd b e ∧
      HARD_SPLIT_CHARS ≤ charLen lines b e ∧ b < c.lineStart ∧ c.lineStart ≤ e
  pieces : ∀ s ∈ sections, ∃ pieces, splitSection lines s.bodyFrom s.lineEnd = some pieces ∧
    ∀ p ∈ pieces, (∃ x y, p.1 ≤ x ∧ x < y ∧ y ≤ p.2 ∧ ¬ Blank lines x ∧ ¬ Blank lines y) →
      weight lines start p.1 p.2 < HARD_SPLIT_CHARS

theorem chunkMarkdown_eq (isAlphanumeric : Char → Bool) (text vnamePath : String) {sections : List Section}
    (h : buildSections (ScanResult.scan (docLines text)) (docLines text) = some sections)
    (hplaced : ∀ s ∈ sections, s.Placed (docLines text) start) :
    chunkMarkdown isAlphanumeric text vnamePath =
      chunksFrom isAlphanumeric (docLines text)
        (docTitle (ScanResult.scan (docLines text)) vnamePath.toList) vnamePath.toList (fun _ => 0) sections := by
  unfold chunkMarkdown buildChunks
  rw [← docLines]
  dsimp only
  split_ifs with hnil
  · rw [hnil] at hplaced
    have hnone : sections = [] := List.eq_nil_iff_forall_not_mem.mpr fun s hs => by
      have hwithin := (hplaced s hs).within
      rw [List.length_nil] at hwithin
      omega
    rw [hnone]
    rfl
  · rw [h, Option.bind_some]

theorem chunkMarkdown_partitions (isAlphanumeric : Char → Bool) (text vnamePath : String) :
    ∃ sections chunks,
      buildSections (ScanResult.scan (docLines text)) (docLines text) = some sections ∧
      chunkMarkdown isAlphanumeric text vnamePath = some chunks ∧
      Partitioned (docLines text) (ScanResult.scan (docLines text)).contentStart sections chunks := by
  obtain ⟨sections, hsections, hplaced, a, ha, htiles, hblank⟩ := buildSections_spec (docLines text)
  obtain ⟨chunks, hchunks⟩ := chunksFrom_isSome isAlphanumeric
    (docTitle (ScanResult.scan (docLines text)) vnamePath.toList) vnamePath.toList (fun _ => 0) hplaced
  have hspans := chunksFrom_spans hplaced htiles hchunks
  have hbounds (c : Chunk) (hc : c ∈ chunks) := hspans.bounds c.span (List.mem_map_of_mem hc)
  refine ⟨sections, chunks, hsections, (chunkMarkdown_eq _ _ _ hsections hplaced).trans hchunks, ?_⟩
  refine ⟨fun c hc => (hbounds c hc).2.1, ?_, ?_, fun c hc => ?_, fun c hc => ?_, fun ln h1 h2 h3 => ?_,
    fun c hc => ?_, fun s hs => ?_⟩
  · exact (List.isChain_map _).mp hspans.isChain
  · exact List.pairwise_map.mp hspans.pairwise_lt
  · obtain ⟨init, rfl⟩ := List.getLast?_eq_some_iff.mp hc
    have hne : (init ++ [c]).map Chunk.span ≠ [] := by simp
    have hlast := hspans.snd_getLast hne
    simp only [List.map_append, List.map_cons, List.map_nil, List.getLast_append_singleton] at hlast
    exact hlast
  · exact ha.trans_le (hbounds c hc).1
  · have hle : a ≤ ln := Nat.le_of_not_lt fun hlt => h3 (hblank ln h1 hlt)
    obtain ⟨p, hp, hln⟩ := hspans.cover hle h2
    obtain ⟨c, hc, rfl⟩ := List.mem_map.mp hp
    exact ⟨c, hc, hln⟩
  · obtain ⟨s, hs, pieces, hsplit, ⟨p, i⟩, hpiece, anchor, hchunk⟩ := mem_chunksFrom hplaced hchunks hc
    have hspan : c.lineStart = (s.chunkSpan (p, i)).1 := congrArg Prod.fst (pieceChunk_span hchunk)
    rw [hspan, Section.chunkSpan]
    dsimp only
    split_ifs with hi
    · exact .inl (hplaced s hs).head
    · rcases hsplit.good p (List.fst_mem_of_mem_zipIdx hpiece) with hp | hout | ⟨b, e, hblock⟩
      · rw [hp]
        exact .inl (hplaced s hs).body
      · exact .inl hout
      · exact .inr ⟨s, hs, b, e, hblock⟩
  · obtain ⟨pieces, hsplit⟩ := (hplaced s hs).split
    refine ⟨pieces, hsplit.split, ?_⟩
    rintro p hp ⟨x, y, hx, hxy, hy, hxb, hyb⟩
    rcases hsplit.light p hp with hlight | hone
    · exact hlight
    · have := hone x y hx (by omega) hxb (by omega) hy hyb
      omega

end Travsr.Analysis
