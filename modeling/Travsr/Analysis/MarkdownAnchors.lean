import Travsr.Analysis.MarkdownPartition

namespace Travsr.Analysis

open Travsr.Core Travsr.Core.Text

variable {lines : List Line} {start : Nat}

/-! ### What an anchor is made of -/

def Plain (s : Line) : Prop := ∀ c ∈ s, c ≠ '~' ∧ c ≠ '#'

instance (s : Line) : Decidable (Plain s) := List.decidableBAll _ s

theorem Plain.of_subset {s t : Line} (h : Plain t) (hs : s ⊆ t) : Plain s := fun c hc => h c (hs hc)

theorem Plain.append {s t : Line} (hs : Plain s) (ht : Plain t) : Plain (s ++ t) :=
  List.forall_mem_append.mpr ⟨hs, ht⟩

theorem Plain.intercalate {sep : Line} {ls : List Line} (hsep : Plain sep) (hls : ∀ l ∈ ls, Plain l) :
    Plain (List.intercalate sep ls) := by
  induction ls with
  | nil => exact fun _ hc => (List.not_mem_nil hc).elim
  | cons x ls ih =>
    obtain ⟨hx, hls⟩ := List.forall_mem_cons.mp hls
    cases ls with
    | nil => rwa [List.intercalate_singleton]
    | cons y ls =>
      rw [List.intercalate_cons_cons]
      exact (hx.append hsep).append (ih hls)

section slug

variable {isAlphanumeric : Char → Bool}

theorem plain_toLower (h : ∀ c : Char, c.toNat < 128 → isAlphanumeric c = c.isAlphanum) {c : Char}
    (hc : isAlphanumeric c = true) : c.toLower ≠ '~' ∧ c.toLower ≠ '#' := by
  have hnot (d : Char) (hd : d.toNat < 128 ∧ d.isAlphanum = false ∧ ¬ (97 ≤ d.toNat ∧ d.toNat ≤ 122)) :
      c.toLower ≠ d := by
    rintro rfl
    rcases toLower_cases c with hsame | hupper
    · rw [hsame, ← h c (hsame ▸ hd.1), hc] at hd
      exact nomatch hd.2.1
    · omega
  exact ⟨hnot '~' (by decide), hnot '#' (by decide)⟩

theorem slugChar_plain (h : ∀ c : Char, c.toNat < 128 → isAlphanumeric c = c.isAlphanum)
    (st : Line × Bool) (c : Char) (hst : Plain st.1) : Plain (slugChar isAlphanumeric st c).1 := by
  unfold slugChar
  split_ifs with halnum hdash
  · exact hst.append (List.forall_mem_singleton.mpr (plain_toLower h halnum))
  · exact hst.append (by decide)
  · exact hst

theorem slugify_foldl_plain (h : ∀ c : Char, c.toNat < 128 → isAlphanumeric c = c.isAlphanum)
    (text : Line) (st : Line × Bool) (hst : Plain st.1) :
    Plain (text.foldl (slugChar isAlphanumeric) st).1 := by
  induction text generalizing st with
  | nil => exact hst
  | cons c text ih => exact ih _ (slugChar_plain h st c hst)

theorem slugifySegment_plain (h : ∀ c : Char, c.toNat < 128 → isAlphanumeric c = c.isAlphanum)
    (text : Line) : Plain (slugifySegment isAlphanumeric text) := by
  have hslug : Plain ((text.foldl (slugChar isAlphanumeric) ([], false)).1.rdropWhile (· = '-')) :=
    (slugify_foldl_plain h text ([], false) (by decide)).of_subset (List.rdropWhile_prefix _ _).subset
  have hcut (t : Line) (ht : Plain t) : Plain (if SLUG_SEGMENT_MAX_CHARS < t.length then
      (t.take SLUG_SEGMENT_MAX_CHARS).rdropWhile (· = '-') else t) := by
    split_ifs
    · exact (ht.of_subset (List.take_subset _ t)).of_subset (List.rdropWhile_prefix _ _).subset
    · exact ht
  refine hcut _ ?_
  split_ifs
  · decide
  · exact hslug

theorem baseAnchor_plain (h : ∀ c : Char, c.toNat < 128 → isAlphanumeric c = c.isAlphanum)
    (s : Section) : Plain (baseAnchor isAlphanumeric s) := by
  have htrail : Plain (List.intercalate ['/'] (s.trail.map (slugifySegment isAlphanumeric))) := by
    refine Plain.intercalate (by decide) fun l hl => ?_
    obtain ⟨text, -, rfl⟩ := List.mem_map.mp hl
    exact slugifySegment_plain h text
  unfold baseAnchor slugifyTrail
  dsimp only
  split_ifs
  · decide
  · exact htrail
  · exact htrail.of_subset (List.take_subset _ _)

end slug

/-! ### Reading an anchor back -/

theorem cut_unique {d : Char} {a a' t t' : Line} (ha : d ∉ a) (ha' : d ∉ a')
    (ht : ∀ c ∈ t.head?, c = d) (ht' : ∀ c ∈ t'.head?, c = d) (h : a ++ t = a' ++ t') : a = a' ∧ t = t' := by
  have hall {l : Line} (hl : d ∉ l) : ∀ c ∈ l, (decide (c ≠ d)) = true :=
    fun c hc => decide_eq_true fun hcd => hl (hcd ▸ hc)
  have hstop {l : Line} (hl : ∀ c ∈ l.head?, c = d) : l.takeWhile (· ≠ d) = [] := by
    cases l with
    | nil => rfl
    | cons c l => rw [hl c rfl, List.takeWhile_cons_of_neg (by simp)]
  have hcut := congrArg (List.takeWhile (· ≠ d)) h
  rw [List.takeWhile_append_of_pos (hall ha), List.takeWhile_append_of_pos (hall ha'), hstop ht, hstop ht',
    List.append_nil, List.append_nil] at hcut
  subst hcut
  exact ⟨rfl, List.append_cancel_left h⟩

theorem toString_toList (n : Nat) : (toString n).toList = Nat.toDigits 10 n := Nat.toList_repr

theorem toString_injective {m n : Nat} (h : (toString m).toList = (toString n).toList) : m = n := by
  rw [toString_toList, toString_toList] at h
  rw [← Nat.ofDigitChars_ten_toDigits (n := m), h, Nat.ofDigitChars_ten_toDigits]

theorem toString_plain (n : Nat) : Plain (toString n).toList := by
  intro c hc
  rw [toString_toList] at hc
  have hdigit := Nat.isDigit_of_mem_toDigits (by decide) (by decide) hc
  constructor
  · rintro rfl
    exact absurd hdigit (by decide)
  · rintro rfl
    exact absurd hdigit (by decide)

def countSuffix (count : Nat) : Line := if count = 1 then [] else '~' :: (toString count).toList

def pieceSuffix (pieceIdx : Nat) : Line :=
  if pieceIdx = 0 then [] else '#' :: (toString (pieceIdx + 1)).toList

theorem countedAnchor_eq (base : Line) (count : Nat) :
    countedAnchor base count = base ++ countSuffix count := by
  unfold countedAnchor countSuffix
  split_ifs
  · exact (List.append_nil base).symm
  · rfl

theorem pieceAnchor_eq (anchor : Line) (i : Nat) : pieceAnchor anchor i = anchor ++ pieceSuffix i := by
  unfold pieceAnchor pieceSuffix
  split_ifs
  · exact (List.append_nil anchor).symm
  · rfl

theorem countSuffix_injective {m n : Nat} (h : countSuffix m = countSuffix n) : m = n := by
  unfold countSuffix at h
  split_ifs at h with hm hn hn
  · exact hm.trans hn.symm
  · exact toString_injective (List.cons_inj_right _ |>.mp h)

theorem pieceSuffix_injective {m n : Nat} (h : pieceSuffix m = pieceSuffix n) : m = n := by
  unfold pieceSuffix at h
  split_ifs at h with hm hn hn
  · exact hm.trans hn.symm
  · exact Nat.succ_injective (toString_injective (List.cons_inj_right _ |>.mp h))

theorem countedAnchor_hash {base : Line} (h : Plain base) (count : Nat) : '#' ∉ countedAnchor base count := by
  rw [countedAnchor_eq, List.mem_append, not_or]
  refine ⟨fun hc => (h '#' hc).2 rfl, fun hc => ?_⟩
  unfold countSuffix at hc
  split_ifs at hc
  · exact List.not_mem_nil hc
  · rcases List.mem_cons.mp hc with hc | hc
    · exact absurd hc (by decide)
    · exact (toString_plain count '#' hc).2 rfl

theorem pieceSuffix_head (i : Nat) : ∀ c ∈ (pieceSuffix i).head?, c = '#' := by
  unfold pieceSuffix
  split_ifs
  · exact fun _ hc => nomatch hc
  · rintro c ⟨⟩
    rfl

theorem countSuffix_head (n : Nat) : ∀ c ∈ (countSuffix n).head?, c = '~' := by
  unfold countSuffix
  split_ifs
  · exact fun _ hc => nomatch hc
  · rintro c ⟨⟩
    rfl

theorem anchor_injective {base base' : Line} {m n i j : Nat} (hb : Plain base) (hb' : Plain base')
    (h : pieceAnchor (countedAnchor base m) i = pieceAnchor (countedAnchor base' n) j) :
    base = base' ∧ m = n ∧ i = j := by
  rw [pieceAnchor_eq, pieceAnchor_eq] at h
  obtain ⟨hcounted, hpiece⟩ := cut_unique (countedAnchor_hash hb m) (countedAnchor_hash hb' n)
    (pieceSuffix_head i) (pieceSuffix_head j) h
  rw [countedAnchor_eq, countedAnchor_eq] at hcounted
  obtain ⟨hbase, hcount⟩ := cut_unique (fun hc => (hb '~' hc).1 rfl) (fun hc => ( hb' '~' hc).1 rfl)
    (countSuffix_head m) (countSuffix_head n) hcounted
  exact ⟨hbase, countSuffix_injective hcount, pieceSuffix_injective hpiece⟩

/-! ### The anchors of a document -/

section chunks

variable {isAlphanumeric : Char → Bool}

theorem pieceChunk_anchor {header anchor : Line} {s : Section} {piece : (Nat × Nat) × Nat} {c : Chunk}
    (h : pieceChunk lines header anchor s piece.1 piece.2 = some c) : c.anchor = pieceAnchor anchor piece.2 := by
  obtain ⟨body, -, rfl⟩ := Option.map_eq_some_iff.mp h
  rfl

/-- The chunks of a section have anchors of their own, with an ordinal that is new for their base. -/
theorem chunksFrom_anchors (h : ∀ c : Char, c.toNat < 128 → isAlphanumeric c = c.isAlphanum)
    {sections : List Section} {title vnamePath : Line} {counts : Line → Nat} {chunks : List Chunk}
    (hplaced : ∀ s ∈ sections, s.Placed lines start)
    (hc : chunksFrom isAlphanumeric lines title vnamePath counts sections = some chunks) :
    (chunks.map Chunk.anchor).Nodup ∧
      ∀ a ∈ chunks.map Chunk.anchor, ∃ base n i, Plain base ∧ counts base < n ∧
        a = pieceAnchor (countedAnchor base n) i := by
  induction sections generalizing counts chunks with
  | nil =>
    obtain rfl := Option.some.inj hc
    exact ⟨List.nodup_nil, fun _ hx => (List.not_mem_nil hx).elim⟩
  | cons s rest ih =>
    obtain ⟨hs, hrest⟩ := List.forall_mem_cons.mp hplaced
    obtain ⟨pieces, own, more, rfl, hpieces, hown, hmore⟩ := chunksFrom_cons hs hc
    have hbase := baseAnchor_plain h s
    generalize baseAnchor isAlphanumeric s = base at hbase hown hmore
    have hanchors := map_of_mapM (g := Chunk.anchor)
      (k := fun piece => pieceAnchor (countedAnchor base (counts base + 1)) piece.2) hown
      fun piece _ c h => pieceChunk_anchor h
    obtain ⟨hnodup, hnew⟩ := ih hrest hmore
    rw [List.map_append, hanchors]
    refine ⟨List.nodup_append.mpr ⟨?_, hnodup, ?_⟩, List.forall_mem_append.mpr ⟨?_, ?_⟩⟩
    · have hmap : pieces.zipIdx.map (fun piece => pieceAnchor (countedAnchor base (counts base + 1)) piece.2) =
          (pieces.zipIdx.map Prod.snd).map (pieceAnchor (countedAnchor base (counts base + 1))) := by
        rw [List.map_map]
        rfl
      rw [hmap, List.zipIdx_map_snd]
      exact List.Nodup.map (fun i j hij => (anchor_injective hbase hbase hij).2.2) List.nodup_range'
    · intro a ha b hb hab
      obtain ⟨piece, -, rfl⟩ := List.mem_map.mp ha
      obtain ⟨base', n, i, hplain, hlt, rfl⟩ := hnew b hb
      obtain ⟨rfl, hn, -⟩ := anchor_injective hbase hplain hab
      rw [Function.update_self] at hlt
      omega
    · intro a ha
      obtain ⟨piece, -, rfl⟩ := List.mem_map.mp ha
      exact ⟨base, counts base + 1, piece.2, hbase, Nat.lt_succ_self _, rfl⟩
    · intro a ha
      obtain ⟨base', n, i, hplain, hlt, rfl⟩ := hnew a ha
      refine ⟨base', n, i, hplain, ?_, rfl⟩
      by_cases heq : base' = base
      · subst heq
        rw [Function.update_self] at hlt
        omega
      · rwa [Function.update_of_ne heq] at hlt

end chunks

/-! ### Appended lines -/

variable {more : List Line} {first last ln : Nat}

/-- Lines that begin a section whose heading has level 1. -/
inductive OpensTop : List Line → Prop
  | atx {line text : Line} {rest : List Line} (plain : TextLine none line)
      (heading : atxHeading (trimChars line) = some (1, text)) : OpensTop (line :: rest)
  | setext {line under : Line} {rest : List Line} (plain : TextLine none line)
      (noHeading : atxHeading (trimChars line) = none)
      (noUnderline : setextUnderline (trimChars line) = none) (underPlain : TextLine none under)
      (underNoHeading : atxHeading (trimChars under) = none)
      (underline : setextUnderline (trimChars under) = some 1) : OpensTop (line :: under :: rest)

/-- The lines close no front matter that a text leaves open. -/
def ClosesNoFrontMatter (lines more : List Line) : Prop :=
  lines.head?.map trimChars = some "---".toList →
    (∀ l ∈ (lines.drop 1).take MAX_SCAN, isFrontMatterEnd l = false) →
      ∀ l ∈ ((lines ++ more).drop 1).take MAX_SCAN, isFrontMatterEnd l = false

theorem frontMatterFrom_append {title : Option Line} {offset : Nat} {l more : List Line}
    {found : Option Line × Nat} (h : frontMatterFrom title offset l = some found) :
    frontMatterFrom title offset (l ++ more) = some found := by
  induction l generalizing title offset with
  | nil => exact nomatch h
  | cons line rest ih =>
    rw [frontMatterFrom] at h
    rw [List.cons_append, frontMatterFrom]
    split_ifs at h ⊢
    · exact h
    · exact ih h

theorem frontMatterFrom_eq_none {title : Option Line} {offset : Nat} {l : List Line} :
    frontMatterFrom title offset l = none ↔ ∀ line ∈ l, isFrontMatterEnd line = false := by
  induction l generalizing title offset with
  | nil => simp [frontMatterFrom]
  | cons line rest ih =>
    rw [frontMatterFrom, List.forall_mem_cons]
    split_ifs with hend
    · simp [hend]
    · rw [ih]
      simp [hend]

theorem OpensTop.head (h : OpensTop more) : ∀ line ∈ more.head?, trimChars line ≠ "---".toList := by
  rcases h with ⟨-, heading⟩ | ⟨-, -, noUnderline, -⟩
  · rintro line ⟨⟩ hdash
    have hnone : atxHeading "---".toList = none := by decide
    rw [hdash, hnone] at heading
    exact nomatch heading
  · rintro line ⟨⟩ hdash
    rw [hdash] at noUnderline
    exact absurd noUnderline (by decide)

theorem scanFrontMatter_append (hopens : OpensTop more) (hfront : ClosesNoFrontMatter lines more) :
    (scanFrontMatter (lines ++ more)).2 = (scanFrontMatter lines).2 := by
  cases lines with
  | nil =>
    have hhead : more.head?.map trimChars ≠ some "---".toList := by
      intro hdash
      obtain ⟨line, hline, hdash⟩ := Option.map_eq_some_iff.mp hdash
      exact hopens.head line hline hdash
    rw [List.nil_append, scanFrontMatter, if_pos hhead]
    rfl
  | cons line rest =>
    unfold scanFrontMatter
    by_cases hdash : (line :: rest).head?.map trimChars = some "---".toList
    · have hdash' : (line :: rest ++ more).head?.map trimChars = some "---".toList := hdash
      rw [if_neg (not_not_intro hdash), if_neg (not_not_intro hdash')]
      cases hfound : frontMatterFrom none 1 (((line :: rest).drop 1).take MAX_SCAN) with
      | none =>
        have hclosed := hfront hdash (frontMatterFrom_eq_none.mp hfound)
        rw [frontMatterFrom_eq_none.mpr hclosed]
      | some found =>
        have htake : ((line :: rest ++ more).drop 1).take MAX_SCAN =
            ((line :: rest).drop 1).take MAX_SCAN ++ more.take (MAX_SCAN - rest.length) :=
          List.take_append
        rw [htake, frontMatterFrom_append hfound]
    · have hdash' : (line :: rest ++ more).head?.map trimChars ≠ some "---".toList := hdash
      rw [if_pos hdash, if_pos hdash']

theorem scanFrom_append (st : ScanState) (i : Nat) (a b : List Line) :
    scanFrom st i (a ++ b) = scanFrom (scanFrom st i a) (i + a.length) b := by
  unfold scanFrom
  rw [List.zipIdx_append, List.foldl_append]

theorem scanLine_headings (st : ScanState) (i : Nat) (line : Line) :
    st.headings <+: (scanLine st i line).headings := by
  rcases scanLine_cases st i line with
    ⟨hkeep, -⟩ | ⟨-, hkeep, -⟩ | ⟨-, -, level, text, -, hpush⟩ | ⟨-, -, level, p, -, -, hpush⟩
  · exact hkeep ▸ List.prefix_rfl
  · exact hkeep ▸ List.prefix_rfl
  · exact hpush ▸ List.prefix_append _ _
  · exact hpush ▸ List.prefix_append _ _

theorem scanFrom_headings (st : ScanState) (i : Nat) (l : List Line) :
    st.headings <+: (scanFrom st i l).headings := by
  induction l generalizing st i with
  | nil => exact List.prefix_rfl
  | cons line l ih =>
    rw [scanFrom_cons]
    exact (scanLine_headings st i line).trans (ih _ _)

theorem scanLine_atx {st : ScanState} {line text : Line} {level : Nat} (i : Nat)
    (hplain : TextLine st.fence line) (hatx : atxHeading (trimChars line) = some (level, text)) :
    (scanLine st i line).headings = st.headings ++ [⟨level, text, i + 1⟩] := by
  unfold scanLine
  rw [hplain.outside]
  dsimp only
  rw [hplain.plain]
  dsimp only
  rw [if_neg hplain.nonblank, hatx]

theorem scanLine_plain {st : ScanState} {line : Line} (i : Nat) (hplain : TextLine st.fence line)
    (hatx : atxHeading (trimChars line) = none) (hset : setextUnderline (trimChars line) = none) :
    scanLine st i line = { st with pendingPara := some (i + 1, trimChars line) } := by
  unfold scanLine
  rw [hplain.outside]
  dsimp only
  rw [hplain.plain]
  dsimp only
  rw [if_neg hplain.nonblank, hatx, hset]

theorem scanLine_setext (st : ScanState) {line text : Line} {level para : Nat} (i : Nat)
    (hplain : TextLine st.fence line) (hatx : atxHeading (trimChars line) = none)
    (hset : setextUnderline (trimChars line) = some level) (hpending : st.pendingPara = some (para, text)) :
    (scanLine st i line).headings = st.headings ++ [⟨level, text, para⟩] := by
  unfold scanLine
  rw [hplain.outside]
  dsimp only
  rw [hplain.plain]
  dsimp only
  rw [if_neg hplain.nonblank, hatx, hset, hpending]

theorem OpensTop.scan {st : ScanState} (h : OpensTop more) (i : Nat) (hfence : st.fence = none) :
    ∃ text rest, (scanFrom st i more).headings = st.headings ++ ⟨1, text, i + 1⟩ :: rest := by
  rcases h with @⟨line, text, rest, plain, heading⟩ |
    @⟨line, under, rest, plain, noHeading, noUnderline, hunder, underNoHeading, underline⟩
  · have hline := scanLine_atx i (hfence ▸ plain) heading
    obtain ⟨found, hfound⟩ := scanFrom_headings (scanLine st i line) (i + 1) rest
    refine ⟨text, found, ?_⟩
    rw [scanFrom_cons, ← hfound, hline, List.append_assoc]
    rfl
  · have hline := scanLine_plain i (hfence ▸ plain) noHeading noUnderline
    have hunder := scanLine_setext { st with pendingPara := some (i + 1, trimChars line) } (i + 1)
      (hfence ▸ hunder) underNoHeading underline rfl
    obtain ⟨found, hfound⟩ := scanFrom_headings (scanLine (scanLine st i line) (i + 1) under) (i + 1 + 1) rest
    refine ⟨trimChars line, found, ?_⟩
    rw [scanFrom_cons, scanFrom_cons, ← hfound, hline, hunder, List.append_assoc]
    rfl

/-! ### What the appended lines leave as it was -/

theorem lineOf_append (hpos : 0 < ln) (hle : ln ≤ lines.length) : lineOf (lines ++ more) ln = lineOf lines ln := by
  rw [lineOf, lineOf, List.getD_append _ _ _ _ (by omega)]

theorem numbered_append (hpos : 0 < first) (hle : last ≤ lines.length) :
    numbered (lines ++ more) first last = numbered lines first last := by
  refine List.map_congr_left fun ln hln => ?_
  obtain ⟨h1, h2⟩ := mem_range.mp hln
  rw [lineOf_append (by omega) (by omega)]

theorem readLines_append (hpos : 0 < first) (hle : last ≤ lines.length) :
    readLines (lines ++ more) first last = readLines lines first last := by
  rw [readLines_eq hpos hle, readLines_eq hpos (by rw [List.length_append]; omega), numbered_append hpos hle]

theorem rawCharLen_append (hpos : 0 < first) (hle : last ≤ lines.length) :
    rawCharLen (lines ++ more) first last = rawCharLen lines first last := by
  unfold rawCharLen
  rw [readLines_append hpos hle]

theorem anyM_congr {α : Type} {f g : α → Option Bool} {l : List α} (h : ∀ x ∈ l, f x = g x) :
    l.anyM f = l.anyM g := by
  induction l with
  | nil => rfl
  | cons x l ih =>
    obtain ⟨hx, hl⟩ := List.forall_mem_cons.mp h
    rw [List.anyM_cons, List.anyM_cons, hx, ih hl]

theorem anyNonBlank_append (hpos : 0 < first) (hle : last ≤ lines.length) :
    anyNonBlank (lines ++ more) first last = anyNonBlank lines first last := by
  refine anyM_congr fun ln hln => ?_
  obtain ⟨h1, h2⟩ := mem_range.mp hln
  rw [lineAt_eq (by omega) (by rw [List.length_append]; omega), lineAt_eq (by omega) (by omega),
    lineOf_append (by omega) (by omega)]

theorem binBlock_append {st : Bins} {block : Nat × Nat} (hpos : 0 < block.1) (hle : block.2 ≤ lines.length) :
    binBlock (lines ++ more) st block = binBlock lines st block := by
  unfold binBlock hardSplitBlock
  rw [rawCharLen_append hpos hle, readLines_append hpos hle]

theorem foldlM_congr {α σ : Type} {f g : σ → α → Option σ} {l : List α} (h : ∀ x ∈ l, ∀ s, f s x = g s x)
    (s : σ) : l.foldlM f s = l.foldlM g s := by
  induction l generalizing s with
  | nil => rfl
  | cons x l ih =>
    obtain ⟨hx, hl⟩ := List.forall_mem_cons.mp h
    rw [List.foldlM_cons, List.foldlM_cons, hx]
    exact congrArg _ (funext fun s => ih hl s)

theorem splitSection_append (more : List Line) (hstart : start < first) (hlast : last ≤ lines.length)
    (hout : fenceBefore lines start first = none) :
    splitSection (lines ++ more) first last = splitSection lines first last := by
  unfold splitSection
  rcases Nat.lt_or_ge last first with hempty | hle
  · rw [if_pos hempty, if_pos hempty]
  · obtain ⟨blocks, hblocks, hspaced, -⟩ := paragraphBlocks_spec hstart hle hlast hout
    have hsame : paragraphBlocks (lines ++ more) first last = some blocks := by
      rw [← hblocks]
      unfold paragraphBlocks
      rw [readLines_append (by omega) hlast]
    have hbins := foldlM_congr (f := binBlock (lines ++ more)) (g := binBlock lines) (l := blocks)
      (fun p hp st => by
        have hbounds := hspaced.bounds p hp
        exact binBlock_append (by omega) (by omega)) ⟨[], none, 0⟩
    rw [rawCharLen_append (by omega) hlast, hsame, hblocks, Option.bind_some, Option.bind_some, hbins]

/-! ### The sections of the text stand in front -/

theorem sectionsFrom_keeps {doc : ScanResult} {headings : List RawHeading} {stack : List (Nat × Line)}
    {kept new sections : List Section} (hne : new ≠ [])
    (h : sectionsFrom doc lines stack (kept ++ new) headings = some sections) : kept <+: sections := by
  induction headings generalizing stack new with
  | nil =>
    obtain rfl := Option.some.inj h
    exact List.prefix_append kept new
  | cons g rest ih =>
    rw [sectionsFrom] at h
    obtain ⟨bodyLen, -, h⟩ := Option.bind_eq_some_iff.mp h
    split_ifs at h with hmerge
    · obtain ⟨init, s, rfl⟩ := List.eq_nil_or_concat' new |>.resolve_left hne
      unfold extendLast at h
      rw [← List.append_assoc, List.getLast?_concat] at h
      dsimp only at h
      rw [List.dropLast_concat, List.append_assoc] at h
      exact ih (by simp) h
    · rw [List.append_assoc] at h
      exact ih (by simp) h

theorem isStrictPrefix_single (trail : List Line) (text : Line) : isStrictPrefix trail [text] = false := by
  cases trail with
  | nil => rfl
  | cons a l => simp [isStrictPrefix]

/-- The headings of the text are read as before, and the next one finds their sections done. -/
theorem sectionsFrom_append (more : List Line) {doc : ScanResult} (doc' : ScanResult)
    {headings : List RawHeading} (top : RawHeading) (found : List RawHeading) {stack : List (Nat × Line)} {output sections : List Section}
    (htotal : doc.totalLines = lines.length) (hh : Headings lines start lines.length headings)
    (hline : top.line = lines.length + 1) (hlevel : top.level = 1) (hstack : ∀ e ∈ stack, 1 ≤ e.1)
    (h : sectionsFrom doc lines stack output headings = some sections) :
    ∃ stack', (∀ e ∈ stack', 1 ≤ e.1) ∧
      sectionsFrom doc' (lines ++ more) stack output (headings ++ top :: found) =
        sectionsFrom doc' (lines ++ more) stack' sections (top :: found) := by
  induction headings generalizing stack output with
  | nil =>
    obtain rfl := Option.some.inj h
    exact ⟨stack, hstack, rfl⟩
  | cons g rest ih =>
    have hlevels := hh.level g List.mem_cons_self
    have hg := hh.within g List.mem_cons_self
    have hend := hh.tail.endBefore_le
    have hsame : ((rest ++ top :: found).head?.map fun next => next.line - 1).getD doc'.totalLines =
        endBefore lines.length rest := by
      cases rest with
      | nil =>
        change top.line - 1 = lines.length
        omega
      | cons next rest => rfl
    have hleaf : ((rest ++ top :: found).head?.map fun next => decide (next.level ≤ g.level)).getD true =
        (rest.head?.map fun next => decide (next.level ≤ g.level)).getD true := by
      cases rest with
      | nil => exact decide_eq_true (by omega)
      | cons next rest => rfl
    rw [sectionsFrom, htotal, ← endBefore] at h
    obtain ⟨bodyLen, hbody, h⟩ := Option.bind_eq_some_iff.mp h
    have hstack' : ∀ e ∈ stack.rdropWhile (fun entry => decide (g.level ≤ entry.1)) ++ [(g.level, g.text)],
        1 ≤ e.1 :=
      List.forall_mem_append.mpr ⟨fun e he => hstack e ((List.rdropWhile_prefix _ _).subset he),
        List.forall_mem_singleton.mpr hlevels⟩
    obtain ⟨stack', hlow, heq⟩ := ih hh.tail hstack' h
    refine ⟨stack', hlow, ?_⟩
    have hbody' : (if g.line < endBefore lines.length rest then
        rawCharLen (lines ++ more) (g.line + 1) (endBefore lines.length rest) else some 0) = some bodyLen := by
      rw [← hbody, rawCharLen_append (Nat.succ_pos _) hend]
    rw [List.cons_append, sectionsFrom, hsame, hleaf, hbody', Option.bind_some]
    exact heq

theorem sectionsFrom_top {doc : ScanResult} {found : List RawHeading} {top : RawHeading}
    {stack : List (Nat × Line)} {output sections : List Section} (hlevel : top.level = 1)
    (hstack : ∀ e ∈ stack, 1 ≤ e.1)
    (h : sectionsFrom doc lines stack output (top :: found) = some sections) : output <+: sections := by
  have hempty : stack.rdropWhile (fun entry => decide (top.level ≤ entry.1)) = [] := by
    rw [List.rdropWhile_eq_nil_iff]
    intro e he
    exact decide_eq_true (hlevel ▸ hstack e he)
  rw [sectionsFrom, hempty] at h
  obtain ⟨bodyLen, -, h⟩ := Option.bind_eq_some_iff.mp h
  have hnone : (output.getLast?.filter fun s =>
      !s.isPreamble && isStrictPrefix s.trail (([] : List (Nat × Line)).map Prod.snd ++ [top.text])) = none := by
    rw [Option.filter_eq_none_iff]
    intro s _
    rw [List.map_nil, List.nil_append, isStrictPrefix_single, Bool.and_false]
    exact Bool.false_ne_true
  rw [hnone] at h
  simp only [Option.isSome_none, Bool.and_false, Bool.false_eq_true, if_false] at h
  exact sectionsFrom_keeps (List.cons_ne_nil _ _) h

theorem scan_append (hopens : OpensTop more) (hfront : ClosesNoFrontMatter lines more)
    (hfence : fenceBefore lines (ScanResult.scan lines).contentStart (lines.length + 1) = none) :
    (ScanResult.scan (lines ++ more)).contentStart = (ScanResult.scan lines).contentStart ∧
    ∃ text found, (ScanResult.scan (lines ++ more)).headings =
      (ScanResult.scan lines).headings ++ ⟨1, text, lines.length + 1⟩ :: found := by
  have hle : (scanFrontMatter lines).2 ≤ lines.length := scanFrontMatter_le
  have hstart := scanFrontMatter_append hopens hfront
  have hrun : Scanned lines (scanFrontMatter lines).2 lines.length
      (scanFrom ⟨none, none, []⟩ (scanFrontMatter lines).2 (lines.drop (scanFrontMatter lines).2)) :=
    Scanned.init.run le_rfl hle
  refine ⟨hstart, ?_⟩
  obtain ⟨text, found, hscan⟩ := hopens.scan lines.length (hrun.fence.trans hfence)
  refine ⟨text, found, ?_⟩
  change (scanFrom _ (scanFrontMatter (lines ++ more)).2
    ((lines ++ more).drop (scanFrontMatter (lines ++ more)).2)).headings = _
  rw [hstart, List.drop_append_of_le_length hle, scanFrom_append, List.length_drop,
    Nat.add_sub_cancel' hle]
  exact hscan

theorem preamble_append {doc doc' : ScanResult} {top : RawHeading} {found : List RawHeading}
    (htotal : doc.totalLines = lines.length) (htotal' : doc'.totalLines = (lines ++ more).length)
    (hstart : doc'.contentStart = doc.contentStart)
    (hh : Headings lines start lines.length doc.headings)
    (hheadings : doc'.headings = doc.headings ++ top :: found) (hline : top.line = lines.length + 1) :
    preamble doc' (lines ++ more) = preamble doc lines := by
  have hend := hh.endBefore_le
  have hsame : (doc'.headings.head?.map fun h => h.line - 1).getD doc'.totalLines =
      endBefore lines.length doc.headings := by
    rw [hheadings]
    cases doc.headings with
    | nil =>
      change top.line - 1 = lines.length
      omega
    | cons g rest => rfl
  have hany : anyNonBlank (lines ++ more) (doc.contentStart + 1) (endBefore lines.length doc.headings) =
      anyNonBlank lines (doc.contentStart + 1) (endBefore lines.length doc.headings) :=
    anyNonBlank_append (Nat.succ_pos _) hend
  have hcond : (doc.contentStart + 1 ≤ endBefore lines.length doc.headings ∧
      doc.contentStart + 1 ≤ (lines ++ more).length) ↔
      (doc.contentStart + 1 ≤ endBefore lines.length doc.headings ∧ doc.contentStart + 1 ≤ lines.length) := by
    rw [List.length_append]
    omega
  unfold preamble
  dsimp only
  rw [hsame, hstart, htotal', htotal, ← endBefore, hany]
  simp only [hcond]

theorem buildSections_append {sections all : List Section} (hopens : OpensTop more)
    (hfront : ClosesNoFrontMatter lines more)
    (hfence : fenceBefore lines (ScanResult.scan lines).contentStart (lines.length + 1) = none)
    (h : buildSections (ScanResult.scan lines) lines = some sections)
    (hall : buildSections (ScanResult.scan (lines ++ more)) (lines ++ more) = some all) :
    sections <+: all := by
  obtain ⟨hstart, text, found, hheadings⟩ := scan_append hopens hfront hfence
  have hpre : preamble (ScanResult.scan (lines ++ more)) (lines ++ more) =
      preamble (ScanResult.scan lines) lines :=
    preamble_append rfl rfl hstart scan_headings hheadings rfl
  obtain ⟨output, houtput, h⟩ := Option.bind_eq_some_iff.mp h
  unfold buildSections at hall
  rw [hpre, houtput, Option.bind_some, hheadings] at hall
  obtain ⟨stack, hstack, heq⟩ := sectionsFrom_append more (ScanResult.scan (lines ++ more))
    ⟨1, text, lines.length + 1⟩ found rfl scan_headings rfl rfl
    (fun _ he => (List.not_mem_nil he).elim) h
  rw [heq] at hall
  exact sectionsFrom_top rfl hstack hall

/-! ### The chunks of the text stand in front -/

def Chunk.place (c : Chunk) : Line × Nat × Nat := (c.anchor, c.span)

theorem chunksFrom_append {isAlphanumeric : Char → Bool} {sections later : List Section}
    {title title' vnamePath : Line} {counts : Line → Nat} {chunks all : List Chunk} {start' : Nat}
    (hplaced : ∀ s ∈ sections, s.Placed lines start)
    (hplaced' : ∀ s ∈ sections ++ later, s.Placed (lines ++ more) start')
    (h : chunksFrom isAlphanumeric lines title vnamePath counts sections = some chunks)
    (hall : chunksFrom isAlphanumeric (lines ++ more) title' vnamePath counts (sections ++ later) = some all) :
    chunks.map Chunk.place <+: all.map Chunk.place := by
  induction sections generalizing counts chunks all with
  | nil =>
    obtain rfl := Option.some.inj h
    exact List.nil_prefix
  | cons s rest ih =>
    obtain ⟨hs, hrest⟩ := List.forall_mem_cons.mp hplaced
    obtain ⟨hs', hrest'⟩ := List.forall_mem_cons.mp hplaced'
    obtain ⟨pieces, own, others, rfl, hpieces, hown, hothers⟩ := chunksFrom_cons hs h
    obtain ⟨pieces', own', others', rfl, hpieces', hown', hothers'⟩ := chunksFrom_cons hs' hall
    have hbody := s.bodyFrom_le
    have hsplit := splitSection_append more (hs.within.1.trans_le hbody.1) hs.within.2.2 hs.body
    obtain rfl : pieces' = pieces :=
      Option.some.inj (hpieces'.split.symm.trans (hsplit.trans hpieces.split))
    generalize countedAnchor (baseAnchor isAlphanumeric s) (counts (baseAnchor isAlphanumeric s) + 1) =
      anchor at hown hown'
    have hplace {lines' : List Line} {header : Line} (piece : (Nat × Nat) × Nat) (c : Chunk)
        (h : pieceChunk lines' header anchor s piece.1 piece.2 = some c) :
        c.place = (pieceAnchor anchor piece.2, s.chunkSpan piece) :=
      Prod.ext (pieceChunk_anchor h) (pieceChunk_span h)
    rw [List.map_append, List.map_append,
      map_of_mapM (g := Chunk.place) hown fun piece _ c h => hplace piece c h,
      map_of_mapM (g := Chunk.place) hown' fun piece _ c h => hplace piece c h]
    exact (List.prefix_append_right_inj _).mpr (ih hrest hrest' hothers hothers')

/-- Anchors tell the chunks of a document apart, and a section of level 1 behind a text leaves those of
the text as they are. -/
theorem anchors_unique_and_stable (isAlphanumeric : Char → Bool)
    (hascii : ∀ c : Char, c.toNat < 128 → isAlphanumeric c = c.isAlphanum) (text vnamePath : String) :
    ∃ chunks, chunkMarkdown isAlphanumeric text vnamePath = some chunks ∧
      (chunks.map Chunk.anchor).Nodup ∧
      ∀ extended more, docLines extended = docLines text ++ more → OpensTop more →
        fenceBefore (docLines text) (ScanResult.scan (docLines text)).contentStart
          ((docLines text).length + 1) = none →
        ClosesNoFrontMatter (docLines text) more →
        ∃ all, chunkMarkdown isAlphanumeric extended vnamePath = some all ∧
          chunks.map Chunk.place <+: all.map Chunk.place := by
  obtain ⟨sections, hsections, hplaced, -⟩ := buildSections_spec (docLines text)
  obtain ⟨chunks, hchunks⟩ := chunksFrom_isSome isAlphanumeric
    (docTitle (ScanResult.scan (docLines text)) vnamePath.toList) vnamePath.toList (fun _ => 0) hplaced
  refine ⟨chunks, (chunkMarkdown_eq _ _ _ hsections hplaced).trans hchunks,
    (chunksFrom_anchors hascii hplaced hchunks).1, fun extended more hlines hopens hfence hfront => ?_⟩
  obtain ⟨all, hall, hplaced', -⟩ := buildSections_spec (docLines extended)
  obtain ⟨chunks', hchunks'⟩ := chunksFrom_isSome isAlphanumeric
    (docTitle (ScanResult.scan (docLines extended)) vnamePath.toList) vnamePath.toList (fun _ => 0) hplaced'
  refine ⟨chunks', (chunkMarkdown_eq _ _ _ hall hplaced').trans hchunks', ?_⟩
  rw [hlines] at hall hplaced' hchunks'
  obtain ⟨later, rfl⟩ := buildSections_append hopens hfront hfence hsections hall
  exact chunksFrom_append hplaced hplaced' hchunks hchunks'

theorem anchors_unique_and_stable_repeated :
    ∃ chunks, chunkMarkdown Char.isAlphanum "# A\nx\n" "docs/x.md" = some chunks ∧
      (chunks.map Chunk.anchor).Nodup ∧
      ∃ all, chunkMarkdown Char.isAlphanum "# A\nx\n# A\ny\n" "docs/x.md" = some all ∧
        chunks.map Chunk.place <+: all.map Chunk.place := by
  obtain ⟨chunks, hchunks, hnodup, hstable⟩ :=
    anchors_unique_and_stable Char.isAlphanum (fun _ _ => rfl) "# A\nx\n" "docs/x.md"
  refine ⟨chunks, hchunks, hnodup, ?_⟩
  have hlines : docLines "# A\nx\n" = ["# A".toList, "x".toList] := by decide +kernel
  refine hstable "# A\nx\n# A\ny\n" ["# A".toList, "y".toList] (by decide +kernel) ?_ ?_ ?_
  · have hheading : atxHeading (trimChars "# A".toList) = some (1, "A".toList) := by decide
    exact .atx ⟨rfl, by decide, by decide⟩ hheading
  · rw [hlines]
    decide
  · rw [hlines]
    intro hdash
    exact absurd hdash (by decide)

/-- A text that opens with a dashed line has no front matter until appended lines close it. -/
theorem appended_lines_close_front_matter :
    ∃ text extended more chunks all, docLines extended = docLines text ++ more ∧ OpensTop more ∧
      fenceBefore (docLines text) (ScanResult.scan (docLines text)).contentStart
        ((docLines text).length + 1) = none ∧
      chunkMarkdown Char.isAlphanum text "docs/x.md" = some chunks ∧
      chunkMarkdown Char.isAlphanum extended "docs/x.md" = some all ∧
      chunks.map Chunk.anchor = ["_preamble".toList, "a".toList] ∧
      all.map Chunk.anchor = ["c".toList] := by
  have hheading : atxHeading (trimChars "# B".toList) = some (1, "B".toList) := by decide
  refine ⟨"---\n# A\nx\n", "---\n# A\nx\n# B\n---\n# C\n", ["# B".toList, "---".toList, "# C".toList], _, _,
    ?_, .atx ⟨rfl, by decide, by decide⟩ hheading, ?_, rfl, rfl, ?_, ?_⟩
  all_goals decide +kernel

end Travsr.Analysis
