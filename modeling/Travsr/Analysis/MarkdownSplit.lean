import Travsr.Analysis.MarkdownScan
import Travsr.Lib.Tiles

namespace Travsr.Analysis

open Travsr.Core Travsr.Core.Text

variable {lines : List Line} {start first last m ln b e x : Nat}

/-! ### Paragraph blocks -/

/-- Lines of a range that blank lines outside fences delimit. -/
structure Block (lines : List Line) (start first last b e : Nat) : Prop where
  within : first ≤ b ∧ b ≤ e ∧ e ≤ last
  outside : fenceBefore lines start b = none
  inside : ∀ k, b ≤ k → k ≤ e → ¬ Separator lines start k
  front : b = first ∨ Separator lines start (b - 1)
  back : e = last ∨ Separator lines start (e + 1)

theorem blockLine_separator {st : BlockState} {line : Line} (hfence : st.fence = none)
    (hblank : trimChars line = []) :
    blockLine st (ln, line) =
      ⟨none, none, st.blocks ++ (st.blockStart.map fun s => (s, ln - 1)).toList⟩ := by
  obtain ⟨fence, blockStart, blocks⟩ := st
  subst hfence
  unfold blockLine
  dsimp only
  rw [hblank]
  cases blockStart with
  | some s => rfl
  | none =>
    change BlockState.mk none none blocks = _
    rw [Option.map_none, Option.toList_none, List.append_nil]

theorem blockLine_text {st : BlockState} {line : Line} (h : st.fence = none → trimChars line ≠ []) :
    blockLine st (ln, line) = ⟨fenceStep st.fence line, some (st.blockStart.getD ln), st.blocks⟩ := by
  obtain ⟨fence, blockStart, blocks⟩ := st
  unfold blockLine fenceStep
  cases fence with
  | some open' => rfl
  | none =>
    dsimp only
    cases fenceOpen (trimChars line) with
    | some opened => rfl
    | none =>
      dsimp only
      rw [if_neg (h rfl)]

/-- What holds of the grouping behind a line. -/
structure Grouped (lines : List Line) (start first last ln : Nat) (st : BlockState) : Prop where
  fence : st.fence = fenceBefore lines start (ln + 1)
  blocks : ∀ p ∈ st.blocks, Block lines start first last p.1 p.2
  closed : st.blockStart = none → Spaced (Separator lines start) st.blocks first ln ∧
    fenceBefore lines start (ln + 1) = none ∧ (ln + 1 = first ∨ Separator lines start ln)
  opened : ∀ s ∈ st.blockStart, (first ≤ s ∧ s ≤ ln) ∧ fenceBefore lines start s = none ∧
    (∀ k, s ≤ k → k ≤ ln → ¬ Separator lines start k) ∧ (s = first ∨ Separator lines start (s - 1)) ∧
    Spaced (Separator lines start) st.blocks first (s - 1)

variable {st : BlockState}

theorem Grouped.finish {s : Nat} (hstart : start < first) (h : Grouped lines start first last ln st)
    (hs : st.blockStart = some s) (hle : ln ≤ last)
    (hback : ln = last ∨ Separator lines start (ln + 1)) :
    (∀ p ∈ st.blocks ++ [(s, ln)], Block lines start first last p.1 p.2) ∧
      Spaced (Separator lines start) (st.blocks ++ [(s, ln)]) first ln := by
  obtain ⟨hwithin, houtside, hinside, hfront, hspaced⟩ := h.opened s hs
  have hblock : Block lines start first last s ln :=
    ⟨⟨hwithin.1, hwithin.2, hle⟩, houtside, hinside, hfront, hback⟩
  refine ⟨List.forall_mem_append.mpr ⟨h.blocks, List.forall_mem_singleton.mpr hblock⟩, ?_⟩
  have hpos : s - 1 + 1 = s := by omega
  have hpush := hspaced.push (c := ln) (by omega) (by omega)
  rwa [hpos] at hpush

theorem Grouped.step (hstart : start < first) (hfirst : first ≤ ln + 1) (hle : ln < last)
    (h : Grouped lines start first last ln st) :
    Grouped lines start first last (ln + 1) (blockLine st (ln + 1, lineOf lines (ln + 1))) := by
  have hfence : fenceStep st.fence (lineOf lines (ln + 1)) = fenceBefore lines start (ln + 1 + 1) := by
    rw [h.fence, fenceBefore_succ (show start < ln + 1 by omega)]
  by_cases hsep : Separator lines start (ln + 1)
  · -- a blank line outside the fences ends the block
    rw [blockLine_separator (h.fence.trans hsep.2) hsep.1]
    have hout := hsep.fence_succ (by omega)
    have hgap : ∀ k, ln < k → k ≤ ln + 1 → Separator lines start k := by
      intro k h1 h2
      rwa [show k = ln + 1 by omega]
    cases hs : st.blockStart with
    | none =>
      have hspaced := (h.closed hs).1
      simp only [Option.map_none, Option.toList_none, List.append_nil]
      exact ⟨hout.symm, h.blocks, fun _ => ⟨hspaced.extend (Nat.le_succ ln) hgap, hout, .inr hsep⟩,
        fun _ hs => nomatch hs⟩
    | some s =>
      have hfinish := h.finish hstart hs hle.le (.inr hsep)
      exact ⟨hout.symm, hfinish.1,
        fun _ => ⟨hfinish.2.extend (Nat.le_succ ln) hgap, hout, .inr hsep⟩, fun _ hs => nomatch hs⟩
  · have htext : st.fence = none → trimChars (lineOf lines (ln + 1)) ≠ [] :=
      fun hf hb => hsep ⟨hb, h.fence.symm.trans hf⟩
    rw [blockLine_text htext]
    refine ⟨hfence, h.blocks, (fun hs => nomatch hs), ?_⟩
    rintro s ⟨⟩
    cases hs : st.blockStart with
    | none =>
      obtain ⟨hspaced, hout, hend⟩ := h.closed hs
      refine ⟨⟨hfirst, le_rfl⟩, hout, fun k h1 h2 => ?_, ?_, hspaced⟩
      · rwa [show k = ln + 1 from le_antisymm h2 h1]
      · exact hend
    | some s =>
      obtain ⟨hwithin, houtside, hinside, hfront, hspaced⟩ := h.opened s hs
      refine ⟨⟨hwithin.1, Nat.le_succ_of_le hwithin.2⟩, houtside, fun k h1 h2 => ?_, hfront, hspaced⟩
      rcases Nat.lt_or_ge ln k with hlt | hge
      · rwa [show k = ln + 1 by omega]
      · exact hinside k h1 hge

theorem Grouped.init (h : fenceBefore lines start (m + 1) = none) :
    Grouped lines start (m + 1) last m ⟨none, none, []⟩ := by
  refine ⟨h.symm, fun _ hp => (List.not_mem_nil hp).elim, fun _ => ⟨fun k h1 h2 => ?_, h, .inl rfl⟩,
    fun _ hs => nomatch hs⟩
  exact absurd h2 (by omega)

theorem paragraphBlocks_spec (hstart : start < first) (hle : first ≤ last) (hlast : last ≤ lines.length)
    (hout : fenceBefore lines start first = none) :
    ∃ blocks, paragraphBlocks lines first last = some blocks ∧
      Spaced (Separator lines start) blocks first last ∧
      ((∀ p ∈ blocks, Block lines start first last p.1 p.2) ∨
        ∀ k, first ≤ k → k ≤ last → Separator lines start k) := by
  obtain ⟨m, rfl⟩ : ∃ m, first = m + 1 := ⟨first - 1, by omega⟩
  have hrun : Grouped lines start (m + 1) last last
      ((numbered lines (m + 1) last).foldl blockLine ⟨none, none, []⟩) :=
    foldl_numbered (P := Grouped lines start (m + 1) last) (by omega) (Grouped.init hout)
      fun ln st h1 h2 h => h.step hstart (by omega) h2
  unfold paragraphBlocks
  rw [readLines_eq (Nat.succ_pos m) hlast, Option.map_some]
  dsimp only
  cases hs : ((numbered lines (m + 1) last).foldl blockLine ⟨none, none, []⟩).blockStart with
  | some s =>
    have hfinish := hrun.finish hstart hs le_rfl (.inl rfl)
    dsimp only
    rw [if_neg (List.append_ne_nil_of_right_ne_nil _ (List.cons_ne_nil _ _))]
    exact ⟨_, rfl, hfinish.2, .inl hfinish.1⟩
  | none =>
    have hspaced := (hrun.closed hs).1
    dsimp only
    split_ifs with hnil
    · rw [hnil] at hspaced
      refine ⟨_, rfl, ⟨le_rfl, hle, le_rfl, fun k h1 h2 => ?_, fun k h1 h2 => ?_⟩, .inr hspaced⟩
      · exact absurd h2 (by dsimp only; omega)
      · exact absurd h2 (by dsimp only at h1; omega)
    · exact ⟨_, rfl, hspaced, .inl hrun.blocks⟩

/-! ### Where a section may be cut -/

/-- The characters of a range of lines when the blank lines between its blocks are left out. -/
def weight (lines : List Line) (start first last : Nat) : Nat :=
  sumLines (fun ln => if Separator lines start ln then 0 else (lineOf lines ln).length + 1) first last

theorem weight_le_charLen : weight lines start b e ≤ charLen lines b e := by
  refine sumLines_mono fun ln _ _ => ?_
  split_ifs
  · exact Nat.zero_le _
  · exact le_rfl

theorem weight_separators (h : ∀ k, b ≤ k → k ≤ e → Separator lines start k) :
    weight lines start b e = 0 := by
  refine sumLines_zero fun ln h1 h2 => ?_
  rw [if_pos (h ln h1 h2)]

/-- More than one line that is not blank makes a piece that has to stay small. -/
def Light (lines : List Line) (start : Nat) (p : Nat × Nat) : Prop :=
  weight lines start p.1 p.2 < HARD_SPLIT_CHARS ∨
    ∀ x y, p.1 ≤ x → x ≤ p.2 → ¬ Blank lines x → p.1 ≤ y → y ≤ p.2 → ¬ Blank lines y → x = y

theorem Light.widen {b' e' : Nat} (h : Light lines start (b, e)) (hb : b' ≤ b) (hbe : b ≤ e + 1)
    (he : e ≤ e') (hfront : ∀ k, b' ≤ k → k < b → Separator lines start k)
    (hback : ∀ k, e < k → k ≤ e' → Separator lines start k) : Light lines start (b', e') := by
  have hin {k : Nat} (h1 : b' ≤ k) (h2 : k ≤ e') (hk : ¬ Blank lines k) : b ≤ k ∧ k ≤ e := by
    constructor
    · exact Nat.le_of_not_lt fun hlt => hk (hfront k h1 hlt).1
    · exact Nat.le_of_not_lt fun hlt => hk (hback k hlt h2).1
  refine h.imp (fun h => ?_) fun h x y hx1 hx2 hx hy1 hy2 hy => ?_
  · rw [weight, sumLines_widen hb hbe he]
    · exact h
    · intro k h1 h2
      rw [if_pos (hfront k h1 h2)]
    · intro k h1 h2
      rw [if_pos (hback k h1 h2)]
  · exact h x y (hin hx1 hx2 hx).1 (hin hx1 hx2 hx).2 hx (hin hy1 hy2 hy).1 (hin hy1 hy2 hy).2 hy

/-- A piece may begin outside the fences, or within a block that is cut by its characters. -/
def Good (lines : List Line) (start first last x : Nat) : Prop :=
  fenceBefore lines start x = none ∨
    ∃ b e, Block lines start first last b e ∧ HARD_SPLIT_CHARS ≤ charLen lines b e ∧ b < x ∧ x ≤ e

/-- Starts of pieces that take up a range, up to the separators in front. -/
structure Laid (lines : List Line) (start first last m : Nat) (starts : List Nat) : Prop where
  increasing : starts.Pairwise (· < ·)
  within : ∀ x ∈ starts, first ≤ x ∧ x ≤ m
  good : ∀ x ∈ starts, Good lines start first last x
  light : ∀ p ∈ Tiles.ofStarts m starts, Light lines start p
  front : ∀ k, first ≤ k → k < starts.head?.getD (m + 1) → Separator lines start k

variable {starts : List Nat}

theorem Laid.nil : Laid lines start (m + 1) last m [] := by
  refine ⟨.nil, fun _ h => (List.not_mem_nil h).elim, fun _ h => (List.not_mem_nil h).elim,
    fun _ h => (List.not_mem_nil h).elim, fun k h1 h2 => ?_⟩
  exact absurd h2 (Nat.not_lt_of_le h1)

theorem Laid.push (h : Laid lines start first last m starts) (hfirst : first ≤ m + 1) (hle : m + 1 ≤ e)
    (hgood : Good lines start first last (m + 1)) (hlight : Light lines start (m + 1, e)) :
    Laid lines start first last e (starts ++ [m + 1]) := by
  refine ⟨?_, ?_, ?_, ?_, ?_⟩
  · refine List.pairwise_append.mpr ⟨h.increasing, List.pairwise_singleton _ _, fun x hx => ?_⟩
    exact List.forall_mem_singleton.mpr (Nat.lt_succ_of_le (h.within x hx).2)
  · refine List.forall_mem_append.mpr ⟨fun x hx => ?_, List.forall_mem_singleton.mpr ⟨hfirst, hle⟩⟩
    exact ⟨(h.within x hx).1, by have := (h.within x hx).2; omega⟩
  · exact List.forall_mem_append.mpr ⟨h.good, List.forall_mem_singleton.mpr hgood⟩
  · rw [Tiles.ofStarts_concat]
    exact List.forall_mem_append.mpr ⟨h.light, List.forall_mem_singleton.mpr hlight⟩
  · cases starts with
    | nil => exact h.front
    | cons x l => exact h.front

theorem Laid.extend (h : Laid lines start first last m starts) (hle : m ≤ e)
    (hgap : ∀ k, m < k → k ≤ e → Separator lines start k) :
    Laid lines start first last e starts := by
  refine ⟨h.increasing, fun x hx => ⟨(h.within x hx).1, (h.within x hx).2.trans hle⟩, h.good, ?_, ?_⟩
  · refine Tiles.forall_ofStarts_grow h.light fun x hx hlight => ?_
    have := (h.within x hx).2
    exact hlight.widen le_rfl (by omega) hle (fun k h1 h2 => absurd h2 (Nat.not_lt_of_le h1)) hgap
  · cases starts with
    | nil =>
      intro k h1 h2
      rcases Nat.lt_or_ge m k with hlt | hge
      · exact hgap k hlt (Nat.le_of_lt_succ h2)
      · exact h.front k h1 (Nat.lt_succ_of_le hge)
    | cons x l => exact h.front

/-! ### Cutting a block by its characters -/

theorem charLen_succ (h : b ≤ e + 1) :
    charLen lines b (e + 1) = charLen lines b e + ((lineOf lines (e + 1)).length + 1) := by
  rw [charLen, sumLines_split h (Nat.le_succ e), sumLines_self]
  rfl

theorem light_of_charLen (h : charLen lines b e ≤ SPLIT_CHARS ∨ b = e) : Light lines start (b, e) := by
  rcases h with h | rfl
  · refine .inl ((weight_le_charLen.trans h).trans_lt ?_)
    decide
  · refine .inr fun x y hx1 hx2 _ hy1 hy2 _ => ?_
    dsimp only at hx1 hx2 hy1 hy2
    omega

/-- What holds of the cuts behind a line of the block, `done` being the starts before it. -/
structure HardCuts (lines : List Line) (start first last b : Nat) (done : List Nat) (ln : Nat)
    (st : HardCut) : Prop where
  laid : Laid lines start first last (st.curStart - 1) (done ++ st.pieces.map Prod.fst)
  chars : st.curChars = charLen lines st.curStart ln
  small : st.curChars ≤ SPLIT_CHARS ∨ st.curStart = ln
  within : b ≤ st.curStart ∧ (st.curStart ≤ ln ∨ st.curStart = b ∧ ln + 1 = b)

variable {done : List Nat} {cut : HardCut}

theorem HardCuts.finish (hfirst : first ≤ b) (hpos : 0 < b)
    (hgood : ∀ x, b ≤ x → x ≤ e → Good lines start first last x)
    (h : HardCuts lines start first last b done ln cut) (hb : b ≤ ln) (hle : ln ≤ e) :
    Laid lines start first last ln (done ++ (cut.pieces ++ [(cut.curStart, ln)]).map Prod.fst) := by
  have hwithin := h.within
  have hlaid := h.laid
  have hcur : cut.curStart - 1 + 1 = cut.curStart := by omega
  have hlight : Light lines start (cut.curStart, ln) := light_of_charLen (h.chars ▸ h.small)
  rw [List.map_append, ← List.append_assoc]
  have hpush := hlaid.push (e := ln) (by omega) (by omega) (hgood _ (by omega) (by omega)) (by rwa [hcur])
  rwa [hcur] at hpush

theorem HardCuts.step (hfirst : first ≤ b) (hpos : 0 < b)
    (hgood : ∀ x, b ≤ x → x ≤ e → Good lines start first last x) (hb : b ≤ ln + 1) (hle : ln < e)
    (h : HardCuts lines start first last b done ln cut) :
    HardCuts lines start first last b done (ln + 1)
      (hardCutLine cut (ln + 1, lineOf lines (ln + 1))) := by
  have hwithin := h.within
  unfold hardCutLine lineChars
  dsimp only
  split_ifs with hcut
  · refine ⟨?_, ?_, .inr rfl, hb, .inl le_rfl⟩
    · exact h.finish hfirst hpos hgood (show b ≤ ln by omega) hle.le
    · rw [charLen, sumLines_self]
  · refine ⟨h.laid, ?_, ?_, hwithin.1, ?_⟩
    · dsimp only
      rw [h.chars, charLen_succ (by omega)]
    · dsimp only
      omega
    · dsimp only
      omega

theorem hardSplitBlock_spec (hfirst : first ≤ m + 1) (hle : m + 1 ≤ e) (hlast : e ≤ lines.length)
    (hgood : ∀ x, m + 1 ≤ x → x ≤ e → Good lines start first last x)
    (h : Laid lines start first last m done) :
    ∃ cuts, hardSplitBlock lines (m + 1) e = some cuts ∧
      Laid lines start first last e (done ++ cuts.map Prod.fst) := by
  have hinit : HardCuts lines start first last (m + 1) done m ⟨m + 1, 0, []⟩ := by
    refine ⟨?_, ?_, .inl (Nat.zero_le _), le_rfl, .inr ⟨rfl, rfl⟩⟩
    · rwa [List.map_nil, List.append_nil]
    · exact (sumLines_empty (Nat.lt_succ_self m)).symm
  have hrun : HardCuts lines start first last (m + 1) done e
      ((numbered lines (m + 1) e).foldl hardCutLine ⟨m + 1, 0, []⟩) :=
    foldl_numbered (P := HardCuts lines start first last (m + 1) done) (by omega) hinit
      fun ln st h1 h2 h => h.step hfirst (Nat.succ_pos m) hgood (by omega) h2
  refine ⟨_, ?_, hrun.finish hfirst (Nat.succ_pos m) hgood hle le_rfl⟩
  unfold hardSplitBlock
  rw [readLines_eq (Nat.succ_pos m) hlast, Option.map_some]

/-! ### Packing the blocks -/

/-- What holds of the packing behind a line. -/
structure Packed (lines : List Line) (start first last m : Nat) (st : Bins) : Prop where
  closed : st.binStart = none → Laid lines start first last m (st.pieces.map Prod.fst)
  opened : ∀ s ∈ st.binStart, Laid lines start first last (s - 1) (st.pieces.map Prod.fst) ∧
    first ≤ s ∧ s ≤ m ∧ Good lines start first last s ∧ weight lines start s m ≤ st.binChars ∧
    st.binChars < HARD_SPLIT_CHARS

variable {bins : Bins}

def Bins.allStarts (st : Bins) : List Nat := st.pieces.map Prod.fst ++ st.binStart.toList

theorem Bins.flush_starts (bstart : Nat) :
    (bins.flush bstart).pieces.map Prod.fst = bins.allStarts := by
  unfold flush allStarts
  cases bins.binStart with
  | some s => exact List.map_append
  | none => exact (List.append_nil _).symm

theorem Packed.laid (hpos : 0 < first) (h : Packed lines start first last m bins) :
    Laid lines start first last m bins.allStarts := by
  unfold Bins.allStarts
  cases hs : bins.binStart with
  | none =>
    rw [Option.toList_none, List.append_nil]
    exact h.closed hs
  | some s =>
    obtain ⟨hlaid, hfirst, hle, hgood, hweight, hsmall⟩ := h.opened s hs
    have hcur : s - 1 + 1 = s := by omega
    have hpush := hlaid.push (e := m) (by omega) (by omega) (by rwa [hcur])
      (by rw [hcur]; exact .inl (hweight.trans_lt hsmall))
    rwa [hcur] at hpush

theorem weight_extend (hbe : b ≤ e + 1) (he : e ≤ m)
    (hgap : ∀ k, e < k → k ≤ m → Separator lines start k) :
    weight lines start b m = weight lines start b e := by
  refine sumLines_widen le_rfl hbe he (fun k h1 h2 => absurd h2 (Nat.not_lt_of_le h1)) fun k h1 h2 => ?_
  rw [if_pos (hgap k h1 h2)]

theorem Packed.extend (h : Packed lines start first last m bins) (hle : m ≤ e)
    (hgap : ∀ k, m < k → k ≤ e → Separator lines start k) :
    Packed lines start first last e bins := by
  refine ⟨fun hs => (h.closed hs).extend hle hgap, fun s hs => ?_⟩
  obtain ⟨hlaid, hfirst, hsm, hgood, hweight, hsmall⟩ := h.opened s hs
  refine ⟨hlaid, hfirst, hsm.trans hle, hgood, ?_, hsmall⟩
  rwa [weight_extend (by omega) hle hgap]

theorem Packed.newBin {pieces : List (Nat × Nat)} (hfirst : first ≤ m + 1) (hle : m + 1 ≤ e)
    (hgood : Good lines start first last (m + 1)) (hlaid : Laid lines start first last m (pieces.map Prod.fst))
    (hsmall : charLen lines (m + 1) e < HARD_SPLIT_CHARS) :
    Packed lines start first last e ⟨pieces, some (m + 1), charLen lines (m + 1) e⟩ := by
  refine ⟨(fun hs => nomatch hs), ?_⟩
  rintro s ⟨⟩
  exact ⟨hlaid, hfirst, hle, hgood, weight_le_charLen, hsmall⟩

theorem Packed.block (hpos : 0 < first) (hfirst : first ≤ m + 1) (hle : m + 1 ≤ e)
    (hlast : e ≤ lines.length) (hgood : Good lines start first last (m + 1))
    (hcut : HARD_SPLIT_CHARS ≤ charLen lines (m + 1) e →
      ∀ x, m + 1 ≤ x → x ≤ e → Good lines start first last x)
    (h : Packed lines start first last m bins) :
    ∃ next, binBlock lines bins (m + 1, e) = some next ∧ Packed lines start first last e next := by
  have hlen : rawCharLen lines (m + 1) e = some (charLen lines (m + 1) e) :=
    rawCharLen_eq fun _ => ⟨Nat.succ_pos m, hlast⟩
  have hflush : Laid lines start first last m ((bins.flush (m + 1)).pieces.map Prod.fst) := by
    rw [Bins.flush_starts]
    exact h.laid hpos
  unfold binBlock
  rw [hlen, Option.bind_some]
  by_cases hhard : HARD_SPLIT_CHARS ≤ charLen lines (m + 1) e
  · -- the block is cut alone, behind whatever bin was open
    obtain ⟨cuts, hcuts, hlaid⟩ := hardSplitBlock_spec hfirst hle hlast (hcut hhard) hflush
    rw [if_pos hhard, hcuts, Option.map_some]
    refine ⟨_, rfl, fun _ => ?_, ?_⟩
    · dsimp only
      rwa [List.map_append]
    · intro s hs
      unfold Bins.flush at hs
      cases hopen : bins.binStart with
      | none =>
        rw [hopen] at hs
        dsimp only at hs
        rw [hopen] at hs
        exact nomatch hs
      | some s =>
        rw [hopen] at hs
        exact nomatch hs
  · rw [if_neg hhard]
    have hsmall := Nat.lt_of_not_le hhard
    cases hs : bins.binStart with
    | none =>
      dsimp only
      exact ⟨_, rfl, .newBin hfirst hle hgood (h.closed hs) hsmall⟩
    | some s =>
      dsimp only
      split_ifs with hfull
      · exact ⟨_, rfl, .newBin hfirst hle hgood hflush hsmall⟩
      · obtain ⟨hlaid, hfirst', hsm, hgood', hweight, hsmall'⟩ := h.opened s hs
        refine ⟨_, rfl, (fun hs' => nomatch hs'), ?_⟩
        · rintro s' ⟨⟩
          refine ⟨hlaid, hfirst', by omega, hgood', ?_, ?_⟩
          · dsimp only
            rw [weight, sumLines_split (show s ≤ m + 1 by omega) (show m ≤ e by omega)]
            exact Nat.add_le_add hweight weight_le_charLen
          · have hbound : SPLIT_CHARS < HARD_SPLIT_CHARS := by decide
            dsimp only
            omega

theorem Packed.run {blocks : List (Nat × Nat)} (hpos : 0 < first) (hfirst : first ≤ m + 1)
    (hlast : last ≤ lines.length) (hml : m ≤ last)
    (hspaced : Spaced (Separator lines start) blocks (m + 1) last)
    (hgood : ∀ p ∈ blocks, Good lines start first last p.1 ∧
      (HARD_SPLIT_CHARS ≤ charLen lines p.1 p.2 → ∀ x, p.1 ≤ x → x ≤ p.2 → Good lines start first last x))
    (h : Packed lines start first last m bins) :
    ∃ next, blocks.foldlM (binBlock lines) bins = some next ∧ Packed lines start first last last next := by
  induction blocks generalizing m bins with
  | nil => exact ⟨bins, rfl, h.extend hml fun k h1 h2 => hspaced k h1 h2⟩
  | cons p blocks ih =>
    obtain ⟨b, e⟩ := p
    obtain ⟨hmb, hbe, hel, hgaps, hrest⟩ := hspaced
    obtain ⟨hblock, hblocks⟩ := List.forall_mem_cons.mp hgood
    obtain ⟨n, rfl⟩ : ∃ n, b = n + 1 := ⟨b - 1, by dsimp only at hmb; omega⟩
    dsimp only at hmb hbe hel hgaps hrest
    have hbefore := h.extend (Nat.le_of_succ_le_succ hmb) fun k h1 h2 => hgaps k h1 (Nat.lt_succ_of_le h2)
    obtain ⟨next, hnext, hpacked⟩ :=
      hbefore.block hpos (by omega) hbe (hel.trans hlast) hblock.1 hblock.2
    obtain ⟨final, hfinal, hdone⟩ := ih (by omega) hel hrest hblocks hpacked
    refine ⟨final, ?_, hdone⟩
    rw [List.foldlM_cons, hnext]
    exact hfinal

/-! ### Splitting a section -/

theorem stitch_eq (pieces : List (Nat × Nat)) (h : (pieces.map Prod.fst).Pairwise (· < ·)) :
    stitch last pieces = Tiles.ofStarts last (pieces.map Prod.fst) := by
  induction pieces with
  | nil => rfl
  | cons p l ih =>
    obtain ⟨hp, hl⟩ := List.pairwise_cons.mp h
    cases l with
    | nil => rfl
    | cons q l =>
      have hlt := hp q.1 List.mem_cons_self
      change (p.1, max (q.1 - 1) p.1) :: stitch last (q :: l) = _
      rw [ih hl, max_eq_left (Nat.le_sub_one_of_lt hlt)]
      rfl

/-- The pieces of a section: they tile its lines, begin at good places and stay small. -/
structure Pieces (lines : List Line) (start first last : Nat) (pieces : List (Nat × Nat)) : Prop where
  tiles : Tiles pieces first last
  good : ∀ p ∈ pieces, p.1 = first ∨ Good lines start first last p.1
  light : ∀ p ∈ pieces, Light lines start p

theorem Laid.pieces (hle : first ≤ last) (h : Laid lines start first last last starts) :
    Pieces lines start first last (Tiles.ofStarts last (first :: starts.tail)) := by
  cases starts with
  | nil =>
    refine ⟨.single hle, List.forall_mem_singleton.mpr (.inl rfl), List.forall_mem_singleton.mpr (.inl ?_)⟩
    rw [weight_separators fun k h1 h2 => h.front k h1 (Nat.lt_succ_of_le h2)]
    decide
  | cons x l =>
    obtain ⟨hx, hl⟩ := List.pairwise_cons.mp h.increasing
    obtain ⟨hxw, hlw⟩ := List.forall_mem_cons.mp h.within
    refine ⟨Tiles.ofStarts_tiles ?_ ?_, fun p hp => ?_, ?_⟩
    · exact List.pairwise_cons.mpr ⟨fun y hy => hxw.1.trans_lt (hx y hy), hl⟩
    · exact List.forall_mem_cons.mpr ⟨hle, fun y hy => (hlw y hy).2⟩
    · rcases List.mem_cons.mp (Tiles.fst_mem_of_mem_ofStarts hp) with hp | hp
      · exact .inl hp
      · exact .inr (h.good _ (List.mem_cons_of_mem _ hp))
    · have hends := Tiles.ofStarts_tiles h.increasing fun y hy => (h.within y hy).2
      have hlight : ∀ p ∈ Tiles.ofStarts last (x :: l), p.1 ≤ p.2 ∧ Light lines start p :=
        fun p hp => ⟨(hends.bounds p hp).2.1, h.light p hp⟩
      refine fun p hp => (Tiles.forall_ofStarts_front hlight (fun e he => ?_) p hp).2
      refine ⟨hxw.1.trans he.1, he.2.widen hxw.1 (Nat.le_succ_of_le he.1) le_rfl h.front ?_⟩
      exact fun k h1 h2 => absurd h1 (Nat.not_lt_of_le h2)

theorem stitchRanges_eq (pieces : List (Nat × Nat)) (h : (pieces.map Prod.fst).Pairwise (· < ·))
    (hfirst : ∀ x ∈ pieces.map Prod.fst, first ≤ x) :
    stitchRanges pieces first last = Tiles.ofStarts last (first :: (pieces.map Prod.fst).tail) := by
  cases pieces with
  | nil => rfl
  | cons p l =>
    obtain ⟨hp, hl⟩ := List.pairwise_cons.mp h
    have hle := hfirst p.1 List.mem_cons_self
    exact stitch_eq ((first, p.2) :: l) (List.pairwise_cons.mpr ⟨fun y hy => hle.trans_lt (hp y hy), hl⟩)

theorem Laid.stitch {pieces : List (Nat × Nat)} (hle : first ≤ last)
    (h : Laid lines start first last last starts) (hpieces : pieces.map Prod.fst = starts) :
    Pieces lines start first last (stitchRanges pieces first last) := by
  subst hpieces
  rw [stitchRanges_eq pieces h.increasing fun x hx => (h.within x hx).1]
  exact h.pieces hle

theorem splitSection_empty (h : last < first) : splitSection lines first last = some [(first, last)] := by
  rw [splitSection, if_pos h]

theorem splitSection_spec (hstart : start < first) (hle : first ≤ last) (hlast : last ≤ lines.length)
    (hout : fenceBefore lines start first = none) :
    ∃ pieces, splitSection lines first last = some pieces ∧ Pieces lines start first last pieces := by
  have hlen : rawCharLen lines first last = some (charLen lines first last) :=
    rawCharLen_eq fun _ => ⟨by omega, hlast⟩
  unfold splitSection
  rw [if_neg (Nat.not_lt_of_le hle), hlen, Option.bind_some]
  split_ifs with hsmall
  · exact ⟨_, rfl, .single hle, List.forall_mem_singleton.mpr (.inl rfl),
      List.forall_mem_singleton.mpr (light_of_charLen (.inl hsmall))⟩
  · obtain ⟨blocks, hblocks, hspaced, hkind⟩ := paragraphBlocks_spec hstart hle hlast hout
    obtain ⟨m, rfl⟩ : ∃ m, first = m + 1 := ⟨first - 1, by omega⟩
    have hgood : ∀ p ∈ blocks, Good lines start (m + 1) last p.1 ∧
        (HARD_SPLIT_CHARS ≤ charLen lines p.1 p.2 →
          ∀ x, p.1 ≤ x → x ≤ p.2 → Good lines start (m + 1) last x) := by
      intro p hp
      obtain ⟨h1, h2, h3⟩ := hspaced.bounds p hp
      rcases hkind with hblock | hsep
      · have hp := hblock p hp
        refine ⟨.inl hp.outside, fun hhard x hx1 hx2 => ?_⟩
        rcases Nat.eq_or_lt_of_le hx1 with rfl | hlt
        · exact .inl hp.outside
        · exact .inr ⟨p.1, p.2, hp, hhard, hlt, hx2⟩
      · exact ⟨.inl (hsep p.1 h1 (h2.trans h3)).2,
          fun _ x hx1 hx2 => .inl (hsep x (h1.trans hx1) (hx2.trans h3)).2⟩
    have hinit : Packed lines start (m + 1) last m ⟨[], none, 0⟩ :=
      ⟨fun _ => .nil, fun _ hs => nomatch hs⟩
    obtain ⟨final, hfinal, hpacked⟩ :=
      hinit.run (Nat.succ_pos m) le_rfl hlast (by omega) hspaced hgood
    rw [hblocks, Option.bind_some, hfinal, Option.map_some]
    refine ⟨_, rfl, (hpacked.laid (Nat.succ_pos m)).stitch hle ?_⟩
    unfold Bins.allStarts
    cases final.binStart with
    | some s => exact List.map_append
    | none => exact (List.append_nil _).symm

end Travsr.Analysis
