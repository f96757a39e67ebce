import Mathlib.Algebra.Order.BigOperators.Group.List
import Mathlib.Data.List.GetD
import Travsr.Analysis.Markdown

namespace Travsr.Analysis

open Travsr.Core Travsr.Core.Text

variable {lines : List Line} {start first last ln a b c : Nat}

/-! ### Reading lines -/

def lineOf (lines : List Line) (ln : Nat) : Line := lines.getD (ln - 1) []

def numbered (lines : List Line) (first last : Nat) : List (Nat × Line) :=
  (List.range' first (last + 1 - first)).map fun ln => (ln, lineOf lines ln)

theorem lineAt_eq (hpos : 0 < ln) (hle : ln ≤ lines.length) : lineAt lines ln = some (lineOf lines ln) := by
  have hlt : ln - 1 < lines.length := by omega
  rw [lineAt, if_neg (by omega), lineOf, List.getElem?_eq_getElem hlt, List.getD_eq_getElem _ _ hlt]

theorem mem_range : ln ∈ List.range' first (last + 1 - first) ↔ first ≤ ln ∧ ln ≤ last := by
  rw [List.mem_range'_1]
  omega

theorem mapM_eq_some {α β : Type} {f : α → Option β} {g : α → β} {l : List α}
    (h : ∀ x ∈ l, f x = some (g x)) : l.mapM f = some (l.map g) := by
  induction l with
  | nil => rfl
  | cons x l ih =>
    obtain ⟨hx, hl⟩ := List.forall_mem_cons.mp h
    rw [List.mapM_cons, hx, ih hl]
    rfl

theorem readLines_eq (hpos : 0 < first) (hle : last ≤ lines.length) :
    readLines lines first last = some (numbered lines first last) := by
  refine mapM_eq_some fun ln hln => ?_
  obtain ⟨h1, h2⟩ := mem_range.mp hln
  rw [lineAt_eq (by omega) (by omega)]
  rfl

theorem range_split (h1 : a ≤ c + 1) (h2 : c ≤ b) :
    List.range' a (b + 1 - a) = List.range' a (c + 1 - a) ++ List.range' (c + 1) (b + 1 - (c + 1)) := by
  have hmid : c + 1 = a + (c + 1 - a) := by omega
  have hlen : b + 1 - a = (c + 1 - a) + (b + 1 - (c + 1)) := by omega
  conv_rhs => rw [hmid, Nat.add_sub_cancel_left, ← hmid]
  rw [hlen, ← List.range'_append_1, ← hmid]

theorem numbered_split (h1 : a ≤ c + 1) (h2 : c ≤ b) :
    numbered lines a b = numbered lines a c ++ numbered lines (c + 1) b := by
  rw [numbered, range_split h1 h2, List.map_append]
  rfl

theorem numbered_empty (h : b < a) : numbered lines a b = [] := by
  rw [numbered, Nat.sub_eq_zero_of_le h]
  rfl

theorem numbered_self : numbered lines a a = [(a, lineOf lines a)] := by
  rw [numbered, Nat.add_sub_cancel_left]
  rfl

theorem numbered_succ (h : a ≤ b + 1) :
    numbered lines a (b + 1) = numbered lines a b ++ [(b + 1, lineOf lines (b + 1))] := by
  rw [numbered_split h (Nat.le_succ b), numbered_self]

theorem foldl_numbered {σ : Type} {f : σ → Nat × Line → σ} {P : Nat → σ → Prop} {s : σ} {m : Nat}
    (hle : m ≤ last) (init : P m s)
    (step : ∀ ln st, m ≤ ln → ln < last → P ln st → P (ln + 1) (f st (ln + 1, lineOf lines (ln + 1)))) :
    P last ((numbered lines (m + 1) last).foldl f s) := by
  induction last, hle using Nat.le_induction with
  | base =>
    rw [numbered_empty (Nat.lt_succ_self m)]
    exact init
  | succ last hle ih =>
    rw [numbered_succ (Nat.succ_le_succ hle), List.foldl_append]
    exact step last _ hle (Nat.lt_succ_self last) (ih fun ln st h1 h2 => step ln st h1 (by omega))

/-! ### Sums over lines -/

def sumLines (f : Nat → Nat) (first last : Nat) : Nat :=
  ((List.range' first (last + 1 - first)).map f).sum

variable {f g : Nat → Nat}

theorem sumLines_split (h1 : a ≤ c + 1) (h2 : c ≤ b) :
    sumLines f a b = sumLines f a c + sumLines f (c + 1) b := by
  rw [sumLines, range_split h1 h2, List.map_append, List.sum_append]
  rfl

theorem sumLines_empty (h : b < a) : sumLines f a b = 0 := by
  rw [sumLines, Nat.sub_eq_zero_of_le h]
  rfl

theorem sumLines_self : sumLines f a a = f a := by
  rw [sumLines, Nat.add_sub_cancel_left]
  rfl

theorem sumLines_zero (h : ∀ ln, a ≤ ln → ln ≤ b → f ln = 0) : sumLines f a b = 0 := by
  refine List.sum_eq_zero fun x hx => ?_
  obtain ⟨ln, hln, rfl⟩ := List.mem_map.mp hx
  exact h ln (mem_range.mp hln).1 (mem_range.mp hln).2

theorem sumLines_mono (h : ∀ ln, a ≤ ln → ln ≤ b → f ln ≤ g ln) : sumLines f a b ≤ sumLines g a b := by
  refine List.sum_le_sum fun ln hln => ?_
  exact h ln (mem_range.mp hln).1 (mem_range.mp hln).2

theorem sumLines_widen {a' b' : Nat} (ha : a' ≤ a) (hab : a ≤ b + 1) (hb : b ≤ b')
    (hfront : ∀ ln, a' ≤ ln → ln < a → f ln = 0) (hback : ∀ ln, b < ln → ln ≤ b' → f ln = 0) :
    sumLines f a' b' = sumLines f a b := by
  rw [sumLines_split (show a' ≤ b + 1 by omega) hb, sumLines_zero fun ln h1 h2 => hback ln h1 h2,
    Nat.add_zero]
  cases a with
  | zero => rw [Nat.le_zero.mp ha]
  | succ a =>
    rw [sumLines_split (show a' ≤ a + 1 by omega) (show a ≤ b by omega),
      sumLines_zero fun ln h1 h2 => hfront ln h1 (by omega), Nat.zero_add]

def charLen (lines : List Line) (first last : Nat) : Nat :=
  sumLines (fun ln => (lineOf lines ln).length + 1) first last

theorem rawCharLen_eq (h : first ≤ last → 0 < first ∧ last ≤ lines.length) :
    rawCharLen lines first last = some (charLen lines first last) := by
  unfold rawCharLen
  by_cases hlt : last < first
  · rw [if_pos hlt, charLen, sumLines_empty hlt]
  · obtain ⟨hpos, hle⟩ := h (by omega)
    rw [if_neg hlt, readLines_eq hpos hle, Option.map_some, numbered, List.map_map]
    rfl

/-! ### The fences of a document -/

def fenceStep (fence : Option (Char × Nat)) (line : Line) : Option (Char × Nat) :=
  match fence with
  | some (fchar, flen) =>
    if isFenceClose (trimChars line) fchar flen then none else some (fchar, flen)
  | none => fenceOpen (trimChars line)

/-- The fence that is open before a line, when the document's content begins behind `start`. -/
def fenceBefore (lines : List Line) (start ln : Nat) : Option (Char × Nat) :=
  (numbered lines (start + 1) (ln - 1)).foldl (fun fence p => fenceStep fence p.2) none

theorem fenceBefore_start : fenceBefore lines start (start + 1) = none := by
  rw [fenceBefore, numbered_empty (by omega)]
  rfl

theorem fenceBefore_succ (h : start < ln) :
    fenceBefore lines start (ln + 1) = fenceStep (fenceBefore lines start ln) (lineOf lines ln) := by
  obtain ⟨n, rfl⟩ : ∃ n, ln = n + 1 := ⟨ln - 1, by omega⟩
  rw [fenceBefore, fenceBefore, Nat.add_sub_cancel, Nat.add_sub_cancel, numbered_succ (by omega),
    List.foldl_append]
  rfl

def Blank (lines : List Line) (ln : Nat) : Prop := trimChars (lineOf lines ln) = []

instance : Decidable (Blank lines ln) := inferInstanceAs (Decidable (_ = _))

/-- A blank line that no fence holds. -/
def Separator (lines : List Line) (start ln : Nat) : Prop :=
  Blank lines ln ∧ fenceBefore lines start ln = none

instance : Decidable (Separator lines start ln) := inferInstanceAs (Decidable (_ ∧ _))

theorem fenceStep_blank {line : Line} (h : trimChars line = []) : fenceStep none line = none := by
  rw [fenceStep, h]
  rfl

theorem Separator.fence_succ (hstart : start < ln) (h : Separator lines start ln) :
    fenceBefore lines start (ln + 1) = none := by
  rw [fenceBefore_succ hstart, h.2, fenceStep_blank h.1]

end Travsr.Analysis

namespace Travsr.Analysis

open Travsr.Core Travsr.Core.Text

variable {lines : List Line} {start ln : Nat} {st : ScanState}

/-! ### Front matter -/

theorem frontMatterFrom_le {title found : Option Line} {offset stop : Nat} {l : List Line}
    (h : frontMatterFrom title offset l = some (found, stop)) : stop ≤ offset + l.length := by
  induction l generalizing title offset with
  | nil => exact absurd h (by simp [frontMatterFrom])
  | cons line rest ih =>
    rw [frontMatterFrom] at h
    split at h
    · have hstop : offset + 1 = stop := congrArg Prod.snd (Option.some.inj h)
      rw [List.length_cons]
      omega
    · have := ih h
      rw [List.length_cons]
      omega

theorem scanFrontMatter_le : (scanFrontMatter lines).2 ≤ lines.length := by
  unfold scanFrontMatter
  split_ifs with hfirst
  · exact Nat.zero_le _
  · cases hfound : frontMatterFrom none 1 ((lines.drop 1).take MAX_SCAN) with
    | none => exact Nat.zero_le _
    | some found =>
      have hle := frontMatterFrom_le hfound
      rw [List.length_take, List.length_drop] at hle
      have hne : lines ≠ [] := by
        intro hnil
        rw [hnil] at hfirst
        simp at hfirst
      have := List.length_pos_of_ne_nil hne
      rw [Option.getD_some]
      omega

/-! ### One turn of the scan -/

theorem scanLine_fence (i : Nat) (line : Line) :
    (scanLine st i line).fence = fenceStep st.fence line := by
  unfold scanLine fenceStep
  cases st.fence with
  | some open' => rfl
  | none =>
    dsimp only
    cases hopen : fenceOpen (trimChars line) with
    | some opened => rfl
    | none =>
      dsimp only
      split_ifs
      · rfl
      · cases atxHeading (trimChars line) with
        | some heading => rfl
        | none => cases setextUnderline (trimChars line) <;> cases st.pendingPara <;> rfl

/-- A line of text, neither blank nor part of a fence. -/
structure TextLine (fence : Option (Char × Nat)) (line : Line) : Prop where
  outside : fence = none
  plain : fenceOpen (trimChars line) = none
  nonblank : trimChars line ≠ []

theorem scanLine_cases (st : ScanState) (i : Nat) (line : Line) :
    ((scanLine st i line).headings = st.headings ∧ (scanLine st i line).pendingPara = none) ∨
    (TextLine st.fence line ∧ (scanLine st i line).headings = st.headings ∧
      (scanLine st i line).pendingPara = some (i + 1, trimChars line)) ∨
    (TextLine st.fence line ∧ (scanLine st i line).pendingPara = none ∧
      ∃ level text, atxHeading (trimChars line) = some (level, text) ∧
        (scanLine st i line).headings = st.headings ++ [⟨level, text, i + 1⟩]) ∨
    (TextLine st.fence line ∧ (scanLine st i line).pendingPara = none ∧
      ∃ level p, setextUnderline (trimChars line) = some level ∧ st.pendingPara = some p ∧
        (scanLine st i line).headings = st.headings ++ [⟨level, p.2, p.1⟩]) := by
  unfold scanLine
  cases hfence : st.fence with
  | some open' => exact .inl ⟨rfl, rfl⟩
  | none =>
    dsimp only
    cases hopen : fenceOpen (trimChars line) with
    | some opened => exact .inl ⟨rfl, rfl⟩
    | none =>
      dsimp only
      split_ifs with hblank
      · exact .inl ⟨rfl, rfl⟩
      · have htext : TextLine none line := ⟨rfl, hopen, hblank⟩
        cases hatx : atxHeading (trimChars line) with
        | some heading => exact .inr (.inr (.inl ⟨htext, rfl, heading.1, heading.2, rfl, rfl⟩))
        | none =>
          cases hset : setextUnderline (trimChars line) with
          | none => exact .inr (.inl ⟨htext, rfl, rfl⟩)
          | some level =>
            cases hpending : st.pendingPara with
            | none => exact .inr (.inl ⟨htext, rfl, rfl⟩)
            | some p => exact .inr (.inr (.inr ⟨htext, rfl, level, p, rfl, rfl, rfl⟩))

theorem atxHeading_level {trimmed text : Line} {level : Nat}
    (h : atxHeading trimmed = some (level, text)) : 0 < level := by
  unfold atxHeading at h
  dsimp only at h
  split_ifs at h with hcount hrest
  have hlevel := congrArg Prod.fst (Option.some.inj h)
  dsimp only at hlevel
  omega

theorem setextUnderline_level {trimmed : Line} {level : Nat} (h : setextUnderline trimmed = some level) :
    0 < level := by
  unfold setextUnderline at h
  split_ifs at h <;> cases h <;> decide

/-! ### The whole scan -/

/-- A line that no fence touches. -/
def Outside (lines : List Line) (start ln : Nat) : Prop :=
  fenceBefore lines start ln = none ∧ fenceBefore lines start (ln + 1) = none

instance : Decidable (Outside lines start ln) := inferInstanceAs (Decidable (_ ∧ _))

theorem TextLine.outside_succ (hstart : start ≤ ln)
    (h : TextLine (fenceBefore lines start (ln + 1)) (lineOf lines (ln + 1))) :
    Outside lines start (ln + 1) := by
  refine ⟨h.outside, ?_⟩
  rw [fenceBefore_succ (Nat.lt_succ_of_le hstart), h.outside]
  exact h.plain

/-- Headings one behind the other, none of them in a fence. -/
structure Headings (lines : List Line) (start last : Nat) (headings : List RawHeading) : Prop where
  within : ∀ h ∈ headings, start < h.line ∧ h.line ≤ last
  level : ∀ h ∈ headings, 0 < h.level
  outside : ∀ h ∈ headings, Outside lines start h.line
  increasing : headings.Pairwise fun g h => g.line < h.line

theorem Headings.nil : Headings lines start ln [] :=
  ⟨fun _ h => (List.not_mem_nil h).elim, fun _ h => (List.not_mem_nil h).elim,
    fun _ h => (List.not_mem_nil h).elim, .nil⟩

theorem Headings.mono {headings : List RawHeading} {last : Nat} (h : Headings lines start ln headings)
    (hle : ln ≤ last) : Headings lines start last headings :=
  { h with within := fun g hg => ⟨(h.within g hg).1, (h.within g hg).2.trans hle⟩ }

theorem Headings.push {headings : List RawHeading} {new : RawHeading} {last : Nat}
    (h : Headings lines start ln headings) (hline : ln < new.line) (hlast : new.line ≤ last)
    (hstart : start ≤ ln) (hlevel : 0 < new.level) (hout : Outside lines start new.line) :
    Headings lines start last (headings ++ [new]) := by
  have hold := h.mono (hline.le.trans hlast)
  refine ⟨?_, ?_, ?_, ?_⟩
  · exact List.forall_mem_append.mpr ⟨hold.within, List.forall_mem_singleton.mpr ⟨by omega, hlast⟩⟩
  · exact List.forall_mem_append.mpr ⟨hold.level, List.forall_mem_singleton.mpr hlevel⟩
  · exact List.forall_mem_append.mpr ⟨hold.outside, List.forall_mem_singleton.mpr hout⟩
  · refine List.pairwise_append.mpr ⟨h.increasing, List.pairwise_singleton _ _, fun g hg => ?_⟩
    exact List.forall_mem_singleton.mpr ((h.within g hg).2.trans_lt hline)

/-- What holds of the scan behind a line. -/
structure Scanned (lines : List Line) (start ln : Nat) (st : ScanState) : Prop where
  fence : st.fence = fenceBefore lines start (ln + 1)
  headings : Headings lines start ln st.headings
  /-- The pending line is the one just read, and no heading yet. -/
  pending : ∀ p ∈ st.pendingPara, p.1 = ln ∧ start < ln ∧ Outside lines start ln ∧
    Headings lines start (ln - 1) st.headings

theorem Scanned.step (hstart : start ≤ ln) (h : Scanned lines start ln st) :
    Scanned lines start (ln + 1) (scanLine st ln (lineOf lines (ln + 1))) := by
  have hfence : (scanLine st ln (lineOf lines (ln + 1))).fence =
      fenceBefore lines start (ln + 1 + 1) := by
    rw [scanLine_fence, h.fence, fenceBefore_succ (Nat.lt_succ_of_le hstart)]
  have hnone {p : Option (Nat × Line)} {q : Nat × Line → Prop} (hp : p = none) : ∀ x ∈ p, q x := by
    intro x hx
    rw [hp] at hx
    exact nomatch hx
  rcases scanLine_cases st ln (lineOf lines (ln + 1)) with
    ⟨hkeep, hpend⟩ | ⟨htext, hkeep, hpend⟩ | ⟨htext, hpend, level, text, hatx, hpush⟩ |
    ⟨htext, hpend, level, p, hset, hp, hpush⟩
  · refine ⟨hfence, ?_, hnone hpend⟩
    rw [hkeep]
    exact h.headings.mono (Nat.le_succ ln)
  · refine ⟨hfence, ?_, ?_⟩
    · rw [hkeep]
      exact h.headings.mono (Nat.le_succ ln)
    · rw [hpend, hkeep]
      rintro p ⟨⟩
      exact ⟨rfl, Nat.lt_succ_of_le hstart, (h.fence ▸ htext).outside_succ hstart, h.headings⟩
  · refine ⟨hfence, ?_, hnone hpend⟩
    rw [hpush]
    exact h.headings.push (Nat.lt_succ_self ln) le_rfl hstart (atxHeading_level hatx)
      ((h.fence ▸ htext).outside_succ hstart)
  · refine ⟨hfence, ?_, hnone hpend⟩
    obtain ⟨hline, hlt, hout, hbefore⟩ := h.pending p hp
    rw [hpush]
    refine hbefore.push ?_ ?_ (Nat.le_sub_one_of_lt hlt) (setextUnderline_level hset) ?_
    · dsimp only
      omega
    · dsimp only
      omega
    · dsimp only
      rw [hline]
      exact hout

theorem drop_eq_lineOf (h : ln < lines.length) :
    lines.drop ln = lineOf lines (ln + 1) :: lines.drop (ln + 1) := by
  rw [List.drop_eq_getElem_cons h, lineOf, Nat.add_sub_cancel, List.getD_eq_getElem _ _ h]

theorem scanFrom_cons (i : Nat) (line : Line) (rest : List Line) :
    scanFrom st i (line :: rest) = scanFrom (scanLine st i line) (i + 1) rest := by
  rw [scanFrom, List.zipIdx_cons, List.foldl_cons]
  rfl

theorem Scanned.run (hstart : start ≤ ln) (hle : ln ≤ lines.length) (h : Scanned lines start ln st) :
    Scanned lines start lines.length (scanFrom st ln (lines.drop ln)) := by
  induction hn : lines.length - ln generalizing ln st with
  | zero =>
    have heq : ln = lines.length := by omega
    rw [heq, List.drop_length]
    exact heq ▸ h
  | succ n ih =>
    rw [drop_eq_lineOf (by omega), scanFrom_cons]
    exact ih (by omega) (by omega) (h.step hstart) (by omega)

theorem Scanned.init : Scanned lines start start ⟨none, none, []⟩ :=
  ⟨fenceBefore_start.symm, .nil, fun _ h => nomatch h⟩

theorem scan_contentStart_le : (ScanResult.scan lines).contentStart ≤ lines.length := scanFrontMatter_le

theorem scan_headings :
    Headings lines (ScanResult.scan lines).contentStart lines.length (ScanResult.scan lines).headings :=
  (Scanned.init.run le_rfl scanFrontMatter_le).headings

end Travsr.Analysis
