import Travsr.Analysis.MarkdownPartition

namespace Travsr.Analysis

open Travsr.Core Travsr.Core.Text

variable {lines : List Line} {start last a b i j k ln : Nat} {p : Nat × Nat}

/-! ### The lines of a fence -/

/-- The lines of a fence of a text that is read from behind `start` up to `last`. -/
structure FenceSpan (lines : List Line) (start last i j : Nat) : Prop where
  within : start < i ∧ i ≤ j ∧ j ≤ last
  opens : fenceBefore lines start i = none ∧ fenceBefore lines start (i + 1) ≠ none
  stays : ∀ k, i < k → k ≤ j → fenceBefore lines start k ≠ none
  ends : j = last ∨ fenceBefore lines start (j + 1) = none

theorem FenceSpan.unique (h : FenceSpan lines start last i j) {j' : Nat}
    (h' : FenceSpan lines start last i j') : j = j' := by
  rcases Nat.lt_trichotomy j j' with hlt | heq | hgt
  · rcases h.ends with hend | hend
    · have := h'.within
      omega
    · exact absurd hend (h'.stays (j + 1) (Nat.lt_succ_of_le h.within.2.1) hlt)
  · exact heq
  · rcases h'.ends with hend | hend
    · have := h.within
      omega
    · exact absurd hend (h.stays (j' + 1) (Nat.lt_succ_of_le h'.within.2.1) hgt)

theorem exists_fenceSpan (hstart : start < i) (hij : i ≤ j) (hj : j ≤ last)
    (hopens : fenceBefore lines start i = none ∧ fenceBefore lines start (i + 1) ≠ none)
    (hstays : ∀ k, i < k → k ≤ j → fenceBefore lines start k ≠ none) :
    ∃ j', j ≤ j' ∧ FenceSpan lines start last i j' := by
  induction hn : last - j generalizing j with
  | zero => exact ⟨j, le_rfl, ⟨hstart, hij, hj⟩, hopens, hstays, .inl (by omega)⟩
  | succ n ih =>
    by_cases hend : fenceBefore lines start (j + 1) = none
    · exact ⟨j, le_rfl, ⟨hstart, hij, hj⟩, hopens, hstays, .inr hend⟩
    · have hmore : ∀ k, i < k → k ≤ j + 1 → fenceBefore lines start k ≠ none := by
        intro k h1 h2
        rcases Nat.eq_or_lt_of_le h2 with rfl | hlt
        · exact hend
        · exact hstays k h1 (Nat.le_of_lt_succ hlt)
      obtain ⟨j', hle, hspan⟩ := ih (by omega) (by omega) hmore (by omega)
      exact ⟨j', by omega, hspan⟩

theorem fenceBefore_restart (hstart : start < a) (hout : fenceBefore lines start a = none) (hle : a ≤ ln) :
    fenceBefore lines (a - 1) ln = fenceBefore lines start ln := by
  have hpos : a - 1 + 1 = a := by omega
  rw [fenceBefore, fenceBefore, numbered_split (show start + 1 ≤ a - 1 + 1 by omega)
    (show a - 1 ≤ ln - 1 by omega), List.foldl_append]
  rw [fenceBefore] at hout
  rw [hout]

/-- Inside a fence of many lines, neither the line that opens it nor the last one. -/
def LongInterior (lines : List Line) (start ln : Nat) : Prop :=
  ∃ i j, FenceSpan lines start lines.length i j ∧ FENCE_ELIDE_THRESHOLD_LINES ≤ j + 1 - i ∧ i < ln ∧ ln < j

theorem LongInterior.inside (h : LongInterior lines start ln) : fenceBefore lines start ln ≠ none := by
  obtain ⟨i, j, hspan, -, hi, hj⟩ := h
  exact hspan.stays ln hi hj.le

theorem FenceSpan.of_outside (h : FenceSpan lines (a - 1) last i j) (hstart : start < a)
    (hout : fenceBefore lines start a = none) (hlast : last ≤ lines.length) :
    ∃ j', j ≤ j' ∧ FenceSpan lines start lines.length i j' := by
  have hwithin := h.within
  have hsame {k : Nat} (hk : a ≤ k) := fenceBefore_restart hstart hout hk
  refine exists_fenceSpan (by omega) hwithin.2.1 (by omega) ⟨?_, ?_⟩ fun k h1 h2 => ?_
  · rw [← hsame (by omega)]
    exact h.opens.1
  · rw [← hsame (by omega)]
    exact h.opens.2
  · rw [← hsame (by omega)]
    exact h.stays k h1 h2

/-! ### Where the embedded text comes from -/

/-- What stands in a line of the embedded text: a line of the document, or the marker. -/
inductive Embedded
  | line (ln : Nat) (text : Line)
  | elided (hidden : List Nat)

def Embedded.text : Embedded → Line
  | line _ text => text
  | elided hidden => elisionMarker hidden.length

def Embedded.hidden : Embedded → List Nat
  | line _ _ => []
  | elided hidden => hidden

def Embedded.shown (numbered : Nat × Line) : Embedded := .line numbered.1 numbered.2

/-- The lines behind the one that opens a fence, as `elidedBlock` puts them. -/
def embedBlock (block : List (Nat × Line)) : List Embedded :=
  if FENCE_ELIDE_THRESHOLD_LINES ≤ block.length + 1 then
    let hidden := (block.dropLast.drop FENCE_KEEP_LINES).map Prod.fst
    (block.dropLast.take FENCE_KEEP_LINES).map Embedded.shown ++
      (if 0 < hidden.length then [.elided hidden] else []) ++ block.getLast?.toList.map Embedded.shown
  else block.map Embedded.shown

/-- The lines of `elideLines`, each with where it comes from. -/
def embedLines : Nat → List (Nat × Line) → List Embedded
  | 0, _ => []
  | _, [] => []
  | fuel + 1, line :: rest =>
    match fenceOpen (trimChars line.2) with
    | none => .shown line :: embedLines fuel rest
    | some (fchar, flen) =>
      let reach := fenceReach fchar flen (rest.map Prod.snd)
      .shown line :: embedBlock (rest.take reach) ++ embedLines fuel (rest.drop reach)

def hiddenLines (lines : List Line) (piece : Nat × Nat) : List Nat :=
  (embedLines (numbered lines piece.1 piece.2).length (numbered lines piece.1 piece.2)).flatMap
    Embedded.hidden

theorem map_shown_text (l : List (Nat × Line)) : (l.map Embedded.shown).map Embedded.text = l.map Prod.snd := by
  rw [List.map_map]
  rfl

theorem embedBlock_text (block : List (Nat × Line)) :
    (embedBlock block).map Embedded.text = elidedBlock (block.map Prod.snd) := by
  unfold embedBlock elidedBlock
  rw [List.length_map]
  split_ifs with hlong
  · have hlen : ((block.dropLast.drop FENCE_KEEP_LINES).map Prod.fst).length =
        block.length - 1 - FENCE_KEEP_LINES := by
      rw [List.length_map, List.length_drop, List.length_dropLast]
    dsimp only
    rw [hlen, List.map_append, List.map_append, map_shown_text, map_shown_text, List.map_take,
      List.map_dropLast, List.getLast?_map, apply_ite (List.map Embedded.text)]
    congr 2
    · split_ifs
      · rw [List.map_singleton, Embedded.text, hlen]
      · rfl
    · cases block.getLast? <;> rfl
  · exact map_shown_text block

/-- The body of a piece is what `embedLines` holds. -/
theorem embedLines_text (fuel : Nat) (l : List (Nat × Line)) :
    (embedLines fuel l).map Embedded.text = elideLines fuel (l.map Prod.snd) := by
  induction fuel generalizing l with
  | zero => rfl
  | succ fuel ih =>
    cases l with
    | nil => rfl
    | cons line rest =>
      rw [embedLines, List.map_cons, elideLines]
      cases fenceOpen (trimChars line.2) with
      | none =>
        dsimp only
        rw [List.map_cons, ih]
        rfl
      | some opened =>
        dsimp only
        rw [List.map_append, List.map_cons, embedBlock_text, ih, List.map_take, List.map_drop]
        rfl

theorem bodyText_eq (lines : List Line) (p : Nat × Nat) :
    bodyText lines p = trimChars (List.intercalate ['\n']
      ((embedLines (numbered lines p.1 p.2).length (numbered lines p.1 p.2)).map Embedded.text)) := by
  rw [bodyText, embedLines_text]

/-! ### Which lines the marker replaces -/

theorem numbered_cons (h : a ≤ b) :
    numbered lines a b = (a, lineOf lines a) :: numbered lines (a + 1) b := by
  rw [numbered_split (Nat.le_succ a) h, numbered_self]
  rfl

theorem numbered_length : (numbered lines a b).length = b + 1 - a := by
  rw [numbered, List.length_map, List.length_range']

theorem numbered_take {n : Nat} (h : a + n ≤ b + 1) (hpos : 0 < a + n) :
    (numbered lines a b).take n = numbered lines a (a + n - 1) := by
  rw [numbered_split (show a ≤ a + n - 1 + 1 by omega) (show a + n - 1 ≤ b by omega)]
  refine List.take_left' ?_
  rw [numbered_length]
  omega

theorem numbered_drop {n : Nat} (h : a + n ≤ b + 1) (hpos : 0 < a + n) :
    (numbered lines a b).drop n = numbered lines (a + n) b := by
  rw [numbered_split (show a ≤ a + n - 1 + 1 by omega) (show a + n - 1 ≤ b by omega)]
  rw [List.drop_left' (by rw [numbered_length]; omega), Nat.sub_add_cancel hpos]

theorem fenceReach_cons (fchar : Char) (flen : Nat) (line : Line) (rest : List Line) :
    fenceReach fchar flen (line :: rest) =
      if isFenceClose (trimChars line) fchar flen then 1 else fenceReach fchar flen rest + 1 := by
  unfold fenceReach
  rw [List.findIdx?_cons]
  split_ifs
  · rfl
  · cases List.findIdx? (fun line => isFenceClose (trimChars line) fchar flen) rest <;> rfl

/-- The lines that `fenceReach` counts are those before which the fence is open. -/
theorem fenceReach_spec {fchar : Char} {flen : Nat} (hstart : start < a) (hle : a ≤ b + 1)
    (hopen : fenceBefore lines start a = some (fchar, flen)) :
    a + fenceReach fchar flen ((numbered lines a b).map Prod.snd) ≤ b + 1 ∧
    (∀ k, a ≤ k → k < a + fenceReach fchar flen ((numbered lines a b).map Prod.snd) →
      fenceBefore lines start k ≠ none) ∧
    (a + fenceReach fchar flen ((numbered lines a b).map Prod.snd) = b + 1 ∨
      fenceBefore lines start (a + fenceReach fchar flen ((numbered lines a b).map Prod.snd)) = none) := by
  induction hn : b + 1 - a generalizing a with
  | zero =>
    have heq : a = b + 1 := by omega
    rw [numbered_empty (by omega)]
    exact ⟨hle, fun k h1 h2 => absurd h2 (Nat.not_lt_of_le h1), .inl heq⟩
  | succ n ih =>
    have hne : fenceBefore lines start a ≠ none := by
      rw [hopen]
      exact Option.some_ne_none _
    have hnext : fenceBefore lines start (a + 1) = fenceStep (fenceBefore lines start a) (lineOf lines a) :=
      fenceBefore_succ hstart
    rw [hopen, fenceStep] at hnext
    rw [numbered_cons (by omega), List.map_cons, fenceReach_cons]
    dsimp only at hnext ⊢
    split_ifs at hnext ⊢ with hclose
    · refine ⟨by omega, fun k h1 h2 => ?_, .inr hnext⟩
      rwa [show k = a by omega]
    · obtain ⟨hreach, hstays, hends⟩ := ih (by omega) (by omega) hnext (by omega)
      have hshift (n : Nat) : a + (n + 1) = a + 1 + n := by omega
      rw [hshift]
      refine ⟨hreach, fun k h1 h2 => ?_, hends⟩
      rcases Nat.eq_or_lt_of_le h1 with rfl | hlt
      · exact hne
      · exact hstays k hlt h2

theorem mem_embedBlock_hidden (hle : a ≤ b + 1) :
    ln ∈ (embedBlock (numbered lines a b)).flatMap Embedded.hidden ↔
      FENCE_ELIDE_THRESHOLD_LINES ≤ b + 2 - a ∧ a + FENCE_KEEP_LINES ≤ ln ∧ ln < b := by
  have hnone (l : List (Nat × Line)) : (l.map Embedded.shown).flatMap Embedded.hidden = [] := by
    rw [List.flatMap_eq_nil_iff]
    intro x hx
    obtain ⟨y, -, rfl⟩ := List.mem_map.mp hx
    rfl
  have hlen : (numbered lines a b).length + 1 = b + 2 - a := by
    rw [numbered_length]
    omega
  unfold embedBlock
  rw [hlen]
  split_ifs with hlong
  · have hpos : 0 < b := by
      have hbound : FENCE_ELIDE_THRESHOLD_LINES = 40 := rfl
      omega
    have hdrop : (numbered lines a b).dropLast = numbered lines a (b - 1) := by
      obtain ⟨c, rfl⟩ : ∃ c, b = c + 1 := ⟨b - 1, by omega⟩
      have hbound : FENCE_ELIDE_THRESHOLD_LINES = 40 := rfl
      rw [numbered_succ (by omega), List.dropLast_concat, Nat.add_sub_cancel]
    have hkeep : FENCE_ELIDE_THRESHOLD_LINES = 40 ∧ FENCE_KEEP_LINES = 10 := ⟨rfl, rfl⟩
    have hhidden : (numbered lines a (b - 1)).drop FENCE_KEEP_LINES =
        numbered lines (a + FENCE_KEEP_LINES) (b - 1) := numbered_drop (by omega) (by omega)
    have hfst : (numbered lines (a + FENCE_KEEP_LINES) (b - 1)).map Prod.fst =
        List.range' (a + FENCE_KEEP_LINES) (b - 1 + 1 - (a + FENCE_KEEP_LINES)) := by
      rw [numbered, List.map_map]
      exact List.map_id _
    dsimp only
    rw [List.flatMap_append, List.flatMap_append, hnone, hnone, List.nil_append, List.append_nil, hdrop,
      hhidden, hfst, List.length_range', if_pos (by omega)]
    change ln ∈ _ ++ [] ↔ _
    rw [List.append_nil]
    change ln ∈ List.range' _ _ ↔ _
    rw [mem_range]
    omega
  · rw [hnone]
    simp [hlong]

theorem embedLines_nil (fuel : Nat) : embedLines fuel [] = [] := by
  cases fuel <;> rfl

/-- The lines that the marker replaces stand in fences of many lines, as the piece itself reads them. -/
theorem mem_embedLines_hidden {fuel : Nat} (hstart : start < a) (hfuel : b + 1 - a ≤ fuel) (hle : a ≤ b + 1)
    (hout : a ≤ b → fenceBefore lines start a = none) :
    ln ∈ (embedLines fuel (numbered lines a b)).flatMap Embedded.hidden ↔
      ∃ i j, a ≤ i ∧ FenceSpan lines start b i j ∧ FENCE_ELIDE_THRESHOLD_LINES ≤ j + 1 - i ∧
        i + FENCE_KEEP_LINES < ln ∧ ln < j := by
  induction fuel generalizing a with
  | zero =>
    rw [numbered_empty (by omega), embedLines_nil]
    refine ⟨fun h => (List.not_mem_nil h).elim, ?_⟩
    rintro ⟨i, j, hai, hspan, -⟩
    have := hspan.within
    omega
  | succ fuel ih =>
    rcases Nat.lt_or_ge b a with hempty | hab
    · rw [numbered_empty hempty, embedLines_nil]
      refine ⟨fun h => (List.not_mem_nil h).elim, ?_⟩
      rintro ⟨i, j, hai, hspan, -⟩
      have := hspan.within
      omega
    · have hnext : fenceBefore lines start (a + 1) = fenceStep (fenceBefore lines start a) (lineOf lines a) :=
        fenceBefore_succ hstart
      rw [hout hab, fenceStep] at hnext
      rw [numbered_cons hab, embedLines]
      cases hopen : fenceOpen (trimChars (lineOf lines a)) with
      | none =>
        rw [hopen] at hnext
        dsimp only
        have hcons : ln ∈ (Embedded.shown (a, lineOf lines a) ::
            embedLines fuel (numbered lines (a + 1) b)).flatMap Embedded.hidden ↔
            ln ∈ (embedLines fuel (numbered lines (a + 1) b)).flatMap Embedded.hidden := Iff.rfl
        rw [hcons, ih (by omega) (by omega) (by omega) fun _ => hnext]
        constructor
        · rintro ⟨i, j, hai, rest⟩
          exact ⟨i, j, by omega, rest⟩
        · rintro ⟨i, j, hai, hspan, rest⟩
          refine ⟨i, j, Nat.lt_of_le_of_ne hai ?_, hspan, rest⟩
          rintro rfl
          exact hspan.opens.2 hnext
      | some opened =>
        obtain ⟨fchar, flen⟩ := opened
        rw [hopen] at hnext
        dsimp only
        obtain ⟨hreach, hstays, hends⟩ :=
          fenceReach_spec (b := b) (show start < a + 1 by omega) (by omega) hnext
        generalize fenceReach fchar flen ((numbered lines (a + 1) b).map Prod.snd) = n at hreach hstays hends ⊢
        -- the fence that opens here reaches the line `a + n`
        have hspan : FenceSpan lines start b a (a + n) := by
          refine ⟨⟨hstart, Nat.le_add_right a n, by omega⟩, ⟨hout hab, ?_⟩, fun k h1 h2 => ?_, ?_⟩
          · rw [hnext]
            exact Option.some_ne_none _
          · exact hstays k h1 (by omega)
          · rw [show a + n + 1 = a + 1 + n by omega]
            exact hends.imp_left fun h => by omega
        rw [numbered_take hreach (by omega), numbered_drop hreach (by omega)]
        have hcons : ln ∈ (Embedded.shown (a, lineOf lines a) :: embedBlock (numbered lines (a + 1) (a + 1 + n - 1)) ++
            embedLines fuel (numbered lines (a + 1 + n) b)).flatMap Embedded.hidden ↔
            ln ∈ (embedBlock (numbered lines (a + 1) (a + 1 + n - 1))).flatMap Embedded.hidden ∨
              ln ∈ (embedLines fuel (numbered lines (a + 1 + n) b)).flatMap Embedded.hidden := by
          rw [List.flatMap_append, List.mem_append]
          exact Iff.rfl
        rw [hcons, mem_embedBlock_hidden (by omega),
          ih (by omega) (by omega) (by omega) fun hle => hends.resolve_left (by omega)]
        constructor
        · rintro (hblock | ⟨i, j, hai, rest⟩)
          · exact ⟨a, a + n, le_rfl, hspan, by omega, by omega, by omega⟩
          · exact ⟨i, j, by omega, rest⟩
        · rintro ⟨i, j, hai, hspan', hlong, hkeep, hlast⟩
          rcases Nat.eq_or_lt_of_le hai with rfl | hlt
          · have hj := hspan.unique hspan'
            exact .inl ⟨by omega, by omega, by omega⟩
          · refine .inr ⟨i, j, Nat.le_of_not_lt fun hin => ?_, hspan', hlong, hkeep, hlast⟩
            exact hspan.stays i hlt (by omega) hspan'.opens.1

theorem mem_hiddenLines (hpos : 0 < p.1) (hle : p.1 ≤ p.2 + 1) :
    ln ∈ hiddenLines lines p ↔ ∃ i j, FenceSpan lines (p.1 - 1) p.2 i j ∧
      FENCE_ELIDE_THRESHOLD_LINES ≤ j + 1 - i ∧ i + FENCE_KEEP_LINES < ln ∧ ln < j := by
  have hout : fenceBefore lines (p.1 - 1) p.1 = none := by
    have hstart : fenceBefore lines (p.1 - 1) (p.1 - 1 + 1) = none := fenceBefore_start
    rwa [Nat.sub_add_cancel hpos] at hstart
  rw [hiddenLines, mem_embedLines_hidden (Nat.sub_lt hpos Nat.one_pos) numbered_length.ge hle fun _ => hout]
  constructor
  · rintro ⟨i, j, -, rest⟩
    exact ⟨i, j, rest⟩
  · rintro ⟨i, j, hspan, rest⟩
    have := hspan.within
    exact ⟨i, j, by omega, hspan, rest⟩

/-! ### Every other line is shown -/

theorem embedBlock_shows {block : List (Nat × Line)} {x : Nat × Line} (h : x ∈ block) :
    .shown x ∈ embedBlock block ∨ x.1 ∈ (embedBlock block).flatMap Embedded.hidden := by
  unfold embedBlock
  split_ifs with hlong
  · dsimp only
    have hne : block ≠ [] := List.ne_nil_of_mem h
    rw [← List.dropLast_append_getLast hne, List.mem_append, List.mem_singleton] at h
    rcases h with h | h
    · rw [← List.take_append_drop FENCE_KEEP_LINES block.dropLast, List.mem_append] at h
      rcases h with h | h
      · exact .inl (List.mem_append_left _ (List.mem_append_left _ (List.mem_map_of_mem h)))
      · have hfst := List.mem_map_of_mem (f := Prod.fst) h
        refine .inr (List.mem_flatMap.mpr ⟨.elided _, ?_, hfst⟩)
        rw [if_pos (List.length_pos_of_mem hfst)]
        exact List.mem_append_left _ (List.mem_append_right _ List.mem_cons_self)
    · refine .inl (List.mem_append_right _ ?_)
      rw [List.getLast?_eq_getLast_of_ne_nil hne, ← h]
      exact List.mem_cons_self
  · exact .inl (List.mem_map_of_mem h)

theorem embedLines_shows {fuel : Nat} {l : List (Nat × Line)} {x : Nat × Line} (hfuel : l.length ≤ fuel)
    (h : x ∈ l) :
    .shown x ∈ embedLines fuel l ∨ x.1 ∈ (embedLines fuel l).flatMap Embedded.hidden := by
  induction fuel generalizing l with
  | zero =>
    rw [List.length_eq_zero_iff.mp (Nat.le_zero.mp hfuel)] at h
    exact (List.not_mem_nil h).elim
  | succ fuel ih =>
    cases l with
    | nil => exact (List.not_mem_nil h).elim
    | cons line rest =>
      have hlen := Nat.le_of_succ_le_succ hfuel
      rw [embedLines]
      cases fenceOpen (trimChars line.2) with
      | none =>
        dsimp only
        rcases List.mem_cons.mp h with rfl | h
        · exact .inl List.mem_cons_self
        · exact (ih hlen h).imp (List.mem_cons_of_mem _) id
      | some opened =>
        dsimp only
        rw [List.flatMap_append, List.mem_append, List.mem_append]
        rcases List.mem_cons.mp h with rfl | h
        · exact .inl (.inl List.mem_cons_self)
        · rw [← List.take_append_drop (fenceReach opened.1 opened.2 (rest.map Prod.snd)) rest,
            List.mem_append] at h
          rcases h with h | h
          · exact (embedBlock_shows h).imp (fun h => .inl (List.mem_cons_of_mem _ h)) .inl
          · refine (ih ?_ h).imp .inr .inr
            exact (List.drop_sublist _ rest).length_le.trans hlen

/-! ### Trimming keeps what is not blank -/

theorem infix_dropWhile {q : Char → Bool} {t x : Line} (h : t <:+: x)
    (hhead : ∃ c ∈ t.head?, q c = false) : t <:+: x.dropWhile q := by
  obtain ⟨pre, post, rfl⟩ := h
  obtain ⟨c, hc, hq⟩ := hhead
  obtain ⟨rest, rfl⟩ : ∃ rest, t = c :: rest := by
    cases t with
    | nil => exact nomatch hc
    | cons d rest =>
      obtain rfl := Option.some.inj hc
      exact ⟨rest, rfl⟩
  have hkeep : (c :: rest ++ post).dropWhile q = c :: rest ++ post := by
    rw [List.cons_append, List.dropWhile_cons, hq]
    rfl
  rw [List.append_assoc, List.dropWhile_append, hkeep]
  split_ifs
  · exact ⟨[], post, rfl⟩
  · exact ⟨pre.dropWhile q, post, by rw [List.append_assoc]⟩

theorem trimChars_isInfix (l : Line) : trimChars l <:+: l :=
  (List.rdropWhile_prefix isWhitespace (l.dropWhile isWhitespace)).isInfix.trans
    (List.dropWhile_suffix isWhitespace).isInfix

theorem trimChars_head {l : Line} (h : trimChars l ≠ []) :
    ∃ c ∈ (trimChars l).head?, isWhitespace c = false := by
  obtain ⟨c, rest, hc⟩ := List.exists_cons_of_ne_nil h
  obtain ⟨post, hpost⟩ : trimChars l <+: l.dropWhile isWhitespace :=
    List.rdropWhile_prefix isWhitespace (l.dropWhile isWhitespace)
  have hdrop : (l.dropWhile isWhitespace).head? = some c := by
    rw [← hpost, hc]
    rfl
  have hnot := List.head?_dropWhile_not isWhitespace l
  rw [hdrop] at hnot
  exact ⟨c, by rw [hc]; rfl, hnot⟩

theorem trimChars_last {l : Line} (h : trimChars l ≠ []) :
    ∃ c ∈ (trimChars l).getLast?, isWhitespace c = false := by
  refine ⟨(trimChars l).getLast h, List.getLast?_eq_getLast_of_ne_nil h, ?_⟩
  exact Bool.eq_false_iff.mpr (List.rdropWhile_last_not isWhitespace (l.dropWhile isWhitespace) h)

theorem infix_trimChars {t x : Line} (h : t <:+: x) (hhead : ∃ c ∈ t.head?, isWhitespace c = false)
    (hlast : ∃ c ∈ t.getLast?, isWhitespace c = false) : t <:+: trimChars x := by
  have hfront := infix_dropWhile h hhead
  have hrev := List.reverse_infix.mpr hfront
  rw [← List.head?_reverse] at hlast
  have hback := List.reverse_infix.mpr (infix_dropWhile hrev hlast)
  rwa [List.reverse_reverse] at hback

theorem infix_intercalate {sep l : Line} {ls : List Line} (h : l ∈ ls) : l <:+: List.intercalate sep ls := by
  induction ls with
  | nil => exact (List.not_mem_nil h).elim
  | cons x ls ih =>
    cases ls with
    | nil =>
      rw [List.mem_singleton.mp h, List.intercalate_singleton]
    | cons y ls =>
      rw [List.intercalate_cons_cons]
      rcases List.mem_cons.mp h with rfl | h
      · exact ⟨[], sep ++ List.intercalate sep (y :: ls), by simp⟩
      · obtain ⟨pre, post, heq⟩ := ih h
        refine ⟨x ++ sep ++ pre, post, ?_⟩
        rw [← heq]
        simp only [List.append_assoc]

theorem infix_bodyText (h1 : p.1 ≤ ln) (h2 : ln ≤ p.2) (hblank : ¬ Blank lines ln)
    (hshown : ln ∉ hiddenLines lines p) : trimChars (lineOf lines ln) <:+: bodyText lines p := by
  have hmem : (ln, lineOf lines ln) ∈ numbered lines p.1 p.2 :=
    List.mem_map.mpr ⟨ln, mem_range.mpr ⟨h1, h2⟩, rfl⟩
  have hline := (embedLines_shows le_rfl hmem).resolve_right hshown
  rw [bodyText_eq]
  refine infix_trimChars ?_ (trimChars_head hblank) (trimChars_last hblank)
  exact (trimChars_isInfix _).trans (infix_intercalate (List.mem_map_of_mem hline))

/-! ### Prose -/

def Section.headingLines (lines : List Line) (s : Section) : List Nat :=
  if s.isPreamble then []
  else if atxHeading (trimChars (lineOf lines s.lineStart)) = none then [s.lineStart, s.lineStart + 1]
  else [s.lineStart]

/-- Lines behind the front matter that belong to no fence and head no section. -/
structure Prose (lines : List Line) (start : Nat) (sections : List Section) (ln : Nat) : Prop where
  within : start < ln ∧ ln ≤ lines.length
  outside : Outside lines start ln
  nonblank : ¬ Blank lines ln
  notHeading : ∀ s ∈ sections, ln ∉ s.headingLines lines

structure KeepsProse (lines : List Line) (start : Nat) (sections : List Section) (chunks : List Chunk) :
    Prop where
  prose : ∀ ln, Prose lines start sections ln →
    ∃ c ∈ chunks, (c.lineStart ≤ ln ∧ ln ≤ c.lineEnd) ∧
      (∀ d ∈ chunks, d.lineStart ≤ ln → ln ≤ d.lineEnd → d = c) ∧
      trimChars (lineOf lines ln) <:+: c.embedText
  replaced : ∀ s ∈ sections, ∀ pieces, splitSection lines s.bodyFrom s.lineEnd = some pieces →
    ∀ p ∈ pieces, ∀ ln ∈ hiddenLines lines p, LongInterior lines start ln

/-- Where a piece begins inside a fence, what it reads as a fence of many lines hides only lines that
stand inside such fences of the document. -/
def FencesReadAlike (lines : List Line) (start : Nat) (sections : List Section) : Prop :=
  ∀ s ∈ sections, ∀ pieces, splitSection lines s.bodyFrom s.lineEnd = some pieces →
    ∀ p ∈ pieces, fenceBefore lines start p.1 ≠ none →
      ∀ i j, FenceSpan lines (p.1 - 1) p.2 i j → FENCE_ELIDE_THRESHOLD_LINES ≤ j + 1 - i →
        ∀ ln, i + FENCE_KEEP_LINES < ln → ln < j → LongInterior lines start ln

theorem replaced_iff {s : Section} {pieces : List (Nat × Nat)} (hs : s.Placed lines start)
    (hsplit : s.Split lines start pieces) (hp : p ∈ pieces) :
    (∀ ln ∈ hiddenLines lines p, LongInterior lines start ln) ↔
      (fenceBefore lines start p.1 ≠ none →
        ∀ i j, FenceSpan lines (p.1 - 1) p.2 i j → FENCE_ELIDE_THRESHOLD_LINES ≤ j + 1 - i →
          ∀ ln, i + FENCE_KEEP_LINES < ln → ln < j → LongInterior lines start ln) := by
  have hplace := hs.within
  have hbody := s.bodyFrom_le
  have hwithin := hsplit.within p hp
  have hhidden (ln : Nat) : ln ∈ hiddenLines lines p ↔ _ := mem_hiddenLines (by omega) hwithin.2.1
  constructor
  · intro h _ i j hspan hlong ln hkeep hlast
    exact h ln ((hhidden ln).mpr ⟨i, j, hspan, hlong, hkeep, hlast⟩)
  · intro h ln hln
    obtain ⟨i, j, hspan, hlong, hkeep, hlast⟩ := (hhidden ln).mp hln
    by_cases hout : fenceBefore lines start p.1 = none
    · obtain ⟨j', hj, hdoc⟩ := hspan.of_outside (by omega) hout (by omega)
      exact ⟨i, j', hdoc, by omega, by omega, by omega⟩
    · exact h hout i j hspan hlong ln hkeep hlast

theorem chunks_apart {chunks : List Chunk} (h : Tiles (chunks.map Chunk.span) a b) {c d : Chunk}
    (hc : c ∈ chunks) (hd : d ∈ chunks) (hne : c ≠ d) :
    c.lineEnd < d.lineStart ∨ d.lineEnd < c.lineStart := by
  have hpair : chunks.Pairwise fun c d => c.lineEnd < d.lineStart ∨ d.lineEnd < c.lineStart :=
    (List.pairwise_map.mp h.pairwise_lt).imp .inl
  have : Std.Symm fun c d : Chunk => c.lineEnd < d.lineStart ∨ d.lineEnd < c.lineStart :=
    ⟨fun _ _ => Or.symm⟩
  exact hpair.forall hc hd hne

theorem chunkSpan_within {s : Section} {pieces : List (Nat × Nat)} {piece : (Nat × Nat) × Nat}
    (hsplit : s.Split lines start pieces) (hpiece : piece ∈ pieces.zipIdx)
    (hheading : ln ∉ s.headingLines lines) (h1 : (s.chunkSpan piece).1 ≤ ln)
    (h2 : ln ≤ (s.chunkSpan piece).2) : piece.1.1 ≤ ln ∧ ln ≤ piece.1.2 := by
  refine ⟨?_, h2⟩
  unfold Section.chunkSpan at h1
  dsimp only at h1
  split_ifs at h1 with hzero
  · have hget := List.mem_zipIdx_iff_getElem?.mp hpiece
    rw [hzero, ← List.head?_eq_getElem?] at hget
    rw [hsplit.first piece.1 hget]
    unfold Section.bodyFrom
    unfold Section.headingLines at hheading
    split_ifs at hheading ⊢ with hpre hatx
    · exact h1
    · rw [List.mem_cons, not_or] at hheading
      have := hheading.1
      omega
    · rw [List.mem_singleton] at hheading
      omega
  · exact h1

theorem bodyText_isInfix {s : Section} {pieces : List (Nat × Nat)} {header anchor : Line} {i : Nat} {c : Chunk}
    (hs : s.Placed lines start) (hsplit : s.Split lines start pieces) (hp : p ∈ pieces)
    (h : pieceChunk lines header anchor s p i = some c) : bodyText lines p <:+: c.embedText := by
  unfold pieceChunk at h
  rw [hsplit.elidedBody hs hp, Option.map_some] at h
  obtain rfl := Option.some.inj h
  dsimp only
  split_ifs with hnil
  · rw [hnil]
    exact List.nil_infix
  · exact ⟨header ++ ['\n'], [], by simp⟩

theorem keepsProse_iff (isAlphanumeric : Char → Bool) (text vnamePath : String) :
    ∃ sections chunks,
      buildSections (ScanResult.scan (docLines text)) (docLines text) = some sections ∧
      chunkMarkdown isAlphanumeric text vnamePath = some chunks ∧
      (KeepsProse (docLines text) (ScanResult.scan (docLines text)).contentStart sections chunks ↔
        FencesReadAlike (docLines text) (ScanResult.scan (docLines text)).contentStart sections) := by
  obtain ⟨sections, hsections, hplaced, a, ha, htiles, hblank⟩ := buildSections_spec (docLines text)
  obtain ⟨chunks, hchunks⟩ := chunksFrom_isSome isAlphanumeric
    (docTitle (ScanResult.scan (docLines text)) vnamePath.toList) vnamePath.toList (fun _ => 0) hplaced
  have hspans := chunksFrom_spans hplaced htiles hchunks
  refine ⟨sections, chunks, hsections, (chunkMarkdown_eq _ _ _ hsections hplaced).trans hchunks, ?_⟩
  constructor
  · intro h s hs pieces hsplit p hp
    obtain ⟨pieces', hsplit'⟩ := (hplaced s hs).split
    obtain rfl : pieces' = pieces := Option.some.inj (hsplit'.split.symm.trans hsplit)
    exact (replaced_iff (hplaced s hs) hsplit' hp).mp (h.replaced s hs pieces' hsplit p hp)
  · intro h
    have hreplaced : ∀ s ∈ sections, ∀ pieces,
        splitSection (docLines text) s.bodyFrom s.lineEnd = some pieces → ∀ p ∈ pieces,
          ∀ ln ∈ hiddenLines (docLines text) p,
            LongInterior (docLines text) (ScanResult.scan (docLines text)).contentStart ln := by
      intro s hs pieces hsplit p hp
      obtain ⟨pieces', hsplit'⟩ := (hplaced s hs).split
      obtain rfl : pieces' = pieces := Option.some.inj (hsplit'.split.symm.trans hsplit)
      exact (replaced_iff (hplaced s hs) hsplit' hp).mpr (h s hs pieces' hsplit p hp)
    refine ⟨fun ln hprose => ?_, hreplaced⟩
    have hle : a ≤ ln := Nat.le_of_not_lt fun hlt => hprose.nonblank (hblank ln hprose.within.1 hlt)
    obtain ⟨q, hq, hln⟩ := hspans.cover hle hprose.within.2
    obtain ⟨c, hc, rfl⟩ := List.mem_map.mp hq
    refine ⟨c, hc, hln, fun d hd h1 h2 => ?_, ?_⟩
    · by_contra hne
      rcases chunks_apart hspans hd hc hne with hlt | hlt
      · exact absurd (hln.1.trans h2) (Nat.not_le_of_lt hlt)
      · exact absurd (h1.trans hln.2) (Nat.not_le_of_lt hlt)
    · obtain ⟨s, hs, pieces, hsplit, piece, hpiece, anchor, hchunk⟩ := mem_chunksFrom hplaced hchunks hc
      have hp := List.fst_mem_of_mem_zipIdx hpiece
      have hin := chunkSpan_within hsplit hpiece (hprose.notHeading s hs)
        ((congrArg Prod.fst (pieceChunk_span hchunk)) ▸ hln.1)
        ((congrArg Prod.snd (pieceChunk_span hchunk)) ▸ hln.2)
      have hbody := infix_bodyText hin.1 hin.2 hprose.nonblank fun hhidden =>
        (hreplaced s hs pieces hsplit.split piece.1 hp ln hhidden).inside hprose.outside.1
      exact hbody.trans (bodyText_isInfix (hplaced s hs) hsplit hp hchunk)

def proseBehindFence : List Line :=
  "~~~".toList :: List.replicate 60 (List.replicate 64 'a') ++ "~~~".toList ::
    List.replicate 20 ['p'] ++ ['z'] :: List.replicate 25 ['p']

theorem proseBehindFence_run :
    (∀ l ∈ proseBehindFence, '\n' ∉ l ∧ stripCr l = l) ∧
    (ScanResult.scan proseBehindFence).contentStart = 0 ∧ Outside proseBehindFence 0 83 ∧
    buildSections (ScanResult.scan proseBehindFence) proseBehindFence = some [⟨[], 1, 108, true⟩] ∧
    (buildChunks Char.isAlphanum (ScanResult.scan proseBehindFence) proseBehindFence
      "docs/x.md".toList).any (fun chunks => chunks.all fun c => !c.embedText.elem 'z') = true := by
  decide +kernel

/-- The second piece begins inside the fence, takes the line that closes it for one that opens a fence,
and shows only the first ten lines of the prose. -/
theorem prose_taken_for_fence :
    ∃ text sections chunks,
      buildSections (ScanResult.scan (docLines text)) (docLines text) = some sections ∧
      chunkMarkdown Char.isAlphanum text "docs/x.md" = some chunks ∧
      ¬ KeepsProse (docLines text) (ScanResult.scan (docLines text)).contentStart sections chunks := by
  obtain ⟨hlines, hstart, hout, hsections, hchunks⟩ := proseBehindFence_run
  obtain ⟨chunks, hchunks, hlost⟩ := (Option.any_eq_true _ _).mp hchunks
  have hdoc := docLines_unlines hlines (by decide)
  refine ⟨String.ofList (proseBehindFence.flatMap fun l => l ++ ['\n']), [⟨[], 1, 108, true⟩], chunks, ?_, ?_,
    fun hkeeps => ?_⟩
  · rw [hdoc]
    exact hsections
  · unfold chunkMarkdown
    rw [← docLines, hdoc]
    exact hchunks
  · rw [hdoc, hstart] at hkeeps
    have hz : lineOf proseBehindFence 83 = ['z'] := rfl
    have hprose : Prose proseBehindFence 0 [⟨[], 1, 108, true⟩] 83 := by
      refine ⟨⟨by decide, by decide⟩, hout, ?_, List.forall_mem_singleton.mpr List.not_mem_nil⟩
      unfold Blank
      rw [hz]
      decide
    obtain ⟨c, hc, -, -, hin⟩ := hkeeps.prose 83 hprose
    rw [hz] at hin
    have hnot := List.all_eq_true.mp hlost c hc
    have hmem : 'z' ∈ c.embedText := hin.subset List.mem_cons_self
    rw [List.elem_eq_mem, decide_eq_true hmem] at hnot
    exact absurd hnot (by decide)

end Travsr.Analysis
