import Travsr.Cli.Jsonc
import Travsr.Lib.Jsonc.Strict

open Jsonc Chunks

namespace Travsr.Cli

theorem stringEnd_raw {raw : List Byte} (h : isRaw raw = true) (s : List Byte) :
    stringEnd (raw ++ quote :: s) = some (raw ++ [quote], s) := by
  have hq : quote ≠ backslash := by decide
  induction raw using isRaw.induct with
  | case1 => cases s <;> simp [stringEnd, hq]
  | case2 b =>
    simp only [isRaw, Bool.and_eq_true, bne_iff_ne] at h
    cases s <;> simp [stringEnd, h.1, h.2, hq]
  | case3 c r ih =>
    simp only [isRaw, if_true] at h
    simp [stringEnd, ih h]
  | case4 b c r hb ih =>
    simp only [isRaw, hb, if_false, Bool.and_eq_true, bne_iff_ne] at h
    simp only [List.cons_append] at ih ⊢
    simp [stringEnd, hb, h.1, ih h.2]

theorem skipString_bytes (l : StrLit) (s : List Byte) :
    skipString (l.bytes ++ s) = some (l.bytes, s) := by
  simp [skipString, StrLit.bytes, stringEnd_raw l.isRaw]

theorem stringEnd_append {s : List Byte} {p : List Byte × List Byte} (h : stringEnd s = some p) :
    p.1 ++ p.2 = s := by
  fun_induction stringEnd s generalizing p with
  | case1 => cases h
  | case2 => cases h
  | case3 => cases h; rfl
  | case4 => cases h
  | case5 c r ih =>
    obtain ⟨q, hq, rfl⟩ := Option.map_eq_some_iff.mp h
    simp [ih hq]
  | case6 => cases h; rfl
  | case7 b c r hb hb' ih =>
    obtain ⟨q, hq, rfl⟩ := Option.map_eq_some_iff.mp h
    simp [ih hq]

theorem blockEnd_append {s : List Byte} {p : List Byte × List Byte} (h : blockEnd s = some p) :
    p.1 ++ p.2 = s := by
  fun_induction blockEnd s generalizing p with
  | case1 => cases h
  | case2 b r hb =>
    cases h
    simp only [Bool.and_eq_true, decide_eq_true_eq] at hb
    obtain ⟨t, ht⟩ : ∃ t, r = slash :: t := by
      cases r with
      | nil => simp at hb
      | cons c t => exact ⟨t, by simpa using hb.2⟩
    simp [hb.1, ht]
  | case3 b r hb ih =>
    obtain ⟨q, hq, rfl⟩ := Option.map_eq_some_iff.mp h
    simp [ih hq]

def Over (b c : Byte) : Prop := c = b ∨ c = space

theorem over_refl (u : List Byte) : List.Forall₂ Over u u := List.forall₂_same.mpr fun _ _ => .inl rfl

theorem over_map {f : Byte → Byte} (hf : ∀ b, Over b (f b)) (u : List Byte) :
    List.Forall₂ Over u (u.map f) := by
  rw [List.forall₂_map_right_iff]
  exact List.forall₂_same.mpr fun b _ => hf b

theorem Over.trans {u v w : List Byte} (huv : List.Forall₂ Over u v) (hvw : List.Forall₂ Over v w) :
    List.Forall₂ Over u w := by
  induction huv generalizing w with
  | nil => exact hvw
  | cons hab _ ih =>
    cases hvw with
    | cons hbc hrest => exact .cons (hbc.elim (fun h => h ▸ hab) .inr) (ih hrest)

theorem skipStringLenient_over (b : Byte) (r : List Byte) {o t : List Byte}
    (h : skipStringLenient (b :: r) = (o, t)) :
    ∃ u, b :: r = u ++ t ∧ u ≠ [] ∧ List.Forall₂ Over u o := by
  rw [skipStringLenient, skipString] at h
  cases hend : stringEnd r with
  | none =>
    simp only [hend, Option.map_none, Option.getD_none, Prod.mk.injEq] at h
    exact ⟨o, by simp [← h.1, ← h.2], by simp [← h.1], over_refl o⟩
  | some p =>
    simp only [hend, Option.map_some, Option.getD_some, Prod.mk.injEq] at h
    exact ⟨o, by simp [← h.1, ← h.2, stringEnd_append hend], by simp [← h.1], over_refl o⟩

theorem writesOver_stripStep : WritesOver Over stripStep := by
  intro s o t h
  cases s with
  | nil => simp [stripStep] at h
  | cons b r =>
    rw [stripStep] at h
    split_ifs at h with hquote hline hblock
    · exact skipStringLenient_over b r (Option.some.inj h)
    · simp only [Option.some.injEq, Prod.mk.injEq] at h
      obtain ⟨rfl, rfl⟩ := h
      simp only [Bool.and_eq_true, decide_eq_true_eq] at hline
      have hslash : slash ≠ lf := by decide
      refine ⟨_, List.takeWhile_append_dropWhile.symm, by simp [hline.1, hslash], over_map ?_ _⟩
      intro c
      split_ifs
      · exact .inl rfl
      · exact .inr rfl
    · obtain ⟨q, hq, hp⟩ := Option.map_eq_some_iff.mp h
      simp only [Prod.mk.injEq] at hp
      obtain ⟨rfl, rfl⟩ := hp
      simp only [Bool.and_eq_true, decide_eq_true_eq] at hblock
      obtain ⟨r', rfl⟩ : ∃ r', r = asterisk :: r' := by
        cases r with
        | nil => simp at hblock
        | cons c r' => exact ⟨r', by simpa using hblock.2⟩
      refine ⟨b :: asterisk :: q.1, by simpa using (blockEnd_append hq).symm, by simp, over_map ?_ _⟩
      intro c
      split_ifs
      · exact .inl rfl
      · exact .inr rfl
    · simp only [Option.some.injEq, Prod.mk.injEq] at h
      exact ⟨[b], by simp [h.2], by simp, by simpa [← h.1] using over_refl [b]⟩

theorem shrinks_stripStep : Shrinks stripStep := writesOver_stripStep.shrinks

theorem writesOver_commaStep : WritesOver Over commaStep := by
  intro s o t h
  cases s with
  | nil => simp [commaStep] at h
  | cons b r =>
    rw [commaStep] at h
    split_ifs at h with hquote hcomma
    · exact skipStringLenient_over b r (Option.some.inj h)
    · simp only [Option.some.injEq, Prod.mk.injEq] at h
      refine ⟨[b], by simp [h.2], by simp, ?_⟩
      rw [← h.1]
      refine .cons ?_ .nil
      split_ifs
      · exact .inr rfl
      · exact .inl rfl
    · simp only [Option.some.injEq, Prod.mk.injEq] at h
      exact ⟨[b], by simp [h.2], by simp, by simpa [← h.1] using over_refl [b]⟩

theorem shrinks_commaStep : Shrinks commaStep := writesOver_commaStep.shrinks

theorem emits_byte_strip {b : Byte} (hq : b ≠ quote) (hs : b ≠ slash) :
    Emits stripStep [b] [b] := by
  apply Emits.of_step shrinks_stripStep
  intro s
  simp [stripStep, hq, hs]

theorem emits_bytes {step : List Byte → Option (List Byte × List Byte)} {u : List Byte}
    (h : ∀ b ∈ u, Emits step [b] [b]) : Emits step u u := by
  simpa using Emits.flatMap h

theorem emits_str_strip (l : StrLit) : Emits stripStep l.bytes l.bytes := by
  apply Emits.of_step shrinks_stripStep
  intro s
  have hs : skipString (quote :: (l.raw ++ [quote] ++ s)) = _ := skipString_bytes l s
  rw [stripStep, if_pos rfl, skipStringLenient, hs]
  rfl

theorem lineBlank_byte (c : Byte) : (lineBlank c).byte = if c = cr then c else space := by
  unfold lineBlank
  split_ifs with h
  · exact h.symm
  · rfl

theorem blockBlank_byte (c : Byte) :
    (blockBlank c).byte = if c = lf || c = cr then c else space := by
  unfold blockBlank
  split_ifs with h1 h2 h3 h4 h5 <;> simp_all [Blank.byte]

theorem bytes_blank (bs : List Blank) : Gap.bytes (bs.map .blank) = bs.map Blank.byte := by
  rw [Gap.bytes, List.flatMap_map, List.map_eq_flatMap]
  rfl

theorem stripStep_line (body : LineBody) (s : List Byte) (hs : s = [] ∨ ∃ t, s = lf :: t) :
    stripStep (slash :: slash :: (body.bytes ++ s)) =
      some (space :: space :: body.bytes.map fun c => (lineBlank c).byte, s) := by
  have hall : ∀ c ∈ slash :: slash :: body.bytes, decide (c ≠ lf) = true := by
    intro c hc
    have : c ≠ lf := by
      intro heq
      simp only [heq, List.mem_cons] at hc
      rcases hc with h | h | h
      · exact absurd h (by decide)
      · exact absurd h (by decide)
      · exact body.inLine h
    simpa using this
  have hsplit : slash :: slash :: (body.bytes ++ s) = (slash :: slash :: body.bytes) ++ s := rfl
  have htake : s.takeWhile (fun c => decide (c ≠ lf)) = [] := by
    rcases hs with h | ⟨t, h⟩ <;> simp [h]
  have hdrop : s.dropWhile (fun c => decide (c ≠ lf)) = s := by
    rcases hs with h | ⟨t, h⟩ <;> simp [h]
  have hq : slash ≠ quote := by decide
  have hcr : slash ≠ cr := by decide
  rw [stripStep, if_neg hq, if_pos (by simp), hsplit, List.takeWhile_append_of_pos hall,
    List.dropWhile_append_of_pos hall, htake, hdrop]
  simp [lineBlank_byte, hcr]

theorem blockEnd_body (body : BlockBody) (s : List Byte) :
    blockEnd (body.bytes ++ asterisk :: slash :: s) = some (body.bytes ++ [asterisk, slash], s) := by
  have hne : asterisk ≠ slash := by decide
  obtain ⟨bytes, h⟩ := body
  simp only
  induction bytes with
  | nil => simp [blockEnd]
  | cons b r ih =>
    have hr : ¬ [asterisk, slash] <:+: r ++ [asterisk] := fun hin => h (List.infix_cons hin)
    have hb : ¬ (b = asterisk ∧ (r ++ asterisk :: slash :: s).head? = some slash) := by
      intro hb
      apply h
      cases r with
      | nil => exact absurd hb.2 (by simp [hne])
      | cons c r =>
        have hc : c = slash := by simpa using hb.2
        rw [hb.1, hc]
        exact ⟨[], r ++ [asterisk], rfl⟩
    simp only [List.cons_append]
    rw [blockEnd, if_neg (by simpa using hb), ih hr]
    rfl

theorem stripStep_block (body : BlockBody) (s : List Byte) :
    stripStep (slash :: asterisk :: (body.bytes ++ [asterisk, slash] ++ s)) =
      some ((Trivia.blanked (.block body)).map Blank.byte, s) := by
  have h1 : slash ≠ quote := by decide
  have h2 : asterisk ≠ slash := by decide
  have hslash : (blockBlank slash).byte = space := by decide
  have hasterisk : (blockBlank asterisk).byte = space := by decide
  have hend := blockEnd_body body s
  rw [stripStep, if_neg h1, if_neg (by simpa using h2), if_pos (by simp), List.append_assoc]
  simp only [List.drop_succ_cons, List.drop_zero, List.cons_append, List.nil_append, hend,
    Option.map_some, Trivia.blanked, ← blockBlank_byte]
  simp [hslash, hasterisk, Function.comp_def, show Blank.space.byte = space from rfl]

theorem emits_trivia_strip (t : Trivia) :
    Emits stripStep t.bytes (t.blanked.map Blank.byte) := by
  cases t with
  | blank b =>
    exact emits_byte_strip (by cases b <;> decide) (by cases b <;> decide)
  | line body =>
    have hlf : Emits stripStep [lf] [lf] := emits_byte_strip (by decide) (by decide)
    intro s
    rw [Trivia.bytes, List.cons_append, List.cons_append, List.append_assoc,
      run_cons shrinks_stripStep, List.singleton_append,
      stripStep_line body _ (Or.inr ⟨s, rfl⟩)]
    have := hlf s
    simp only [List.singleton_append] at this
    simp [this, Trivia.blanked, Blank.byte, Function.comp_def]
  | block body =>
    apply Emits.of_step shrinks_stripStep
    exact fun s => stripStep_block body s

theorem emits_gap_strip (g : Gap) : Emits stripStep g.bytes g.blanked.bytes := by
  have h := Emits.flatMap (l := g) (fun t _ => emits_trivia_strip t)
  rw [Gap.blanked, bytes_blank, List.map_flatMap]
  exact h

theorem emits_label_strip (l : Label) : Emits stripStep l.bytes l.blanked.bytes := by
  have hcolon : Emits stripStep [colon] [colon] := emits_byte_strip (by decide) (by decide)
  exact (emits_str_strip l.name).append
    ((emits_gap_strip l.mid).append (hcolon.append (emits_gap_strip l.mid')))

theorem emits_commaSep_strip {α : Type} {f g : α → List Byte} {l : List α}
    (h : ∀ x ∈ l, Emits stripStep (f x) (g x)) (trailing : Bool) :
    Emits stripStep (commaSep trailing (l.map f)) (commaSep trailing (l.map g)) := by
  have hcomma : Emits stripStep [comma] [comma] := emits_byte_strip (by decide) (by decide)
  induction l with
  | nil => exact Emits.nil
  | cons x l ih =>
    have hl := ih fun y hy => h y (List.mem_cons_of_mem x hy)
    simp only [List.map_cons, commaSep, List.isEmpty_map]
    refine (h x List.mem_cons_self).append (Emits.append ?_ hl)
    split_ifs
    · exact Emits.nil
    · exact hcomma

theorem emits_group_strip {α : Type} {f g : α → List Byte} {l : List α} {opening closing : Byte}
    (ho : opening ≠ quote ∧ opening ≠ slash) (hc : closing ≠ quote ∧ closing ≠ slash)
    (h : ∀ x ∈ l, Emits stripStep (f x) (g x)) (trailing : Bool) (tail : Gap) :
    Emits stripStep (group opening closing (l.map f) trailing tail)
      (group opening closing (l.map g) trailing tail.blanked) :=
  (emits_byte_strip ho.1 ho.2).append ((emits_commaSep_strip h trailing).append
    ((emits_gap_strip tail).append (emits_byte_strip hc.1 hc.2)))

/-- `strip_comments` writes blanks for comments and leaves the rest as it is. -/
theorem emits_node_strip (n : Node) : Emits stripStep n.bytes (n.blanked true).bytes := by
  induction n using Node.induct with
  | atom a =>
    refine emits_bytes fun b hb => ?_
    have hb' := a.isAtom b hb
    exact emits_byte_strip (ne_of_isAtomByte hb' rfl) (ne_of_isAtomByte hb' rfl)
  | str l => exact emits_str_strip l
  | arr es trailing tail ih =>
    rw [Node.blanked_arr, Node.bytes_arr, Node.bytes_arr, List.map_map]
    simp only [Bool.and_true, tailBlanked, Bool.not_true, Bool.and_false, Bool.false_and, if_false, Bool.false_eq_true]
    refine emits_group_strip (by decide) (by decide) (fun e he => ?_) trailing tail
    exact (emits_gap_strip e.pre).append (Emits.nil.append ((ih e he).append (emits_gap_strip e.post)))
  | obj fs trailing tail ih =>
    rw [Node.blanked_obj, Node.bytes_obj, Node.bytes_obj, List.map_map]
    simp only [Bool.and_true, tailBlanked, Bool.not_true, Bool.and_false, Bool.false_and, if_false, Bool.false_eq_true]
    refine emits_group_strip (by decide) (by decide) (fun f hf => ?_) trailing tail
    exact (emits_gap_strip f.pre).append ((emits_label_strip f.label).append
      ((ih f hf).append (emits_gap_strip f.post)))

theorem emits_byte_comma {b : Byte} (hq : b ≠ quote) (hc : b ≠ comma) :
    Emits commaStep [b] [b] := by
  apply Emits.of_step shrinks_commaStep
  intro s
  simp [commaStep, hq, hc]

theorem emits_str_comma (l : StrLit) : Emits commaStep l.bytes l.bytes := by
  apply Emits.of_step shrinks_commaStep
  intro s
  have hs : skipString (quote :: (l.raw ++ [quote] ++ s)) = _ := skipString_bytes l s
  rw [commaStep, if_pos rfl, skipStringLenient, hs]
  rfl

theorem isAsciiWhitespace_blank (b : Blank) : isAsciiWhitespace b.byte = true := by
  cases b <;> rfl

theorem isAsciiWhitespace_gap {g : Gap} (h : OnlyBlanks g) :
    ∀ b ∈ g.bytes, isAsciiWhitespace b = true := by
  intro b hb
  obtain ⟨t, ht, hbt⟩ := List.mem_flatMap.mp hb
  obtain ⟨k, rfl⟩ := h t ht
  rw [List.mem_singleton.mp hbt]
  exact isAsciiWhitespace_blank k

theorem ne_of_isAsciiWhitespace {b c : Byte} (h : isAsciiWhitespace b = true)
    (hc : isAsciiWhitespace c = false) : b ≠ c := by
  intro heq
  rw [heq, hc] at h
  exact absurd h Bool.false_ne_true

theorem emits_gap_comma {g : Gap} (h : OnlyBlanks g) : Emits commaStep g.bytes g.bytes := by
  refine emits_bytes fun b hb => ?_
  have hb' := isAsciiWhitespace_gap h b hb
  exact emits_byte_comma (ne_of_isAsciiWhitespace hb' rfl) (ne_of_isAsciiWhitespace hb' rfl)

theorem emits_label_comma (l : Label) : Emits commaStep l.blanked.bytes l.blanked.bytes := by
  have hcolon : Emits commaStep [colon] [colon] := emits_byte_comma (by decide) (by decide)
  exact (emits_str_comma l.name).append ((emits_gap_comma (onlyBlanks_blanked l.mid)).append
    (hcolon.append (emits_gap_comma (onlyBlanks_blanked l.mid'))))

theorem skipWs_append {w s : List Byte} (h : ∀ b ∈ w, isAsciiWhitespace b = true) :
    skipWs (w ++ s) = skipWs s := List.dropWhile_append_of_pos h

theorem skipWs_cons {c : Byte} {s : List Byte} (h : isAsciiWhitespace c = false) :
    skipWs (c :: s) = c :: s := List.dropWhile_cons_of_neg (by simp [h])

/-- After blanks, `c` is what the bytes begin with. -/
def Begins (c : Byte) (u : List Byte) : Prop :=
  isAsciiWhitespace c = false ∧ ∃ w r, u = w ++ c :: r ∧ ∀ b ∈ w, isAsciiWhitespace b = true

theorem Begins.skipWs_head {c : Byte} {u : List Byte} (h : Begins c u) (s : List Byte) :
    (skipWs (u ++ s)).head? = some c := by
  obtain ⟨hc, w, r, rfl, hw⟩ := h
  rw [List.append_assoc, skipWs_append hw, List.cons_append, skipWs_cons hc]
  rfl

theorem Begins.append {c : Byte} {u : List Byte} (h : Begins c u) (v : List Byte) :
    Begins c (u ++ v) := by
  obtain ⟨hc, w, r, rfl, hw⟩ := h
  exact ⟨hc, w, r ++ v, by simp, hw⟩

theorem Begins.of_gap {c : Byte} {g : Gap} (hg : OnlyBlanks g) (hc : isAsciiWhitespace c = false)
    (r : List Byte) : Begins c (g.bytes ++ c :: r) :=
  ⟨hc, g.bytes, r, rfl, isAsciiWhitespace_gap hg⟩

def isCloser (c : Byte) : Bool := c = rbrace || c = rbracket

theorem emits_comma {c : Byte} {u v : List Byte} (hc : Begins c u) (hu : Emits commaStep u v) :
    Emits commaStep (comma :: u) ((if isCloser c then space else comma) :: v) := by
  intro s
  have hne : comma ≠ quote := by decide
  rw [List.cons_append, run_cons shrinks_commaStep, commaStep, if_neg hne, if_pos rfl]
  simp only [hc.skipWs_head s, Option.bind_some, hu s, Option.map_map, Option.some.injEq,
    isCloser, Bool.or_eq_true, decide_eq_true_eq]
  rfl

theorem exists_begins_node (n : Node) :
    ∃ c r, n.bytes = c :: r ∧ isAsciiWhitespace c = false ∧ isCloser c = false := by
  cases n with
  | atom a =>
    have ha := a.isAtom a.first List.mem_cons_self
    refine ⟨a.first, a.rest, rfl, ?_, ?_⟩
    · rw [Bool.eq_false_iff]
      intro hw
      simp only [isAsciiWhitespace, Bool.or_eq_true, decide_eq_true_eq] at hw
      rcases hw with (((h | h) | h) | h) | h <;> exact ne_of_isAtomByte ha rfl h
    · simp [isCloser, ne_of_isAtomByte ha (c := rbrace) rfl, ne_of_isAtomByte ha (c := rbracket) rfl]
  | str l => exact ⟨quote, _, rfl, rfl, rfl⟩
  | arr es trailing tail => exact ⟨lbracket, _, Node.bytes_arr es trailing tail, rfl, rfl⟩
  | obj fs trailing tail => exact ⟨lbrace, _, Node.bytes_obj fs trailing tail, rfl, rfl⟩

theorem emits_items_comma {α : Type} {f g : α → List Byte} {l : List α} {closing : Byte}
    {tail : Gap} (hc : isCloser closing = true) (ht : OnlyBlanks tail)
    (hf : ∀ x ∈ l, ∃ c, Begins c (f x) ∧ isCloser c = false)
    (h : ∀ x ∈ l, Emits commaStep (f x) (g x)) (trailing : Bool) :
    Emits commaStep (commaSep trailing (l.map f) ++ (tail.bytes ++ [closing]))
      (commaSep false (l.map g) ++
        ((if trailing && !l.isEmpty then space :: tail.bytes else tail.bytes) ++ [closing])) := by
  have hclose : isAsciiWhitespace closing = false ∧ closing ≠ quote ∧ closing ≠ comma := by
    simp only [isCloser, Bool.or_eq_true, decide_eq_true_eq] at hc
    rcases hc with h | h <;> rw [h] <;> decide
  have hend : Emits commaStep (tail.bytes ++ [closing]) (tail.bytes ++ [closing]) :=
    (emits_gap_comma ht).append (emits_byte_comma hclose.2.1 hclose.2.2)
  induction l with
  | nil => simpa [commaSep] using hend
  | cons x l ih =>
    have hx := h x List.mem_cons_self
    cases l with
    | nil =>
      cases trailing with
      | false => simpa [commaSep] using hx.append hend
      | true =>
        have hcomma := emits_comma (Begins.of_gap ht hclose.1 []) hend
        simpa [commaSep, hc] using hx.append hcomma
    | cons y l =>
      obtain ⟨c, hbegins, hnot⟩ := hf y (by simp)
      have hrest := ih (fun z hz => hf z (List.mem_cons_of_mem x hz))
        (fun z hz => h z (List.mem_cons_of_mem x hz))
      have hb : Begins c (commaSep trailing ((y :: l).map f) ++ (tail.bytes ++ [closing])) := by
        simp only [List.map_cons, commaSep, List.append_assoc]
        exact hbegins.append _
      have hcomma := emits_comma hb hrest
      simpa [commaSep, hnot] using hx.append hcomma

theorem bytes_tailBlanked (trailing empty : Bool) (tail : Gap) :
    (tailBlanked false trailing empty tail).bytes =
      if trailing && !empty then space :: tail.blanked.bytes else tail.blanked.bytes := by
  cases trailing <;> cases empty <;> rfl

theorem tailBlanked_true (trailing empty : Bool) (tail : Gap) :
    tailBlanked true trailing empty tail = tail.blanked := by
  cases trailing <;> rfl

theorem emits_group_comma {α : Type} {f g : α → List Byte} {l : List α} {opening closing : Byte}
    (ho : opening ≠ quote ∧ opening ≠ comma) (hc : isCloser closing = true)
    (hf : ∀ x ∈ l, ∃ c, Begins c (f x) ∧ isCloser c = false)
    (h : ∀ x ∈ l, Emits commaStep (f x) (g x)) (trailing : Bool) (tail : Gap) :
    Emits commaStep (group opening closing (l.map f) trailing tail.blanked)
      (group opening closing (l.map g) false (tailBlanked false trailing l.isEmpty tail)) := by
  have hitems := emits_items_comma hc (onlyBlanks_blanked tail) hf h trailing
  rw [← bytes_tailBlanked] at hitems
  exact (emits_byte_comma ho.1 ho.2).append hitems

/-- The second pass of `mask` blanks the trailing commas and no other byte. -/
theorem emits_node_comma (n : Node) :
    Emits commaStep (n.blanked true).bytes (n.blanked false).bytes := by
  induction n using Node.induct with
  | atom a =>
    refine emits_bytes fun b hb => ?_
    have hb' := a.isAtom b hb
    exact emits_byte_comma (ne_of_isAtomByte hb' rfl) (ne_of_isAtomByte hb' rfl)
  | str l => exact emits_str_comma l
  | arr es trailing tail ih =>
    simp only [Node.blanked_arr, Node.bytes_arr, List.map_map, Bool.and_true, Bool.and_false,
      tailBlanked_true]
    refine emits_group_comma (by decide) rfl (fun e _ => ?_) (fun e he => ?_) trailing tail
    · obtain ⟨c, r, hn, hws, hc⟩ := exists_begins_node (e.value.blanked true)
      refine ⟨c, ?_, hc⟩
      have hb := (Begins.of_gap (onlyBlanks_blanked e.pre) hws r).append e.post.blanked.bytes
      rw [← hn, List.append_assoc] at hb
      exact hb
    · exact (emits_gap_comma (onlyBlanks_blanked e.pre)).append
        (Emits.nil.append ((ih e he).append (emits_gap_comma (onlyBlanks_blanked e.post))))
  | obj fs trailing tail ih =>
    simp only [Node.blanked_obj, Node.bytes_obj, List.map_map, Bool.and_true, Bool.and_false,
      tailBlanked_true]
    refine emits_group_comma (by decide) rfl (fun f _ => ?_) (fun f hf => ?_) trailing tail
    · exact ⟨quote, Begins.of_gap (onlyBlanks_blanked f.pre) rfl _, rfl⟩
    · exact (emits_gap_comma (onlyBlanks_blanked f.pre)).append
        ((emits_label_comma f.label).append
          ((ih f hf).append (emits_gap_comma (onlyBlanks_blanked f.post))))

theorem run_ending_strip (d : Doc) :
    run stripStep d.ending = some (Gap.bytes (lastBlanked d.last)) := by
  unfold Doc.ending lastBlanked
  cases d.last with
  | none => rfl
  | some body =>
    have h := stripStep_line body [] (Or.inl rfl)
    rw [List.append_nil] at h
    simp only [run_cons shrinks_stripStep, h, Option.bind_some, run_nil, Option.map_some,
      List.append_nil]
    have hb := bytes_blank (.space :: .space :: body.bytes.map lineBlank)
    simp only [List.map_cons, List.map_map, Function.comp_def] at hb
    rw [hb]
    rfl

theorem gap_bytes_append (g h : Gap) : Gap.bytes (g ++ h) = g.bytes ++ h.bytes :=
  List.flatMap_append

theorem mask_bytes (d : Doc) : mask d.bytes = some d.masked.bytes := by
  have hlast : OnlyBlanks (lastBlanked d.last) := fun t ht =>
    d.strict_masked.2.2.1 t (List.mem_append_right _ ht)
  have hstrip : stripComments d.bytes = some (d.lead.blanked.bytes ++
      ((d.root.blanked true).bytes ++ (d.tail.blanked.bytes ++ Gap.bytes (lastBlanked d.last)))) := by
    rw [stripComments, Doc.bytes, emits_gap_strip, emits_node_strip, emits_gap_strip,
      run_ending_strip]
    rfl
  have hcomma := (emits_gap_comma (onlyBlanks_blanked d.lead)).append
    ((emits_node_comma d.root).append
      ((emits_gap_comma (onlyBlanks_blanked d.tail)).append (emits_gap_comma hlast)))
  rw [mask, hstrip, Option.bind_some, hcomma.run_eq]
  simp [Doc.masked, Doc.bytes, Doc.ending, gap_bytes_append]

/-- A masked text keeps its length, and every byte but those it blanks; that of a JSONC document is
strict JSON of the same value. -/
theorem mask_keeps (text : List Byte) :
    (∀ m ∈ mask text, List.Forall₂ Over text m) ∧
      ∀ d : Doc, d.bytes = text → mask text = some d.masked.bytes ∧ d.masked.Strict ∧
        ∀ (N : Type) (lits : Literals N), d.masked.value lits = d.value lits := by
  constructor
  · intro m hm
    obtain ⟨stripped, hstrip, hcomma⟩ := Option.bind_eq_some_iff.mp (Option.mem_def.mp hm)
    exact Over.trans (writesOver_stripStep.run hstrip) (writesOver_commaStep.run hcomma)
  · intro d hd
    rw [← hd]
    exact ⟨mask_bytes d, d.strict_masked, fun _ lits => d.value_masked lits⟩

end Travsr.Cli
