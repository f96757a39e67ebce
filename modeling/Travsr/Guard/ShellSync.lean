import Travsr.Guard.ShellWords
import Travsr.Lib.PosixLiteral

/-! The guard and the shell side by side over one part of a chain. -/

namespace Travsr.Guard

open Travsr.Core Core.Text PosixShell

/-- Nothing that the guard and the shell read in two ways, odd blanks apart. -/
structure Clean (s : List Char) : Prop where
  quiet : ∀ c ∈ s, Quiet c
  bare : ∀ a b, s = a ++ '\\' :: b → quoteAfter a ≠ none
  head : s.head? ≠ some '#'
  hash : ¬BareHash s
  escape : ¬EscapesInDouble s

theorem clean_append {s t : List Char} (h : Clean (s ++ t)) : Clean s where
  quiet c hc := h.quiet c (List.mem_append_left t hc)
  bare a b hs := h.bare a (b ++ t) (by rw [hs]; simp)
  head hs := by
    apply h.head
    cases s with
    | nil => simp at hs
    | cons c s => exact hs
  hash hb := h.hash (bareHash_append hb t)
  escape he := h.escape (escapes_append he t)

/-- The shell's mode behind a text is the guard's. -/
inductive Agree (s : List Char) : Mode → Prop where
  | plain (h : quoteAfter s = none) : Agree s .plain
  | single (h : quoteAfter s = some '\'') : Agree s .single
  | double (h : quoteAfter s = some '"') : Agree s .double
  | escaped (a : List Char) (hs : s = a ++ ['\\']) (h : quoteAfter a = some '"') :
      Agree s .doubleEscaped

structure Sync (s : List Char) (σ : State) : Prop where
  agree : Agree s σ.mode
  word : σ.mode ≠ .plain → σ.word ≠ none
  idle : σ.word = none → s = [] ∨ ∃ a c, s = a ++ [c] ∧ (c = ' ' ∨ c = '\t')

variable {s : List Char} {σ : State} {c : Char}

theorem quoteAfter_of_plain (h : Agree s .plain) : quoteAfter s = none := by
  cases h with
  | plain h => exact h

theorem quoteAfter_of_single (h : Agree s .single) : quoteAfter s = some '\'' := by
  cases h with
  | single h => exact h

theorem quoteAfter_of_double (h : Agree s .double) : quoteAfter s = some '"' := by
  cases h with
  | double h => exact h

theorem quoteAfter_of_escaped (h : Agree s .doubleEscaped) :
    quoteAfter s = some '"' ∧ ∃ a, s = a ++ ['\\'] ∧ quoteAfter a = some '"' := by
  cases h with
  | escaped a hs h =>
    refine ⟨?_, a, hs, h⟩
    rw [hs, quoteAfter_append, h]
    rfl

theorem agree_quote {m : Mode} (h : Agree s m) : m = .plain ↔ quoteAfter s = none := by
  cases h with
  | plain h => simp [h]
  | single h => simp [h]
  | double h => simp [h]
  | escaped a hs h =>
    have hquote := (quoteAfter_of_escaped (Agree.escaped a hs h)).1
    simp [hquote]

theorem sync_of_atCommand (h : σ.AtCommand) : Sync [] σ where
  agree := h.1 ▸ Agree.plain rfl
  word hne := absurd h.1 hne
  idle _ := Or.inl rfl

theorem literal_of_sync (h : Sync s σ) (hclean : Clean (s ++ [c])) : State.Literal σ c where
  quiet := hclean.quiet c (by simp)
  noEscape hmode hc := by
    have hquote := quoteAfter_of_plain (hmode ▸ h.agree)
    exact hclean.bare s [] (by rw [hc]) hquote
  noComment hmode hword hc := by
    have hquote := quoteAfter_of_plain (hmode ▸ h.agree)
    rcases h.idle hword with rfl | ⟨a, w, rfl, hw⟩
    · exact hclean.head (by rw [hc]; rfl)
    · refine hclean.hash ⟨a, w, [], by rw [hc]; simp, hquote, ?_⟩
      rcases hw with rfl | rfl <;> rfl
  notEscaped hmode := by
    obtain ⟨-, a, rfl, ha⟩ := quoteAfter_of_escaped (hmode ▸ h.agree)
    constructor
    · rintro rfl
      exact hclean.escape ⟨a, '"', [], by simp, ha, Or.inl rfl⟩
    · rintro rfl
      exact hclean.escape ⟨a, '\\', [], by simp, ha, Or.inr rfl⟩
  mode := by
    have hagree := h.agree
    unfold Mode.Quoted
    cases hm : σ.mode <;> rw [hm] at hagree
    case escaped => nomatch hagree
    case comment => nomatch hagree
    case bar => nomatch hagree
    all_goals simp

theorem quoteAfter_snoc {q : Option Char} (h : quoteAfter s = q) (c : Char) :
    quoteAfter (s ++ [c]) = quoteNext q c := by
  rw [quoteAfter_append, h]

theorem agree_kept {τ : State} (h : Agree s σ.mode) (hk : State.Kept σ c τ) :
    Agree (s ++ [c]) τ.mode := by
  cases hk with
  | opens m hmode hc =>
    have hquote := quoteAfter_snoc (quoteAfter_of_plain (hmode ▸ h)) c
    rcases hc with ⟨rfl, rfl⟩ | ⟨rfl, rfl⟩
    · exact Agree.single hquote
    · exact Agree.double hquote
  | blank hmode hc =>
    have hquote := quoteAfter_snoc (quoteAfter_of_plain (hmode ▸ h)) c
    rw [State.endWord_mode, hmode]
    refine Agree.plain (hquote.trans ?_)
    rcases hc with rfl | rfl <;> rfl
  | char hmode hquote hblank =>
    have hq := quoteAfter_snoc (quoteAfter_of_plain (hmode ▸ h)) c
    have hput : (σ.put c).mode = .plain := hmode
    rw [hput]
    exact Agree.plain (hq.trans (if_neg (not_or.mpr hquote)))
  | closes hc =>
    refine Agree.plain ?_
    rcases hc with ⟨hmode, rfl⟩ | ⟨hmode, rfl⟩
    · exact quoteAfter_snoc (quoteAfter_of_single (hmode ▸ h)) _
    · exact quoteAfter_snoc (quoteAfter_of_double (hmode ▸ h)) _
  | inside hc =>
    rcases hc with ⟨hmode, hne⟩ | ⟨hmode, hne, -⟩
    · have hq := quoteAfter_snoc (quoteAfter_of_single (hmode ▸ h)) c
      have hput : (σ.put c).mode = .single := hmode
      rw [hput]
      exact Agree.single (hq.trans (if_neg hne))
    · have hq := quoteAfter_snoc (quoteAfter_of_double (hmode ▸ h)) c
      have hput : (σ.put c).mode = .double := hmode
      rw [hput]
      exact Agree.double (hq.trans (if_neg hne))
  | escape hmode hc =>
    subst hc
    exact Agree.escaped s rfl (quoteAfter_of_double (hmode ▸ h))
  | escaped hmode hc =>
    have hq := quoteAfter_snoc (quoteAfter_of_escaped (hmode ▸ h)).1 c
    exact Agree.double (hq.trans (if_neg hc.1))

theorem sync_kept {τ : State} (h : Sync s σ) (hk : State.Kept σ c τ) {p : Nat} :
    Sync (s ++ [c]) { τ with pos := p } := by
  have hagree := agree_kept h.agree hk
  cases hk with
  | opens m hmode hc =>
    exact ⟨hagree, fun _ => Option.some_ne_none _, fun hnone => absurd hnone (Option.some_ne_none _)⟩
  | blank hmode hc =>
    refine ⟨hagree, fun hne => ?_, fun _ => Or.inr ⟨s, c, rfl, hc⟩⟩
    exact absurd ((State.endWord_mode σ).trans hmode) hne
  | char hmode hquote hblank =>
    exact ⟨hagree, fun _ => Option.some_ne_none _, fun hnone => absurd hnone (Option.some_ne_none _)⟩
  | closes hc =>
    have hword : σ.word ≠ none := h.word (by rcases hc with ⟨hm, -⟩ | ⟨hm, -⟩ <;> simp [hm])
    exact ⟨hagree, fun _ => hword, fun hnone => absurd hnone hword⟩
  | inside hc =>
    exact ⟨hagree, fun _ => Option.some_ne_none _, fun hnone => absurd hnone (Option.some_ne_none _)⟩
  | escape hmode hc =>
    have hword : σ.word ≠ none := h.word (by simp [hmode])
    exact ⟨hagree, fun _ => hword, fun hnone => absurd hnone hword⟩
  | escaped hmode hc =>
    exact ⟨hagree, fun _ => Option.some_ne_none _, fun hnone => absurd hnone (Option.some_ne_none _)⟩

theorem run_snoc (σ : State) (s : List Char) (c : Char) :
    (run σ (s ++ [c])).1 = ((run σ s).1.step c).1 := by
  rw [run_append]
  rfl

theorem sync_run (h : σ.AtCommand) (hclean : Clean s) : Sync s (run σ s).1 := by
  induction s using List.reverseRecOn with
  | nil => exact sync_of_atCommand h
  | append_singleton s c ih =>
    have hsync := ih (clean_append hclean)
    obtain ⟨τ, hk, hstep⟩ := State.kept_step (literal_of_sync hsync hclean)
    rw [run_snoc, hstep]
    exact sync_kept hsync hk

theorem kept_run (h : σ.AtCommand) (hclean : Clean (s ++ [c])) :
    ∃ τ, State.Kept (run σ s).1 c τ ∧
      (run σ (s ++ [c])).1 = { τ with pos := (run σ s).1.pos + 1 } := by
  have hsync := sync_run h (clean_append hclean)
  obtain ⟨τ, hk, hstep⟩ := State.kept_step (literal_of_sync hsync hclean)
  exact ⟨τ, hk, by rw [run_snoc, hstep]⟩

/-! ### Words -/

def pending (m : Mode) : List Char := if m = .doubleEscaped then ['\\'] else []

/-- The guard and the shell have read the same words. -/
structure SameWords (w : WordState) (σ : State) : Prop where
  words : σ.words = w.words
  word : σ.word.map (· ++ pending σ.mode) = if w.hasWord then some w.current else none

theorem sameWords_endWord {w : WordState} (h : SameWords w σ) (hmode : σ.mode = .plain) :
    σ.endWord.words = w.all := by
  have hword := h.word
  have hpending : pending σ.mode = [] := by rw [hmode]; rfl
  unfold State.endWord WordState.all
  rw [← h.words]
  cases hw : σ.word with
  | none =>
    have hnone : w.hasWord ≠ true := by
      intro htrue
      rw [hw, if_pos htrue] at hword
      simp at hword
    rw [if_neg hnone]
  | some v =>
    have hsome : w.hasWord = true := by
      by_contra hfalse
      rw [hw, if_neg hfalse] at hword
      simp at hword
    rw [hw, if_pos hsome, hpending] at hword
    have hcurrent : v = w.current := by simpa using hword
    rw [if_pos hsome, hcurrent]

theorem getD_of_same {w : WordState} (h : SameWords w σ) (hfresh : w.Fresh) :
    σ.word.getD [] ++ (if σ.word = none then [] else pending σ.mode) = w.current := by
  have hword := h.word
  cases hw : σ.word with
  | none =>
    rw [hw] at hword
    have hfalse : w.hasWord = false := by
      by_contra htrue
      rw [if_pos (by simpa using htrue)] at hword
      simp at hword
    simpa using (hfresh hfalse).symm
  | some v =>
    rw [hw] at hword
    split_ifs at hword with htrue
    · simpa using hword
    · simp at hword

theorem same_kept {w w' : WordState} {τ : State} (h : SameWords w σ) (hsync : Sync s σ)
    (hscan : Scanned s w) (hk : State.Kept σ c τ)
    (hblank : ¬(quoteAfter s = none ∧ isOddBlank c = true)) (hstep : wordStep w c = some w')
    {p : Nat} : SameWords w' { τ with pos := p } := by
  have hcurrent := getD_of_same h hscan.fresh
  have hquote := hscan.quote
  cases hk with
  | opens m hmode hc =>
    rw [quoteAfter_of_plain (hmode ▸ hsync.agree)] at hquote
    have hmark : c = '\'' ∨ c = '"' := by
      rcases hc with ⟨rfl, -⟩ | ⟨rfl, -⟩ <;> simp
    rw [wordStep_opens hquote hmark] at hstep
    cases hstep
    have hpending : pending m = [] := by rcases hc with ⟨-, rfl⟩ | ⟨-, rfl⟩ <;> rfl
    have hpending' : pending σ.mode = [] := by rw [hmode]; rfl
    refine ⟨h.words, ?_⟩
    show some (σ.word.getD [] ++ pending m) = some w.current
    rw [hpending, ← hcurrent, hpending', ite_self]
  | blank hmode hc =>
    rw [quoteAfter_of_plain (hmode ▸ hsync.agree)] at hquote
    have hwhite : isWhitespace c = true := by rcases hc with rfl | rfl <;> decide
    have hmark : ¬(c = '\'' ∨ c = '"') := by rcases hc with rfl | rfl <;> decide
    have hslash : c ≠ '\\' := by rcases hc with rfl | rfl <;> decide
    rw [wordStep_blank hquote hmark hslash hwhite] at hstep
    cases hstep
    refine ⟨?_, ?_⟩
    · show σ.endWord.words = w.endWord.words
      rw [sameWords_endWord h hmode]
      unfold WordState.all WordState.endWord
      split_ifs <;> rfl
    · show σ.endWord.word.map _ = _
      rw [State.endWord_word, WordState.endWord_hasWord]
      rfl
  | char hmode hmark hne =>
    rw [quoteAfter_of_plain (hmode ▸ hsync.agree)] at hquote
    have hplain := quoteAfter_of_plain (hmode ▸ hsync.agree)
    have hslash : c ≠ '\\' := by
      rintro rfl
      simp [wordStep, hquote] at hstep
    have hwhite : ¬isWhitespace c = true := by
      intro hw
      exact hblank ⟨hplain, by simp [isOddBlank, hw, hne]⟩
    rw [wordStep_char hquote (not_or.mpr hmark) hslash hwhite] at hstep
    cases hstep
    have hpending : pending σ.mode = [] := by rw [hmode]; rfl
    refine ⟨h.words, ?_⟩
    show some (σ.word.getD [] ++ [c] ++ pending σ.mode) = some (w.current ++ [c])
    rw [← hcurrent, hpending, ite_self, List.append_nil, List.append_nil]
  | closes hc =>
    have hq : w.quote = some c := by
      rcases hc with ⟨hmode, rfl⟩ | ⟨hmode, rfl⟩
      · exact hquote.trans (quoteAfter_of_single (hmode ▸ hsync.agree))
      · exact hquote.trans (quoteAfter_of_double (hmode ▸ hsync.agree))
    have hpending : pending σ.mode = [] := by rcases hc with ⟨hm, -⟩ | ⟨hm, -⟩ <;> rw [hm] <;> rfl
    rw [wordStep_closes hq] at hstep
    cases hstep
    refine ⟨h.words, ?_⟩
    have hword := h.word
    rw [hpending] at hword
    exact hword
  | inside hc =>
    have hq : ∃ q, w.quote = some q ∧ c ≠ q := by
      rcases hc with ⟨hmode, hne⟩ | ⟨hmode, hne, -⟩
      · exact ⟨_, hquote.trans (quoteAfter_of_single (hmode ▸ hsync.agree)), hne⟩
      · exact ⟨_, hquote.trans (quoteAfter_of_double (hmode ▸ hsync.agree)), hne⟩
    obtain ⟨q, hq, hne⟩ := hq
    have hpending : pending σ.mode = [] := by rcases hc with ⟨hm, -⟩ | ⟨hm, -⟩ <;> rw [hm] <;> rfl
    have hhas : w.hasWord = true := hscan.word (by rw [hq]; simp)
    rw [wordStep_inside hq hne] at hstep
    cases hstep
    refine ⟨h.words, ?_⟩
    show some (σ.word.getD [] ++ [c] ++ pending σ.mode) =
      if w.hasWord then some (w.current ++ [c]) else none
    rw [if_pos hhas, ← hcurrent, hpending, ite_self, List.append_nil, List.append_nil]
  | escape hmode hc =>
    have hq := hquote.trans (quoteAfter_of_double (hmode ▸ hsync.agree))
    have hhas : w.hasWord = true := hscan.word (by rw [hq]; simp)
    have hword := h.word
    rw [wordStep_inside hq (by rw [hc]; decide)] at hstep
    cases hstep
    refine ⟨h.words, ?_⟩
    show σ.word.map (· ++ ['\\']) = if w.hasWord then some (w.current ++ [c]) else none
    have hpending : pending σ.mode = [] := by rw [hmode]; rfl
    rw [if_pos hhas, hpending] at hword
    obtain ⟨v, hv, hcur⟩ := Option.map_eq_some_iff.mp hword
    rw [if_pos hhas, hv, hc, ← hcur, List.append_nil]
    rfl
  | escaped hmode hc =>
    have hq := hquote.trans (quoteAfter_of_escaped (hmode ▸ hsync.agree)).1
    have hhas : w.hasWord = true := hscan.word (by rw [hq]; simp)
    have hnone : σ.word ≠ none := hsync.word (by rw [hmode]; simp)
    rw [wordStep_inside hq hc.1] at hstep
    cases hstep
    refine ⟨h.words, ?_⟩
    have hput : ((σ.put '\\').put c).word = some (σ.word.getD [] ++ ['\\'] ++ [c]) := rfl
    have hpending : pending σ.mode = ['\\'] := by rw [hmode]; rfl
    show ((σ.put '\\').put c).word.map (· ++ pending .double) =
      if w.hasWord then some (w.current ++ [c]) else none
    rw [hput, if_pos hhas, ← hcurrent, hpending, if_neg hnone]
    simp [pending]

theorem same_run {w : WordState} (h : σ.AtCommand) (hclean : Clean s) (hodd : ¬OddBlank s)
    (hscan : s.foldlM wordStep WordState.init = some w) : SameWords w (run σ s).1 := by
  induction s using List.reverseRecOn generalizing w with
  | nil =>
    have hinit : WordState.init = w := Option.some.inj hscan
    subst hinit
    obtain ⟨hword, hwords⟩ := not_or.mp h.2.1
    refine ⟨not_not.mp hwords, ?_⟩
    show σ.word.map _ = none
    rw [not_not.mp hword]
    rfl
  | append_singleton s c ih =>
    rw [List.foldlM_append] at hscan
    obtain ⟨v, hv, hlast⟩ := Option.bind_eq_some_iff.mp hscan
    have hstep : wordStep v c = some w := by simpa using hlast
    have hsame := ih (clean_append hclean) (fun ho => hodd (oddBlank_append ho [c])) hv
    obtain ⟨τ, hk, hrun⟩ := kept_run h hclean
    rw [hrun]
    refine same_kept hsame (sync_run h (clean_append hclean)) (scanned_foldlM hv) hk ?_ hstep
    rintro ⟨hq, hc⟩
    exact hodd ⟨s, c, [], rfl, hq, hc⟩

/-! ### Where they differ -/

theorem blanks_run (h : σ.AtCommand) (hclean : Clean s) :
    (run σ s).1.text.countP isOddBlank = s.countP isOddBlank := by
  induction s using List.reverseRecOn with
  | nil =>
    show σ.text.countP isOddBlank = 0
    rw [State.text_of_not_begun h.2.1]
    rfl
  | append_singleton s c ih =>
    have hbefore := ih (clean_append hclean)
    obtain ⟨τ, hk, hrun⟩ := kept_run h hclean
    rw [hrun, List.countP_append, ← hbefore]
    show τ.text.countP isOddBlank = _
    cases hk with
    | opens m hmode hc =>
      have hnone : [c].countP isOddBlank = 0 := by rcases hc with ⟨rfl, -⟩ | ⟨rfl, -⟩ <;> decide
      rw [State.text_openQuote, hnone]
      rfl
    | blank hmode hc =>
      have hnone : [c].countP isOddBlank = 0 := by rcases hc with rfl | rfl <;> decide
      rw [State.text_endWord, hnone]
      rfl
    | char hmode hquote hblank => rw [State.text_put, List.countP_append]
    | closes hc =>
      have hnone : [c].countP isOddBlank = 0 := by rcases hc with ⟨-, rfl⟩ | ⟨-, rfl⟩ <;> decide
      rw [hnone]
      rfl
    | inside hc => rw [State.text_put, List.countP_append]
    | escape hmode hc =>
      have hnone : [c].countP isOddBlank = 0 := by rw [hc]; decide
      rw [hnone]
      rfl
    | escaped hmode hc =>
      have htext : (({ ((run σ s).1.put '\\').put c with mode := .double }) : State).text =
          (run σ s).1.text ++ ['\\'] ++ [c] := by
        show (((run σ s).1.put '\\').put c).text = _
        rw [State.text_put, State.text_put]
      have hslash : ['\\'].countP isOddBlank = 0 := by decide
      rw [htext, List.countP_append, List.countP_append, hslash]
      rfl

theorem backslashes_lost (h : σ.AtCommand) (hquiet : ∀ c ∈ s, Quiet c)
    (hbare : ∀ a b, s = a ++ '\\' :: b → quoteAfter a ≠ none) (hhead : s.head? ≠ some '#')
    (hhash : ¬BareHash s) (hescape : EscapesInDouble s) :
    (run σ s).1.text.count '\\' < s.count '\\' := by
  obtain ⟨a, e, b, hs, hq, he, hfirst⟩ := first_escape hescape
  have hparts : s = (a ++ ['\\']) ++ ([e] ++ b) := by rw [hs]; simp
  have hclean : Clean (a ++ ['\\']) := by
    refine ⟨fun c hc => hquiet c ?_, fun a' b' heq => hbare a' (b' ++ ([e] ++ b)) ?_, fun hd => ?_,
      fun hb => hhash (hparts ▸ bareHash_append hb _), hfirst⟩
    · rw [hparts]
      exact List.mem_append_left _ hc
    · rw [hparts, heq]
      simp
    · apply hhead
      cases a with
      | nil => simp at hd
      | cons d a =>
        rw [hs]
        exact hd
  have hbegin : σ.backslashes = 0 := by
    rw [State.backslashes_of_not_waits h.1 (by decide), State.text_of_not_begun h.2.1]
    rfl
  have hsync := sync_run h (clean_append hclean)
  have hbefore := State.backslashes_run σ a
  have hdouble : (run σ a).1.mode = .double := by
    have hagree := hsync.agree
    cases hm : (run σ a).1.mode with
    | double => rfl
    | doubleEscaped =>
      obtain ⟨-, a', rfl, ha'⟩ := quoteAfter_of_escaped (hm ▸ hagree)
      exact absurd ⟨a', '\\', [], by simp, ha', Or.inr rfl⟩ hfirst
    | plain =>
      rw [quoteAfter_of_plain (hm ▸ hagree)] at hq
      simp at hq
    | single =>
      rw [quoteAfter_of_single (hm ▸ hagree)] at hq
      simp at hq
    | escaped => nomatch hm ▸ hagree
    | comment => nomatch hm ▸ hagree
    | bar => nomatch hm ▸ hagree
  -- the backslash waits, and what it escapes is kept without it
  have hafter : (run σ (a ++ ['\\'] ++ [e])).1.backslashes =
      (run σ a).1.text.count '\\' + [e].count '\\' := by
    have hwait : (run σ (a ++ ['\\'])).1 =
        { (run σ a).1 with mode := .doubleEscaped, pos := (run σ a).1.pos + 1 } := by
      rw [run_snoc]
      simp [State.step, State.read, hdouble]
    rw [run_snoc, hwait]
    have hput : ∀ ρ : State, ρ.mode = .doubleEscaped →
        (ρ.step e).1.backslashes = ρ.text.count '\\' + [e].count '\\' := by
      intro ρ hρ
      have hkeep : e = '$' ∨ e = '`' ∨ e = '"' ∨ e = '\\' := by tauto
      have hnl : e ≠ '\n' := by rcases he with rfl | rfl <;> decide
      have hread : (ρ.step e).1 = { ρ.put e with mode := .double, pos := ρ.pos + 1 } := by
        simp only [State.step, State.read, hρ, if_neg hnl, if_pos hkeep]
      rw [hread]
      exact State.backslashes_put_mode (σ := ρ) (m := .double) (by decide) e
    exact hput _ rfl
  have hrest := State.backslashes_run (run σ (a ++ ['\\'] ++ [e])).1 b
  have hlast : (run (run σ (a ++ ['\\'] ++ [e])).1 b).1 = (run σ s).1 := by
    have hs' : s = (a ++ ['\\'] ++ [e]) ++ b := by rw [hs]; simp
    rw [hs', run_append σ (a ++ ['\\'] ++ [e]) b]
  have hcount : s.count '\\' = a.count '\\' + 1 + [e].count '\\' + b.count '\\' := by
    have hs' : s = a ++ ['\\'] ++ [e] ++ b := by rw [hs]; simp
    rw [hs', List.count_append, List.count_append, List.count_append]
    rfl
  have hplain : (run σ a).1.backslashes = (run σ a).1.text.count '\\' :=
    State.backslashes_of_not_waits hdouble (by decide)
  have hend := State.count_le_backslashes (run σ s).1
  rw [hlast] at hrest
  omega

end Travsr.Guard

/-! When the searches that the guard reports are commands of the shell. -/

namespace Travsr.Guard

open Travsr.Core Core.Text PosixShell

/-- The part is a simple command of the shell: it lies in the part, has the words that the guard
reads, and has no pipe on either side. -/
def Genuine (command : List Char) (p : Part) : Prop :=
  ∃ d ∈ PosixShell.commands command, p.start ≤ d.start ∧ d.stop ≤ p.start + p.text.length ∧
    simpleWords p.text = some d.words ∧ d.readsPipe = false ∧ d.writesPipe = false

instance (command : List Char) (p : Part) : Decidable (Genuine command p) :=
  inferInstanceAs (Decidable (∃ d ∈ PosixShell.commands command, _))

/-- Every search that is reported is a command of the shell. -/
def OnlyGenuine (command : List Char) : Prop :=
  ∀ s ∈ classifyChain command, ∀ p, (p, s) ∈ searchParts command → Genuine command p

/-- The guard reads a part, and what comes before it, as the shell does. -/
structure ReadAlike (command : List Char) (p : Part) : Prop where
  ready : (run State.init (command.take p.start)).1.AtCommand
  noComment : p.text.head? ≠ some '#'
  noEscape : ¬EscapesInDouble p.text
  noOddBlank : ¬OddBlank p.text

variable {command pre post text : List Char} {p : Part} {σ : State}

/-! ### The end of a part -/

theorem mem_command_self (writes : Bool) (h : σ.endWord.words ≠ []) :
    (⟨σ.endWord.words, σ.start, σ.endWord.stop, σ.piped, writes⟩ : Command) ∈
      σ.command writes := by
  unfold State.command
  rw [if_neg h]
  exact List.mem_singleton_self _

theorem mem_command_of_none {writes : Bool} (hword : σ.word = none) (hwords : σ.words ≠ []) :
    (⟨σ.words, σ.start, σ.stop, σ.piped, writes⟩ : Command) ∈ σ.command writes := by
  have hend : σ.endWord = σ := State.endWord_of_none hword
  have hself := mem_command_self writes (hend.symm ▸ hwords)
  rwa [hend] at hself

theorem mem_rest_of_comment (hmode : σ.mode = .comment) (hword : σ.word = none)
    (hwords : σ.words ≠ []) (cs : List Char) :
    (⟨σ.words, σ.start, σ.stop, σ.piped, false⟩ : Command) ∈ rest σ cs := by
  induction cs generalizing σ with
  | nil =>
    have hfinish : σ.finish = σ.command false := by unfold State.finish; rw [hmode]
    show _ ∈ [] ++ σ.finish
    rw [List.nil_append, hfinish]
    exact mem_command_of_none hword hwords
  | cons c cs ih =>
    rw [rest_cons]
    by_cases hc : c = '\n'
    · have hout : (σ.step c).2 = σ.command false := by
        simp [State.step, State.read, hmode, hc, State.newline]
      rw [hout]
      exact List.mem_append_left _ (mem_command_of_none hword hwords)
    · have hstep : (σ.step c).1 = { σ with pos := σ.pos + 1 } := by
        simp only [State.step, State.read, hmode, if_neg hc]
      rw [hstep]
      exact List.mem_append_right _ (ih hmode hword hwords)

theorem mem_rest_of_ahead (hmode : σ.mode = .plain) (hwords : σ.endWord.words ≠ [])
    (hahead : Ahead text post)
    (hidle : ∀ a w, text = a ++ [w] → isAsciiWhitespace w = true → σ.word = none) :
    (⟨σ.endWord.words, σ.start, σ.endWord.stop, σ.piped, false⟩ : Command) ∈ rest σ post := by
  have hself := mem_command_self false hwords
  cases hahead with
  | done =>
    have hfinish : σ.finish = σ.command false := by unfold State.finish; rw [hmode]
    show _ ∈ [] ++ σ.finish
    rwa [List.nil_append, hfinish]
  | separator c cs hc =>
    have hout : (σ.step c).2 = σ.command false := by
      rcases hc with rfl | rfl <;>
        simp [State.step, State.read, hmode, State.plainStep, State.newline]
    rw [rest_cons, hout]
    exact List.mem_append_left _ hself
  | doubled c cs hc =>
    rcases hc with rfl | rfl
    · have hout : (σ.step '&').2 = σ.command false := by
        simp [State.step, State.read, hmode, State.plainStep]
      rw [rest_cons, hout]
      exact List.mem_append_left _ hself
    · have hbar : (σ.step '|').1 = { σ.endWord with mode := .bar, pos := σ.pos + 1 } := by
        simp [State.step, State.read, hmode, State.plainStep]
      have hout : ∀ ρ : State, ρ.mode = .bar → (ρ.step '|').2 = ρ.command false := by
        intro ρ hρ
        simp [State.step, State.read, hρ]
      rw [rest_cons, rest_cons, hbar,
        hout { σ.endWord with mode := .bar, pos := σ.pos + 1 } rfl]
      apply List.mem_append_right
      apply List.mem_append_left
      rw [← State.endWord_start σ, ← State.endWord_piped σ]
      exact mem_command_of_none (σ := { σ.endWord with mode := .bar, pos := σ.pos + 1 })
        (State.endWord_word σ) hwords
  | comment a w cs htext hw =>
    have hword := hidle a w htext hw
    have hend := State.endWord_of_none hword
    have hstep : (σ.step '#').1 = { σ with mode := .comment, pos := σ.pos + 1 } := by
      simp [State.step, State.read, hmode, State.plainStep, hword]
    rw [rest_cons, hstep]
    apply List.mem_append_right
    rw [hend] at hwords ⊢
    exact mem_rest_of_comment (σ := { σ with mode := .comment, pos := σ.pos + 1 }) rfl hword
      hwords cs

theorem word_none_of_blank {a : List Char} {w : Char} (h : σ.AtCommand) (hclean : Clean (a ++ [w]))
    (hallowed : w ∉ FORBIDDEN) (hodd : ¬OddBlank (a ++ [w])) (hquote : quoteAfter (a ++ [w]) = none)
    (hw : isAsciiWhitespace w = true) : (run σ (a ++ [w])).1.word = none := by
  have hsome : w = ' ' ∨ w = '\t' ∨ w = '\n' ∨ w = '\r' ∨ w = Char.ofNat 12 := by
    unfold isAsciiWhitespace at hw
    simp only [Bool.or_eq_true, decide_eq_true_eq] at hw
    tauto
  have hbefore : quoteAfter a = none := by
    rw [quoteAfter_append] at hquote
    cases hq : quoteAfter a with
    | none => rfl
    | some q =>
      rw [hq] at hquote
      simp only [quoteNext] at hquote
      split_ifs at hquote with hwq
      have hmark := quoteAfter_cases hq
      rw [← hwq] at hmark
      rcases hmark with rfl | rfl <;> simp [isAsciiWhitespace] at hw
  have hblank : w = ' ' ∨ w = '\t' := by
    rcases hsome with h | h | h | h | h
    · exact Or.inl h
    · exact Or.inr h
    · exact absurd (h ▸ by decide) hallowed
    · exact absurd (h ▸ by decide) hallowed
    · exact absurd ⟨a, w, [], rfl, hbefore, by rw [h]; decide⟩ hodd
  have hsync := sync_run h (clean_append hclean)
  have hmode : (run σ a).1.mode = .plain := (agree_quote hsync.agree).mpr hbefore
  have hstep : ((run σ a).1.step w).1 = { (run σ a).1.endWord with pos := (run σ a).1.pos + 1 } := by
    rcases hblank with rfl | rfl <;> simp [State.step, State.read, hmode, State.plainStep]
  rw [run_snoc, hstep]
  exact State.endWord_word _

/-! ### Both directions -/

theorem quiet_of_allowed (h : ∀ c ∈ text, c ∉ FORBIDDEN) : ∀ c ∈ text, Quiet c := by
  have hall : special.all (fun c => decide (c ∈ FORBIDDEN)) = true := by decide
  have hsub : ∀ c ∈ special, c ∈ FORBIDDEN := fun c hc =>
    of_decide_eq_true (List.all_eq_true.mp hall c hc)
  exact fun c hc hs => h c hc (hsub c hs)

theorem take_cut (h : Cut command p pre post) : command.take p.start = pre := by
  rw [h.whole, ← h.start, List.append_assoc]
  exact List.take_left

theorem pos_cut (h : Cut command p pre post) : (run State.init pre).1.pos = p.start := by
  rw [pos_run, ← h.start]
  exact Nat.zero_add _

theorem genuine_of_readAlike (hcut : Cut command p pre post) {words : List (List Char)}
    (hwords : simpleWords p.text = some words) (h : ReadAlike command p) : Genuine command p := by
  obtain ⟨hallowed, hne, w, hscan, hopen, hall⟩ := simpleWords_some hwords
  have hscanned := scanned_foldlM hscan
  have hquiet := quiet_of_allowed hallowed
  have hquote : quoteAfter p.text = none := hscanned.quote ▸ hopen
  have hclean : Clean p.text := ⟨hquiet, hscanned.escaped, h.noComment, hcut.hash, h.noEscape⟩
  have hcommands : PosixShell.commands command =
      (run State.init pre).2 ++ rest (run State.init pre).1 (p.text ++ post) := by
    rw [PosixShell.commands, hcut.whole, List.append_assoc, rest_append]
  have hready : (run State.init pre).1.AtCommand := take_cut hcut ▸ h.ready
  have hpos := pos_cut hcut
  have hsound := State.sound_run State.sound_init pre
  generalize (run State.init pre).1 = σ at hready hpos hsound hcommands
  have hbar : σ.mode ≠ .bar := by rw [hready.1]; simp
  obtain ⟨hout, hcalm⟩ := State.quiet_run hbar hquiet
  have hmode : (run σ p.text).1.mode = .plain :=
    (agree_quote (sync_run hready hclean).agree).mpr hquote
  have hsame := sameWords_endWord (same_run hready hclean h.noOddBlank hscan) hmode
  have hlast : (run σ p.text).1.endWord.words ≠ [] := by rw [hsame, ← hall]; exact hne
  have hmem := mem_rest_of_ahead hmode hlast hcut.ahead fun a b htext hb => by
    rw [htext] at hclean hquote ⊢
    refine word_none_of_blank hready hclean (hallowed b ?_) (htext ▸ h.noOddBlank) hquote hb
    rw [htext]
    exact List.mem_append_right _ (List.mem_singleton_self b)
  have hrest : rest σ (p.text ++ post) = rest (run σ p.text).1 post := by
    rw [rest_append, hout, List.nil_append]
  have hbegun := (State.begun_iff _).mpr hlast
  have hends := State.stop_endWord (State.sound_run hsound p.text) hbegun
  refine ⟨_, hcommands ▸ List.mem_append_right _ (hrest ▸ hmem), ?_, ?_, ?_, ?_, rfl⟩
  · rcases State.from_rest (hrest ▸ hmem) with ⟨hb, -⟩ | hle
    · exact absurd hb hready.2.1
    · exact hpos ▸ hle
  · rw [← hpos, ← pos_run]
    exact hends.2
  · rw [hwords, hall]
    exact congrArg some hsame.symm
  · exact hcalm.piped.trans hready.2.2

theorem readAlike_of_genuine (hcut : Cut command p pre post) (h : Genuine command p) :
    ReadAlike command p := by
  obtain ⟨d, hd, hstart, hstop, hwords, hreads, -⟩ := h
  obtain ⟨hallowed, hne, w, hscan, -, hall⟩ := simpleWords_some hwords
  have hscanned := scanned_foldlM hscan
  have hquiet := quiet_of_allowed hallowed
  have hcommands : PosixShell.commands command =
      (run State.init pre).2 ++ rest (run State.init pre).1 (p.text ++ post) := by
    rw [PosixShell.commands, hcut.whole, List.append_assoc, rest_append]
  have htake := take_cut hcut
  have hpos := pos_cut hcut
  have hsound := State.sound_run State.sound_init pre
  have hescaped : (run State.init pre).1.mode ≠ .escaped := by
    rcases hcut.behind with hnil | ⟨s, c, hsnoc, hc⟩
    · rw [hnil]
      simp [run, State.init]
    · rw [hsnoc, run_snoc]
      exact State.not_escaped_of_step hc
  rw [hcommands] at hd
  have hlate : d ∈ rest (run State.init pre).1 (p.text ++ post) := by
    rcases List.mem_append.mp hd with hout | hrest
    · have hlt := State.run_out_lt State.sound_init hout
      have hinit : State.init.pos = 0 := rfl
      have hlen := hcut.start
      omega
    · exact hrest
  obtain ⟨hready, hsame⟩ := State.atCommand_of_command hsound hescaped hquiet hlate
    (hpos.symm ▸ hstart) (hpos.symm ▸ hstop) hreads
  have hbefore : (run State.init (command.take p.start)).1.AtCommand := htake.symm ▸ hready
  generalize (run State.init pre).1 = σ at hready hsame
  have htext : (run σ p.text).1.text = w.text := by
    rw [← State.flatten_endWord, ← hsame, hall, WordState.flatten_all hscanned.fresh]
  have hcomment : p.text.head? ≠ some '#' := by
    intro hhead
    obtain ⟨t, ht⟩ := List.head?_eq_some_iff.mp hhead
    have hword : σ.word = none := not_not.mp (not_or.mp hready.2.1).1
    have hstep : (σ.step '#').1 = { σ with mode := .comment, pos := σ.pos + 1 } := by
      simp [State.step, State.read, hready.1, State.plainStep, hword]
    have hquiet' : ∀ c ∈ t, Quiet c := fun c hc => hquiet c (ht ▸ List.mem_cons_of_mem _ hc)
    have hcalm := (State.quiet_run (σ := { σ with mode := .comment, pos := σ.pos + 1 })
      (by simp) hquiet').2
    have hidle : ¬(run σ p.text).1.Begun := by
      rw [ht, run_cons, hstep]
      exact fun hb => hready.2.1 ((hcalm.comment rfl).2 hb)
    apply hne
    rw [hsame]
    exact not_not.mp (mt (State.begun_iff _).mpr hidle)
  have hescape : ¬EscapesInDouble p.text := by
    intro he
    have hlost := backslashes_lost hready hquiet hscanned.escaped hcomment hcut.hash he
    rw [htext, hscanned.backslashes] at hlost
    exact Nat.lt_irrefl _ hlost
  refine ⟨hbefore, hcomment, hescape, fun hodd => ?_⟩
  have hkept := blanks_run hready ⟨hquiet, hscanned.escaped, hcomment, hcut.hash, hescape⟩
  have hdropped := hscanned.dropped hodd
  rw [htext] at hkept
  omega

end Travsr.Guard
