import Travsr.Guard.Shell
import Mathlib.Data.List.Induction

/-! Where the parts of a chain lie in their line: what stands before a part, what behind it. -/

namespace Travsr.Guard

open Travsr.Core Core.Text

def quoteAfter (s : List Char) : Option Char := s.foldl quoteNext none

theorem quoteAfter_append (s : List Char) (c : Char) :
    quoteAfter (s ++ [c]) = quoteNext (quoteAfter s) c := by
  unfold quoteAfter
  rw [List.foldl_append]
  rfl

theorem append_eq_pair {s a b : List Char} {c w d : Char} (h : s ++ [c] = a ++ w :: d :: b) :
    (∃ b', s = a ++ w :: d :: b') ∨ (s = a ++ [w] ∧ c = d) := by
  rcases List.eq_nil_or_concat' b with rfl | ⟨b', e, rfl⟩
  · have heq : s ++ [c] = (a ++ [w]) ++ [d] := by simpa using h
    obtain ⟨hs, hc⟩ := List.append_inj' heq rfl
    exact Or.inr ⟨hs, by simpa using hc⟩
  · have heq : s ++ [c] = (a ++ w :: d :: b') ++ [e] := by simpa using h
    exact Or.inl ⟨b', (List.append_inj' heq rfl).1⟩

/-- A `#` outside quotes right behind a blank. -/
def BareHash (s : List Char) : Prop :=
  ∃ a w b, s = a ++ w :: '#' :: b ∧ quoteAfter (a ++ [w]) = none ∧ isAsciiWhitespace w = true

theorem not_bareHash_nil : ¬BareHash [] := by
  rintro ⟨a, w, b, h, -⟩
  simp at h

theorem bareHash_append {s : List Char} (h : BareHash s) (t : List Char) : BareHash (s ++ t) := by
  obtain ⟨a, w, b, rfl, hq, hw⟩ := h
  exact ⟨a, w, b ++ t, by simp, hq, hw⟩

theorem bareHash_snoc {s : List Char} {c : Char} (h : BareHash (s ++ [c])) :
    BareHash s ∨ (c = '#' ∧ quoteAfter s = none ∧ ∃ a w, s = a ++ [w] ∧ isAsciiWhitespace w = true) := by
  obtain ⟨a, w, b, heq, hq, hw⟩ := h
  rcases append_eq_pair heq with ⟨b', hs⟩ | ⟨hs, hc⟩
  · exact Or.inl ⟨a, w, b', hs, hq, hw⟩
  · exact Or.inr ⟨hc, hs ▸ hq, a, w, hs, hw⟩

def Behind (pre : List Char) : Prop := pre = [] ∨ ∃ s c, pre = s ++ [c] ∧ c ≠ '\\'

theorem behind_append (s : List Char) {c : Char} (h : c ≠ '\\') : Behind (s ++ [c]) :=
  Or.inr ⟨s, c, rfl, h⟩

/-- What stands behind a part: nothing, an operator, or a comment behind a blank. -/
inductive Ahead (text : List Char) : List Char → Prop where
  | done : Ahead text []
  | separator (c : Char) (cs : List Char) (hc : c = ';' ∨ c = '\n') : Ahead text (c :: cs)
  | doubled (c : Char) (cs : List Char) (hc : c = '&' ∨ c = '|') : Ahead text (c :: c :: cs)
  | comment (a : List Char) (w : Char) (cs : List Char) (htext : text = a ++ [w])
      (hw : isAsciiWhitespace w = true) : Ahead text ('#' :: cs)

/-- A part, where it lies in the line. -/
structure Cut (command : List Char) (p : Part) (pre post : List Char) : Prop where
  whole : command = pre ++ p.text ++ post
  start : pre.length = p.start
  behind : Behind pre
  ahead : Ahead p.text post
  hash : ¬BareHash p.text

/-- A part that is being read. -/
structure Opened (command pre text cs : List Char) : Prop where
  whole : command = pre ++ text ++ cs
  behind : Behind pre
  hash : ¬BareHash text

/-- What the loop knows of the line. -/
inductive Reading (command : List Char) :
    ChainMode → Option Char → Nat → List Char → List Char → Prop where
  | plain (pre text cs : List Char) (h : Opened command pre text cs)
      (hquote : quoteAfter text = none) :
      Reading command .plain (pre ++ text).getLast? pre.length text cs
  | quoted (q : Char) (prev : Option Char) (pre text cs : List Char)
      (h : Opened command pre text cs) (hquote : quoteAfter text = some q) :
      Reading command (.quoted q) prev pre.length text cs
  | comment (prev : Option Char) (pre cs : List Char) (whole : command = pre ++ cs) :
      Reading command .comment prev pre.length [] cs
  | second (prev : Option Char) (c : Char) (pre cs : List Char)
      (whole : command = pre ++ [c] ++ cs) (hc : c ≠ '\\') :
      Reading command .second prev (pre ++ [c]).length [] (c :: cs)

variable {command pre text cs : List Char} {c : Char} {p : Part}

theorem Opened.cut {post : List Char} (h : Opened command pre text post)
    (hahead : Ahead text post) : Cut command ⟨pre.length, text⟩ pre post :=
  ⟨h.whole, rfl, h.behind, hahead, h.hash⟩

theorem Opened.snoc (h : Opened command pre text (c :: cs))
    (hnew : ¬(c = '#' ∧ quoteAfter text = none ∧
      ∃ a w, text = a ++ [w] ∧ isAsciiWhitespace w = true)) :
    Opened command pre (text ++ [c]) cs where
  whole := by rw [h.whole]; simp
  behind := h.behind
  hash hbare := by
    rcases bareHash_snoc hbare with hold | hlast
    · exact h.hash hold
    · exact hnew hlast

theorem reading_fresh (hwhole : command = pre ++ [c] ++ cs) (hc : c ≠ '\\') :
    Reading command .plain (some c) (pre ++ [c]).length [] cs := by
  have hopened : Opened command (pre ++ [c]) [] cs :=
    ⟨by rw [hwhole]; simp, behind_append pre hc, not_bareHash_nil⟩
  have hread := Reading.plain (pre ++ [c]) [] cs hopened rfl
  rwa [List.append_nil, List.getLast?_concat] at hread

theorem length_snoc (s t : List Char) (c : Char) :
    s.length + t.length + 1 = (s ++ t ++ [c]).length := by
  simp [Nat.add_assoc]

theorem cut_of_mem_chainScan {mode : ChainMode} {prev : Option Char} {start : Nat}
    (h : Reading command mode prev start text cs) (hp : p ∈ chainScan mode prev start text cs)
    (hne : p.text ≠ []) : ∃ pre post, Cut command p pre post := by
  induction cs generalizing mode prev start text with
  | nil =>
    rw [chainScan, List.mem_singleton] at hp
    subst hp
    cases h with
    | plain pre text cs h hquote => exact ⟨pre, [], h.cut Ahead.done⟩
    | quoted q prev pre text cs h hquote => exact ⟨pre, [], h.cut Ahead.done⟩
    | comment => exact absurd rfl hne
  | cons c cs ih =>
    cases h with
    | second prev c pre cs whole hc =>
      rw [chainScan] at hp
      exact ih (reading_fresh whole hc) hp
    | comment prev pre cs whole =>
      have hlen : pre.length + 1 = (pre ++ [c]).length := by simp
      have hwhole : command = pre ++ [c] ++ cs := by rw [whole]; simp
      rw [chainScan, hlen] at hp
      by_cases hc : c = '\n'
      · rw [if_pos hc] at hp
        exact ih (reading_fresh hwhole (by rw [hc]; decide)) hp
      · rw [if_neg hc] at hp
        exact ih (Reading.comment _ _ _ hwhole) hp
    | quoted q prev pre text cs h hquote =>
      rw [chainScan] at hp
      have hopened := h.snoc (by rw [hquote]; simp)
      by_cases hc : c = q
      · rw [if_pos hc] at hp
        have hread := Reading.plain pre (text ++ [c]) cs hopened
          (by rw [quoteAfter_append, hquote]; exact if_pos hc)
        rw [← List.append_assoc, List.getLast?_concat] at hread
        exact ih hread hp
      · rw [if_neg hc] at hp
        exact ih (Reading.quoted q _ pre _ cs hopened
          (by rw [quoteAfter_append, hquote]; exact if_neg hc)) hp
    | plain pre text cs h hquote =>
      have hwhole : command = pre ++ text ++ [c] ++ cs := by rw [h.whole]; simp
      rw [chainScan] at hp
      by_cases hq : c = '\'' ∨ c = '"'
      · rw [if_pos hq] at hp
        refine ih (Reading.quoted c _ pre _ cs (h.snoc ?_) ?_) hp
        · rintro ⟨rfl, -⟩
          simp at hq
        · rw [quoteAfter_append, hquote]
          exact if_pos hq
      rw [if_neg hq] at hp
      by_cases hcomment : c = '#' ∧ (pre ++ text).getLast?.all isAsciiWhitespace = true
      · rw [if_pos hcomment, length_snoc pre text c] at hp
        rcases List.mem_cons.mp hp with rfl | htail
        · rcases List.eq_nil_or_concat' text with rfl | ⟨a, w, rfl⟩
          · exact absurd rfl hne
          · have hw : isAsciiWhitespace w = true := by
              have hall := hcomment.2
              rw [← List.append_assoc, List.getLast?_concat] at hall
              simpa using hall
            rw [hcomment.1] at h
            exact ⟨pre, '#' :: cs, h.cut (Ahead.comment a w cs rfl hw)⟩
        · exact ih (Reading.comment _ _ _ hwhole) htail
      rw [if_neg hcomment] at hp
      by_cases hsep : c = ';' ∨ c = '\n'
      · rw [if_pos hsep, length_snoc pre text c] at hp
        rcases List.mem_cons.mp hp with rfl | htail
        · exact ⟨pre, c :: cs, h.cut (Ahead.separator c cs hsep)⟩
        · refine ih (reading_fresh hwhole ?_) htail
          rcases hsep with rfl | rfl <;> decide
      rw [if_neg hsep] at hp
      by_cases hdouble : (c = '&' ∨ c = '|') ∧ cs.head? = some c
      · rw [if_pos hdouble] at hp
        obtain ⟨cs', rfl⟩ : ∃ cs', cs = c :: cs' := List.head?_eq_some_iff.mp hdouble.2
        have hlen : pre.length + text.length + 2 = (pre ++ text ++ [c] ++ [c]).length := by
          simp [Nat.add_assoc]
        rw [hlen] at hp
        rcases List.mem_cons.mp hp with rfl | htail
        · exact ⟨pre, c :: c :: cs', h.cut (Ahead.doubled c cs' hdouble.1)⟩
        · refine ih (Reading.second _ c _ cs' (by rw [hwhole]; simp) ?_) htail
          rcases hdouble.1 with rfl | rfl <;> decide
      rw [if_neg hdouble] at hp
      have hopened := h.snoc fun hlast => by
        obtain ⟨hc, -, a, w, rfl, hw⟩ := hlast
        apply hcomment
        rw [← List.append_assoc, List.getLast?_concat]
        exact ⟨hc, hw⟩
      have hread := Reading.plain pre (text ++ [c]) cs hopened
        (by rw [quoteAfter_append, hquote]; exact if_neg hq)
      rw [← List.append_assoc, List.getLast?_concat] at hread
      exact ih hread hp

/-! ### The searches of a chain -/

variable {s : SearchCommand}

theorem mem_searchParts : (p, s) ∈ searchParts command ↔
    (∀ q ∈ chainParts command, writesAFile q.text = false) ∧ p ∈ chainParts command ∧
      classifySimple p.text = some s := by
  unfold searchParts
  split_ifs with hwrites
  · have hsome := List.any_eq_true.mp hwrites
    obtain ⟨q, hq, htrue⟩ := hsome
    simp only [List.not_mem_nil, false_iff]
    rintro ⟨hnone, -⟩
    rw [hnone q hq] at htrue
    simp at htrue
  · have hnone : ∀ q ∈ chainParts command, writesAFile q.text = false := by
      simpa using hwrites
    rw [List.mem_filterMap]
    constructor
    · rintro ⟨q, hq, hmap⟩
      obtain ⟨s', hs', heq⟩ := Option.map_eq_some_iff.mp hmap
      rw [Prod.mk.injEq] at heq
      obtain ⟨rfl, rfl⟩ := heq
      exact ⟨hnone, hq, hs'⟩
    · rintro ⟨-, hpart, hs⟩
      exact ⟨p, hpart, by rw [hs]; rfl⟩

theorem mem_classifyChain : s ∈ classifyChain command ↔ ∃ p, (p, s) ∈ searchParts command := by
  have hmem : s ∈ (searchParts command).map Prod.snd ↔ ∃ p, (p, s) ∈ searchParts command := by
    rw [List.mem_map]
    constructor
    · rintro ⟨⟨p, s'⟩, hp, rfl⟩
      exact ⟨p, hp⟩
    · rintro ⟨p, hp⟩
      exact ⟨(p, s), hp, rfl⟩
  rw [← hmem]
  unfold classifyChain
  rw [List.mem_append, List.mem_filter, List.mem_filter]
  cases hterm : s.term with
  | none => simp
  | some t => simp

theorem simpleWords_some {words : List (List Char)} (h : simpleWords text = some words) :
    (∀ c ∈ text, c ∉ FORBIDDEN) ∧ words ≠ [] ∧ ∃ w, text.foldlM wordStep WordState.init = some w ∧
      w.quote = none ∧ words = w.all := by
  unfold simpleWords at h
  split_ifs at h with hforbidden
  obtain ⟨w, hw, hrest⟩ := Option.bind_eq_some_iff.mp h
  split_ifs at hrest with hquote hempty
  have hwords : w.all = words := Option.some.inj hrest
  refine ⟨by simpa using hforbidden, hwords ▸ hempty, w, hw, ?_, hwords.symm⟩
  exact Option.not_isSome_iff_eq_none.mp hquote

theorem cut_of_search (hp : p ∈ chainParts command) (hs : classifySimple p.text = some s) :
    ∃ pre post, Cut command p pre post := by
  obtain ⟨words, hwords, -⟩ := Option.bind_eq_some_iff.mp hs
  obtain ⟨hallowed, hnonempty, w, hw, -, hall⟩ := simpleWords_some hwords
  unfold chainParts at hp
  split_ifs at hp with hheredoc
  · rw [List.mem_singleton] at hp
    subst hp
    have hmem : '<' ∈ command := hheredoc.subset (List.mem_cons_self ..)
    exact absurd (by decide) (hallowed '<' hmem)
  · have hread := Reading.plain [] [] command
      ⟨rfl, Or.inl rfl, not_bareHash_nil⟩ rfl
    refine cut_of_mem_chainScan hread hp fun hnil => hnonempty ?_
    rw [hnil] at hw
    have hinit : WordState.init = w := Option.some.inj hw
    rw [hall, ← hinit]
    rfl

end Travsr.Guard
