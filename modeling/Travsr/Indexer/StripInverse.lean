import Travsr.Indexer.StripJsonc

namespace Travsr.Indexer

open Jsonc Travsr.Cli

/-! ### What is skipped is a gap, or runs to the end -/

theorem behind_white {b : Byte} (hb : isAsciiWhitespace b = true) {t r : List Byte}
    (h : Behind t r) : Behind (b :: t) r := by
  have hcases : b = formFeed ∨ ∃ x : Blank, b = x.byte := by
    simp only [isAsciiWhitespace, Bool.or_eq_true, decide_eq_true_eq] at hb
    rcases hb with (((rfl | rfl) | rfl) | rfl) | rfl
    · exact .inr ⟨.space, rfl⟩
    · exact .inr ⟨.tab, rfl⟩
    · exact .inr ⟨.lf, rfl⟩
    · exact .inl rfl
    · exact .inr ⟨.cr, rfl⟩
  rcases hcases with rfl | ⟨x, rfl⟩
  · exact .formFeed h
  · exact .trivia (.blank x) h

theorem behind_skipWs (s : List Byte) : Behind s (skipWs s) := by
  induction s with
  | nil => exact .none _
  | cons b s ih =>
    cases hb : isAsciiWhitespace b with
    | true =>
      have hskip : skipWs (b :: s) = skipWs s := List.dropWhile_cons_of_pos hb
      rw [hskip]
      exact behind_white hb ih
    | false =>
      rw [skipWs_cons hb]
      exact .none _

theorem pastLine_spec (s : List Byte) : ∃ body : LineBody,
    s = body.bytes ∧ pastLine s = [] ∨ ∃ u, s = body.bytes ++ lf :: u ∧ pastLine s = lf :: u := by
  induction s with
  | nil => exact ⟨⟨[], by simp⟩, .inl ⟨rfl, rfl⟩⟩
  | cons b s ih =>
    by_cases hb : b = lf
    · refine ⟨⟨[], by simp⟩, .inr ⟨s, by simp [hb], ?_⟩⟩
      rw [hb]
      exact List.dropWhile_cons_of_neg (by simp)
    · have hpast : pastLine (b :: s) = pastLine s := List.dropWhile_cons_of_pos (by simpa using hb)
      obtain ⟨⟨body, hin⟩, h⟩ := ih
      refine ⟨⟨b :: body, by simp [Ne.symm hb, hin]⟩, ?_⟩
      rw [hpast]
      rcases h with ⟨rfl, hend⟩ | ⟨u, rfl, hend⟩
      · exact .inl ⟨rfl, hend⟩
      · exact .inr ⟨u, rfl, hend⟩

theorem prefix_star_slash {b : Byte} {s : List Byte} :
    [asterisk, slash] <+: b :: s ↔ b = asterisk ∧ s.head? = some slash := by
  rw [List.cons_prefix_cons, eq_comm]
  apply and_congr_right
  intro _
  cases s with
  | nil => simp
  | cons c s => simp [List.cons_prefix_cons, eq_comm]

theorem pastBlock_spec (s : List Byte) :
    (∃ body : BlockBody, s = body.bytes ++ asterisk :: slash :: pastBlock s) ∨
      ¬ [asterisk, slash] <:+: s ∧ pastBlock s = [] := by
  have hshort : ∀ l : List Byte, l.length < 2 → ¬ [asterisk, slash] <:+: l := by
    intro l hl hin
    have := hin.length_le
    simp only [List.length_cons, List.length_nil] at this
    omega
  fun_induction pastBlock s with
  | case1 b c s hb => exact .inl ⟨⟨[], hshort _ (by simp)⟩, by simp [hb]⟩
  | case2 b c s hb ih =>
    rcases ih with ⟨⟨body, hun⟩, h⟩ | ⟨hun, hnil⟩
    · refine .inl ⟨⟨b :: body, fun hin => ?_⟩, congrArg (b :: ·) h⟩
      rw [List.cons_append, List.infix_cons_iff, prefix_star_slash] at hin
      rcases hin with ⟨hstar, hslash⟩ | hin
      · cases body with
        | nil => exact absurd hslash (by decide)
        | cons d body =>
          have hcd : c = d := (List.cons.inj h).1
          have hd : d = slash := by simpa using hslash
          exact hb ⟨hstar, hcd.trans hd⟩
      · exact hun hin
    · refine .inr ⟨fun hin => ?_, hnil⟩
      rw [List.infix_cons_iff, prefix_star_slash] at hin
      rcases hin with ⟨hstar, hslash⟩ | hin
      · exact hb ⟨hstar, by simpa using hslash⟩
      · exact hun hin
  | case3 s hnot =>
    refine .inr ⟨hshort s ?_, rfl⟩
    obtain _ | ⟨b, _ | ⟨c, s⟩⟩ := s
    · simp
    · simp
    · exact absurd rfl (hnot b c s)

theorem split_line {s : List Byte} (h : opensLine s = true) : ∃ u, s = slash :: slash :: u := by
  match s with
  | [] => simp [opensLine] at h
  | [_] => simp [opensLine] at h
  | b :: c :: u =>
    simp only [opensLine, List.head?_cons, List.drop_one, List.tail_cons, Option.some.injEq,
      Bool.and_eq_true, decide_eq_true_eq] at h
    exact ⟨u, by rw [h.1, h.2]⟩

theorem split_block {s : List Byte} (h : opensBlock s = true) :
    ∃ u, s = slash :: asterisk :: u := by
  match s with
  | [] => simp [opensBlock] at h
  | [_] => simp [opensBlock] at h
  | b :: c :: u =>
    simp only [opensBlock, List.head?_cons, List.drop_one, List.tail_cons, Option.some.injEq,
      Bool.and_eq_true, decide_eq_true_eq] at h
    exact ⟨u, by rw [h.1, h.2]⟩

theorem comment_spec {s : List Byte} (h : opensLine s = true ∨ opensBlock s = true) :
    (∃ (x : Trivia) (u : List Byte), x.IsComment ∧ s = x.bytes ++ u ∧ u.length < s.length) ∨
      LooseEnd s ∧ s ≠ [] := by
  rcases h with h | h
  · obtain ⟨w, rfl⟩ := split_line h
    obtain ⟨body, ⟨hw, -⟩ | ⟨u, hw, -⟩⟩ := pastLine_spec w
    · exact .inr ⟨by rw [hw]; exact .line body, by simp⟩
    · refine .inl ⟨.line body, u, by simp [Trivia.IsComment], by simp [Trivia.bytes, hw], ?_⟩
      rw [hw]
      simp only [List.length_cons, List.length_append]
      omega
  · obtain ⟨w, rfl⟩ := split_block h
    rcases pastBlock_spec w with ⟨body, hw⟩ | ⟨hun, -⟩
    · refine .inl ⟨.block body, pastBlock w, by simp [Trivia.IsComment], ?_, ?_⟩
      · conv_lhs => rw [hw]
        simp [Trivia.bytes]
      · have := length_pastBlock_le w
        simp only [List.length_cons]
        omega
    · exact .inr ⟨.block hun, by simp⟩

/-- What the gap skips is white space and closed comments, up to where it stops or to a comment
that runs to the end. -/
theorem skipGap_spec (s : List Byte) :
    (Behind s (skipGap s) ∧ Stops (skipGap s)) ∨
      ∃ e, Behind s e ∧ LooseEnd e ∧ e ≠ [] ∧ skipGap s = [] := by
  induction hn : s.length using Nat.strong_induction_on generalizing s with
  | _ n ih =>
    have hws := behind_skipWs s
    have hle : (skipWs s).length ≤ s.length := (List.dropWhile_sublist _).length_le
    have hskip : skipGap s = skipGap (skipWs s) := skipGap_behind hws
    by_cases hopens : opensLine (skipWs s) = true ∨ opensBlock (skipWs s) = true
    · rcases comment_spec hopens with ⟨x, u, -, hsplit, hlt⟩ | ⟨hend, hne⟩
      · have hu : Behind s u := Behind.trans hws (by rw [hsplit]; exact .trivia x (.none u))
        have hskip' : skipGap s = skipGap u := skipGap_behind hu
        rw [hskip']
        rcases ih _ (by omega) u rfl with ⟨hb, hs⟩ | ⟨e, hb, hrest⟩
        · exact .inl ⟨hu.trans hb, hs⟩
        · exact .inr ⟨e, hu.trans hb, hrest⟩
      · exact .inr ⟨_, hws, hend, hne, by rw [hskip, skipGap_looseEnd hend]⟩
    · obtain ⟨hline, hblock⟩ := not_or.mp hopens
      have hstop : skipGap s = skipWs s := by rw [skipGap, if_neg hline, if_neg hblock]
      refine .inl ⟨by rw [hstop]; exact hws, ?_⟩
      rw [Stops, hstop, ← hskip, hstop]

/-! ### The text that was stripped -/

def Keeps (x : Byte) (u s : List Byte) : Prop := strip (x = quote) u = s

theorem keeps_iff {x : Byte} (hx : x ≠ quote) {u s : List Byte} :
    Keeps x u s ↔ strip false u = s := by
  rw [Keeps, decide_eq_false hx]

theorem strip_other {c : Byte} {s : List Byte} (hquote : c ≠ quote)
    (hopens : ¬ (opensLine (c :: s) = true ∨ opensBlock (c :: s) = true)) (hcomma : c ≠ comma) :
    strip false (c :: s) = c :: strip false s := by
  rw [strip, if_neg hquote, if_neg (by simpa using hopens), if_neg fun h => hcomma h.1]

theorem ne_quote_of_blank (b : Blank) : b.byte ≠ quote := (plain_blank b).quote

theorem strip_comment {t : List Byte} (h : opensLine t = true ∨ opensBlock t = true) :
    (∃ k, Comments t k ∧ strip false t = strip false k ∧ k.length < t.length) ∨
      ∃ e, LooseGap t e ∧ LooseEnd e ∧ strip false t = [] := by
  have hstrip := strip_opens h
  rcases comment_spec h with ⟨x, u, hx, hsplit, -⟩ | ⟨hend, -⟩
  · have hskip : skipGap t = skipGap u := by rw [hsplit, skipGap_trivia]
    rcases skipGap_spec u with ⟨hbehind, -⟩ | ⟨e, hbehind, hend, -, hnil⟩
    · refine .inl ⟨skipGap t, ?_, hstrip, length_skipGap_lt h⟩
      rw [hskip, hsplit]
      exact .some hx hbehind
    · refine .inr ⟨e, ?_, hend, ?_⟩
      · rw [hsplit]
        exact .comments (.some hx hbehind)
      · rw [hstrip, hskip, hnil, strip_nil]
  · exact .inr ⟨t, .comments (.none t), hend, strip_looseEnd hend⟩

/-- Blanks and a byte of a token were written for a gap, perhaps with a comma in it before the end
of a container, and that byte. -/
theorem gap_of_strip {x : Byte} (hws : isAsciiWhitespace x = false) (hslash : x ≠ slash)
    {t s : List Byte} {bs : List Blank} (h : strip false t = bs.map Blank.byte ++ x :: s) :
    (∃ u, LooseGap t (x :: u) ∧ (bs = [] → Comments t (x :: u)) ∧ Keeps x u s) ∨
      isCloser x = true ∧ ∃ w u, LooseGap t (comma :: w) ∧ LooseGap w (x :: u) ∧ Keeps x u s := by
  induction hn : t.length using Nat.strong_induction_on generalizing t bs with
  | _ n ih =>
    cases t with
    | nil =>
      rw [strip_nil] at h
      simp at h
    | cons c t =>
      by_cases hopens : opensLine (c :: t) = true ∨ opensBlock (c :: t) = true
      · rcases strip_comment hopens with ⟨k, hcomments, hstrip, hlt⟩ | ⟨e, -, -, hnil⟩
        · rw [hstrip] at h
          rcases ih _ (hn ▸ hlt) h rfl with ⟨u, hgap, hfirst, hkeeps⟩ | ⟨hcloser, w, u, hgap, hrest⟩
          · exact .inl ⟨u, hcomments.gap hgap, fun hbs => hcomments.trans (hfirst hbs), hkeeps⟩
          · exact .inr ⟨hcloser, w, u, hcomments.gap hgap, hrest⟩
        · rw [hnil] at h
          simp at h
      · by_cases hquote : c = quote
        · rw [hquote, strip_quote] at h
          cases bs with
          | nil =>
            obtain ⟨hxq, hs⟩ := List.cons.inj h
            refine .inl ⟨t, ?_, fun _ => ?_, ?_⟩
            · rw [hquote, hxq]
              exact .comments (.none _)
            · rw [hquote, hxq]
              exact .none _
            · rw [Keeps, ← hxq]
              exact hs
          | cons b bs => exact absurd (List.cons.inj h).1.symm (ne_quote_of_blank b)
        · by_cases hcomma : c = comma
          · rw [hcomma, strip_comma] at h
            split_ifs at h with hcloses
            · rw [hcomma]
              rcases ih _ (by rw [← hn]; simp) h rfl with ⟨u, hgap, -, hkeeps⟩ | ⟨-, w, u, hgap, -⟩
              · rw [skipGap_looseGap hgap, skipGap_token hws hslash, closes_cons] at hcloses
                exact .inr ⟨hcloses, t, u, .comments (.none _), hgap, hkeeps⟩
              · rw [skipGap_looseGap hgap, skipGap_token rfl (by decide), closes_cons] at hcloses
                cases hcloses
            · cases bs with
              | nil =>
                obtain ⟨hxc, hs⟩ := List.cons.inj h
                rw [hcomma, ← hxc]
                exact .inl ⟨t, .comments (.none _), fun _ => .none _,
                  (keeps_iff (by decide)).mpr hs⟩
              | cons b bs => exact absurd (List.cons.inj h).1.symm (plain_blank b).comma
          · rw [strip_other hquote hopens hcomma] at h
            cases bs with
            | nil =>
              obtain ⟨hxc, hs⟩ := List.cons.inj h
              rw [← hxc]
              exact .inl ⟨t, .comments (.none _), fun _ => .none _, (keeps_iff hquote).mpr hs⟩
            | cons b bs =>
              obtain ⟨hcb, hs⟩ := List.cons.inj h
              rw [hcb]
              rcases ih _ (by rw [← hn]; simp) hs rfl with
                ⟨u, hgap, -, hkeeps⟩ | ⟨hcloser, w, u, hgap, hrest⟩
              · exact .inl ⟨u, .blank b hgap, (fun hnil => by cases hnil), hkeeps⟩
              · exact .inr ⟨hcloser, w, u, .blank b hgap, hrest⟩

theorem end_of_strip {t : List Byte} {bs : List Blank} (h : strip false t = bs.map Blank.byte) :
    ∃ e, LooseGap t e ∧ LooseEnd e := by
  induction hn : t.length using Nat.strong_induction_on generalizing t bs with
  | _ n ih =>
    cases t with
    | nil => exact ⟨[], .comments (.none _), .none⟩
    | cons c t =>
      by_cases hopens : opensLine (c :: t) = true ∨ opensBlock (c :: t) = true
      · rcases strip_comment hopens with ⟨k, hcomments, hstrip, hlt⟩ | ⟨e, hgap, hend, -⟩
        · obtain ⟨e, hgap, hend⟩ := ih _ (hn ▸ hlt) (hstrip ▸ h) rfl
          exact ⟨e, hcomments.gap hgap, hend⟩
        · exact ⟨e, hgap, hend⟩
      · by_cases hquote : c = quote
        · rw [hquote, strip_quote] at h
          cases bs with
          | nil => cases h
          | cons b bs => exact absurd (List.cons.inj h).1.symm (ne_quote_of_blank b)
        · by_cases hcomma : c = comma
          · rw [hcomma, strip_comma] at h
            split_ifs at h with hcloses
            · obtain ⟨e, hgap, hend⟩ := ih _ (by rw [← hn]; simp) h rfl
              rw [skipGap_looseGap hgap, skipGap_looseEnd hend] at hcloses
              cases hcloses
            · cases bs with
              | nil => cases h
              | cons b bs => exact absurd (List.cons.inj h).1.symm (plain_blank b).comma
          · rw [strip_other hquote hopens hcomma] at h
            cases bs with
            | nil => cases h
            | cons b bs =>
              obtain ⟨hcb, hs⟩ := List.cons.inj h
              obtain ⟨e, hgap, hend⟩ := ih _ (by rw [← hn]; simp) hs rfl
              rw [hcb]
              exact ⟨e, .blank b hgap, hend⟩

theorem inside_of_strip {b : Byte} {t s : List Byte} (hb : b ≠ backslash)
    (h : strip true t = b :: s) : ∃ u, t = b :: u ∧ strip (b ≠ quote) u = s := by
  cases t with
  | nil =>
    rw [strip_nil] at h
    cases h
  | cons c t =>
    by_cases hc : c = backslash
    · cases t with
      | nil =>
        rw [strip, if_pos hc] at h
        exact absurd ((List.cons.inj h).1.symm.trans hc) hb
      | cons d t =>
        rw [hc, strip_escape] at h
        exact absurd (List.cons.inj h).1.symm hb
    · rw [strip_inside hc] at h
      obtain ⟨rfl, hs⟩ := List.cons.inj h
      exact ⟨t, rfl, hs⟩

theorem escape_of_strip {c : Byte} {t s : List Byte} (h : strip true t = backslash :: c :: s) :
    ∃ u, t = backslash :: c :: u ∧ strip true u = s := by
  match t with
  | [] =>
    rw [strip_nil] at h
    cases h
  | [b] =>
    by_cases hb : b = backslash
    · rw [strip, if_pos hb] at h
      cases h
    · rw [strip_inside hb] at h
      exact absurd (List.cons.inj h).1 hb
  | b :: d :: u =>
    by_cases hb : b = backslash
    · rw [hb, strip_escape] at h
      obtain ⟨-, h⟩ := List.cons.inj h
      obtain ⟨rfl, hs⟩ := List.cons.inj h
      exact ⟨u, by rw [hb], hs⟩
    · rw [strip_inside hb] at h
      exact absurd (List.cons.inj h).1 hb

theorem raw_of_strip {raw : List Byte} (hraw : isRaw raw = true) {t s : List Byte}
    (h : strip true t = raw ++ quote :: s) : ∃ u, t = raw ++ quote :: u ∧ strip false u = s := by
  have hend : ∀ {t}, strip true t = quote :: s → ∃ u, t = quote :: u ∧ strip false u = s :=
    fun h => inside_of_strip (by decide) h
  induction raw using isRaw.induct generalizing t with
  | case1 => exact hend h
  | case2 b =>
    simp only [isRaw, Bool.and_eq_true, bne_iff_ne] at hraw
    obtain ⟨u, rfl, hu⟩ := inside_of_strip hraw.1 h
    rw [decide_eq_true hraw.2] at hu
    obtain ⟨w, rfl, hw⟩ := hend hu
    exact ⟨w, rfl, hw⟩
  | case3 c r ih =>
    simp only [isRaw, if_true] at hraw
    obtain ⟨u, rfl, hu⟩ := escape_of_strip h
    obtain ⟨w, rfl, hw⟩ := ih hraw hu
    exact ⟨w, rfl, hw⟩
  | case4 b c r hb ih =>
    simp only [isRaw, hb, if_false, Bool.and_eq_true, bne_iff_ne] at hraw
    obtain ⟨u, rfl, hu⟩ := inside_of_strip hb h
    rw [decide_eq_true hraw.1] at hu
    obtain ⟨w, rfl, hw⟩ := ih hraw.2 hu
    exact ⟨w, rfl, hw⟩

theorem atom_of_strip {a : List Byte} (ha : ∀ c ∈ a, isAtomByte c = true) (b : Byte)
    {u s : List Byte} (h : strip false u = a ++ s) :
    ∃ r, LooseAtom (b :: a) (b :: u) r ∧ strip false r = s := by
  induction a generalizing b u with
  | nil => exact ⟨u, .last b u, h⟩
  | cons c a ih =>
    have hc := ha c List.mem_cons_self
    have hnone : strip false u = List.map Blank.byte [] ++ c :: (a ++ s) := h
    rcases gap_of_strip (not_white_of_atom hc) (plain_atom hc).slash hnone with
      ⟨w, -, hfirst, hkeeps⟩ | ⟨hcloser, -⟩
    · rw [keeps_iff (plain_atom hc).quote] at hkeeps
      obtain ⟨r, hr, hs⟩ := ih (fun d hd => ha d (List.mem_cons_of_mem c hd)) c hkeeps
      exact ⟨r, .next b (hfirst rfl) hr, hs⟩
    · simp [isCloser, ne_of_isAtomByte hc (c := rbrace) rfl,
        ne_of_isAtomByte hc (c := rbracket) rfl] at hcloser

theorem exists_blanks {g : Gap} (hg : OnlyBlanks g) :
    ∃ bs : List Blank, g.bytes = bs.map Blank.byte := by
  induction g with
  | nil => exact ⟨[], rfl⟩
  | cons x g ih =>
    obtain ⟨b, rfl⟩ := hg x List.mem_cons_self
    obtain ⟨bs, hbs⟩ := ih fun y hy => hg y (List.mem_cons_of_mem _ hy)
    exact ⟨b :: bs, congrArg (b.byte :: ·) hbs⟩

theorem plainGap_of_strip {x : Byte} (hx : Begin x) {t s : List Byte} {g : Gap}
    (hg : OnlyBlanks g) (h : strip false t = g.bytes ++ x :: s) :
    ∃ u, LooseGap t (x :: u) ∧ Keeps x u s := by
  obtain ⟨bs, hbs⟩ := exists_blanks hg
  rw [hbs] at h
  rcases gap_of_strip hx.white hx.slash h with ⟨u, hgap, -, hkeeps⟩ | ⟨hcloser, -⟩
  · exact ⟨u, hgap, hkeeps⟩
  · rw [hx.closer] at hcloser
    cases hcloser

theorem begin_comma : Begin comma := ⟨rfl, rfl, by decide⟩

theorem begin_colon : Begin colon := ⟨rfl, rfl, by decide⟩

theorem lastGap_of_strip {c : Byte} (hc : Closing c) {t s : List Byte} {g : Gap}
    (hg : OnlyBlanks g) (h : strip false t = g.bytes ++ c :: s) :
    ∃ u, strip false u = s ∧
      (LooseGap t (c :: u) ∨ ∃ w, LooseGap t (comma :: w) ∧ LooseGap w (c :: u)) := by
  obtain ⟨bs, hbs⟩ := exists_blanks hg
  rw [hbs] at h
  rcases gap_of_strip hc.white hc.plain.slash h with
    ⟨u, hgap, -, hkeeps⟩ | ⟨-, w, u, hgap, hgap', hkeeps⟩
  · exact ⟨u, (keeps_iff hc.plain.quote).mp hkeeps, .inl hgap⟩
  · exact ⟨u, (keeps_iff hc.plain.quote).mp hkeeps, .inr ⟨w, hgap, hgap'⟩⟩

/-! ### The tree of the text that was stripped -/

def LiftsNode (n : Node) : Prop :=
  ∀ x u s' s, Keeps x u s' → x :: s' = n.bytes ++ s → ∃ r, n.Loose (x :: u) r ∧ strip false r = s

theorem node_begins (n : Node) : ∃ x s, n.bytes = x :: s ∧ Begin x := by
  obtain ⟨x, s, hbytes, hx⟩ := looseNode_head (n.loose_bytes [])
  rw [List.append_nil] at hbytes
  exact ⟨x, s, hbytes, hx⟩

section items

variable {α : Type} {loose : α → Reads} {bytes : α → List Byte} {c : Byte}

/-- Where the element was written, a loose spelling of it stood, up to the gap behind it. -/
def Lifts (loose : α → Reads) (bytes : α → List Byte) (x : α) : Prop :=
  ∀ t rest, strip false t = bytes x ++ rest → ∃ (z : List Byte) (g : Gap), OnlyBlanks g ∧
    strip false z = g.bytes ++ rest ∧ ∀ r, LooseGap z r → loose x t r

theorem items_of_strip (hc : Closing c) {tail : Gap} (htail : OnlyBlanks tail) {x : α} {xs : List α}
    (hx : ∀ y ∈ x :: xs, Lifts loose bytes y) {t s : List Byte}
    (h : strip false t = commaSep false ((x :: xs).map bytes) ++ (tail.bytes ++ c :: s)) :
    ∃ r, LooseItems c ((x :: xs).map loose) t r ∧ strip false r = s := by
  have hfirst := hx x List.mem_cons_self
  induction xs generalizing x t with
  | nil =>
    have hbytes : strip false t = bytes x ++ (tail.bytes ++ c :: s) := by simpa [commaSep] using h
    obtain ⟨z, g, hg, hz, hitem⟩ := hfirst t _ hbytes
    have hgap : strip false z = Gap.bytes (g ++ tail) ++ c :: s := by
      rw [hz, gap_bytes_append, List.append_assoc]
    have hblanks : OnlyBlanks (g ++ tail) := fun y hy =>
      (List.mem_append.mp hy).elim (hg y) (htail y)
    obtain ⟨u, hs, hlast | ⟨w, hcomma, hlast⟩⟩ := lastGap_of_strip hc hblanks hgap
    · exact ⟨u, .last (hitem _ hlast), hs⟩
    · exact ⟨u, .trailing (hitem _ hcomma) hlast, hs⟩
  | cons y ys ih =>
    have hbytes : strip false t =
        bytes x ++ comma :: (commaSep false ((y :: ys).map bytes) ++ (tail.bytes ++ c :: s)) := by
      simpa [commaSep] using h
    obtain ⟨z, g, hg, hz, hitem⟩ := hfirst t _ hbytes
    obtain ⟨u, hgap, hkeeps⟩ := plainGap_of_strip begin_comma hg hz
    rw [keeps_iff (by decide)] at hkeeps
    obtain ⟨r, hrest, hs⟩ := ih (fun w hw => hx w (List.mem_cons_of_mem x hw)) hkeeps (hx y (by simp))
    exact ⟨r, .cons (hitem _ hgap) hrest, hs⟩

theorem group_of_strip (hc : Closing c) {opening : Byte} (ho : opening ≠ quote) {tail : Gap}
    (htail : OnlyBlanks tail) {xs : List α} (hx : ∀ y ∈ xs, Lifts loose bytes y) {x : Byte}
    {u s' s : List Byte} (hkeeps : Keeps x u s')
    (h : x :: s' = group opening c (xs.map bytes) false tail ++ s) :
    ∃ r, LooseGroup opening c (xs.map loose) (x :: u) r ∧ strip false r = s := by
  have hbytes : x :: s' = opening :: (commaSep false (xs.map bytes) ++ (tail.bytes ++ c :: s)) := by
    simpa [group] using h
  obtain ⟨rfl, hs'⟩ := List.cons.inj hbytes
  rw [keeps_iff ho, hs'] at hkeeps
  cases xs with
  | nil =>
    obtain ⟨r, hs, hempty⟩ := lastGap_of_strip hc htail hkeeps
    exact ⟨r, ⟨u, rfl, .inl ⟨rfl, hempty⟩⟩, hs⟩
  | cons y ys =>
    obtain ⟨r, hitems, hs⟩ := items_of_strip hc htail hx hkeeps
    exact ⟨r, ⟨u, rfl, .inr hitems⟩, hs⟩

end items

section slots

variable {L : Type} {label : L → Reads} {lab : L → List Byte} {P : L → Prop}

/-- Where the label was written behind a gap and in front of a value, a loose spelling of it
stood. -/
def LiftsLabel (label : L → Reads) (lab : L → List Byte) (P : L → Prop) : Prop :=
  ∀ l, P l → ∀ g, OnlyBlanks g → ∀ t x s, Begin x → strip false t = g.bytes ++ (lab l ++ x :: s) →
    ∃ u w, LooseGap t u ∧ label l u (x :: w) ∧ Keeps x w s

theorem slot_of_strip (hlabel : LiftsLabel label lab P) {s : Slot L Node} (hpre : OnlyBlanks s.pre)
    (hP : P s.label) (hpost : OnlyBlanks s.post) (ih : LiftsNode s.value) :
    Lifts (fun s : Slot L Node => (s.map Node.Loose).Loose label)
      (fun s : Slot L Node => (s.map Node.bytes).bytes lab) s := by
  intro t rest h
  obtain ⟨x, v, hv, hx⟩ := node_begins s.value
  have hbytes : strip false t =
      s.pre.bytes ++ (lab s.label ++ x :: (v ++ (s.post.bytes ++ rest))) := by
    simpa [Slot.bytes, Slot.map, hv] using h
  obtain ⟨u, w, hgap, hlab, hkeeps⟩ := hlabel _ hP _ hpre _ _ _ hx hbytes
  obtain ⟨z, hvalue, hz⟩ := ih _ _ _ (s.post.bytes ++ rest) hkeeps (by rw [hv]; rfl)
  exact ⟨z, s.post, hpost, hz, fun r hr => ⟨u, _, z, hgap, hlab, hvalue, hr⟩⟩

end slots

theorem liftsLabel_none :
    LiftsLabel (fun _ : Unit => Eq) (fun _ => []) fun _ => True := by
  intro _ _ g hg t x s hx h
  obtain ⟨u, hgap, hkeeps⟩ := plainGap_of_strip hx hg h
  exact ⟨_, u, hgap, rfl, hkeeps⟩

theorem liftsLabel_name : LiftsLabel Label.Loose Label.bytes Label.Strict := by
  rintro l ⟨hmid, hmid'⟩ g hg t x s hx h
  have hbytes : strip false t = g.bytes ++
      quote :: (l.name.raw ++ quote :: (l.mid.bytes ++ colon :: (l.mid'.bytes ++ x :: s))) := by
    simpa [Label.bytes, StrLit.bytes] using h
  obtain ⟨u, hgap, hkeeps⟩ := plainGap_of_strip ⟨rfl, rfl, by decide⟩ hg hbytes
  rw [Keeps, decide_eq_true rfl] at hkeeps
  obtain ⟨w, rfl, hw⟩ := raw_of_strip l.name.isRaw hkeeps
  obtain ⟨y, hgap', hkeeps'⟩ := plainGap_of_strip begin_colon hmid hw
  rw [keeps_iff (by decide)] at hkeeps'
  obtain ⟨z, hgap'', hkeeps''⟩ := plainGap_of_strip hx hmid' hkeeps'
  exact ⟨_, z, hgap, ⟨w, y, by simp [StrLit.bytes], hgap', hgap''⟩, hkeeps''⟩

theorem node_of_strip (n : Node) (h : n.Strict) : LiftsNode n := by
  induction n using Node.induct with
  | atom a =>
    intro x u s' s hkeeps heq
    have heq' : x :: s' = a.first :: (a.rest ++ s) := heq
    obtain ⟨rfl, rfl⟩ := List.cons.inj heq'
    rw [keeps_iff (plain_atom (a.isAtom _ List.mem_cons_self)).quote] at hkeeps
    exact atom_of_strip (fun c hc => a.isAtom c (List.mem_cons_of_mem _ hc)) _ hkeeps
  | str l =>
    intro x u s' s hkeeps heq
    have heq' : x :: s' = quote :: (l.raw ++ quote :: s) := by
      rw [heq]
      show l.bytes ++ s = _
      simp [StrLit.bytes]
    obtain ⟨rfl, rfl⟩ := List.cons.inj heq'
    rw [Keeps, decide_eq_true rfl] at hkeeps
    obtain ⟨w, rfl, hw⟩ := raw_of_strip l.isRaw hkeeps
    refine ⟨w, ?_, hw⟩
    show quote :: (l.raw ++ quote :: w) = l.bytes ++ w
    simp [StrLit.bytes]
  | arr es trailing tail ih =>
    rw [Node.strict_arr] at h
    obtain ⟨hall, rfl, htail⟩ := h
    intro x u s' s hkeeps heq
    rw [Node.loose_arr]
    rw [Node.bytes_arr] at heq
    refine group_of_strip closing_rbracket (by decide) htail (fun e he => ?_) hkeeps heq
    obtain ⟨hpre, hvalue, hpost⟩ := hall e he
    exact slot_of_strip liftsLabel_none hpre trivial hpost (ih e he hvalue)
  | obj fs trailing tail ih =>
    rw [Node.strict_obj] at h
    obtain ⟨hall, rfl, htail⟩ := h
    intro x u s' s hkeeps heq
    rw [Node.loose_obj]
    rw [Node.bytes_obj] at heq
    refine group_of_strip closing_rbrace (by decide) htail (fun f hf => ?_) hkeeps heq
    obtain ⟨hpre, hlabel, hvalue, hpost⟩ := hall f hf
    exact slot_of_strip liftsLabel_name hpre hlabel hpost (ih f hf hvalue)

variable {N : Type} (lits : Literals N)

theorem looseText_of_strip {t : List Byte} {v : Value N} (h : JsonText lits (stripJsonc t) v) :
    LooseText lits t v := by
  obtain ⟨d, ⟨hlead, hroot, htail, hlast⟩, hbytes, hv⟩ := h
  obtain ⟨x, s, hs, hx⟩ := node_begins d.root
  have hending : d.ending = [] := by rw [Doc.ending, hlast]
  have hstrip : strip false t = d.lead.bytes ++ x :: (s ++ d.tail.bytes) := by
    rw [← stripJsonc, ← hbytes, Doc.bytes, hending, hs]
    simp
  obtain ⟨u, hgap, hkeeps⟩ := plainGap_of_strip hx hlead hstrip
  obtain ⟨r, hnode, hr⟩ := node_of_strip d.root hroot _ _ _ d.tail.bytes hkeeps (by rw [hs]; rfl)
  obtain ⟨bs, hbs⟩ := exists_blanks htail
  obtain ⟨e, hgap', hend⟩ := end_of_strip (hr.trans hbs)
  exact ⟨d.root, hv, _, _, _, hgap, hnode, hgap', hend⟩

theorem jsonText_strip_iff {t : List Byte} {v : Value N} :
    JsonText lits (stripJsonc t) v ↔ LooseText lits t v :=
  ⟨looseText_of_strip lits, jsonText_strip lits⟩

end Travsr.Indexer
