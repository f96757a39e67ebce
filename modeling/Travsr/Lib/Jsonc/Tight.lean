import Travsr.Lib.Jsonc.Liberty

namespace Jsonc

open Scanner

/-! ### Gaps -/

theorem behind_tight {t r : List Byte} (h : Behind t r) {s : Scanner} (hs : s.mode = .text)
    (hclean : (s.run t).Clean) : ∃ g : Gap, t = g.bytes ++ r := by
  induction h generalizing s with
  | none => exact ⟨[], rfl⟩
  | formFeed _ _ =>
    have hstep : (s.step formFeed).liberty = true := by
      rw [step, hs]
      rfl
    have := Clean.liberty (s := s.step formFeed) hclean
    simp [hstep] at this
  | trivia x _ ih =>
    obtain ⟨c, hrun, _⟩ := run_trivia hs x
    rw [run_append, hrun] at hclean
    obtain ⟨g, rfl⟩ := ih (s := { s with comment := c }) hs hclean
    exact ⟨x :: g, by simp [Gap.bytes]⟩

theorem looseGap_tight {t r : List Byte} (h : LooseGap t r) {s : Scanner} (hs : s.mode = .text)
    (hclean : (s.run t).Clean) : ∃ g : Gap, t = g.bytes ++ r :=
  behind_tight h.behind hs hclean

theorem strays_not_clean {s : Scanner} (hs : s.mode = .text) {b : Byte} (hb : isTokenByte b = true)
    (hstray : s.strays b = true) (t : List Byte) : ¬ (s.run (b :: t)).Clean := by
  intro hclean
  have := Clean.liberty (s := s.step b) hclean
  rw [step_token hs hb] at this
  simp [hstray] at this

theorem looseAtom_tight {a t r : List Byte} (h : LooseAtom a t r)
    (ha : ∀ b ∈ a, isAtomByte b = true) {s : Scanner} (hs : s.Between)
    (hlast : s.last ≠ .atom ∨ s.comment = false) (hclean : (s.run t).Clean) : t = a ++ r := by
  induction h generalizing s with
  | last b t => rfl
  | @next b a t u r hc hrest ih =>
    rw [run_cons, step_atom hs (ha b List.mem_cons_self) hlast] at hclean
    have hatom : ∀ c ∈ a, isAtomByte c = true := fun c hmem => ha c (List.mem_cons_of_mem b hmem)
    cases hc with
    | none => rw [ih hatom ⟨rfl, rfl⟩ (.inr rfl) hclean, List.cons_append]
    | @some x hx w _ hbehind =>
      obtain ⟨c, hrun, hcomment, _⟩ := run_trivia (s := ⟨.text, .atom, false, false⟩) rfl x
      rw [run_append, hrun, hcomment hx] at hclean
      obtain ⟨g, rfl⟩ := behind_tight hbehind (s := ⟨.text, .atom, true, false⟩) rfl hclean
      obtain ⟨d, hgap, hd⟩ := run_gap (s := ⟨.text, .atom, true, false⟩) rfl g
      rw [run_append, hgap, hd rfl] at hclean
      obtain ⟨e, a', v, rfl, rfl⟩ := looseAtom_head hrest
      have he := hatom e List.mem_cons_self
      exact absurd hclean (strays_not_clean rfl (isTokenByte_atom he) (by simp [strays, he]) v)

/-! ### Containers -/

section items

variable {α β : Type} {loose : α → Reads} {bytes : α → List Byte} {val : α → Option β}
  {opening c : Byte}

/-- Where the element may begin, a text of it that takes no liberty is written as JSONC. -/
def Tightens (loose : α → Reads) (bytes : α → List Byte) (val : α → Option β) (x : α) : Prop :=
  ∀ (s : Scanner) (t r : List Byte), s.Ready → loose x t r → (s.run t).Clean →
    ∃ x', val x' = val x ∧ t = bytes x' ++ r ∧ (s.run (bytes x')).Past

theorem looseItems_tight {x : α} {xs : List α} (hx : ∀ y ∈ x :: xs, Tightens loose bytes val y)
    {s : Scanner} (hs : s.Ready) {t r : List Byte} (h : LooseItems c ((x :: xs).map loose) t r)
    (hclean : (s.run t).Clean) :
    ∃ (xs' : List α) (trailing : Bool) (tail : Gap), xs' ≠ [] ∧
      xs'.mapM val = (x :: xs).mapM val ∧
      t = commaSep trailing (xs'.map bytes) ++ (tail.bytes ++ c :: r) := by
  have hfirst := hx x List.mem_cons_self
  induction xs generalizing x s t with
  | nil =>
    cases h with
    | last hitem =>
      obtain ⟨x', hval, rfl, -⟩ := hfirst _ _ _ hs hitem hclean
      exact ⟨[x'], false, [], by simp, by simp [hval], by simp [commaSep, Gap.bytes]⟩
    | trailing hitem hgap =>
      obtain ⟨x', hval, rfl, hpast⟩ := hfirst _ _ _ hs hitem hclean
      rw [run_append, run_cons] at hclean
      obtain ⟨g, rfl⟩ := looseGap_tight hgap hpast.comma.mode hclean
      exact ⟨[x'], true, g, by simp, by simp [hval], by simp [commaSep]⟩
    | cons _ hrest => cases hrest
  | cons y ys ih =>
    cases h with
    | cons hitem hrest =>
      obtain ⟨x', hval, rfl, hpast⟩ := hfirst _ _ _ hs hitem hclean
      rw [run_append, run_cons] at hclean
      obtain ⟨ys', trailing, tail, hne, hvals, rfl⟩ :=
        ih (fun z hz => hx z (List.mem_cons_of_mem x hz)) hpast.comma hrest hclean
          (hx y (by simp))
      refine ⟨x' :: ys', trailing, tail, by simp, ?_, ?_⟩
      · rw [List.mapM_cons, List.mapM_cons, hval, hvals]
      · simp [commaSep, hne]

theorem looseGroup_tight (hf : Fences opening c) {xs : List α}
    (hx : ∀ y ∈ xs, Tightens loose bytes val y) {s : Scanner} (hs : s.Ready) {t r : List Byte}
    (h : LooseGroup opening c (xs.map loose) t r) (hclean : (s.run t).Clean) :
    ∃ (xs' : List α) (trailing : Bool) (tail : Gap), xs'.mapM val = xs.mapM val ∧
      t = group opening c (xs'.map bytes) trailing tail ++ r := by
  obtain ⟨u, rfl, h⟩ := h
  rw [run_cons, hf.open hs.toBetween] at hclean
  cases xs with
  | nil =>
    rcases h with ⟨-, hgap | ⟨w, hgap, -⟩⟩ | h
    · obtain ⟨g, rfl⟩ := looseGap_tight hgap rfl hclean
      exact ⟨[], false, g, rfl, by simp [group, commaSep]⟩
    · obtain ⟨g, rfl⟩ := looseGap_tight hgap rfl hclean
      obtain ⟨d, hrun, -⟩ := run_gap (s := ⟨.text, .opening, false, false⟩) rfl g
      rw [run_append, hrun] at hclean
      exact absurd hclean (strays_not_clean rfl rfl (by simp [strays]) w)
    · cases h
  | cons x xs =>
    rcases h with ⟨h, -⟩ | h
    · simp at h
    · have hready : (Scanner.mk .text .opening false false).Ready := ⟨⟨rfl, rfl⟩, by decide⟩
      obtain ⟨xs', trailing, tail, -, hvals, rfl⟩ := looseItems_tight hx hready h hclean
      exact ⟨xs', trailing, tail, hvals, by simp [group]⟩

end items

section nodes

variable {N : Type} (lits : Literals N)

def TightensNode (n : Node) : Prop := Tightens Node.Loose Node.bytes (Node.value lits) n

section slots

variable {L : Type} {label : L → Reads} {lab : L → List Byte} {Q : L → L → Prop}

def TightensLabel (label : L → Reads) (lab : L → List Byte) (Q : L → L → Prop) : Prop :=
  ∀ l (s : Scanner) t r, s.Ready → label l t r → (s.run t).Clean →
    ∃ l', Q l l' ∧ t = lab l' ++ r ∧ (s.run (lab l')).Ready

theorem slot_tight (hlabel : TightensLabel label lab Q) (e : Slot L Node)
    (ih : TightensNode lits e.value) {s : Scanner} (hs : s.Ready) {t r : List Byte}
    (h : (e.map Node.Loose).Loose label t r) (hclean : (s.run t).Clean) :
    ∃ e' : Slot L Node, Q e.label e'.label ∧ e'.value.value lits = e.value.value lits ∧
      t = (e'.map Node.bytes).bytes lab ++ r ∧ (s.run ((e'.map Node.bytes).bytes lab)).Past := by
  obtain ⟨u, w, z, hpre, hlab, hvalue, hpost⟩ := h
  obtain ⟨g, rfl⟩ := looseGap_tight hpre hs.mode hclean
  have hbefore := hs.gap g
  rw [run_append] at hclean
  obtain ⟨l', hq, rfl, hready⟩ := hlabel _ _ _ _ hbefore hlab hclean
  rw [run_append] at hclean
  obtain ⟨n', hval, rfl, hpast⟩ := ih _ _ _ hready hvalue hclean
  rw [run_append] at hclean
  obtain ⟨g', rfl⟩ := looseGap_tight hpost hpast.mode hclean
  have hbytes : (Slot.map Node.bytes ⟨g, l', n', g'⟩).bytes lab =
      g.bytes ++ (lab l' ++ (n'.bytes ++ g'.bytes)) := rfl
  refine ⟨⟨g, l', n', g'⟩, hq, hval, by simp [hbytes], ?_⟩
  rw [hbytes, run_append, run_append, run_append]
  exact hpast.gap g'

end slots

theorem tightensLabel_none :
    TightensLabel (fun _ : Unit => Eq) (fun _ => []) fun _ _ => True := by
  rintro l s t _ hs rfl -
  exact ⟨l, trivial, rfl, hs⟩

theorem tightensLabel_name :
    TightensLabel Label.Loose Label.bytes fun l l' => l'.key lits = l.key lits := by
  rintro l s _ r hs ⟨u, w, rfl, hmid, hmid'⟩ hclean
  have hname : (s.run l.name.bytes).Between := by
    rw [run_str hs.toBetween]
    exact ⟨rfl, rfl⟩
  rw [run_append] at hclean
  obtain ⟨g, rfl⟩ := looseGap_tight hmid hname.mode hclean
  rw [run_append, run_cons, step_mark (hname.gap g) mark_colon] at hclean
  obtain ⟨g', rfl⟩ := looseGap_tight hmid' rfl hclean
  exact ⟨⟨l.name, g, g'⟩, rfl, by simp [Label.bytes], run_label hs.toBetween _⟩

theorem node_tight (n : Node) : TightensNode lits n := by
  have hpast : ∀ {n' : Node} {s : Scanner}, s.Ready → (s.run n'.bytes).Past :=
    fun hs => passes_node _ _ hs
  induction n using Node.induct with
  | atom a =>
    intro s t r hs h hclean
    exact ⟨.atom a, rfl, looseAtom_tight h a.isAtom hs.toBetween (.inl hs.last) hclean, hpast hs⟩
  | str l =>
    rintro s _ r hs rfl -
    exact ⟨.str l, rfl, rfl, hpast hs⟩
  | arr es trailing tail ih =>
    intro s t r hs h hclean
    rw [Node.loose_arr] at h
    have hslots : ∀ e ∈ es, Tightens Elem.Loose Elem.bytes (fun e : Elem => e.value.value lits)
        e := by
      intro e he σ t r hσ h hclean
      obtain ⟨e', -, hval, ht, hend⟩ := slot_tight lits tightensLabel_none e (ih e he) hσ h hclean
      exact ⟨e', hval, ht, hend⟩
    obtain ⟨es', trailing', tail', hvals, ht⟩ := looseGroup_tight fences_brackets hslots hs h hclean
    refine ⟨.arr es' trailing' tail', ?_, ?_, hpast hs⟩
    · rw [Node.value_arr, Node.value_arr, hvals]
    · rw [Node.bytes_arr, ht]
  | obj fs trailing tail ih =>
    intro s t r hs h hclean
    rw [Node.loose_obj] at h
    have hslots : ∀ f ∈ fs, Tightens Field.Loose Field.bytes (Field.entry lits) f := by
      intro f hf σ t r hσ h hclean
      obtain ⟨f', hkey, hval, ht, hend⟩ :=
        slot_tight lits (tightensLabel_name lits) f (ih f hf) hσ h hclean
      refine ⟨f', ?_, ht, hend⟩
      simp only [Field.entry, Slot.entry, Slot.map, hkey, hval]
    obtain ⟨fs', trailing', tail', hvals, ht⟩ := looseGroup_tight fences_braces hslots hs h hclean
    refine ⟨.obj fs' trailing' tail', ?_, ?_, hpast hs⟩
    · rw [Node.value_obj, Node.value_obj, hvals]
    · rw [Node.bytes_obj, ht]

theorem looseEnd_tight {t : List Byte} (h : LooseEnd t) {s : Scanner} (hs : s.mode = .text)
    (hclean : (s.run t).Clean) :
    t = [] ∨ ∃ body : LineBody, t = slash :: slash :: body.bytes := by
  cases h with
  | none => exact .inl rfl
  | line body => exact .inr ⟨body, rfl⟩
  | @block body hunclosed =>
    obtain ⟨mode, last, comment, liberty⟩ := s
    simp only at hs
    subst hs
    have hopen : (Scanner.mk .text last comment liberty).run [slash, asterisk] =
        ⟨.block, last, comment, liberty⟩ := rfl
    obtain ⟨m, hm, hrun⟩ :=
      run_within (s := ⟨.block, last, comment, liberty⟩) (.inl ⟨rfl, hunclosed⟩)
    have hsplit : slash :: asterisk :: body = [slash, asterisk] ++ body := rfl
    rw [hsplit, run_append, hopen, hrun] at hclean
    rcases hm with rfl | rfl
    · exact absurd rfl hclean.2.1
    · exact absurd rfl hclean.2.2

theorem jsoncText_of_loose {t : List Byte} {v : Value N} (h : LooseText lits t v)
    (ht : ¬ TakesLiberty t) : JsoncText lits t v := by
  obtain ⟨n, hv, u, w, z, hlead, hnode, htail, hend⟩ := h
  rw [TakesLiberty, not_not] at ht
  obtain ⟨g, rfl⟩ := looseGap_tight hlead rfl ht
  have hready := ready_start.gap g
  rw [run_append] at ht
  obtain ⟨n', hval, rfl, hpast⟩ := node_tight lits n _ _ _ hready hnode ht
  rw [run_append] at ht
  obtain ⟨g', rfl⟩ := looseGap_tight htail hpast.mode ht
  rw [run_append] at ht
  rcases looseEnd_tight hend (hpast.gap g').mode ht with rfl | ⟨body, rfl⟩
  · exact ⟨⟨g, n', g', none⟩, by simp [Doc.bytes, Doc.ending], hval.trans hv⟩
  · exact ⟨⟨g, n', g', some body⟩, by simp [Doc.bytes, Doc.ending], hval.trans hv⟩

theorem jsoncText_iff {t : List Byte} {v : Value N} :
    JsoncText lits t v ↔ LooseText lits t v ∧ ¬ TakesLiberty t := by
  refine ⟨fun h => ⟨looseText_of_jsonc lits h, ?_⟩, fun h => jsoncText_of_loose lits h.1 h.2⟩
  obtain ⟨d, rfl, -⟩ := h
  exact not_takesLiberty d

end nodes

end Jsonc
