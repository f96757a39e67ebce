import Travsr.Lib.Jsonc.Strict

/-! Texts that are JSONC but for four liberties: white space behind a comment may hold form feeds, a
comment may cut a word or a number, a container may hold a comma alone, and the text may end inside
a block comment. A relation between two texts says that the first goes on with the second. -/

namespace Jsonc

def formFeed : Byte := byte 12

/-- What may stand behind a comment. -/
inductive Behind : List Byte → List Byte → Prop
  | none (t : List Byte) : Behind t t
  | formFeed {t r : List Byte} : Behind t r → Behind (Jsonc.formFeed :: t) r
  | trivia (x : Trivia) {t r : List Byte} : Behind t r → Behind (x.bytes ++ t) r

def Trivia.IsComment (x : Trivia) : Prop := ∀ b, x ≠ .blank b

/-- Nothing, or a comment with what stands behind it. -/
inductive Comments : List Byte → List Byte → Prop
  | none (t : List Byte) : Comments t t
  | some {x : Trivia} (hx : x.IsComment) {t r : List Byte} : Behind t r → Comments (x.bytes ++ t) r

inductive LooseGap : List Byte → List Byte → Prop
  | comments {t r : List Byte} : Comments t r → LooseGap t r
  | blank (b : Blank) {t r : List Byte} : LooseGap t r → LooseGap (b.byte :: t) r

/-- A word or a number with comments between its bytes. -/
inductive LooseAtom : List Byte → List Byte → List Byte → Prop
  | last (b : Byte) (t : List Byte) : LooseAtom [b] (b :: t) t
  | next (b : Byte) {a t u r : List Byte} : Comments t u → LooseAtom a u r →
    LooseAtom (b :: a) (b :: t) r

abbrev Reads := List Byte → List Byte → Prop

def Label.Loose (l : Label) : Reads := fun t r =>
  ∃ u w, t = l.name.bytes ++ u ∧ LooseGap u (colon :: w) ∧ LooseGap w r

def Slot.Loose {L : Type} (label : L → Reads) (s : Slot L Reads) : Reads := fun t r =>
  ∃ u w z, LooseGap t u ∧ label s.label u w ∧ s.value w z ∧ LooseGap z r

/-- The elements of a container that is not empty, up to its end. -/
inductive LooseItems (closing : Byte) : List Reads → Reads
  | last {item : Reads} {t r : List Byte} : item t (closing :: r) → LooseItems closing [item] t r
  | trailing {item : Reads} {t u r : List Byte} : item t (comma :: u) →
    LooseGap u (closing :: r) → LooseItems closing [item] t r
  | cons {item : Reads} {items : List Reads} {t u r : List Byte} : item t (comma :: u) →
    LooseItems closing items u r → LooseItems closing (item :: items) t r

def LooseEmpty (closing : Byte) : Reads := fun t r =>
  LooseGap t (closing :: r) ∨ ∃ u, LooseGap t (comma :: u) ∧ LooseGap u (closing :: r)

def LooseGroup (opening closing : Byte) (items : List Reads) : Reads := fun t r =>
  ∃ u, t = opening :: u ∧ (items = [] ∧ LooseEmpty closing u r ∨ LooseItems closing items u r)

/-- The texts that spell a node, whatever gaps and commas the node itself has. -/
def Node.Loose : Node → Reads :=
  Node.fold
    { atom := fun a => LooseAtom a.bytes
      str := fun s t r => t = s.bytes ++ r
      arr := fun es _ _ => LooseGroup lbracket rbracket (es.map (Slot.Loose fun _ => Eq))
      obj := fun fs _ _ => LooseGroup lbrace rbrace (fs.map (Slot.Loose Label.Loose)) }

def Elem.Loose (e : Elem) : Reads := Slot.Loose (fun _ => Eq) (e.map Node.Loose)

def Field.Loose (f : Field) : Reads := Slot.Loose Label.Loose (f.map Node.Loose)

theorem Node.loose_arr (es : List Elem) (trailing : Bool) (tail : Gap) :
    (Node.arr es trailing tail).Loose = LooseGroup lbracket rbracket (es.map Elem.Loose) := by
  rw [Node.Loose, Node.fold_arr]
  simp only [List.map_map]
  rfl

theorem Node.loose_obj (fs : List Field) (trailing : Bool) (tail : Gap) :
    (Node.obj fs trailing tail).Loose = LooseGroup lbrace rbrace (fs.map Field.Loose) := by
  rw [Node.Loose, Node.fold_obj]
  simp only [List.map_map]
  rfl

/-- The end of a text: a comment may be left open. -/
inductive LooseEnd : List Byte → Prop
  | none : LooseEnd []
  | line (body : LineBody) : LooseEnd (slash :: slash :: body.bytes)
  | block {body : List Byte} (unclosed : ¬ [asterisk, slash] <:+: body) :
    LooseEnd (slash :: asterisk :: body)

variable {N : Type} (lits : Literals N)

/-- The text denotes the value, up to the liberties. -/
def LooseText (t : List Byte) (v : Value N) : Prop :=
  ∃ n : Node, n.value lits = some v ∧
    ∃ u w z, LooseGap t u ∧ n.Loose u w ∧ LooseGap w z ∧ LooseEnd z

/-- The text is JSONC and denotes the value. -/
def JsoncText (t : List Byte) (v : Value N) : Prop := ∃ d : Doc, d.bytes = t ∧ d.value lits = some v

/-- The text is JSON and denotes the value. -/
def JsonText (t : List Byte) (v : Value N) : Prop :=
  ∃ d : Doc, d.Strict ∧ d.bytes = t ∧ d.value lits = some v

theorem Behind.trans {t u r : List Byte} (h : Behind t u) (h' : Behind u r) : Behind t r := by
  induction h with
  | none => exact h'
  | formFeed _ ih => exact .formFeed (ih h')
  | trivia x _ ih => exact .trivia x (ih h')

theorem LooseGap.behind {t r : List Byte} (h : LooseGap t r) : Behind t r := by
  induction h with
  | comments hc =>
    cases hc with
    | none => exact .none _
    | some _ hbehind => exact .trivia _ hbehind
  | blank b _ ih => exact .trivia (.blank b) ih

theorem Comments.trans {t u r : List Byte} (h : Comments t u) (h' : Comments u r) :
    Comments t r := by
  cases h with
  | none => exact h'
  | some hx hbehind => exact .some hx (hbehind.trans (LooseGap.comments h').behind)

theorem Comments.gap {t u r : List Byte} (h : Comments t u) (h' : LooseGap u r) :
    LooseGap t r := by
  cases h with
  | none => exact h'
  | some hx hbehind => exact .comments (.some hx (hbehind.trans h'.behind))

theorem looseAtom_head {a t r : List Byte} (h : LooseAtom a t r) :
    ∃ b a' u, a = b :: a' ∧ t = b :: u := by
  cases h with
  | last b t => exact ⟨b, [], _, rfl, rfl⟩
  | next b _ _ => exact ⟨b, _, _, rfl, rfl⟩

/-! ### JSONC takes no liberty -/

theorem behind_gap (g : Gap) (t : List Byte) : Behind (g.bytes ++ t) t := by
  induction g with
  | nil => exact .none t
  | cons x g ih =>
    have hbytes : Gap.bytes (x :: g) ++ t = x.bytes ++ (Gap.bytes g ++ t) := by
      simp [Gap.bytes]
    rw [hbytes]
    exact .trivia x ih

theorem looseGap_gap (g : Gap) (t : List Byte) : LooseGap (g.bytes ++ t) t := by
  induction g with
  | nil => exact .comments (.none t)
  | cons x g ih =>
    have hbytes : Gap.bytes (x :: g) ++ t = x.bytes ++ (Gap.bytes g ++ t) := by
      simp [Gap.bytes]
    rw [hbytes]
    cases x with
    | blank b => exact .blank b ih
    | line body => exact .comments (.some (by simp [Trivia.IsComment]) (behind_gap g t))
    | block body => exact .comments (.some (by simp [Trivia.IsComment]) (behind_gap g t))

theorem looseAtom_bytes (b : Byte) (a r : List Byte) : LooseAtom (b :: a) (b :: (a ++ r)) r := by
  induction a generalizing b with
  | nil => exact .last b r
  | cons c a ih => exact .next b (.none _) (ih c)

theorem label_loose (l : Label) (r : List Byte) : l.Loose (l.bytes ++ r) r :=
  ⟨l.mid.bytes ++ colon :: (l.mid'.bytes ++ r), l.mid'.bytes ++ r, by simp [Label.bytes],
    looseGap_gap l.mid _, looseGap_gap l.mid' r⟩

theorem looseItems_commaSep {α : Type} {bytes : α → List Byte} {loose : α → Reads} {closing : Byte}
    {trailing : Bool} (tail : Gap) (r : List Byte) {x : α} {xs : List α}
    (h : ∀ y ∈ x :: xs, ∀ (g : Gap) (r : List Byte), loose y (bytes y ++ (g.bytes ++ r)) r) :
    LooseItems closing ((x :: xs).map loose)
      (commaSep trailing ((x :: xs).map bytes) ++ (tail.bytes ++ closing :: r)) r := by
  have hplain : ∀ r, loose x (bytes x ++ r) r := h x List.mem_cons_self []
  induction xs generalizing x with
  | nil =>
    cases trailing with
    | false =>
      simp only [List.map_cons, List.map_nil, commaSep, List.isEmpty_nil, Bool.not_false,
        Bool.and_self, if_true, List.append_nil]
      exact .last (h x List.mem_cons_self tail _)
    | true =>
      simp only [List.map_cons, List.map_nil, commaSep, List.isEmpty_nil, Bool.not_true,
        Bool.and_false, Bool.false_eq_true, if_false, List.append_assoc, List.append_nil]
      exact .trailing (hplain _) (looseGap_gap tail _)
  | cons y xs ih =>
    have hrest := @ih y (fun z hz => h z (List.mem_cons_of_mem x hz)) (h y (by simp) [])
    simp only [List.map_cons, commaSep, List.isEmpty_cons, Bool.false_and, Bool.false_eq_true,
      if_false, List.append_assoc] at hrest ⊢
    exact .cons (hplain _) hrest

theorem looseGroup_group {α : Type} {bytes : α → List Byte} {loose : α → Reads}
    {opening closing : Byte} {trailing : Bool} (tail : Gap) (r : List Byte) {xs : List α}
    (h : ∀ y ∈ xs, ∀ (g : Gap) (r : List Byte), loose y (bytes y ++ (g.bytes ++ r)) r) :
    LooseGroup opening closing (xs.map loose)
      (group opening closing (xs.map bytes) trailing tail ++ r) r := by
  refine ⟨commaSep trailing (xs.map bytes) ++ (tail.bytes ++ closing :: r), by simp [group], ?_⟩
  cases xs with
  | nil => exact .inl ⟨rfl, .inl (looseGap_gap tail _)⟩
  | cons x xs => exact .inr (looseItems_commaSep tail r h)

theorem slot_loose {L α : Type} {bytes : α → List Byte} {loose : α → Reads} {lab : L → List Byte}
    {label : L → Reads} (s : Slot L α) (hlabel : ∀ l r, label l (lab l ++ r) r)
    (h : ∀ r, loose s.value (bytes s.value ++ r) r) (g : Gap) (r : List Byte) :
    (s.map loose).Loose label ((s.map bytes).bytes lab ++ (g.bytes ++ r)) r := by
  refine ⟨lab s.label ++ (bytes s.value ++ (s.post.bytes ++ (g.bytes ++ r))),
    bytes s.value ++ (s.post.bytes ++ (g.bytes ++ r)), s.post.bytes ++ (g.bytes ++ r), ?_,
    hlabel _ _, h _, ?_⟩
  · have hpre := looseGap_gap s.pre
      (lab s.label ++ (bytes s.value ++ (s.post.bytes ++ (g.bytes ++ r))))
    simpa [Slot.bytes, Slot.map] using hpre
  · have hpost := looseGap_gap (s.post ++ g) r
    simpa [Gap.bytes] using hpost

theorem Node.loose_bytes (n : Node) (r : List Byte) : n.Loose (n.bytes ++ r) r := by
  induction n using Node.induct generalizing r with
  | atom a => exact looseAtom_bytes a.first a.rest r
  | str s => rfl
  | arr es trailing tail ih =>
    rw [Node.loose_arr, Node.bytes_arr]
    exact looseGroup_group tail r fun e he => slot_loose e (fun _ _ => rfl) (ih e he)
  | obj fs trailing tail ih =>
    rw [Node.loose_obj, Node.bytes_obj]
    exact looseGroup_group tail r fun f hf => slot_loose f label_loose (ih f hf)

theorem looseEnd_ending (d : Doc) : LooseEnd d.ending := by
  rw [Doc.ending]
  cases d.last with
  | none => exact .none
  | some body => exact .line body

theorem looseText_of_jsonc {t : List Byte} {v : Value N} (h : JsoncText lits t v) :
    LooseText lits t v := by
  obtain ⟨d, rfl, hv⟩ := h
  exact ⟨d.root, hv, _, _, _, looseGap_gap d.lead _, d.root.loose_bytes _, looseGap_gap d.tail _,
    looseEnd_ending d⟩

end Jsonc
