import Travsr.Lib.Jsonc.Value

namespace Jsonc

/-- A gap without comments. -/
def OnlyBlanks (g : Gap) : Prop := ∀ t ∈ g, ∃ b, t = .blank b

def Label.Strict (l : Label) : Prop := OnlyBlanks l.mid ∧ OnlyBlanks l.mid'

def Node.Strict : Node → Prop :=
  Node.fold
    { atom := fun _ => True
      str := fun _ => True
      arr := fun es trailing tail =>
        (∀ e ∈ es, OnlyBlanks e.pre ∧ e.value ∧ OnlyBlanks e.post) ∧ trailing = false ∧
          OnlyBlanks tail
      obj := fun fs trailing tail =>
        (∀ f ∈ fs, OnlyBlanks f.pre ∧ f.label.Strict ∧ f.value ∧ OnlyBlanks f.post) ∧
          trailing = false ∧ OnlyBlanks tail }

theorem Node.strict_arr {es : List Elem} {trailing : Bool} {tail : Gap} :
    (Node.arr es trailing tail).Strict ↔
      (∀ e ∈ es, OnlyBlanks e.pre ∧ e.value.Strict ∧ OnlyBlanks e.post) ∧ trailing = false ∧
        OnlyBlanks tail := by
  rw [Node.Strict, Node.fold_arr]
  simp only [List.forall_mem_map]
  rfl

theorem Node.strict_obj {fs : List Field} {trailing : Bool} {tail : Gap} :
    (Node.obj fs trailing tail).Strict ↔
      (∀ f ∈ fs, OnlyBlanks f.pre ∧ f.label.Strict ∧ f.value.Strict ∧ OnlyBlanks f.post) ∧
        trailing = false ∧ OnlyBlanks tail := by
  rw [Node.Strict, Node.fold_obj]
  simp only [List.forall_mem_map]
  rfl

def Doc.Strict (d : Doc) : Prop :=
  OnlyBlanks d.lead ∧ d.root.Strict ∧ OnlyBlanks d.tail ∧ d.last = none

def lineBlank (c : Byte) : Blank := if c = cr then .cr else .space

def blockBlank (c : Byte) : Blank := if c = lf then .lf else if c = cr then .cr else .space

def Trivia.blanked : Trivia → List Blank
  | .blank b => [b]
  | .line body => .space :: .space :: (body.bytes.map lineBlank ++ [.lf])
  | .block body => .space :: .space :: (body.bytes.map blockBlank ++ [.space, .space])

def Gap.blanked (g : Gap) : Gap := (List.flatMap Trivia.blanked g).map .blank

def Label.blanked (l : Label) : Label := ⟨l.name, l.mid.blanked, l.mid'.blanked⟩

def Slot.blanked {L α : Type} (lab : L → L) (s : Slot L α) : Slot L α :=
  ⟨s.pre.blanked, lab s.label, s.value, s.post.blanked⟩

/-- The gap before the closing bracket, with a blank for the trailing comma unless it is kept. -/
def tailBlanked (keep trailing empty : Bool) (tail : Gap) : Gap :=
  if trailing && !keep && !empty then .blank .space :: tail.blanked else tail.blanked

/-- Blanks in place of comments and, unless they are kept, of trailing commas. -/
def Node.blanked (keep : Bool) : Node → Node :=
  Node.fold
    { atom := .atom
      str := .str
      arr := fun es trailing tail =>
        .arr (es.map (Slot.blanked id)) (trailing && keep) (tailBlanked keep trailing es.isEmpty tail)
      obj := fun fs trailing tail =>
        .obj (fs.map (Slot.blanked Label.blanked)) (trailing && keep)
          (tailBlanked keep trailing fs.isEmpty tail) }

def Elem.blanked (keep : Bool) (e : Elem) : Elem := (e.map (Node.blanked keep)).blanked id

def Field.blanked (keep : Bool) (f : Field) : Field :=
  (f.map (Node.blanked keep)).blanked Label.blanked

theorem Node.blanked_arr (keep : Bool) (es : List Elem) (trailing : Bool) (tail : Gap) :
    (Node.arr es trailing tail).blanked keep =
      .arr (es.map (Elem.blanked keep)) (trailing && keep)
        (tailBlanked keep trailing es.isEmpty tail) := by
  rw [Node.blanked, Node.fold_arr]
  simp only [List.map_map, List.isEmpty_map]
  rfl

theorem Node.blanked_obj (keep : Bool) (fs : List Field) (trailing : Bool) (tail : Gap) :
    (Node.obj fs trailing tail).blanked keep =
      .obj (fs.map (Field.blanked keep)) (trailing && keep)
        (tailBlanked keep trailing fs.isEmpty tail) := by
  rw [Node.blanked, Node.fold_obj]
  simp only [List.map_map, List.isEmpty_map]
  rfl

def lastBlanked (last : Option LineBody) : Gap :=
  match last with
  | none => []
  | some body => .blank .space :: .blank .space :: body.bytes.map fun c => .blank (lineBlank c)

def Doc.masked (d : Doc) : Doc :=
  ⟨d.lead.blanked, d.root.blanked false, d.tail.blanked ++ lastBlanked d.last, none⟩

theorem onlyBlanks_blanked (g : Gap) : OnlyBlanks g.blanked := by
  intro t ht
  obtain ⟨b, _, rfl⟩ := List.mem_map.mp ht
  exact ⟨b, rfl⟩

theorem onlyBlanks_tailBlanked (trailing empty : Bool) (tail : Gap) :
    OnlyBlanks (tailBlanked false trailing empty tail) := by
  rw [tailBlanked]
  split_ifs
  · exact List.forall_mem_cons.mpr ⟨⟨.space, rfl⟩, onlyBlanks_blanked tail⟩
  · exact onlyBlanks_blanked tail

theorem Node.strict_blanked (n : Node) : (n.blanked false).Strict := by
  induction n using Node.induct with
  | atom a => trivial
  | str s => trivial
  | arr es trailing tail ih =>
    rw [Node.blanked_arr, Node.strict_arr]
    refine ⟨?_, by simp, onlyBlanks_tailBlanked _ _ _⟩
    simp only [List.forall_mem_map]
    intro e he
    exact ⟨onlyBlanks_blanked _, ih e he, onlyBlanks_blanked _⟩
  | obj fs trailing tail ih =>
    rw [Node.blanked_obj, Node.strict_obj]
    refine ⟨?_, by simp, onlyBlanks_tailBlanked _ _ _⟩
    simp only [List.forall_mem_map]
    intro f hf
    exact ⟨onlyBlanks_blanked _, ⟨onlyBlanks_blanked _, onlyBlanks_blanked _⟩, ih f hf,
      onlyBlanks_blanked _⟩

theorem Doc.strict_masked (d : Doc) : d.masked.Strict := by
  refine ⟨onlyBlanks_blanked _, Node.strict_blanked _, ?_, rfl⟩
  intro t ht
  rcases List.mem_append.mp ht with h | h
  · exact onlyBlanks_blanked _ t h
  · unfold lastBlanked at h
    cases hl : d.last with
    | none => simp [hl] at h
    | some body =>
      simp only [hl, List.mem_cons, List.mem_map] at h
      rcases h with h | h | ⟨c, _, h⟩
      · exact ⟨_, h⟩
      · exact ⟨_, h⟩
      · exact ⟨_, h.symm⟩

section Value

variable {N : Type} (lits : Literals N)

theorem mapM_map_congr {α β γ : Type} {f : α → Option β} {g : γ → Option β} {h : α → γ}
    {l : List α} (hl : ∀ x ∈ l, g (h x) = f x) : (l.map h).mapM g = l.mapM f := by
  induction l with
  | nil => rfl
  | cons x l ih =>
    rw [List.map_cons, List.mapM_cons, List.mapM_cons, hl x List.mem_cons_self,
      ih fun y hy => hl y (List.mem_cons_of_mem x hy)]

theorem Node.value_blanked (keep : Bool) (n : Node) :
    (n.blanked keep).value lits = n.value lits := by
  induction n using Node.induct with
  | atom a => rfl
  | str s => rfl
  | arr es trailing tail ih =>
    rw [Node.blanked_arr, Node.value_arr, Node.value_arr]
    exact congrArg _ (mapM_map_congr ih)
  | obj fs trailing tail ih =>
    rw [Node.blanked_obj, Node.value_obj, Node.value_obj]
    refine congrArg _ (mapM_map_congr fun f hf => ?_)
    simp only [Field.entry, Slot.entry, Field.blanked, Slot.blanked, Slot.map, ih f hf]
    rfl

theorem Node.depth_blanked (keep : Bool) (n : Node) : (n.blanked keep).depth = n.depth := by
  induction n using Node.induct with
  | atom a => rfl
  | str s => rfl
  | arr es trailing tail ih =>
    rw [Node.blanked_arr, Node.depth_arr, Node.depth_arr, List.map_map]
    exact congrArg (List.foldr max 0 · + 1) (List.map_congr_left ih)
  | obj fs trailing tail ih =>
    rw [Node.blanked_obj, Node.depth_obj, Node.depth_obj, List.map_map]
    exact congrArg (List.foldr max 0 · + 1) (List.map_congr_left ih)

theorem Doc.value_masked (d : Doc) : d.masked.value lits = d.value lits :=
  Node.value_blanked lits false d.root

theorem Doc.depth_masked (d : Doc) : d.masked.depth = d.depth := Node.depth_blanked false d.root

end Value

end Jsonc

namespace Jsonc

def isBlankByte (b : Byte) : Bool := b = space || b = tab || b = lf || b = cr

end Jsonc
