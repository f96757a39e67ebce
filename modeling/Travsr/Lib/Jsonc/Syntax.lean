import Mathlib.Data.List.Basic
import Mathlib.Data.List.Infix

namespace Jsonc

abbrev Byte := Fin 256

abbrev byte (n : Nat) : Byte := Fin.ofNat 256 n

abbrev tab : Byte := 9
abbrev lf : Byte := 10
abbrev cr : Byte := 13
abbrev space : Byte := 32
abbrev quote : Byte := 34
abbrev asterisk : Byte := 42
abbrev comma : Byte := 44
abbrev slash : Byte := 47
abbrev colon : Byte := 58
abbrev lbracket : Byte := 91
abbrev backslash : Byte := 92
abbrev rbracket : Byte := 93
abbrev lbrace : Byte := 123
abbrev rbrace : Byte := 125

inductive Blank where
  | space | tab | lf | cr
  deriving DecidableEq

def Blank.byte : Blank → Byte
  | .space => Jsonc.space
  | .tab => Jsonc.tab
  | .lf => Jsonc.lf
  | .cr => Jsonc.cr

/-- The text of a `//` comment: it ends where its line does. -/
structure LineBody where
  bytes : List Byte
  inLine : lf ∉ bytes

/-- The text between `/*` and the first `*/` after it. -/
structure BlockBody where
  bytes : List Byte
  unclosed : ¬ [asterisk, slash] <:+: bytes ++ [asterisk]

inductive Trivia where
  | blank (b : Blank)
  | line (body : LineBody)
  | block (body : BlockBody)

def Trivia.bytes : Trivia → List Byte
  | .blank b => [b.byte]
  | .line body => slash :: slash :: (body.bytes ++ [lf])
  | .block body => slash :: asterisk :: (body.bytes ++ [asterisk, slash])

abbrev Gap := List Trivia

def Gap.bytes (g : Gap) : List Byte := List.flatMap Trivia.bytes g

def isRaw : List Byte → Bool
  | [] => true
  | [b] => b != backslash && b != quote
  | b :: c :: r => if b = backslash then isRaw r else b != quote && isRaw (c :: r)

structure StrLit where
  raw : List Byte
  isRaw : isRaw raw = true

def StrLit.bytes (s : StrLit) : List Byte := quote :: (s.raw ++ [quote])

def isAtomByte (b : Byte) : Bool :=
  (48 ≤ b && b ≤ 57) || (65 ≤ b && b ≤ 90) || (97 ≤ b && b ≤ 122) || b = 43 || b = 45 || b = 46

theorem ne_of_isAtomByte {b c : Byte} (h : isAtomByte b = true) (hc : isAtomByte c = false) :
    b ≠ c := by
  intro heq
  rw [heq, hc] at h
  exact absurd h Bool.false_ne_true

structure Atom where
  first : Byte
  rest : List Byte
  isAtom : ∀ b ∈ first :: rest, isAtomByte b = true

def Atom.bytes (a : Atom) : List Byte := a.first :: a.rest

/-- The name of a member, with what stands around its colon. -/
structure Label where
  name : StrLit
  mid : Gap
  mid' : Gap

def Label.bytes (l : Label) : List Byte := l.name.bytes ++ (l.mid.bytes ++ colon :: l.mid'.bytes)

/-- An element of a container with the gaps around it. -/
structure Slot (L α : Type) where
  pre : Gap
  label : L
  value : α
  post : Gap

def Slot.map {L α β : Type} (f : α → β) (s : Slot L α) : Slot L β :=
  ⟨s.pre, s.label, f s.value, s.post⟩

/-- The syntax tree of a JSONC text with every byte of it. A trailing comma stands after the last
element, so the empty container ignores the flag. -/
inductive Node where
  | atom (a : Atom)
  | str (s : StrLit)
  | arr (elems : List (Slot Unit Node)) (trailing : Bool) (tail : Gap)
  | obj (members : List (Slot Label Node)) (trailing : Bool) (tail : Gap)

abbrev Elem := Slot Unit Node

abbrev Field := Slot Label Node

/-- What a recursion over the tree does at each kind of node. -/
structure Algebra (R : Type) where
  atom : Atom → R
  str : StrLit → R
  arr : List (Slot Unit R) → Bool → Gap → R
  obj : List (Slot Label R) → Bool → Gap → R

mutual

def Node.fold {R : Type} (A : Algebra R) : Node → R
  | .atom a => A.atom a
  | .str s => A.str s
  | .arr es trailing tail => A.arr (foldElems A es) trailing tail
  | .obj fs trailing tail => A.obj (foldFields A fs) trailing tail

def foldElems {R : Type} (A : Algebra R) : List Elem → List (Slot Unit R)
  | [] => []
  | ⟨pre, label, value, post⟩ :: es => ⟨pre, label, value.fold A, post⟩ :: foldElems A es

def foldFields {R : Type} (A : Algebra R) : List Field → List (Slot Label R)
  | [] => []
  | ⟨pre, label, value, post⟩ :: fs => ⟨pre, label, value.fold A, post⟩ :: foldFields A fs

end

section

variable {R : Type} (A : Algebra R)

theorem foldElems_eq (es : List Elem) : foldElems A es = es.map (Slot.map (Node.fold A)) := by
  induction es with
  | nil => rfl
  | cons e es ih =>
    obtain ⟨pre, label, value, post⟩ := e
    rw [foldElems, ih]
    rfl

theorem foldFields_eq (fs : List Field) : foldFields A fs = fs.map (Slot.map (Node.fold A)) := by
  induction fs with
  | nil => rfl
  | cons f fs ih =>
    obtain ⟨pre, label, value, post⟩ := f
    rw [foldFields, ih]
    rfl

theorem Node.fold_arr (es : List Elem) (trailing : Bool) (tail : Gap) :
    (Node.arr es trailing tail).fold A = A.arr (es.map (Slot.map (Node.fold A))) trailing tail := by
  rw [Node.fold, foldElems_eq]

theorem Node.fold_obj (fs : List Field) (trailing : Bool) (tail : Gap) :
    (Node.obj fs trailing tail).fold A = A.obj (fs.map (Slot.map (Node.fold A))) trailing tail := by
  rw [Node.fold, foldFields_eq]

end

theorem Node.induct {P : Node → Prop} (atom : ∀ a, P (.atom a)) (str : ∀ s, P (.str s))
    (arr : ∀ es trailing tail, (∀ e ∈ es, P (Slot.value e)) → P (.arr es trailing tail))
    (obj : ∀ fs trailing tail, (∀ f ∈ fs, P (Slot.value f)) → P (.obj fs trailing tail))
    (n : Node) : P n := by
  refine @Node.rec P (fun es => ∀ e ∈ es, P (Slot.value e)) (fun fs => ∀ f ∈ fs, P (Slot.value f))
    (fun e => P e.value) (fun f => P f.value) atom str arr obj ?_ ?_ ?_ ?_ ?_ ?_ n
  · intro e he
    cases he
  · intro e es he hes
    exact List.forall_mem_cons.mpr ⟨he, hes⟩
  · intro f hf
    cases hf
  · intro f fs hf hfs
    exact List.forall_mem_cons.mpr ⟨hf, hfs⟩
  · intro _ _ _ _ h
    exact h
  · intro _ _ _ _ h
    exact h

/-- The pieces with a comma after each, the last one only when `trailing` says so. -/
def commaSep (trailing : Bool) : List (List Byte) → List Byte
  | [] => []
  | x :: xs => x ++ ((if xs.isEmpty && !trailing then [] else [comma]) ++ commaSep trailing xs)

def Slot.bytes {L : Type} (lab : L → List Byte) (s : Slot L (List Byte)) : List Byte :=
  s.pre.bytes ++ (lab s.label ++ (s.value ++ s.post.bytes))

def group (opening closing : Byte) (items : List (List Byte)) (trailing : Bool) (tail : Gap) :
    List Byte :=
  opening :: (commaSep trailing items ++ (tail.bytes ++ [closing]))

def Node.bytes : Node → List Byte :=
  Node.fold
    { atom := Atom.bytes
      str := StrLit.bytes
      arr := fun es => group lbracket rbracket (es.map (Slot.bytes fun _ => []))
      obj := fun fs => group lbrace rbrace (fs.map (Slot.bytes Label.bytes)) }

def Elem.bytes (e : Elem) : List Byte := (e.map Node.bytes).bytes fun _ => []

def Field.bytes (f : Field) : List Byte := (f.map Node.bytes).bytes Label.bytes

theorem Node.bytes_arr (es : List Elem) (trailing : Bool) (tail : Gap) :
    (Node.arr es trailing tail).bytes =
      group lbracket rbracket (es.map Elem.bytes) trailing tail := by
  rw [Node.bytes, Node.fold_arr]
  simp only [List.map_map]
  rfl

theorem Node.bytes_obj (fs : List Field) (trailing : Bool) (tail : Gap) :
    (Node.obj fs trailing tail).bytes = group lbrace rbrace (fs.map Field.bytes) trailing tail := by
  rw [Node.bytes, Node.fold_obj]
  simp only [List.map_map]
  rfl

/-- A text: a value between two gaps, and at the end a comment that no newline ends. -/
structure Doc where
  lead : Gap
  root : Node
  tail : Gap
  last : Option LineBody

def Doc.ending (d : Doc) : List Byte :=
  match d.last with
  | none => []
  | some body => slash :: slash :: body.bytes

def Doc.bytes (d : Doc) : List Byte := d.lead.bytes ++ (d.root.bytes ++ (d.tail.bytes ++ d.ending))

end Jsonc
