import Mathlib.Data.List.Lex
import Mathlib.Order.Fin.Basic
import Travsr.Lib.OrdMap
import Travsr.Lib.Jsonc.Syntax

namespace Jsonc

abbrev Key := List Byte

inductive Scalar (N : Type) where
  | null
  | bool (b : Bool)
  | num (n : N)
  | str (s : Key)
  deriving DecidableEq

/-- A JSON value over some kind of numbers. The members of an object stand in the order of their
names, each name once. -/
inductive Value (N : Type) where
  | scalar (s : Scalar N)
  | arr (elems : List (Value N))
  | obj (members : List (Key × Value N))

section

variable {N : Type} [DecidableEq N]

mutual

def Value.decEq : (v w : Value N) → Decidable (v = w)
  | .scalar s, .scalar t =>
    if h : s = t then isTrue (congrArg _ h) else isFalse fun heq => h (Value.scalar.inj heq)
  | .arr es, .arr es' =>
    match decEqElems es es' with
    | isTrue h => isTrue (congrArg _ h)
    | isFalse h => isFalse fun heq => h (Value.arr.inj heq)
  | .obj ms, .obj ms' =>
    match decEqMembers ms ms' with
    | isTrue h => isTrue (congrArg _ h)
    | isFalse h => isFalse fun heq => h (Value.obj.inj heq)
  | .scalar _, .arr _ | .scalar _, .obj _ | .arr _, .scalar _ | .arr _, .obj _ | .obj _, .scalar _
  | .obj _, .arr _ => isFalse fun heq => by cases heq

def decEqElems : (es es' : List (Value N)) → Decidable (es = es')
  | [], [] => isTrue rfl
  | [], _ :: _ | _ :: _, [] => isFalse fun heq => by cases heq
  | v :: es, w :: es' =>
    match Value.decEq v w, decEqElems es es' with
    | isTrue h, isTrue h' => isTrue (by rw [h, h'])
    | isFalse h, _ => isFalse fun heq => h (List.cons.inj heq).1
    | _, isFalse h => isFalse fun heq => h (List.cons.inj heq).2

def decEqMembers : (ms ms' : List (Key × Value N)) → Decidable (ms = ms')
  | [], [] => isTrue rfl
  | [], _ :: _ | _ :: _, [] => isFalse fun heq => by cases heq
  | (k, v) :: ms, (l, w) :: ms' =>
    if hk : k = l then
      match Value.decEq v w, decEqMembers ms ms' with
      | isTrue h, isTrue h' => isTrue (by rw [hk, h, h'])
      | isFalse h, _ => isFalse fun heq => h (Prod.mk.inj (List.cons.inj heq).1).2
      | _, isFalse h => isFalse fun heq => h (List.cons.inj heq).2
    else isFalse fun heq => hk (Prod.mk.inj (List.cons.inj heq).1).1

end

instance : DecidableEq (Value N) := Value.decEq

end

variable {N : Type}

abbrev Members (N : Type) := List (Key × Value N)

namespace Members

def get (ms : Members N) (k : Key) : Option (Value N) := OrdMap.lookupEntry k ms

def insert (ms : Members N) (k : Key) (v : Value N) : Members N := OrdMap.insertEntry k v ms

def remove (ms : Members N) (k : Key) : Members N := OrdMap.eraseEntry k ms

def ofList (l : List (Key × Value N)) : Members N := (OrdMap.ofList l).entries

variable {pre post : List (Key × Value N)} {k : Key} {v w : Value N}

end Members

/-- How the literals of a text are read; a literal may be no number or no string at all. -/
structure Literals (N : Type) where
  num : List Byte → Option N
  str : List Byte → Option Key

variable (lits : Literals N)

def nullWord : List Byte := [110, 117, 108, 108].map byte

def trueWord : List Byte := [116, 114, 117, 101].map byte

def falseWord : List Byte := [102, 97, 108, 115, 101].map byte

def wordValue (w : List Byte) : Option (Scalar N) :=
  if w = nullWord then some .null
  else if w = trueWord then some (.bool true)
  else if w = falseWord then some (.bool false)
  else (lits.num w).map .num

def Label.key (l : Label) : Option Key := lits.str l.name.bytes

def Slot.entry (s : Slot Label (Option (Value N))) : Option (Key × Value N) :=
  (s.label.key lits).bind fun k => s.value.map fun v => (k, v)

def Node.value : Node → Option (Value N) :=
  Node.fold
    { atom := fun a => (wordValue lits a.bytes).map .scalar
      str := fun s => (lits.str s.bytes).map fun k => .scalar (.str k)
      arr := fun es _ _ => (es.mapM Slot.value).map .arr
      obj := fun fs _ _ => (fs.mapM (Slot.entry lits)).map fun l => .obj (Members.ofList l) }

def Field.entry (f : Field) : Option (Key × Value N) := (f.map (Node.value lits)).entry lits

theorem Node.value_arr (es : List Elem) (trailing : Bool) (tail : Gap) :
    (Node.arr es trailing tail).value lits =
      (es.mapM fun e : Elem => e.value.value lits).map .arr := by
  rw [Node.value, Node.fold_arr]
  simp only [List.mapM_map]
  rfl

theorem Node.value_obj (fs : List Field) (trailing : Bool) (tail : Gap) :
    (Node.obj fs trailing tail).value lits =
      (fs.mapM (Field.entry lits)).map fun l => .obj (Members.ofList l) := by
  rw [Node.value, Node.fold_obj]
  simp only [List.mapM_map]
  rfl

def Node.depth : Node → Nat :=
  Node.fold
    { atom := fun _ => 0
      str := fun _ => 0
      arr := fun es _ _ => (es.map Slot.value).foldr max 0 + 1
      obj := fun fs _ _ => (fs.map Slot.value).foldr max 0 + 1 }

theorem Node.depth_arr (es : List Elem) (trailing : Bool) (tail : Gap) :
    (Node.arr es trailing tail).depth = (es.map fun e => e.value.depth).foldr max 0 + 1 := by
  rw [Node.depth, Node.fold_arr]
  simp only [List.map_map]
  rfl

theorem Node.depth_obj (fs : List Field) (trailing : Bool) (tail : Gap) :
    (Node.obj fs trailing tail).depth = (fs.map fun f => f.value.depth).foldr max 0 + 1 := by
  rw [Node.depth, Node.fold_obj]
  simp only [List.map_map]
  rfl

def Doc.value (d : Doc) : Option (Value N) := d.root.value lits

def Doc.depth (d : Doc) : Nat := d.root.depth

end Jsonc
