import Mathlib.Algebra.BigOperators.Group.List.Lemmas
import Mathlib.Algebra.BigOperators.Ring.List
import Mathlib.Algebra.Order.BigOperators.Group.List
import Mathlib.Algebra.Order.Group.Nat
import Mathlib.Algebra.Ring.Nat
import Travsr.Lib.Utf8Text

/-! UTF-8 read with replacement: each maximal ill-formed run of bytes becomes one U+FFFD. -/

namespace Utf8Lossy

open Utf8Text

def firstChar? (bs : List UInt8) : Option Char := bs.toByteArray.utf8DecodeChar? 0

def secondInRange (first second : UInt8) : Bool :=
  if first = 0xE0 then 0xA0 ≤ second ∧ second ≤ 0xBF
  else if first = 0xED then 0x80 ≤ second ∧ second ≤ 0x9F
  else if first = 0xF0 then 0x90 ≤ second ∧ second ≤ 0xBF
  else if first = 0xF4 then 0x80 ≤ second ∧ second ≤ 0x8F
  else 0x80 ≤ second ∧ second ≤ 0xBF

/-- How many bytes begin a character that then breaks off, or the one byte that begins none. -/
def brokenLength : List UInt8 → Nat
  | first :: second :: rest =>
    if 0xE0 ≤ first ∧ first ≤ 0xF4 ∧ secondInRange first second then
      if 0xF0 ≤ first ∧ (rest.head?.any fun third => 0x80 ≤ third ∧ third ≤ 0xBF) then 3 else 2
    else 1
  | _ => 1

theorem brokenLength_pos (bs : List UInt8) : 0 < brokenLength bs := by
  unfold brokenLength
  split
  · split_ifs <;> decide
  · decide

theorem brokenLength_le (bs : List UInt8) : brokenLength bs ≤ 3 := by
  unfold brokenLength
  split
  · split_ifs <;> decide
  · decide

/-- A character, or the bytes that are replaced. -/
inductive Piece where
  | char (c : Char)
  | broken (bytes : List UInt8)

def Piece.bytes : Piece → List UInt8
  | .char c => String.utf8EncodeChar c
  | .broken bytes => bytes

def pieces : List UInt8 → List Piece
  | [] => []
  | b :: bs =>
    match firstChar? (b :: bs) with
    | some c => .char c :: pieces ((b :: bs).drop c.utf8Size)
    | none =>
      .broken ((b :: bs).take (brokenLength (b :: bs))) ::
        pieces ((b :: bs).drop (brokenLength (b :: bs)))
termination_by bs => bs.length
decreasing_by
  · have := Char.utf8Size_pos c
    rw [List.length_drop, List.length_cons]
    omega
  · have := brokenLength_pos (b :: bs)
    rw [List.length_drop, List.length_cons]
    omega

def Piece.read : Piece → Char
  | .char c => c
  | .broken _ => '\uFFFD'

/-- `String::from_utf8_lossy`. -/
def lossy (bs : List UInt8) : List Char := (pieces bs).map Piece.read

/-- How many bytes longer the replacement character is than the bytes it stands for. -/
def Piece.growth : Piece → Nat
  | .char _ => 0
  | .broken bytes => 3 - bytes.length

def growth (bs : List UInt8) : Nat := ((pieces bs).map Piece.growth).sum

/-! ### The pieces make up the bytes -/

theorem firstChar?_eq_some {bs : List UInt8} {c : Char} :
    firstChar? bs = some c ↔ ∃ rest, bs = String.utf8EncodeChar c ++ rest := by
  constructor
  · intro h
    obtain ⟨rest, hrest⟩ := ByteArray.exists_of_utf8DecodeChar?_eq_some h
    refine ⟨rest.data.toList, ?_⟩
    have := congrArg (fun b : ByteArray => b.data.toList) hrest
    simpa using this
  · rintro ⟨rest, rfl⟩
    have := ByteArray.utf8DecodeChar?_utf8EncodeChar_append (b := rest.toByteArray) (c := c)
    rw [firstChar?, List.toByteArray_append]
    exact this

theorem lt_of_mem_encodeChar {c : Char} {b : UInt8} (hb : b ∈ String.utf8EncodeChar c) :
    b < 0xF8 := by
  have hv := c.valid
  simp only [UInt32.isValidChar, Nat.isValidChar] at hv
  have hval : c.toNat = c.val.toNat := rfl
  simp only [String.utf8EncodeChar] at hb
  rw [UInt8.lt_iff_toNat_lt]
  split_ifs at hb <;> simp only [List.mem_cons, List.not_mem_nil, or_false] at hb
  · subst hb
    simp
    omega
  · rcases hb with rfl | rfl <;> simp <;> omega
  · rcases hb with rfl | rfl | rfl <;> simp <;> omega
  · rcases hb with rfl | rfl | rfl | rfl <;> simp <;> omega

theorem flatMap_bytes_pieces (bs : List UInt8) : (pieces bs).flatMap Piece.bytes = bs := by
  fun_induction pieces bs with
  | case1 => rfl
  | case2 b bs c h ih =>
    obtain ⟨rest, hrest⟩ := firstChar?_eq_some.mp h
    rw [List.flatMap_cons, ih, hrest]
    simp [Piece.bytes, ← String.length_utf8EncodeChar]
  | case3 b bs h ih => rw [List.flatMap_cons, ih, Piece.bytes, List.take_append_drop]

theorem length_pieces (bs : List UInt8) :
    ((pieces bs).map fun p => p.bytes.length).sum = bs.length := by
  conv_rhs => rw [← flatMap_bytes_pieces bs]
  rw [List.length_flatMap]

theorem length_bytes_le {bs : List UInt8} {p : Piece} (hp : p ∈ pieces bs) :
    p.bytes.length + p.growth = p.read.utf8Size := by
  fun_induction pieces bs with
  | case1 => simp at hp
  | case2 b bs c h ih =>
    rcases List.mem_cons.mp hp with rfl | hp
    · simp [Piece.bytes, Piece.growth, Piece.read]
    · exact ih hp
  | case3 b bs h ih =>
    rcases List.mem_cons.mp hp with rfl | hp
    · have hle : ((b :: bs).take (brokenLength (b :: bs))).length ≤ 3 := by
        have := brokenLength_le (b :: bs)
        rw [List.length_take]
        omega
      have hsize : Char.utf8Size '\uFFFD' = 3 := by decide
      simp only [Piece.bytes, Piece.growth, Piece.read, hsize]
      omega
    · exact ih hp

theorem size_lossy (bs : List UInt8) :
    ((lossy bs).map Char.utf8Size).sum = bs.length + growth bs := by
  have hsum : ((pieces bs).map fun p => p.read.utf8Size).sum =
      ((pieces bs).map fun p => p.bytes.length).sum + ((pieces bs).map Piece.growth).sum := by
    rw [← List.sum_map_add]
    congr 1
    apply List.map_congr_left
    exact fun p hp => (length_bytes_le hp).symm
  rw [lossy, List.map_map, growth, ← length_pieces]
  exact hsum

theorem pieces_stray {b : UInt8} (h : 0xF8 ≤ b) (bs : List UInt8) :
    pieces (b :: bs) = .broken [b] :: pieces bs := by
  have hnone : firstChar? (b :: bs) = none := by
    rw [Option.eq_none_iff_forall_ne_some]
    intro c hc
    obtain ⟨rest, hrest⟩ := firstChar?_eq_some.mp hc
    obtain ⟨x, xs, hx⟩ := List.exists_cons_of_ne_nil (encodeChar_ne_nil c)
    have hb : b ∈ String.utf8EncodeChar c := by
      rw [hx, List.cons_append] at hrest
      rw [hx, (List.cons.inj hrest).1]
      exact List.mem_cons_self
    exact absurd (lt_of_mem_encodeChar hb) (UInt8.not_lt.mpr h)
  have hlen : brokenLength (b :: bs) = 1 := by
    have hout : ¬ b ≤ 0xF4 := by
      rw [UInt8.le_iff_toNat_le] at h ⊢
      simp at h ⊢
      omega
    cases bs with
    | nil => rfl
    | cons c bs => simp [brokenLength, hout]
  rw [pieces, hnone, hlen]
  rfl

/-! ### Text that is well formed is read as it is -/

theorem pieces_of_firstChar {bs : List UInt8} {c : Char} (h : firstChar? bs = some c) :
    pieces bs = .char c :: pieces (bs.drop c.utf8Size) := by
  cases bs with
  | nil =>
    obtain ⟨rest, hrest⟩ := firstChar?_eq_some.mp h
    exact absurd (List.append_eq_nil_iff.mp hrest.symm).1 (encodeChar_ne_nil c)
  | cons b bs => rw [pieces, h]

/-! ### A byte below 128 ends what is before it -/

variable {b : UInt8} {s : List UInt8}

theorem brokenLength_le_length (hs : s ≠ []) : brokenLength s ≤ s.length := by
  unfold brokenLength
  split
  · case h_1 first second rest =>
    split_ifs with _ h
    · cases rest with
      | nil => simp at h
      | cons third rest => simp
    · simp
    · simp
  · simpa [Nat.one_le_iff_ne_zero] using hs

theorem firstChar?_append_ascii (hb : b < 0x80) (hs : s ≠ []) (t : List UInt8) :
    firstChar? (s ++ b :: t) = firstChar? s := by
  apply Option.ext
  intro c
  rw [firstChar?_eq_some, firstChar?_eq_some]
  constructor
  · intro h
    obtain ⟨rest, hrest⟩ := h
    rcases List.append_eq_append_iff.mp hrest with ⟨more, hc, hmore⟩ | ⟨more, hc, -⟩
    · cases more with
      | nil => exact ⟨[], by simp [hc]⟩
      | cons a more =>
        have hba : b = a := (List.cons.inj hmore).1
        have hlt : s.length < (String.utf8EncodeChar c).length := by simp [hc]
        have hat : (String.utf8EncodeChar c)[s.length] = b := by simp [hc, hba]
        have hfirst : isFirst (String.utf8EncodeChar c)[s.length] = true := by simp [hat, isFirst, hb]
        exact absurd (List.length_eq_zero_iff.mp ((isFirst_getElem c _ hlt).mp hfirst)) hs
    · exact ⟨more, hc⟩
  · intro h
    obtain ⟨rest, rfl⟩ := h
    exact ⟨rest ++ b :: t, by simp⟩

theorem not_secondInRange (hb : b < 0x80) (first : UInt8) : secondInRange first b = false := by
  have h80 : ¬ 0x80 ≤ b := by simpa using hb
  have h90 : ¬ 0x90 ≤ b := fun h => h80 (UInt8.le_trans (by decide) h)
  have hA0 : ¬ 0xA0 ≤ b := fun h => h80 (UInt8.le_trans (by decide) h)
  simp [secondInRange, h80, h90, hA0]

theorem brokenLength_append_ascii (hb : b < 0x80) (hs : s ≠ []) (t : List UInt8) :
    brokenLength (s ++ b :: t) = brokenLength s := by
  have h80 : ¬ 0x80 ≤ b := by simpa using hb
  cases s with
  | nil => exact absurd rfl hs
  | cons first s =>
    cases s with
    | nil => simp [brokenLength, not_secondInRange hb]
    | cons second s =>
      cases s with
      | nil => simp [brokenLength, h80]
      | cons third s => simp [brokenLength]

theorem pieces_append_ascii (hb : b < 0x80) (s t : List UInt8) :
    pieces (s ++ b :: t) = pieces s ++ pieces (b :: t) := by
  fun_induction pieces s with
  | case1 => simp
  | case2 a s c h ih =>
    have hfirst := (firstChar?_append_ascii hb (List.cons_ne_nil a s) t).trans h
    have hle : c.utf8Size ≤ (a :: s).length := by
      obtain ⟨rest, hrest⟩ := firstChar?_eq_some.mp h
      simp [hrest]
    rw [pieces_of_firstChar hfirst, List.drop_append_of_le_length hle, ih, List.cons_append]
  | case3 a s h ih =>
    have hfirst := (firstChar?_append_ascii hb (List.cons_ne_nil a s) t).trans h
    have hlen := brokenLength_append_ascii hb (List.cons_ne_nil a s) t
    have hle := brokenLength_le_length (List.cons_ne_nil a s)
    rw [List.cons_append] at hfirst hlen
    rw [List.cons_append, pieces, hfirst]
    simp only [hlen]
    rw [← List.cons_append, List.drop_append_of_le_length hle, List.take_append_of_le_length hle, ih,
      List.cons_append]

theorem pieces_ascii {c : Char} (hc : String.utf8EncodeChar c = [b]) (t : List UInt8) :
    pieces (b :: t) = .char c :: pieces t := by
  have hfirst : firstChar? (b :: t) = some c := firstChar?_eq_some.mpr ⟨t, by simp [hc]⟩
  have hsize : c.utf8Size = 1 := by simp [← String.length_utf8EncodeChar, hc]
  rw [pieces_of_firstChar hfirst, hsize]
  rfl

theorem lossy_append_ascii {c : Char} (hc : String.utf8EncodeChar c = [b]) (hb : b < 0x80)
    (s t : List UInt8) : lossy (s ++ b :: t) = lossy s ++ c :: lossy t := by
  simp [lossy, pieces_append_ascii hb, pieces_ascii hc, Piece.read]

theorem mem_of_mem_lossy {c : Char} (hc : String.utf8EncodeChar c = [b]) (h : c ∈ lossy s) : b ∈ s := by
  obtain ⟨p, hp, hread⟩ := List.mem_map.mp h
  have hbytes : ∀ a ∈ p.bytes, a ∈ s := by
    intro a ha
    rw [← flatMap_bytes_pieces s]
    exact List.mem_flatMap.mpr ⟨p, hp, ha⟩
  cases p with
  | char d =>
    apply hbytes
    simp only [Piece.read] at hread
    simp [Piece.bytes, hread, hc]
  | broken bytes =>
    simp only [Piece.read] at hread
    rw [← hread] at hc
    have hone : (String.utf8EncodeChar '\uFFFD').length = 1 := by simp [hc]
    exact absurd hone (by decide)

end Utf8Lossy
