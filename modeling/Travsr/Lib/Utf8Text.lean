import Mathlib.Data.List.Basic

/-! Byte positions of a text in UTF-8: where its characters start, and what stands beside them. -/

namespace Utf8Text

def encode (cs : List Char) : List UInt8 := cs.flatMap String.utf8EncodeChar

def isFirst (b : UInt8) : Bool := b < 0x80 || 0xC0 ≤ b

@[simp] theorem encode_nil : encode [] = [] := rfl

@[simp] theorem encode_cons (c : Char) (cs : List Char) :
    encode (c :: cs) = String.utf8EncodeChar c ++ encode cs := rfl

@[simp] theorem encode_append (cs ds : List Char) : encode (cs ++ ds) = encode cs ++ encode ds := by
  simp [encode]

theorem toByteArray_encode (cs : List Char) : (encode cs).toByteArray = cs.utf8Encode := rfl

/-- The loop of `ByteArray.toList` reads on from where it stands. -/
theorem loop_eq (bytes : ByteArray) (i : Nat) (r : List UInt8) :
    ByteArray.toList.loop bytes i r = r.reverse ++ bytes.data.toList.drop i := by
  fun_induction ByteArray.toList.loop bytes i r with
  | case1 i r h ih =>
    have hi : i < bytes.data.toList.length := by rwa [Array.length_toList, ByteArray.size_data]
    have hget : bytes.get! i = bytes.data.toList[i] := by
      cases bytes
      exact getElem!_pos _ i h
    rw [ih, hget, List.reverse_cons, List.append_assoc, List.singleton_append,
      List.getElem_cons_drop]
  | case2 i r h =>
    have hi : bytes.data.toList.length ≤ i := by
      rw [Array.length_toList, ByteArray.size_data]
      omega
    rw [List.drop_eq_nil_of_le hi, List.append_nil]

theorem toUTF8_toList (cs : List Char) : (String.ofList cs).toUTF8.toList = encode cs := by
  have hbytes : (String.ofList cs).toUTF8 = (encode cs).toByteArray := by
    rw [toByteArray_encode]
    exact String.toByteArray_ofList
  rw [hbytes, ByteArray.toList, loop_eq]
  simp

/-! ### The bytes of one character -/

theorem encodeChar_ne_nil (c : Char) : String.utf8EncodeChar c ≠ [] := String.utf8EncodeChar_ne_nil

theorem isFirst_getElem (c : Char) (i : Nat) (hi : i < (String.utf8EncodeChar c).length) :
    isFirst (String.utf8EncodeChar c)[i] = true ↔ i = 0 := by
  have hv : c.val.toNat < 0x110000 := by
    have hvalid := c.valid
    simp only [UInt32.isValidChar, Nat.isValidChar] at hvalid
    omega
  have hval : c.toNat = c.val.toNat := rfl
  unfold isFirst
  simp only [String.utf8EncodeChar] at hi ⊢
  split_ifs at hi ⊢ <;> rcases i with _ | _ | _ | _ | i <;>
    simp [UInt8.lt_iff_toNat_lt, UInt8.le_iff_toNat_le] at hi ⊢ <;> omega

theorem ofNat_of_mem_encodeChar {c : Char} {b : UInt8} (hb : b ∈ String.utf8EncodeChar c)
    (hlow : b < 0x80) : Char.ofNat b.toNat = c := by
  have hv := c.valid
  simp only [UInt32.isValidChar, Nat.isValidChar] at hv
  simp only [String.utf8EncodeChar] at hb
  rw [UInt8.lt_iff_toNat_lt] at hlow
  split_ifs at hb <;>
    simp only [List.mem_cons, List.not_mem_nil, or_false] at hb
  · subst hb
    have hn : (UInt8.ofNat c.val.toNat).toNat = c.toNat := by
      rw [UInt8.toNat_ofNat']
      exact Nat.mod_eq_of_lt (by omega)
    rw [hn, Char.ofNat_toNat]
  · rcases hb with rfl | rfl <;> simp at hlow <;> omega
  · rcases hb with rfl | rfl | rfl <;> simp at hlow <;> omega
  · rcases hb with rfl | rfl | rfl | rfl <;> simp at hlow <;> omega

theorem le_toNat_of_mem_encodeChar {c : Char} {b : UInt8} (hb : b ∈ String.utf8EncodeChar c)
    (hhigh : ¬b < 0x80) : 0x80 ≤ c.toNat := by
  by_contra hlow
  have hc : c.val.toNat ≤ 0x7f := by
    have hval : c.val.toNat = c.toNat := rfl
    omega
  simp only [String.utf8EncodeChar, hc, if_true, List.mem_singleton] at hb
  subst hb
  rw [UInt8.lt_iff_toNat_lt, UInt8.toNat_ofNat'] at hhigh
  simp only [UInt8.reduceToNat] at hhigh
  omega

/-! ### Where characters start -/

def StartsAt (cs : List Char) (i : Nat) : Prop :=
  ∃ before after, cs = before ++ after ∧ (encode before).length = i

theorem startsAt_zero (cs : List Char) : StartsAt cs 0 := ⟨[], cs, rfl, rfl⟩

theorem startsAt_length (cs : List Char) : StartsAt cs (encode cs).length :=
  ⟨cs, [], (List.append_nil cs).symm, rfl⟩

theorem StartsAt.le {cs : List Char} {i : Nat} (h : StartsAt cs i) : i ≤ (encode cs).length := by
  obtain ⟨before, after, rfl, rfl⟩ := h
  simp

theorem startsAt_cons_add (c : Char) (cs : List Char) (i : Nat) :
    StartsAt (c :: cs) ((String.utf8EncodeChar c).length + i) ↔ StartsAt cs i := by
  have hpos := List.length_pos_of_ne_nil (encodeChar_ne_nil c)
  apply Iff.intro
  · rintro ⟨before, after, hcs, hlen⟩
    cases before with
    | nil => rw [encode_nil, List.length_nil] at hlen; omega
    | cons d before =>
      rw [List.cons_append, List.cons.injEq] at hcs
      obtain ⟨rfl, hcs⟩ := hcs
      rw [encode_cons, List.length_append] at hlen
      exact ⟨before, after, hcs, by omega⟩
  · rintro ⟨before, after, rfl, rfl⟩
    exact ⟨c :: before, after, rfl, by simp⟩

theorem not_startsAt_cons {c : Char} {cs : List Char} {i : Nat} (hpos : 0 < i)
    (hi : i < (String.utf8EncodeChar c).length) : ¬StartsAt (c :: cs) i := by
  rintro ⟨before, after, hcs, hlen⟩
  cases before with
  | nil => rw [encode_nil, List.length_nil] at hlen; omega
  | cons d before =>
    rw [List.cons_append, List.cons.injEq] at hcs
    obtain ⟨rfl, -⟩ := hcs
    rw [encode_cons, List.length_append] at hlen
    omega

theorem startsAt_iff (cs : List Char) (i : Nat) (hi : i < (encode cs).length) :
    StartsAt cs i ↔ isFirst (encode cs)[i] = true := by
  induction cs generalizing i with
  | nil => simp at hi
  | cons c cs ih =>
    simp only [encode_cons]
    by_cases hin : i < (String.utf8EncodeChar c).length
    · rw [List.getElem_append_left hin, isFirst_getElem c i hin]
      apply Iff.intro
      · intro hstarts
        by_contra hne
        exact not_startsAt_cons (Nat.pos_of_ne_zero hne) hin hstarts
      · rintro rfl
        exact startsAt_zero _
    · obtain ⟨k, rfl⟩ := Nat.exists_eq_add_of_le (Nat.le_of_not_lt hin)
      have hk : k < (encode cs).length := by
        rw [encode_cons, List.length_append] at hi
        omega
      rw [List.getElem_append_right (by omega), startsAt_cons_add, ih k hk]
      simp

theorem prefix_of_encode_prefix {cs ds : List Char} (h : encode cs <+: encode ds) : cs <+: ds := by
  obtain ⟨rest, hrest⟩ := h
  apply List.isPrefix_of_utf8Encode_append_eq_utf8Encode rest.toByteArray
  rw [← toByteArray_encode, ← toByteArray_encode, ← hrest, List.toByteArray_append]

end Utf8Text
