import Travsr.Core.Text
import Travsr.Lib.Nearest
import Travsr.Lib.Utf8Text

namespace Travsr.Store

def utf8 (line : List Char) : List UInt8 := (String.ofList line).toUTF8.toList

/-- `str::is_char_boundary`: no continuation byte stands at the index. -/
def isCharBoundary (bytes : List UInt8) (i : Nat) : Bool :=
  i = 0 || i = bytes.length || (bytes[i]?.any fun b => b < 0x80 || 0xC0 ≤ b)

def isWordByte (b : UInt8) : Bool :=
  let c := Char.ofNat b.toNat
  b < 0x80 && (c.isAlphanum || c = '_')

/-- `occurrence_at_col`: the name stands at the byte column as a whole word. -/
def occurrenceAtCol (line name : List Char) (col : Nat) : Bool :=
  let bytes := utf8 line
  let nb := utf8 name
  if nb.isEmpty || bytes.length < col + nb.length || !isCharBoundary bytes col then false
  else if (bytes.drop col).take nb.length != nb then false
  else
    let after := col + nb.length
    (col = 0 || !(bytes[col - 1]?.any isWordByte)) &&
      (bytes.length ≤ after || !(bytes[after]?.any isWordByte))

/-- `token_starts_at`: some identifier begins at the byte column. -/
def tokenStartsAt (line : List Char) (col : Nat) : Bool :=
  let bytes := utf8 line
  if bytes.length ≤ col || !isCharBoundary bytes col then false
  else bytes[col]?.any isWordByte && (col = 0 || !(bytes[col - 1]?.any isWordByte))

def maxSnapRadius : Nat := 512

def lineAt (lines : List (List Char)) (l : Int) : Option (List Char) := lines[(l - 1).toNat]?

/-- `snap_changed_occurrence_line`: the nearest line of the span that carries the name at the
column, the later one of two; else the estimate itself where a token starts at the column. -/
def snapChangedOccurrenceLine (lines : List (List Char)) (name : List Char) (col : Nat)
    (estimate spanStart spanEnd : Int) : Option Nat :=
  let lo := max spanStart 1
  let hi := max spanEnd lo
  let hit (l : Int) : Bool :=
    lo ≤ l && l ≤ hi && (lineAt lines l).any fun line => occurrenceAtCol line name col
  let maxRadius := min (max (estimate - lo).natAbs (hi - estimate).natAbs) maxSnapRadius
  let found := (List.range (maxRadius + 1)).findSome? fun (r : Nat) =>
    if hit (estimate + r) then some (estimate + r)
    else if 0 < r ∧ hit (estimate - r) then some (estimate - r)
    else none
  match found with
  | some l => some l.toNat
  | none =>
    if lo ≤ estimate ∧ estimate ≤ hi ∧ (lineAt lines estimate).any (tokenStartsAt · col) then
      some estimate.toNat
    else none

end Travsr.Store

namespace Travsr.Store

/-! ### Where a name stands in a line -/

def isWordChar (c : Char) : Bool := c.isAlphanum || c = '_'

/-- No word goes on into the text that ends here. -/
def NoWordBefore (before : List Char) : Prop := ∀ c ∈ before.getLast?, isWordChar c = false

def NoWordAfter (after : List Char) : Prop := ∀ c ∈ after.head?, isWordChar c = false

/-- The line carries the name as a whole word at the byte column. -/
def CarriesName (line name : List Char) (col : Nat) : Prop :=
  name ≠ [] ∧ ∃ before after, line = before ++ name ++ after ∧
    (Utf8Text.encode before).length = col ∧ NoWordBefore before ∧ NoWordAfter after

/-- A word starts at the byte column of the line. -/
def StartsToken (line : List Char) (col : Nat) : Prop :=
  ∃ before c after, line = before ++ c :: after ∧
    (Utf8Text.encode before).length = col ∧ NoWordBefore before ∧ isWordChar c = true

theorem utf8_eq (line : List Char) : utf8 line = Utf8Text.encode line := Utf8Text.toUTF8_toList line

theorem isWordByte_of_mem {c : Char} {b : UInt8} (hb : b ∈ String.utf8EncodeChar c) :
    isWordByte b = isWordChar c := by
  by_cases hlow : b < 0x80
  · have hc := Utf8Text.ofNat_of_mem_encodeChar hb hlow
    simp [isWordByte, isWordChar, hlow, hc]
  · have hhigh := Utf8Text.le_toNat_of_mem_encodeChar hb hlow
    have hword : isWordChar c = false := by
      have hne : c ≠ '_' := by
        rintro rfl
        exact absurd hhigh (by decide)
      have hval : c.val.toNat = c.toNat := rfl
      simp only [isWordChar, hne, decide_false, Bool.or_false]
      delta Char.isAlphanum Char.isAlpha Char.isUpper Char.isLower Char.isDigit
      simp [UInt32.le_iff_toNat_le]
      omega
    simp [isWordByte, hlow, hword]

theorem wordBefore_iff (before : List Char) (rest : List UInt8) :
    ((Utf8Text.encode before).length = 0 ∨
        ((Utf8Text.encode before ++ rest)[(Utf8Text.encode before).length - 1]?.any isWordByte)
          = false) ↔ NoWordBefore before := by
  rcases List.eq_nil_or_concat before with rfl | ⟨init, c, rfl⟩
  · simp [NoWordBefore]
  · have hne := Utf8Text.encodeChar_ne_nil c
    have hlast := List.getLast_mem hne
    have hpos := List.length_pos_of_ne_nil hne
    have hbytes : Utf8Text.encode (init.concat c) =
        Utf8Text.encode init ++ String.utf8EncodeChar c := by simp
    have hget : (Utf8Text.encode (init.concat c) ++ rest)[(Utf8Text.encode (init.concat c)).length
        - 1]? = some ((String.utf8EncodeChar c).getLast hne) := by
      rw [List.getElem?_append_left (by rw [hbytes, List.length_append]; omega), hbytes,
        List.length_append, List.getElem?_append_right (by omega), List.getLast_eq_getElem,
        List.getElem?_eq_getElem (by omega)]
      congr 1
      congr 1
      omega
    rw [hget, Option.any_some, isWordByte_of_mem hlast]
    have hlen : (Utf8Text.encode (init.concat c)).length ≠ 0 := by
      rw [hbytes, List.length_append]
      omega
    rw [or_iff_right hlen]
    simp [NoWordBefore]

theorem wordAt_cons (c : Char) (after : List Char) :
    (Utf8Text.encode (c :: after))[0]?.any isWordByte = isWordChar c := by
  have hne := Utf8Text.encodeChar_ne_nil c
  have hpos := List.length_pos_of_ne_nil hne
  rw [Utf8Text.encode_cons, List.getElem?_append_left hpos, List.getElem?_eq_getElem hpos,
    Option.any_some, isWordByte_of_mem (List.getElem_mem hpos)]

theorem wordAfter_iff (after : List Char) :
    ((Utf8Text.encode after).length = 0 ∨
        ((Utf8Text.encode after)[0]?.any isWordByte) = false) ↔ NoWordAfter after := by
  cases after with
  | nil => simp [NoWordAfter]
  | cons c after =>
    have hlen : (Utf8Text.encode (c :: after)).length ≠ 0 := by
      have hpos := List.length_pos_of_ne_nil (Utf8Text.encodeChar_ne_nil c)
      rw [Utf8Text.encode_cons, List.length_append]
      omega
    rw [wordAt_cons]
    rw [or_iff_right hlen]
    simp [NoWordAfter]

/-- `is_char_boundary` tells where the characters start. -/
theorem isCharBoundary_iff (line : List Char) (i : Nat) :
    isCharBoundary (Utf8Text.encode line) i = true ↔ Utf8Text.StartsAt line i := by
  by_cases hin : i < (Utf8Text.encode line).length
  · rw [Utf8Text.startsAt_iff line i hin]
    have hne : i ≠ (Utf8Text.encode line).length := by omega
    have hfirst : isCharBoundary (Utf8Text.encode line) i =
        (decide (i = 0) || Utf8Text.isFirst (Utf8Text.encode line)[i]) := by
      simp [isCharBoundary, Utf8Text.isFirst, hne, hin]
    rw [hfirst]
    by_cases hzero : i = 0
    · subst hzero
      have hstart := (Utf8Text.startsAt_iff line 0 hin).mp (Utf8Text.startsAt_zero line)
      simp [hstart]
    · simp [hzero]
  · by_cases hend : i = (Utf8Text.encode line).length
    · subst hend
      simp [isCharBoundary, Utf8Text.startsAt_length]
    · have hnot : ¬Utf8Text.StartsAt line i := fun hstart => by
        have hle := hstart.le
        omega
      have hzero : i ≠ 0 := by omega
      have hnone : (Utf8Text.encode line)[i]? = none := List.getElem?_eq_none (by omega)
      simp [isCharBoundary, hnot, hend, hzero, hnone]

theorem encode_eq_nil {cs : List Char} : Utf8Text.encode cs = [] ↔ cs = [] := by
  cases cs with
  | nil => simp
  | cons c cs => simp [Utf8Text.encodeChar_ne_nil c]

/-- At a place where the name does stand, what is left to check are the characters beside it. -/
theorem occurrenceAtCol_append (before name after : List Char) :
    occurrenceAtCol (before ++ name ++ after) name (Utf8Text.encode before).length = true ↔
      name ≠ [] ∧ NoWordBefore before ∧ NoWordAfter after := by
  have hstart : isCharBoundary (Utf8Text.encode (before ++ name ++ after))
      (Utf8Text.encode before).length = true := by
    rw [isCharBoundary_iff]
    exact ⟨before, name ++ after, by simp, rfl⟩
  have hbytes : Utf8Text.encode (before ++ name ++ after) =
      Utf8Text.encode before ++ (Utf8Text.encode name ++ Utf8Text.encode after) := by simp
  have hword : ((Utf8Text.encode (before ++ name ++ after)).drop
      (Utf8Text.encode before).length).take (Utf8Text.encode name).length =
        Utf8Text.encode name := by
    rw [hbytes, List.drop_left, List.take_left]
  have hafter : (Utf8Text.encode (before ++ name ++ after))[(Utf8Text.encode before).length +
      (Utf8Text.encode name).length]? = (Utf8Text.encode after)[0]? := by
    rw [hbytes, List.getElem?_append_right (by omega), List.getElem?_append_right (by omega)]
    congr 1
    omega
  have hlen : (Utf8Text.encode (before ++ name ++ after)).length ≤
      (Utf8Text.encode before).length + (Utf8Text.encode name).length ↔
        (Utf8Text.encode after).length = 0 := by
    rw [hbytes, List.length_append, List.length_append]
    omega
  have hroom : ¬(Utf8Text.encode (before ++ name ++ after)).length <
      (Utf8Text.encode before).length + (Utf8Text.encode name).length := by
    rw [hbytes, List.length_append, List.length_append]
    omega
  have hb := wordBefore_iff before (Utf8Text.encode name ++ Utf8Text.encode after)
  rw [← hbytes] at hb
  rw [← wordAfter_iff, ← hb]
  by_cases hname : name = []
  · simp [occurrenceAtCol, utf8_eq, hname]
  · have hne : (Utf8Text.encode name).isEmpty = false := by
      rw [List.isEmpty_eq_false_iff]
      exact fun h => hname (encode_eq_nil.mp h)
    simp only [occurrenceAtCol, utf8_eq, hne, hroom, hstart, hword, hafter, hlen, hname,
      decide_false, Bool.false_or, Bool.not_true, Bool.false_eq_true, if_false, bne_self_eq_false,
      Bool.and_eq_true, Bool.or_eq_true, decide_eq_true_eq, Bool.not_eq_true', ne_eq,
      not_false_eq_true, true_and]

/-- `occurrence_at_col` finds the name as a whole word, whatever bytes the line holds. -/
theorem occurrenceAtCol_iff (line name : List Char) (col : Nat) :
    occurrenceAtCol line name col = true ↔ CarriesName line name col := by
  apply Iff.intro
  · intro hocc
    have hparts : isCharBoundary (Utf8Text.encode line) col = true ∧
        ((Utf8Text.encode line).drop col).take (Utf8Text.encode name).length =
          Utf8Text.encode name := by
      simp only [occurrenceAtCol, utf8_eq] at hocc
      split_ifs at hocc with hguard hword
      simp only [Bool.or_eq_true, Bool.not_eq_true', not_or] at hguard
      exact ⟨by simpa using hguard.2, by simpa using hword⟩
    obtain ⟨hstart, hword⟩ := hparts
    obtain ⟨before, rest, rfl, rfl⟩ := (isCharBoundary_iff line col).mp hstart
    rw [Utf8Text.encode_append, List.drop_left] at hword
    have hpre : Utf8Text.encode name <+: Utf8Text.encode rest := by
      rw [← hword]
      exact List.take_prefix _ _
    obtain ⟨after, rfl⟩ := Utf8Text.prefix_of_encode_prefix hpre
    rw [← List.append_assoc] at hocc ⊢
    obtain ⟨hname, hbefore, hafter⟩ := (occurrenceAtCol_append before name after).mp hocc
    exact ⟨hname, before, after, rfl, rfl, hbefore, hafter⟩
  · rintro ⟨hname, before, after, rfl, rfl, hbefore, hafter⟩
    exact (occurrenceAtCol_append before name after).mpr ⟨hname, hbefore, hafter⟩

theorem tokenStartsAt_append (before : List Char) (c : Char) (after : List Char) :
    tokenStartsAt (before ++ c :: after) (Utf8Text.encode before).length = true ↔
      NoWordBefore before ∧ isWordChar c = true := by
  have hstart : isCharBoundary (Utf8Text.encode (before ++ c :: after))
      (Utf8Text.encode before).length = true := by
    rw [isCharBoundary_iff]
    exact ⟨before, c :: after, rfl, rfl⟩
  have hbytes : Utf8Text.encode (before ++ c :: after) =
      Utf8Text.encode before ++ Utf8Text.encode (c :: after) := Utf8Text.encode_append _ _
  have hroom : ¬(Utf8Text.encode (before ++ c :: after)).length ≤
      (Utf8Text.encode before).length := by
    have hpos := List.length_pos_of_ne_nil (Utf8Text.encodeChar_ne_nil c)
    rw [hbytes, Utf8Text.encode_cons, List.length_append, List.length_append]
    omega
  have hat : (Utf8Text.encode (before ++ c :: after))[(Utf8Text.encode before).length]?.any
      isWordByte = isWordChar c := by
    rw [hbytes, List.getElem?_append_right (le_refl _), Nat.sub_self, wordAt_cons]
  have hb := wordBefore_iff before (Utf8Text.encode (c :: after))
  rw [← hbytes] at hb
  rw [← hb]
  simp only [tokenStartsAt, utf8_eq, hroom, hstart, hat]
  simp [and_comm]

/-- `token_starts_at` finds the start of a word. -/
theorem tokenStartsAt_iff (line : List Char) (col : Nat) :
    tokenStartsAt line col = true ↔ StartsToken line col := by
  apply Iff.intro
  · intro htoken
    have hparts : isCharBoundary (Utf8Text.encode line) col = true ∧
        ¬(Utf8Text.encode line).length ≤ col := by
      simp only [tokenStartsAt, utf8_eq] at htoken
      split_ifs at htoken with hguard
      simp only [Bool.or_eq_true, Bool.not_eq_true', not_or] at hguard
      exact ⟨by simpa using hguard.2, by simpa using hguard.1⟩
    obtain ⟨hstart, hroom⟩ := hparts
    obtain ⟨before, rest, rfl, rfl⟩ := (isCharBoundary_iff line col).mp hstart
    cases rest with
    | nil => simp at hroom
    | cons c after =>
      obtain ⟨hbefore, hc⟩ := (tokenStartsAt_append before c after).mp htoken
      exact ⟨before, c, after, rfl, rfl, hbefore, hc⟩
  · rintro ⟨before, c, after, rfl, rfl, hbefore, hc⟩
    exact (tokenStartsAt_append before c after).mpr ⟨hbefore, hc⟩

end Travsr.Store
