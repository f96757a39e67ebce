import Mathlib.Data.List.Nodup
import Mathlib.Data.String.Basic
import Travsr.Core.Text

namespace Travsr.Core.Text

theorem toLower_cases (c : Char) :
    c.toLower = c ∨ (65 ≤ c.toNat ∧ c.toNat ≤ 90 ∧ c.toLower.toNat = c.toNat + 32) := by
  by_cases h : c.val ≥ 'A'.val ∧ c.val ≤ 'Z'.val
  · have hval : c.toLower.toNat = (c.val + ('a'.val - 'A'.val)).toNat := by
      delta Char.toLower
      rw [dif_pos h]
      rfl
    have hlo := UInt32.le_iff_toNat_le.mp h.1
    have hhi := UInt32.le_iff_toNat_le.mp h.2
    have hA : ('A' : Char).val.toNat = 65 := rfl
    have hZ : ('Z' : Char).val.toNat = 90 := rfl
    have hshift : ('a'.val - 'A'.val).toNat = 32 := rfl
    have hnat : c.toNat = c.val.toNat := rfl
    rw [UInt32.toNat_add] at hval
    omega
  · left
    delta Char.toLower
    exact dif_neg h

theorem utf8Size_toLower (c : Char) : c.toLower.utf8Size = c.utf8Size := by
  rcases toLower_cases c with h | ⟨_, hhi, hn⟩
  · rw [h]
  · have hone : ∀ d : Char, d.toNat ≤ 127 → d.utf8Size = 1 :=
      fun d hd => Char.utf8Size_eq_one_iff.mpr (UInt32.le_iff_toNat_le.mpr hd)
    rw [hone c (by omega), hone c.toLower (by omega)]

theorem toList_toAsciiLowercase (s : String) :
    (toAsciiLowercase s).toList = s.toList.map Char.toLower := String.toList_ofList

theorem byteLen_toAsciiLowercase (s : String) : byteLen (toAsciiLowercase s) = byteLen s := by
  have hchars : ∀ l : List Char, String.utf8Len (l.map Char.toLower) = String.utf8Len l := by
    intro l
    induction l with
    | nil => rfl
    | cons c l ih =>
      rw [List.map_cons, String.utf8Len_cons, String.utf8Len_cons, ih, utf8Size_toLower]
  rw [byteLen, toAsciiLowercase, String.utf8ByteSize_ofList, hchars, ← String.utf8ByteSize_ofList,
    String.ofList_toList]
  rfl

theorem isAlphanum_iff {c : Char} :
    c.isAlphanum = true ↔ (65 ≤ c.toNat ∧ c.toNat ≤ 90) ∨ (97 ≤ c.toNat ∧ c.toNat ≤ 122) ∨
      (48 ≤ c.toNat ∧ c.toNat ≤ 57) := by
  delta Char.isAlphanum Char.isAlpha Char.isUpper Char.isLower Char.isDigit
  simp only [Bool.or_eq_true, Bool.and_eq_true, decide_eq_true_eq, ge_iff_le,
    UInt32.le_iff_toNat_le, or_assoc]
  exact Iff.rfl

theorem isAlphanum_toLower {c : Char} (h : c.isAlphanum = true) : c.toLower.isAlphanum = true := by
  have hc := isAlphanum_iff.mp h
  rcases toLower_cases c with he | ⟨_, _, hn⟩
  · rwa [he]
  · exact isAlphanum_iff.mpr (by omega)

theorem toLower_eq_iff {c d : Char} (hd : d.toNat < 65) : c.toLower = d ↔ c = d := by
  constructor
  · intro h
    rcases toLower_cases c with he | ⟨hlo, _, hn⟩
    · rw [← he, h]
    · rw [h] at hn
      omega
  · rintro rfl
    rcases toLower_cases c with he | ⟨hlo, _, _⟩
    · exact he
    · omega

theorem not_isWhitespace_of_isAlphanum {c : Char} (h : c.isAlphanum = true) :
    isWhitespace c = false := by
  have hc := isAlphanum_iff.mp h
  simp only [isWhitespace, Bool.or_eq_false_iff, Bool.and_eq_false_iff, decide_eq_false_iff_not]
  omega

theorem isWhitespace_toLower (c : Char) : isWhitespace c.toLower = isWhitespace c := by
  rcases toLower_cases c with he | ⟨hlo, hhi, hn⟩
  · rw [he]
  · rw [not_isWhitespace_of_isAlphanum (isAlphanum_iff.mpr (by omega)),
      not_isWhitespace_of_isAlphanum (isAlphanum_iff.mpr (by omega))]

/-! ### Splitting at whitespace -/

theorem splitOn_of_not_mem {p : Char → Bool} {w : List Char} (h : ∀ c ∈ w, p c = false) :
    splitOn p w = [w] := by
  induction w with
  | nil => rfl
  | cons c w ih => simp [splitOn, h c (by simp), ih (fun d hd => h d (List.mem_cons_of_mem c hd))]

theorem splitOn_append_cons {p : Char → Bool} {w rest : List Char} {d : Char}
    (h : ∀ c ∈ w, p c = false) (hd : p d = true) :
    splitOn p (w ++ d :: rest) = w :: splitOn p rest := by
  induction w with
  | nil => simp [splitOn, hd]
  | cons c w ih =>
    simp [splitOn, h c (by simp), ih (fun e he => h e (List.mem_cons_of_mem c he))]

def Unbroken (w : List Char) : Prop := w ≠ [] ∧ ∀ c ∈ w, isWhitespace c = false

theorem splitWhitespace_joinWith {ws : List String} (h : ∀ w ∈ ws, Unbroken w.toList) :
    splitWhitespace (joinWith " " ws) = ws := by
  have hsplit : (splitOn isWhitespace (joinWith " " ws).toList).filter (fun w => !w.isEmpty) =
      ws.map String.toList := by
    rw [joinWith, String.toList_intercalate]
    induction ws with
    | nil => rfl
    | cons w ws ih =>
      have hw := h w (by simp)
      have hkeep : ∀ rest : List (List Char), (w.toList :: rest).filter (fun w => !w.isEmpty) =
          w.toList :: rest.filter (fun w => !w.isEmpty) :=
        fun rest => List.filter_cons_of_pos (by simpa using hw.1)
      have hrest := ih (fun v hv => h v (List.mem_cons_of_mem w hv))
      cases ws with
      | nil =>
        simp only [List.map_cons, List.map_nil, List.intercalate_singleton]
        rw [splitOn_of_not_mem hw.2, hkeep, List.filter_nil]
      | cons v ws =>
        have hspace : isWhitespace ' ' = true := by decide
        simp only [List.map_cons, List.intercalate_cons_cons] at hrest ⊢
        rw [show " ".toList = [' '] from rfl] at hrest ⊢
        rw [List.append_assoc, List.singleton_append, splitOn_append_cons hw.2 hspace,
          hkeep, hrest]
  rw [splitWhitespace, hsplit, List.map_map]
  simp [Function.comp_def]

end Travsr.Core.Text

namespace Travsr.Core.Ident

/-! ### Segments are words of ASCII letters and digits, each once -/

def Word (w : List Char) : Prop := ∀ c ∈ w, c.isAlphanum = true

structure Splitter.Words (st : Splitter) : Prop where
  current : Word st.current
  tokens : ∀ t ∈ st.tokens, Word t.toList

theorem Splitter.Words.flush {st : Splitter} (h : st.Words) : st.flush.Words := by
  unfold Splitter.flush
  split
  · exact h
  · refine ⟨fun c hc => by simp at hc, fun t ht => ?_⟩
    rcases List.mem_append.mp ht with hold | hnew
    · exact h.tokens t hold
    · rw [List.mem_singleton.mp hnew, String.toList_ofList]
      exact h.current

theorem Splitter.Words.push {st : Splitter} {c : Char} (h : st.Words) (hc : c.isAlphanum = true) :
    (st.push c).Words := by
  refine ⟨fun d hd => ?_, h.tokens⟩
  rcases List.mem_append.mp hd with hold | hnew
  · exact h.current d hold
  · rwa [List.mem_singleton.mp hnew]

theorem Splitter.Words.step {st : Splitter} (h : st.Words) (c : Char) : (st.step c).Words := by
  have hkeep : ∀ b : Bool, (if b then st.flush else st).Words := by
    intro b
    cases b
    · exact h
    · exact h.flush
  have hnext : ∀ {next : Splitter}, next.Words →
      Splitter.Words { next with prev := some c } := fun hn => ⟨hn.current, hn.tokens⟩
  unfold Splitter.step
  apply hnext
  split
  case isTrue => exact h.flush
  case isFalse halnum =>
    have hc : c.isAlphanum = true := by simpa using halnum
    split
    case isTrue => exact (hkeep _).push (Text.isAlphanum_toLower hc)
    case isFalse =>
      split
      · exact (hkeep _).push hc
      · exact (hkeep _).push hc

theorem word_rawSegments {s t : String} (ht : t ∈ rawSegments s) : Word t.toList := by
  have hrun : ∀ (l : List Char) (st : Splitter), st.Words → (l.foldl Splitter.step st).Words := by
    intro l
    induction l with
    | nil => exact fun _ h => h
    | cons c l ih => exact fun st h => ih _ (h.step c)
  have hstart : Splitter.Words ⟨none, [], []⟩ :=
    ⟨fun c hc => by simp at hc, fun t ht => by simp at ht⟩
  exact (hrun s.toList _ hstart).flush.tokens t ht

theorem segments_run (raw tokens : List String) (hnd : tokens.Nodup) :
    (raw.foldl (fun acc tok => if tok ∈ acc then acc else acc ++ [tok]) tokens).Nodup ∧
      ∀ t ∈ raw.foldl (fun acc tok => if tok ∈ acc then acc else acc ++ [tok]) tokens,
        t ∈ tokens ∨ t ∈ raw := by
  induction raw generalizing tokens with
  | nil => exact ⟨hnd, fun t ht => .inl ht⟩
  | cons tok raw ih =>
    rw [List.foldl_cons]
    split
    case isTrue =>
      obtain ⟨h1, h2⟩ := ih tokens hnd
      exact ⟨h1, fun t ht => (h2 t ht).imp_right (List.mem_cons_of_mem tok)⟩
    case isFalse hnew =>
      have hnd' : (tokens ++ [tok]).Nodup := by
        rw [← List.concat_eq_append]
        exact hnd.concat hnew
      obtain ⟨h1, h2⟩ := ih _ hnd'
      refine ⟨h1, fun t ht => ?_⟩
      rcases h2 t ht with hold | hraw
      · rcases List.mem_append.mp hold with h | h
        · exact .inl h
        · exact .inr (by simp [List.mem_singleton.mp h])
      · exact .inr (List.mem_cons_of_mem tok hraw)

theorem segments_nodup (s : String) : (segments s).Nodup :=
  (segments_run (rawSegments s) [] List.nodup_nil).1

theorem word_segments {s t : String} (ht : t ∈ segments s) : Word t.toList :=
  word_rawSegments (((segments_run (rawSegments s) [] List.nodup_nil).2 t ht).resolve_left
    List.not_mem_nil)

end Travsr.Core.Ident
