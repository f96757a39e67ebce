import Mathlib.Data.List.Infix
import Travsr.Core.Ascii

namespace Travsr.Core.Ident

/-! ### What the segments spell -/

def lowered (s : String) : List Char := (s.toList.filter Char.isAlphanum).map Char.toLower

def Splitter.spelled (st : Splitter) : List Char := st.tokens.flatMap String.toList ++ st.current

def Splitter.Filled (st : Splitter) : Prop := ∀ t ∈ st.tokens, t ≠ ""

variable {st : Splitter} {c : Char} {s token acc : String} {segs : List String}

theorem Splitter.flush_spelled (st : Splitter) : st.flush.spelled = st.spelled := by
  unfold flush
  split_ifs with hempty
  · rfl
  · unfold spelled
    rw [List.flatMap_append, List.append_nil, List.flatMap_singleton, String.toList_ofList]

theorem Splitter.flush_current (st : Splitter) : st.flush.current = [] := by
  unfold flush
  split_ifs with hempty
  · exact List.isEmpty_iff.mp hempty
  · rfl

theorem Splitter.Filled.flush (h : st.Filled) : st.flush.Filled := by
  unfold Splitter.flush
  split_ifs with hempty
  · exact h
  · refine List.forall_mem_append.mpr ⟨h, List.forall_mem_singleton.mpr fun hnil => ?_⟩
    have hcurrent := congrArg String.toList hnil
    rw [String.toList_ofList] at hcurrent
    exact hempty (List.isEmpty_iff.mpr hcurrent)

theorem Splitter.push_spelled (st : Splitter) (c : Char) : (st.push c).spelled = st.spelled ++ [c] :=
  (List.append_assoc ..).symm

theorem toLower_of_not_isUpper (h : c.isUpper = false) : c.toLower = c := by
  rcases Text.toLower_cases c with hsame | hupper
  · exact hsame
  · have hisUpper : c.isUpper = true := by
      have hA : ('A' : Char).val.toNat = 65 := rfl
      have hZ : ('Z' : Char).val.toNat = 90 := rfl
      have hnat : c.toNat = c.val.toNat := rfl
      delta Char.isUpper
      rw [decide_eq_true_eq, ge_iff_le, UInt32.le_iff_toNat_le, UInt32.le_iff_toNat_le]
      omega
    rw [h] at hisUpper
    exact absurd hisUpper Bool.false_ne_true

theorem Splitter.step_spelled (st : Splitter) (c : Char) :
    (st.step c).spelled = st.spelled ++ if c.isAlphanum then [c.toLower] else [] := by
  have hkeep (b : Bool) : (if b then st.flush else st).spelled = st.spelled := by
    cases b
    · rfl
    · exact st.flush_spelled
  unfold step
  change Splitter.spelled (if _ then _ else _) = _
  by_cases halnum : c.isAlphanum
  · rw [halnum, if_neg (by simp), if_pos rfl]
    by_cases hupper : c.isUpper
    · rw [if_pos hupper, push_spelled, hkeep]
    · rw [if_neg hupper, toLower_of_not_isUpper (Bool.eq_false_iff.mpr hupper)]
      by_cases hdigit : c.isDigit
      · rw [if_pos hdigit, push_spelled, hkeep]
      · rw [if_neg hdigit, push_spelled, hkeep]
  · rw [Bool.eq_false_iff.mpr halnum, if_pos (by simp), if_neg (by simp), List.append_nil]
    exact st.flush_spelled

theorem Splitter.Filled.step (h : st.Filled) (c : Char) : (st.step c).Filled := by
  have hflush := h.flush
  unfold Splitter.step
  change Splitter.Filled (if _ then _ else _)
  split_ifs <;> first | exact hflush | exact h

theorem Splitter.run (l : List Char) (st : Splitter) (h : st.Filled) :
    (l.foldl Splitter.step st).spelled = st.spelled ++ (l.filter Char.isAlphanum).map Char.toLower ∧
      (l.foldl Splitter.step st).Filled := by
  induction l generalizing st with
  | nil => exact ⟨(List.append_nil _).symm, h⟩
  | cons c l ih =>
    obtain ⟨hspelled, hfilled⟩ := ih (st.step c) (h.step c)
    refine ⟨?_, hfilled⟩
    rw [List.foldl_cons, hspelled, st.step_spelled, List.append_assoc]
    split_ifs with halnum
    · rw [List.filter_cons_of_pos halnum]
      rfl
    · rw [List.filter_cons_of_neg halnum]
      rfl

theorem rawSegments_run (s : String) :
    (rawSegments s).flatMap String.toList = lowered s ∧ ∀ seg ∈ rawSegments s, seg ≠ "" := by
  obtain ⟨hspelled, hfilled⟩ := Splitter.run s.toList ⟨none, [], []⟩ fun _ ht => (List.not_mem_nil ht).elim
  have hflush := (s.toList.foldl Splitter.step ⟨none, [], []⟩).flush_spelled
  rw [hspelled, Splitter.spelled, Splitter.flush_current, List.append_nil] at hflush
  exact ⟨hflush, hfilled.flush⟩

/-! ### Joining segments -/

theorem byteLen_append (a b : String) : Text.byteLen (a ++ b) = Text.byteLen a + Text.byteLen b :=
  String.utf8ByteSize_append

theorem byteLen_join (acc : String) (run : List String) :
    Text.byteLen acc ≤ Text.byteLen (run.foldl (· ++ ·) acc) := by
  induction run generalizing acc with
  | nil => exact le_rfl
  | cons seg run ih =>
    have hseg := byteLen_append acc seg
    exact (hseg ▸ Nat.le_add_right _ _).trans (ih (acc ++ seg))

theorem joinsTo_iff : joinsTo token acc segs = true ↔
    ∃ run, run ≠ [] ∧ run <+: segs ∧ run.foldl (· ++ ·) acc = token := by
  induction segs generalizing acc with
  | nil =>
    constructor
    · intro h
      exact nomatch h
    · rintro ⟨run, hne, hrun, -⟩
      exact absurd (List.prefix_nil.mp hrun) hne
  | cons seg segs ih =>
    rw [joinsTo]
    by_cases heq : acc ++ seg = token
    · rw [if_pos heq]
      exact ⟨fun _ => ⟨[seg], List.cons_ne_nil _ _, ⟨segs, rfl⟩, heq⟩, fun _ => rfl⟩
    · rw [if_neg heq]
      have hcons (run : List String) : run.foldl (· ++ ·) acc = token → run ≠ [] → run <+: seg :: segs →
          ∃ rest, rest ≠ [] ∧ rest <+: segs ∧ rest.foldl (· ++ ·) (acc ++ seg) = token := by
        intro htoken hne hrun
        obtain ⟨x, rest, rfl⟩ := List.exists_cons_of_ne_nil hne
        obtain ⟨rfl, hrest⟩ := List.cons_prefix_cons.mp hrun
        refine ⟨rest, fun hnil => heq ?_, hrest, htoken⟩
        rw [hnil] at htoken
        exact htoken
      split_ifs with hlong
      · constructor
        · intro h
          exact nomatch h
        · rintro ⟨run, hne, hrun, htoken⟩
          obtain ⟨rest, -, -, hjoined⟩ := hcons run htoken hne hrun
          have hle := byteLen_join (acc ++ seg) rest
          rw [hjoined] at hle
          exact absurd hlong (Nat.not_lt_of_le hle)
      · rw [ih]
        constructor
        · rintro ⟨rest, hne, hrest, htoken⟩
          exact ⟨seg :: rest, List.cons_ne_nil _ _, List.cons_prefix_cons.mpr ⟨rfl, hrest⟩, htoken⟩
        · rintro ⟨run, hne, hrun, htoken⟩
          exact hcons run htoken hne hrun

theorem foldl_append_toList (acc : String) (run : List String) :
    (run.foldl (· ++ ·) acc).toList = acc.toList ++ run.flatMap String.toList := by
  induction run generalizing acc with
  | nil => exact (List.append_nil _).symm
  | cons seg run ih =>
    rw [List.foldl_cons, ih, String.toList_append, List.append_assoc]
    rfl

theorem containsToken_iff (token text : String) :
    containsToken token text = true ↔
      lowered token ≠ [] ∧ ∃ run, run <:+: rawSegments text ∧ run.flatMap String.toList = lowered token := by
  have hspells (run : List String) :
      run.foldl (· ++ ·) "" = String.ofList (lowered token) ↔ run.flatMap String.toList = lowered token := by
    rw [← String.toList_inj, foldl_append_toList, String.toList_empty, String.toList_ofList, List.nil_append]
  rw [containsToken]
  change (if _ || (String.ofList (lowered token)).isEmpty then false else
    (rawSegments text).tails.any (joinsTo (String.ofList (lowered token)) "")) = true ↔ _
  by_cases hnil : lowered token = []
  · rw [hnil, if_pos (Bool.or_eq_true _ _ ▸ Or.inr rfl)]
    constructor
    · intro h
      exact nomatch h
    · intro h
      exact absurd rfl h.1
  · have hkept : ¬(token.isEmpty || (String.ofList (lowered token)).isEmpty) = true := by
      rw [Bool.or_eq_true, String.isEmpty_iff, String.isEmpty_iff]
      rintro (htoken | hlow)
      · exact hnil (htoken ▸ rfl)
      · exact hnil (String.ofList_eq_empty_iff.mp hlow)
    rw [if_neg hkept, List.any_eq_true]
    constructor
    · rintro ⟨tail, htail, hjoins⟩
      obtain ⟨run, -, hrun, htoken⟩ := joinsTo_iff.mp hjoins
      exact ⟨hnil, run, hrun.isInfix.trans ((List.mem_tails ..).mp htail).isInfix, (hspells run).mp htoken⟩
    · rintro ⟨-, run, ⟨before, after, hrun⟩, htoken⟩
      have hne : run ≠ [] := by
        intro hrunNil
        rw [hrunNil] at htoken
        exact hnil htoken.symm
      have htail : run ++ after <:+ rawSegments text := ⟨before, by rw [← List.append_assoc, hrun]⟩
      exact ⟨run ++ after, (List.mem_tails ..).mpr htail,
        joinsTo_iff.mpr ⟨run, hne, ⟨after, rfl⟩, (hspells run).mpr htoken⟩⟩

/-- The segments of a text spell its letters and digits, none is empty, and a token is contained exactly
if a run of neighbouring segments spells it. -/
theorem segmentation_laws (s : String) :
    (rawSegments s).flatMap String.toList = lowered s ∧ (∀ seg ∈ rawSegments s, seg ≠ "") ∧
      ∀ token, containsToken token s = true ↔
        lowered token ≠ [] ∧
          ∃ run, run <:+: rawSegments s ∧ run.flatMap String.toList = lowered token :=
  ⟨(rawSegments_run s).1, (rawSegments_run s).2, fun token => containsToken_iff token s⟩

end Travsr.Core.Ident
