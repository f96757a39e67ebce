import Travsr.Core.Pieces

namespace Travsr.PluginHost

open Travsr.Core Text

structure Semver where
  major : Nat
  minor : Nat
  patch : Nat
  deriving DecidableEq

/-- The digits a text begins with as a `u64`. -/
def leadingU64 (s : List Char) : Option Nat := parseUnsigned 64 (leadingDigits s)

/-- Reads a version from a token with something in front of it and something behind it. -/
def parseSemverToken (tok : List Char) : Option Semver :=
  let s := tok.dropWhile fun c => !c.isDigit
  if s.isEmpty then none
  else
    let parts := splitOn (fun c => c == '.') s
    parts[0]?.bind fun a => (leadingU64 a).bind fun major =>
    parts[1]?.bind fun b => (leadingU64 b).bind fun minor =>
    parts[2]?.bind fun c => (leadingU64 c).map fun patch => ⟨major, minor, patch⟩

def tokens (text : String) : List (List Char) := (splitWhitespace text).map String.toList

def parseSidecarVersion (text : String) : Option Semver := (tokens text).findSome? parseSemverToken

/-! ### Dotted triples -/

def number (s : List Char) : Option (Nat × List Char) :=
  (leadingU64 s).map fun n => (n, s.dropWhile Char.isDigit)

def dot (s : List Char) : Option (List Char) := if s.head? = some '.' then some s.tail else none

/-- The text begins with `X.Y.Z`. -/
def tripleFrom (s : List Char) : Option Semver :=
  (number s).bind fun x => (dot x.2).bind fun r => (number r).bind fun y => (dot y.2).bind fun r =>
    (number r).map fun z => ⟨x.1, y.1, z.1⟩

def endsNumber (s : List Char) : Bool :=
  s.getLast?.any Char.isDigit ||
    (s.getLast? = some '.' && s.dropLast.getLast?.any Char.isDigit)

def tripleAt (tok : List Char) (i : Nat) : Option Semver :=
  if endsNumber (tok.take i) then none else tripleFrom (tok.drop i)

def firstTriple (tok : List Char) : Option Semver :=
  (List.range tok.length).findSome? (tripleAt tok)

def textTriple (text : String) : Option Semver := (tokens text).findSome? firstTriple

/-- From the first digit on, three pieces between dots begin with numbers, whatever else stands in
them. -/
def Loose (tok : List Char) (v : Semver) : Prop :=
  ∃ pre a b c : List Char, tok = pre ++ (a ++ '.' :: (b ++ '.' :: c)) ∧
    (∀ x ∈ pre, x.isDigit = false) ∧ '.' ∉ a ∧ '.' ∉ b ∧ leadingU64 a = some v.major ∧
      leadingU64 b = some v.minor ∧ leadingU64 c = some v.patch

/-- A triple stands at the first digit. -/
def Plain (tok : List Char) : Prop :=
  ∃ pre s : List Char, tok = pre ++ s ∧ (∀ x ∈ pre, x.isDigit = false) ∧ (tripleFrom s).isSome

/-- The first of the tokens that holds a triple, or is read as if it did, holds it at its first
digit; or there is none; or what is read is by chance the same. -/
inductive ReadsRight : List (List Char) → Prop
  | none : ReadsRight []
  | skip {tok : List Char} {toks : List (List Char)} : (∀ v, ¬ Loose tok v) →
    firstTriple tok = none → ReadsRight toks → ReadsRight (tok :: toks)
  | plain {tok : List Char} {toks : List (List Char)} : Plain tok → ReadsRight (tok :: toks)
  | sameNumbers {tok : List Char} {toks : List (List Char)} {v : Semver} : Loose tok v →
    (tok :: toks).findSome? firstTriple = some v → ReadsRight (tok :: toks)
  | sameLater {tok : List Char} {before after : List (List Char)} {later : List Char} {v : Semver} :
    (∀ w, ¬ Loose tok w) → firstTriple tok = some v →
    (∀ t ∈ before, ∀ w, ¬ Loose t w) → Loose later v → ReadsRight (tok :: (before ++ later :: after))

/-! ### What a token is read as -/

theorem isDigit_head {s : List Char} {n : Nat} (h : leadingU64 s = some n) :
    ∃ c r, s = c :: r ∧ c.isDigit = true := by
  cases s with
  | nil => simp [leadingU64, parseUnsigned, leadingDigits] at h
  | cons c r =>
    refine ⟨c, r, rfl, ?_⟩
    by_contra hc
    have hnil : leadingDigits (c :: r) = [] := List.takeWhile_cons_of_neg hc
    simp [leadingU64, parseUnsigned, hnil] at h

theorem dotted_cases (s : List Char) : (∀ c ∈ s, (c == '.') = false) ∨
    ∃ w rest, s = w ++ '.' :: rest ∧ ∀ c ∈ w, (c == '.') = false := by
  induction s using pieces_induction (p := fun c => c == '.') with
  | last w hw => exact .inl hw
  | more w d rest hw hd _ =>
    have hdot : d = '.' := by simpa using hd
    exact .inr ⟨w, rest, by rw [hdot], hw⟩

theorem splitOn_head (s : List Char) : ∃ w ws, splitOn (fun c => c == '.') s = w :: ws ∧
    leadingDigits w = leadingDigits s := by
  rcases dotted_cases s with hfree | ⟨w, rest, rfl, hw⟩
  · exact ⟨s, [], splitOn_of_not_mem hfree, rfl⟩
  · refine ⟨w, _, splitOn_append_cons hw rfl, ?_⟩
    have hspan : leadingDigits w ++ w.dropWhile Char.isDigit = w := List.takeWhile_append_dropWhile
    have hdigits : ∀ c ∈ leadingDigits w, c.isDigit = true := fun c => List.mem_takeWhile_imp
    conv_rhs => rw [← hspan, List.append_assoc]
    refine (leadingDigits_append hdigits fun c hc => ?_).symm
    cases htail : w.dropWhile Char.isDigit with
    | nil =>
      rw [htail] at hc
      have hdot : '.' = c := by simpa using hc
      exact hdot ▸ rfl
    | cons d r =>
      have hd := List.dropWhile_get_zero_not Char.isDigit w (by rw [htail]; simp)
      have hdc : d = c := by simpa [htail] using hc
      simpa [htail, hdc] using hd

theorem loose_of_parse {tok : List Char} {v : Semver} (h : parseSemverToken tok = some v) :
    Loose tok v := by
  rw [parseSemverToken] at h
  have hspan : tok.takeWhile (fun c => !c.isDigit) ++ tok.dropWhile (fun c => !c.isDigit) = tok :=
    List.takeWhile_append_dropWhile
  have hpre : ∀ x ∈ tok.takeWhile (fun c => !c.isDigit), x.isDigit = false := by
    intro x hx
    simpa using List.mem_takeWhile_imp hx
  generalize tok.dropWhile (fun c => !c.isDigit) = s at h hspan
  split_ifs at h
  rcases dotted_cases s with hfree | ⟨a, rest, rfl, ha⟩
  · rw [splitOn_of_not_mem hfree] at h
    simp at h
  rcases dotted_cases rest with hfree | ⟨b, c, rfl, hb⟩
  · rw [splitOn_append_cons ha rfl, splitOn_of_not_mem hfree] at h
    simp at h
  obtain ⟨w, ws, hw, hdigits⟩ := splitOn_head c
  rw [splitOn_append_cons ha rfl, splitOn_append_cons hb rfl, hw] at h
  simp only [List.getElem?_cons_zero, List.getElem?_cons_succ, Option.bind_some,
    Option.bind_eq_some_iff, Option.map_eq_some_iff] at h
  obtain ⟨major, hmajor, minor, hminor, patch, hpatch, rfl⟩ := h
  have hthird : leadingU64 c = some patch := by
    rw [leadingU64, ← hdigits]
    exact hpatch
  exact ⟨_, a, b, c, hspan.symm, hpre, fun hin => by simpa using ha _ hin,
    fun hin => by simpa using hb _ hin, hmajor, hminor, hthird⟩

theorem dropWhile_prelude {pre s : List Char} {n : Nat} (hpre : ∀ x ∈ pre, x.isDigit = false)
    (hs : leadingU64 s = some n) (rest : List Char) :
    (pre ++ (s ++ rest)).dropWhile (fun c => !c.isDigit) = s ++ rest := by
  obtain ⟨d, r, rfl, hd⟩ := isDigit_head hs
  rw [List.dropWhile_append_of_pos (by simpa using hpre), List.cons_append]
  exact List.dropWhile_cons_of_neg (by simp [hd])

theorem parse_of_loose {tok : List Char} {v : Semver} (h : Loose tok v) :
    parseSemverToken tok = some v := by
  obtain ⟨pre, a, b, c, rfl, hpre, ha, hb, hmajor, hminor, hpatch⟩ := h
  have hfree : ∀ {w : List Char}, '.' ∉ w → ∀ x ∈ w, (x == '.') = false := by
    intro w hw x hx
    rw [beq_eq_false_iff_ne]
    exact fun heq => hw (heq ▸ hx)
  obtain ⟨w, ws, hw, hdigits⟩ := splitOn_head c
  have hthird : leadingU64 w = some v.patch := by
    rw [leadingU64, hdigits]
    exact hpatch
  obtain ⟨d, r, had, -⟩ := isDigit_head hmajor
  rw [parseSemverToken, dropWhile_prelude hpre hmajor, if_neg (by simp [had]),
    splitOn_append_cons (hfree ha) rfl, splitOn_append_cons (hfree hb) rfl, hw]
  simp [hmajor, hminor, hthird]

theorem parse_iff {tok : List Char} {v : Semver} :
    parseSemverToken tok = some v ↔ Loose tok v := ⟨loose_of_parse, parse_of_loose⟩

theorem parse_eq_none {tok : List Char} (h : ∀ v, ¬ Loose tok v) : parseSemverToken tok = none :=
  Option.eq_none_iff_forall_ne_some.mpr fun v hv => h v (parse_iff.mp hv)

/-! ### A triple at the first digit -/

theorem number_eq_some {s r : List Char} {n : Nat} (h : number s = some (n, r)) :
    leadingU64 s = some n ∧ s = leadingDigits s ++ r := by
  simp only [number, Option.map_eq_some_iff, Prod.mk.injEq] at h
  obtain ⟨m, hm, rfl, rfl⟩ := h
  exact ⟨hm, List.takeWhile_append_dropWhile.symm⟩

theorem leadingU64_digits {s : List Char} : leadingU64 (leadingDigits s) = leadingU64 s := by
  have hsame : leadingDigits (leadingDigits s) = leadingDigits s := by
    have hdigits : ∀ c ∈ leadingDigits s, c.isDigit = true := fun c => List.mem_takeWhile_imp
    have hend : ∀ c, ([] : List Char).head? = some c → c.isDigit = false := by simp
    have happend := leadingDigits_append hdigits hend
    rwa [List.append_nil] at happend
  rw [leadingU64, hsame, leadingU64]

theorem dot_notMem_digits (s : List Char) : '.' ∉ leadingDigits s := by
  intro hin
  have hdigit := List.mem_takeWhile_imp hin
  exact absurd hdigit (by decide)

theorem loose_of_tripleFrom {pre s : List Char} {v : Semver} (hpre : ∀ x ∈ pre, x.isDigit = false)
    (h : tripleFrom s = some v) : Loose (pre ++ s) v := by
  have hdot : ∀ {s r : List Char}, dot s = some r → s = '.' :: r := by
    intro s r hs
    cases s with
    | nil => simp [dot] at hs
    | cons c t =>
      simp only [dot, List.head?_cons, Option.some.injEq, List.tail_cons,
        Option.ite_none_right_eq_some] at hs
      rw [hs.1, hs.2]
  simp only [tripleFrom, Option.bind_eq_some_iff, Option.map_eq_some_iff, Prod.exists] at h
  obtain ⟨x, r, hx, r', hr, y, t, hy, t', ht, z, u, hz, rfl⟩ := h
  obtain ⟨hmajor, hs⟩ := number_eq_some hx
  obtain ⟨hminor, hr'⟩ := number_eq_some hy
  have hrest : r = '.' :: r' := hdot hr
  have hrest' : t = '.' :: t' := hdot ht
  refine ⟨pre, leadingDigits s, leadingDigits r', t', ?_, hpre, dot_notMem_digits s,
    dot_notMem_digits r', leadingU64_digits.trans hmajor, leadingU64_digits.trans hminor,
    (number_eq_some hz).1⟩
  conv_lhs => rw [hs, hrest, hr', hrest']

theorem firstTriple_plain {pre s : List Char} {v : Semver} (hpre : ∀ x ∈ pre, x.isDigit = false)
    (h : tripleFrom s = some v) : firstTriple (pre ++ s) = some v := by
  have hnone : ∀ i ∈ List.range pre.length, tripleAt (pre ++ s) i = none := by
    intro i hi
    have hlt := List.mem_range.mp hi
    rw [tripleAt]
    split_ifs
    · rfl
    · have hdrop : (pre ++ s).drop i = pre[i] :: (pre ++ s).drop (i + 1) := by
        rw [List.drop_eq_getElem_cons (by simp; omega), List.getElem_append_left hlt]
      have hdigit := hpre _ (List.getElem_mem hlt)
      rw [hdrop, tripleFrom, number]
      cases hlead : leadingU64 (pre[i] :: (pre ++ s).drop (i + 1)) with
      | none => rfl
      | some n =>
        obtain ⟨c, r, hcons, hc⟩ := isDigit_head hlead
        rw [(List.cons.inj hcons).1, hc] at hdigit
        exact absurd hdigit Bool.true_eq_false_eq_False
  have hhere : tripleAt (pre ++ s) pre.length = some v := by
    have hends : endsNumber pre = false := by
      have hlast : ∀ (l : List Char), (∀ x ∈ l, x.isDigit = false) →
          l.getLast?.any Char.isDigit = false := by
        intro l hl
        cases hlast : l.getLast? with
        | none => rfl
        | some c => exact hl c (List.mem_of_getLast? hlast)
      rw [endsNumber, hlast pre hpre,
        hlast pre.dropLast fun x hx => hpre x (List.dropLast_subset _ hx)]
      simp
    rw [tripleAt, List.take_left, hends, List.drop_left]
    exact h
  have hpos : s ≠ [] := by
    rintro rfl
    simp [tripleFrom, number, leadingU64, leadingDigits, parseUnsigned] at h
  obtain ⟨k, hk⟩ : ∃ k, s.length = k + 1 := ⟨s.length - 1, by
    have := List.length_pos_iff.mpr hpos
    omega⟩
  rw [firstTriple, List.length_append, List.range_add, List.findSome?_append,
    List.findSome?_eq_none_iff.mpr hnone, Option.none_or, hk, List.range_succ_eq_map]
  simp [hhere]

theorem plain_spec {tok : List Char} (h : Plain tok) :
    ∃ v, Loose tok v ∧ firstTriple tok = some v := by
  obtain ⟨pre, s, rfl, hpre, hsome⟩ := h
  obtain ⟨v, hv⟩ := Option.isSome_iff_exists.mp hsome
  exact ⟨v, loose_of_tripleFrom hpre hv, firstTriple_plain hpre hv⟩

/-! ### Which texts are read right -/

theorem parse_cons_loose {tok : List Char} {v : Semver} (h : Loose tok v)
    (toks : List (List Char)) : (tok :: toks).findSome? parseSemverToken = some v := by
  rw [List.findSome?_cons, parse_of_loose h]

theorem parse_cons_none {tok : List Char} (h : ∀ v, ¬ Loose tok v) (toks : List (List Char)) :
    (tok :: toks).findSome? parseSemverToken = toks.findSome? parseSemverToken := by
  rw [List.findSome?_cons, parse_eq_none h]

theorem readsRight_iff (toks : List (List Char)) :
    toks.findSome? parseSemverToken = toks.findSome? firstTriple ↔ ReadsRight toks := by
  induction toks with
  | nil => exact ⟨fun _ => .none, fun _ => rfl⟩
  | cons tok toks ih =>
    constructor
    · intro h
      by_cases hloose : ∃ v, Loose tok v
      · obtain ⟨v, hv⟩ := hloose
        rw [parse_cons_loose hv] at h
        exact .sameNumbers hv h.symm
      have hnone : ∀ v, ¬ Loose tok v := fun v hv => hloose ⟨v, hv⟩
      rw [parse_cons_none hnone] at h
      cases hfirst : firstTriple tok with
      | none =>
        rw [List.findSome?_cons, hfirst] at h
        exact .skip hnone hfirst (ih.mp h)
      | some v =>
        rw [List.findSome?_cons, hfirst, List.findSome?_eq_some_iff] at h
        obtain ⟨before, later, after, rfl, hlater, hbefore⟩ := h
        refine .sameLater hnone hfirst (fun t ht w hw => ?_) (parse_iff.mp hlater)
        have := hbefore t ht
        rw [parse_of_loose hw] at this
        exact absurd this (by simp)
    · intro h
      cases h with
      | skip hnone hfirst hrest =>
        rw [parse_cons_none hnone, ih.mpr hrest, List.findSome?_cons, hfirst]
      | plain hplain =>
        obtain ⟨v, hloose, hfirst⟩ := plain_spec hplain
        rw [parse_cons_loose hloose, List.findSome?_cons, hfirst]
      | sameNumbers hloose hsame => rw [parse_cons_loose hloose, hsame]
      | @sameLater _ before after later v hnone hfirst hbefore hlater =>
        rw [parse_cons_none hnone, List.findSome?_cons, hfirst, List.findSome?_eq_some_iff]
        exact ⟨before, later, after, rfl, parse_of_loose hlater,
          fun t ht => parse_eq_none (hbefore t ht)⟩

/-- The first dotted triple of a text is returned, and nothing when there is none, exactly on the
texts that are read right. -/
theorem parseSidecarVersion_iff (text : String) :
    parseSidecarVersion text = textTriple text ↔ ReadsRight (tokens text) :=
  readsRight_iff (tokens text)

/-- The digit of the name is taken for the major version. -/
theorem java2_misread : parseSidecarVersion "scip-java2-1.2.3" = some ⟨2, 2, 3⟩ ∧
    textTriple "scip-java2-1.2.3" = some ⟨1, 2, 3⟩ := by
  decide +kernel

end Travsr.PluginHost
