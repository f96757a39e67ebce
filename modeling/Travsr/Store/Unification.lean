import Mathlib.Data.List.MinMax
import Mathlib.Data.Prod.Lex
import Travsr.Store.PhaseB

namespace Travsr.Store

open Travsr.Core Core.Text

def NODE_EXACT_LOOKUP_LIMIT : Nat := 21

/-- `path LIKE '%/' || hint`: letters of either case are alike. -/
def likeSuffix (path hint : String) : Bool :=
  endsWith (toAsciiLowercase path) (toAsciiLowercase ("/" ++ hint))

/-- The nodes of a signature in files that the hint names or ends the name of. -/
def lookupNodesExact (nodes : NodeTable) (signature : String) (pathHint : Option String) :
    List NodeRow :=
  ((nodes.rows.filter fun r => r.vname.signature = signature ∧ r.kind ∉ ["file", "import"] ∧
      pathHint.all fun hint => r.vname.path = hint || likeSuffix r.vname.path hint).insertionSort
    fun a b => toI64 a.id ≤ toI64 b.id).take NODE_EXACT_LOOKUP_LIMIT

/-- A row of the nodes table that has a line. -/
structure Placed where
  row : NodeRow
  line : Nat
  deriving DecidableEq

def Rank : Type := ℕ ×ₗ ℤ ×ₗ ℕ ×ₗ ℕ

instance : LinearOrder Rank :=
  letI : LinearOrder ℕ := Nat.instLinearOrder
  letI : LinearOrder ℤ := Int.instLinearOrder
  inferInstanceAs (LinearOrder (ℕ ×ₗ ℤ ×ₗ ℕ ×ₗ ℕ))

def Rank.of (a : ℕ) (b : ℤ) (c d : ℕ) : Rank := toLex (a, toLex (b, toLex (c, d)))

theorem Rank.of_lt_of {a a' c c' d d' : ℕ} {b b' : ℤ} :
    Rank.of a b c d < Rank.of a' b' c' d' ↔
      a < a' ∨ (a = a' ∧ (b < b' ∨ (b = b' ∧ (c < c' ∨ (c = c' ∧ d < d'))))) := by
  have h : (toLex (a, toLex (b, toLex (c, d))) : ℕ ×ₗ ℤ ×ₗ ℕ ×ₗ ℕ) <
      toLex (a', toLex (b', toLex (c', d'))) ↔
      a < a' ∨ (a = a' ∧ (b < b' ∨ (b = b' ∧ (c < c' ∨ (c = c' ∧ d < d'))))) := by
    simp only [Prod.Lex.toLex_lt_toLex]
  exact h

namespace Placed

/-- `COALESCE(end_line, line)`. -/
def lastLine (p : Placed) : Nat := p.row.endLine.getD p.line

/-- `?line BETWEEN line AND COALESCE(end_line, line)`. -/
def Spans (p : Placed) (scipLine : Nat) : Prop := p.line ≤ scipLine ∧ scipLine ≤ p.lastLine

instance (p : Placed) (scipLine : Nat) : Decidable (p.Spans scipLine) :=
  inferInstanceAs (Decidable (_ ∧ _))

def width (p : Placed) : Int := (p.lastLine : Int) - p.line

/-- `ABS(line - ?line)`. -/
def distance (p : Placed) (scipLine : Nat) : Nat := ((p.line : Int) - scipLine).natAbs

/-- What the query orders by: spans first, then the narrowest, the first signature, the nearest. -/
def rank (p : Placed) (signatures : List String) (scipLine : Nat) : Rank :=
  Rank.of (if p.Spans scipLine then 0 else 1) p.width (signatures.idxOf p.row.vname.signature)
    (p.distance scipLine)

end Placed

def candidateRows (nodes : NodeTable) (corpus path : String) (signatures : List String) :
    List Placed :=
  ((fileRows nodes corpus path).filter fun r => r.vname.signature ∈ signatures).filterMap fun r =>
    r.line.map (Placed.mk r)

section

variable {p g : Placed}

theorem mem_candidateRows {nodes : NodeTable} {corpus path : String} {signatures : List String} :
    p ∈ candidateRows nodes corpus path signatures ↔
      p.row ∈ fileRows nodes corpus path ∧ p.row.vname.signature ∈ signatures ∧
        p.row.line = some p.line := by
  simp only [candidateRows, List.mem_filterMap, List.mem_filter, decide_eq_true_eq,
    Option.map_eq_some_iff]
  constructor
  · rintro ⟨r, ⟨hfile, hsig⟩, line, hline, rfl⟩
    exact ⟨hfile, hsig, hline⟩
  · rintro ⟨hfile, hsig, hline⟩
    exact ⟨p.row, ⟨hfile, hsig⟩, p.line, hline, rfl⟩

theorem eq_of_id {nodes : NodeTable} {corpus corpus' path path' : String}
    {signatures signatures' : List String} (hp : p ∈ candidateRows nodes corpus path signatures)
    (hg : g ∈ candidateRows nodes corpus' path' signatures') (h : p.row.id = g.row.id) : p = g := by
  obtain ⟨hpf, _, hpl⟩ := mem_candidateRows.mp hp
  obtain ⟨hgf, _, hgl⟩ := mem_candidateRows.mp hg
  have hrow : p.row = g.row :=
    Relational.Table.eq_of_key (List.mem_filter.mp hpf).1 (List.mem_filter.mp hgf).1 h
  have hline : p.line = g.line := by
    rw [hrow, hgl] at hpl
    exact (Option.some.inj hpl).symm
  cases p
  cases g
  simp_all

end

/-- The candidate whose span contains the line, or else one within `maxDelta` lines of it. -/
def findTsNodeForUnification (nodes : NodeTable) (corpus path : String) (signatures : List String)
    (scipLine maxDelta : Nat) : Option NodeId :=
  (((candidateRows nodes corpus path signatures).filter fun p =>
      p.Spans scipLine ∨ p.distance scipLine ≤ maxDelta).argmin fun p =>
    p.rank signatures scipLine).map fun p => p.row.id

def onlyId : List Placed → Option NodeId
  | [p] => some p.row.id
  | _ => none

def findUniqueTsNodeInFile (nodes : NodeTable) (corpus path : String) (signatures : List String) :
    Option NodeId :=
  onlyId (candidateRows nodes corpus path signatures)

def findUniqueTsNodeAcrossFiles (nodes : NodeTable) (corpus : String) (languages : List String)
    (signatures : List String) : Option NodeId :=
  onlyId ((nodes.rows.filter fun r => r.vname.corpus = corpus ∧ r.vname.language ∈ languages ∧
    r.vname.signature ∈ signatures).filterMap fun r => r.line.map (Placed.mk r))

/-- `signature LIKE 'scip:%'`. -/
def isScipSignature (signature : String) : Bool := startsWith (toAsciiLowercase signature) "scip:"

def phaseAIndexed (nodes : NodeTable) (corpus path : String) : Bool :=
  (fileRows nodes corpus path).any fun r => r.kind ≠ "file" && !isScipSignature r.vname.signature

end Travsr.Store

namespace Travsr.Store

open Travsr.Core

namespace Placed

/-- `?line BETWEEN line AND COALESCE(end_line, line)`, for any bound integer. -/
def SpansAt (p : Placed) (scipLine : Int) : Prop := p.line ≤ scipLine ∧ scipLine ≤ p.lastLine

instance (p : Placed) (scipLine : Int) : Decidable (p.SpansAt scipLine) :=
  inferInstanceAs (Decidable (_ ∧ _))

/-- `ABS(line - ?line)`. -/
def distanceAt (p : Placed) (scipLine : Int) : Nat := ((p.line : Int) - scipLine).natAbs

/-- `ABS(line - ?line) <= ?delta`. -/
def NearAt (p : Placed) (scipLine maxDelta : Int) : Prop := p.distanceAt scipLine ≤ maxDelta

instance (p : Placed) (scipLine maxDelta : Int) : Decidable (p.NearAt scipLine maxDelta) :=
  inferInstanceAs (Decidable (_ ≤ _))

/-- `CASE signature WHEN ..`: the place of the signature among the candidates. -/
def priority (p : Placed) (signatures : List String) : Nat := signatures.idxOf p.row.vname.signature

def rankAt (p : Placed) (signatures : List String) (scipLine : Int) : Rank :=
  Rank.of (if p.SpansAt scipLine then 0 else 1) p.width (p.priority signatures)
    (p.distanceAt scipLine)

theorem not_rankAt_lt {p q : Placed} {signatures : List String} {scipLine : Int}
    (h : ¬ q.rankAt signatures scipLine < p.rankAt signatures scipLine) :
    (q.SpansAt scipLine → p.SpansAt scipLine) ∧
      ((p.SpansAt scipLine ↔ q.SpansAt scipLine) → p.width < q.width ∨
        p.width = q.width ∧ p.priority signatures ≤ q.priority signatures) := by
  rw [rankAt, rankAt, Rank.of_lt_of] at h
  have hsame : (p.SpansAt scipLine ↔ q.SpansAt scipLine) →
      (if q.SpansAt scipLine then 0 else 1) = if p.SpansAt scipLine then 0 else 1 := by
    intro hiff
    simp only [hiff]
  refine ⟨fun hq => ?_, fun hiff => ?_⟩
  · by_contra hp
    rw [if_pos hq, if_neg hp] at h
    exact h (Or.inl Nat.zero_lt_one)
  · have heq := hsame hiff
    omega

end Placed

/-- `find_ts_node_for_unification` with the line and the window as the integers they are. -/
def findTsNodeForUnificationAt (nodes : NodeTable) (corpus path : String)
    (signatures : List String) (scipLine maxDelta : Int) : Option NodeId :=
  if signatures.isEmpty then none
  else
    (((candidateRows nodes corpus path signatures).filter fun p =>
        p.SpansAt scipLine ∨ p.NearAt scipLine maxDelta).argmin fun p =>
      p.rankAt signatures scipLine).map fun p => p.row.id

theorem candidateRows_nil (nodes : NodeTable) (corpus path : String) :
    candidateRows nodes corpus path [] = [] := by
  simp [candidateRows]

theorem findTsNodeForUnificationAt_natCast (nodes : NodeTable) (corpus path : String)
    (signatures : List String) (scipLine maxDelta : Nat) :
    findTsNodeForUnificationAt nodes corpus path signatures scipLine maxDelta =
      findTsNodeForUnification nodes corpus path signatures scipLine maxDelta := by
  have hspans : ∀ p : Placed, p.SpansAt scipLine ↔ p.Spans scipLine := fun p => by
    rw [Placed.SpansAt, Placed.Spans, Int.ofNat_le, Int.ofNat_le]
  have hnear : ∀ p : Placed, p.NearAt scipLine maxDelta ↔ p.distance scipLine ≤ maxDelta :=
    fun p => by
      rw [Placed.NearAt, Int.ofNat_le]
      rfl
  have hrank : ∀ p : Placed, p.rankAt signatures scipLine = p.rank signatures scipLine :=
    fun p => by
      rw [Placed.rankAt, Placed.rank]
      simp only [hspans]
      rfl
  rw [findTsNodeForUnificationAt, findTsNodeForUnification]
  simp only [hspans, hnear, hrank]
  split_ifs with hempty
  · rw [List.isEmpty_iff.mp hempty, candidateRows_nil]
    rfl
  · rfl

section

variable {nodes : NodeTable} {corpus path : String} {signatures : List String}
  {scipLine maxDelta : Int}

/-- What the lookup promises: the narrowest span around the line, ties by candidate order; without
one, a node within the window of the most specific signature that has one there. -/
structure Specific (nodes : NodeTable) (corpus path : String) (signatures : List String)
    (scipLine maxDelta : Int) (answer : Option NodeId) : Prop where
  spanning : (∃ p ∈ candidateRows nodes corpus path signatures, p.SpansAt scipLine) →
    ∃ p ∈ candidateRows nodes corpus path signatures, answer = some p.row.id ∧
      p.SpansAt scipLine ∧ ∀ q ∈ candidateRows nodes corpus path signatures, q.SpansAt scipLine →
        p.width < q.width ∨ p.width = q.width ∧ p.priority signatures ≤ q.priority signatures
  nearby : (∀ p ∈ candidateRows nodes corpus path signatures, ¬ p.SpansAt scipLine) →
    (∃ p ∈ candidateRows nodes corpus path signatures, p.NearAt scipLine maxDelta) →
      ∃ p ∈ candidateRows nodes corpus path signatures, answer = some p.row.id ∧
        p.NearAt scipLine maxDelta ∧ ∀ q ∈ candidateRows nodes corpus path signatures,
          q.NearAt scipLine maxDelta → p.priority signatures ≤ q.priority signatures
  absent : (∀ p ∈ candidateRows nodes corpus path signatures,
    ¬ p.SpansAt scipLine ∧ ¬ p.NearAt scipLine maxDelta) → answer = none

theorem find_eq_some {id : NodeId}
    (h : findTsNodeForUnificationAt nodes corpus path signatures scipLine maxDelta = some id) :
    ∃ m ∈ candidateRows nodes corpus path signatures, m.row.id = id ∧
      (m.SpansAt scipLine ∨ m.NearAt scipLine maxDelta) ∧
        ∀ q ∈ candidateRows nodes corpus path signatures,
          q.SpansAt scipLine ∨ q.NearAt scipLine maxDelta →
            ¬ q.rankAt signatures scipLine < m.rankAt signatures scipLine := by
  rw [findTsNodeForUnificationAt] at h
  split_ifs at h with hempty
  obtain ⟨m, hm, rfl⟩ := Option.map_eq_some_iff.mp h
  obtain ⟨hrow, hnear⟩ := List.mem_filter.mp (List.argmin_mem hm)
  refine ⟨m, hrow, rfl, by simpa using hnear, fun q hq hnear' => ?_⟩
  exact List.not_lt_of_mem_argmin (List.mem_filter.mpr ⟨hq, by simpa using hnear'⟩) hm

theorem find_eq_none
    (h : findTsNodeForUnificationAt nodes corpus path signatures scipLine maxDelta = none) :
    ∀ p ∈ candidateRows nodes corpus path signatures,
      ¬ p.SpansAt scipLine ∧ ¬ p.NearAt scipLine maxDelta := by
  rw [findTsNodeForUnificationAt] at h
  split_ifs at h with hempty
  · rw [List.isEmpty_iff.mp hempty, candidateRows_nil]
    exact fun p hp => absurd hp List.not_mem_nil
  · intro p hp
    have hnil := List.argmin_eq_none.mp (Option.map_eq_none_iff.mp h)
    have hnot := List.filter_eq_nil_iff.mp hnil p hp
    simpa using hnot

/-- The promise is kept exactly where a candidate spans the line, none is within the window, or in
the window a node of the most specific signature is as narrow as every other. -/
theorem findTsNodeForUnification_specific_iff (nodes : NodeTable) (corpus path : String)
    (signatures : List String) (scipLine maxDelta : Int) :
    Specific nodes corpus path signatures scipLine maxDelta
        (findTsNodeForUnificationAt nodes corpus path signatures scipLine maxDelta) ↔
      (∃ p ∈ candidateRows nodes corpus path signatures, p.SpansAt scipLine) ∨
        (∀ p ∈ candidateRows nodes corpus path signatures, ¬ p.NearAt scipLine maxDelta) ∨
          ∃ p ∈ candidateRows nodes corpus path signatures, p.NearAt scipLine maxDelta ∧
            ∀ q ∈ candidateRows nodes corpus path signatures, q.NearAt scipLine maxDelta →
              p.priority signatures ≤ q.priority signatures ∧ p.width ≤ q.width := by
  cases hfind : findTsNodeForUnificationAt nodes corpus path signatures scipLine maxDelta with
  | none =>
    have hnone := find_eq_none hfind
    refine iff_of_true ⟨?_, ?_, fun _ => rfl⟩ (Or.inr (Or.inl fun p hp => (hnone p hp).2))
    · rintro ⟨p, hp, hspans⟩
      exact absurd hspans (hnone p hp).1
    · rintro _ ⟨p, hp, hnear⟩
      exact absurd hnear (hnone p hp).2
  | some id =>
    obtain ⟨m, hm, rfl, hmnear, hleast⟩ := find_eq_some hfind
    have hspanning : (∃ p ∈ candidateRows nodes corpus path signatures, p.SpansAt scipLine) →
        m.SpansAt scipLine := by
      rintro ⟨p, hp, hspans⟩
      exact (Placed.not_rankAt_lt (hleast p hp (Or.inl hspans))).1 hspans
    apply Iff.intro
    · intro h
      by_cases hany : ∃ p ∈ candidateRows nodes corpus path signatures, p.SpansAt scipLine
      · exact Or.inl hany
      · have hno : ∀ p ∈ candidateRows nodes corpus path signatures, ¬ p.SpansAt scipLine :=
          fun p hp hspans => hany ⟨p, hp, hspans⟩
        have hmn := hmnear.resolve_left (hno m hm)
        obtain ⟨p, hp, hid, hpn, hprio⟩ := h.nearby hno ⟨m, hm, hmn⟩
        obtain rfl : m = p := eq_of_id hm hp (Option.some.inj hid)
        refine Or.inr (Or.inr ⟨m, hm, hmn, fun q hq hqn => ⟨hprio q hq hqn, ?_⟩⟩)
        have horder := (Placed.not_rankAt_lt (hleast q hq (Or.inr hqn))).2
          (iff_of_false (hno m hm) (hno q hq))
        omega
    · intro h
      refine ⟨fun hany => ⟨m, hm, rfl, hspanning hany, fun q hq hspans => ?_⟩, ?_, ?_⟩
      · exact (Placed.not_rankAt_lt (hleast q hq (Or.inl hspans))).2
          (iff_of_true (hspanning hany) hspans)
      · intro hno hnear
        have hmn := hmnear.resolve_left (hno m hm)
        rcases h with ⟨p, hp, hspans⟩ | hnone | ⟨p, hp, hpn, hall⟩
        · exact absurd hspans (hno p hp)
        · exact absurd hmn (hnone m hm)
        · refine ⟨m, hm, rfl, hmn, fun q hq hqn => ?_⟩
          have horder := (Placed.not_rankAt_lt (hleast p hp (Or.inr hpn))).2
            (iff_of_false (hno m hm) (hno p hp))
          have hwidth := (hall m hm hmn).2
          have hprio := (hall q hq hqn).1
          omega
      · intro hnone
        exact absurd hmnear (not_or.mpr (hnone m hm))

end

/-- A method over several lines and a free function of one, neither around the line. -/
def shadowedNodes : NodeTable :=
  ⟨⟨[⟨1, ⟨"a", "", "s.go", "go", "method:Server.Serve"⟩, "method", "", some 12, some 20, false,
      .none, none⟩,
    ⟨2, ⟨"a", "", "s.go", "go", "fn:Serve"⟩, "function", "", some 8, some 8, false, .none, none⟩],
    by decide⟩, by decide⟩

theorem narrow_namesake_shadows :
    findTsNodeForUnificationAt shadowedNodes "a" "s.go" ["method:Server.Serve", "fn:Serve"] 10 3 =
        some 2 ∧
      ¬ Specific shadowedNodes "a" "s.go" ["method:Server.Serve", "fn:Serve"] 10 3
        (findTsNodeForUnificationAt shadowedNodes "a" "s.go" ["method:Server.Serve", "fn:Serve"]
          10 3) := by
  have hfind : findTsNodeForUnificationAt shadowedNodes "a" "s.go"
      ["method:Server.Serve", "fn:Serve"] 10 3 = some 2 := by decide
  refine ⟨hfind, fun h => ?_⟩
  rw [hfind] at h
  obtain ⟨p, hp, hid, _, hprio⟩ := h.nearby (by decide) (by decide)
  revert p
  decide

end Travsr.Store
