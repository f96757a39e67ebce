import Mathlib.Algebra.Order.Field.Basic
import Mathlib.Data.Finset.Basic
import Mathlib.Data.List.Count
import Mathlib.Tactic.Linarith
import Travsr.Core.Types
import Travsr.Lib.Table

namespace Travsr.Mcp

open Travsr.Core Relational

inductive Confidence where
  | exact
  | strong
  | weak
  | none
  deriving DecidableEq, Repr

structure ResolvedTerm where
  token : String
  resolved : Bool
  symbolFreq : Nat
  idfW : ℚ
  topNode : Option NodeId
  anchorsEmitted : Nat
  deriving DecidableEq, Repr

/-- The cosine scale of the active embedding model: the cosines of the unrelated and of a match. -/
structure Calibration where
  lo : ℚ
  hi : ℚ
  lt : lo < hi
  deriving DecidableEq

namespace Calibration

def refLo : ℚ := 11 / 20

def refHi : ℚ := 77 / 100

def identity : Calibration := ⟨refLo, refHi, by norm_num [refLo, refHi]⟩

def map (cal : Calibration) (refCos : ℚ) : ℚ :=
  max (-1) (min 1 (cal.lo + (refCos - refLo) / (refHi - refLo) * (cal.hi - cal.lo)))

def mapDelta (cal : Calibration) (refDelta : ℚ) : ℚ :=
  refDelta * (cal.hi - cal.lo) / (refHi - refLo)

end Calibration

def semanticOracleMin : ℚ := 29 / 50

def semanticRelDelta : ℚ := 13 / 100

def semanticAbsFloor : ℚ := 11 / 20

def semanticRecallFloorRef : ℚ := 13 / 20

def recallFloorIdentity : ℚ := 3 / 4

/-- The numbers the environment can override. -/
structure Floors where
  rareAnchorMax : Nat := 3
  coverageStrong : ℚ := 3 / 5
  coverageWeak : ℚ := 1 / 4
  bm25StrongFloor : ℚ := 1 / 2
  idfCoverageMin : ℚ := 11 / 20
  confirmAnchorFloor : ℚ := 33 / 50
  semanticPromoteStrong : ℚ := 18 / 25
  semanticPromoteMinNear : Nat := 3
  semanticVetoFloor : ℚ := 11 / 20
  rerankWeakFloor : ℚ := 1 / 2
  rerankStrongFloor : ℚ := 4 / 5
  recallFloorOverride : Option ℚ := none

def semanticRecallFloor (fl : Floors) (cal : Calibration) : ℚ :=
  match fl.recallFloorOverride with
  | some x => x
  | none =>
    if cal = .identity then recallFloorIdentity else cal.map semanticRecallFloorRef

abbrev Oracle := Table (NodeId × ℚ) (Prod.fst : NodeId × ℚ → NodeId)

namespace Oracle

def values (o : Oracle) : List ℚ := o.rows.map Prod.snd

def get (o : Oracle) (id : NodeId) : Option ℚ := (o.find? id).map Prod.snd

/-- `fold(0.0, max)`. -/
def top (o : Oracle) : ℚ := o.values.foldl max 0

end Oracle

/-- What a query is judged by, but for the embedding. -/
structure Lexical where
  terms : List ResolvedTerm
  coverage : ℚ
  topBm25 : ℚ
  hasAnySeeds : Bool
  hasKnnSeeds : Bool

/-- What the embedding says: the neighbours' cosines, the anchors' cosines and which anchors were
scored. -/
structure Embedding where
  knnOracle : Oracle
  anchorOracle : Oracle
  scoredIds : Finset NodeId

/-! ### The lattice -/

section Lattice

variable (fl : Floors) (cal : Calibration) (l : Lexical) (e : Embedding)

def oracleConfident : Bool := cal.map semanticOracleMin ≤ e.knnOracle.top

/-- `floor`: near the top of the neighbours, and never below the absolute floor. -/
def cosineFloor : ℚ :=
  max (e.knnOracle.top - cal.mapDelta semanticRelDelta) (cal.map semanticAbsFloor)

def embedAgrees (t : ResolvedTerm) : Bool :=
  if oracleConfident cal e then
    match t.topNode with
    | some n =>
      match e.anchorOracle.get n with
      | some c => cosineFloor cal e ≤ c
      | none => n ∈ e.scoredIds
    | none => false
  else true

def isRare (t : ResolvedTerm) : Bool := t.symbolFreq ≤ fl.rareAnchorMax

def isSpecific (t : ResolvedTerm) : Bool := fl.idfCoverageMin ≤ t.idfW

def hasAnchor (p : ResolvedTerm → Bool) : Bool :=
  l.terms.any fun t => t.resolved && p t && embedAgrees cal e t

def hasRareAnchor : Bool := hasAnchor cal l e (isRare fl)

def hasSpecificAnchor : Bool := hasAnchor cal l e (isSpecific fl)

def confirmFloor : ℚ := max (cosineFloor cal e) (cal.map fl.confirmAnchorFloor)

def embedConfirmedSpecific : Bool :=
  oracleConfident cal e && l.terms.any fun t => t.resolved && isSpecific fl t &&
    (t.topNode.bind e.anchorOracle.get).any fun c => confirmFloor fl cal e ≤ c

def nOracleNear : Nat := e.knnOracle.values.countP fun c => cosineFloor cal e ≤ c

def semanticStrong : Bool :=
  l.hasAnySeeds && decide (cal.map fl.semanticPromoteStrong ≤ e.knnOracle.top) &&
    decide (fl.semanticPromoteMinNear ≤ nOracleNear cal e)

def semanticVeto : Bool :=
  !e.knnOracle.rows.isEmpty && decide (e.knnOracle.top < cal.map fl.semanticVetoFloor) &&
    !hasRareAnchor fl cal l e

def classifyConfidenceLexicalFallback : Confidence :=
  if hasRareAnchor fl cal l e ∧ fl.coverageStrong ≤ l.coverage then .exact
  else if hasSpecificAnchor fl cal l e ∧ fl.coverageStrong ≤ l.coverage then .strong
  else if embedConfirmedSpecific fl cal l e ∧ fl.coverageWeak ≤ l.coverage then .strong
  else if semanticStrong fl cal l e then .strong
  else if oracleConfident cal e = false ∧ fl.bm25StrongFloor ≤ l.topBm25 ∧
      fl.coverageStrong ≤ l.coverage then .strong
  else if semanticVeto fl cal l e then .none
  else if l.hasAnySeeds ∧ (fl.coverageWeak ≤ l.coverage ∨ hasSpecificAnchor fl cal l e) then .weak
  else .none

def baseConfidence (g1Bypass : Bool) (rerankScore : Option ℚ) : Confidence :=
  if g1Bypass then classifyConfidenceLexicalFallback fl cal l e
  else
    match rerankScore with
    | some r =>
      if max fl.rerankStrongFloor fl.rerankWeakFloor ≤ r then .strong
      else if fl.rerankWeakFloor ≤ r then .weak
      else .none
    | none => classifyConfidenceLexicalFallback fl cal l e

def classifyConfidence (g1Bypass : Bool) (rerankScore : Option ℚ) : Confidence :=
  if baseConfidence fl cal l e g1Bypass rerankScore = .none ∧ g1Bypass = false ∧ cal ≠ .identity ∧
      semanticRecallFloor fl cal ≤ e.knnOracle.top then .weak
  else baseConfidence fl cal l e g1Bypass rerankScore

end Lattice

/-! ### What an embedding can say -/

theorem Oracle.foldl_max (xs : List ℚ) (a : ℚ) :
    a ≤ xs.foldl max a ∧ (∀ x ∈ xs, x ≤ xs.foldl max a) ∧
      (xs.foldl max a = a ∨ xs.foldl max a ∈ xs) := by
  induction xs generalizing a with
  | nil => exact ⟨le_rfl, fun x hx => absurd hx List.not_mem_nil, .inl rfl⟩
  | cons y ys ih =>
    obtain ⟨hstart, hall, hfrom⟩ := ih (max a y)
    rw [List.foldl_cons]
    refine ⟨(le_max_left a y).trans hstart, fun x hx => ?_, ?_⟩
    · rcases List.mem_cons.mp hx with rfl | hx
      · exact (le_max_right a x).trans hstart
      · exact hall x hx
    · rcases hfrom with heq | hmem
      · rw [heq]
        rcases max_choice a y with hmax | hmax
        · exact .inl hmax
        · rw [hmax]
          exact .inr List.mem_cons_self
      · exact .inr (List.mem_cons_of_mem _ hmem)

theorem Oracle.top_nonneg (o : Oracle) : 0 ≤ o.top := (Oracle.foldl_max o.values 0).1

theorem Oracle.top_mem {o : Oracle} (h : 0 < o.top) : o.top ∈ o.values := by
  rcases (Oracle.foldl_max o.values 0).2.2 with hzero | hmem
  · exact absurd hzero (ne_of_gt h)
  · exact hmem

namespace Calibration

variable {cal : Calibration}

theorem map_mono (cal : Calibration) {x y : ℚ} (h : x ≤ y) : cal.map x ≤ cal.map y := by
  have hband : 0 < refHi - refLo := by norm_num [refHi, refLo]
  have hwidth : 0 ≤ cal.hi - cal.lo := sub_nonneg.mpr cal.lt.le
  have hfrac : (x - refLo) / (refHi - refLo) ≤ (y - refLo) / (refHi - refLo) :=
    div_le_div_of_nonneg_right (sub_le_sub_right h refLo) hband.le
  have hin : cal.lo + (x - refLo) / (refHi - refLo) * (cal.hi - cal.lo) ≤
      cal.lo + (y - refLo) / (refHi - refLo) * (cal.hi - cal.lo) :=
    add_le_add_right (mul_le_mul_of_nonneg_right hfrac hwidth) cal.lo
  exact max_le_max le_rfl (min_le_min le_rfl hin)

theorem map_le_one (cal : Calibration) (x : ℚ) : cal.map x ≤ 1 :=
  max_le (by norm_num) (min_le_left _ _)

theorem mapDelta_nonneg (cal : Calibration) {x : ℚ} (h : 0 ≤ x) : 0 ≤ cal.mapDelta x := by
  have hband : 0 < refHi - refLo := by norm_num [refHi, refLo]
  exact div_nonneg (mul_nonneg h (sub_nonneg.mpr cal.lt.le)) hband.le

end Calibration

/-- A term that resolved, of the kind. -/
def Names (l : Lexical) (p : ResolvedTerm → Bool) : Prop :=
  ∃ t ∈ l.terms, t.resolved = true ∧ p t = true

/-- The same, and it has a node that an embedding can score. -/
def NamesNode (l : Lexical) (p : ResolvedTerm → Bool) : Prop :=
  ∃ t ∈ l.terms, t.resolved = true ∧ p t = true ∧ t.topNode.isSome = true

variable {fl : Floors} {cal : Calibration} {l : Lexical} {e : Embedding}

theorem hasAnchor_iff {p : ResolvedTerm → Bool} : hasAnchor cal l e p = true ↔
    ∃ t ∈ l.terms, t.resolved = true ∧ p t = true ∧ embedAgrees cal e t = true := by
  unfold hasAnchor
  rw [List.any_eq_true]
  simp only [Bool.and_eq_true, and_assoc]

theorem hasAnchor_of_silent {p : ResolvedTerm → Bool} (h : oracleConfident cal e = false) :
    hasAnchor cal l e p = true ↔ Names l p := by
  rw [hasAnchor_iff]
  unfold embedAgrees Names
  rw [h]
  simp

theorem namesNode_of_hasAnchor {p : ResolvedTerm → Bool} (hconf : oracleConfident cal e = true)
    (h : hasAnchor cal l e p = true) : NamesNode l p := by
  obtain ⟨t, ht, hr, hp, hagree⟩ := hasAnchor_iff.mp h
  unfold embedAgrees at hagree
  rw [hconf, if_pos rfl] at hagree
  cases hn : t.topNode with
  | none =>
    rw [hn] at hagree
    cases hagree
  | some n => exact ⟨t, ht, hr, hp, by rw [hn]; rfl⟩

theorem namesNode_of_confirmed (h : embedConfirmedSpecific fl cal l e = true) :
    oracleConfident cal e = true ∧ NamesNode l (isSpecific fl) := by
  unfold embedConfirmedSpecific at h
  obtain ⟨hconf, hany⟩ := Bool.and_eq_true_iff.mp h
  obtain ⟨t, ht, htrue⟩ := List.any_eq_true.mp hany
  simp only [Bool.and_eq_true] at htrue
  obtain ⟨⟨hr, hs⟩, hcos⟩ := htrue
  refine ⟨hconf, t, ht, hr, hs, ?_⟩
  cases hn : t.topNode with
  | none =>
    rw [hn] at hcos
    cases hcos
  | some n => rfl

theorem one_le_nOracleNear (hconf : oracleConfident cal e = true) (hpos : 0 < e.knnOracle.top) :
    1 ≤ nOracleNear cal e := by
  have hmin : cal.map semanticOracleMin ≤ e.knnOracle.top := of_decide_eq_true hconf
  have habs : cal.map semanticAbsFloor ≤ cal.map semanticOracleMin :=
    cal.map_mono (by norm_num [semanticAbsFloor, semanticOracleMin])
  have hdelta : 0 ≤ cal.mapDelta semanticRelDelta :=
    cal.mapDelta_nonneg (by norm_num [semanticRelDelta])
  have hfloor : cosineFloor cal e ≤ e.knnOracle.top :=
    max_le (sub_le_self _ hdelta) (habs.trans hmin)
  exact List.countP_pos_iff.mpr ⟨e.knnOracle.top, Oracle.top_mem hpos, decide_eq_true hfloor⟩

end Travsr.Mcp

namespace Travsr.Mcp

open Travsr.Core Relational

variable {fl : Floors} {cal : Calibration} {l : Lexical} {e : Embedding}

/-! ### The lattice by its answers -/

/-- A gate to `Strong` is open. -/
def Lifted (fl : Floors) (cal : Calibration) (l : Lexical) (e : Embedding) : Prop :=
  (hasSpecificAnchor fl cal l e = true ∧ fl.coverageStrong ≤ l.coverage) ∨
  (embedConfirmedSpecific fl cal l e = true ∧ fl.coverageWeak ≤ l.coverage) ∨
  semanticStrong fl cal l e = true ∨
  (oracleConfident cal e = false ∧ fl.bm25StrongFloor ≤ l.topBm25 ∧
    fl.coverageStrong ≤ l.coverage)

theorem fallback_eq_strong_iff : classifyConfidenceLexicalFallback fl cal l e = .strong ↔
    ¬ (hasRareAnchor fl cal l e = true ∧ fl.coverageStrong ≤ l.coverage) ∧ Lifted fl cal l e := by
  unfold classifyConfidenceLexicalFallback Lifted
  split_ifs <;> simp_all

theorem fallback_eq_none_iff (hseeds : l.hasAnySeeds = false) :
    classifyConfidenceLexicalFallback fl cal l e = .none ↔
      ¬ (hasRareAnchor fl cal l e = true ∧ fl.coverageStrong ≤ l.coverage) ∧
        ¬ Lifted fl cal l e := by
  unfold classifyConfidenceLexicalFallback Lifted
  split_ifs <;> simp_all

theorem semanticStrong_iff : semanticStrong fl cal l e = true ↔ l.hasAnySeeds = true ∧
    cal.map fl.semanticPromoteStrong ≤ e.knnOracle.top ∧
      fl.semanticPromoteMinNear ≤ nOracleNear cal e := by
  unfold semanticStrong
  simp [and_assoc]

/-! ### Embeddings to ask -/

def scoring (ids : List NodeId) (c : ℚ) : Oracle where
  rows := ids.dedup.map fun id => (id, c)
  nodup := by
    rw [List.map_map]
    exact (List.nodup_dedup ids).map fun _ _ h => h

theorem scoring_get {ids : List NodeId} {id : NodeId} (h : id ∈ ids) (c : ℚ) :
    (scoring ids c).get id = some c := by
  have hmem : (id, c) ∈ scoring ids c :=
    List.mem_map.mpr ⟨id, List.mem_dedup.mpr h, rfl⟩
  unfold Oracle.get
  rw [Table.mem_iff_find?.mp hmem]
  rfl

theorem scoring_values {ids : List NodeId} {c : ℚ} :
    (scoring ids c).values = List.replicate ids.dedup.length c := by
  unfold Oracle.values scoring
  rw [List.map_map]
  exact List.map_const

theorem scoring_top {ids : List NodeId} {c : ℚ} (hne : ids ≠ []) (hc : 0 ≤ c) :
    (scoring ids c).top = c := by
  have hlen : ids.dedup.length ≠ 0 := by
    rw [Ne, List.length_eq_zero_iff, List.dedup_eq_nil]
    exact hne
  obtain ⟨hstart, hall, hfrom⟩ := Oracle.foldl_max (scoring ids c).values 0
  have hle : c ≤ (scoring ids c).top := by
    apply hall
    rw [scoring_values]
    exact List.mem_replicate.mpr ⟨hlen, rfl⟩
  rcases hfrom with hzero | hmem
  · exact le_antisymm (hzero.le.trans hc) hle
  · have hin : (scoring ids c).top ∈ List.replicate ids.dedup.length c := scoring_values ▸ hmem
    exact (List.mem_replicate.mp hin).2

def silent : Embedding := ⟨Table.empty, Table.empty, ∅⟩

def unheard (ids : List NodeId) (c : ℚ) : Embedding := ⟨scoring ids c, Table.empty, ∅⟩

def agreeing (l : Lexical) : Embedding :=
  ⟨scoring [0] 1, scoring (l.terms.filterMap ResolvedTerm.topNode) 1, ∅⟩

theorem confident_of_top (h : cal.map semanticOracleMin ≤ e.knnOracle.top) :
    oracleConfident cal e = true := decide_eq_true h

theorem unheard_hasAnchor {ids : List NodeId} {c : ℚ} {p : ResolvedTerm → Bool}
    (hconf : oracleConfident cal (unheard ids c) = true) :
    hasAnchor cal l (unheard ids c) p = false := by
  rw [Bool.eq_false_iff]
  intro h
  obtain ⟨t, ht, hr, hp, hagree⟩ := hasAnchor_iff.mp h
  unfold embedAgrees at hagree
  rw [hconf, if_pos rfl] at hagree
  cases hn : t.topNode with
  | none =>
    rw [hn] at hagree
    cases hagree
  | some n =>
    rw [hn] at hagree
    exact absurd (of_decide_eq_true hagree) (Finset.notMem_empty n)

theorem unheard_confirmed {ids : List NodeId} {c : ℚ} :
    embedConfirmedSpecific fl cal l (unheard ids c) = false := by
  rw [Bool.eq_false_iff]
  intro h
  obtain ⟨_, hany⟩ := Bool.and_eq_true_iff.mp h
  obtain ⟨t, ht, htrue⟩ := List.any_eq_true.mp hany
  obtain ⟨_, hcos⟩ := Bool.and_eq_true_iff.mp htrue
  cases hn : t.topNode with
  | none =>
    rw [hn] at hcos
    cases hcos
  | some n =>
    rw [hn] at hcos
    cases hcos

theorem unheard_lifted_iff {ids : List NodeId} {c : ℚ}
    (hconf : oracleConfident cal (unheard ids c) = true) :
    classifyConfidenceLexicalFallback fl cal l (unheard ids c) = .strong ↔
      semanticStrong fl cal l (unheard ids c) = true := by
  have hrare : hasRareAnchor fl cal l (unheard ids c) = false := unheard_hasAnchor hconf
  have hspecific : hasSpecificAnchor fl cal l (unheard ids c) = false := unheard_hasAnchor hconf
  rw [fallback_eq_strong_iff, Lifted, hrare, hspecific, unheard_confirmed, hconf]
  simp

theorem agreeing_cosineFloor (cal : Calibration) (l : Lexical) :
    oracleConfident cal (agreeing l) = true ∧ cosineFloor cal (agreeing l) ≤ 1 := by
  have htop : (agreeing l).knnOracle.top = 1 := scoring_top (by simp) zero_le_one
  have hdelta : 0 ≤ cal.mapDelta semanticRelDelta :=
    cal.mapDelta_nonneg (by norm_num [semanticRelDelta])
  refine ⟨confident_of_top (htop ▸ cal.map_le_one _), ?_⟩
  rw [cosineFloor, htop]
  exact max_le (sub_le_self _ hdelta) (cal.map_le_one _)

theorem agreeing_get {t : ResolvedTerm} (ht : t ∈ l.terms) {n : NodeId} (hn : t.topNode = some n) :
    (agreeing l).anchorOracle.get n = some 1 :=
  scoring_get (List.mem_filterMap.mpr ⟨t, ht, hn⟩) 1

theorem agreeing_hasAnchor {p : ResolvedTerm → Bool} (h : NamesNode l p) :
    hasAnchor cal l (agreeing l) p = true := by
  obtain ⟨t, ht, hr, hp, hnode⟩ := h
  obtain ⟨n, hn⟩ := Option.isSome_iff_exists.mp hnode
  obtain ⟨hconf, hfloor⟩ := agreeing_cosineFloor cal l
  refine hasAnchor_iff.mpr ⟨t, ht, hr, hp, ?_⟩
  unfold embedAgrees
  rw [hconf, if_pos rfl, hn]
  dsimp only
  rw [agreeing_get ht hn]
  exact decide_eq_true hfloor

theorem agreeing_confirmed (h : NamesNode l (isSpecific fl)) :
    embedConfirmedSpecific fl cal l (agreeing l) = true := by
  obtain ⟨t, ht, hr, hp, hnode⟩ := h
  obtain ⟨n, hn⟩ := Option.isSome_iff_exists.mp hnode
  obtain ⟨hconf, hfloor⟩ := agreeing_cosineFloor cal l
  have hconfirm : confirmFloor fl cal (agreeing l) ≤ 1 := max_le hfloor (cal.map_le_one _)
  unfold embedConfirmedSpecific
  rw [hconf, Bool.true_and, List.any_eq_true]
  refine ⟨t, ht, ?_⟩
  rw [hr, hp, hn, Option.bind_some, agreeing_get ht hn]
  simpa using hconfirm

/-! ### When no embedding moves the verdict -/

/-- Without seeds: nothing that an embedding confirms, or leaves alone, lifts the verdict. -/
structure SettledNone (fl : Floors) (cal : Calibration) (l : Lexical) : Prop where
  strong : ¬ ((NamesNode l (isRare fl) ∨ NamesNode l (isSpecific fl)) ∧
    fl.coverageStrong ≤ l.coverage)
  weak : ¬ (NamesNode l (isSpecific fl) ∧ fl.coverageWeak ≤ l.coverage)
  lexical : 0 < cal.map semanticOracleMin → ¬ ((Names l (isRare fl) ∨ Names l (isSpecific fl) ∨
    fl.bm25StrongFloor ≤ l.topBm25) ∧ fl.coverageStrong ≤ l.coverage)

/-- With seeds: every confident oracle is promoted, nothing is exact, and what no confident oracle
judges is lifted too. -/
structure SettledStrong (fl : Floors) (cal : Calibration) (l : Lexical) : Prop where
  near : fl.semanticPromoteMinNear ≤ 1
  promote : cal.map fl.semanticPromoteStrong ≤ max (cal.map semanticOracleMin) 0
  exact : ¬ (NamesNode l (isRare fl) ∧ fl.coverageStrong ≤ l.coverage)
  lexical : 0 < cal.map semanticOracleMin →
    ¬ (Names l (isRare fl) ∧ fl.coverageStrong ≤ l.coverage) ∧
    ((Names l (isSpecific fl) ∨ fl.bm25StrongFloor ≤ l.topBm25) ∧ fl.coverageStrong ≤ l.coverage ∨
      cal.map fl.semanticPromoteStrong ≤ 0 ∧ fl.semanticPromoteMinNear = 0)
  always : cal.map semanticOracleMin ≤ 0 → fl.semanticPromoteMinNear = 0

def Settled (fl : Floors) (cal : Calibration) (l : Lexical) : Prop :=
  if l.hasAnySeeds then SettledStrong fl cal l else SettledNone fl cal l

theorem zero_lt_of_not_confident (h : oracleConfident cal e = false) :
    0 < cal.map semanticOracleMin := by
  have hlt : e.knnOracle.top < cal.map semanticOracleMin := not_le.mp (of_decide_eq_false h)
  exact (Oracle.top_nonneg _).trans_lt hlt

theorem SettledNone.fallback (h : SettledNone fl cal l) (hseeds : l.hasAnySeeds = false)
    (e : Embedding) : classifyConfidenceLexicalFallback fl cal l e = .none := by
  rw [fallback_eq_none_iff hseeds]
  cases hconf : oracleConfident cal e with
  | true =>
    refine ⟨fun hrare => ?_, ?_⟩
    · exact h.strong ⟨.inl (namesNode_of_hasAnchor hconf hrare.1), hrare.2⟩
    · rintro (hspecific | hconfirmed | hstrong | hbm25)
      · exact h.strong ⟨.inr (namesNode_of_hasAnchor hconf hspecific.1), hspecific.2⟩
      · exact h.weak ⟨(namesNode_of_confirmed hconfirmed.1).2, hconfirmed.2⟩
      · rw [(semanticStrong_iff.mp hstrong).1] at hseeds
        cases hseeds
      · rw [hconf] at hbm25
        cases hbm25.1
  | false =>
    have hlexical := h.lexical (zero_lt_of_not_confident hconf)
    refine ⟨fun hrare => ?_, ?_⟩
    · exact hlexical ⟨.inl ((hasAnchor_of_silent hconf).mp hrare.1), hrare.2⟩
    · rintro (hspecific | hconfirmed | hstrong | hbm25)
      · exact hlexical ⟨.inr (.inl ((hasAnchor_of_silent hconf).mp hspecific.1)), hspecific.2⟩
      · rw [(namesNode_of_confirmed hconfirmed.1).1] at hconf
        cases hconf
      · rw [(semanticStrong_iff.mp hstrong).1] at hseeds
        cases hseeds
      · exact hlexical ⟨.inr (.inr hbm25.2.1), hbm25.2.2⟩

theorem SettledStrong.fallback (h : SettledStrong fl cal l) (hseeds : l.hasAnySeeds = true)
    (e : Embedding) : classifyConfidenceLexicalFallback fl cal l e = .strong := by
  rw [fallback_eq_strong_iff]
  cases hconf : oracleConfident cal e with
  | true =>
    have hmin : cal.map semanticOracleMin ≤ e.knnOracle.top := of_decide_eq_true hconf
    refine ⟨fun hrare => h.exact ⟨namesNode_of_hasAnchor hconf hrare.1, hrare.2⟩,
      .inr (.inr (.inl (semanticStrong_iff.mpr ⟨hseeds, ?_, ?_⟩)))⟩
    · exact h.promote.trans (max_le hmin (Oracle.top_nonneg _))
    · rcases le_or_gt (cal.map semanticOracleMin) 0 with hle | hlt
      · rw [h.always hle]
        exact Nat.zero_le _
      · exact h.near.trans (one_le_nOracleNear hconf (hlt.trans_le hmin))
  | false =>
    obtain ⟨hexact, hlift⟩ := h.lexical (zero_lt_of_not_confident hconf)
    refine ⟨fun hrare => hexact ⟨(hasAnchor_of_silent hconf).mp hrare.1, hrare.2⟩, ?_⟩
    rcases hlift with ⟨hnamed, hcoverage⟩ | ⟨hpromote, hnear⟩
    · rcases hnamed with hspecific | hbm25
      · exact .inl ⟨(hasAnchor_of_silent hconf).mpr hspecific, hcoverage⟩
      · exact .inr (.inr (.inr ⟨hconf, hbm25, hcoverage⟩))
    · refine .inr (.inr (.inl (semanticStrong_iff.mpr ⟨hseeds, ?_, ?_⟩)))
      · exact hpromote.trans (Oracle.top_nonneg _)
      · rw [hnear]
        exact Nat.zero_le _

theorem crowd_semanticStrong (fl : Floors) (cal : Calibration) (hseeds : l.hasAnySeeds = true) :
    semanticStrong fl cal l (unheard (List.range (fl.semanticPromoteMinNear + 1)) 1) = true := by
  have htop : (scoring (List.range (fl.semanticPromoteMinNear + 1)) 1).top = 1 :=
    scoring_top (by simp) zero_le_one
  have hdelta : 0 ≤ cal.mapDelta semanticRelDelta :=
    cal.mapDelta_nonneg (by norm_num [semanticRelDelta])
  refine semanticStrong_iff.mpr ⟨hseeds, (cal.map_le_one _).trans_eq htop.symm, ?_⟩
  have hfloor : cosineFloor cal (unheard (List.range (fl.semanticPromoteMinNear + 1)) 1) ≤ 1 := by
    rw [cosineFloor, unheard, htop]
    exact max_le (sub_le_self _ hdelta) (cal.map_le_one _)
  rw [nOracleNear, unheard, scoring_values, List.countP_replicate, if_pos]
  · rw [(List.nodup_range).dedup, List.length_range]
    exact Nat.le_succ _
  · exact decide_eq_true hfloor

theorem unheard_confident {ids : List NodeId} (hne : ids ≠ []) :
    oracleConfident cal (unheard ids 1) = true := by
  have htop : (scoring ids 1).top = 1 := scoring_top hne zero_le_one
  exact confident_of_top ((cal.map_le_one _).trans_eq htop.symm)

theorem silent_top : silent.knnOracle.top = 0 := rfl

theorem silent_unconfident (h : 0 < cal.map semanticOracleMin) :
    oracleConfident cal silent = false := decide_eq_false (not_le.mpr h)

theorem settledNone_of_fallback (hseeds : l.hasAnySeeds = false)
    (h : ∀ e, classifyConfidenceLexicalFallback fl cal l e = .none) : SettledNone fl cal l := by
  obtain ⟨hexact, hlift⟩ := (fallback_eq_none_iff hseeds).mp (h (agreeing l))
  refine ⟨?_, ?_, fun hmin => ?_⟩
  · rintro ⟨hrare | hspecific, hcoverage⟩
    · exact hexact ⟨agreeing_hasAnchor hrare, hcoverage⟩
    · exact hlift (.inl ⟨agreeing_hasAnchor hspecific, hcoverage⟩)
  · rintro ⟨hspecific, hcoverage⟩
    exact hlift (.inr (.inl ⟨agreeing_confirmed hspecific, hcoverage⟩))
  · obtain ⟨hexact', hlift'⟩ := (fallback_eq_none_iff hseeds).mp (h silent)
    have hconf := silent_unconfident hmin
    rintro ⟨hrare | hspecific | hbm25, hcoverage⟩
    · exact hexact' ⟨(hasAnchor_of_silent hconf).mpr hrare, hcoverage⟩
    · exact hlift' (.inl ⟨(hasAnchor_of_silent hconf).mpr hspecific, hcoverage⟩)
    · exact hlift' (.inr (.inr (.inr ⟨hconf, hbm25, hcoverage⟩)))

theorem settledStrong_of_fallback
    (h : ∀ e, classifyConfidenceLexicalFallback fl cal l e = .strong) : SettledStrong fl cal l := by
  -- one neighbour at the least cosine that is confident
  have hpromote : cal.map fl.semanticPromoteStrong ≤ max (cal.map semanticOracleMin) 0 := by
    have htop : (scoring [0] (max (cal.map semanticOracleMin) 0)).top =
        max (cal.map semanticOracleMin) 0 := scoring_top (by simp) (le_max_right _ _)
    have hconf : oracleConfident cal (unheard [0] (max (cal.map semanticOracleMin) 0)) = true :=
      confident_of_top (by rw [unheard, htop]; exact le_max_left _ _)
    have hstrong := (semanticStrong_iff.mp ((unheard_lifted_iff hconf).mp (h _))).2.1
    rwa [unheard, htop] at hstrong
  have hnear : fl.semanticPromoteMinNear ≤ 1 := by
    have hstrong := (semanticStrong_iff.mp
      ((unheard_lifted_iff (unheard_confident (by simp))).mp (h (unheard [0] 1)))).2.2
    refine hstrong.trans ?_
    unfold nOracleNear
    refine List.countP_le_length.trans ?_
    rw [unheard, scoring_values, List.length_replicate]
    exact le_rfl
  have hexact := (fallback_eq_strong_iff.mp (h (agreeing l))).1
  obtain ⟨hexact', hlift'⟩ := fallback_eq_strong_iff.mp (h silent)
  have hnear_silent : nOracleNear cal silent = 0 := rfl
  refine ⟨hnear, hpromote, fun hrare => hexact ⟨agreeing_hasAnchor hrare.1, hrare.2⟩,
    fun hmin => ?_, fun hmin => ?_⟩
  · have hconf := silent_unconfident hmin
    refine ⟨fun hrare => hexact' ⟨(hasAnchor_of_silent hconf).mpr hrare.1, hrare.2⟩, ?_⟩
    rcases hlift' with hspecific | hconfirmed | hstrong | hbm25
    · exact .inl ⟨.inl ((hasAnchor_of_silent hconf).mp hspecific.1), hspecific.2⟩
    · rw [(namesNode_of_confirmed hconfirmed.1).1] at hconf
      cases hconf
    · obtain ⟨_, htop, hcount⟩ := semanticStrong_iff.mp hstrong
      rw [silent_top] at htop
      rw [hnear_silent] at hcount
      exact .inr ⟨htop, Nat.le_zero.mp hcount⟩
    · exact .inl ⟨.inr hbm25.2.1, hbm25.2.2⟩
  · have hconf : oracleConfident cal (unheard [] 0) = true := confident_of_top hmin
    have hstrong := (unheard_lifted_iff hconf).mp (h (unheard [] 0))
    exact Nat.le_zero.mp (semanticStrong_iff.mp hstrong).2.2

/-- The fallback gives one verdict to every embedding exactly when the inputs are settled. -/
theorem fallback_constant_iff :
    (∀ e e', classifyConfidenceLexicalFallback fl cal l e =
      classifyConfidenceLexicalFallback fl cal l e') ↔ Settled fl cal l := by
  unfold Settled
  constructor
  · intro h
    cases hseeds : l.hasAnySeeds with
    | true =>
      rw [if_pos rfl]
      refine settledStrong_of_fallback fun e =>
        (h e (unheard (List.range (fl.semanticPromoteMinNear + 1)) 1)).trans ?_
      exact (unheard_lifted_iff (unheard_confident (by simp))).mpr
        (crowd_semanticStrong fl cal hseeds)
    | false =>
      rw [if_neg Bool.false_ne_true]
      refine settledNone_of_fallback hseeds fun e => (h e (unheard [0] 1)).trans ?_
      have hconf : oracleConfident cal (unheard [0] 1) = true := unheard_confident (by simp)
      have hrare : hasRareAnchor fl cal l (unheard [0] 1) = false := unheard_hasAnchor hconf
      refine (fallback_eq_none_iff hseeds).mpr ⟨by rw [hrare]; simp, fun hlift => ?_⟩
      have hstrong := (unheard_lifted_iff hconf).mp
        (fallback_eq_strong_iff.mpr ⟨by rw [hrare]; simp, hlift⟩)
      rw [(semanticStrong_iff.mp hstrong).1] at hseeds
      cases hseeds
  · intro h e e'
    cases hseeds : l.hasAnySeeds with
    | true =>
      rw [hseeds, if_pos rfl] at h
      rw [h.fallback hseeds e, h.fallback hseeds e']
    | false =>
      rw [hseeds, if_neg Bool.false_ne_true] at h
      rw [h.fallback hseeds e, h.fallback hseeds e']

/-- A verdict by the reranker, on a model that is not calibrated, is not the embedding's; a verdict
by the bypass is not exactly when the inputs are settled. -/
theorem classifyConfidence_constant_iff (fl : Floors) (cal : Calibration) (l : Lexical)
    (g1Bypass : Bool) (rerankScore : Option ℚ) :
    (g1Bypass = true ∨ (rerankScore.isSome = true ∧ cal = .identity) → ∀ e e',
      classifyConfidence fl cal l e g1Bypass rerankScore =
        classifyConfidence fl cal l e' g1Bypass rerankScore) ↔
    (g1Bypass = true → Settled fl cal l) := by
  cases g1Bypass with
  | true =>
    have hbypass : ∀ e, classifyConfidence fl cal l e true rerankScore =
        classifyConfidenceLexicalFallback fl cal l e := by
      intro e
      unfold classifyConfidence
      rw [if_neg (by simp)]
      rfl
    simp only [hbypass, true_or, forall_const]
    exact fallback_constant_iff
  | false =>
    refine iff_of_true ?_ (fun h => (nomatch h))
    rintro (h | ⟨hscore, rfl⟩) e e'
    · cases h
    · obtain ⟨r, rfl⟩ := Option.isSome_iff_exists.mp hscore
      unfold classifyConfidence
      rw [if_neg (by simp), if_neg (by simp)]
      rfl

def namedSymbol : Lexical where
  terms := [⟨"knapsack", true, 1, 9 / 10, some 1, 1⟩]
  coverage := 1
  topBm25 := 3
  hasAnySeeds := true
  hasKnnSeeds := false

/-- A confident neighbour elsewhere takes the exact verdict from a query that names its symbol. -/
theorem bypass_verdict_moved :
    ¬ ∀ (fl : Floors) (cal : Calibration) (l : Lexical) (g1Bypass : Bool) (rerankScore : Option ℚ),
      fl.rerankWeakFloor ≤ fl.rerankStrongFloor → fl.coverageWeak ≤ fl.coverageStrong →
      g1Bypass = true ∨ (rerankScore.isSome = true ∧ cal = .identity) → ∀ e e',
        classifyConfidence fl cal l e g1Bypass rerankScore =
          classifyConfidence fl cal l e' g1Bypass rerankScore := by
  intro h
  have hsame := h {} .identity namedSymbol true none (by decide +kernel) (by decide +kernel)
    (.inl rfl) silent ⟨scoring [9] (9 / 10), scoring [1] (3 / 10), {1}⟩
  have hexact : classifyConfidence {} .identity namedSymbol silent true none = .exact := by
    decide +kernel
  have hweak : classifyConfidence {} .identity namedSymbol
      ⟨scoring [9] (9 / 10), scoring [1] (3 / 10), {1}⟩ true none = .weak := by decide +kernel
  rw [hexact, hweak] at hsame
  cases hsame

end Travsr.Mcp
