import Mathlib.Data.List.Perm.Basic
import Mathlib.Tactic.Common
import Travsr.Core.Types

namespace Travsr.Analysis

open Travsr.Core Core.Text

/-- The kind of FFI boundary a marker represents. -/
inductive FfiMarkerKind where
  | napiExport
  | pyO3Export
  | cgoExport
  | napiCall
  | pyO3Call
  | goCallC
  | jniExport
  | jniCall
  deriving DecidableEq, Repr

structure FfiMarker where
  nodeId : NodeId
  kind : FfiMarkerKind
  localName : String
  /-- The explicit alias, if present. -/
  boundName : Option String
  arity : Option Nat
  module : Option String
  corpus : String
  deriving DecidableEq, Repr

def isValidMarkerName (s : String) : Bool :=
  !s.isEmpty && byteLen s ≤ 256 && !startsWith s "<" &&
    !s.toList.any (fun c => c.toNat ≤ 0x1F || c.toNat = 0x7F || c = '\n' || c = '\r')

/-- `FfiMarker::try_new`: an invalid name drops the marker. -/
def FfiMarker.tryNew (nodeId : NodeId) (kind : FfiMarkerKind) (localName : String)
    (boundName : Option String) (arity : Option Nat) (module : Option String)
    (corpus : String) : Option FfiMarker :=
  if !isValidMarkerName localName then none
  else if boundName.any (fun bn => !isValidMarkerName bn) then none
  else some ⟨nodeId, kind, localName, boundName, arity, module, corpus⟩

def FfiMarker.effectiveName (m : FfiMarker) : String := m.boundName.getD m.localName

end Travsr.Analysis

namespace Travsr.Indexer

open Travsr.Core Core.Text Travsr.Analysis

structure FfiConfig where
  enabled : Bool
  /-- Minimum confidence to emit an edge. -/
  emitThreshold : Nat

/-- Corpus, language and normalised effective name. -/
structure IndexKey where
  corpus : String
  language : String
  name : String
  deriving DecidableEq

abbrev NameIndex := List (IndexKey × List (NodeId × Option Nat))

/-- `entry(key).or_default().push(value)`. -/
def NameIndex.push (key : IndexKey) (value : NodeId × Option Nat) : NameIndex → NameIndex
  | [] => [(key, [value])]
  | slot :: rest =>
    if slot.1 = key then (slot.1, slot.2 ++ [value]) :: rest
    else slot :: NameIndex.push key value rest

def NameIndex.candidates (index : NameIndex) (key : IndexKey) : List (NodeId × Option Nat) :=
  ((index.find? fun slot => slot.1 = key).map Prod.snd).getD []

variable (isAlphanumeric : Char → Bool)

/-- `normalize_name`. -/
def normalizeName (s : String) : String :=
  String.ofList ((s.toList.filter isAlphanumeric).map Char.toLower)

/-- `marker_language`: which slot of the index the marker occupies. -/
def markerLanguage (m : FfiMarker) : String :=
  match m.kind with
  | .napiExport => "rust"
  | .pyO3Export => "rust"
  | .cgoExport => "go"
  | .napiCall => "typescript"
  | .pyO3Call => "python"
  | .goCallC => "c"
  | .jniExport => "java"
  | .jniCall => "rust"

def indexKey (m : FfiMarker) : IndexKey :=
  ⟨m.corpus, markerLanguage m, normalizeName isAlphanumeric m.effectiveName⟩

/-- `build_from_markers`. -/
def buildFromMarkers (markers : List FfiMarker) : NameIndex :=
  markers.foldl (fun index m => index.push (indexKey isAlphanumeric m) (m.nodeId, m.arity)) []

/-! ### Confidence scorers -/

def arityScore (src dst : Option Nat) : Nat :=
  match src, dst with
  | some a, some b => if a = b then 90 else 30
  | _, _ => 50

def scoreNapi (src : FfiMarker) (dstArity : Option Nat) : Nat := arityScore src.arity dstArity

def scorePyO3 (src : FfiMarker) (dstArity : Option Nat) : Nat :=
  let base := arityScore src.arity dstArity
  if src.boundName.isSome then min (base + 20) 100 else base

def scoreCgo (src : FfiMarker) (_dstArity : Option Nat) : Nat :=
  if src.boundName.isNone then 90 else 70

def scoreJni (_src : FfiMarker) (_dstArity : Option Nat) : Nat := 90

/-- The slot a marker looks for its counterpart in, and the scorer; the indexed-target kinds look
for nothing. -/
def targetOf (kind : FfiMarkerKind) : Option (String × (FfiMarker → Option Nat → Nat)) :=
  match kind with
  | .napiCall => some ("rust", scoreNapi)
  | .pyO3Call => some ("rust", scorePyO3)
  | .cgoExport => some ("c", scoreCgo)
  | .jniCall => some ("java", scoreJni)
  | .napiExport => none
  | .pyO3Export => none
  | .goCallC => none
  | .jniExport => none

def ffiCall (src dst : NodeId) (confidence : Nat) : Edge :=
  ⟨src, dst, .ffiCall, some confidence, none⟩

/-- The edges for one candidate: none below the threshold, and a reverse call when the confidence
is high. -/
def candidateEdges (threshold : Nat) (src : FfiMarker) (score : FfiMarker → Option Nat → Nat)
    (dst : NodeId × Option Nat) : List Edge :=
  let confidence := score src dst.2
  if confidence < threshold then []
  else
    ffiCall src.nodeId dst.1 confidence ::
      (if 80 ≤ confidence then [⟨dst.1, src.nodeId, .refCall, none, none⟩] else [])

/-- The round of `resolve` for one marker. -/
def markerEdges (index : NameIndex) (threshold : Nat) (src : FfiMarker) : List Edge :=
  match targetOf src.kind with
  | none => []
  | some (lang, score) =>
    (index.candidates ⟨src.corpus, lang, normalizeName isAlphanumeric src.effectiveName⟩).flatMap
      (candidateEdges threshold src score)

def resolve (index : NameIndex) (markers : List FfiMarker) (cfg : FfiConfig) : List Edge :=
  if cfg.enabled then markers.flatMap (markerEdges isAlphanumeric index cfg.emitThreshold) else []

def resolveFfiEdges (cfg : FfiConfig) (markers : List FfiMarker) : List Edge :=
  if markers.isEmpty then []
  else resolve isAlphanumeric (buildFromMarkers isAlphanumeric markers) markers cfg

/-! ### The name index -/

theorem candidates_push (index : NameIndex) (key k : IndexKey) (value : NodeId × Option Nat) :
    (index.push key value).candidates k =
      if key = k then index.candidates k ++ [value] else index.candidates k := by
  induction index with
  | nil =>
    by_cases hk : key = k
    · simp [NameIndex.push, NameIndex.candidates, hk]
    · simp [NameIndex.push, NameIndex.candidates, hk]
  | cons slot rest ih =>
    simp only [NameIndex.candidates] at ih
    by_cases hs : slot.1 = key
    · by_cases hk : key = k
      · simp [NameIndex.push, NameIndex.candidates, hs, hk]
      · simp [NameIndex.push, NameIndex.candidates, hs, hk]
    · by_cases hk : slot.1 = k
      · have hne : key ≠ k := fun h => hs (hk.trans h.symm)
        simp [NameIndex.push, NameIndex.candidates, hk, hne, Ne.symm hne]
      · simp [NameIndex.push, NameIndex.candidates, hs, hk, ih]

variable {isAlphanumeric}

theorem mem_candidates_build {markers : List FfiMarker} {key : IndexKey}
    {entry : NodeId × Option Nat} :
    entry ∈ (buildFromMarkers isAlphanumeric markers).candidates key ↔
      ∃ d ∈ markers, indexKey isAlphanumeric d = key ∧ (d.nodeId, d.arity) = entry := by
  have hrun : ∀ (ms : List FfiMarker) (index : NameIndex),
      entry ∈ (ms.foldl (fun index m => index.push (indexKey isAlphanumeric m) (m.nodeId, m.arity))
        index).candidates key ↔
        entry ∈ index.candidates key ∨
          ∃ d ∈ ms, indexKey isAlphanumeric d = key ∧ (d.nodeId, d.arity) = entry := by
    intro ms
    induction ms with
    | nil => simp
    | cons m ms ih =>
      intro index
      rw [List.foldl_cons, ih, candidates_push]
      by_cases hk : indexKey isAlphanumeric m = key
      · simp [hk, or_assoc, eq_comm]
      · simp [hk]
  rw [buildFromMarkers, hrun]
  simp [NameIndex.candidates]

/-! ### The halves of a mechanism -/

def exportKind : FfiMarkerKind → Option FfiMarkerKind
  | .napiCall => some .napiExport
  | .pyO3Call => some .pyO3Export
  | .cgoExport => some .goCallC
  | .jniCall => some .jniExport
  | _ => none

def IsCallSide (kind : FfiMarkerKind) : Prop := (exportKind kind).isSome

/-- A call of one mechanism meets a marker of another one in the slot of Rust, which holds napi
exports, PyO3 exports and JNI calls alike. -/
def SharedSlot (src dst : FfiMarkerKind) : Prop :=
  (src = .napiCall ∧ (dst = .pyO3Export ∨ dst = .jniCall)) ∨
    (src = .pyO3Call ∧ (dst = .napiExport ∨ dst = .jniCall))

instance (src dst : FfiMarkerKind) : Decidable (SharedSlot src dst) :=
  inferInstanceAs (Decidable (_ ∨ _))

theorem targetOf_language_iff (src dst : FfiMarker) :
    (targetOf src.kind).map Prod.fst = some (markerLanguage dst) ↔
      exportKind src.kind = some dst.kind ∨ SharedSlot src.kind dst.kind := by
  unfold markerLanguage
  cases src.kind <;> cases dst.kind <;> decide

variable (isAlphanumeric)

def SameName (src dst : FfiMarker) : Prop :=
  src.corpus = dst.corpus ∧
    normalizeName isAlphanumeric src.effectiveName = normalizeName isAlphanumeric dst.effectiveName

def confidence (src dst : FfiMarker) : Nat :=
  match targetOf src.kind with
  | some (_, score) => score src dst.arity
  | none => 0

/-- The two halves of one mechanism, with confidence at or above the threshold. -/
def Matched (threshold : Nat) (src dst : FfiMarker) : Prop :=
  exportKind src.kind = some dst.kind ∧ SameName isAlphanumeric src dst ∧
    threshold ≤ confidence src dst

/-- The round of `src` finds `dst` under its key and does not discard it. -/
def Linked (threshold : Nat) (src dst : FfiMarker) : Prop :=
  ∃ lang score, targetOf src.kind = some (lang, score) ∧
    indexKey isAlphanumeric dst =
      ⟨src.corpus, lang, normalizeName isAlphanumeric src.effectiveName⟩ ∧
    threshold ≤ score src dst.arity

variable {isAlphanumeric}

theorem linked_iff {threshold : Nat} {src dst : FfiMarker} :
    Linked isAlphanumeric threshold src dst ↔
      (exportKind src.kind = some dst.kind ∨ SharedSlot src.kind dst.kind) ∧
        SameName isAlphanumeric src dst ∧ threshold ≤ confidence src dst := by
  rw [← targetOf_language_iff, Linked, SameName, confidence, indexKey]
  simp only [IndexKey.mk.injEq]
  cases targetOf src.kind with
  | none => simp
  | some target =>
    obtain ⟨lang, score⟩ := target
    simp only [Option.some.injEq, Prod.mk.injEq, Option.map_some]
    constructor
    · rintro ⟨_, _, ⟨rfl, rfl⟩, ⟨hcorpus, hlang, hname⟩, hscore⟩
      exact ⟨hlang.symm, ⟨hcorpus.symm, hname.symm⟩, hscore⟩
    · rintro ⟨hlang, ⟨hcorpus, hname⟩, hscore⟩
      exact ⟨lang, score, ⟨rfl, rfl⟩, ⟨hcorpus.symm, hlang.symm, hname.symm⟩, hscore⟩

theorem mem_candidateEdges {threshold : Nat} {src : FfiMarker}
    {score : FfiMarker → Option Nat → Nat} {dst : NodeId × Option Nat} {e : Edge} :
    e ∈ candidateEdges threshold src score dst ↔ threshold ≤ score src dst.2 ∧
      (e = ffiCall src.nodeId dst.1 (score src dst.2) ∨
        80 ≤ score src dst.2 ∧ e = ⟨dst.1, src.nodeId, .refCall, none, none⟩) := by
  unfold candidateEdges
  simp only
  by_cases hlow : score src dst.2 < threshold
  · simp [hlow]
  · by_cases hhigh : 80 ≤ score src dst.2
    · simp [hlow, hhigh, Nat.not_lt.mp hlow]
    · simp [hlow, hhigh, Nat.not_lt.mp hlow]

/-- The edges of a run: a call for every linked pair, and a reverse call for the certain ones. -/
theorem mem_resolveFfiEdges {cfg : FfiConfig} {markers : List FfiMarker} {e : Edge}
    (henabled : cfg.enabled = true) :
    e ∈ resolveFfiEdges isAlphanumeric cfg markers ↔
      ∃ src ∈ markers, ∃ dst ∈ markers, Linked isAlphanumeric cfg.emitThreshold src dst ∧
        (e = ffiCall src.nodeId dst.nodeId (confidence src dst) ∨
          80 ≤ confidence src dst ∧ e = ⟨dst.nodeId, src.nodeId, .refCall, none, none⟩) := by
  have hround : ∀ src, e ∈ markerEdges isAlphanumeric (buildFromMarkers isAlphanumeric markers)
      cfg.emitThreshold src ↔ ∃ dst ∈ markers, Linked isAlphanumeric cfg.emitThreshold src dst ∧
        (e = ffiCall src.nodeId dst.nodeId (confidence src dst) ∨
          80 ≤ confidence src dst ∧ e = ⟨dst.nodeId, src.nodeId, .refCall, none, none⟩) := by
    intro src
    unfold markerEdges Linked confidence
    cases targetOf src.kind with
    | none => simp
    | some target =>
      obtain ⟨lang, score⟩ := target
      simp only [List.mem_flatMap, mem_candidates_build, mem_candidateEdges]
      constructor
      · rintro ⟨_, ⟨dst, hdst, hkey, rfl⟩, hscore, he⟩
        exact ⟨dst, hdst, ⟨lang, score, rfl, hkey, hscore⟩, he⟩
      · rintro ⟨dst, hdst, ⟨_, _, htarget, hkey, hscore⟩, he⟩
        cases htarget
        exact ⟨_, ⟨dst, hdst, hkey, rfl⟩, hscore, he⟩
  unfold resolveFfiEdges
  cases markers with
  | nil => simp
  | cons m ms => simp only [List.isEmpty_cons, Bool.false_eq_true, if_false, resolve, henabled,
      if_true, List.mem_flatMap, hround]

theorem ffiCall_mem_iff {cfg : FfiConfig} {markers : List FfiMarker} {src dst : NodeId}
    (henabled : cfg.enabled = true) :
    (∃ c, ffiCall src dst c ∈ resolveFfiEdges isAlphanumeric cfg markers) ↔
      ∃ s ∈ markers, ∃ d ∈ markers, Linked isAlphanumeric cfg.emitThreshold s d ∧
        s.nodeId = src ∧ d.nodeId = dst := by
  simp only [mem_resolveFfiEdges henabled]
  constructor
  · rintro ⟨c, s, hs, d, hd, hlink, he | ⟨_, he⟩⟩
    · simp only [ffiCall, Edge.mk.injEq] at he
      exact ⟨s, hs, d, hd, hlink, he.1.symm, he.2.1.symm⟩
    · simp [ffiCall] at he
  · rintro ⟨s, hs, d, hd, hlink, rfl, rfl⟩
    exact ⟨_, s, hs, d, hd, hlink, .inl rfl⟩

/-! ### Which links a run makes -/

variable (isAlphanumeric)

/-- The edges join just the matching halves, no link ends at a call-side marker, and the order of
the markers makes no difference to the set of edges. -/
structure LinksMatching (cfg : FfiConfig) (markers : List FfiMarker) : Prop where
  edges : ∀ src dst, (∃ c, ffiCall src dst c ∈ resolveFfiEdges isAlphanumeric cfg markers) ↔
    ∃ s ∈ markers, ∃ d ∈ markers, Matched isAlphanumeric cfg.emitThreshold s d ∧
      s.nodeId = src ∧ d.nodeId = dst
  targets : ∀ s ∈ markers, ∀ d ∈ markers, Linked isAlphanumeric cfg.emitThreshold s d →
    ¬ IsCallSide d.kind
  order : ∀ markers', markers'.Perm markers → ∀ e,
    e ∈ resolveFfiEdges isAlphanumeric cfg markers' ↔
      e ∈ resolveFfiEdges isAlphanumeric cfg markers

/-- A call that meets another mechanism's marker in the slot of Rust meets an export, and a
matching pair joins the same two nodes. -/
def SlotsAgree (threshold : Nat) (markers : List FfiMarker) : Prop :=
  ∀ s ∈ markers, ∀ d ∈ markers, SharedSlot s.kind d.kind → SameName isAlphanumeric s d →
    threshold ≤ confidence s d → d.kind ≠ .jniCall ∧
      ∃ s' ∈ markers, ∃ d' ∈ markers, Matched isAlphanumeric threshold s' d' ∧
        s'.nodeId = s.nodeId ∧ d'.nodeId = d.nodeId

variable {isAlphanumeric}

theorem resolveFfiEdges_perm {cfg : FfiConfig} {markers markers' : List FfiMarker}
    (henabled : cfg.enabled = true) (hperm : markers'.Perm markers) (e : Edge) :
    e ∈ resolveFfiEdges isAlphanumeric cfg markers' ↔
      e ∈ resolveFfiEdges isAlphanumeric cfg markers := by
  simp only [mem_resolveFfiEdges henabled, hperm.mem_iff]

theorem not_isCallSide_of_exportKind {src dst : FfiMarkerKind} (h : exportKind src = some dst) :
    ¬ IsCallSide dst := by
  cases src <;> cases h <;> simp [IsCallSide, exportKind]

theorem isCallSide_of_sharedSlot {src dst : FfiMarkerKind} (h : SharedSlot src dst) :
    IsCallSide dst ↔ dst = .jniCall := by
  rcases h with ⟨_, rfl | rfl⟩ | ⟨_, rfl | rfl⟩ <;> simp [IsCallSide, exportKind]

/-- A run links just the matching halves of each mechanism exactly when the mechanisms that share
the slot of Rust do not meet under one name, unless a matching pair joins the same nodes. -/
theorem linksMatching_iff {cfg : FfiConfig} (henabled : cfg.enabled = true)
    (markers : List FfiMarker) :
    LinksMatching isAlphanumeric cfg markers ↔
      SlotsAgree isAlphanumeric cfg.emitThreshold markers := by
  constructor
  · intro h s hs d hd hslot hname hscore
    have hlink : Linked isAlphanumeric cfg.emitThreshold s d :=
      linked_iff.mpr ⟨.inr hslot, hname, hscore⟩
    constructor
    · intro hjni
      exact h.targets s hs d hd hlink ((isCallSide_of_sharedSlot hslot).mpr hjni)
    · exact (h.edges s.nodeId d.nodeId).mp
        ((ffiCall_mem_iff henabled).mpr ⟨s, hs, d, hd, hlink, rfl, rfl⟩)
  · intro h
    refine ⟨fun src dst => ?_, fun s hs d hd hlink => ?_, fun _ hperm e =>
      resolveFfiEdges_perm henabled hperm e⟩
    · rw [ffiCall_mem_iff henabled]
      constructor
      · rintro ⟨s, hs, d, hd, hlink, rfl, rfl⟩
        obtain ⟨hkind | hslot, hname, hscore⟩ := linked_iff.mp hlink
        · exact ⟨s, hs, d, hd, ⟨hkind, hname, hscore⟩, rfl, rfl⟩
        · exact (h s hs d hd hslot hname hscore).2
      · rintro ⟨s, hs, d, hd, hmatch, rfl, rfl⟩
        exact ⟨s, hs, d, hd, linked_iff.mpr ⟨.inl hmatch.1, hmatch.2⟩, rfl, rfl⟩
    · obtain ⟨hkind | hslot, hname, hscore⟩ := linked_iff.mp hlink
      · exact not_isCallSide_of_exportKind hkind
      · rw [isCallSide_of_sharedSlot hslot]
        exact (h s hs d hd hslot hname hscore).1

/-- A napi call named `add`. -/
def addCall : FfiMarker := ⟨1, .napiCall, "add", none, none, none, "acme"⟩

/-- A JNI call in a Rust function named `add`. -/
def addJniCall : FfiMarker := ⟨2, .jniCall, "add", none, none, none, "acme"⟩

theorem linksMatching_iff_add :
    LinksMatching Char.isAlphanum ⟨true, 30⟩ [addCall] ↔
      SlotsAgree Char.isAlphanum 30 [addCall] :=
  linksMatching_iff rfl [addCall]

/-- The napi call is linked to the JNI call. -/
theorem napi_call_links_jni_call :
    ¬ (∀ (isAlphanumeric : Char → Bool) (cfg : FfiConfig) (markers : List FfiMarker),
      cfg.enabled = true → LinksMatching isAlphanumeric cfg markers) := by
  intro h
  have hedge : ffiCall 1 2 50 ∈
      resolveFfiEdges Char.isAlphanum ⟨true, 30⟩ [addCall, addJniCall] := by decide +kernel
  obtain ⟨s, hs, d, hd, hmatch, hsrc, hdst⟩ :=
    ((h Char.isAlphanum ⟨true, 30⟩ [addCall, addJniCall] rfl).edges 1 2).mp ⟨50, hedge⟩
  have hkind : d.kind = .jniCall := by
    rcases List.mem_pair.mp hd with rfl | rfl
    · cases hdst
    · rfl
  exact not_isCallSide_of_exportKind hmatch.1 (by rw [hkind]; rfl)

end Travsr.Indexer
