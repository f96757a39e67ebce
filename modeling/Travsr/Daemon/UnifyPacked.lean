import Travsr.Daemon.UnifyLookups
import Travsr.Daemon.UnifyOverloads
import Travsr.Store.PhaseBRows

namespace Travsr.Daemon

open Travsr.Core Core.Text Indexer Store Relational

/-! ### Phase A's spelling is apart from SCIP's -/

/-- A signature that SCIP's reader has packed as `scip:path:symbol`. -/
def IsPacked (signature : String) : Prop := startsWith signature "scip:" = true

instance (signature : String) : Decidable (IsPacked signature) :=
  inferInstanceAs (Decidable (_ = true))

def Apart (s : String) : Prop := ∀ t : List Char, "scip:".toList.isPrefixOf (s.toList ++ t) = false

theorem Apart.append {s : String} (h : Apart s) (r : String) : Apart (s ++ r) := by
  intro t
  rw [String.toList_append, List.append_assoc]
  exact h _

theorem Apart.not_packed {s : String} (h : Apart s) : ¬ IsPacked s := by
  have hs := h []
  rw [List.append_nil] at hs
  rw [IsPacked, startsWith, hs]
  exact Bool.false_ne_true

theorem Apart.member {pre : String} (h : Apart pre) (c name : String) :
    Apart (pre ++ c ++ "." ++ name) :=
  ((h.append c).append ".").append name

theorem apart_method : Apart "method:" := fun _ => rfl

theorem apart_fn : Apart "fn:" := fun _ => rfl

theorem apart_field : Apart "field:" := fun _ => rfl

theorem apart_variant : Apart "variant:" := fun _ => rfl

theorem apart_class : Apart "class:" := fun _ => rfl

theorem apart_methods (c name : String) :
    ∀ s ∈ ["method:" ++ c ++ "." ++ name, "fn:" ++ c ++ "." ++ name], Apart s := by
  simp only [List.forall_mem_cons]
  exact ⟨apart_method.member c name, apart_fn.member c name, fun _ h => by cases h⟩

theorem apart_fields (c name : String) :
    ∀ s ∈ ["field:" ++ c ++ "." ++ name, "variant:" ++ c ++ "." ++ name], Apart s := by
  simp only [List.forall_mem_cons]
  exact ⟨apart_field.member c name, apart_variant.member c name, fun _ h => by cases h⟩

theorem apart_candidateSignatures (parsed : ScipName) :
    ∀ s ∈ Indexer.candidateSignatures parsed, Apart s := by
  obtain ⟨container, name, kind⟩ := parsed
  unfold Indexer.candidateSignatures
  cases kind with
  | function =>
    dsimp only
    rw [List.forall_mem_append]
    refine ⟨?_, ?_⟩
    · cases container with
      | none =>
        intro s hs
        cases hs
      | some c =>
        dsimp only
        rw [List.forall_mem_append, List.forall_mem_append]
        refine ⟨⟨?_, apart_methods c name⟩, ?_⟩
        · split_ifs
          · exact apart_methods c c
          · intro s hs
            cases hs
        · intro s hs
          obtain ⟨seg, _, hseg⟩ := List.mem_flatMap.mp hs
          exact apart_methods seg name s hseg
    · intro s hs
      rw [List.mem_singleton.mp hs]
      exact apart_fn.append name
  | cls =>
    dsimp only
    intro s hs
    obtain ⟨p, hp, rfl⟩ := List.mem_map.mp hs
    have hkinds : ∀ p ∈ ["class", "struct", "interface", "trait", "enum", "type", "protocol",
        "namespace", "actor"], Apart p := by
      simp only [List.forall_mem_cons]
      refine ⟨fun _ => rfl, fun _ => rfl, fun _ => rfl, fun _ => rfl, fun _ => rfl, fun _ => rfl,
        fun _ => rfl, fun _ => rfl, fun _ => rfl, ?_⟩
      intro _ h
      cases h
    exact ((hkinds p hp).append ":").append name
  | var =>
    dsimp only
    rw [List.forall_mem_append]
    refine ⟨?_, ?_⟩
    · cases container with
      | none =>
        intro s hs
        cases hs
      | some c =>
        dsimp only
        rw [List.forall_mem_append]
        refine ⟨apart_fields c name, ?_⟩
        intro s hs
        obtain ⟨seg, _, hseg⟩ := List.mem_flatMap.mp hs
        exact apart_fields seg name s hseg
    · simp only [List.forall_mem_cons]
      refine ⟨Apart.append (fun _ => rfl) name, Apart.append (fun _ => rfl) name,
        Apart.append (fun _ => rfl) name, ?_⟩
      intro _ h
      cases h

theorem apart_overloadCollapseSignatures (parsed : ScipName) :
    ∀ s ∈ overloadCollapseSignatures parsed, Apart s := by
  unfold overloadCollapseSignatures
  by_cases hk : parsed.kind ≠ .function
  · rw [if_pos hk]
    intro s hs
    cases hs
  rw [if_neg hk]
  cases parsed.container with
  | none =>
    intro s hs
    cases hs
  | some c =>
    dsimp only
    split_ifs
    · exact apart_methods c c
    · exact apart_methods c parsed.name

namespace Unifier

variable {u : Unifier} {batch : List Node} {n : Node} {d : Definition}

theorem apart_candidatesOf (n : Node) (parsed : ScipName) :
    ∀ s ∈ candidatesOf n parsed, Apart s := by
  intro s hs
  unfold candidatesOf at hs
  split_ifs at hs
  · exact apart_candidateSignatures parsed s (List.mem_filter.mp hs).1
  · exact apart_candidateSignatures parsed s hs

theorem apart_sameFileOf (n : Node) (parsed : ScipName) :
    ∀ s ∈ u.sameFileOf batch n parsed, Apart s := by
  have hif : ∀ {p : Prop} [Decidable p] {l : List String}, (∀ s ∈ l, Apart s) →
      ∀ s ∈ if p then l else [], Apart s := by
    intro p _ l hl s hs
    split_ifs at hs
    · exact hl s hs
    · cases hs
  have hone : ∀ {a : String}, Apart a → ∀ s ∈ [a], Apart s := by
    intro a ha s hs
    rw [List.mem_singleton.mp hs]
    exact ha
  unfold sameFileOf
  dsimp only
  rw [List.forall_mem_append, List.forall_mem_append]
  refine ⟨⟨apart_candidatesOf n parsed, ?_⟩, ?_⟩
  · cases parsed.container with
    | none => exact hif (hone (apart_class.append _))
    | some c =>
      dsimp only
      rw [List.forall_mem_append, List.forall_mem_append]
      refine ⟨⟨hif (hone (apart_field.member c _)), hif (hone (apart_method.member c _))⟩,
        hif ?_⟩
      intro s hs
      obtain ⟨t, _, rfl⟩ := List.mem_map.mp hs
      exact apart_field.member t _
  · cases parsed.container with
    | none =>
      intro s hs
      cases hs
    | some c =>
      dsimp only
      rw [List.forall_mem_append]
      exact ⟨hif (hone (apart_variant.member c _)), hif (hone (apart_class.append c))⟩

theorem apart_definition (h : u.prepare batch n = .definition d) :
    (∀ s ∈ d.sameFile, Apart s) ∧ (∀ s ∈ d.candidates, Apart s) ∧
      ∀ s ∈ d.overloadSigs, Apart s := by
  simp only [prepare] at h
  repeat' split at h
  all_goals cases h
  exact ⟨apart_sameFileOf n _, apart_candidatesOf n _, apart_overloadCollapseSignatures _⟩

end Unifier

/-! ### Packed rows answer no lookup -/

def SamePlain (t t' : NodeTable) : Prop :=
  t'.rows.filter (fun r => ¬ IsPacked r.vname.signature) =
    t.rows.filter fun r => ¬ IsPacked r.vname.signature

namespace SamePlain

variable {t t' : NodeTable} {corpus path : String}

theorem filter_eq (h : SamePlain t t') {p : NodeRow → Bool}
    (hp : ∀ r, p r = true → ¬ IsPacked r.vname.signature) :
    t'.rows.filter p = t.rows.filter p := by
  have hsub : ∀ l : List NodeRow,
      l.filter p = (l.filter fun r => ¬ IsPacked r.vname.signature).filter p := by
    intro l
    rw [List.filter_filter]
    apply List.filter_congr
    intro r _
    by_cases hr : p r = true
    · simp [hr, hp r hr]
    · simp [hr]
  rw [hsub t'.rows, h, ← hsub]

theorem any_eq (h : SamePlain t t') {p : NodeRow → Bool}
    (hp : ∀ r, p r = true → ¬ IsPacked r.vname.signature) : t'.rows.any p = t.rows.any p := by
  have hany : ∀ l : List NodeRow, l.any p = !(l.filter p).isEmpty := by
    intro l
    induction l with
    | nil => rfl
    | cons r l ih =>
      by_cases hr : p r = true
      · simp [hr]
      · simp [hr, ih]
  rw [hany, hany, h.filter_eq hp]

theorem candidateRows_eq (h : SamePlain t t') {signatures : List String}
    (hs : ∀ s ∈ signatures, Apart s) :
    candidateRows t' corpus path signatures = candidateRows t corpus path signatures := by
  unfold candidateRows fileRows
  rw [List.filter_filter, List.filter_filter, h.filter_eq]
  intro r hr
  simp only [Bool.and_eq_true, decide_eq_true_eq] at hr
  exact (hs _ hr.1).not_packed

theorem findUniqueTsNodeAcrossFiles_eq (h : SamePlain t t') {languages signatures : List String}
    (hs : ∀ s ∈ signatures, Apart s) :
    findUniqueTsNodeAcrossFiles t' corpus languages signatures =
      findUniqueTsNodeAcrossFiles t corpus languages signatures := by
  unfold findUniqueTsNodeAcrossFiles
  rw [h.filter_eq]
  intro r hr
  simp only [decide_eq_true_eq] at hr
  exact (hs _ hr.2.2).not_packed

theorem lookupNodesExact_eq (h : SamePlain t t') {signature : String} {hint : Option String}
    (hs : Apart signature) : lookupNodesExact t' signature hint = lookupNodesExact t signature hint := by
  unfold lookupNodesExact
  rw [h.filter_eq]
  intro r hr
  simp only [decide_eq_true_eq] at hr
  rw [hr.1]
  exact hs.not_packed

theorem isScipSignature_of_packed {s : String} (h : IsPacked s) : isScipSignature s = true := by
  obtain ⟨rest, hrest⟩ := List.isPrefixOf_iff_prefix.mp h
  simp only [isScipSignature, startsWith, toAsciiLowercase, String.toList_ofList, ← hrest,
    List.map_append]
  rfl

theorem phaseAIndexed_eq (h : SamePlain t t') :
    phaseAIndexed t' corpus path = phaseAIndexed t corpus path := by
  unfold phaseAIndexed fileRows
  rw [List.any_filter, List.any_filter, h.any_eq]
  intro r hr hpacked
  rw [isScipSignature_of_packed hpacked] at hr
  simp at hr

end SamePlain

/-! ### What packed nodes leave of the lookups -/

theorem samePlain_phaseBNode {st : NodeTable × Lexical} {n : Node}
    (hn : IsPacked n.vname.signature)
    (hid : ∀ r ∈ st.1.rows, r.id = n.id → IsPacked r.vname.signature) :
    SamePlain st.1 (phaseBNode st n).1 := by
  rw [phaseBNode_eq, SamePlain]
  apply IndexedTable.filter_upsertSkip
  · show decide (¬ IsPacked n.vname.signature) = false
    simpa using hn
  · intro r hr hkey
    have hpacked := hid r hr hkey
    refine ⟨by simpa using hpacked, ?_⟩
    show decide (¬ IsPacked r.vname.signature) = false
    simpa using hpacked

namespace Unifier

variable {u : Unifier} {batch l : List Node} {n : Node} {d : Definition} {lex : Lexical}

theorem samePlain_written (hl : ∀ n ∈ l, IsPacked n.vname.signature)
    (hid : ∀ r ∈ u.nodes.rows, ∀ n ∈ l, r.id = n.id → IsPacked r.vname.signature) :
    SamePlain u.nodes (u.written lex l).nodes := by
  have hfold : ∀ st : NodeTable × Lexical,
      (∀ r ∈ st.1.rows, ∀ n ∈ l, r.id = n.id → IsPacked r.vname.signature) →
      SamePlain st.1 (l.foldl phaseBNode st).1 := by
    induction l with
    | nil => exact fun _ _ => rfl
    | cons n l ih =>
      intro st hst
      have hn : IsPacked n.vname.signature := hl n List.mem_cons_self
      have hstep := samePlain_phaseBNode hn fun r hr => hst r hr n List.mem_cons_self
      refine (ih (fun m hm => hl m (List.mem_cons_of_mem n hm))
        (fun r hr m hm => hid r hr m (List.mem_cons_of_mem n hm)) (phaseBNode st n) ?_).trans hstep
      intro r hr m hm hkey
      rw [phaseBNode_eq] at hr
      rcases IndexedTable.mem_upsertSkip.mp hr with ⟨hr, _⟩ | ⟨o, ho, hon, rfl⟩ | ⟨rfl, _⟩
      · exact hst r hr m (List.mem_cons_of_mem n hm) hkey
      · exact hst o ho n List.mem_cons_self hon
      · exact hn
  exact hfold (u.nodes, lex) hid

theorem sameAnswers_of_samePlain (h : SamePlain u.nodes (u.written lex l).nodes) :
    SameAnswers u (u.written lex l) batch n where
  prepare := by
    unfold prepare
    rw [show phaseAIndexed (u.written lex l).nodes (u.written lex l).corpus n.vname.path =
      phaseAIndexed u.nodes u.corpus n.vname.path from h.phaseAIndexed_eq]
    rfl
  span := by
    intro d hd
    unfold spanRung findTsNodeForUnification
    rw [show candidateRows (u.written lex l).nodes (u.written lex l).corpus d.path d.sameFile =
      candidateRows u.nodes u.corpus d.path d.sameFile from
        h.candidateRows_eq (apart_definition hd).1]
  own := by
    intro d hd _
    obtain ⟨_, hcandidates, hover⟩ := apart_definition (leftUnmatched_eq_some.mp hd).1
    have hoverload : (u.written lex l).overloadRung d = u.overloadRung d := by
      unfold overloadRung findUniqueTsNodeInFile
      exact congrArg onlyId (h.candidateRows_eq hover)
    have hacross : (u.written lex l).acrossRung d = u.acrossRung d := by
      unfold acrossRung
      rw [show findUniqueTsNodeAcrossFiles (u.written lex l).nodes (u.written lex l).corpus
        (declarationLanguages d.language) d.candidates =
        findUniqueTsNodeAcrossFiles u.nodes u.corpus (declarationLanguages d.language) d.candidates
          from h.findUniqueTsNodeAcrossFiles_eq hcandidates]
    rw [ownRung, ownRung, hoverload, hacross]
  field := by
    intro p _
    unfold setterTwin
    cases p.container with
    | none => rfl
    | some c =>
      cases setterField p.name with
      | none => rfl
      | some f =>
        dsimp only
        rw [show lookupNodesExact (u.written lex l).nodes ("field:" ++ c ++ "." ++ f)
          (some n.vname.path) = lookupNodesExact u.nodes ("field:" ++ c ++ "." ++ f)
            (some n.vname.path) from h.lookupNodesExact_eq (apart_field.member c f)]
        rfl
  scope := by
    intro _ _ _
    unfold Pass.isLocal
    cases n.line with
    | none => rfl
    | some line =>
      cases nativeNameKind n.vname.signature "variable" with
      | none => rfl
      | some parsed =>
        dsimp only
        cases parsed.container.bind fun c => nativeNameKind ("fn:" ++ c) "function" with
        | none => rfl
        | some owner =>
          dsimp only
          unfold findTsNodeForUnification
          rw [show candidateRows (u.written lex l).nodes (u.written lex l).corpus n.vname.path
            (Indexer.candidateSignatures owner) = candidateRows u.nodes u.corpus n.vname.path
              (Indexer.candidateSignatures owner) from
                h.candidateRows_eq (apart_candidateSignatures owner)]

def PlainRow (u : Unifier) (ts : NodeId) : Prop :=
  ∃ r ∈ u.nodes.rows, r.id = ts ∧ ¬ IsPacked r.vname.signature

theorem plainRow_of_candidate {path : String} {signatures : List String} {p : Placed}
    (hs : ∀ s ∈ signatures, Apart s) (hp : p ∈ candidateRows u.nodes u.corpus path signatures) :
    u.PlainRow p.row.id := by
  obtain ⟨hfile, hsig, _⟩ := mem_candidateRows.mp hp
  exact ⟨p.row, (List.mem_filter.mp hfile).1, rfl, (hs _ hsig).not_packed⟩

theorem mem_of_onlyId {ps : List Placed} {ts : NodeId} (h : onlyId ps = some ts) :
    ∃ p ∈ ps, p.row.id = ts := by
  cases ps with
  | nil => cases h
  | cons p ps =>
    cases ps with
    | nil => exact ⟨p, List.mem_cons_self, Option.some.inj h⟩
    | cons q ps => cases h

theorem plainRow_of_spanTwin {ts : NodeId} (h : u.spanTwin batch n = some ts) :
    u.PlainRow ts := by
  unfold spanTwin at h
  cases hd : u.prepare batch n with
  | definition d =>
    rw [hd] at h
    dsimp only at h
    rw [spanRung_eq] at h
    obtain ⟨p, hp, rfl⟩ := Option.map_eq_some_iff.mp h
    exact plainRow_of_candidate (apart_definition hd).1 (mem_nearRows.mp (List.argmin_mem hp)).1
  | _ =>
    rw [hd] at h
    cases h

theorem plainRow_of_fieldTwin {ts : NodeId} (h : u.fieldTwin batch n = some ts) :
    u.PlainRow ts := by
  unfold fieldTwin at h
  cases hp : u.prepare batch n with
  | lineless p =>
    rw [hp] at h
    dsimp only at h
    unfold setterTwin at h
    cases hc : p.container with
    | none =>
      rw [hc] at h
      cases h
    | some c =>
      cases hf : setterField p.name with
      | none =>
        rw [hc, hf] at h
        cases h
      | some f =>
        rw [hc, hf] at h
        dsimp only at h
        obtain ⟨_, h⟩ := Option.ite_none_right_eq_some.mp h
        obtain ⟨r, hr, rfl⟩ := Option.map_eq_some_iff.mp h
        have hmem := List.mem_of_mem_take (List.mem_of_find?_eq_some hr)
        obtain ⟨hrow, hsig⟩ := List.mem_filter.mp ((List.mem_insertionSort _).mp hmem)
        have hfield := (of_decide_eq_true hsig).1
        refine ⟨r, hrow, rfl, ?_⟩
        rw [hfield]
        exact (apart_field.member c f).not_packed
  | _ =>
    rw [hp] at h
    cases h

theorem plainRow_of_ownRung {ts : NodeId} (hd : u.leftUnmatched batch n = some d)
    (h : u.ownRung d = some ts) : u.PlainRow ts := by
  obtain ⟨_, hcandidates, hover⟩ := apart_definition (leftUnmatched_eq_some.mp hd).1
  rw [ownRung, Option.orElse_eq_some] at h
  rcases h with h | ⟨_, h⟩
  · obtain ⟨p, hp, rfl⟩ := mem_of_onlyId h
    exact plainRow_of_candidate hover hp
  · unfold acrossRung at h
    split_ifs at h
    obtain ⟨p, hp, rfl⟩ := mem_of_onlyId h
    obtain ⟨r, hr, hline⟩ := List.mem_filterMap.mp hp
    obtain ⟨_, _, rfl⟩ := Option.map_eq_some_iff.mp hline
    obtain ⟨hrow, hsig⟩ := List.mem_filter.mp hr
    exact ⟨r, hrow, rfl, (hcandidates _ (of_decide_eq_true hsig).2.2).not_packed⟩

theorem plainRow_of_sends {ts : NodeId} (h : u.Sends batch n ts) : u.PlainRow ts := by
  rcases h with h | h | ⟨_, m, _, _, h | h⟩
  · exact plainRow_of_spanTwin h
  · exact plainRow_of_fieldTwin h
  · exact plainRow_of_spanTwin h
  · obtain ⟨d, hd, hown⟩ := Option.bind_eq_some_iff.mp h
    exact plainRow_of_ownRung hd hown

/-- The lookups are steady where SCIP's reader has packed every definition of the batch and every
row that only Phase B wrote. -/
theorem steady_of_packed {onlyB : NodeId → Prop}
    (hbatch : ∀ n ∈ batch, IsPacked n.vname.signature)
    (hid : ∀ r ∈ u.nodes.rows, ∀ n ∈ batch, r.id = n.id → IsPacked r.vname.signature)
    (honly : ∀ r ∈ u.nodes.rows, onlyB r.id → IsPacked r.vname.signature) :
    Steady u lex batch onlyB where
  sends := by
    intro n hn ts hts
    obtain ⟨r, hr, rfl, hplain⟩ := plainRow_of_sends hts
    exact ⟨fun hself => hplain (hid r hr n hn hself), fun honlyB => hplain (honly r hr honlyB)⟩
  answers := by
    have hleft : ∀ n ∈ u.leftOvers batch, n ∈ batch := fun n hn => (List.mem_filter.mp hn).1
    intro n _
    apply sameAnswers_of_samePlain
    exact samePlain_written (fun m hm => hbatch m (hleft m hm))
      fun r hr m hm => hid r hr m (hleft m hm)

end Unifier

end Travsr.Daemon

namespace Travsr.Daemon

open Travsr.Core Core.Text Indexer Store

namespace Unifier

variable {u : Unifier} {lex : Lexical} {batch : List Node} {refs : List ScipRef}
  {onlyB : NodeId → Prop} {n : Node} {d : Definition}

/-- A C# class whose constructors SCIP's reader has packed, and which one of them misses. -/
def packedBatch : List Node := optionConstructors ++ [optionConstructor 14 "+3" 200]

def kotlinUnifier : Unifier where
  tables := asciiTables
  nodes := phaseARows "kotlin" [(1, "A.kt", "class:A", "class", 1, 10)]
  corpus := "c"

def kotlinFunction : Node :=
  ⟨11, ⟨"c", "", "A.kt", "kotlin", "fn:A.b"⟩, "function", "", some 40, none, .none⟩

end Unifier

end Travsr.Daemon
