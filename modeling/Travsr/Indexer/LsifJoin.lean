import Mathlib.Data.List.Count
import Mathlib.Data.List.Perm.Subperm
import Travsr.Indexer.CallsiteTokens
import Travsr.Indexer.LsifSpelling

open Travsr.Core Travsr.Core.Text

namespace Travsr.Indexer.Lsif

/-! ### What a dump says -/

variable (es : List Entry)

def Document (d : Nat) (uri : List Char) : Prop := Entry.document d uri ∈ es

def RangeAt (r line : Nat) : Prop := ∃ character, Entry.range r line character ∈ es

def Contains (d r : Nat) : Prop := ∃ ranges, Entry.contains d ranges ∈ es ∧ r ∈ ranges

def Next (r rs : Nat) : Prop := Entry.next r rs ∈ es

def Definition (rs q : Nat) : Prop := Entry.definition rs q ∈ es

def Entry.lists (q : Nat) : Entry → List (Nat × Nat)
  | .item outV doc ranges => if outV = q then ranges.map fun r => (doc, r) else []
  | _ => []

def listed (q : Nat) : List (Nat × Nat) := es.flatMap (Entry.lists q)

/-- Some symbol's definition lists the range. -/
def DefinitionTarget (r : Nat) : Prop := ∃ rs q d, Definition es rs q ∧ (d, r) ∈ listed es q

/-- An id names one vertex; a range has one document and one next edge, and what it points to one
definition result. -/
structure WellFormed : Prop where
  documents : ∀ d u u', Document es d u → Document es d u' → u = u'
  ranges : ∀ r l l', RangeAt es r l → RangeAt es r l' → l = l'
  contained : ∀ d d' r, Contains es d r → Contains es d' r → d = d'
  nexts : ∀ r s s', Next es r s → Next es r s' → s = s'
  definitions : ∀ s q q', Definition es s q → Definition es s q' → q = q'

/-- A range that is no definition target, and a target its definition lists, both of known documents. -/
def IsPair (p : Nat × Nat × Nat) : Prop :=
  ¬DefinitionTarget es p.1 ∧ (∃ l, RangeAt es p.1 l) ∧ (∃ d u, Contains es d p.1 ∧ Document es d u) ∧
    (∃ rs q, Next es p.1 rs ∧ Definition es rs q ∧ p.2 ∈ listed es q) ∧
      (∃ u, Document es p.2.1 u) ∧ ∃ l, RangeAt es p.2.2 l

variable {es}

/-! ### The side tables -/

section Fold

variable {α : Type} {field : Tables → OrdMap Nat α} {puts : Entry → List (Nat × α)}

theorem fold_field (hadd : ∀ t e, field (t.add e) = (puts e).foldl (fun m p => m.insert p.1 p.2) (field t))
    (es : List Entry) (t : Tables) : field (es.foldl Tables.add t) =
      (es.flatMap puts).foldl (fun m p => m.insert p.1 p.2) (field t) := by
  induction es generalizing t with
  | nil => rfl
  | cons e es ih => rw [List.foldl_cons, ih, hadd, List.flatMap_cons, List.foldl_append]

theorem get?_field (hadd : ∀ t e, field (t.add e) = (puts e).foldl (fun m p => m.insert p.1 p.2) (field t))
    (hempty : field Tables.empty = OrdMap.empty) {k : Nat}
    (hone : ∀ v w, (k, v) ∈ es.flatMap puts → (k, w) ∈ es.flatMap puts → v = w) {v : α} :
    (field (tables es)).get? k = some v ↔ (k, v) ∈ es.flatMap puts := by
  have hfield : field (tables es) = OrdMap.ofList (es.flatMap puts) := by
    rw [tables, fold_field hadd, hempty]
    rfl
  rw [hfield, OrdMap.get?_ofList]
  constructor
  · intro h
    obtain ⟨e, he, rfl⟩ := Option.map_eq_some_iff.mp h
    have hmem := List.mem_of_find?_eq_some he
    have hfound := List.find?_some he
    have hkey : e.1 = k := of_decide_eq_true hfound
    rw [← hkey]
    exact List.mem_reverse.mp hmem
  · intro h
    cases hfind : (es.flatMap puts).reverse.find? fun e => e.1 = k with
    | none =>
      have hnone := List.find?_eq_none.mp hfind (k, v) (List.mem_reverse.mpr h)
      exact absurd (decide_eq_true rfl) hnone
    | some e =>
      have hmem := List.mem_reverse.mp (List.mem_of_find?_eq_some hfind)
      have hfound := List.find?_some hfind
      have hkey : e.1 = k := of_decide_eq_true hfound
      have heq : (k, e.2) ∈ es.flatMap puts := by
        rw [← hkey]
        exact hmem
      rw [Option.map_some, hone e.2 v heq h]

end Fold

def documentPuts : Entry → List (Nat × List Char)
  | .document id uri => [(id, fileUriToPath uri)]
  | _ => []

def rangePuts : Entry → List (Nat × Nat)
  | .range id line _ => [(id, asU32 line)]
  | _ => []

def containsPuts : Entry → List (Nat × Nat)
  | .contains doc ranges => ranges.map fun r => (r, doc)
  | _ => []

def nextPuts : Entry → List (Nat × Nat)
  | .next outV inV => [(outV, inV)]
  | _ => []

def definitionPuts : Entry → List (Nat × Nat)
  | .definition outV inV => [(outV, inV)]
  | _ => []

theorem mem_documentPuts {d : Nat} {path : List Char} :
    (d, path) ∈ es.flatMap documentPuts ↔ ∃ uri, Document es d uri ∧ fileUriToPath uri = path := by
  rw [List.mem_flatMap]
  constructor
  · rintro ⟨e, he, hput⟩
    cases e with
    | document id uri =>
      obtain ⟨rfl, rfl⟩ := Prod.mk.inj (List.mem_singleton.mp hput)
      exact ⟨uri, he, rfl⟩
    | _ => exact absurd hput List.not_mem_nil
  · rintro ⟨uri, huri, rfl⟩
    exact ⟨_, huri, List.mem_cons_self⟩

theorem mem_rangePuts {r line : Nat} :
    (r, line) ∈ es.flatMap rangePuts ↔ ∃ l, RangeAt es r l ∧ asU32 l = line := by
  rw [List.mem_flatMap]
  constructor
  · rintro ⟨e, he, hput⟩
    cases e with
    | range id l c =>
      obtain ⟨rfl, rfl⟩ := Prod.mk.inj (List.mem_singleton.mp hput)
      exact ⟨l, ⟨c, he⟩, rfl⟩
    | _ => exact absurd hput List.not_mem_nil
  · rintro ⟨l, ⟨c, hl⟩, rfl⟩
    exact ⟨_, hl, List.mem_cons_self⟩

theorem mem_containsPuts {r d : Nat} : (r, d) ∈ es.flatMap containsPuts ↔ Contains es d r := by
  rw [List.mem_flatMap]
  constructor
  · rintro ⟨e, he, hput⟩
    cases e with
    | contains doc ranges =>
      obtain ⟨r', hr', heq⟩ := List.mem_map.mp hput
      obtain ⟨rfl, rfl⟩ := Prod.mk.inj heq
      exact ⟨ranges, he, hr'⟩
    | _ => exact absurd hput List.not_mem_nil
  · rintro ⟨ranges, he, hr⟩
    exact ⟨_, he, List.mem_map_of_mem hr⟩

theorem mem_nextPuts {r s : Nat} : (r, s) ∈ es.flatMap nextPuts ↔ Next es r s := by
  rw [List.mem_flatMap]
  constructor
  · rintro ⟨e, he, hput⟩
    cases e with
    | next outV inV =>
      obtain ⟨rfl, rfl⟩ := Prod.mk.inj (List.mem_singleton.mp hput)
      exact he
    | _ => exact absurd hput List.not_mem_nil
  · intro h
    exact ⟨_, h, List.mem_cons_self⟩

theorem mem_definitionPuts {s q : Nat} : (s, q) ∈ es.flatMap definitionPuts ↔ Definition es s q := by
  rw [List.mem_flatMap]
  constructor
  · rintro ⟨e, he, hput⟩
    cases e with
    | definition outV inV =>
      obtain ⟨rfl, rfl⟩ := Prod.mk.inj (List.mem_singleton.mp hput)
      exact he
    | _ => exact absurd hput List.not_mem_nil
  · intro h
    exact ⟨_, h, List.mem_cons_self⟩

theorem get?_docPaths (h : WellFormed es) {d : Nat} {path : List Char} :
    (tables es).docPaths.get? d = some path ↔ ∃ uri, Document es d uri ∧ fileUriToPath uri = path := by
  rw [← mem_documentPuts]
  refine @get?_field es _ Tables.docPaths documentPuts ?_ rfl d ?_ path
  · intro t e
    cases e <;> rfl
  · intro v w hv hw
    obtain ⟨u, hu, rfl⟩ := mem_documentPuts.mp hv
    obtain ⟨u', hu', rfl⟩ := mem_documentPuts.mp hw
    rw [h.documents d u u' hu hu']

theorem get?_rangeLines (h : WellFormed es) {r line : Nat} :
    (tables es).rangeLines.get? r = some line ↔ ∃ l, RangeAt es r l ∧ asU32 l = line := by
  rw [← mem_rangePuts]
  refine @get?_field es _ Tables.rangeLines rangePuts ?_ rfl r ?_ line
  · intro t e
    cases e <;> rfl
  · intro v w hv hw
    obtain ⟨l, hl, rfl⟩ := mem_rangePuts.mp hv
    obtain ⟨l', hl', rfl⟩ := mem_rangePuts.mp hw
    rw [h.ranges r l l' hl hl']

theorem get?_rangeDoc (h : WellFormed es) {r d : Nat} :
    (tables es).rangeDoc.get? r = some d ↔ Contains es d r := by
  rw [← mem_containsPuts]
  refine @get?_field es _ Tables.rangeDoc containsPuts ?_ rfl r ?_ d
  · intro t e
    cases e with
    | contains doc ranges =>
      rw [containsPuts, List.foldl_map]
      rfl
    | _ => rfl
  · intro v w hv hw
    exact h.contained v w r (mem_containsPuts.mp hv) (mem_containsPuts.mp hw)

theorem get?_nextEdge (h : WellFormed es) {r s : Nat} :
    (tables es).nextEdge.get? r = some s ↔ Next es r s := by
  rw [← mem_nextPuts]
  refine @get?_field es _ Tables.nextEdge nextPuts ?_ rfl r ?_ s
  · intro t e
    cases e <;> rfl
  · intro v w hv hw
    exact h.nexts r v w (mem_nextPuts.mp hv) (mem_nextPuts.mp hw)

theorem get?_resultDef (h : WellFormed es) {s q : Nat} :
    (tables es).resultDef.get? s = some q ↔ Definition es s q := by
  rw [← mem_definitionPuts]
  refine @get?_field es _ Tables.resultDef definitionPuts ?_ rfl s ?_ q
  · intro t e
    cases e <;> rfl
  · intro v w hv hw
    exact h.definitions s v w (mem_definitionPuts.mp hv) (mem_definitionPuts.mp hw)

theorem items_fold (es : List Entry) (t : Tables) (q : Nat) :
    ((es.foldl Tables.add t).items.get? q).getD [] = (t.items.get? q).getD [] ++ listed es q := by
  induction es generalizing t with
  | nil => exact (List.append_nil _).symm
  | cons e es ih =>
    have hone : ((t.add e).items.get? q).getD [] = (t.items.get? q).getD [] ++ Entry.lists q e := by
      cases e with
      | item outV doc ranges =>
        rw [Tables.add, Entry.lists]
        dsimp only
        rw [OrdMap.get?_insert]
        by_cases hq : q = outV
        · rw [if_pos hq, if_pos hq.symm, hq]
          rfl
        · rw [if_neg hq, if_neg fun h => hq h.symm, List.append_nil]
      | _ => exact (List.append_nil _).symm
    have hlisted : listed (e :: es) q = Entry.lists q e ++ listed es q := rfl
    rw [List.foldl_cons, ih, hone, hlisted, List.append_assoc]

theorem getD_items (es : List Entry) (q : Nat) : ((tables es).items.get? q).getD [] = listed es q :=
  items_fold es Tables.empty q

/-! ### Pairs -/

theorem mem_defRangeIds (h : WellFormed es) {r : Nat} :
    r ∈ (tables es).defRangeIds ↔ DefinitionTarget es r := by
  rw [Tables.defRangeIds, List.mem_flatMap]
  constructor
  · rintro ⟨targets, htargets, hr⟩
    obtain ⟨q, hq, hitems⟩ := List.mem_filterMap.mp htargets
    obtain ⟨e, he, rfl⟩ := List.mem_map.mp hq
    obtain ⟨target, htarget, rfl⟩ := List.mem_map.mp hr
    have hlisted : listed es e.2 = targets := by
      rw [← getD_items, hitems]
      rfl
    refine ⟨e.1, e.2, target.1, ?_, hlisted ▸ htarget⟩
    exact (get?_resultDef h).mp (OrdMap.get?_eq_some.mpr he)
  · rintro ⟨rs, q, d, hdef, hlisted⟩
    have hq : q ∈ (tables es).resultDef.values :=
      List.mem_map_of_mem (OrdMap.get?_eq_some.mp ((get?_resultDef h).mpr hdef))
    rw [← getD_items] at hlisted
    cases hitems : (tables es).items.get? q with
    | none =>
      rw [hitems] at hlisted
      exact absurd hlisted List.not_mem_nil
    | some targets =>
      rw [hitems] at hlisted
      exact ⟨targets, List.mem_filterMap.mpr ⟨q, hq, hitems⟩, List.mem_map_of_mem hlisted⟩

theorem occurrence_eq_some (h : WellFormed es) {r : Nat} {path : List Char} {targets : List (Nat × Nat)} :
    (tables es).occurrence r = some (path, targets) ↔
      ¬DefinitionTarget es r ∧ (∃ d u, Contains es d r ∧ Document es d u ∧ fileUriToPath u = path) ∧
        ∃ rs q, Next es r rs ∧ Definition es rs q ∧ (tables es).items.get? q = some targets := by
  rw [Tables.occurrence, ← mem_defRangeIds h]
  by_cases hdef : r ∈ (tables es).defRangeIds
  · rw [if_pos hdef]
    exact iff_of_false (fun h => nomatch h) fun h => h.1 hdef
  · rw [if_neg hdef]
    simp only [bind, Option.bind_eq_some_iff, Option.some.injEq, Prod.mk.injEq, get?_rangeDoc h,
      get?_nextEdge h, get?_docPaths h, get?_resultDef h]
    constructor
    · rintro ⟨d, hd, rs, hrs, abs, ⟨u, hu, rfl⟩, q, hq, ts, hts, rfl, rfl⟩
      exact ⟨hdef, ⟨d, u, hd, hu, rfl⟩, rs, q, hrs, hq, hts⟩
    · rintro ⟨-, ⟨d, u, hd, hu, rfl⟩, rs, q, hrs, hq, hts⟩
      exact ⟨d, hd, rs, hrs, _, ⟨u, hu, rfl⟩, q, hq, targets, hts, rfl, rfl⟩

def Tables.visits (t : Tables) : List (Nat × Nat × Nat) :=
  t.rangeLines.entries.flatMap fun r =>
    (((t.occurrence r.1).map Prod.snd).getD []).map fun target => (r.1, target)

def emitted (src : Sources) (root : List Char) (t : Tables) (p : Nat × Nat × Nat) : Option PositionalRef := do
  let line ← t.rangeLines.get? p.1
  let (callerAbs, _) ← t.occurrence p.1
  reference src t (normalizedBasePrefix root) p.1 line callerAbs p.2

variable {src : Sources} {root : List Char}

theorem ingest_eq : ingest src root es =
    (tables es).visits.filterMap (emitted src root (tables es)) := by
  rw [ingest, Tables.visits, List.filterMap_flatMap]
  refine List.flatMap_congr fun r hr => ?_
  have hline : (tables es).rangeLines.get? r.1 = some r.2 := OrdMap.get?_eq_some.mpr hr
  cases hocc : (tables es).occurrence r.1 with
  | none => rfl
  | some occ =>
    rw [Option.map_some, Option.getD_some, List.filterMap_map]
    refine List.filterMap_congr fun target _ => ?_
    dsimp only [Function.comp_apply]
    rw [emitted, hline]
    dsimp only
    rw [Option.bind_eq_bind, Option.bind_some, hocc]
    rfl

theorem emitted_eq_some (h : WellFormed es) {p : Nat × Nat × Nat} {ref : PositionalRef}
    (href : emitted src root (tables es) p = some ref) :
    ¬DefinitionTarget es p.1 ∧ (∃ l, RangeAt es p.1 l ∧ ref.callerLine = oneBased (asU32 l)) ∧
      (∃ d u, Contains es d p.1 ∧ Document es d u ∧
        ref.callerPath = relativeToBase (normalizedBasePrefix root) (fileUriToPath u)) ∧
      (∃ u, Document es p.2.1 u ∧
        ref.calleeDefPath = relativeToBase (normalizedBasePrefix root) (fileUriToPath u)) ∧
      ∃ l, RangeAt es p.2.2 l ∧ ref.calleeDefLine = oneBased (asU32 l) := by
  unfold emitted reference at href
  simp only [bind, Option.bind_eq_some_iff, Option.some.injEq, Prod.exists] at href
  obtain ⟨line, hline, path, targets, hocc, abs, habs, defLine, hdefLine, rfl⟩ := href
  obtain ⟨hdef, ⟨d, u, hd, hu, rfl⟩, -⟩ := (occurrence_eq_some h).mp hocc
  obtain ⟨l, hl, rfl⟩ := (get?_rangeLines h).mp hline
  obtain ⟨u', hu', rfl⟩ := (get?_docPaths h).mp habs
  obtain ⟨l', hl', rfl⟩ := (get?_rangeLines h).mp hdefLine
  exact ⟨hdef, ⟨l, hl, rfl⟩, ⟨d, u, hd, hu, rfl⟩, ⟨u', hu', rfl⟩, ⟨l', hl', rfl⟩⟩

def Tables.targets (t : Tables) (r : Nat) : List (Nat × Nat) := ((t.occurrence r).map Prod.snd).getD []

theorem targets_eq (h : WellFormed es) {r rs q : Nat} (hdef : ¬DefinitionTarget es r)
    (hdoc : ∃ d u, Contains es d r ∧ Document es d u) (hnext : Next es r rs) (hq : Definition es rs q) :
    (tables es).targets r = listed es q := by
  obtain ⟨d, u, hd, hu⟩ := hdoc
  rw [← getD_items, Tables.targets]
  cases hitems : (tables es).items.get? q with
  | some targets =>
    have hocc := (occurrence_eq_some h).mpr ⟨hdef, ⟨d, u, hd, hu, rfl⟩, rs, q, hnext, hq, hitems⟩
    rw [hocc]
    rfl
  | none =>
    cases hocc : (tables es).occurrence r with
    | none => rfl
    | some occ =>
      obtain ⟨-, -, rs', q', hnext', hq', hitems'⟩ := (occurrence_eq_some h).mp hocc
      cases h.nexts r rs rs' hnext hnext'
      cases h.definitions rs q q' hq hq'
      exact nomatch hitems.symm.trans hitems'

theorem mem_targets (h : WellFormed es) {r : Nat} {target : Nat × Nat} :
    target ∈ (tables es).targets r ↔ ¬DefinitionTarget es r ∧
      (∃ d u, Contains es d r ∧ Document es d u) ∧
        ∃ rs q, Next es r rs ∧ Definition es rs q ∧ target ∈ listed es q := by
  constructor
  · intro htarget
    cases hocc : (tables es).occurrence r with
    | none =>
      rw [Tables.targets, hocc] at htarget
      exact absurd htarget List.not_mem_nil
    | some occ =>
      obtain ⟨hdef, ⟨d, u, hd, hu, -⟩, rs, q, hnext, hq, -⟩ := (occurrence_eq_some h).mp hocc
      rw [targets_eq h hdef ⟨d, u, hd, hu⟩ hnext hq] at htarget
      exact ⟨hdef, ⟨d, u, hd, hu⟩, rs, q, hnext, hq, htarget⟩
  · rintro ⟨hdef, hdoc, rs, q, hnext, hq, htarget⟩
    rw [targets_eq h hdef hdoc hnext hq]
    exact htarget

theorem isSome_emitted (h : WellFormed es) {p : Nat × Nat × Nat} (hline : ∃ l, RangeAt es p.1 l)
    (htarget : p.2 ∈ (tables es).targets p.1) :
    (emitted src root (tables es) p).isSome ↔
      (∃ u, Document es p.2.1 u) ∧ ∃ l, RangeAt es p.2.2 l := by
  obtain ⟨l, hl⟩ := hline
  have hline' := (get?_rangeLines h).mpr ⟨l, hl, rfl⟩
  constructor
  · intro hsome
    obtain ⟨ref, href⟩ := Option.isSome_iff_exists.mp hsome
    obtain ⟨-, -, -, ⟨u, hu, -⟩, l', hl', -⟩ := emitted_eq_some h href
    exact ⟨⟨u, hu⟩, l', hl'⟩
  · rintro ⟨⟨u, hu⟩, l', hl'⟩
    have hdef := (get?_docPaths h).mpr ⟨u, hu, rfl⟩
    have hdefLine := (get?_rangeLines h).mpr ⟨l', hl', rfl⟩
    cases hocc : (tables es).occurrence p.1 with
    | none =>
      rw [Tables.targets, hocc] at htarget
      exact absurd htarget List.not_mem_nil
    | some occ =>
      unfold emitted reference
      simp only [bind, hline', hocc, hdef, hdefLine, Option.bind_some, Option.isSome_some]

theorem mem_visits {t : Tables} {p : Nat × Nat × Nat} :
    p ∈ t.visits ↔ (∃ line, t.rangeLines.get? p.1 = some line) ∧ p.2 ∈ t.targets p.1 := by
  rw [Tables.visits, List.mem_flatMap]
  constructor
  · rintro ⟨r, hr, hp⟩
    obtain ⟨target, htarget, rfl⟩ := List.mem_map.mp hp
    exact ⟨⟨r.2, OrdMap.get?_eq_some.mpr hr⟩, htarget⟩
  · rintro ⟨⟨line, hline⟩, htarget⟩
    exact ⟨(p.1, line), OrdMap.get?_eq_some.mp hline, List.mem_map.mpr ⟨p.2, htarget, rfl⟩⟩

theorem isPair_iff (src : Sources) (root : List Char) (h : WellFormed es) {p : Nat × Nat × Nat} :
    IsPair es p ↔ p ∈ (tables es).visits ∧ (emitted src root (tables es) p).isSome := by
  rw [mem_visits]
  have hlines : (∃ line, (tables es).rangeLines.get? p.1 = some line) ↔ ∃ l, RangeAt es p.1 l := by
    constructor
    · rintro ⟨line, hline⟩
      obtain ⟨l, hl, -⟩ := (get?_rangeLines h).mp hline
      exact ⟨l, hl⟩
    · rintro ⟨l, hl⟩
      exact ⟨_, (get?_rangeLines h).mpr ⟨l, hl, rfl⟩⟩
  rw [hlines]
  constructor
  · rintro ⟨hdef, hline, hdoc, hlisted, hknown, hknown'⟩
    have htarget := (mem_targets h).mpr ⟨hdef, hdoc, hlisted⟩
    exact ⟨⟨hline, htarget⟩, (isSome_emitted h hline htarget).mpr ⟨hknown, hknown'⟩⟩
  · rintro ⟨⟨hline, htarget⟩, hsome⟩
    obtain ⟨hknown, hknown'⟩ := (isSome_emitted h hline htarget).mp hsome
    obtain ⟨hdef, hdoc, hlisted⟩ := (mem_targets h).mp htarget
    exact ⟨hdef, hline, hdoc, hlisted, hknown, hknown'⟩

theorem count_map_pair (targets : List (Nat × Nat)) (r : Nat) (p : Nat × Nat × Nat) :
    (targets.map fun target => (r, target)).count p = if r = p.1 then targets.count p.2 else 0 := by
  split_ifs with hr
  · have hinj : Function.Injective fun target : Nat × Nat => (r, target) :=
      fun a b h => (Prod.mk.inj h).2
    have hp : p = (fun target => (r, target)) p.2 := Prod.ext hr.symm rfl
    rw [hp, List.count_map_of_injective _ _ hinj]
  · refine List.count_eq_zero.mpr fun hmem => hr ?_
    obtain ⟨target, -, rfl⟩ := List.mem_map.mp hmem
    rfl

theorem count_visits (t : Tables) {p : Nat × Nat × Nat} (hline : ∃ line, t.rangeLines.get? p.1 = some line) :
    t.visits.count p = (t.targets p.1).count p.2 := by
  obtain ⟨line, hline⟩ := hline
  have hmem := OrdMap.get?_eq_some.mp hline
  have hone (es : List (Nat × Nat)) (hs : es.Pairwise fun e e' => e.1 < e'.1)
      (hmem : (p.1, line) ∈ es) :
      (es.flatMap fun r => (t.targets r.1).map fun target => (r.1, target)).count p =
        (t.targets p.1).count p.2 := by
    induction es with
    | nil => exact absurd hmem List.not_mem_nil
    | cons e es ih =>
      obtain ⟨hlt, hs⟩ := List.pairwise_cons.mp hs
      rw [List.flatMap_cons, List.count_append, count_map_pair]
      rcases List.mem_cons.mp hmem with rfl | hmem
      · have hrest : (es.flatMap fun r => (t.targets r.1).map fun target => (r.1, target)).count p = 0 := by
          refine List.count_eq_zero.mpr fun hp => ?_
          obtain ⟨r, hr, hp⟩ := List.mem_flatMap.mp hp
          obtain ⟨target, -, rfl⟩ := List.mem_map.mp hp
          exact absurd (hlt r hr) (lt_irrefl _)
        rw [hrest, if_pos rfl, Nat.add_zero]
      · have hne : e.1 ≠ p.1 := (hlt _ hmem).ne
        rw [if_neg hne, Nat.zero_add, ih hs hmem]
  exact hone t.rangeLines.entries t.rangeLines.sorted hmem

/-! ### The join -/

/-- The path is the one relative to the root, for a document that lies below it. -/
def RightPath (root : Root) (uri path : List Char) : Prop :=
  ∀ u : Uri, u.uri = uri → ∀ rel, Under root u rel → path = joinSlash rel

/-- The reference of a pair: its lines are one more than the dump's, its paths relative. -/
structure Right (es : List Entry) (root : Root) (p : Nat × Nat × Nat) (ref : PositionalRef) : Prop where
  callerLine : ∀ l, RangeAt es p.1 l → ref.callerLine = l + 1
  calleeDefLine : ∀ l, RangeAt es p.2.2 l → ref.calleeDefLine = l + 1
  callerPath : ∀ d uri, Contains es d p.1 → Document es d uri → RightPath root uri ref.callerPath
  calleeDefPath : ∀ uri, Document es p.2.1 uri → RightPath root uri ref.calleeDefPath

/-- The ingestion makes one reference of each pair, and it is right. -/
def Joins (src : Sources) (root : Root) (es : List Entry) : Prop :=
  (∃ pairs : List (Nat × Nat × Nat), pairs.Nodup ∧ (∀ p, p ∈ pairs ↔ IsPair es p) ∧
    ((ingest src root.path es).map some).Perm (pairs.map (emitted src root.path (tables es)))) ∧
  ∀ p, IsPair es p → ∀ ref, emitted src root.path (tables es) p = some ref → Right es root p ref

/-- The line, one based, fits 32 bits. -/
def Fits (es : List Entry) (r : Nat) : Prop := ∀ l, RangeAt es r l → l + 1 < UInt32.size

/-- A document below the root is spelled as the code finds it. -/
def Spelled (root : Root) (uri : List Char) : Prop :=
  ∀ u : Uri, u.uri = uri → ∀ rel, Under root u rel → Found root u rel

/-- Its definition lists the target of a pair once, and lines and spellings are such that the code
gets them right. -/
structure Sound (es : List Entry) (root : Root) (p : Nat × Nat × Nat) : Prop where
  once : ∀ rs q, Next es p.1 rs → Definition es rs q → (listed es q).count p.2 ≤ 1
  callerLine : Fits es p.1
  calleeDefLine : Fits es p.2.2
  caller : ∀ d uri, Contains es d p.1 → Document es d uri → Spelled root uri
  calleeDef : ∀ uri, Document es p.2.1 uri → Spelled root uri

theorem oneBased_eq_iff {l : Nat} : oneBased (asU32 l) = l + 1 ↔ l + 1 < UInt32.size := by
  have hsize : UInt32.size = 4294967296 := rfl
  unfold oneBased asU32
  rw [hsize]
  omega

theorem rightPath_iff {root : Root} {uri : List Char} :
    RightPath root uri (relativeToBase (normalizedBasePrefix root.path) (fileUriToPath uri)) ↔
      Spelled root uri := by
  unfold RightPath Spelled
  refine forall_congr' fun u => forall_congr' fun huri => forall_congr' fun rel => forall_congr' fun hrel => ?_
  rw [← huri]
  exact found_iff hrel

theorem right_iff (h : WellFormed es) {root : Root} {p : Nat × Nat × Nat} {ref : PositionalRef}
    (href : emitted src root.path (tables es) p = some ref) :
    Right es root p ref ↔ Fits es p.1 ∧ Fits es p.2.2 ∧
      (∀ d uri, Contains es d p.1 → Document es d uri → Spelled root uri) ∧
        ∀ uri, Document es p.2.1 uri → Spelled root uri := by
  obtain ⟨-, ⟨l, hl, hline⟩, ⟨d, u, hd, hu, hpath⟩, ⟨u', hu', hpath'⟩, l', hl', hline'⟩ :=
    emitted_eq_some h href
  have hfits : (∀ k, RangeAt es p.1 k → ref.callerLine = k + 1) ↔ Fits es p.1 := by
    refine forall_congr' fun k => forall_congr' fun hk => ?_
    rw [hline, h.ranges _ k l hk hl]
    exact oneBased_eq_iff
  have hfits' : (∀ k, RangeAt es p.2.2 k → ref.calleeDefLine = k + 1) ↔ Fits es p.2.2 := by
    refine forall_congr' fun k => forall_congr' fun hk => ?_
    rw [hline', h.ranges _ k l' hk hl']
    exact oneBased_eq_iff
  have hcaller : (∀ d uri, Contains es d p.1 → Document es d uri → RightPath root uri ref.callerPath) ↔
      ∀ d uri, Contains es d p.1 → Document es d uri → Spelled root uri := by
    refine forall_congr' fun e => forall_congr' fun uri => forall_congr' fun he => forall_congr' fun huri => ?_
    have hsame := h.contained e d p.1 he hd
    rw [hpath, h.documents d uri u (hsame ▸ huri) hu]
    exact rightPath_iff
  have hcallee : (∀ uri, Document es p.2.1 uri → RightPath root uri ref.calleeDefPath) ↔
      ∀ uri, Document es p.2.1 uri → Spelled root uri := by
    refine forall_congr' fun uri => forall_congr' fun huri => ?_
    rw [hpath', h.documents _ uri u' huri hu']
    exact rightPath_iff
  rw [← hfits, ← hfits', ← hcaller, ← hcallee]
  constructor
  · intro hright
    exact ⟨hright.callerLine, hright.calleeDefLine, hright.callerPath, hright.calleeDefPath⟩
  · rintro ⟨hone, htwo, hthree, hfour⟩
    exact ⟨hone, htwo, hthree, hfour⟩

theorem map_some_filterMap {α β : Type} (f : α → Option β) (l : List α) :
    (l.filterMap f).map some = (l.filter fun a => (f a).isSome).map f := by
  induction l with
  | nil => rfl
  | cons a l ih =>
    cases hf : f a with
    | none => rw [List.filterMap_cons_none hf, List.filter_cons_of_neg (by rw [hf]; exact Bool.false_ne_true), ih]
    | some b =>
      rw [List.filterMap_cons_some hf, List.filter_cons_of_pos (by rw [hf]; rfl), List.map_cons, List.map_cons,
        ih, hf]

/-- One reference comes of each pair exactly if no definition lists a pair's target twice. -/
theorem once_iff (h : WellFormed es) :
    (∃ pairs : List (Nat × Nat × Nat), pairs.Nodup ∧ (∀ p, p ∈ pairs ↔ IsPair es p) ∧
      ((ingest src root es).map some).Perm (pairs.map (emitted src root (tables es)))) ↔
      ∀ p, IsPair es p → ∀ rs q, Next es p.1 rs → Definition es rs q → (listed es q).count p.2 ≤ 1 := by
  have hmem (p : Nat × Nat × Nat) :
      p ∈ (tables es).visits.filter (fun p => (emitted src root (tables es) p).isSome) ↔ IsPair es p := by
    rw [List.mem_filter, ← isPair_iff src root h]
  have hcount {p : Nat × Nat × Nat} (hp : IsPair es p) {rs q : Nat} (hnext : Next es p.1 rs)
      (hq : Definition es rs q) :
      ((tables es).visits.filter fun p => (emitted src root (tables es) p).isSome).count p =
        (listed es q).count p.2 := by
    obtain ⟨hvisit, hsome⟩ := (isPair_iff src root h).mp hp
    have hfilter := @List.count_filter _ _ _ (fun p => (emitted src root (tables es) p).isSome) p
      (tables es).visits hsome
    rw [hfilter, count_visits _ (mem_visits.mp hvisit).1,
      targets_eq h hp.1 hp.2.2.1 hnext hq]
  rw [ingest_eq, map_some_filterMap]
  constructor
  · rintro ⟨pairs, hnodup, hpairs, hperm⟩ p hp rs q hnext hq
    have hlen := hperm.length_eq
    rw [List.length_map, List.length_map] at hlen
    have hsub : pairs.Subperm ((tables es).visits.filter fun p => (emitted src root (tables es) p).isSome) :=
      List.subperm_of_subset hnodup fun p hp => (hmem p).mpr ((hpairs p).mp hp)
    have hsame := hsub.perm_of_length_le hlen.le
    rw [← hcount hp hnext hq, ← hsame.count_eq]
    exact List.nodup_iff_count_le_one.mp hnodup p
  · intro honce
    refine ⟨_, ?_, hmem, List.Perm.refl _⟩
    rw [List.nodup_iff_count_le_one]
    intro p
    by_cases hp : IsPair es p
    · obtain ⟨rs, q, hnext, hq, -⟩ := hp.2.2.2.1
      rw [hcount hp hnext hq]
      exact honce p hp rs q hnext hq
    · rw [List.count_eq_zero.mpr fun hin => hp ((hmem p).mp hin)]
      exact Nat.zero_le 1

theorem joins_iff_sound (h : WellFormed es) (src : Sources) (root : Root) :
    Joins src root es ↔ ∀ p, IsPair es p → Sound es root p := by
  unfold Joins
  rw [once_iff h]
  constructor
  · rintro ⟨honce, hright⟩ p hp
    obtain ⟨ref, href⟩ := Option.isSome_iff_exists.mp
      ((isPair_iff src root.path h).mp hp).2
    obtain ⟨hline, hline', hcaller, hcallee⟩ := (right_iff h href).mp (hright p hp ref href)
    exact ⟨honce p hp, hline, hline', hcaller, hcallee⟩
  · intro hsound
    refine ⟨fun p hp => (hsound p hp).once, fun p hp ref href => (right_iff h href).mpr ?_⟩
    have hs := hsound p hp
    exact ⟨hs.callerLine, hs.calleeDefLine, hs.caller, hs.calleeDef⟩

/-- The lines of a dump in which ids are unique and each range has at most one document, next edge and
definition result. -/
structure Dump (parse : List Char → Option Value) where
  lines : List (List Char)
  wellFormed : WellFormed (entries parse lines)

/-- The ingestion is the join exactly if every pair of the dump is sound. -/
theorem ingest_joins_iff (parse : List Char → Option Value) (src : Sources) (root : Root) (dump : Dump parse) :
    Joins src root (entries parse dump.lines) ↔
      ∀ p, IsPair (entries parse dump.lines) p → Sound (entries parse dump.lines) root p :=
  joins_iff_sound dump.wellFormed src root

/-! ### A file with a space in its name -/

theorem escapes_self {text : List Char} (h : '%' ∉ text) : Escapes text text := by
  induction text with
  | nil => exact .nil
  | cons c text ih =>
    exact .char (fun hc => h (hc ▸ List.mem_cons_self)) (ih fun hmem => h (List.mem_cons_of_mem _ hmem))

/-- A dump of one use of one symbol, line by line with what the lines parse to. -/
def spacedLines : List (String × Value) :=
  [("\x7b\"id\":1,\"type\":\"vertex\",\"label\":\"document\",\"uri\":\"file:///r/a%20b.rs\"\x7d",
      .obj [("id", .num 1), ("type", .str "vertex".toList), ("label", .str "document".toList),
        ("uri", .str "file:///r/a%20b.rs".toList)]),
    ("\x7b\"id\":2,\"type\":\"vertex\",\"label\":\"range\",\"start\":\x7b\"line\":0,\"character\":3\x7d\x7d",
      .obj [("id", .num 2), ("type", .str "vertex".toList), ("label", .str "range".toList),
        ("start", .obj [("line", .num 0), ("character", .num 3)])]),
    ("\x7b\"id\":3,\"type\":\"vertex\",\"label\":\"range\",\"start\":\x7b\"line\":4,\"character\":2\x7d\x7d",
      .obj [("id", .num 3), ("type", .str "vertex".toList), ("label", .str "range".toList),
        ("start", .obj [("line", .num 4), ("character", .num 2)])]),
    ("\x7b\"id\":6,\"type\":\"edge\",\"label\":\"contains\",\"outV\":1,\"inVs\":[2,3]\x7d",
      .obj [("id", .num 6), ("type", .str "edge".toList), ("label", .str "contains".toList),
        ("outV", .num 1), ("inVs", .arr [.num 2, .num 3])]),
    ("\x7b\"id\":7,\"type\":\"edge\",\"label\":\"next\",\"outV\":3,\"inV\":4\x7d",
      .obj [("id", .num 7), ("type", .str "edge".toList), ("label", .str "next".toList), ("outV", .num 3),
        ("inV", .num 4)]),
    ("\x7b\"id\":8,\"type\":\"edge\",\"label\":\"textDocument/definition\",\"outV\":4,\"inV\":5\x7d",
      .obj [("id", .num 8), ("type", .str "edge".toList), ("label", .str "textDocument/definition".toList),
        ("outV", .num 4), ("inV", .num 5)]),
    ("\x7b\"id\":9,\"type\":\"edge\",\"label\":\"item\",\"outV\":5,\"document\":1,\"inVs\":[2]\x7d",
      .obj [("id", .num 9), ("type", .str "edge".toList), ("label", .str "item".toList), ("outV", .num 5),
        ("document", .num 1), ("inVs", .arr [.num 2])])]

def spacedParse (line : List Char) : Option Value :=
  (spacedLines.find? fun l => l.1.toList = line).map Prod.snd

def spacedEntries : List Entry :=
  [.document 1 "file:///r/a%20b.rs".toList, .range 2 0 (some 3), .range 3 4 (some 2), .contains 1 [2, 3],
    .next 3 4, .definition 4 5, .item 5 1 [2]]

theorem entries_spaced : entries spacedParse (spacedLines.map fun l => l.1.toList) = spacedEntries := by
  decide +kernel

def spacedDump : Dump spacedParse where
  lines := spacedLines.map fun l => l.1.toList
  wellFormed := by
    rw [entries_spaced]
    constructor
    · intro d u u' hu hu'
      simp only [Document, spacedEntries, List.mem_cons, Entry.document.injEq, reduceCtorEq, or_false,
        List.not_mem_nil] at hu hu'
      rw [hu.2, hu'.2]
    · intro r l l' hl hl'
      simp only [RangeAt, spacedEntries, List.mem_cons, Entry.range.injEq, reduceCtorEq, or_false, false_or,
        List.not_mem_nil] at hl hl'
      omega
    · intro d d' r hd hd'
      simp only [Contains, spacedEntries, List.mem_cons, Entry.contains.injEq, reduceCtorEq, or_false,
        false_or, List.not_mem_nil] at hd hd'
      omega
    · intro r s s' hs hs'
      simp only [Next, spacedEntries, List.mem_cons, Entry.next.injEq, reduceCtorEq, or_false, false_or,
        List.not_mem_nil] at hs hs'
      omega
    · intro s q q' hq hq'
      simp only [Definition, spacedEntries, List.mem_cons, Entry.definition.injEq, reduceCtorEq, or_false,
        false_or, List.not_mem_nil] at hq hq'
      omega

def spacedRoot : Root where
  form := .unix
  comps := [['r']]
  trailing := false
  tail := ['/', 'r']
  names := by
    refine ⟨?_, fun h => absurd rfl h, fun h => nomatch h⟩
    unfold Components
    simp
  letter := fun v l h => nomatch h
  spelled := rfl

def spacedUri : Uri where
  form := .unix
  comps := [['r'], "a b.rs".toList]
  encs := [['r'], "a%20b.rs".toList]
  tail := "/r/a%20b.rs".toList
  names := by
    refine ⟨?_, fun h => absurd rfl h, fun h => nomatch h⟩
    unfold Components
    simp
  escapes := by
    refine .cons (escapes_self (by decide)) (.cons ?_ .nil)
    have hspace : Escapes "%20b.rs".toList " b.rs".toList :=
      Escapes.escaped [(false, 0x20)] rfl (escapes_self (by decide))
    exact .char (by decide) hspace
  letter := fun v l colon h => nomatch h
  spelled := rfl

/-- The space stays escaped in the path. -/
theorem space_stays_escaped : ¬∀ (parse : List Char → Option Value) (src : Sources) (root : Root)
    (dump : Dump parse), Joins src root (entries parse dump.lines) := by
  intro h
  have hjoins := h spacedParse ⟨Callsite.asciiTable, fun _ => none⟩ spacedRoot spacedDump
  have hentries : entries spacedParse spacedDump.lines = spacedEntries := entries_spaced
  have hpair : IsPair spacedEntries (3, 1, 2) := by
    refine ⟨?_, ⟨4, some 2, by simp [spacedEntries]⟩,
      ⟨1, _, ⟨[2, 3], by simp [spacedEntries], by simp⟩, List.mem_cons_self⟩,
      ⟨4, 5, by simp [Next, spacedEntries], by simp [Definition, spacedEntries], by decide⟩,
      ⟨_, List.mem_cons_self⟩, ⟨0, some 3, by simp [spacedEntries]⟩⟩
    rintro ⟨rs, q, d, hdef, hlisted⟩
    simp only [Definition, spacedEntries, List.mem_cons, Entry.definition.injEq, reduceCtorEq, or_false,
      false_or, List.not_mem_nil] at hdef
    rw [hdef.2] at hlisted
    have hlist : listed spacedEntries 5 = [(1, 2)] := rfl
    rw [hlist, List.mem_singleton] at hlisted
    exact absurd (Prod.mk.inj hlisted).2 (by decide)
  have hsound := (joins_iff_sound spacedDump.wellFormed _ _).mp hjoins (3, 1, 2) (hentries ▸ hpair)
  rw [hentries] at hsound
  have hunder : Under spacedRoot spacedUri ["a b.rs".toList] := ⟨List.cons_ne_nil _ _, rfl, rfl⟩
  have hfound := hsound.calleeDef "file:///r/a%20b.rs".toList List.mem_cons_self spacedUri rfl _ hunder
  exact absurd hfound.1 (by decide)

end Travsr.Indexer.Lsif
