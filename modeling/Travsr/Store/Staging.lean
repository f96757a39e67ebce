import Mathlib.Data.String.Basic
import Travsr.Store.BatchOrder

namespace Travsr.Store

open Travsr.Core Relational

namespace SqliteStore

section MaxColumn

variable {α : Type} [LinearOrder α]

/-- A column's value does not exceed another's; NULL is below everything. -/
def AtMost (v o : Option α) : Prop := ∀ a ∈ v, ∃ b ∈ o, a ≤ b

instance (v o : Option α) : Decidable (AtMost v o) :=
  match v, o with
  | none, _ => isTrue fun _ h => by cases h
  | some a, none => isFalse fun h => by
    obtain ⟨b, hb, _⟩ := h a rfl
    cases hb
  | some a, some b => decidable_of_iff (a ≤ b) (by simp [AtMost])

theorem AtMost.trans {u v w : Option α} (h : AtMost u v) (h' : AtMost v w) : AtMost u w := by
  intro a ha
  obtain ⟨b, hb, hab⟩ := h a ha
  obtain ⟨c, hc, hbc⟩ := h' b hb
  exact ⟨c, hc, hab.trans hbc⟩

theorem AtMost.antisymm {v w : Option α} (h : AtMost v w) (h' : AtMost w v) : v = w := by
  cases v with
  | none =>
    cases w with
    | none => rfl
    | some b =>
      obtain ⟨a, ha, _⟩ := h' b rfl
      cases ha
  | some a =>
    obtain ⟨b, hb, hab⟩ := h a rfl
    obtain ⟨c, hc, hbc⟩ := h' b hb
    obtain rfl := Option.some.inj hc
    rw [Option.mem_def.mp hb, le_antisymm hab hbc]

theorem maxColumn_concat (values : List (Option α)) (v : Option α) :
    maxColumn (values ++ [v]) =
      Option.merge (fun a b => if a < b then b else a) (maxColumn values) v := by
  rw [maxColumn, List.foldl_append]
  rfl

/-- `MAX` is one of the values or NULL, and no value exceeds it. -/
theorem maxColumn_spec (values : List (Option α)) :
    (maxColumn values = none ∨ maxColumn values ∈ values) ∧
      ∀ v ∈ values, AtMost v (maxColumn values) := by
  induction values using List.reverseRecOn with
  | nil => exact ⟨.inl rfl, fun v hv => absurd hv List.not_mem_nil⟩
  | append_singleton values v ih =>
    obtain ⟨hmem, hle⟩ := ih
    rw [maxColumn_concat]
    have hgrow : AtMost (maxColumn values)
          (Option.merge (fun a b => if a < b then b else a) (maxColumn values) v) ∧
        AtMost v (Option.merge (fun a b => if a < b then b else a) (maxColumn values) v) := by
      cases maxColumn values with
      | none => cases v <;> simp [AtMost]
      | some a =>
        cases v with
        | none => simp [AtMost]
        | some b =>
          by_cases hab : a < b
          · simp [AtMost, hab, hab.le]
          · simp [AtMost, hab, not_lt.mp hab]
    constructor
    · have hcases : Option.merge (fun a b => if a < b then b else a) (maxColumn values) v =
          maxColumn values ∨
          Option.merge (fun a b => if a < b then b else a) (maxColumn values) v = v := by
        cases maxColumn values with
        | none => cases v <;> simp
        | some a =>
          cases v with
          | none => simp
          | some b => by_cases hab : a < b <;> simp [hab]
      rcases hcases with h | h
      · rw [h]
        exact hmem.imp_right fun hm => List.mem_append_left _ hm
      · right
        rw [h]
        exact List.mem_append_right _ List.mem_cons_self
    · intro u hu
      rcases List.mem_append.mp hu with hu | hu
      · exact (hle u hu).trans hgrow.1
      · rw [List.mem_singleton.mp hu]
        exact hgrow.2

/-- A value of the column is its `MAX` exactly when no other exceeds it. -/
theorem maxColumn_eq_iff {values : List (Option α)} {o : Option α} (ho : o = none ∨ o ∈ values) :
    maxColumn values = o ↔ ∀ v ∈ values, AtMost v o := by
  obtain ⟨hmem, hle⟩ := maxColumn_spec values
  constructor
  · intro h
    rwa [h] at hle
  · intro h
    refine AtMost.antisymm ?_ ?_
    · rcases hmem with hm | hm
      · rw [hm]
        exact fun a ha => by cases ha
      · exact h _ hm
    · rcases ho with ho | ho
      · rw [ho]
        exact fun a ha => by cases ha
      · exact hle _ ho

end MaxColumn

variable {env : Env} {bulk : Bool} {s s' : SqliteStore} {batch : List FileGraph}

def boundRows (env : Env) (batch : List FileGraph) (x : NodeId) : List NodeRow :=
  batch.flatMap (FileGraph.rowsOf env x)

def standingRows (env : Env) : List FileGraph → NodeId → List NodeRow
  | [], _ => []
  | file :: batch, x =>
    (file.rowsOf env x).filter (fun r => ∀ g ∈ batch, ¬ g.InScope r) ++ standingRows env batch x

theorem mem_boundRows {x : NodeId} {r : NodeRow} (h : r ∈ boundRows env batch x) :
    ∃ n ∈ batch.flatMap FileGraph.nodes, n.id = x ∧ r.id = x ∧ r.vname = n.vname := by
  obtain ⟨file, hf, hr⟩ := List.mem_flatMap.mp h
  obtain ⟨n, hn, hx, hid, hv⟩ := FileGraph.mem_rowsOf hr
  exact ⟨n, List.mem_flatMap.mpr ⟨file, hf, hn⟩, hx, hid, hv⟩

theorem boundRows_eq_nil_iff {x : NodeId} :
    boundRows env batch x = [] ↔ ¬ ∃ n ∈ batch.flatMap FileGraph.nodes, n.id = x := by
  constructor
  · intro h hex
    obtain ⟨n, hn, hx⟩ := hex
    obtain ⟨file, hf, hn⟩ := List.mem_flatMap.mp hn
    have hr : NodeRow.ofNode n (file.hashes env n.id) ∈ boundRows env batch x :=
      List.mem_flatMap.mpr ⟨file, hf, List.mem_map.mpr
        ⟨n, List.mem_filter.mpr ⟨hn, by simpa using hx⟩, rfl⟩⟩
    rw [h] at hr
    exact List.not_mem_nil hr
  · intro h
    rw [List.eq_nil_iff_forall_not_mem]
    intro r hr
    obtain ⟨n, hn, hx, _⟩ := mem_boundRows hr
    exact h ⟨n, hn, hx⟩

theorem standingRows_subset (x : NodeId) : standingRows env batch x ⊆ boundRows env batch x := by
  induction batch with
  | nil => exact List.Subset.refl _
  | cons file batch ih =>
    rw [standingRows, boundRows, List.flatMap_cons]
    exact List.append_subset.mpr ⟨fun r hr => List.mem_append_left _ (List.mem_filter.mp hr).1,
      fun r hr => List.mem_append_right _ (ih hr)⟩

theorem foldlM_writeFile_standing {t : SqliteStore}
    (ha : s.Addressed (batch.flatMap FileGraph.nodes))
    (h : batch.foldlM (writeFile env bulk) s = .ok t) :
    (∀ x, t.nodes.find? x = IndexedTable.evolve parseUpdate
        ((s.nodes.find? x).filter fun r => ∀ file ∈ batch, ¬ file.InScope r)
        (standingRows env batch x)) ∧
      ∀ e, e ∈ t.edges → e ∈ s.edges := by
  induction batch generalizing s with
  | nil =>
    obtain rfl := Except.ok.inj h
    refine ⟨fun x => ?_, fun _ he => he⟩
    cases s.nodes.find? x <;> simp [standingRows, IndexedTable.evolve, Option.filter]
  | cons file batch ih =>
    rw [List.foldlM_cons] at h
    simp only [bind, Except.bind] at h
    split at h
    · cases h
    next s1 h1 =>
      have hf := writeFile_ok h1
      have hsub : file.nodes ⊆ (file :: batch).flatMap FileGraph.nodes := by
        rw [List.flatMap_cons]
        exact List.subset_append_left _ _
      have ha1 : s1.Addressed (batch.flatMap FileGraph.nodes) := by
        refine (hf.addressed ha hsub).subset ?_
        rw [List.flatMap_cons]
        exact List.subset_append_right _ _
      obtain ⟨ihn, ihe⟩ := ih ha1 h
      refine ⟨?_, fun e he => (hf.mem_edges.mp (ihe e he)).1⟩
      intro x
      have hscope : ∀ a b : NodeRow, a.vname = b.vname →
          ((∀ g ∈ batch, ¬ g.InScope a) ↔ ∀ g ∈ batch, ¬ g.InScope b) := by
        intro a b hab
        simp only [FileGraph.InScope, hab]
      have hsame : ∀ a ∈ ((s.nodes.find? x).filter fun r => ¬ file.InScope r).toList ++
          file.rowsOf env x, ∀ b ∈ ((s.nodes.find? x).filter fun r => ¬ file.InScope r).toList ++
          file.rowsOf env x, a.vname = b.vname := by
        have hold : ∀ a ∈ ((s.nodes.find? x).filter fun r => ¬ file.InScope r).toList,
            a ∈ s.nodes ∧ a.id = x := by
          intro a hm
          rw [Option.mem_toList] at hm
          exact Table.mem_of_find? (Option.filter_eq_some_iff.mp hm).1
        intro a hma b hmb
        rcases List.mem_append.mp hma with hma | hma <;> rcases List.mem_append.mp hmb with hmb | hmb
        · rw [IndexedTable.eq_of_key (hold a hma).1 (hold b hmb).1
            ((hold a hma).2.trans (hold b hmb).2.symm)]
        · obtain ⟨n, hn, hx, _, hv⟩ := FileGraph.mem_rowsOf hmb
          exact (ha.row a (hold a hma).1 n (hsub hn) ((hold a hma).2.trans hx.symm)).trans hv.symm
        · obtain ⟨n, hn, hx, _, hv⟩ := FileGraph.mem_rowsOf hma
          exact hv.trans (ha.row b (hold b hmb).1 n (hsub hn) ((hold b hmb).2.trans hx.symm)).symm
        · obtain ⟨n, hn, hx, _, hv⟩ := FileGraph.mem_rowsOf hma
          obtain ⟨m, hm, hmx, _, hmv⟩ := FileGraph.mem_rowsOf hmb
          rw [hv, hmv, ha.node n (hsub hn) m (hsub hm) (hx.trans hmx.symm)]
      have hstep := hf.find?_nodes x
      change s1.nodes.find? x = IndexedTable.evolve parseUpdate
        ((s.nodes.find? x).filter fun r => ¬ file.InScope r) (file.rowsOf env x) at hstep
      have hfirst : (s.nodes.find? x).filter (fun r => ∀ g ∈ file :: batch, ¬ g.InScope r) =
          ((s.nodes.find? x).filter fun r => ¬ file.InScope r).filter
            fun r => ∀ g ∈ batch, ¬ g.InScope r := by
        rw [Option.filter_filter]
        congr 1
        funext r
        simp
      rw [ihn x, hstep, IndexedTable.evolve_filter hscope hsame, standingRows,
        IndexedTable.evolve_append, hfirst]

def stageOf (env : Env) (batch : List FileGraph) : Stage where
  nodes := batch.flatMap fun file =>
    file.nodes.map fun n => NodeRow.ofNode n (file.hashes env n.id)
  edges := (batch.flatMap FileGraph.edges).map EdgeRow.ofParse

theorem foldlM_stageFile {stage : Stage} (hs : s.stage = some stage)
    (hp : s.lex.pending.isSome) :
    ∃ t, batch.foldlM (stageFile env) s = .ok t ∧ t.nodes = s.nodes ∧ t.edges = s.edges ∧
      t.stagingActive = s.stagingActive ∧
      t.stage = some
        { nodes := stage.nodes ++ (stageOf env batch).nodes
          edges := stage.edges ++ (stageOf env batch).edges } := by
  induction batch generalizing s stage with
  | nil => exact ⟨s, rfl, rfl, rfl, rfl, by simpa [stageOf] using hs⟩
  | cons file batch ih =>
    obtain ⟨lex, hl, hlp⟩ := @foldlM_putMapOnly s.lex file.nodes hp
    obtain ⟨s1, h1, hn1, he1, ha1, hp1, hs1⟩ : ∃ s1, stageFile env s file = .ok s1 ∧
        s1.nodes = s.nodes ∧ s1.edges = s.edges ∧ s1.stagingActive = s.stagingActive ∧
        s1.lex.pending.isSome ∧ s1.stage = some
          { nodes := stage.nodes ++ file.nodes.map fun n => NodeRow.ofNode n (file.hashes env n.id)
            edges := stage.edges ++ file.edges.map EdgeRow.ofParse } := by
      simp only [stageFile, hs, hl]
      exact ⟨_, rfl, rfl, rfl, rfl, hlp, rfl⟩
    obtain ⟨t, ht, hn, he, ha, hst⟩ := ih hs1 hp1
    refine ⟨t, ?_, hn.trans hn1, he.trans he1, ha.trans ha1, ?_⟩
    · rw [List.foldlM_cons, h1]
      exact ht
    · rw [hst]
      simp only [stageOf, List.flatMap_cons, List.map_append, List.append_assoc]

theorem filter_stageOf (x : NodeId) :
    (stageOf env batch).nodes.filter (fun r => r.id = x) = boundRows env batch x := by
  rw [stageOf, List.filter_flatMap, boundRows]
  congr 1
  funext file
  rw [List.filter_map]
  rfl

theorem filter_stagedNodes {bare : BareRow} {stage : Stage} (x : NodeId) :
    (stagedNodes bare stage).filter (fun r => r.id = x) =
      ((bare.pick (stage.nodes.filter fun r => r.id = x)).map fun r =>
        mergeStaged r (stage.nodes.filter fun r => r.id = x)).toList := by
  have hkey : ∀ k r, ((bare.pick (stage.nodes.filter fun r => r.id = k)).map fun r =>
      mergeStaged r (stage.nodes.filter fun r => r.id = k)) = some r → r.id = k := by
    intro k r h
    obtain ⟨g, hg, hgr⟩ := Option.map_eq_some_iff.mp h
    subst hgr
    have hgk : g.id = k := by simpa using (List.mem_filter.mp (bare.mem _ _ hg)).2
    exact hgk
  rw [stagedNodes, filter_groups hkey]
  split_ifs with hx
  · rfl
  · have hnil : stage.nodes.filter (fun r => r.id = x) = [] := by
      rw [List.filter_eq_nil_iff]
      intro r hr hrx
      exact hx (List.mem_map.mpr ⟨r, hr, by simpa using hrx⟩)
    cases hb : bare.pick [] with
    | none => rw [hnil, hb]; rfl
    | some r => exact absurd (bare.mem _ _ hb) List.not_mem_nil

theorem find?_stagedEdges (edges : List EdgeRow) (k : NodeId × NodeId × EdgeKind) :
    (stagedEdges edges).find? (fun e => e.key = k) = (edges.find? fun e => e.key = k).map fun e =>
      { e with confidence := maxColumn ((edges.filter fun e => e.key = k).map EdgeRow.confidence) } := by
  have hkey : ∀ (k : NodeId × NodeId × EdgeKind) (r : EdgeRow),
      ((edges.filter fun e => e.key = k).head?.map fun e => { e with
        confidence := maxColumn ((edges.filter fun e => e.key = k).map EdgeRow.confidence) }) = some r →
      r.key = k := by
    intro k r h
    obtain ⟨g, hg, hgr⟩ := Option.map_eq_some_iff.mp h
    subst hgr
    have hgk : g.key = k := by simpa using (List.mem_filter.mp (List.mem_of_head? hg)).2
    exact hgk
  rw [← List.head?_filter, ← List.head?_filter, stagedEdges, filter_groups hkey]
  split_ifs with hx
  · cases (edges.filter fun e => e.key = k).head? <;> rfl
  · have hnil : edges.filter (fun e => e.key = k) = [] := by
      rw [List.filter_eq_nil_iff]
      intro e he hek
      exact hx (List.mem_map.mpr ⟨e, he, by simpa using hek⟩)
    rw [hnil]
    rfl

/-- The last row left standing of those bound under an id has the kind and the package of all of
them and the greatest of each other column. -/
def LastDominates (bound standing : List NodeRow) : Prop :=
  ∃ last ∈ standing.getLast?, ∀ r ∈ bound,
    r.kind = last.kind ∧ r.package = last.package ∧ (r.isNoise → last.isNoise) ∧
      r.testRole.asI64 ≤ last.testRole.asI64 ∧ AtMost r.bodyHash last.bodyHash ∧
      AtMost r.line (lastKnown (standing.map NodeRow.line) none) ∧
      AtMost r.endLine (lastKnown (standing.map NodeRow.endLine) none)

instance (bound standing : List NodeRow) : Decidable (LastDominates bound standing) :=
  inferInstanceAs (Decidable (∃ last ∈ standing.getLast?, _))

def preferRow (r : NodeRow) : BareRow where
  pick group := if r ∈ group then some r else group.head?
  mem group x h := by
    split_ifs at h with hr
    · exact Option.some.inj h ▸ hr
    · exact List.mem_of_head? h
  isSome group h := by
    split_ifs with hr
    · rfl
    · exact BareRow.first.isSome group h

theorem evolve_none_concat {init : List NodeRow} {last : NodeRow}
    (h : ∀ r ∈ init ++ [last], r.id = last.id ∧ r.vname = last.vname) :
    IndexedTable.evolve parseUpdate none (init ++ [last]) = some { last with
      line := lastKnown ((init ++ [last]).map NodeRow.line) none
      endLine := lastKnown ((init ++ [last]).map NodeRow.endLine) none } := by
  have hself : ∀ (v : Option Nat) (vs : List (Option Nat)),
      lastKnown (v :: vs) v = lastKnown (v :: vs) none := by
    intro v vs
    cases v <;> rfl
  cases hrows : init ++ [last] with
  | nil => simp at hrows
  | cons row rows =>
    obtain ⟨hid, hv⟩ := h row (hrows ▸ List.mem_cons_self)
    rw [evolve_none_cons, ← hrows, overwrite_concat_eq, hrows, List.map_cons, List.map_cons, hself,
      hself, hid, hv]

theorem any_isNoise_eq_iff {bound : List NodeRow} {last : NodeRow} (h : last ∈ bound) :
    bound.any NodeRow.isNoise = last.isNoise ↔ ∀ r ∈ bound, r.isNoise → last.isNoise := by
  cases hl : last.isNoise with
  | true =>
    rw [List.any_eq_true]
    exact iff_of_true ⟨last, h, hl⟩ fun _ _ _ => rfl
  | false => simp [List.any_eq_false]

theorem mergedRole_eq_iff {bound : List NodeRow} {last : NodeRow} (h : last ∈ bound) :
    (if bound.any (fun g => g.testRole = .support) then TestRole.support
      else if bound.any (fun g => g.testRole = .entryPoint) then .entryPoint else .none) =
        last.testRole ↔ ∀ r ∈ bound, r.testRole.asI64 ≤ last.testRole.asI64 := by
  simp only [List.any_eq_true, decide_eq_true_eq]
  by_cases hs : ∃ r ∈ bound, r.testRole = .support
  · obtain ⟨r, hr, hrs⟩ := hs
    rw [if_pos ⟨r, hr, hrs⟩]
    constructor
    · intro hl g _
      rw [← hl]
      cases g.testRole <;> decide
    · intro hle
      have := hle r hr
      rw [hrs] at this
      cases hl : last.testRole <;> simp_all [TestRole.asI64]
  · rw [if_neg hs]
    by_cases he : ∃ r ∈ bound, r.testRole = .entryPoint
    · obtain ⟨r, hr, hre⟩ := he
      rw [if_pos ⟨r, hr, hre⟩]
      constructor
      · intro hl g hg
        rw [← hl]
        cases hgr : g.testRole with
        | support => exact absurd ⟨g, hg, hgr⟩ hs
        | none => decide
        | entryPoint => decide
      · intro hle
        have hr := hle r hr
        rw [hre] at hr
        cases hl : last.testRole with
        | support => exact absurd ⟨last, h, hl⟩ hs
        | entryPoint => rfl
        | none =>
          rw [hl] at hr
          exact absurd hr (by decide)
    · rw [if_neg he]
      have hnone : ∀ r ∈ bound, r.testRole = .none := by
        intro r hr
        cases hrr : r.testRole with
        | none => rfl
        | support => exact absurd ⟨r, hr, hrr⟩ hs
        | entryPoint => exact absurd ⟨r, hr, hrr⟩ he
      rw [hnone last h]
      exact iff_of_true rfl fun r hr => by rw [hnone r hr]

/-- Whatever row the engine takes the bare columns from, the flush selects what the upserts
leave exactly when the last row standing dominates. -/
theorem merge_eq_iff {bound standing : List NodeRow} (hsub : standing ⊆ bound) (hne : bound ≠ [])
    (hsame : ∀ a ∈ bound, ∀ b ∈ bound, a.id = b.id ∧ a.vname = b.vname) :
    (∀ bare : BareRow, IndexedTable.evolve parseUpdate none standing =
      (bare.pick bound).map fun r => mergeStaged r bound) ↔ LastDominates bound standing := by
  rcases List.eq_nil_or_concat standing with hnil | ⟨init, last, hst⟩
  · subst hnil
    refine iff_of_false ?_ ?_
    · intro h
      have hs := BareRow.first.isSome bound hne
      rw [← Option.isSome_map, ← h BareRow.first] at hs
      cases hs
    · intro hex
      obtain ⟨last, hl, _⟩ := hex
      cases hl
  · rw [List.concat_eq_append] at hst
    subst hst
    have hlast : last ∈ bound := hsub (List.mem_append_right _ List.mem_cons_self)
    have hcol : ∀ (f : NodeRow → Option Nat),
        lastKnown ((init ++ [last]).map f) none = none ∨
          lastKnown ((init ++ [last]).map f) none ∈ bound.map f := by
      intro f
      refine (lastKnown_mem _).imp_right fun hm => ?_
      obtain ⟨r, hr, hrf⟩ := List.mem_map.mp hm
      exact List.mem_map.mpr ⟨r, hsub hr, hrf⟩
    have hmerge : ∀ r ∈ bound, (mergeStaged r bound = { last with
        line := lastKnown ((init ++ [last]).map NodeRow.line) none
        endLine := lastKnown ((init ++ [last]).map NodeRow.endLine) none }) ↔
        r.kind = last.kind ∧ r.package = last.package ∧
          (∀ g ∈ bound, AtMost g.line (lastKnown ((init ++ [last]).map NodeRow.line) none)) ∧
          (∀ g ∈ bound, AtMost g.endLine (lastKnown ((init ++ [last]).map NodeRow.endLine) none)) ∧
          (∀ g ∈ bound, g.isNoise → last.isNoise) ∧
          (∀ g ∈ bound, g.testRole.asI64 ≤ last.testRole.asI64) ∧
          ∀ g ∈ bound, AtMost g.bodyHash last.bodyHash := by
      intro r hr
      obtain ⟨hid, hv⟩ := hsame r hr last hlast
      have hline := maxColumn_eq_iff (hcol NodeRow.line)
      have hend := maxColumn_eq_iff (hcol NodeRow.endLine)
      have hhash : maxColumn (bound.map NodeRow.bodyHash) = last.bodyHash ↔
          ∀ v ∈ bound.map NodeRow.bodyHash, AtMost v last.bodyHash :=
        maxColumn_eq_iff (.inr (List.mem_map.mpr ⟨last, hlast, rfl⟩))
      rw [List.forall_mem_map] at hline hend hhash
      rw [← hline, ← hend, ← any_isNoise_eq_iff hlast, ← mergedRole_eq_iff hlast, ← hhash,
        mergeStaged, NodeRow.mk.injEq]
      simp only [hid, hv, true_and]
    rw [evolve_none_concat fun r hr => hsame r (hsub hr) last hlast]
    have hdom : LastDominates bound (init ++ [last]) ↔ ∀ r ∈ bound,
        mergeStaged r bound = { last with
          line := lastKnown ((init ++ [last]).map NodeRow.line) none
          endLine := lastKnown ((init ++ [last]).map NodeRow.endLine) none } := by
      rw [LastDominates, List.getLast?_concat]
      constructor
      · intro hex r hr
        obtain ⟨x, hx, h⟩ := hex
        obtain rfl := Option.some.inj hx
        exact (hmerge r hr).mpr ⟨(h r hr).1, (h r hr).2.1, fun g hg => (h g hg).2.2.2.2.2.1,
          fun g hg => (h g hg).2.2.2.2.2.2, fun g hg => (h g hg).2.2.1, fun g hg => (h g hg).2.2.2.1,
          fun g hg => (h g hg).2.2.2.2.1⟩
      · intro h
        refine ⟨last, rfl, ?_⟩
        intro r hr
        obtain ⟨hk, hp, hl, he, hn, ht, hh⟩ := (hmerge r hr).mp (h r hr)
        exact ⟨hk, hp, hn r hr, ht r hr, hh r hr, hl r hr, he r hr⟩
    rw [hdom]
    constructor
    · intro h r hr
      have hp : (preferRow r).pick bound = some r := if_pos hr
      have := h (preferRow r)
      rw [hp] at this
      exact (Option.some.inj this).symm
    · intro h bare
      obtain ⟨r, hr⟩ := Option.isSome_iff_exists.mp (bare.isSome bound hne)
      rw [hr, Option.map_some, h r (bare.mem _ _ hr)]

/-- A store without nodes and edges, no bulk run begun. -/
structure Fresh (s : SqliteStore) : Prop where
  nodes : s.nodes.rows = []
  edges : s.edges.rows = []
  stage : s.stage = none
  stagingActive : s.stagingActive = false

/-- The staged route from `s` goes through and leaves the nodes and edges of `s'`. -/
def StagedAgrees (env : Env) (bare : BareRow) (s : SqliteStore) (batch : List FileGraph)
    (s' : SqliteStore) : Prop :=
  ∃ t counts, s.beginStagingTables.writeFileGraphsBatch env batch true = .ok (t, counts) ∧
    (t.flushStagingToProduction bare).2.isOk ∧
    (t.flushStagingToProduction bare).1.nodes.Same s'.nodes.toTable ∧
    (t.flushStagingToProduction bare).1.edges.Same s'.edges

/-- Of the edges a batch gives under one key between nodes it emits, the first has the greatest
confidence. -/
def FirstEdgeDominates (batch : List FileGraph) : Prop :=
  ∀ e ∈ batch.flatMap FileGraph.edges, (∃ n ∈ batch.flatMap FileGraph.nodes, n.id = e.src) →
    (∃ n ∈ batch.flatMap FileGraph.nodes, n.id = e.dst) →
      ∀ a ∈ batch.findSome? (firstEdge (EdgeRow.ofParse e).key), AtMost e.confidence a.confidence

instance (batch : List FileGraph) : Decidable (FirstEdgeDominates batch) :=
  inferInstanceAs (Decidable (∀ e ∈ batch.flatMap FileGraph.edges, _))

def flushedEdges (stage : Stage) (nodes : NodeTable) : List EdgeRow :=
  stagedEdges (stage.edges.filter fun e => nodes.Has e.src ∧ nodes.Has e.dst)

theorem flush_empty {bare : BareRow} {stage : Stage} {t : SqliteStore} (hn : t.nodes.rows = [])
    (hs : t.stage = some stage) (ha : t.stagingActive = true)
    (hv : ∀ a ∈ stage.nodes, ∀ b ∈ stage.nodes, a.id = b.id ↔ a.vname = b.vname) :
    ∃ u, (∀ x, u.find? x = (bare.pick (stage.nodes.filter fun r => r.id = x)).map fun r =>
        mergeStaged r (stage.nodes.filter fun r => r.id = x)) ∧
      ((t.flushStagingToProduction bare).2.isOk ↔
        ∀ e ∈ flushedEdges stage u, confidenceOk e.confidence) ∧
      ((t.flushStagingToProduction bare).2.isOk →
        (t.flushStagingToProduction bare).1.nodes = u ∧
        (t.flushStagingToProduction bare).1.edges = t.edges.insertAll (flushedEdges stage u)) := by
  have hempty : ∀ r, r ∉ t.nodes := by
    intro r hr
    have hm : r ∈ t.nodes.rows := hr
    rw [hn] at hm
    exact List.not_mem_nil hm
  have hrow : ∀ r ∈ stagedNodes bare stage, ∃ g ∈ stage.nodes, g.id = r.id ∧ g.vname = r.vname := by
    intro r hr
    obtain ⟨k, _, hk⟩ := List.mem_filterMap.mp hr
    obtain ⟨g, hg, hgr⟩ := Option.map_eq_some_iff.mp hk
    subst hgr
    exact ⟨g, (List.mem_filter.mp (bare.mem _ _ hg)).1, rfl, rfl⟩
  have hpair : ∀ a ∈ stagedNodes bare stage, ∀ b ∈ stagedNodes bare stage,
      a.id = b.id ↔ a.vname = b.vname := by
    intro a ha b hb
    obtain ⟨g, hg, hgi, hgv⟩ := hrow a ha
    obtain ⟨g', hg', hgi', hgv'⟩ := hrow b hb
    rw [← hgi, ← hgv, ← hgi', ← hgv']
    exact hv g hg g' hg'
  have hsome := (IndexedTable.upsertAll_isSome_iff parseUpdate (stagedNodes bare stage) t.nodes
    (fun a hm => absurd hm (hempty a)) fun a ha b hb => (hpair a ha b hb).mp).mpr
    ⟨fun a hm => absurd hm (hempty a), fun a ha b hb => (hpair a ha b hb).mpr⟩
  obtain ⟨u, hu⟩ := Option.isSome_iff_exists.mp hsome
  refine ⟨u, ?_, ?_⟩
  · intro x
    have hnone : t.nodes.find? x = none := by
      rw [Table.find?_eq_none]
      intro hex
      obtain ⟨r, hr, _⟩ := hex
      exact hempty r hr
    rw [IndexedTable.find?_of_upsertAll hu, hnone, filter_stagedNodes]
    cases (bare.pick (stage.nodes.filter fun r => r.id = x)) <;> rfl
  · have hflush : t.flushStagingToProduction bare =
        if (flushedEdges stage u).all (fun e => confidenceOk e.confidence) then
          ({ t with
              nodes := u
              edges := t.edges.insertAll (flushedEdges stage u)
              stage := none
              stagingActive := false },
            .ok ((stagedNodes bare stage).length,
              (t.edges.insertAll (flushedEdges stage u)).rows.length - t.edges.rows.length))
        else ({ t with stagingActive := false }, .error (.database "inserting edges from staging")) := by
      rw [flushStagingToProduction, ha, hs]
      simp only [hu]
      rfl
    rw [hflush]
    split_ifs with hall
    · exact ⟨iff_of_true rfl (List.all_eq_true.mp hall), fun _ => ⟨rfl, rfl⟩⟩
    · refine ⟨iff_of_false (by simp [Except.isOk, Except.toBool]) fun h => hall (List.all_eq_true.mpr h), ?_⟩
      intro h
      simp [Except.isOk, Except.toBool] at h

theorem find?_flushedEdges (stage : Stage) (u : NodeTable) (k : NodeId × NodeId × EdgeKind) :
    (flushedEdges stage u).find? (fun e => e.key = k) =
      if u.Has k.1 ∧ u.Has k.2.1 then (stage.edges.find? fun e => e.key = k).map fun e =>
        { e with confidence :=
            maxColumn ((stage.edges.filter fun e => e.key = k).map EdgeRow.confidence) }
      else none := by
  have hguard : (stage.edges.filter fun e => u.Has e.src ∧ u.Has e.dst).filter (fun e => e.key = k) =
      if u.Has k.1 ∧ u.Has k.2.1 then stage.edges.filter (fun e => e.key = k) else [] := by
    rw [List.filter_filter]
    split_ifs with hk
    · apply List.filter_congr
      intro e _
      by_cases he : e.key = k
      · subst he
        have : u.Has e.src ∧ u.Has e.dst := hk
        simp [this]
      · simp [he]
    · rw [List.filter_eq_nil_iff]
      intro e _ he
      simp only [Bool.and_eq_true, decide_eq_true_eq] at he
      obtain ⟨hek, hg⟩ := he
      subst hek
      exact hk hg
  rw [flushedEdges, find?_stagedEdges, hguard, ← List.head?_filter, hguard]
  split_ifs
  · rw [List.head?_filter]
  · rfl

/-- What an incremental batch leaves of a fresh store. -/
structure WrittenFresh (env : Env) (batch : List FileGraph) (s' : SqliteStore) : Prop where
  find?_nodes : ∀ x, s'.nodes.find? x =
    IndexedTable.evolve parseUpdate none (standingRows env batch x)
  find?_edges : ∀ k, s'.edges.find? k =
    ((s'.guardedEdges batch).map EdgeRow.ofParse).find? fun e => e.key = k
  confidence : ∀ e ∈ s'.guardedEdges batch, confidenceOk e.confidence

theorem Fresh.find?_nodes (h0 : s.Fresh) (x : NodeId) : s.nodes.find? x = none := by
  rw [Table.find?_eq_none]
  intro hex
  obtain ⟨r, hr, _⟩ := hex
  have hm : r ∈ s.nodes.rows := hr
  rw [h0.nodes] at hm
  exact List.not_mem_nil hm

theorem Fresh.find?_edges (h0 : s.Fresh) (k : NodeId × NodeId × EdgeKind) :
    s.edges.find? k = none := by
  rw [Table.find?_eq_none]
  intro hex
  obtain ⟨e, he, _⟩ := hex
  have hm : e ∈ s.edges.rows := he
  rw [h0.edges] at hm
  exact List.not_mem_nil hm

theorem writtenFresh {counts : BatchWriteCounts} (h0 : s.Fresh)
    (hid : ∀ n ∈ batch.flatMap FileGraph.nodes, ∀ m ∈ batch.flatMap FileGraph.nodes,
      n.id = m.id → n.vname = m.vname)
    (h : s.writeFileGraphsBatch env batch bulk = .ok (s', counts)) : WrittenFresh env batch s' := by
  obtain ⟨hpn, hpe, _⟩ := prepareBulk_tables bulk s
  obtain ⟨t, ht, hn, _, _, he⟩ := writeFileGraphsBatch_ok h0.stagingActive h
  have ha : (s.prepareBulk bulk).Addressed (batch.flatMap FileGraph.nodes) := by
    refine ⟨?_, hid⟩
    intro r hr
    rw [hpn] at hr
    exact absurd ⟨r, hr, rfl⟩ (Table.find?_eq_none.mp (h0.find?_nodes r.id))
  obtain ⟨htn, hte⟩ := foldlM_writeFile_standing ha ht
  have hst : ∀ x, s'.Stored x ↔ t.Stored x := by
    intro x
    rw [Stored, hn]
    rfl
  have hguard : s'.guardedEdges batch = t.guardedEdges batch := by
    simp only [guardedEdges, hst]
  refine ⟨?_, ?_, ?_⟩
  · intro x
    rw [hn, htn, hpn, h0.find?_nodes]
    rfl
  · intro k
    have htk : t.edges.find? k = none := by
      rw [Table.find?_eq_none]
      intro hex
      obtain ⟨e, hm, hk⟩ := hex
      exact Table.find?_eq_none.mp (h0.find?_edges k) ⟨e, hpe ▸ hte e hm, hk⟩
    rw [he, Table.find?_insertAll, htk, Option.none_or, hguard]
  · obtain ⟨t0, ht0, hc⟩ := (writeFileGraphsBatch_isOk h0.stagingActive).mp ⟨_, h⟩
    obtain rfl := Except.ok.inj (ht.symm.trans ht0)
    rwa [hguard]

theorem stagedAgrees_iff_flush (h0 : s.Fresh) :
    ∃ t : SqliteStore, t.nodes = s.nodes ∧ t.edges = s.edges ∧ t.stagingActive = true ∧
      t.stage = some (stageOf env batch) ∧ ∀ bare s', StagedAgrees env bare s batch s' ↔
        (t.flushStagingToProduction bare).2.isOk ∧
          (t.flushStagingToProduction bare).1.nodes.Same s'.nodes.toTable ∧
          (t.flushStagingToProduction bare).1.edges.Same s'.edges := by
  have hbegun : (s.beginStagingTables.prepareBulk true).stage = some ⟨[], []⟩ := by
    rw [prepareBulk, beginStagingTables, h0.stage]
    rfl
  obtain ⟨t, ht, hn, he, ha, hs⟩ := @foldlM_stageFile env _ batch _ hbegun rfl
  have hact : s.beginStagingTables.stagingActive = true := rfl
  have hwrite : ∃ c, s.beginStagingTables.writeFileGraphsBatch env batch true = .ok (t, c) := by
    rw [writeFileGraphsBatch, if_pos hact]
    simp only [bind, Except.bind, pure, Except.pure, ht]
    exact ⟨_, rfl⟩
  obtain ⟨c, hc⟩ := hwrite
  refine ⟨t, hn, he, ha, hs, ?_⟩
  intro bare s'
  constructor
  · intro hex
    obtain ⟨t', c', hw, hr⟩ := hex
    obtain ⟨rfl, _⟩ := Prod.mk.inj (Except.ok.inj (hc.symm.trans hw))
    exact hr
  · intro hr
    exact ⟨t, c, hc, hr⟩

def Promoted (env : Env) (bare : BareRow) (batch : List FileGraph) (u : NodeTable) : Prop :=
  ∀ x, u.find? x = (bare.pick (boundRows env batch x)).map fun r =>
    mergeStaged r (boundRows env batch x)

theorem flushedEdges_confidence {u : NodeTable} (hw : WrittenFresh env batch s') (hs : u.Same s'.nodes.toTable) :
    ∀ e ∈ flushedEdges (stageOf env batch) u, confidenceOk e.confidence := by
  intro e he
  obtain ⟨k, _, hk⟩ := List.mem_filterMap.mp he
  obtain ⟨g, _, hge⟩ := Option.map_eq_some_iff.mp hk
  subst hge
  have hmem := (maxColumn_spec ((((stageOf env batch).edges.filter fun e =>
    u.Has e.src ∧ u.Has e.dst).filter fun e => e.key = k).map EdgeRow.confidence)).1
  rcases hmem with hmax | hmax
  · rw [hmax]
    rfl
  · obtain ⟨r, hr, hrc⟩ := List.mem_map.mp hmax
    obtain ⟨hr, hends⟩ := List.mem_filter.mp (List.mem_filter.mp hr).1
    obtain ⟨p, hp, rfl⟩ := List.mem_map.mp hr
    rw [← hrc]
    refine hw.confidence p (List.mem_filter.mpr ⟨hp, ?_⟩)
    rw [decide_eq_true_eq] at hends ⊢
    exact ⟨(hs.has _).mp hends.1, (hs.has _).mp hends.2⟩

namespace Promoted

variable {bare : BareRow} {u : NodeTable} (hu : Promoted env bare batch u)

include hu

theorem has_iff (x : NodeId) : u.Has x ↔ ∃ n ∈ batch.flatMap FileGraph.nodes, n.id = x := by
  rw [Table.has_iff_find?, hu, Option.isSome_map]
  by_cases hx : ∃ n ∈ batch.flatMap FileGraph.nodes, n.id = x
  · have hne : boundRows env batch x ≠ [] := fun hnil => boundRows_eq_nil_iff.mp hnil hx
    exact iff_of_true (bare.isSome _ hne) hx
  · refine iff_of_false ?_ hx
    rw [boundRows_eq_nil_iff.mpr hx]
    intro hs
    obtain ⟨r, hr⟩ := Option.isSome_iff_exists.mp hs
    exact List.not_mem_nil (bare.mem _ _ hr)

theorem same_iff (hw : WrittenFresh env batch s') :
    u.Same s'.nodes.toTable ↔ ∀ n ∈ batch.flatMap FileGraph.nodes,
      IndexedTable.evolve parseUpdate none (standingRows env batch n.id) =
        (bare.pick (boundRows env batch n.id)).map fun r =>
          mergeStaged r (boundRows env batch n.id) := by
  constructor
  · intro hs n _
    rw [← hw.find?_nodes, ← hu]
    exact (hs.find? n.id).symm
  · intro hall
    refine Table.same_of_find? fun x => ?_
    by_cases hx : ∃ n ∈ batch.flatMap FileGraph.nodes, n.id = x
    · obtain ⟨n, hn, rfl⟩ := hx
      rw [hu, hw.find?_nodes, hall n hn]
    · have hst : standingRows env batch x = [] := by
        rw [← List.subset_nil, ← boundRows_eq_nil_iff.mpr hx]
        exact standingRows_subset x
      rw [hw.find?_nodes, hst]
      exact Table.find?_eq_none.mpr (mt (hu.has_iff x).mp hx)

theorem edges_iff (hw : WrittenFresh env batch s') (hs : u.Same s'.nodes.toTable) :
    (∀ k, (flushedEdges (stageOf env batch) u).find? (fun e => e.key = k) = s'.edges.find? k) ↔
      FirstEdgeDominates batch := by
  have hst : ∀ x, u.Has x ↔ s'.Stored x := fun x => hs.has x
  have hfirst : ∀ k, (stageOf env batch).edges.find? (fun e => e.key = k) =
      (batch.findSome? (firstEdge k)).map EdgeRow.ofParse := by
    intro k
    have hflat : batch.findSome? (firstEdge k) =
        (batch.flatMap FileGraph.edges).find? fun e => (EdgeRow.ofParse e).key = k :=
      (List.find?_flatMap).symm
    rw [stageOf, List.find?_map, hflat]
    rfl
  have hmax : ∀ k, ∀ a ∈ batch.findSome? (firstEdge k),
      (maxColumn (((stageOf env batch).edges.filter fun e => e.key = k).map EdgeRow.confidence) =
        a.confidence ↔ ∀ e ∈ batch.flatMap FileGraph.edges, (EdgeRow.ofParse e).key = k →
          AtMost e.confidence a.confidence) := by
    intro k a ha
    have hmem : EdgeRow.ofParse a ∈ (stageOf env batch).edges.filter fun e => e.key = k := by
      have hf := hfirst k
      rw [Option.mem_def.mp ha, Option.map_some, ← List.head?_filter] at hf
      exact List.mem_of_head? hf
    have hiff : maxColumn (((stageOf env batch).edges.filter fun e => e.key = k).map
        EdgeRow.confidence) = a.confidence ↔
        ∀ v ∈ ((stageOf env batch).edges.filter fun e => e.key = k).map EdgeRow.confidence,
          AtMost v a.confidence :=
      maxColumn_eq_iff (.inr (List.mem_map.mpr ⟨_, hmem, rfl⟩))
    rw [hiff, List.forall_mem_map]
    constructor
    · intro h e he hk
      exact h (EdgeRow.ofParse e)
        (List.mem_filter.mpr ⟨List.mem_map.mpr ⟨e, he, rfl⟩, by simpa using hk⟩)
    · intro h r hr
      obtain ⟨hr, hk⟩ := List.mem_filter.mp hr
      obtain ⟨e, he, rfl⟩ := List.mem_map.mp hr
      exact h e he (by simpa using hk)
  have hkey : ∀ k, (flushedEdges (stageOf env batch) u).find? (fun e => e.key = k) =
      s'.edges.find? k ↔ (s'.Stored k.1 → s'.Stored k.2.1 → ∀ a ∈ batch.findSome? (firstEdge k),
        ∀ e ∈ batch.flatMap FileGraph.edges, (EdgeRow.ofParse e).key = k →
          AtMost e.confidence a.confidence) := by
    intro k
    simp only [hw.find?_edges, find?_flushedEdges, find?_guardedEdges, hst, hfirst]
    by_cases hk : s'.Stored k.1 ∧ s'.Stored k.2.1
    · rw [if_pos hk, if_pos hk]
      cases ha : batch.findSome? (firstEdge k) with
      | none => simp
      | some a =>
        have h := hmax k a ha
        simp only [Option.map_some, Option.some_inj, Option.mem_def, forall_eq', hk.1, hk.2,
          forall_true_left]
        rw [← h]
        simp only [EdgeRow.ofParse, EdgeRow.mk.injEq, true_and]
    · rw [if_neg hk, if_neg hk]
      exact iff_of_true rfl fun h1 h2 => absurd ⟨h1, h2⟩ hk
  have hemit : ∀ x, s'.Stored x ↔ ∃ n ∈ batch.flatMap FileGraph.nodes, n.id = x :=
    fun x => (hst x).symm.trans (hu.has_iff x)
  simp only [hkey, FirstEdgeDominates]
  constructor
  · intro h e he h1 h2 a ha
    exact h (EdgeRow.ofParse e).key ((hemit _).mpr h1) ((hemit _).mpr h2) a ha e he rfl
  · intro h k h1 h2 a ha e he hk
    subst hk
    exact h e he ((hemit _).mp h1) ((hemit _).mp h2) a ha

end Promoted

/-- When a bulk initialisation leaves what an incremental batch left, for one choice of bare
rows. -/
theorem stagedAgrees_iff {bare : BareRow} (h0 : s.Fresh)
    (hid : ∀ n ∈ batch.flatMap FileGraph.nodes, ∀ m ∈ batch.flatMap FileGraph.nodes,
      n.id = m.id ↔ n.vname = m.vname) (hw : WrittenFresh env batch s') :
    StagedAgrees env bare s batch s' ↔
      (∀ n ∈ batch.flatMap FileGraph.nodes,
        IndexedTable.evolve parseUpdate none (standingRows env batch n.id) =
          (bare.pick (boundRows env batch n.id)).map fun r =>
            mergeStaged r (boundRows env batch n.id)) ∧ FirstEdgeDominates batch := by
  obtain ⟨t, hn, he, ha, hs, hagree⟩ := @stagedAgrees_iff_flush env s batch h0
  have hvn : ∀ a ∈ (stageOf env batch).nodes, ∃ n ∈ batch.flatMap FileGraph.nodes,
      n.id = a.id ∧ n.vname = a.vname := by
    intro a ha
    obtain ⟨file, hf, ha⟩ := List.mem_flatMap.mp ha
    obtain ⟨n, hn, rfl⟩ := List.mem_map.mp ha
    exact ⟨n, List.mem_flatMap.mpr ⟨file, hf, hn⟩, rfl, rfl⟩
  have hpair : ∀ a ∈ (stageOf env batch).nodes, ∀ b ∈ (stageOf env batch).nodes,
      a.id = b.id ↔ a.vname = b.vname := by
    intro a ha b hb
    obtain ⟨n, hn, hna, hnv⟩ := hvn a ha
    obtain ⟨m, hm, hma, hmv⟩ := hvn b hb
    rw [← hna, ← hnv, ← hma, ← hmv]
    exact hid n hn m hm
  obtain ⟨u, hu, hok, htab⟩ := flush_empty (by rw [hn]; exact h0.nodes) hs ha hpair
  have hp : Promoted env bare batch u := by
    intro x
    rw [hu, filter_stageOf]
  have hedges : u.Same s'.nodes.toTable →
      ((t.edges.insertAll (flushedEdges (stageOf env batch) u)).Same s'.edges ↔
        FirstEdgeDominates batch) := by
    intro hsame
    have hfind : ∀ k, (t.edges.insertAll (flushedEdges (stageOf env batch) u)).find? k =
        (flushedEdges (stageOf env batch) u).find? fun e => e.key = k := by
      intro k
      rw [Table.find?_insertAll, he, h0.find?_edges, Option.none_or]
    rw [← hp.edges_iff hw hsame]
    constructor
    · intro h k
      rw [← hfind]
      exact h.find? k
    · intro h
      exact Table.same_of_find? fun k => (hfind k).trans (h k)
  rw [hagree, ← hp.same_iff hw]
  constructor
  · intro hex
    obtain ⟨hfok, hfn, hfe⟩ := hex
    obtain ⟨hun, hue⟩ := htab hfok
    rw [hun] at hfn
    rw [hue] at hfe
    exact ⟨hfn, (hedges hfn).mp hfe⟩
  · intro hex
    obtain ⟨hfn, hdom⟩ := hex
    have hfok := hok.mpr (flushedEdges_confidence hw hfn)
    obtain ⟨hun, hue⟩ := htab hfok
    rw [hun, hue]
    exact ⟨hfok, hfn, (hedges hfn).mpr hdom⟩

/-- A bulk initialisation leaves what one incremental batch leaves, whatever row the engine takes
bare columns from, exactly when under each id the last row standing dominates all that were bound,
and under each edge key the first confidence the others. -/
theorem stagedInit_agrees_iff {counts : BatchWriteCounts} (h0 : s.Fresh)
    (hid : ∀ n ∈ batch.flatMap FileGraph.nodes, ∀ m ∈ batch.flatMap FileGraph.nodes,
      n.id = m.id ↔ n.vname = m.vname)
    (h : s.writeFileGraphsBatch env batch bulk = .ok (s', counts)) :
    (∀ bare, StagedAgrees env bare s batch s') ↔
      (∀ n ∈ batch.flatMap FileGraph.nodes,
        LastDominates (boundRows env batch n.id) (standingRows env batch n.id)) ∧
        FirstEdgeDominates batch := by
  have hw := writtenFresh h0 (fun n hn m hm => (hid n hn m hm).mp) h
  have hmerge : ∀ n ∈ batch.flatMap FileGraph.nodes, (∀ bare : BareRow,
      IndexedTable.evolve parseUpdate none (standingRows env batch n.id) =
        (bare.pick (boundRows env batch n.id)).map fun r => mergeStaged r (boundRows env batch n.id)) ↔
        LastDominates (boundRows env batch n.id) (standingRows env batch n.id) := by
    intro n hn
    refine merge_eq_iff (standingRows_subset n.id) ?_ ?_
    · rw [ne_eq, boundRows_eq_nil_iff, not_not]
      exact ⟨n, hn, rfl⟩
    · intro a ha b hb
      obtain ⟨p, hp, hpx, hpa, hpv⟩ := mem_boundRows ha
      obtain ⟨q, hq, hqx, hqb, hqv⟩ := mem_boundRows hb
      exact ⟨hpa.trans hqb.symm, by rw [hpv, hqv, (hid p hp q hq).mp (hpx.trans hqx.symm)]⟩
  simp only [stagedAgrees_iff h0 hid hw]
  constructor
  · intro hall
    exact ⟨fun n hn => (hmerge n hn).mp fun bare => (hall bare).1 n hn, (hall BareRow.first).2⟩
  · intro hex bare
    obtain ⟨hd, hf⟩ := hex
    exact ⟨fun n hn => (hmerge n hn).mpr (hd n hn) bare, hf⟩

/-- A file that defines `f` on two spans, in this order. -/
def twiceGraph (first second : Nat × Nat) : FileGraph where
  vnamePath := "lib.ts"
  newHash := "h"
  nodes := [
    { parsed "lib.ts" "typescript" "fn:f" "function" with
      line := some first.1, endLine := some first.2 },
    { parsed "lib.ts" "typescript" "fn:f" "function" with
      line := some second.1, endLine := some second.2 }]
  edges := []
  source := none

/-- Two overloads in sequence, and an import given by both of its files. -/
theorem stagedInit_agrees_overloads :
    ∃ s' counts, empty.writeFileGraphsBatch lengthEnv
        [twiceGraph (1, 2) (4, 6), importerGraph (some 90), importedGraph (some 50)] false =
          .ok (s', counts) ∧
      ∀ bare, StagedAgrees lengthEnv bare empty
        [twiceGraph (1, 2) (4, 6), importerGraph (some 90), importedGraph (some 50)] s' := by
  obtain ⟨⟨s', counts⟩, h⟩ := exists_ok (x := empty.writeFileGraphsBatch lengthEnv
    [twiceGraph (1, 2) (4, 6), importerGraph (some 90), importedGraph (some 50)] false)
    (by decide +kernel)
  exact ⟨s', counts, h, (stagedInit_agrees_iff ⟨rfl, rfl, rfl, rfl⟩ (by decide) h).mpr
    (by decide +kernel)⟩

/-- A function that holds one of its own name: the upserts leave the inner span, the flush joins
the inner start to the outer end. -/
theorem stagedInit_nested_differs :
    ([twiceGraph (1, 5) (2, 3)].map FileGraph.vnamePath).Nodup ∧
      ∃ s' counts, empty.writeFileGraphsBatch lengthEnv [twiceGraph (1, 5) (2, 3)] false =
          .ok (s', counts) ∧
        ∀ bare, ¬ StagedAgrees lengthEnv bare empty [twiceGraph (1, 5) (2, 3)] s' := by
  refine ⟨by decide, ?_⟩
  obtain ⟨⟨s', counts⟩, h⟩ := exists_ok (x := empty.writeFileGraphsBatch lengthEnv
    [twiceGraph (1, 5) (2, 3)] false) (by decide +kernel)
  refine ⟨s', counts, h, ?_⟩
  intro bare hagree
  have hid : ∀ n ∈ [twiceGraph (1, 5) (2, 3)].flatMap FileGraph.nodes,
      ∀ m ∈ [twiceGraph (1, 5) (2, 3)].flatMap FileGraph.nodes, n.id = m.id ↔ n.vname = m.vname := by
    decide
  have h0 : Fresh empty := ⟨rfl, rfl, rfl, rfl⟩
  have hw := writtenFresh h0 (fun n hn m hm => (hid n hn m hm).mp) h
  have hten : ∃ n ∈ [twiceGraph (1, 5) (2, 3)].flatMap FileGraph.nodes, n.id = 10 := by decide
  obtain ⟨n, hn, hten⟩ := hten
  have hrow := congrArg (Option.map NodeRow.endLine)
    (((stagedAgrees_iff h0 hid hw).mp hagree).1 n hn)
  rw [hten, Option.map_map] at hrow
  have hup : (IndexedTable.evolve parseUpdate none (standingRows lengthEnv
      [twiceGraph (1, 5) (2, 3)] 10)).map NodeRow.endLine = some (some 3) := by decide +kernel
  have hmax : maxColumn ((boundRows lengthEnv [twiceGraph (1, 5) (2, 3)] 10).map NodeRow.endLine) =
      some 5 := by decide +kernel
  rw [hup] at hrow
  cases hp : bare.pick (boundRows lengthEnv [twiceGraph (1, 5) (2, 3)] 10) with
  | none =>
    rw [hp] at hrow
    cases hrow
  | some r =>
    rw [hp] at hrow
    have hfive : some 3 = maxColumn ((boundRows lengthEnv [twiceGraph (1, 5) (2, 3)] 10).map
        NodeRow.endLine) := Option.some.inj hrow
    rw [hmax] at hfive
    cases hfive

end SqliteStore

end Travsr.Store
