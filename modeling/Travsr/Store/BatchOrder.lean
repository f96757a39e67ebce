import Mathlib.Data.List.Perm.Basic
import Travsr.Store.Batch

namespace Travsr.Store

open Travsr.Core Relational

theorem flatMap_eq_of_perm {α β : Type} {g : α → List β} {l l' : List α} (h : l.Perm l')
    (hp : l.Pairwise fun a b => g a = [] ∨ g b = []) : l.flatMap g = l'.flatMap g := by
  induction h with
  | nil => rfl
  | cons a _ ih => rw [List.flatMap_cons, List.flatMap_cons, ih (List.pairwise_cons.mp hp).2]
  | swap a b l =>
    have hab := (List.pairwise_cons.mp hp).1 a List.mem_cons_self
    rcases hab with hab | hab <;> simp [hab]
  | trans h1 _ ih1 ih2 =>
    have hsymm : ∀ a b, g a = [] ∨ g b = [] → g b = [] ∨ g a = [] := fun _ _ hab => hab.symm
    exact (ih1 hp).trans (ih2 ((h1.pairwise_iff (hsymm _ _)).mp hp))

namespace FileGraph

/-- The file's nodes carry its own path. -/
def OwnPaths (file : FileGraph) : Prop := ∀ n ∈ file.nodes, n.vname.path = file.vnamePath

instance (file : FileGraph) : Decidable file.OwnPaths :=
  inferInstanceAs (Decidable (∀ n ∈ file.nodes, _))

/-- The file's nodes carry its own path and the batch's corpus. -/
def OwnIn (corpus : String) (file : FileGraph) : Prop :=
  ∀ n ∈ file.nodes, n.vname.path = file.vnamePath ∧ n.vname.corpus = corpus

instance (corpus : String) (file : FileGraph) : Decidable (file.OwnIn corpus) :=
  inferInstanceAs (Decidable (∀ n ∈ file.nodes, _))

theorem OwnIn.ownPaths {corpus : String} {file : FileGraph} (h : file.OwnIn corpus) : file.OwnPaths :=
  fun n hn => (h n hn).1

def Keyed (file : FileGraph) : Prop := ∀ n ∈ file.nodes, ∀ m ∈ file.nodes, n.vname = m.vname → n.id = m.id

def rowsOf (env : Env) (x : NodeId) (file : FileGraph) : List NodeRow :=
  (file.nodes.filter (fun n => n.id = x)).map fun n => NodeRow.ofNode n (file.hashes env n.id)

theorem mem_rowsOf {env : Env} {x : NodeId} {file : FileGraph} {r : NodeRow}
    (h : r ∈ file.rowsOf env x) : ∃ n ∈ file.nodes, n.id = x ∧ r.id = x ∧ r.vname = n.vname := by
  obtain ⟨n, hn, hr⟩ := List.mem_map.mp h
  rw [List.mem_filter, decide_eq_true_eq] at hn
  exact ⟨n, hn.1, hn.2, hr ▸ hn.2, hr ▸ rfl⟩

theorem OwnIn.inScope {corpus : String} {file : FileGraph} (h : file.OwnIn corpus) {n : Node}
    (hn : n ∈ file.nodes) {r : NodeRow} (hv : r.vname = n.vname) : file.InScope r := by
  refine ⟨by rw [hv, (h n hn).1], ?_⟩
  intro m hm
  rw [hv, (h n hn).2, (h m (List.mem_of_mem_head? hm)).2]

end FileGraph

namespace SqliteStore

variable {env : Env} {bulk : Bool} {s s' : SqliteStore} {file : FileGraph}
  {batch batch' : List FileGraph} {corpus : String}

theorem foldlM_putMapOnly {lex : Lexical} {nodes : List Node} (h : lex.pending.isSome) :
    ∃ lex', nodes.foldlM Lexical.putMapOnly lex = some lex' ∧ lex'.pending.isSome := by
  induction nodes generalizing lex with
  | nil => exact ⟨lex, rfl, h⟩
  | cons n nodes ih =>
    obtain ⟨ids, hids⟩ := Option.isSome_iff_exists.mp h
    obtain ⟨lex1, h1, hp1⟩ : ∃ lex1, lex.putMapOnly n = some lex1 ∧ lex1.pending.isSome := by
      rw [Lexical.putMapOnly, hids]
      exact ⟨_, rfl, rfl⟩
    rw [List.foldlM_cons, h1]
    exact ih hp1

theorem indexNodes_isOk {lex : Lexical} {nodes : List Node}
    (h : bulk = true → lex.pending.isSome) :
    ∃ lex', indexNodes bulk lex nodes = .ok lex' ∧ (bulk = true → lex'.pending.isSome) := by
  cases bulk with
  | false => exact ⟨_, rfl, fun hb => by cases hb⟩
  | true =>
    obtain ⟨lex', hl, hp⟩ := @foldlM_putMapOnly lex nodes (h rfl)
    refine ⟨lex', ?_, fun _ => hp⟩
    rw [indexNodes, hl]
    rfl

theorem writeFile_isOk_iff (hown : file.OwnIn corpus) (ha : s.Addressed file.nodes)
    (hp : bulk = true → s.lex.pending.isSome) :
    (∃ s', writeFile env bulk s file = .ok s') ↔ file.Keyed := by
  obtain ⟨lex, hl, _⟩ := @indexNodes_isOk bulk (s.lex.retract (s.scopeIds file)) file.nodes hp
  have hiff := @insertNodes_isOk "inserting node in batch" (file.hashes env)
    (s.nodes.deleteWhere (fun r => file.InScope r)) file.nodes
    (fun r hr => ha.row r (IndexedTable.mem_deleteWhere.mp hr).1) ha.node
  constructor
  · intro ⟨s', hok⟩
    exact (hiff.mp ⟨_, (writeFile_ok hok).nodes⟩).2
  · intro hk
    obtain ⟨u, hu⟩ := hiff.mpr ⟨fun r hr n hn hv =>
      absurd (hown.inScope hn hv) (IndexedTable.mem_deleteWhere.mp hr).2, hk⟩
    simp only [writeFile, bind, Except.bind, pure, Except.pure, hu, hl]
    exact ⟨_, rfl⟩

namespace FileWritten

variable (h : FileWritten env bulk s file s')

include h

theorem pending (hp : bulk = true → s.lex.pending.isSome) : bulk = true → s'.lex.pending.isSome := by
  obtain ⟨lex, hl, hlp⟩ := @indexNodes_isOk bulk (s.lex.retract (s.scopeIds file)) file.nodes hp
  have hlex := h.lex
  rw [hl] at hlex
  exact Except.ok.inj hlex ▸ hlp

theorem scopeIds_eq (hown : file.OwnPaths) {g : FileGraph} (hne : g.vnamePath ≠ file.vnamePath) :
    s'.scopeIds g = s.scopeIds g := by
  ext x
  rw [mem_scopeIds, mem_scopeIds]
  constructor
  · intro ⟨r, hr, hid, hs⟩
    rcases mem_insertNodes h.nodes hr with ⟨o, ho, hoid, hov⟩ | ⟨n, hn, _, hnv⟩
    · refine ⟨o, (IndexedTable.mem_deleteWhere.mp ho).1, hoid.trans hid, ?_⟩
      rwa [FileGraph.InScope, hov]
    · exact absurd (hs.1.symm.trans (hnv ▸ hown n hn)) hne
  · intro ⟨r, hr, hid, hs⟩
    have hns : ¬ file.InScope r := fun hf => hne (hs.1.symm.trans hf.1)
    have hf := h.find?_nodes x
    rw [← hid, Table.find?_of_mem (t := s.nodes.toTable) hr, Option.filter_some,
      if_pos (by simpa using hns)] at hf
    obtain ⟨r', hr', hk, hv⟩ := IndexedTable.evolve_some parseUpdate r
      (file.rowsOf env r.id)
    have hm := (Table.mem_of_find? (hf.trans hr')).1
    refine ⟨r', hm, hk.trans hid, ?_⟩
    rwa [FileGraph.InScope, hv]

end FileWritten

/-- The conditions under which the files of a batch are written, whatever their order. -/
structure Writable (bulk : Bool) (corpus : String) (s : SqliteStore) (batch : List FileGraph) :
    Prop where
  paths : batch.Pairwise fun f g => g.vnamePath ≠ f.vnamePath
  own : ∀ file ∈ batch, file.OwnIn corpus
  addressed : s.Addressed (batch.flatMap FileGraph.nodes)
  pending : bulk = true → s.lex.pending.isSome

theorem Writable.step (hw : Writable bulk corpus s (file :: batch)) :
    ((∃ t, writeFile env bulk s file = .ok t) ↔ file.Keyed) ∧
      ∀ t, writeFile env bulk s file = .ok t → Writable bulk corpus t batch := by
  have hown := hw.own file List.mem_cons_self
  have hsub : file.nodes ⊆ (file :: batch).flatMap FileGraph.nodes := by
    rw [List.flatMap_cons]
    exact List.subset_append_left _ _
  refine ⟨writeFile_isOk_iff hown (hw.addressed.subset hsub) hw.pending, ?_⟩
  intro t ht
  have hf := writeFile_ok ht
  refine ⟨hw.paths.tail, fun f hm => hw.own f (List.mem_cons_of_mem _ hm), ?_, hf.pending hw.pending⟩
  refine (hf.addressed hw.addressed hsub).subset ?_
  rw [List.flatMap_cons]
  exact List.subset_append_right _ _

theorem foldlM_writeFile_isOk_iff (hw : Writable bulk corpus s batch) :
    (∃ t, batch.foldlM (writeFile env bulk) s = .ok t) ↔ ∀ file ∈ batch, file.Keyed := by
  induction batch generalizing s with
  | nil => simp [pure, Except.pure]
  | cons file batch ih =>
    obtain ⟨hok, hnext⟩ := @Writable.step env _ _ _ _ _ hw
    rw [List.forall_mem_cons, List.foldlM_cons]
    simp only [bind, Except.bind]
    constructor
    · intro ⟨t, ht⟩
      split at ht
      · cases ht
      next s1 h1 => exact ⟨hok.mp ⟨s1, h1⟩, (ih (hnext s1 h1)).mp ⟨t, ht⟩⟩
    · intro ⟨hk, hrest⟩
      obtain ⟨s1, h1⟩ := hok.mpr hk
      obtain ⟨t, ht⟩ := (ih (hnext s1 h1)).mpr hrest
      refine ⟨t, ?_⟩
      rw [h1]
      exact ht

theorem foldlM_writeFile_tables {t : SqliteStore} (hw : Writable bulk corpus s batch)
    (h : batch.foldlM (writeFile env bulk) s = .ok t) :
    (∀ x, t.nodes.find? x = IndexedTable.evolve parseUpdate
        ((s.nodes.find? x).filter (fun r => ∀ file ∈ batch, ¬ file.InScope r))
        (batch.flatMap (FileGraph.rowsOf env x))) ∧
      (∀ e, e ∈ t.edges ↔ e ∈ s.edges ∧ ∀ file ∈ batch, e.src ∉ s.scopeIds file ∧
        (e.dst ∈ s.scopeIds file → e.dst ∈ file.emittedIds)) ∧
      ∀ r, r ∈ t.sites ↔ r ∈ s.sites ∧ ∀ file ∈ batch, r.src ∉ s.scopeIds file := by
  induction batch generalizing s with
  | nil =>
    obtain rfl := Except.ok.inj h
    refine ⟨fun x => ?_, by simp, by simp⟩
    cases s.nodes.find? x <;> simp [IndexedTable.evolve, Option.filter]
  | cons file batch ih =>
    have hnext := (@Writable.step env _ _ _ _ _ hw).2
    have hown := hw.own file List.mem_cons_self
    have hne := (List.pairwise_cons.mp hw.paths).1
    rw [List.foldlM_cons] at h
    simp only [bind, Except.bind] at h
    split at h
    · cases h
    next s1 h1 =>
      have hf := writeFile_ok h1
      obtain ⟨ihn, ihe, ihs⟩ := ih (hnext s1 h1) h
      have hscope : ∀ g ∈ batch, s1.scopeIds g = s.scopeIds g :=
        fun g hg => hf.scopeIds_eq hown.ownPaths (hne g hg)
      refine ⟨?_, ?_, ?_⟩
      · intro x
        rw [ihn x, hf.find?_nodes x, List.flatMap_cons]
        change IndexedTable.evolve parseUpdate ((IndexedTable.evolve parseUpdate
          ((s.nodes.find? x).filter fun r => ¬ file.InScope r) (file.rowsOf env x)).filter _) _ = _
        cases hrows : file.rowsOf env x with
        | nil =>
          have hcomb : ((s.nodes.find? x).filter fun r => ¬ file.InScope r).filter
              (fun r => ∀ g ∈ batch, ¬ g.InScope r) =
              (s.nodes.find? x).filter fun r => ∀ g ∈ file :: batch, ¬ g.InScope r := by
            rw [Option.filter_filter]
            congr 1
            funext r
            simp
          rw [List.nil_append, ← hcomb]
          rfl
        | cons a rows =>
          obtain ⟨n, hn, hnx, hax, hav⟩ := FileGraph.mem_rowsOf (hrows ▸ List.mem_cons_self : a ∈ _)
          have hold : (s.nodes.find? x).filter (fun r => ¬ file.InScope r) = none := by
            rw [Option.filter_eq_none_iff]
            intro r hr
            obtain ⟨hm, hid⟩ := Table.mem_of_find? hr
            have hv := hw.addressed.row r hm n (by simp [hn]) (hid.trans hnx.symm)
            simpa using hown.inScope hn hv
          have hold' : (s.nodes.find? x).filter (fun r => ∀ g ∈ file :: batch, ¬ g.InScope r) = none := by
            rw [Option.filter_eq_none_iff] at hold ⊢
            intro r hr
            have := hold r hr
            simp only [decide_not, Bool.not_eq_eq_eq_not, Bool.not_true, decide_eq_false_iff_not,
              not_not] at this
            simp [this]
          have hothers : batch.flatMap (FileGraph.rowsOf env x) = [] := by
            rw [List.flatMap_eq_nil_iff]
            intro g hg
            rw [List.eq_nil_iff_forall_not_mem]
            intro b hb
            obtain ⟨m, hm, hmx, _, _⟩ := FileGraph.mem_rowsOf hb
            have hv := hw.addressed.node n (by simp [hn]) m
              (List.mem_flatMap.mpr ⟨g, List.mem_cons_of_mem _ hg, hm⟩) (hnx.trans hmx.symm)
            apply hne g hg
            rw [← (hw.own g (List.mem_cons_of_mem _ hg) m hm).1, ← (hown n hn).1, hv]
          obtain ⟨r', hr', _, hv'⟩ := IndexedTable.evolve_some parseUpdate a rows
          have hfirst : IndexedTable.evolve parseUpdate none (a :: rows) = some r' := hr'
          have hstay : ∀ g ∈ batch, ¬ g.InScope r' := by
            intro g hg hs
            apply hne g hg
            rw [← hs.1, hv', hav, (hown n hn).1]
          rw [hold, hold', hothers, List.append_nil, hfirst, Option.filter_some,
            if_pos (by simpa using hstay)]
          rfl
      · intro e
        rw [ihe, hf.mem_edges, List.forall_mem_cons, and_assoc]
        refine and_congr_right fun _ => and_congr_right fun _ => ?_
        exact forall₂_congr fun g hg => by rw [hscope g hg]
      · intro r
        rw [ihs, hf.mem_sites, List.forall_mem_cons, and_assoc]
        refine and_congr_right fun _ => and_congr_right fun _ => ?_
        exact forall₂_congr fun g hg => by rw [hscope g hg]

theorem Writable.rowsOf_pairwise (hw : Writable bulk corpus s batch) (x : NodeId) :
    batch.Pairwise fun f g => f.rowsOf env x = [] ∨ g.rowsOf env x = [] := by
  refine hw.paths.imp_of_mem ?_
  intro f g hf hg hne
  by_contra hboth
  obtain ⟨hfx, hgx⟩ := not_or.mp hboth
  obtain ⟨a, hafx⟩ := List.exists_mem_of_ne_nil _ hfx
  obtain ⟨b, hbgx⟩ := List.exists_mem_of_ne_nil _ hgx
  obtain ⟨n, hn, hnx, _⟩ := FileGraph.mem_rowsOf hafx
  obtain ⟨m, hm, hmx, _⟩ := FileGraph.mem_rowsOf hbgx
  have hv := hw.addressed.node n (List.mem_flatMap.mpr ⟨f, hf, hn⟩) m
    (List.mem_flatMap.mpr ⟨g, hg, hm⟩) (hnx.trans hmx.symm)
  apply hne
  rw [← (hw.own g hg m hm).1, ← (hw.own f hf n hn).1, hv]

def firstEdge (k : NodeId × NodeId × EdgeKind) (file : FileGraph) : Option Edge :=
  file.edges.find? fun e => (EdgeRow.ofParse e).key = k

/-- Two files that give the same edge give it the same confidence. -/
def ConfidenceAgrees (batch : List FileGraph) : Prop :=
  ∀ f ∈ batch, ∀ g ∈ batch, ∀ e ∈ f.edges, ∀ a ∈ firstEdge (EdgeRow.ofParse e).key f,
    ∀ b ∈ firstEdge (EdgeRow.ofParse e).key g, a.confidence = b.confidence

instance (batch : List FileGraph) : Decidable (ConfidenceAgrees batch) :=
  inferInstanceAs (Decidable (∀ f ∈ batch, ∀ g ∈ batch, ∀ e ∈ f.edges, _))

theorem firstEdge_spec {k : NodeId × NodeId × EdgeKind} {e : Edge} (h : firstEdge k file = some e) :
    e ∈ file.edges ∧ (EdgeRow.ofParse e).key = k := by
  refine ⟨List.mem_of_find?_eq_some h, ?_⟩
  have := List.find?_some h
  rwa [decide_eq_true_eq] at this

theorem find?_guardedEdges {t : SqliteStore} (k : NodeId × NodeId × EdgeKind) :
    ((t.guardedEdges batch).map EdgeRow.ofParse).find? (fun e => e.key = k) =
      if t.Stored k.1 ∧ t.Stored k.2.1 then (batch.findSome? (firstEdge k)).map EdgeRow.ofParse
      else none := by
  have hfind : (t.guardedEdges batch).find? (fun e => (EdgeRow.ofParse e).key = k) =
      if t.Stored k.1 ∧ t.Stored k.2.1 then batch.findSome? (firstEdge k) else none := by
    have hflat : batch.findSome? (firstEdge k) =
        (batch.flatMap FileGraph.edges).find? fun e => (EdgeRow.ofParse e).key = k :=
      (List.find?_flatMap).symm
    rw [guardedEdges, List.find?_filter, hflat]
    split_ifs with hk
    · congr 1
      funext e
      by_cases he : (EdgeRow.ofParse e).key = k
      · subst he
        have hs : t.Stored e.src ∧ t.Stored e.dst := hk
        simp [hs]
      · simp [he]
    · rw [List.find?_eq_none]
      intro e _ he
      simp only [Bool.decide_and, Bool.and_eq_true, decide_eq_true_eq] at he
      obtain ⟨hs, rfl⟩ := he
      exact hk hs
  rw [List.find?_map]
  change ((t.guardedEdges batch).find? fun e => (EdgeRow.ofParse e).key = k).map _ = _
  rw [hfind]
  split_ifs <;> rfl

theorem findSome?_firstEdge_perm (hperm : batch.Perm batch') (hagree : ConfidenceAgrees batch)
    (k : NodeId × NodeId × EdgeKind) :
    (batch.findSome? (firstEdge k)).map EdgeRow.ofParse =
      (batch'.findSome? (firstEdge k)).map EdgeRow.ofParse := by
  cases ha : batch.findSome? (firstEdge k) with
  | none =>
    have hb : batch'.findSome? (firstEdge k) = none := by
      rw [List.findSome?_eq_none_iff] at ha ⊢
      exact fun f hf => ha f (hperm.mem_iff.mpr hf)
    rw [hb]
  | some a =>
    obtain ⟨f, hf, hfa⟩ := List.exists_of_findSome?_eq_some ha
    cases hb : batch'.findSome? (firstEdge k) with
    | none =>
      rw [List.findSome?_eq_none_iff] at hb
      have := hb f (hperm.mem_iff.mp hf)
      rw [hfa] at this
      cases this
    | some b =>
      obtain ⟨g, hg, hgb⟩ := List.exists_of_findSome?_eq_some hb
      obtain ⟨hfm, hak⟩ := firstEdge_spec hfa
      obtain ⟨_, hbk⟩ := firstEdge_spec hgb
      have hconf : a.confidence = b.confidence :=
        hagree f hf g (hperm.mem_iff.mpr hg) a hfm a (hak ▸ hfa) b (hak ▸ hgb)
      have hrow : ∀ e : Edge, (EdgeRow.ofParse e).key = k →
          EdgeRow.ofParse e = ⟨k.1, k.2.1, k.2.2, "tree-sitter", e.confidence⟩ := by
        intro e he
        subst he
        rfl
      rw [Option.map_some, Option.map_some, hrow a hak, hrow b hbk, hconf]

def importerGraph (confidence : Option Nat) : FileGraph where
  vnamePath := "a.ts"
  newHash := "h"
  nodes := [parsed "a.ts" "typescript" "file" "file",
    parsed "a.ts" "typescript" "import:./user" "import"]
  edges := [⟨8, 17, .definesBinding, none, none⟩, ⟨17, 11, .resolvesTo, confidence, none⟩,
    ⟨17, 12, .resolvesTo, none, none⟩]
  source := none

def importedGraph (confidence : Option Nat) : FileGraph where
  vnamePath := "user.ts"
  newHash := "h"
  nodes := [parsed "user.ts" "typescript" "file" "file"]
  edges := [⟨17, 11, .resolvesTo, confidence, none⟩]
  source := none

end SqliteStore

end Travsr.Store
