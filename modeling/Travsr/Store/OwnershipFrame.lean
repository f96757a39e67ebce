import Travsr.Store.Batch

namespace Travsr.Store

open Travsr.Core Relational

/-- The file's nodes all carry its own path and one corpus. -/
def FileGraph.Own (file : FileGraph) : Prop :=
  ∀ n ∈ file.nodes, n.vname.path = file.vnamePath ∧
    ∀ m ∈ file.nodes.head?, n.vname.corpus = m.vname.corpus

instance (file : FileGraph) : Decidable file.Own :=
  inferInstanceAs (Decidable (∀ n ∈ file.nodes, _ ∧ ∀ m ∈ file.nodes.head?, _))

theorem FileGraph.Own.inScope {file : FileGraph} (h : file.Own) {n : Node} (hn : n ∈ file.nodes)
    {r : NodeRow} (hv : r.vname = n.vname) : file.InScope r := by
  obtain ⟨hpath, hcorpus⟩ := h n hn
  refine ⟨hv ▸ hpath, ?_⟩
  intro m hm
  rw [hv]
  exact hcorpus m hm

namespace SqliteStore

variable {env : Env} {bulk : Bool} {s s' : SqliteStore} {c : Reparse} {file : FileGraph}
  {batch : List FileGraph}

/-- The node belongs to none of the written files, neither before nor by their parses. -/
def Outside (s : SqliteStore) (batch : List FileGraph) (x : NodeId) : Prop :=
  ∀ file ∈ batch, x ∉ s.scopeIds file ∧ x ∉ file.emittedIds

/-- The step of some file of the batch finds the node in its scope and does not emit it. -/
def RemovedDuring (env : Env) (bulk : Bool) : SqliteStore → List FileGraph → NodeId → Prop
  | _, [], _ => False
  | s, file :: batch, x =>
    (x ∈ s.scopeIds file ∧ x ∉ file.emittedIds) ∨
      ∃ t, writeFile env bulk s file = .ok t ∧ RemovedDuring env bulk t batch x

namespace Reindexed

variable (h : Reindexed env s c s')

include h

theorem edge_outside {e : EdgeRow} (he : e ∈ s.edges) (hsrc : e.src ∉ s.oldIds c) :
    (e.dst ∉ s.removedIds c → e ∈ s'.edges) ∧
      (e.dst ∈ s.removedIds c → ¬ s'.edges.Has e.key) := by
  have hf := h.find?_edges e.key
  constructor
  · intro hd
    have hkeep : ¬ s.Dropped env c e := fun hdrop => hsrc hdrop.1
    have hdst : e.key.2.1 ∉ s.removedIds c := hd
    rw [if_neg hdst, Table.find?_of_mem he, Option.filter_some, if_pos (by simpa using hkeep),
      Option.some_or] at hf
    exact (Table.mem_of_find? hf).1
  · intro hd
    have hdst : e.key.2.1 ∈ s.removedIds c := hd
    rw [if_pos hdst] at hf
    exact Table.find?_eq_none.mp hf

theorem site_outside {r : SiteRow} (hsrc : r.src ∉ s.oldIds c) : r ∈ s'.sites ↔ r ∈ s.sites := by
  rw [h.sites, Table.mem_insertAll, Table.mem_deleteWhere]
  constructor
  · intro hr
    rcases hr with hr | ⟨_, hr⟩
    · exact hr.1
    · obtain ⟨o, _, ho⟩ := List.mem_filterMap.mp (List.mem_of_find?_eq_some hr)
      obtain ⟨delta, hd, ho⟩ := Option.bind_eq_some_iff.mp ho
      split_ifs at ho
      obtain rfl := Option.some.inj ho
      unfold lineDelta at hd
      split_ifs at hd with hp
      exact absurd (preserved_subset_oldIds hp) hsrc
  · intro hr
    exact .inl ⟨hr, hsrc⟩

theorem node_outside {r : NodeRow} (hr : r ∈ s.nodes)
    (hfile : ¬ (r.vname.corpus = c.corpus ∧ r.vname.path = c.path))
    (hemit : ∀ n ∈ c.nodes, n.id ≠ r.id) : r ∈ s'.nodes := by
  have hold : r.id ∉ s.oldIds c := by
    intro hx
    obtain ⟨r', hr', hid, hcp⟩ := mem_idsAt.mp hx
    exact hfile (IndexedTable.eq_of_key hr' hr hid ▸ hcp)
  have hnone : c.nodes.filter (fun n => n.id = r.id) = [] := by
    rw [List.filter_eq_nil_iff]
    intro n hn
    simpa using hemit n hn
  have hf : s'.nodes.find? r.id = some r := by
    rw [h.find?_nodes, if_neg hold, hnone, Table.find?_of_mem (t := s.nodes.toTable) hr]
    rfl
  exact (Table.mem_of_find? hf).1

end Reindexed

namespace FileWritten

variable (h : FileWritten env bulk s file s')

include h

theorem outside {x : NodeId} (ho : Outside s batch x) (hx : x ∉ file.emittedIds) :
    Outside s' batch x := by
  intro g hg
  refine ⟨?_, (ho g hg).2⟩
  intro hs
  obtain ⟨r, hr, hid, hscope⟩ := mem_scopeIds.mp hs
  rcases mem_insertNodes h.nodes hr with ⟨o, hom, hoid, hov⟩ | ⟨n, hn, hnid, _⟩
  · apply (ho g hg).1
    refine mem_scopeIds.mpr ⟨o, (IndexedTable.mem_deleteWhere.mp hom).1, hoid.trans hid, ?_⟩
    rwa [FileGraph.InScope, hov]
  · exact hx (FileGraph.mem_emittedIds.mpr ⟨n, hn, hnid.trans hid⟩)

theorem node_outside (hown : file.Own) (ha : s.Addressed file.nodes) {r : NodeRow}
    (hr : r ∈ s.nodes) (hscope : ¬ file.InScope r) : r ∈ s'.nodes := by
  have hnone : file.nodes.filter (fun n => n.id = r.id) = [] := by
    rw [List.filter_eq_nil_iff]
    intro n hn hid
    rw [decide_eq_true_eq] at hid
    exact hscope (hown.inScope hn (ha.row r hr n hn hid.symm))
  have hf : s'.nodes.find? r.id = some r := by
    rw [h.find?_nodes, hnone, Table.find?_of_mem (t := s.nodes.toTable) hr, Option.filter_some,
      if_pos (by simpa using hscope)]
    rfl
  exact (Table.mem_of_find? hf).1

end FileWritten

/-- The files of a batch, one after the other, leave what lies outside them alone but for the
edges into removed symbols. -/
theorem foldlM_writeFile_frame {t : SqliteStore}
    (h : batch.foldlM (writeFile env bulk) s = .ok t) :
    (∀ e, e ∈ s.edges → Outside s batch e.src →
        (e ∈ t.edges ↔ ¬ RemovedDuring env bulk s batch e.dst)) ∧
      (∀ e, e ∈ t.edges → e ∈ s.edges) ∧
      (∀ r : SiteRow, Outside s batch r.src → (r ∈ t.sites ↔ r ∈ s.sites)) ∧
      ((∀ file ∈ batch, file.Own) → s.Addressed (batch.flatMap FileGraph.nodes) →
        ∀ r, r ∈ s.nodes → (∀ file ∈ batch, ¬ file.InScope r) → r ∈ t.nodes) := by
  induction batch generalizing s with
  | nil =>
    obtain rfl := Except.ok.inj h
    exact ⟨fun e he _ => by simpa [RemovedDuring] using he, fun _ he => he, fun _ _ => Iff.rfl,
      fun _ _ _ hr _ => hr⟩
  | cons file batch ih =>
    rw [List.foldlM_cons] at h
    simp only [bind, Except.bind] at h
    split at h
    · cases h
    next s1 h1 =>
      have hw := writeFile_ok h1
      obtain ⟨ihe, ihsub, ihs, ihn⟩ := ih h
      have hrest : ∀ x, Outside s (file :: batch) x → Outside s1 batch x := by
        intro x ho
        have hb : Outside s batch x := fun g hg => ho g (List.mem_cons_of_mem _ hg)
        exact hw.outside hb (ho file List.mem_cons_self).2
      refine ⟨?_, ?_, ?_, ?_⟩
      · intro e he ho
        have hsrc := (ho file List.mem_cons_self).1
        have hrem : RemovedDuring env bulk s (file :: batch) e.dst ↔
            (e.dst ∈ s.scopeIds file ∧ e.dst ∉ file.emittedIds) ∨
              RemovedDuring env bulk s1 batch e.dst := by
          rw [RemovedDuring, h1]
          simp
        rw [hrem, not_or]
        by_cases hd : e.dst ∈ s.scopeIds file ∧ e.dst ∉ file.emittedIds
        · have hgone : e ∉ s1.edges := fun hm => hd.2 ((hw.mem_edges.mp hm).2.2 hd.1)
          constructor
          · intro hm
            exact absurd (ihsub e hm) hgone
          · intro hm
            exact absurd hd hm.1
        · have hm1 : e ∈ s1.edges := by
            rw [not_and, not_not] at hd
            exact hw.mem_edges.mpr ⟨he, hsrc, hd⟩
          rw [ihe e hm1 (hrest _ ho)]
          exact (and_iff_right hd).symm
      · intro e he
        exact (hw.mem_edges.mp (ihsub e he)).1
      · intro r ho
        rw [ihs r (hrest _ ho), hw.mem_sites]
        exact and_iff_left (ho file List.mem_cons_self).1
      · intro hown ha r hr hscope
        rw [List.forall_mem_cons] at hown hscope
        rw [List.flatMap_cons] at ha
        have hr1 := hw.node_outside hown.1 (ha.subset (List.subset_append_left _ _)) hr hscope.1
        have ha1 := (hw.addressed ha (List.subset_append_left _ _)).subset
          (List.subset_append_right file.nodes _)
        exact ihn hown.2 ha1 r hr1 hscope.2

/-- The two per-file writers leave alone what other files own: their nodes, as far as the parse
does not emit them, their occurrence rows, and their edges, unless these lead to a symbol the
parse removed. -/
theorem perFileWriters_frame :
    (∀ (c : Reparse) (rep : ReplaceReport), s.reindexReplace env c = .ok (s', rep) →
      (∀ e, e ∈ s.edges → e.src ∉ s.oldIds c →
        (e.dst ∉ s.removedIds c → e ∈ s'.edges) ∧
          (e.dst ∈ s.removedIds c → ¬ s'.edges.Has e.key)) ∧
      (∀ r : SiteRow, r.src ∉ s.oldIds c → (r ∈ s'.sites ↔ r ∈ s.sites)) ∧
      ∀ r, r ∈ s.nodes → ¬ (r.vname.corpus = c.corpus ∧ r.vname.path = c.path) →
        (∀ n ∈ c.nodes, n.id ≠ r.id) → r ∈ s'.nodes) ∧
    ∀ (batch : List FileGraph) (counts : BatchWriteCounts), s.stagingActive = false →
      s.writeFileGraphsBatch env batch bulk = .ok (s', counts) →
      (∀ file ∈ batch, file.Own) → s.Addressed (batch.flatMap FileGraph.nodes) →
      (∀ e, e ∈ s.edges → Outside s batch e.src →
        (¬ RemovedDuring env bulk (s.prepareBulk bulk) batch e.dst → e ∈ s'.edges) ∧
          (RemovedDuring env bulk (s.prepareBulk bulk) batch e.dst →
            ∀ e', e' ∈ s'.edges → e'.key = e.key →
              ∃ p ∈ batch.flatMap FileGraph.edges, EdgeRow.ofParse p = e')) ∧
      (∀ r : SiteRow, Outside s batch r.src → (r ∈ s'.sites ↔ r ∈ s.sites)) ∧
      ∀ r, r ∈ s.nodes → (∀ file ∈ batch, ¬ file.InScope r) → r ∈ s'.nodes := by
  constructor
  · intro c rep hok
    have h := reindexReplace_ok hok
    exact ⟨fun e he hsrc => h.edge_outside he hsrc, fun r hsrc => h.site_outside hsrc,
      fun r hr hfile hemit => h.node_outside hr hfile hemit⟩
  · intro batch counts hstage hok hown ha
    obtain ⟨t, ht, hn, hs, _, he⟩ := writeFileGraphsBatch_ok hstage hok
    obtain ⟨hpn, hpe, hps⟩ := prepareBulk_tables bulk s
    obtain ⟨hedges, hsub, hsites, hnodes⟩ := foldlM_writeFile_frame ht
    have hout : ∀ x, Outside s batch x → Outside (s.prepareBulk bulk) batch x := by
      intro x ho file hf
      rw [mem_scopeIds, hpn, ← mem_scopeIds]
      exact ho file hf
    refine ⟨?_, ?_, ?_⟩
    · intro e hem ho
      have hiff := hedges e (hpe ▸ hem) (hout _ ho)
      rw [he]
      constructor
      · intro hrem
        exact Table.mem_insertAll.mpr (.inl (hiff.mpr hrem))
      · intro hrem e' he' hk
        rcases Table.mem_insertAll.mp he' with hold | ⟨_, hp⟩
        · have hsame : e' = e := by
            have hms : e' ∈ s.edges := hpe ▸ hsub e' hold
            exact Table.eq_of_key hms hem hk
          exact absurd hrem (hiff.mp (hsame ▸ hold))
        · obtain ⟨p, hpm, hpe'⟩ := List.mem_map.mp (List.mem_of_find?_eq_some hp)
          exact ⟨p, (List.mem_filter.mp hpm).1, hpe'⟩
    · intro r ho
      rw [hs, hsites r (hout _ ho), hps]
    · intro r hr hscope
      rw [hn]
      have ha' : (s.prepareBulk bulk).Addressed (batch.flatMap FileGraph.nodes) :=
        ⟨fun r hr => ha.row r (hpn ▸ hr), ha.node⟩
      exact hnodes hown ha' r (hpn ▸ hr) hscope

/-- A Go package that two files share: its node is stored under the directory. -/
def packageStore : SqliteStore where
  __ := SqliteStore.empty
  nodes := ⟨⟨[NodeRow.ofNode { parsed "pkg" "go" "pkg" "go-pkg" with line := some 3 } none,
    NodeRow.ofNode (parsed "pkg/b.go" "go" "file" "file") none,
    NodeRow.ofNode (parsed "pkg/ab.go" "go" "func:Run" "function") none], by decide⟩, by decide⟩
  edges := ⟨[⟨12, 6, .definesBinding, "tree-sitter", none⟩, ⟨12, 17, .refCall, "scip", none⟩],
    by decide⟩
  sites := ⟨[⟨12, 17, .refCall, 7, some 4⟩], by decide⟩

def packageFile (path : String) : Reparse where
  corpus := "repo"
  path := path
  nodes := [parsed path "go" "file" "file", { parsed "pkg" "go" "pkg" "go-pkg" with line := some 9 }]
  edges := []
  newHash := "h"
  content := none

theorem perFileWriters_frame_package :
    (∃ s' rep, packageStore.reindexReplace lengthEnv (packageFile "pkg/ab.go") = .ok (s', rep) ∧
      ⟨12, 6, .definesBinding, "tree-sitter", none⟩ ∈ s'.edges ∧
      ⟨12, 17, .refCall, 7, some 4⟩ ∈ s'.sites) ∧
    ∃ s' counts, packageStore.writeFileGraphsBatch lengthEnv
        [⟨"pkg/ab.go", "h", [parsed "pkg/ab.go" "go" "file" "file"], [], none⟩] false = .ok (s', counts) ∧
      NodeRow.ofNode { parsed "pkg" "go" "pkg" "go-pkg" with line := some 3 } none ∈ s'.nodes := by
  constructor
  · obtain ⟨⟨s', rep⟩, h⟩ := exists_ok (x := packageStore.reindexReplace lengthEnv
      (packageFile "pkg/ab.go")) (by decide +kernel)
    obtain ⟨hedges, hsites, _⟩ := (@perFileWriters_frame _ false _ _).1 _ _ h
    refine ⟨s', rep, h, ?_, ?_⟩
    · exact (hedges _ (by decide +kernel) (by decide +kernel)).1 (by decide +kernel)
    · exact (hsites _ (by decide +kernel)).mpr (by decide +kernel)
  · obtain ⟨⟨s', counts⟩, h⟩ := exists_ok (x := packageStore.writeFileGraphsBatch lengthEnv
      [⟨"pkg/ab.go", "h", [parsed "pkg/ab.go" "go" "file" "file"], [], none⟩] false) (by decide +kernel)
    obtain ⟨_, _, hnodes⟩ := (@perFileWriters_frame _ false _ _).2 _ _ rfl h (by decide +kernel)
      ⟨by decide +kernel, by decide +kernel⟩
    exact ⟨s', counts, h, hnodes _ (by decide +kernel) (by decide +kernel)⟩

/-- The parse of one file of a package rewrites the package's node, which another file owns. -/
theorem packageFile_foreign_node :
    ∃ s' rep, packageStore.reindexReplace lengthEnv (packageFile "pkg/ab.go") = .ok (s', rep) ∧
      ∃ r, r ∈ packageStore.nodes ∧ r.vname.path ≠ "pkg/ab.go" ∧ r ∉ s'.nodes := by
  obtain ⟨⟨s', rep⟩, h⟩ := exists_ok (x := packageStore.reindexReplace lengthEnv
    (packageFile "pkg/ab.go")) (by decide +kernel)
  refine ⟨s', rep, h, NodeRow.ofNode { parsed "pkg" "go" "pkg" "go-pkg" with line := some 3 } none,
    by decide +kernel, by decide +kernel, ?_⟩
  intro hm
  have hf : s'.nodes.find? 6 = some _ := Table.find?_of_mem (t := s'.nodes.toTable) hm
  rw [(reindexReplace_ok h).find?_nodes] at hf
  revert hf
  decide +kernel

end SqliteStore

end Travsr.Store
