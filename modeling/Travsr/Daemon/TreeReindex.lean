import Travsr.Indexer.ImportLinks
import Travsr.Lib.PartedGraph
import Travsr.Store.IncrementalOrphans
import Travsr.Store.Staging

namespace Travsr.Daemon

open Travsr.Core Core.Text Travsr.Store Store.SqliteStore Travsr.Indexer Relational

structure SourceFile where
  path : String
  content : String
  deriving DecidableEq, Repr

abbrev SourceTree := Table SourceFile SourceFile.path

def SourceTree.onDisk (tree : SourceTree) (path : String) : Bool :=
  tree.rows.any fun f => f.path = path || startsWith f.path (path ++ "/")

/-- What an index is made with: the digests, the corpus, the parsers and the aliases that the
repository's `tsconfig.json` sets. A parser sees the path and the content alone; the ids of the
nodes it emits are digests of their vnames, and no two of these share one. -/
structure SourceIndexer where
  env : Env
  corpus : String
  parse : (path content : String) → Option (List Node × List Edge)
  aliases : SourceTree → List (String × String)
  /-- The vname that an id stands for. -/
  vnameOf : NodeId → VName
  addressed : ∀ path content out, parse path content = some out →
    ∀ n ∈ out.1, n.id = env.vnameId n.vname ∧ vnameOf n.id = n.vname
  confidence : ∀ path content out, parse path content = some out →
    ∀ e ∈ out.2, confidenceOk e.confidence

namespace SourceIndexer

variable (ix : SourceIndexer) (tree : SourceTree)

def fileGraph (f : SourceFile) : Option FileGraph :=
  (ix.parse f.path f.content).map fun out =>
    { vnamePath := f.path
      newHash := ix.env.sha256 f.content
      nodes := out.1
      edges := out.2 ++
        linkImports ix.env ix.corpus (ix.aliases tree) tree.onDisk f.path out.1
      source := some f.content }

def graphs : List FileGraph := tree.rows.filterMap (ix.fileGraph tree)

def initIndex (bare : BareRow) (batches : List (List FileGraph)) : Except StoreError SqliteStore := do
  let staged ← batches.foldlM
    (fun s batch => (s.writeFileGraphsBatch ix.env batch true).map Prod.fst)
    SqliteStore.empty.beginStagingTables
  let flushed := staged.flushStagingToProduction bare
  flushed.2.map fun _ => flushed.1

/-- A store that an initialisation may leave: the files come as the workers finish them and are
batched in that order. -/
def FreshIndex (s : SqliteStore) : Prop :=
  ∃ bare batches, batches.flatten.Perm (ix.graphs tree) ∧ ix.initIndex bare batches = .ok s

/-- What `reindex_files_reporting` works on and gives back. -/
structure Reindexing where
  store : SqliteStore
  callers : Finset String
  changedOccurrences : List (String × List ChangedOccurrence)
  changedDefs : List (String × List NodeId)
  writtenPaths : List String

def reparse (g : FileGraph) : Reparse :=
  ⟨ix.corpus, g.vnamePath, g.nodes, g.edges, g.newHash, g.source⟩

/-- One path of the batch. A file that does not parse keeps its old graph. -/
def reindexPath (r : Reindexing) (path : String) : Reindexing :=
  match tree.find? path with
  | none =>
    let deleted := r.store.deleteFile ix.corpus path
    { r with store := deleted.1, callers := r.callers ∪ deleted.2 }
  | some f =>
    if (r.store.files.find? path).map FileRow.sha256 = some (ix.env.sha256 f.content) then r
    else
      match ix.fileGraph tree f with
      | none => r
      | some g =>
        match r.store.reindexReplace ix.env (ix.reparse g) with
        | .error _ => r
        | .ok (store, report) =>
          { store := store
            callers := r.callers ∪ report.callers
            changedOccurrences := r.changedOccurrences ++
              if report.changedOccurrences = [] then [] else [(path, report.changedOccurrences)]
            changedDefs := r.changedDefs ++
              if report.preservedAny then [(path, report.changedDefs)] else []
            writtenPaths := r.writtenPaths ++ [path] }

def reindexPaths (s : SqliteStore) (paths : List String) : Reindexing :=
  paths.foldl (ix.reindexPath tree) ⟨s, ∅, [], [], []⟩

/-- `reindex_files_reporting`: the paths one by one, then the sweep over those written; where
nothing changed there are none. -/
def reindexFilesReporting (s : SqliteStore) (paths : List String) : Reindexing :=
  let r := ix.reindexPaths tree s paths
  { r with store := (r.store.sweepOrphanEdgesForPaths ix.corpus r.writtenPaths).1 }

def reindexFiles (s : SqliteStore) (paths : List String) : SqliteStore :=
  (ix.reindexFilesReporting tree s paths).store

def reindexTree (st : SqliteStore × SourceTree) (next : SourceTree × List String) :
    SqliteStore × SourceTree :=
  (ix.reindexFiles next.1 st.1 next.2, next.1)

/-- The paths are those of the created, the changed and the deleted files. -/
def ExactPaths (tree tree' : SourceTree) (paths : List String) : Prop :=
  paths.Nodup ∧ ∀ path, path ∈ paths ↔ tree.find? path ≠ tree'.find? path

/-- The stores hold the same nodes and the same edges. -/
structure SameGraph (s u : SqliteStore) : Prop where
  nodes : ∀ id vname, (∃ r, r ∈ s.nodes ∧ r.id = id ∧ r.vname = vname) ↔
    ∃ r, r ∈ u.nodes ∧ r.id = id ∧ r.vname = vname
  edges : ∀ k, s.edges.Has k ↔ u.edges.Has k

/-- The store holds what a fresh index of the tree holds. -/
def AgreesWithFresh (st : SqliteStore × SourceTree) : Prop :=
  ∀ u, ix.FreshIndex st.2 u → SameGraph st.1 u

end SourceIndexer

end Travsr.Daemon

namespace Travsr.Daemon

open Travsr.Core Travsr.Store Store.SqliteStore Travsr.Indexer Relational PartedGraph

def part (g : FileGraph) : PartedGraph.Graph NodeId EdgeKind where
  nodes := g.emittedIds
  links := (g.edges.map fun e => (EdgeRow.ofParse e).key).toFinset

def view (s : SqliteStore) : PartedGraph.Graph NodeId EdgeKind where
  nodes := (s.nodes.rows.map NodeRow.id).toFinset
  links := (s.edges.rows.map EdgeRow.key).toFinset

theorem mem_view_nodes {s : SqliteStore} {x : NodeId} : x ∈ (view s).nodes ↔ s.Stored x := by
  rw [view, List.mem_toFinset, List.mem_map]
  rfl

theorem mem_view_links {s : SqliteStore} {l : NodeId × NodeId × EdgeKind} :
    l ∈ (view s).links ↔ s.edges.Has l := by
  rw [view, List.mem_toFinset, List.mem_map]
  rfl

theorem mem_part_nodes {g : FileGraph} {x : NodeId} :
    x ∈ (part g).nodes ↔ ∃ n ∈ g.nodes, n.id = x := FileGraph.mem_emittedIds

theorem mem_part_links {g : FileGraph} {l : NodeId × NodeId × EdgeKind} :
    l ∈ (part g).links ↔ ∃ e ∈ g.edges, (EdgeRow.ofParse e).key = l := by
  rw [part, List.mem_toFinset, List.mem_map]

namespace SourceIndexer

variable (ix : SourceIndexer)

def owner (x : NodeId) : Option String :=
  if (ix.vnameOf x).corpus = ix.corpus then some (ix.vnameOf x).path else none

theorem owner_eq_some {x : NodeId} {path : String} :
    ix.owner x = some path ↔ (ix.vnameOf x).corpus = ix.corpus ∧ (ix.vnameOf x).path = path := by
  unfold owner
  split_ifs with h <;> simp [h]

def indexOf (tree : SourceTree) : PartedGraph.Graph NodeId EdgeKind :=
  assemble ((ix.graphs tree).map part)

/-- The nodes of the store carry the vnames of their ids, and no edge of it is committed. -/
structure Parsed (s : SqliteStore) : Prop where
  id_eq : ∀ r, r ∈ s.nodes → r.id = ix.env.vnameId r.vname
  vname_eq : ∀ r, r ∈ s.nodes → ix.vnameOf r.id = r.vname
  uncommitted : ∀ e, e ∈ s.edges → isCommitted e.provenance = false

variable {ix} {tree : SourceTree} {s s' u : SqliteStore} {g : FileGraph}

/-! ### What the files of a tree emit -/

theorem mem_graphs : g ∈ ix.graphs tree ↔ ∃ f, f ∈ tree ∧ ix.fileGraph tree f = some g :=
  List.mem_filterMap

theorem addressed_of_fileGraph {f : SourceFile} (h : ix.fileGraph tree f = some g) {n : Node}
    (hn : n ∈ g.nodes) : n.id = ix.env.vnameId n.vname ∧ ix.vnameOf n.id = n.vname := by
  obtain ⟨out, hout, rfl⟩ := Option.map_eq_some_iff.mp h
  exact ix.addressed f.path f.content out hout n hn

theorem confidence_of_fileGraph {f : SourceFile} (h : ix.fileGraph tree f = some g) {e : Edge}
    (he : e ∈ g.edges) : confidenceOk e.confidence := by
  obtain ⟨out, hout, rfl⟩ := Option.map_eq_some_iff.mp h
  rcases List.mem_append.mp he with he | he
  · exact ix.confidence f.path f.content out hout e he
  · obtain ⟨n, _, target, rfl⟩ := mem_linkImports he
    rfl

theorem id_iff_vname {f f' : SourceFile} {g' : FileGraph} (h : ix.fileGraph tree f = some g)
    (h' : ix.fileGraph tree f' = some g') {n m : Node} (hn : n ∈ g.nodes) (hm : m ∈ g'.nodes) :
    n.id = m.id ↔ n.vname = m.vname := by
  obtain ⟨hni, hnv⟩ := addressed_of_fileGraph h hn
  obtain ⟨hmi, hmv⟩ := addressed_of_fileGraph h' hm
  constructor
  · intro he
    rw [← hnv, ← hmv, he]
  · intro he
    rw [hni, hmi, he]

namespace Parsed

variable (h : ix.Parsed s)

include h

theorem mem_idsAt {path : String} {x : NodeId} :
    x ∈ s.idsAt ix.corpus path ↔ x ∈ (view s).held ix.owner path := by
  rw [SqliteStore.mem_idsAt, PartedGraph.Graph.mem_held, mem_view_nodes, owner_eq_some]
  constructor
  · intro ⟨r, hr, hid, hcp⟩
    subst hid
    rw [h.vname_eq r hr]
    exact ⟨⟨r, hr, rfl⟩, hcp⟩
  · intro ⟨⟨r, hr, hid⟩, hcp⟩
    subst hid
    rw [h.vname_eq r hr] at hcp
    exact ⟨r, hr, rfl, hcp⟩

theorem kept_eq_nil (c : Reparse) : s.kept ix.env c = [] := by
  have hnil : s.keptCandidates c = [] := by
    rw [List.eq_nil_iff_forall_not_mem]
    intro p hp
    obtain ⟨he, _, _, hc, _⟩ := mem_keptCandidates.mp hp
    rw [h.uncommitted p.1 he] at hc
    cases hc
  unfold kept
  rw [hnil]
  split_ifs <;> rfl

/-! ### A deleted file -/

theorem deleteFile (path : String) : ix.Parsed (s.deleteFile ix.corpus path).1 where
  id_eq r hr := h.id_eq r (IndexedTable.mem_deleteWhere.mp hr).1
  vname_eq r hr := h.vname_eq r (IndexedTable.mem_deleteWhere.mp hr).1
  uncommitted e he := h.uncommitted e (Table.mem_deleteWhere.mp he).1

theorem view_deleteFile (path : String) :
    view (s.deleteFile ix.corpus path).1 = (Change.drop path).apply ix.owner (view s) := by
  have hids : ∀ x, x ∈ s.idsWhere (fun r => r.vname.corpus = ix.corpus ∧ r.vname.path = path) ↔
      x ∈ (view s).held ix.owner path := fun x => h.mem_idsAt
  refine PartedGraph.Graph.ext ?_ ?_
  · intro x
    rw [mem_view_nodes, Change.apply, Finset.mem_filter, mem_view_nodes]
    change (s.nodes.deleteWhere _).Has x ↔ _
    rw [has_deleteWhere, hids, PartedGraph.Graph.mem_held, mem_view_nodes]
    tauto
  · intro l
    rw [mem_view_links, Change.apply, Finset.mem_filter, mem_view_links]
    change (s.edges.deleteWhere _).Has l ↔ _
    simp only [← hids]
    constructor
    · intro hleft
      obtain ⟨e, he, hk⟩ := hleft
      obtain ⟨he, hn⟩ := Table.mem_deleteWhere.mp he
      subst hk
      exact ⟨⟨e, he, rfl⟩, not_or.mp hn⟩
    · intro hboth
      obtain ⟨⟨e, he, hk⟩, hn⟩ := hboth
      subst hk
      exact ⟨e, Table.mem_deleteWhere.mpr ⟨he, not_or.mpr hn⟩, rfl⟩

/-! ### A file given anew -/

theorem reindexReplace_isOk {f : SourceFile} (hg : ix.fileGraph tree f = some g) :
    ∃ p, s.reindexReplace ix.env (ix.reparse g) = .ok p := by
  apply SqliteStore.reindexReplace_isOk.mpr
  refine ⟨?_, fun e he _ => confidence_of_fileGraph hg he⟩
  have hrow : ∀ r, r ∈ s.nodes.deleteWhere (fun r => r.vname.corpus = (ix.reparse g).corpus ∧
      r.vname.path = (ix.reparse g).path) → ∀ n ∈ g.nodes, r.id = n.id ↔ r.vname = n.vname := by
    intro r hr n hn
    have hr := (IndexedTable.mem_deleteWhere.mp hr).1
    obtain ⟨hid, hv⟩ := addressed_of_fileGraph hg hn
    constructor
    · intro he
      rw [← h.vname_eq r hr, he, hv]
    · intro he
      rw [h.id_eq r hr, he, hid]
  have hsame : ∀ n ∈ g.nodes, ∀ m ∈ g.nodes, n.id = m.id ↔ n.vname = m.vname :=
    fun n hn m hm => id_iff_vname hg hg hn hm
  exact (insertNodes_isOk (fun r hr n hn => (hrow r hr n hn).mp)
    fun n hn m hm => (hsame n hn m hm).mp).mpr
      ⟨fun r hr n hn => (hrow r hr n hn).mpr, fun n hn m hm => (hsame n hn m hm).mpr⟩

theorem reindexed {f : SourceFile} (hg : ix.fileGraph tree f = some g)
    (hs : Reindexed ix.env s (ix.reparse g) s') : ix.Parsed s' := by
  have hrow : ∀ r, r ∈ s'.nodes → r.id = ix.env.vnameId r.vname ∧ ix.vnameOf r.id = r.vname := by
    intro r hr
    rcases mem_insertNodes hs.nodes hr with ⟨o, ho, hid, hv⟩ | ⟨n, hn, hid, hv⟩
    · have ho := (IndexedTable.mem_deleteWhere.mp ho).1
      rw [← hid, ← hv]
      exact ⟨h.id_eq o ho, h.vname_eq o ho⟩
    · rw [← hid, ← hv]
      exact addressed_of_fileGraph hg hn
  refine ⟨fun r hr => (hrow r hr).1, fun r hr => (hrow r hr).2, ?_⟩
  intro e he
  have hparse : isCommitted "tree-sitter" = false := by decide
  rcases (hs.mem_edges he).2 with ⟨ho, _⟩ | ⟨p, _, _, rfl⟩
  · exact h.uncommitted e ho
  · exact hparse

theorem mem_removedIds {f : SourceFile} (hg : ix.fileGraph tree f = some g) {x : NodeId} :
    x ∈ s.removedIds (ix.reparse g) ↔
      x ∈ (view s).held ix.owner g.vnamePath ∧ x ∉ (part g).nodes := by
  have hold : x ∈ s.oldIds (ix.reparse g) ↔ x ∈ (view s).held ix.owner g.vnamePath := h.mem_idsAt
  rw [removedIds, Finset.mem_sdiff, hold]
  apply and_congr_right
  intro hx
  have howner := (ix.owner_eq_some.mp (PartedGraph.Graph.mem_held.mp hx).2).2
  rw [not_iff_not, Reparse.mem_newIds, mem_part_nodes]
  constructor
  · intro ⟨n, hn, _, hid⟩
    exact ⟨n, hn, hid⟩
  · intro ⟨n, hn, hid⟩
    refine ⟨n, hn, ?_, hid⟩
    rw [← (addressed_of_fileGraph hg hn).2, hid]
    exact howner

theorem view_reindexed {f : SourceFile} (hg : ix.fileGraph tree f = some g)
    (hs : Reindexed ix.env s (ix.reparse g) s') :
    view s' = (Change.renew g.vnamePath (part g) (s.preserved ix.env (ix.reparse g))).apply
      ix.owner (view s) := by
  have hold : ∀ x, x ∈ s.oldIds (ix.reparse g) ↔ x ∈ (view s).held ix.owner g.vnamePath :=
    fun x => h.mem_idsAt
  refine PartedGraph.Graph.ext ?_ ?_
  · intro x
    rw [mem_view_nodes, hs.stored_iff, hold, Change.mem_apply_nodes, mem_view_nodes]
    change _ ↔ (s.Stored x ∧ ¬ ix.owner x = some g.vnamePath) ∨ x ∈ (part g).nodes
    rw [mem_part_nodes, PartedGraph.Graph.mem_held, mem_view_nodes]
    change (_ ∨ ∃ n ∈ g.nodes, n.id = x) ↔ _
    tauto
  · intro l
    have hparse : (∃ e ∈ (ix.reparse g).edges.map EdgeRow.ofParse, e.key = l) ↔
        l ∈ (part g).links := by
      rw [mem_part_links]
      simp only [List.mem_map, exists_exists_and_eq_and]
      rfl
    have hdropped : ∀ e : EdgeRow, s.Dropped ix.env (ix.reparse g) e ↔
        e.src ∈ (view s).held ix.owner g.vnamePath ∧
          e.src ∉ s.preserved ix.env (ix.reparse g) := by
      intro e
      rw [Dropped, hold, h.kept_eq_nil]
      simp
    rw [mem_view_links, Change.apply]
    simp only [Finset.mem_filter, Finset.mem_union, mem_view_links, ← hparse]
    constructor
    · intro hleft
      obtain ⟨e, he, hk⟩ := hleft
      subst hk
      obtain ⟨hdst, hsrc⟩ := hs.mem_edges he
      rw [h.mem_removedIds hg, not_and, not_not] at hdst
      refine ⟨?_, hdst⟩
      rcases hsrc with ⟨ho, hd⟩ | ⟨p, hp, hn, rfl⟩
      · rw [hdropped, not_and, not_not] at hd
        exact .inl ⟨⟨e, ho, rfl⟩, hd⟩
      · exact .inr ⟨⟨_, List.mem_map_of_mem hp, rfl⟩, hn⟩
    · intro hends
      obtain ⟨hsrc, hdst⟩ := hends
      have hr : l.2.1 ∉ s.removedIds (ix.reparse g) := by
        rw [h.mem_removedIds hg, not_and, not_not]
        exact hdst
      change Table.Has s'.edges l
      rw [Table.has_iff_find?, hs.find?_edges, if_neg hr, Option.isSome_or, Bool.or_eq_true]
      rcases hsrc with ⟨⟨e, he, hk⟩, hkeep⟩ | ⟨hp, hn⟩
      · left
        subst hk
        have hd : ¬ s.Dropped ix.env (ix.reparse g) e := by
          rw [hdropped, not_and, not_not]
          exact hkeep
        rw [Table.find?_of_mem he, Option.filter_some, if_pos (by simpa using hd)]
        rfl
      · right
        rw [if_neg hn, List.find?_isSome]
        obtain ⟨e, he, hk⟩ := hp
        exact ⟨e, he, by simpa using hk⟩

/-! ### The sweep -/

theorem sweepOrphanEdgesForPaths (paths : List String) :
    ix.Parsed (s.sweepOrphanEdgesForPaths ix.corpus paths).1 := by
  have hn := @sweep_nodes s ix.corpus paths
  refine ⟨fun r hr => h.id_eq r (hn ▸ hr), fun r hr => h.vname_eq r (hn ▸ hr), ?_⟩
  exact fun e he => h.uncommitted e (mem_sweep_edges.mp he).1

theorem view_sweep (paths : List String) :
    view (s.sweepOrphanEdgesForPaths ix.corpus paths).1 = sweep ix.owner paths (view s) := by
  refine PartedGraph.Graph.ext ?_ ?_
  · intro x
    rw [mem_view_nodes, Stored, sweep_nodes]
    exact mem_view_nodes.symm
  · intro l
    rw [mem_view_links, sweep, Finset.mem_filter, mem_view_links]
    simp only [← h.mem_idsAt, mem_view_nodes]
    constructor
    · intro hleft
      obtain ⟨e, he, hk⟩ := hleft
      subst hk
      obtain ⟨he, hall⟩ := mem_sweep_edges.mp he
      exact ⟨⟨e, he, rfl⟩, hall⟩
    · intro hboth
      obtain ⟨⟨e, he, hk⟩, hall⟩ := hboth
      subst hk
      exact ⟨e, mem_sweep_edges.mpr ⟨he, hall⟩, rfl⟩

end Parsed

/-! ### A fresh index -/

theorem stageOf_append (env : Env) (a b : List FileGraph) : stageOf env (a ++ b) =
    { nodes := (stageOf env a).nodes ++ (stageOf env b).nodes
      edges := (stageOf env a).edges ++ (stageOf env b).edges } := by
  simp only [stageOf, List.flatMap_append, List.map_append]

theorem foldlM_batches {batches : List (List FileGraph)} {stage : Stage}
    (ha : s.stagingActive = true) (hs : s.stage = some stage) :
    ∃ t, batches.foldlM (fun s batch => (s.writeFileGraphsBatch ix.env batch true).map Prod.fst) s =
        .ok t ∧ t.nodes = s.nodes ∧ t.edges = s.edges ∧ t.stagingActive = true ∧
      t.stage = some
        { nodes := stage.nodes ++ (stageOf ix.env batches.flatten).nodes
          edges := stage.edges ++ (stageOf ix.env batches.flatten).edges } := by
  induction batches generalizing s stage with
  | nil => exact ⟨s, rfl, rfl, rfl, ha, by simpa [stageOf] using hs⟩
  | cons batch batches ih =>
    obtain ⟨t, ht, hn, he, hta, hts⟩ :=
      @foldlM_stageFile ix.env (s.prepareBulk true) batch stage hs rfl
    have hwrite : (s.writeFileGraphsBatch ix.env batch true).map Prod.fst = .ok t := by
      rw [writeFileGraphsBatch, if_pos ha]
      simp only [bind, Except.bind, pure, Except.pure, ht]
      rfl
    obtain ⟨u, hu, hun, hue, hua, hus⟩ := ih (hta.trans ha) hts
    refine ⟨u, ?_, hun.trans hn, hue.trans he, hua, ?_⟩
    · rw [List.foldlM_cons, hwrite]
      exact hu
    · rw [hus, List.flatten_cons, stageOf_append]
      simp only [List.append_assoc]

/-- An edge that the flush inserts has the provenance of a staged one, and a confidence that one
of them has, if any. -/
theorem mem_flushedEdges {stage : Stage} {u : NodeTable} {e : EdgeRow}
    (h : e ∈ flushedEdges stage u) : (∃ r ∈ stage.edges, e.provenance = r.provenance) ∧
      (e.confidence = none ∨ ∃ r ∈ stage.edges, e.confidence = r.confidence) := by
  obtain ⟨k, _, hk⟩ := List.mem_filterMap.mp h
  obtain ⟨r, hr, he⟩ := Option.map_eq_some_iff.mp hk
  subst he
  have hsub : ∀ r, r ∈ (stage.edges.filter fun e => u.Has e.src ∧ u.Has e.dst).filter
      (fun e => e.key = k) → r ∈ stage.edges :=
    fun r hr => (List.mem_filter.mp (List.mem_filter.mp hr).1).1
  refine ⟨⟨r, hsub r (List.mem_of_head? hr), rfl⟩, ?_⟩
  refine (maxColumn_spec _).1.imp_right fun hm => ?_
  obtain ⟨r, hr, hc⟩ := List.mem_map.mp hm
  exact ⟨r, hsub r hr, hc.symm⟩

section Fresh

variable {bare : BareRow} {batches : List (List FileGraph)}
  (hperm : batches.flatten.Perm (ix.graphs tree))

include hperm

theorem mem_flatten : g ∈ batches.flatten ↔ ∃ f, f ∈ tree ∧ ix.fileGraph tree f = some g :=
  hperm.mem_iff.trans mem_graphs

theorem exists_node_of_staged {r : NodeRow} (hr : r ∈ (stageOf ix.env batches.flatten).nodes) :
    ∃ f g n, ix.fileGraph tree f = some g ∧ n ∈ g.nodes ∧ r.id = n.id ∧ r.vname = n.vname := by
  obtain ⟨g, hg, hr⟩ := List.mem_flatMap.mp hr
  obtain ⟨n, hn, rfl⟩ := List.mem_map.mp hr
  obtain ⟨f, _, hf⟩ := (mem_flatten hperm).mp hg
  exact ⟨f, g, n, hf, hn, rfl, rfl⟩

theorem exists_edge_of_staged {r : EdgeRow} (hr : r ∈ (stageOf ix.env batches.flatten).edges) :
    ∃ f g e, ix.fileGraph tree f = some g ∧ e ∈ g.edges ∧ EdgeRow.ofParse e = r := by
  obtain ⟨e, he, hr⟩ := List.mem_map.mp hr
  obtain ⟨g, hg, he⟩ := List.mem_flatMap.mp he
  obtain ⟨f, _, hf⟩ := (mem_flatten hperm).mp hg
  exact ⟨f, g, e, hf, he, hr⟩

theorem staged_id_iff_vname : ∀ a ∈ (stageOf ix.env batches.flatten).nodes,
    ∀ b ∈ (stageOf ix.env batches.flatten).nodes, a.id = b.id ↔ a.vname = b.vname := by
  intro a ha b hb
  obtain ⟨f, g, n, hg, hn, hna, hnv⟩ := exists_node_of_staged hperm ha
  obtain ⟨f', g', m, hg', hm, hma, hmv⟩ := exists_node_of_staged hperm hb
  rw [hna, hnv, hma, hmv]
  exact id_iff_vname hg hg' hn hm

theorem flushed_confidence {u : NodeTable} :
    ∀ e ∈ flushedEdges (stageOf ix.env batches.flatten) u, confidenceOk e.confidence := by
  intro e he
  rcases (mem_flushedEdges he).2 with hc | ⟨r, hr, hc⟩
  · rw [hc]
    rfl
  · obtain ⟨f, g, p, hg, hp, rfl⟩ := exists_edge_of_staged hperm hr
    rw [hc]
    exact confidence_of_fileGraph hg hp

theorem flushed_uncommitted {u : NodeTable} :
    ∀ e ∈ flushedEdges (stageOf ix.env batches.flatten) u, isCommitted e.provenance = false := by
  intro e he
  have hparse : isCommitted "tree-sitter" = false := by decide
  obtain ⟨r, hr, hprov⟩ := (mem_flushedEdges he).1
  obtain ⟨f, g, p, _, _, rfl⟩ := exists_edge_of_staged hperm hr
  rw [hprov]
  exact hparse

variable {u : NodeTable} (hp : Promoted ix.env bare batches.flatten u)

include hp

theorem promoted_vname {r : NodeRow} (hr : r ∈ u) :
    r.id = ix.env.vnameId r.vname ∧ ix.vnameOf r.id = r.vname := by
  have hf := Table.find?_of_mem (t := u.toTable) hr
  rw [hp] at hf
  obtain ⟨o, ho, heq⟩ := Option.map_eq_some_iff.mp hf
  obtain ⟨n, hn, hid, _, hv⟩ := mem_boundRows (bare.mem _ _ ho)
  obtain ⟨g, hg, hn⟩ := List.mem_flatMap.mp hn
  obtain ⟨f, _, hf⟩ := (mem_flatten hperm).mp hg
  have hrv : r.vname = n.vname := by
    rw [← hv, ← heq]
    rfl
  rw [← hid, hrv]
  exact addressed_of_fileGraph hf hn

theorem promoted_has (x : NodeId) : u.Has x ↔ x ∈ (ix.indexOf tree).nodes := by
  rw [hp.has_iff, indexOf, mem_assemble_nodes]
  simp only [List.mem_flatMap, List.mem_map, exists_exists_and_eq_and, mem_part_nodes,
    hperm.mem_iff]
  constructor
  · intro ⟨n, ⟨g, hg, hn⟩, hid⟩
    exact ⟨g, hg, n, hn, hid⟩
  · intro ⟨g, hg, n, hn, hid⟩
    exact ⟨n, ⟨g, hg, hn⟩, hid⟩

theorem flushed_isSome (l : NodeId × NodeId × EdgeKind) :
    ((flushedEdges (stageOf ix.env batches.flatten) u).find? (fun e => e.key = l)).isSome ↔
      l ∈ (ix.indexOf tree).links := by
  have hin : (∃ r ∈ (stageOf ix.env batches.flatten).edges, r.key = l) ↔
      ∃ p ∈ (ix.graphs tree).map part, l ∈ p.links := by
    simp only [stageOf, List.mem_map, List.mem_flatMap, exists_exists_and_eq_and, mem_part_links,
      hperm.mem_iff]
    constructor
    · intro hstaged
      obtain ⟨e, ⟨g, hg, he⟩, hk⟩ := hstaged
      exact ⟨g, hg, e, he, hk⟩
    · intro hparted
      obtain ⟨g, hg, e, he, hk⟩ := hparted
      exact ⟨e, ⟨g, hg, he⟩, hk⟩
  have hsome : ((stageOf ix.env batches.flatten).edges.find? fun e => e.key = l).isSome ↔
      ∃ r ∈ (stageOf ix.env batches.flatten).edges, r.key = l := by
    simp [List.find?_isSome]
  rw [find?_flushedEdges]
  simp only [promoted_has hperm hp]
  rw [indexOf, mem_assemble_links, ← indexOf, ← hin, ← hsome]
  split_ifs with hends
  · simp [hends]
  · simp [hends]

end Fresh

theorem initIndex_spec (bare : BareRow) {batches : List (List FileGraph)}
    (hperm : batches.flatten.Perm (ix.graphs tree)) :
    ∃ u, ix.initIndex bare batches = .ok u ∧ ix.Parsed u ∧ view u = ix.indexOf tree := by
  obtain ⟨t, ht, hn, he, ha, hs⟩ :=
    @foldlM_batches ix SqliteStore.empty.beginStagingTables batches ⟨[], []⟩ rfl rfl
  have hstage : t.stage = some (stageOf ix.env batches.flatten) := hs
  obtain ⟨u, hu, hok, htab⟩ :=
    @flush_empty bare _ _ (by rw [hn]; rfl) hstage ha (staged_id_iff_vname hperm)
  have hp : Promoted ix.env bare batches.flatten u := by
    intro x
    rw [hu, filter_stageOf]
  have hflush := hok.mpr (flushed_confidence hperm)
  obtain ⟨hun, hue⟩ := htab hflush
  rw [he] at hue
  refine ⟨(t.flushStagingToProduction bare).1, ?_, ?_, PartedGraph.Graph.ext (fun x => ?_) fun l => ?_⟩
  · rw [initIndex, ht]
    obtain ⟨c, hc⟩ := exists_ok hflush
    simp only [bind, Except.bind, hc]
    rfl
  · refine ⟨fun r hr => ?_, fun r hr => ?_, fun e hme => ?_⟩
    · exact (promoted_vname hperm hp (hun ▸ hr)).1
    · exact (promoted_vname hperm hp (hun ▸ hr)).2
    · rw [hue] at hme
      rcases Table.mem_insertAll.mp hme with ho | ⟨_, hf⟩
      · exact absurd ho (Table.not_mem_empty e)
      · exact flushed_uncommitted hperm e (List.mem_of_find?_eq_some hf)
  · rw [mem_view_nodes, Stored, hun]
    exact promoted_has hperm hp x
  · have hnone : SqliteStore.empty.beginStagingTables.edges.find? l = none := rfl
    rw [mem_view_links, hue, Table.has_iff_find?, Table.find?_insertAll, hnone, Option.none_or]
    exact flushed_isSome hperm hp l

theorem FreshIndex.parsed (h : ix.FreshIndex tree s) :
    ix.Parsed s ∧ view s = ix.indexOf tree := by
  obtain ⟨bare, batches, hperm, hs⟩ := h
  obtain ⟨u, hu, hspec⟩ := initIndex_spec bare hperm
  obtain rfl := Except.ok.inj (hu.symm.trans hs)
  exact hspec

theorem exists_freshIndex (ix : SourceIndexer) (tree : SourceTree) : ∃ u, ix.FreshIndex tree u := by
  have hperm : [ix.graphs tree].flatten.Perm (ix.graphs tree) := by simp
  obtain ⟨u, hu, _⟩ := initIndex_spec BareRow.first hperm
  exact ⟨u, BareRow.first, _, hperm, hu⟩

/-- A store agrees with the fresh indexes of a tree exactly when it is the graph of the tree. -/
theorem agreesWithFresh_iff (h : ix.Parsed s) :
    ix.AgreesWithFresh (s, tree) ↔ view s = ix.indexOf tree := by
  have hrow : ∀ {u : SqliteStore}, ix.Parsed u → ∀ id vname,
      (∃ r, r ∈ u.nodes ∧ r.id = id ∧ r.vname = vname) ↔
        id ∈ (view u).nodes ∧ ix.vnameOf id = vname := by
    intro u hu id vname
    rw [mem_view_nodes]
    constructor
    · intro ⟨r, hr, hid, hv⟩
      subst hid hv
      exact ⟨⟨r, hr, rfl⟩, hu.vname_eq r hr⟩
    · intro ⟨⟨r, hr, hid⟩, hv⟩
      subst hid hv
      exact ⟨r, hr, rfl, (hu.vname_eq r hr).symm⟩
  constructor
  · intro hall
    obtain ⟨u, hu⟩ := exists_freshIndex ix tree
    obtain ⟨hup, huv⟩ := hu.parsed
    have hsame := hall u hu
    rw [← huv]
    refine PartedGraph.Graph.ext (fun x => ?_) fun l => ?_
    · have hx := hsame.nodes x (ix.vnameOf x)
      rwa [hrow h, hrow hup, and_iff_left rfl, and_iff_left rfl] at hx
    · rw [mem_view_links, mem_view_links]
      exact hsame.edges l
  · intro hv u hu
    obtain ⟨hup, huv⟩ := hu.parsed
    have hvu : view s = view u := hv.trans huv.symm
    refine ⟨fun id vname => ?_, fun l => ?_⟩
    · rw [hrow h, hrow hup, hvu]
    · rw [← mem_view_links, ← mem_view_links, hvu]

end SourceIndexer

end Travsr.Daemon
