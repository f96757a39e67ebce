import Travsr.Daemon.TreeReindex
import Travsr.Lib.Runs

namespace Travsr.Daemon

open Travsr.Core Travsr.Store Store.SqliteStore Travsr.Indexer Relational PartedGraph

namespace SourceIndexer

variable (ix : SourceIndexer) (tree : SourceTree)

/-- What a path of the batch does to the graph, in the store it is reached in. -/
def changeAt (s : SqliteStore) (path : String) : Option (Change NodeId EdgeKind String) :=
  match tree.find? path with
  | none => some (.drop path)
  | some f =>
    if (s.files.find? path).map FileRow.sha256 = some (ix.env.sha256 f.content) then none
    else (ix.fileGraph tree f).map fun g =>
      .renew path (part g) (s.preserved ix.env (ix.reparse g))

def changes : Reindexing → List String → List (Change NodeId EdgeKind String)
  | _, [] => []
  | r, path :: paths =>
    (ix.changeAt tree r.store path).toList ++ changes (ix.reindexPath tree r path) paths

/-- The batch renews the graph of the old tree into that of the new one. -/
def Renews (st : SqliteStore × SourceTree) (next : SourceTree × List String) : Prop :=
  Renewal ix.owner (ix.indexOf st.2) (ix.indexOf next.1)
    (ix.changes next.1 ⟨st.1, ∅, [], [], []⟩ next.2)

instance (st : SqliteStore × SourceTree) (next : SourceTree × List String) :
    Decidable (ix.Renews st next) :=
  inferInstanceAs (Decidable (Renewal _ _ _ _))

variable {ix tree} {s : SqliteStore} {r : Reindexing} {paths : List String} {path : String}

theorem reindexPath_spec (h : ix.Parsed r.store) (path : String) :
    ix.Parsed (ix.reindexPath tree r path).store ∧
      view (ix.reindexPath tree r path).store =
        run ix.owner (view r.store) (ix.changeAt tree r.store path).toList ∧
      (ix.reindexPath tree r path).writtenPaths =
        r.writtenPaths ++ written (ix.changeAt tree r.store path).toList := by
  unfold reindexPath changeAt
  cases hf : tree.find? path with
  | none => exact ⟨h.deleteFile path, h.view_deleteFile path, (List.append_nil _).symm⟩
  | some f =>
    dsimp only
    split_ifs with hsame
    · exact ⟨h, rfl, (List.append_nil _).symm⟩
    · cases hg : ix.fileGraph tree f with
      | none => exact ⟨h, rfl, (List.append_nil _).symm⟩
      | some g =>
        obtain ⟨⟨s', report⟩, hok⟩ := h.reindexReplace_isOk hg
        have hs := reindexReplace_ok hok
        have hpath : g.vnamePath = path := by
          obtain ⟨out, _, rfl⟩ := Option.map_eq_some_iff.mp hg
          exact (Table.mem_of_find? hf).2
        have hview := h.view_reindexed hg hs
        rw [hpath] at hview
        simp only [hok]
        exact ⟨h.reindexed hg hs, hview, rfl⟩

theorem foldl_reindexPath (h : ix.Parsed r.store) (paths : List String) :
    ix.Parsed (paths.foldl (ix.reindexPath tree) r).store ∧
      view (paths.foldl (ix.reindexPath tree) r).store =
        run ix.owner (view r.store) (ix.changes tree r paths) ∧
      (paths.foldl (ix.reindexPath tree) r).writtenPaths =
        r.writtenPaths ++ written (ix.changes tree r paths) := by
  induction paths generalizing r with
  | nil => exact ⟨h, rfl, (List.append_nil _).symm⟩
  | cons path paths ih =>
    obtain ⟨hp, hv, hw⟩ := @reindexPath_spec ix tree r h path
    obtain ⟨ihp, ihv, ihw⟩ := ih hp
    refine ⟨ihp, ?_, ?_⟩
    · rw [List.foldl_cons, ihv, hv, changes, run, run, run, List.foldl_append]
    · rw [List.foldl_cons, ihw, hw, changes, written, written, written, List.filterMap_append,
        List.append_assoc]

theorem reindexPaths_spec (h : ix.Parsed s) (paths : List String) :
    ix.Parsed (ix.reindexPaths tree s paths).store ∧
      view (ix.reindexPaths tree s paths).store =
        run ix.owner (view s) (ix.changes tree ⟨s, ∅, [], [], []⟩ paths) ∧
      (ix.reindexPaths tree s paths).writtenPaths =
        written (ix.changes tree ⟨s, ∅, [], [], []⟩ paths) :=
  @foldl_reindexPath ix tree ⟨s, ∅, [], [], []⟩ h paths

theorem changes_paths : ((ix.changes tree r paths).map Change.path).Sublist paths := by
  induction paths generalizing r with
  | nil => exact List.Sublist.refl _
  | cons path paths ih =>
    rw [changes, List.map_append]
    refine @List.Sublist.append _ _ [path] _ _ ?_ ih
    unfold changeAt
    cases tree.find? path with
    | none => exact List.Sublist.refl _
    | some f =>
      dsimp only
      split_ifs
      · exact List.nil_sublist _
      · cases ix.fileGraph tree f with
        | none => exact List.nil_sublist _
        | some g => exact List.Sublist.refl _

/-- A file is given anew by its graph in the tree, and what is preserved of it is emitted again. -/
theorem fromParts_changes : Renewal.FromParts ((ix.graphs tree).map part)
    (ix.changes tree r paths) := by
  induction paths generalizing r with
  | nil => exact fun _ _ _ hm => absurd hm List.not_mem_nil
  | cons path paths ih =>
    intro p pt kept hm
    rw [changes, List.mem_append] at hm
    rcases hm with hm | hm
    · rw [Option.mem_toList] at hm
      unfold changeAt at hm
      cases hf : tree.find? path with
      | none =>
        rw [hf] at hm
        cases hm
      | some f =>
        rw [hf] at hm
        dsimp only at hm
        split_ifs at hm
        obtain ⟨g, hg, heq⟩ := Option.map_eq_some_iff.mp hm
        cases heq
        refine ⟨List.mem_map_of_mem (mem_graphs.mpr ⟨f, (Table.mem_of_find? hf).1, hg⟩), ?_⟩
        intro x hx
        have hnew := preserved_subset_oldIds hx
        rw [(pureBodyEdit_of_mem_preserved hx).2] at hnew
        obtain ⟨n, hn, _, hid⟩ := Reparse.mem_newIds.mp hnew
        exact mem_part_nodes.mpr ⟨n, hn, hid⟩
    · exact ih p pt kept hm

/-- The store is what was parsed of the files of the tree, no more and no less. -/
structure Current (ix : SourceIndexer) (st : SqliteStore × SourceTree) : Prop where
  parsed : ix.Parsed st.1
  view_eq : view st.1 = ix.indexOf st.2

theorem Current.reindexTree {st : SqliteStore × SourceTree} {next : SourceTree × List String}
    (h : ix.Current st) (hpaths : next.2.Nodup) (hr : ix.Renews st next) :
    ix.Current (ix.reindexTree st next) := by
  obtain ⟨hp, hv, hw⟩ := @reindexPaths_spec ix next.1 st.1 h.parsed next.2
  refine ⟨hp.sweepOrphanEdgesForPaths _, (hp.view_sweep _).trans ?_⟩
  rw [hw, hv, h.view_eq]
  exact hr.sweep_run_eq fromParts_changes (closed_assemble _) (hpaths.sublist changes_paths)

/-- Incremental equals full as long as every batch renews the graph of the tree before it. -/
theorem reindexTrees_agree {steps : List (SourceTree × List String)} (h0 : ix.FreshIndex tree s)
    (hexact : Runs.Every ix.reindexTree (fun st next => ExactPaths st.2 next.1 next.2) (s, tree)
      steps)
    (hrenews : Runs.Every ix.reindexTree ix.Renews (s, tree) steps) :
    Runs.Always ix.reindexTree ix.AgreesWithFresh (s, tree) steps := by
  have hstart : ix.Current (s, tree) := ⟨h0.parsed.1, h0.parsed.2⟩
  have hboth : Runs.Every ix.reindexTree (fun st next => next.2.Nodup ∧ ix.Renews st next)
      (s, tree) steps :=
    fun pre next post h => ⟨(hexact pre next post h).1, hrenews pre next post h⟩
  have hall := Runs.always_of_every (fun st next h hn => Current.reindexTree h hn.1 hn.2) hboth hstart
  exact hall.mono fun st hst => (agreesWithFresh_iff hst.parsed).mpr hst.view_eq

/-- Incremental equals full, whatever the trees: what is asked of the indexer. -/
def IncrementalEqualsFull (ix : SourceIndexer) : Prop :=
  ∀ tree s steps, ix.FreshIndex tree s →
    Runs.Every ix.reindexTree (fun st next => ExactPaths st.2 next.1 next.2) (s, tree) steps →
      Runs.Always ix.reindexTree ix.AgreesWithFresh (s, tree) steps

theorem exactPaths_iff {tree tree' : SourceTree} {paths : List String} :
    ExactPaths tree tree' paths ↔ paths.Nodup ∧
      (∀ path ∈ paths, tree.find? path ≠ tree'.find? path) ∧
      ∀ f ∈ tree.rows ++ tree'.rows, tree.find? f.path ≠ tree'.find? f.path → f.path ∈ paths := by
  constructor
  · intro ⟨hd, hall⟩
    exact ⟨hd, fun path hp => (hall path).mp hp, fun f _ hf => (hall f.path).mpr hf⟩
  · intro ⟨hd, hin, hout⟩
    refine ⟨hd, fun path => ⟨hin path, ?_⟩⟩
    intro hne
    have hsome : ∃ f ∈ tree.rows ++ tree'.rows, f.path = path := by
      by_contra hno
      apply hne
      have hnone : ∀ t : SourceTree, t.rows ⊆ tree.rows ++ tree'.rows → t.find? path = none := by
        intro t ht
        rw [Table.find?_eq_none]
        intro ⟨f, hf, hk⟩
        exact hno ⟨f, ht hf, hk⟩
      rw [hnone tree (List.subset_append_left _ _), hnone tree' (List.subset_append_right _ _)]
    obtain ⟨f, hf, rfl⟩ := hsome
    exact hout f hf hne

instance (tree tree' : SourceTree) (paths : List String) :
    Decidable (ExactPaths tree tree' paths) :=
  decidable_of_iff' _ exactPaths_iff

end SourceIndexer

/-! ### A file that imports another -/

def spellEnv : Env where
  vnameId v := (v.path ++ "#" ++ v.signature).toList.foldl (fun h c => (31 * h + c.toNat) % 65521) 7
  sha256 := id
  isAlphanumeric := Char.isAlphanum

def tsNode (path signature kind : String) : Node :=
  Node.new spellEnv ⟨"repo", "", path, "typescript", signature⟩ kind

def importerNodes : List Node := [tsNode "a.ts" "file" "file", tsNode "a.ts" "import:./user" "import"]

def userNodes : List Node := [tsNode "user.ts" "file" "file"]

def loadNode : Node := tsNode "a.ts" "fn:load" "function"

def knownNodes : List Node := importerNodes ++ userNodes ++ [loadNode]

/-- Reads `a.ts`, which imports `./user` and may define `load`, and `user.ts`. -/
def readSource (path content : String) : Option (List Node × List Edge) :=
  if path = "a.ts" then
    some (importerNodes ++ if content = "load" then [loadNode] else [],
      importerNodes.tail.map fun n => ⟨spellEnv.vnameId ⟨"repo", "", path, "typescript", "file"⟩,
        n.id, .depends, none, none⟩)
  else if path = "user.ts" then some (userNodes, [])
  else none

theorem readSource_known {path content : String} {out : List Node × List Edge}
    (h : readSource path content = some out) :
    out.1 ⊆ knownNodes ∧ ∀ e ∈ out.2, e.confidence = none := by
  have hall : importerNodes ++ [loadNode] ⊆ knownNodes ∧ importerNodes ++ [] ⊆ knownNodes ∧
      userNodes ⊆ knownNodes := by decide +kernel
  unfold readSource at h
  split_ifs at h with hpath hload
  · obtain rfl := Option.some.inj h
    exact ⟨hall.1, fun e he => by obtain ⟨n, _, rfl⟩ := List.mem_map.mp he; rfl⟩
  · obtain rfl := Option.some.inj h
    exact ⟨hall.2.1, fun e he => by obtain ⟨n, _, rfl⟩ := List.mem_map.mp he; rfl⟩
  · obtain rfl := Option.some.inj h
    exact ⟨hall.2.2, fun e he => absurd he List.not_mem_nil⟩

def importIndexer : SourceIndexer where
  env := spellEnv
  corpus := "repo"
  parse := readSource
  aliases _ := []
  vnameOf x := ((knownNodes.find? fun n => n.id = x).map Node.vname).getD ⟨"", "", "", "", ""⟩
  addressed path content out h n hn := by
    have hall : ∀ n ∈ knownNodes, n.id = spellEnv.vnameId n.vname ∧
        ((knownNodes.find? fun m => m.id = n.id).map Node.vname).getD ⟨"", "", "", "", ""⟩ =
          n.vname := by decide +kernel
    exact hall n ((readSource_known h).1 hn)
  confidence path content out h e he := by
    rw [(readSource_known h).2 e he]
    rfl

def importerTree : SourceTree := ⟨[⟨"a.ts", ""⟩], by decide⟩

def bothTree : SourceTree := ⟨[⟨"a.ts", ""⟩, ⟨"user.ts", ""⟩], by decide⟩

def loadingTree : SourceTree := ⟨[⟨"a.ts", "load"⟩, ⟨"user.ts", ""⟩], by decide⟩

def userTree : SourceTree := ⟨[⟨"user.ts", ""⟩], by decide⟩

def importLink : NodeId × NodeId × EdgeKind :=
  ((tsNode "a.ts" "import:./user" "import").id, (tsNode "user.ts" "file" "file").id, .resolvesTo)

open SourceIndexer

/-- The importer is edited, then deleted. -/
theorem reindexTrees_agree_edited : ∃ s, importIndexer.FreshIndex bothTree s ∧
    Runs.Always importIndexer.reindexTree importIndexer.AgreesWithFresh (s, bothTree)
      [(loadingTree, ["a.ts"]), (userTree, ["a.ts"])] := by
  obtain ⟨s, hs, hfirst, hsecond⟩ := exists_ok_and
    (x := importIndexer.initIndex BareRow.first [importIndexer.graphs bothTree])
    (p := fun s => importIndexer.Renews (s, bothTree) (loadingTree, ["a.ts"]) ∧
      importIndexer.Renews (importIndexer.reindexTree (s, bothTree) (loadingTree, ["a.ts"]))
        (userTree, ["a.ts"])) (by decide +kernel)
  have hfresh : importIndexer.FreshIndex bothTree s :=
    ⟨BareRow.first, [importIndexer.graphs bothTree], by simp, hs⟩
  have hexact : ExactPaths bothTree loadingTree ["a.ts"] ∧ ExactPaths loadingTree userTree ["a.ts"] :=
    by decide +kernel
  refine ⟨s, hfresh, reindexTrees_agree hfresh ?_ ?_⟩
  · exact Runs.every_cons.mpr ⟨hexact.1, Runs.every_cons.mpr ⟨hexact.2, Runs.every_nil⟩⟩
  · exact Runs.every_cons.mpr ⟨hfirst, Runs.every_cons.mpr ⟨hsecond, Runs.every_nil⟩⟩

/-- The target of an import comes after its importer: the importer is not linked again. -/
theorem created_target_not_linked : ¬ importIndexer.IncrementalEqualsFull := by
  intro hall
  obtain ⟨s, hs, hmissing⟩ := exists_ok_and
    (x := importIndexer.initIndex BareRow.first [importIndexer.graphs importerTree])
    (p := fun s => ¬ (importIndexer.reindexFiles bothTree s ["user.ts"]).edges.Has importLink)
    (by decide +kernel)
  obtain ⟨u, hu, hlinked⟩ := exists_ok_and
    (x := importIndexer.initIndex BareRow.first [importIndexer.graphs bothTree])
    (p := fun u => u.edges.Has importLink) (by decide +kernel)
  have hexact : ExactPaths importerTree bothTree ["user.ts"] := by decide +kernel
  have hrun := hall importerTree s [(bothTree, ["user.ts"])]
    ⟨BareRow.first, [importIndexer.graphs importerTree], by simp, hs⟩
    (Runs.every_cons.mpr ⟨hexact, Runs.every_nil⟩)
  have hfresh : importIndexer.FreshIndex bothTree u :=
    ⟨BareRow.first, [importIndexer.graphs bothTree], by simp, hu⟩
  have hsame := hrun [(bothTree, ["user.ts"])] [] rfl u hfresh
  exact hmissing ((hsame.edges importLink).mpr hlinked)

end Travsr.Daemon
