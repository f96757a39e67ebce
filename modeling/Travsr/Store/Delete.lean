import Mathlib.Data.Finset.Erase
import Travsr.Store.Reindex

namespace Travsr.Store

open Travsr.Core Relational

/-- SQLite's `LIKE` without an escape: `%` stands for any text, `_` for any character, and ASCII
letters match in either case. -/
def like : List Char → List Char → Bool
  | [], cs => cs.isEmpty
  | p :: ps, cs =>
    if p = '%' then cs.tails.any (like ps)
    else
      match cs with
      | [] => false
      | c :: cs => (p = '_' || p.toLower = c.toLower) && like ps cs

namespace SqliteStore

/-- The delete of a set of node rows: the edges at either end, the index entries, the rows. The
occurrence rows stay. -/
def deleteNodesWhere (s : SqliteStore) (p : NodeRow → Prop) [DecidablePred p] : SqliteStore :=
  let ids := s.idsWhere p
  { s with
    nodes := s.nodes.deleteWhere p
    edges := s.edges.deleteWhere (fun e => e.src ∈ ids ∨ e.dst ∈ ids)
    lex := s.lex.retract ids }

/-- `delete_nodes_for_path`, with the number of nodes removed. -/
def deleteNodesForPath (s : SqliteStore) (path : String) : SqliteStore × Nat :=
  (s.deleteNodesWhere fun r => r.vname.path = path,
    (s.nodes.rows.filter fun r => r.vname.path = path).length)

/-- `path LIKE prefix || '%'`. -/
def UnderPrefix (pre : String) (r : NodeRow) : Prop :=
  like (pre.toList ++ ['%']) r.vname.path.toList = true

instance (pre : String) : DecidablePred (UnderPrefix pre) :=
  fun _ => inferInstanceAs (Decidable (_ = true))

/-- `delete_nodes_for_path_prefix`. -/
def deleteNodesForPathPrefix (s : SqliteStore) (pre : String) : SqliteStore × Nat :=
  (s.deleteNodesWhere (UnderPrefix pre), (s.nodes.rows.filter fun r => UnderPrefix pre r).length)

/-- `delete_file`, with the paths that held callers of the file. -/
def deleteFile (s : SqliteStore) (corpus path : String) : SqliteStore × Finset String :=
  let ids := s.idsAt corpus path
  let deleted := s.deleteNodesWhere fun r => r.vname.corpus = corpus ∧ r.vname.path = path
  ({ deleted with
      sites := s.sites.deleteWhere (fun r => r.src ∈ ids ∨ r.dst ∈ ids)
      files := s.files.deleteWhere (fun f => f.path = path) },
    ((s.edges.rows.filter (fun e => e.dst ∈ ids)).filterMap fun e =>
      (s.nodes.find? e.src).map fun r => r.vname.path).toFinset.erase path)

/-- `purge_graph`, with the number of nodes purged; the file hashes stay. -/
def purgeGraph (s : SqliteStore) : SqliteStore × Nat :=
  ({ s with
      nodes := IndexedTable.empty
      edges := Table.empty
      sites := Table.empty
      lex := { s.lex with
        fts := 0, ftsMap := Table.empty, words := 0, wordsMap := Table.empty, vocab := Table.empty } },
    s.nodes.rows.length)

/-- `put_node`: a single node; in a staged run its postings are deferred. -/
def putNode (s : SqliteStore) (n : Node) : Except StoreError SqliteStore :=
  let row := NodeRow.ofNode n none
  match s.nodes.upsert row (putUpdate row) with
  | none => .error (.database "inserting node")
  | some nodes =>
    if s.stagingActive then
      match s.lex.putMapOnly n with
      | none => .error (.database "put_node_fts_map_only")
      | some lex => .ok { s with nodes := nodes, lex := lex }
    else .ok { s with nodes := nodes, lex := s.lex.put n }

end SqliteStore

end Travsr.Store

namespace Travsr.Store

open Travsr.Core Relational

namespace SqliteStore

def sweepPath (corpus : String) (s : SqliteStore) (path : String) : SqliteStore :=
  { s with edges := s.edges.deleteWhere fun e => e.src ∈ s.idsAt corpus path ∧ ¬ s.Stored e.dst }

/-- `sweep_orphan_edges_for_paths`, with the number of edges swept. -/
def sweepOrphanEdgesForPaths (s : SqliteStore) (corpus : String) (paths : List String) :
    SqliteStore × Nat :=
  let swept := paths.foldl (sweepPath corpus) s
  (swept, s.edges.rows.length - swept.edges.rows.length)

theorem foldl_sweepPath {corpus : String} {paths : List String} {s : SqliteStore} :
    (paths.foldl (sweepPath corpus) s).nodes = s.nodes ∧
      ∀ e, e ∈ (paths.foldl (sweepPath corpus) s).edges ↔
        e ∈ s.edges ∧ ∀ path ∈ paths, e.src ∈ s.idsAt corpus path → s.Stored e.dst := by
  induction paths generalizing s with
  | nil => simp
  | cons path paths ih =>
    obtain ⟨hn, he⟩ := ih (s := sweepPath corpus s path)
    refine ⟨hn, ?_⟩
    intro e
    rw [List.foldl_cons, he, sweepPath, Table.mem_deleteWhere, not_and, not_not, and_assoc,
      List.forall_mem_cons]
    rfl

theorem sweep_nodes {s : SqliteStore} {corpus : String} {paths : List String} :
    (s.sweepOrphanEdgesForPaths corpus paths).1.nodes = s.nodes := foldl_sweepPath.1

theorem mem_sweep_edges {s : SqliteStore} {corpus : String} {paths : List String} {e : EdgeRow} :
    e ∈ (s.sweepOrphanEdgesForPaths corpus paths).1.edges ↔
      e ∈ s.edges ∧ ∀ path ∈ paths, e.src ∈ s.idsAt corpus path → s.Stored e.dst :=
  foldl_sweepPath.2 e

def reindexed (env : Env) (s : SqliteStore) (c : Reparse) : SqliteStore :=
  match s.reindexReplace env c with
  | .ok (s', _) => s'
  | .error _ => s

/-- An incremental batch: the files one by one, then the sweep over their paths. -/
def reindexFiles (env : Env) (corpus : String) (s : SqliteStore) (calls : List Reparse) :
    SqliteStore :=
  ((calls.foldl (reindexed env) s).sweepOrphanEdgesForPaths corpus (calls.map Reparse.path)).1

/-- The node is stored under one of the paths. -/
def Held (s : SqliteStore) (corpus : String) (paths : List String) (x : NodeId) : Prop :=
  ∃ path ∈ paths, x ∈ s.idsAt corpus path

instance (s : SqliteStore) (corpus : String) (paths : List String) (x : NodeId) :
    Decidable (s.Held corpus paths x) := inferInstanceAs (Decidable (∃ path ∈ paths, _))

/-- What the sweep needs of the edges: one with an end missing hangs from a swept file. -/
def Sweepable (s : SqliteStore) (corpus : String) (paths : List String) : Prop :=
  ∀ e, e ∈ s.edges → s.Anchored e ∨ s.Held corpus paths e.src

theorem noOrphans_sweep {s : SqliteStore} {corpus : String} {paths : List String} :
    (s.sweepOrphanEdgesForPaths corpus paths).1.NoOrphans ↔ s.Sweepable corpus paths := by
  have hst : ∀ x, (s.sweepOrphanEdgesForPaths corpus paths).1.Stored x ↔ s.Stored x := by
    intro x
    rw [Stored, sweep_nodes]
    rfl
  constructor
  · intro h e he
    by_cases hh : s.Held corpus paths e.src
    · exact .inr hh
    · left
      have hm : e ∈ (s.sweepOrphanEdgesForPaths corpus paths).1.edges :=
        mem_sweep_edges.mpr ⟨he, fun path hp hx => absurd ⟨path, hp, hx⟩ hh⟩
      exact ⟨(hst _).mp (h e hm).1, (hst _).mp (h e hm).2⟩
  · intro h e he
    obtain ⟨he, hsw⟩ := mem_sweep_edges.mp he
    rw [Anchored, hst, hst]
    rcases h e he with ha | ⟨path, hp, hx⟩
    · exact ha
    · obtain ⟨r, hr, hid, _⟩ := mem_idsAt.mp hx
      exact ⟨⟨r, hr, hid⟩, hsw path hp hx⟩

end SqliteStore

end Travsr.Store
