import Travsr.Store.Reindex

namespace Travsr.Store

open Travsr.Core Relational

/-- One file's parse, ready to be written in a batch. -/
structure FileGraph where
  vnamePath : String
  newHash : String
  nodes : List Node
  edges : List Edge
  source : Option String

structure BatchWriteCounts where
  nodesUpserted : Nat
  edgesUpserted : Nat
  filesWritten : Nat
  deriving DecidableEq, Repr

namespace FileGraph

def hashes (env : Env) (file : FileGraph) (id : NodeId) : Option String :=
  bodyHashes env file.source file.nodes id

/-- The rows the file's step replaces. The corpus is that of the first node; a parse without
nodes leaves it NULL, which matches the whole path. -/
def InScope (file : FileGraph) (r : NodeRow) : Prop :=
  r.vname.path = file.vnamePath ∧ ∀ n ∈ file.nodes.head?, r.vname.corpus = n.vname.corpus

instance (file : FileGraph) : DecidablePred file.InScope :=
  fun r => inferInstanceAs (Decidable (r.vname.path = _ ∧ ∀ n ∈ file.nodes.head?, _))

def emittedIds (file : FileGraph) : Finset NodeId := (file.nodes.map Node.id).toFinset

theorem mem_emittedIds {file : FileGraph} {x : NodeId} :
    x ∈ file.emittedIds ↔ ∃ n ∈ file.nodes, n.id = x := by
  rw [emittedIds, List.mem_toFinset, List.mem_map]

end FileGraph

namespace SqliteStore

def scopeIds (s : SqliteStore) (file : FileGraph) : Finset NodeId := s.idsWhere file.InScope

theorem mem_scopeIds {s : SqliteStore} {file : FileGraph} {x : NodeId} :
    x ∈ s.scopeIds file ↔ ∃ r, r ∈ s.nodes ∧ r.id = x ∧ file.InScope r := mem_idsWhere

/-- The index entries of a file's nodes: at once, or only the maps in bulk mode. -/
def indexNodes (bulk : Bool) (lex : Lexical) (nodes : List Node) : Except StoreError Lexical :=
  if bulk then
    match nodes.foldlM Lexical.putMapOnly lex with
    | some lex => .ok lex
    | none => .error (.database "batch put_node_fts_map_only")
  else .ok (nodes.foldl Lexical.put lex)

def writeFile (env : Env) (bulk : Bool) (s : SqliteStore) (file : FileGraph) :
    Except StoreError SqliteStore := do
  let ids := s.scopeIds file
  let removed := ids \ file.emittedIds
  let nodes ← insertNodes "inserting node in batch" (file.hashes env)
    (s.nodes.deleteWhere (fun r => file.InScope r)) file.nodes
  let lex ← indexNodes bulk (s.lex.retract ids) file.nodes
  return { s with
    nodes := nodes
    edges := (s.edges.deleteWhere (fun e => e.src ∈ ids)).deleteWhere (fun e => e.dst ∈ removed)
    sites := s.sites.deleteWhere (fun r => r.src ∈ ids)
    files := putFile s.files file.vnamePath file.newHash
    lex := lex }

/-- One file of a staged batch: rows without constraints, to be promoted at the flush. -/
def stageFile (env : Env) (s : SqliteStore) (file : FileGraph) : Except StoreError SqliteStore :=
  match s.stage with
  | none => .error (.database "staging: inserting node")
  | some stage =>
    match file.nodes.foldlM Lexical.putMapOnly s.lex with
    | none => .error (.database "staging: put_node_fts_map_only")
    | some lex => .ok { s with
        stage := some
          { nodes := stage.nodes ++ file.nodes.map fun n => NodeRow.ofNode n (file.hashes env n.id)
            edges := stage.edges ++ file.edges.map EdgeRow.ofParse }
        files := putFile s.files file.vnamePath file.newHash
        lex := lex }

def guardedEdges (s : SqliteStore) (batch : List FileGraph) : List Edge :=
  (batch.flatMap FileGraph.edges).filter fun e => s.Stored e.src ∧ s.Stored e.dst

def prepareBulk (bulk : Bool) (s : SqliteStore) : SqliteStore :=
  if bulk then { s with lex := s.lex.beginBulkFtsTracking } else s

/-- `write_file_graphs_batch`: in a staged run the rows go to the temp tables; otherwise the
files are written one by one and their edges after all of them. -/
def writeFileGraphsBatch (env : Env) (s : SqliteStore) (batch : List FileGraph) (bulk : Bool) :
    Except StoreError (SqliteStore × BatchWriteCounts) :=
  if s.stagingActive then do
    let s' ← batch.foldlM (stageFile env) (s.prepareBulk bulk)
    return (s', ⟨(batch.flatMap FileGraph.nodes).length, (batch.flatMap FileGraph.edges).length,
      batch.length⟩)
  else do
    let s' ← batch.foldlM (writeFile env bulk) (s.prepareBulk bulk)
    let edges ← insertEdges "inserting edge in batch" s'.edges (s'.guardedEdges batch)
    return ({ s' with edges := edges }, ⟨(batch.flatMap FileGraph.nodes).length,
      edges.rows.length - s'.edges.rows.length, batch.length⟩)

/-- `begin_staging_tables`. -/
def beginStagingTables (s : SqliteStore) : SqliteStore :=
  { s with stage := some (s.stage.getD ⟨[], []⟩), stagingActive := true }

/-- `MAX` of a column: NULL only where every row is. -/
def maxColumn {α : Type} [LT α] [DecidableLT α] (values : List (Option α)) : Option α :=
  values.foldl (Option.merge fun a b => if a < b then b else a) none

/-- The row of a group that a grouped SELECT takes its bare columns from: the engine does not say
which. -/
structure BareRow where
  pick : List NodeRow → Option NodeRow
  mem : ∀ group r, pick group = some r → r ∈ group
  isSome : ∀ group, group ≠ [] → (pick group).isSome

def BareRow.first : BareRow where
  pick := List.head?
  mem _ _ h := List.mem_of_head? h
  isSome group h := by
    cases group with
    | nil => exact absurd rfl h
    | cons r rs => rfl

def mergeStaged (r : NodeRow) (group : List NodeRow) : NodeRow :=
  { r with
    line := maxColumn (group.map NodeRow.line)
    endLine := maxColumn (group.map NodeRow.endLine)
    isNoise := group.any NodeRow.isNoise
    testRole := if group.any (fun g => g.testRole = .support) then .support
      else if group.any (fun g => g.testRole = .entryPoint) then .entryPoint else .none
    bodyHash := maxColumn (group.map NodeRow.bodyHash) }

/-- `GROUP BY id`. -/
def stagedNodes (bare : BareRow) (stage : Stage) : List NodeRow :=
  (stage.nodes.map NodeRow.id).dedup.filterMap fun id =>
    let group := stage.nodes.filter fun r => r.id = id
    (bare.pick group).map fun r => mergeStaged r group

/-- `GROUP BY src, dst, kind`. -/
def stagedEdges (edges : List EdgeRow) : List EdgeRow :=
  (edges.map EdgeRow.key).dedup.filterMap fun k =>
    let group := edges.filter fun e => e.key = k
    group.head?.map fun e => { e with confidence := maxColumn (group.map EdgeRow.confidence) }

/-- `flush_staging_to_production`, with the numbers of rows written; a failed flush leaves the
production tables alone and clears the flag all the same. -/
def flushStagingToProduction (bare : BareRow) (s : SqliteStore) :
    SqliteStore × Except StoreError (Nat × Nat) :=
  match s.stagingActive, s.stage with
  | false, _ => (s, .ok (0, 0))
  | true, none => ({ s with stagingActive := false }, .error (.database "inserting nodes from staging"))
  | true, some stage =>
    match s.nodes.upsertAll parseUpdate (stagedNodes bare stage) with
    | none => ({ s with stagingActive := false }, .error (.database "inserting nodes from staging"))
    | some nodes =>
      let rows := stagedEdges (stage.edges.filter fun e => nodes.Has e.src ∧ nodes.Has e.dst)
      if rows.all (fun e => confidenceOk e.confidence) then
        let edges := s.edges.insertAll rows
        ({ s with nodes := nodes, edges := edges, stage := none, stagingActive := false },
          .ok ((stagedNodes bare stage).length, edges.rows.length - s.edges.rows.length))
      else ({ s with stagingActive := false }, .error (.database "inserting edges from staging"))

variable {env : Env} {bulk : Bool} {s s' : SqliteStore} {file : FileGraph}

/-- All that one file of an incremental batch does to the tables. -/
structure FileWritten (env : Env) (bulk : Bool) (s : SqliteStore) (file : FileGraph)
    (s' : SqliteStore) : Prop where
  nodes : insertNodes "inserting node in batch" (file.hashes env)
    (s.nodes.deleteWhere (fun r => file.InScope r)) file.nodes = .ok s'.nodes
  edges : s'.edges = (s.edges.deleteWhere (fun e => e.src ∈ s.scopeIds file)).deleteWhere
    (fun e => e.dst ∈ s.scopeIds file \ file.emittedIds)
  sites : s'.sites = s.sites.deleteWhere (fun r => r.src ∈ s.scopeIds file)
  lex : indexNodes bulk (s.lex.retract (s.scopeIds file)) file.nodes = .ok s'.lex
  stage : s'.stage = s.stage
  stagingActive : s'.stagingActive = s.stagingActive

theorem writeFile_ok (h : writeFile env bulk s file = .ok s') : FileWritten env bulk s file s' := by
  simp only [writeFile, bind, Except.bind, pure, Except.pure] at h
  split at h
  · cases h
  next nodes hn =>
    split at h
    · cases h
    next lex hl =>
      obtain rfl := Except.ok.inj h
      exact ⟨hn, rfl, rfl, hl, rfl, rfl⟩

namespace FileWritten

variable (h : FileWritten env bulk s file s')

include h

theorem stored_iff {x : NodeId} :
    s'.Stored x ↔ (s.Stored x ∧ x ∉ s.scopeIds file) ∨ x ∈ file.emittedIds := by
  have hx : s'.Stored x ↔ _ := has_insertNodes h.nodes x
  rw [hx, FileGraph.mem_emittedIds]
  exact or_congr_left has_deleteWhere

theorem find?_nodes (x : NodeId) :
    s'.nodes.find? x = IndexedTable.evolve parseUpdate
      ((s.nodes.find? x).filter (fun r => ¬ file.InScope r))
      ((file.nodes.filter (fun n => n.id = x)).map fun n => NodeRow.ofNode n (file.hashes env n.id)) := by
  rw [find?_insertNodes h.nodes]
  congr 1
  exact Table.find?_deleteWhere s.nodes.toTable _ x

theorem mem_edges {e : EdgeRow} :
    e ∈ s'.edges ↔ e ∈ s.edges ∧ e.src ∉ s.scopeIds file ∧
      (e.dst ∈ s.scopeIds file → e.dst ∈ file.emittedIds) := by
  rw [h.edges, Table.mem_deleteWhere, Table.mem_deleteWhere, and_assoc, Finset.mem_sdiff, not_and,
    not_not]

theorem mem_sites {r : SiteRow} : r ∈ s'.sites ↔ r ∈ s.sites ∧ r.src ∉ s.scopeIds file := by
  rw [h.sites, Table.mem_deleteWhere]

theorem addressed {nodes : List Node} (ha : s.Addressed nodes) (hc : file.nodes ⊆ nodes) :
    s'.Addressed nodes := by
  refine ⟨?_, ha.node⟩
  intro r hr n hn hid
  rcases mem_insertNodes h.nodes hr with ⟨o, ho, hoid, hov⟩ | ⟨m, hm, hmid, hmv⟩
  · exact hov ▸ ha.row o (IndexedTable.mem_deleteWhere.mp ho).1 n hn (hoid.trans hid)
  · exact hmv ▸ ha.node m (hc hm) n hn (hmid.trans hid)

theorem noOrphans (h0 : s.NoOrphans) : s'.NoOrphans := by
  intro e he
  obtain ⟨hm, hsrc, hdst⟩ := h.mem_edges.mp he
  refine ⟨h.stored_iff.mpr (.inl ⟨(h0 e hm).1, hsrc⟩), h.stored_iff.mpr ?_⟩
  by_cases hs : e.dst ∈ s.scopeIds file
  · exact .inr (hdst hs)
  · exact .inl ⟨(h0 e hm).2, hs⟩

end FileWritten

theorem writeFileGraphsBatch_ok {batch : List FileGraph} {counts : BatchWriteCounts}
    (hstage : s.stagingActive = false)
    (h : s.writeFileGraphsBatch env batch bulk = .ok (s', counts)) :
    ∃ t, batch.foldlM (writeFile env bulk) (s.prepareBulk bulk) = .ok t ∧ s'.nodes = t.nodes ∧
      s'.sites = t.sites ∧ s'.lex = t.lex ∧
      s'.edges = t.edges.insertAll ((t.guardedEdges batch).map EdgeRow.ofParse) := by
  simp only [writeFileGraphsBatch, hstage, bind, Except.bind, pure, Except.pure,
    Bool.false_eq_true, if_false] at h
  split at h
  · cases h
  next t ht =>
    split at h
    · cases h
    next edges he =>
      obtain ⟨rfl, _⟩ := Prod.mk.inj (Except.ok.inj h)
      exact ⟨t, ht, rfl, rfl, rfl, insertEdges_ok he⟩

/-- The batch goes through exactly when its files do and the guarded edges pass the CHECK. -/
theorem writeFileGraphsBatch_isOk {batch : List FileGraph} (hstage : s.stagingActive = false) :
    (∃ p, s.writeFileGraphsBatch env batch bulk = .ok p) ↔
      ∃ t, batch.foldlM (writeFile env bulk) (s.prepareBulk bulk) = .ok t ∧
        ∀ e ∈ t.guardedEdges batch, confidenceOk e.confidence := by
  simp only [writeFileGraphsBatch, hstage, bind, Except.bind, pure, Except.pure,
    Bool.false_eq_true, if_false]
  constructor
  · intro ⟨p, hp⟩
    split at hp
    · cases hp
    next t ht =>
      split at hp
      · cases hp
      next edges he => exact ⟨t, ht, insertEdges_isOk.mp ⟨edges, he⟩⟩
  · intro ⟨t, ht, hc⟩
    obtain ⟨edges, he⟩ := (@insertEdges_isOk "inserting edge in batch"
      t.edges _).mpr hc
    rw [ht]
    dsimp only
    rw [he]
    exact ⟨_, rfl⟩

theorem prepareBulk_tables (bulk : Bool) (s : SqliteStore) :
    (s.prepareBulk bulk).nodes = s.nodes ∧ (s.prepareBulk bulk).edges = s.edges ∧
      (s.prepareBulk bulk).sites = s.sites := by
  cases bulk <;> exact ⟨rfl, rfl, rfl⟩

theorem foldlM_writeFile {batch : List FileGraph} {P : SqliteStore → Prop}
    (hstep : ∀ s s' file, file ∈ batch → FileWritten env bulk s file s' → P s → P s')
    (h : batch.foldlM (writeFile env bulk) s = .ok s') (h0 : P s) : P s' := by
  induction batch generalizing s with
  | nil =>
    obtain rfl := Except.ok.inj h
    exact h0
  | cons file batch ih =>
    rw [List.foldlM_cons] at h
    simp only [bind, Except.bind] at h
    split at h
    · cases h
    next t ht =>
      refine ih (fun s s' f hf => hstep s s' f (List.mem_cons_of_mem _ hf)) h ?_
      exact hstep s t file List.mem_cons_self (writeFile_ok ht) h0

theorem mem_insertAll_guarded {t : SqliteStore} {batch : List FileGraph} {e : EdgeRow}
    (he : e ∈ t.edges.insertAll ((t.guardedEdges batch).map EdgeRow.ofParse)) :
    e ∈ t.edges ∨ t.Anchored e := by
  rcases Table.mem_insertAll.mp he with ho | ⟨_, hp⟩
  · exact .inl ho
  · right
    obtain ⟨p, hpm, hpe⟩ := List.mem_map.mp (List.mem_of_find?_eq_some hp)
    rw [guardedEdges, List.mem_filter, decide_eq_true_eq] at hpm
    subst hpe
    exact hpm.2

theorem writeFileGraphsBatch_noOrphans {batch : List FileGraph} {counts : BatchWriteCounts}
    (hstage : s.stagingActive = false)
    (h : s.writeFileGraphsBatch env batch bulk = .ok (s', counts)) (h0 : s.NoOrphans) :
    s'.NoOrphans := by
  obtain ⟨t, ht, hn, _, _, he⟩ := writeFileGraphsBatch_ok hstage h
  obtain ⟨hpn, hpe, _⟩ := prepareBulk_tables bulk s
  have ht0 : t.NoOrphans := by
    refine foldlM_writeFile (P := NoOrphans) (fun _ _ _ _ hw => hw.noOrphans) ht ?_
    intro e hm
    rw [hpe] at hm
    have := h0 e hm
    rwa [Anchored, Stored, Stored, hpn]
  intro e hm
  rw [he] at hm
  have hanch : t.Anchored e := (mem_insertAll_guarded hm).elim (ht0 e) id
  rwa [Anchored, Stored, Stored, hn]

theorem flushStagingToProduction_noOrphans (bare : BareRow) (h0 : s.NoOrphans) :
    (s.flushStagingToProduction bare).1.NoOrphans := by
  unfold flushStagingToProduction
  split
  · exact h0
  · exact h0
  next stage _ _ =>
    split
    · exact h0
    next nodes hn =>
      dsimp only
      split_ifs
      · have hgrow : ∀ x, s.Stored x → nodes.Has x := by
          intro x hx
          rw [Table.has_iff_find?, IndexedTable.find?_of_upsertAll hn, Option.isSome_iff_ne_none,
            ne_eq, IndexedTable.evolve_eq_none, Table.find?_eq_none, not_and]
          exact fun hno => absurd hx hno
        intro e he
        rcases Table.mem_insertAll.mp he with ho | ⟨_, hp⟩
        · exact ⟨hgrow _ (h0 e ho).1, hgrow _ (h0 e ho).2⟩
        · have hm := List.mem_of_find?_eq_some hp
          obtain ⟨k, _, hk⟩ := List.mem_filterMap.mp hm
          obtain ⟨g, hg, rfl⟩ := Option.map_eq_some_iff.mp hk
          have hgm := (List.mem_filter.mp (List.mem_of_head? hg)).1
          rw [List.mem_filter, decide_eq_true_eq] at hgm
          exact hgm.2
      · exact h0

theorem flush_dangling_noOrphans :
    (flushStagingToProduction .first { SqliteStore.empty with
      stage := some ⟨[⟨1, ⟨"a", "", "a.rs", "rust", "fn:f"⟩, "fn", "", some 1, some 2, false, .none, none⟩],
        [⟨1, 2, .refCall, "tree-sitter", none⟩]⟩
      stagingActive := true }).1.NoOrphans := by
  apply flushStagingToProduction_noOrphans
  intro e he
  cases he

end SqliteStore

end Travsr.Store
