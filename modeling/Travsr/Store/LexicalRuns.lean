import Travsr.Store.LexicalInvariant

namespace Travsr.Store

open Travsr.Core Relational Postings

section Rows

variable {t u : NodeTable} {n : Node} {nodes : List Node} {lex : Lexical} {ids : List NodeId}

/-- The vnames of a table's rows agree with those of the nodes about to be written. -/
structure Keyed (t : NodeTable) (nodes : List Node) : Prop where
  row : ∀ r, r ∈ t → ∀ n ∈ nodes, r.id = n.id → r.vname = n.vname
  node : ∀ n ∈ nodes, ∀ m ∈ nodes, n.id = m.id → n.vname = m.vname

theorem Keyed.subset {nodes' : List Node} (h : Keyed t nodes) (hs : nodes' ⊆ nodes) :
    Keyed t nodes' :=
  ⟨fun r hr n hn => h.row r hr n (hs hn), fun n hn m hm => h.node n (hs hn) m (hs hm)⟩

theorem Keyed.deleteWhere (h : Keyed t nodes) {p : NodeRow → Prop} [DecidablePred p] :
    Keyed (t.deleteWhere p) nodes :=
  ⟨fun r hr => h.row r (IndexedTable.mem_deleteWhere.mp hr).1, h.node⟩

theorem nodeSet_of_upsert {row : NodeRow} {upd : NodeUpdate} (h : t.upsert row upd = some u)
    (hid : row.id = n.id) (hv : row.vname = n.vname) (hk : row.kind = n.kind)
    (hupd : ∀ r, (upd.apply r).kind = n.kind)
    (hrow : ∀ r, r ∈ t → r.id = n.id → r.vname = n.vname) : NodeSet t u n := by
  have hfind : ∀ x, u.find? x =
      if n.id = x then some ((t.find? n.id).elim row upd.apply) else t.find? x := by
    intro x
    rw [IndexedTable.find?_of_upsert h, hid]
    split_ifs with hx
    · rw [hx]
    · rfl
  refine ⟨_, ?_, ?_, ?_, hfind⟩
  · cases hf : t.find? n.id with
    | none => exact hid
    | some o => exact (upd.key_apply o).trans (Table.mem_of_find? hf).2
  · cases hf : t.find? n.id with
    | none => exact hv
    | some o =>
      obtain ⟨hm, hok⟩ := Table.mem_of_find? hf
      exact (upd.index_apply o).trans (hrow o hm hok)
  · cases hf : t.find? n.id with
    | none => exact hk
    | some o => exact hupd o

theorem NodeSet.has_iff (h : NodeSet t u n) {x : NodeId} : u.Has x ↔ n.id = x ∨ t.Has x := by
  obtain ⟨r, _, _, _, hfind⟩ := h
  rw [Table.has_iff_find?, Table.has_iff_find?, hfind]
  by_cases hx : n.id = x <;> simp [hx]

theorem NodeSet.keyed (h : NodeSet t u n) (hk : Keyed t nodes) (hn : n ∈ nodes) :
    Keyed u nodes := by
  obtain ⟨r0, hid, hv, _, hfind⟩ := h
  refine ⟨?_, hk.node⟩
  intro r hr m hm hrm
  have hf : u.find? r.id = some r := Table.find?_of_mem (t := u.toTable) hr
  rw [hfind] at hf
  by_cases hx : n.id = r.id
  · rw [if_pos hx, Option.some.injEq] at hf
    subst hf
    rw [hv]
    exact hk.node n hn m hm (hx.trans hrm)
  · rw [if_neg hx] at hf
    exact hk.row r (Table.mem_of_find? hf).1 m hm hrm

theorem nodeSet_of_parse {hash : Option String}
    (h : t.upsert (NodeRow.ofNode n hash) (parseUpdate (NodeRow.ofNode n hash)) = some u)
    (hk : Keyed t nodes) (hn : n ∈ nodes) : NodeSet t u n :=
  nodeSet_of_upsert h rfl rfl rfl (fun _ => rfl) fun r hr hid => hk.row r hr n hn hid

theorem exact_of_upsertAll {hashes : NodeId → Option String} (hk : Keyed t nodes)
    (h : t.upsertAll parseUpdate (nodes.map fun n => NodeRow.ofNode n (hashes n.id)) = some u)
    (hex : lex.Exact t) : (nodes.foldl Lexical.put lex).Exact u := by
  induction nodes generalizing t lex with
  | nil =>
    obtain rfl := Option.some.inj h
    exact hex
  | cons n nodes ih =>
    rw [List.map_cons, IndexedTable.upsertAll] at h
    split at h
    next t' ht' =>
      have hs := nodeSet_of_parse ht' hk List.mem_cons_self
      exact ih ((hs.keyed hk List.mem_cons_self).subset (List.subset_cons_self _ _)) h (hex.put hs)
    · cases h

theorem deferred_of_upsertAll {hashes : NodeId → Option String} {lex' : Lexical}
    (hk : Keyed t nodes)
    (h : t.upsertAll parseUpdate (nodes.map fun n => NodeRow.ofNode n (hashes n.id)) = some u)
    (hl : nodes.foldlM Lexical.putMapOnly lex = some lex')
    (hnew : ∀ n ∈ nodes, n.id ∈ ids ∨ ¬ t.Has n.id) (hdef : lex.Deferred t ids) :
    ∃ ids', lex'.Deferred u ids' ∧ ∀ x, x ∈ ids' ↔ x ∈ ids ∨ ∃ n ∈ nodes, n.id = x := by
  induction nodes generalizing t lex ids with
  | nil =>
    obtain rfl := Option.some.inj h
    obtain rfl := Option.some.inj hl
    exact ⟨ids, hdef, fun x => by simp⟩
  | cons n nodes ih =>
    rw [List.map_cons, IndexedTable.upsertAll] at h
    split at h
    next t' ht' =>
      have hs := nodeSet_of_parse ht' hk List.mem_cons_self
      obtain ⟨lex1, ids1, hput, hdef1, hids1⟩ := hdef.putMapOnly hs (hnew n List.mem_cons_self)
      rw [List.foldlM_cons, hput] at hl
      have hnew1 : ∀ m ∈ nodes, m.id ∈ ids1 ∨ ¬ t'.Has m.id := by
        intro m hm
        by_cases hmn : m.id = n.id
        · exact .inl ((hids1 _).mpr (.inl hmn))
        · refine (hnew m (List.mem_cons_of_mem _ hm)).imp (fun hi => (hids1 _).mpr (.inr hi)) ?_
          intro hno hhas
          exact (hs.has_iff.mp hhas).elim (fun he => hmn he.symm) hno
      obtain ⟨ids', hdef', hids'⟩ := ih
        ((hs.keyed hk List.mem_cons_self).subset (List.subset_cons_self _ _)) h hl hnew1 hdef1
      refine ⟨ids', hdef', ?_⟩
      intro x
      rw [hids', hids1, List.exists_mem_cons_iff, eq_comm, or_comm (b := x ∈ ids), or_assoc]
    · cases h

theorem exact_of_phaseBNodes {st : NodeTable × Lexical} (hk : Keyed st.1 nodes)
    (hex : st.2.Exact st.1) :
    (nodes.foldl phaseBNode st).2.Exact (nodes.foldl phaseBNode st).1 := by
  induction nodes generalizing st with
  | nil => exact hex
  | cons n nodes ih =>
    rw [List.foldl_cons]
    have hsub := List.subset_cons_self n nodes
    cases ht' : st.1.upsert { NodeRow.ofNode n none with testRole := .none }
        (phaseBUpdate { NodeRow.ofNode n none with testRole := .none }) with
    | none =>
      have hstep : phaseBNode st n = st := by
        rw [phaseBNode, ht']
      rw [hstep]
      exact ih (hk.subset hsub) hex
    | some t' =>
      have hstep : phaseBNode st n = (t', st.2.put n) := by
        rw [phaseBNode, ht']
      have hs : NodeSet st.1 t' n := nodeSet_of_upsert ht' rfl rfl rfl (fun _ => rfl)
        fun r hr hid => hk.row r hr n List.mem_cons_self hid
      rw [hstep]
      exact ih ((hs.keyed hk List.mem_cons_self).subset hsub) (hex.put hs)

end Rows

/-- The graph writers of the store. A bulk run is a list of batches and then the rebuild. -/
inductive GraphWrite where
  | putNode (n : Node)
  | writeFileGraphsBatch (batch : List FileGraph)
  | bulkInit (batches : List (List FileGraph))
  | reindexReplace (c : Reparse)
  | deleteNodesForPath (path : String)
  | deleteFile (corpus path : String)
  | deleteNodesForPathPrefix (pre : String)
  | writePhaseBBatch (nodes : List Node) (edges : List Edge) (provenance : String)
  | writeScipAttributedBatch (corpus : String) (nodes : List Node) (refs : List ScipRef)
  | purgeGraph

namespace SqliteStore

variable (env : Env) (s : SqliteStore)

/-- A batch of a bulk run; one that fails leaves only the temp table behind. -/
def bulkBatch (batch : List FileGraph) : SqliteStore :=
  match s.writeFileGraphsBatch env batch true with
  | .ok (s', _) => s'
  | .error _ => s.prepareBulk true

def rebuildFtsFromMap : SqliteStore :=
  match s.lex.rebuildFtsFromMap with
  | .ok lex => { s with lex := lex }
  | .error _ => s

end SqliteStore

namespace GraphWrite

def nodes : GraphWrite → List Node
  | putNode n => [n]
  | writeFileGraphsBatch batch => batch.flatMap FileGraph.nodes
  | bulkInit batches => batches.flatten.flatMap FileGraph.nodes
  | reindexReplace c => c.nodes
  | writePhaseBBatch nodes _ _ => nodes
  | writeScipAttributedBatch _ nodes _ => nodes
  | _ => []

def apply (env : Env) (s : SqliteStore) : GraphWrite → SqliteStore
  | putNode n => (s.putNode n).toOption.getD s
  | writeFileGraphsBatch batch =>
    ((s.writeFileGraphsBatch env batch false).toOption.map Prod.fst).getD s
  | bulkInit batches => (batches.foldl (SqliteStore.bulkBatch env) s).rebuildFtsFromMap
  | reindexReplace c => s.reindexed env c
  | deleteNodesForPath path => (s.deleteNodesForPath path).1
  | deleteFile corpus path => (s.deleteFile corpus path).1
  | deleteNodesForPathPrefix pre => (s.deleteNodesForPathPrefix pre).1
  | writePhaseBBatch nodes edges provenance =>
    (s.writePhaseBBatch nodes edges provenance).toOption.getD s
  | writeScipAttributedBatch corpus nodes refs =>
    s.writeScipAttributedBatch env corpus nodes refs
  | purgeGraph => s.purgeGraph.1

end GraphWrite

/-- The states a store reaches from the empty one by writes that are allowed where they happen. -/
inductive Reachable (env : Env) (allowed : SqliteStore → GraphWrite → Prop) : SqliteStore → Prop
  | empty : Reachable env allowed SqliteStore.empty
  | step {s : SqliteStore} {w : GraphWrite} (h : Reachable env allowed s) (hw : allowed s w) :
    Reachable env allowed (w.apply env s)

/-- What the lexical index is for: in both indexes one posting for each row of `nodes`, the one
its data gives and its map row remembers, and the refcount of every countable token the number of
its occurrences over the map rows. -/
structure SqliteStore.LexicallyExact (s : SqliteStore) : Prop where
  fts : s.lex.fts = (s.nodes.rows.map fun r => ftsRow r.toNode : List FtsMapRow)
  ftsMap : (s.lex.ftsMap.rows : Multiset FtsMapRow) = s.lex.fts
  words : s.lex.words = (s.nodes.rows.map fun r => wordsRow r.toNode : List WordsMapRow)
  wordsMap : (s.lex.wordsMap.rows : Multiset WordsMapRow) = s.lex.words
  vocab : ∀ tok, 3 ≤ Text.byteLen tok → refcount s.lex.vocab tok =
    (s.lex.ftsMap.rows.map fun m => (Text.splitWhitespace m.tokens).count tok).sum

theorem rows_of_find? {ρ σ κ : Type} [DecidableEq κ] {key : ρ → κ} {key' : σ → κ}
    {t : Table ρ key} {u : Table σ key'} {f : σ → ρ} (hkey : ∀ r, key (f r) = key' r)
    (h : ∀ k, t.find? k = (u.find? k).map f) :
    (t.rows : Multiset ρ) = (u.rows.map f : List ρ) := by
  have hnodup : (u.rows.map f).Nodup := by
    refine List.Nodup.of_map key ?_
    rw [List.map_map]
    simpa [Function.comp_def, hkey] using u.nodup
  rw [Multiset.coe_eq_coe, List.perm_ext_iff_of_nodup t.nodup_rows hnodup]
  intro r
  rw [List.mem_map]
  constructor
  · intro hr
    have hf := h (key r)
    rw [Table.find?_of_mem hr] at hf
    obtain ⟨o, ho, hor⟩ := Option.map_eq_some_iff.mp hf.symm
    exact ⟨o, (Table.mem_of_find? ho).1, hor⟩
  · intro ⟨o, ho, hor⟩
    have hf := h (key' o)
    rw [Table.find?_of_mem ho, Option.map_some, hor] at hf
    exact (Table.mem_of_find? hf).1

theorem lexicallyExact_of_exact {s : SqliteStore} (h : s.lex.Exact s.nodes) :
    s.LexicallyExact := by
  have hfts := faithful_none.mp h.fts
  have hwords := faithful_none.mp h.words
  have hrows : (s.lex.ftsMap.rows : Multiset FtsMapRow) = _ :=
    rows_of_find? (u := s.nodes.toTable) (fun _ => rfl) h.ftsMap
  have hrows' : (s.lex.wordsMap.rows : Multiset WordsMapRow) = _ :=
    rows_of_find? (u := s.nodes.toTable) (fun _ => rfl) h.wordsMap
  refine ⟨hfts.trans hrows, hfts.symm, hwords.trans hrows', hwords.symm, ?_⟩
  intro tok htok
  rw [h.vocab, occurrences, Multiset.map_coe, Multiset.sum_coe]
  congr 1
  apply List.map_congr_left
  intro m _
  rw [vocabTokens, List.count_filter (by simpa using htok)]

namespace SqliteStore

variable {env : Env} {s s' : SqliteStore}

theorem Addressed.keyed {nodes : List Node} (h : s.Addressed nodes) : Keyed s.nodes nodes :=
  ⟨h.row, h.node⟩

/-- The invariant of a run: the index is exact and no staged run is open. -/
structure Indexed (s : SqliteStore) : Prop where
  exact : s.lex.Exact s.nodes
  unstaged : s.stagingActive = false

theorem upsertAll_of_insertNodes {context : String} {hashes : NodeId → Option String}
    {t u : NodeTable} {nodes : List Node} (h : insertNodes context hashes t nodes = .ok u) :
    t.upsertAll parseUpdate (nodes.map fun n => NodeRow.ofNode n (hashes n.id)) = some u := by
  rw [insertNodes] at h
  split at h
  next u' hu =>
    obtain rfl := Except.ok.inj h
    exact hu
  · cases h

theorem Indexed.putNode {n : Node} (h : s.Indexed) (ha : s.Addressed [n])
    (hp : s.putNode n = .ok s') : s'.Indexed := by
  rw [SqliteStore.putNode] at hp
  split at hp
  · cases hp
  next nodes hn =>
    rw [h.unstaged, if_neg Bool.false_ne_true] at hp
    obtain rfl := Except.ok.inj hp
    refine ⟨h.exact.put ?_, rfl⟩
    exact nodeSet_of_upsert hn rfl rfl rfl (fun _ => rfl)
      fun r hr hid => ha.row r hr n List.mem_cons_self hid

theorem Indexed.deleteNodesWhere (h : s.Indexed) {p : NodeRow → Prop} [DecidablePred p] :
    (s.deleteNodesWhere p).Indexed :=
  ⟨h.exact.retract fun _ hr => mem_idsWhere_iff hr, h.unstaged⟩

theorem Indexed.deleteFile (h : s.Indexed) (corpus path : String) :
    (s.deleteFile corpus path).1.Indexed :=
  ⟨h.exact.retract fun _ hr => mem_idsWhere_iff hr, h.unstaged⟩

theorem exact_empty {lex : Lexical} (hf : lex.fts = 0) (hfm : lex.ftsMap = Table.empty)
    (hw : lex.words = 0) (hwm : lex.wordsMap = Table.empty) (hv : lex.vocab = Table.empty)
    (hp : lex.pending = none) : lex.Exact IndexedTable.empty := by
  refine ⟨⟨?_, ?_⟩, ?_, ?_, ?_, hp⟩
  · intro x
    rw [hfm]
    rfl
  · intro x
    rw [hwm]
    rfl
  · rw [faithful_none, hf, hfm]
    rfl
  · rw [faithful_none, hw, hwm]
    rfl
  · intro tok
    rw [hv, hfm]
    rfl

theorem Indexed.purgeGraph (h : s.Indexed) : s.purgeGraph.1.Indexed :=
  ⟨exact_empty rfl rfl rfl rfl rfl h.exact.pending, h.unstaged⟩

theorem indexed_empty : SqliteStore.empty.Indexed :=
  ⟨exact_empty rfl rfl rfl rfl rfl rfl, rfl⟩

theorem Indexed.reindexed {c : Reparse} (h : s.Indexed) (ha : s.Addressed c.nodes) :
    (s.reindexed env c).Indexed := by
  rw [SqliteStore.reindexed]
  split
  next s' rep hr =>
    have hd := reindexReplace_ok hr
    refine ⟨?_, hd.stagingActive.trans h.unstaged⟩
    rw [hd.lex]
    exact exact_of_upsertAll ha.keyed.deleteWhere (upsertAll_of_insertNodes hd.nodes)
      (h.exact.retract fun _ hm => mem_idsWhere_iff hm)
  · exact h

theorem Indexed.writePhaseBBatch {nodes : List Node} {edges : List Edge} {provenance : String}
    (h : s.Indexed) (ha : s.Addressed nodes)
    (hw : s.writePhaseBBatch nodes edges provenance = .ok s') : s'.Indexed := by
  rw [SqliteStore.writePhaseBBatch] at hw
  dsimp only at hw
  split_ifs at hw
  · obtain rfl := Except.ok.inj hw
    exact h
  · obtain rfl := Except.ok.inj hw
    exact ⟨@exact_of_phaseBNodes _ (s.nodes, s.lex) ha.keyed h.exact, h.unstaged⟩

theorem writeFileGraphsBatch_stagingActive {batch : List FileGraph} {bulk : Bool}
    {counts : BatchWriteCounts} (hs : s.stagingActive = false)
    (h : s.writeFileGraphsBatch env batch bulk = .ok (s', counts)) : s'.stagingActive = false := by
  simp only [writeFileGraphsBatch, hs, bind, Except.bind, pure, Except.pure, Bool.false_eq_true,
    if_false] at h
  split at h
  · cases h
  next t ht =>
    split at h
    · cases h
    · obtain ⟨rfl, _⟩ := Prod.mk.inj (Except.ok.inj h)
      change t.stagingActive = false
      refine foldlM_writeFile (P := fun s => s.stagingActive = false) ?_ ht ?_
      · intro s s' _ _ hw hs
        exact hw.stagingActive.trans hs
      · cases bulk <;> exact hs

theorem exact_of_fileWritten {file : FileGraph} (ha : s.Addressed file.nodes)
    (hw : FileWritten env false s file s') (h : s.lex.Exact s.nodes) : s'.lex.Exact s'.nodes := by
  have hl : file.nodes.foldl Lexical.put (s.lex.retract (s.scopeIds file)) = s'.lex :=
    Except.ok.inj hw.lex
  rw [← hl]
  exact exact_of_upsertAll ha.keyed.deleteWhere (upsertAll_of_insertNodes hw.nodes)
    (h.retract fun _ hr => mem_idsWhere_iff hr)

theorem Indexed.writeFileGraphsBatch {batch : List FileGraph} {counts : BatchWriteCounts}
    (h : s.Indexed) (ha : s.Addressed (batch.flatMap FileGraph.nodes))
    (hw : s.writeFileGraphsBatch env batch false = .ok (s', counts)) : s'.Indexed := by
  refine ⟨?_, writeFileGraphsBatch_stagingActive h.unstaged hw⟩
  obtain ⟨t, ht, hn, _, hl, _⟩ := writeFileGraphsBatch_ok h.unstaged hw
  rw [hn, hl]
  refine (foldlM_writeFile (P := fun s => s.lex.Exact s.nodes ∧
    s.Addressed (batch.flatMap FileGraph.nodes)) ?_ ht ⟨h.exact, ha⟩).1
  intro s s' file hf hw ⟨hex, ha⟩
  have hsub : file.nodes ⊆ batch.flatMap FileGraph.nodes :=
    fun n hn => List.mem_flatMap.mpr ⟨file, hf, hn⟩
  exact ⟨exact_of_fileWritten (ha.subset hsub) hw hex, hw.addressed ha hsub⟩

/-- Every node of the batch that is stored and does not wait for the rebuild lies in the scope of
its file or of an earlier one. -/
def ReemitsInPlace (s : SqliteStore) (batch : List FileGraph) : Prop :=
  ∀ before file after, batch = before ++ file :: after → ∀ n ∈ file.nodes,
    n.id ∈ s.lex.pending.getD [] ∨
      ∀ r, r ∈ s.nodes → r.id = n.id → ∃ g ∈ before ++ [file], g.InScope r

theorem deferred_of_fileWritten {file : FileGraph} {ids : List NodeId}
    (ha : s.Addressed file.nodes) (hw : FileWritten env true s file s')
    (h : s.lex.Deferred s.nodes ids)
    (hnew : ∀ n ∈ file.nodes, n.id ∈ ids ∨ ∀ r, r ∈ s.nodes → r.id = n.id → file.InScope r) :
    ∃ ids', s'.lex.Deferred s'.nodes ids' ∧
      ∀ x, x ∈ ids' ↔ x ∈ ids ∨ ∃ n ∈ file.nodes, n.id = x := by
  have hl : file.nodes.foldlM Lexical.putMapOnly (s.lex.retract (s.scopeIds file)) =
      some s'.lex := by
    have hl := hw.lex
    rw [indexNodes, if_pos rfl] at hl
    split at hl
    next lex hlex =>
      obtain rfl := Except.ok.inj hl
      exact hlex
    · cases hl
  refine deferred_of_upsertAll ha.keyed.deleteWhere (upsertAll_of_insertNodes hw.nodes) hl ?_
    (h.retract fun _ hr => mem_idsWhere_iff hr)
  intro n hn
  refine (hnew n hn).imp_right fun hscope => ?_
  intro ⟨r, hr, hid⟩
  obtain ⟨hr, hout⟩ := IndexedTable.mem_deleteWhere.mp hr
  exact hout (hscope r hr hid)

theorem deferred_of_bulkBatch {batch : List FileGraph} {ids : List NodeId}
    (ha : s.Addressed (batch.flatMap FileGraph.nodes)) (hin : s.ReemitsInPlace batch)
    (h : s.lex.Deferred s.nodes ids)
    (hw : batch.foldlM (writeFile env true) s = .ok s') :
    ∃ ids', s'.lex.Deferred s'.nodes ids' := by
  induction batch generalizing s ids with
  | nil =>
    obtain rfl := Except.ok.inj hw
    exact ⟨ids, h⟩
  | cons file batch ih =>
    rw [List.foldlM_cons] at hw
    simp only [bind, Except.bind] at hw
    split at hw
    · cases hw
    next t ht =>
      have hft := writeFile_ok ht
      have hsub : file.nodes ⊆ (file :: batch).flatMap FileGraph.nodes :=
        fun n hn => List.mem_flatMap.mpr ⟨file, List.mem_cons_self, hn⟩
      have hsub' : batch.flatMap FileGraph.nodes ⊆ (file :: batch).flatMap FileGraph.nodes := by
        intro n hn
        rw [List.flatMap_cons]
        exact List.mem_append_right _ hn
      have hpending : s.lex.pending.getD [] = ids := by
        rw [h.pending]
        rfl
      have hfile : ∀ n ∈ file.nodes,
          n.id ∈ ids ∨ ∀ r, r ∈ s.nodes → r.id = n.id → file.InScope r := by
        intro n hn
        have := hin [] file batch rfl n hn
        rw [hpending] at this
        simpa using this
      obtain ⟨ids', hdef, hids⟩ := deferred_of_fileWritten (ha.subset hsub) hft h hfile
      refine ih ((hft.addressed ha hsub).subset hsub') ?_ hdef hw
      intro before g after hsplit n hn
      rw [hdef.pending, Option.getD_some, hids]
      by_cases hemit : ∃ m ∈ file.nodes, m.id = n.id
      · exact .inl (.inr hemit)
      · have hplace := hin (file :: before) g after (by rw [hsplit, List.cons_append]) n hn
        rw [hpending] at hplace
        refine hplace.imp .inl fun hscope => ?_
        intro r hr hid
        rcases mem_insertNodes hft.nodes hr with ⟨o, ho, hoid, hov⟩ | ⟨m, hm, hmid, _⟩
        · obtain ⟨ho, hout⟩ := IndexedTable.mem_deleteWhere.mp ho
          obtain ⟨f, hf, hfs⟩ := hscope o ho (hoid.trans hid)
          rw [List.cons_append, List.mem_cons] at hf
          have hfr : f.InScope r := by
            rw [FileGraph.InScope, ← hov]
            exact hfs
          refine ⟨f, hf.resolve_left ?_, hfr⟩
          intro hff
          exact hout (hff ▸ hfs)
        · exact absurd ⟨m, hm, hmid.trans hid⟩ hemit

/-- In a bulk run the index is exact or has entries waiting. -/
structure BulkIndexed (s : SqliteStore) : Prop where
  lex : s.lex.Exact s.nodes ∨ ∃ ids, s.lex.Deferred s.nodes ids
  unstaged : s.stagingActive = false

theorem BulkIndexed.prepare (h : s.BulkIndexed) :
    (∃ ids, (s.prepareBulk true).lex.Deferred s.nodes ids) ∧
      (s.prepareBulk true).lex.pending.getD [] = s.lex.pending.getD [] := by
  refine ⟨?_, rfl⟩
  rcases h.lex with hex | ⟨ids, hdef⟩
  · exact ⟨[], hex.begin⟩
  · have hsame : (s.prepareBulk true).lex = s.lex := by
      rw [prepareBulk, if_pos rfl, Lexical.beginBulkFtsTracking, hdef.pending, Option.getD_some,
        ← hdef.pending]
    exact ⟨ids, hsame ▸ hdef⟩

theorem BulkIndexed.bulkBatch {batch : List FileGraph} (h : s.BulkIndexed)
    (ha : s.Addressed (batch.flatMap FileGraph.nodes))
    (hin : (s.writeFileGraphsBatch env batch true).isOk → s.ReemitsInPlace batch) :
    (s.bulkBatch env batch).BulkIndexed := by
  obtain ⟨⟨ids, hdef⟩, hpending⟩ := h.prepare
  rw [SqliteStore.bulkBatch]
  split
  next s' counts hw =>
    refine ⟨.inr ?_, writeFileGraphsBatch_stagingActive h.unstaged hw⟩
    obtain ⟨t, ht, hn, _, hl, _⟩ := writeFileGraphsBatch_ok h.unstaged hw
    rw [hn, hl]
    have hin' : (s.prepareBulk true).ReemitsInPlace batch := by
      intro before file after hsplit n hn
      rw [hpending]
      exact hin (by rw [hw]; rfl) before file after hsplit n hn
    exact deferred_of_bulkBatch (s := s.prepareBulk true) ⟨ha.row, ha.node⟩ hin' hdef ht
  · exact ⟨.inr ⟨ids, hdef⟩, h.unstaged⟩

theorem BulkIndexed.rebuild (h : s.BulkIndexed) : s.rebuildFtsFromMap.Indexed := by
  rw [SqliteStore.rebuildFtsFromMap]
  rcases h.lex with hex | ⟨ids, hdef⟩
  · rw [Lexical.rebuildFtsFromMap, hex.pending]
    exact ⟨hex, h.unstaged⟩
  · obtain ⟨lex, hlex, hex⟩ := hdef.rebuild
    rw [hlex]
    exact ⟨hex, h.unstaged⟩

theorem Addressed.bulkBatch {batch : List FileGraph} {nodes : List Node}
    (hs : s.stagingActive = false) (ha : s.Addressed nodes)
    (hb : batch.flatMap FileGraph.nodes ⊆ nodes) : (s.bulkBatch env batch).Addressed nodes := by
  rw [SqliteStore.bulkBatch]
  split
  next s' counts hw =>
    obtain ⟨t, ht, hn, _⟩ := writeFileGraphsBatch_ok hs hw
    have hta : t.Addressed nodes := by
      refine foldlM_writeFile (P := fun s => s.Addressed nodes) ?_ ht ⟨ha.row, ha.node⟩
      intro s s' file hf hw ha
      exact hw.addressed ha fun n hn => hb (List.mem_flatMap.mpr ⟨file, hf, hn⟩)
    exact ⟨fun r hr => hta.row r (hn ▸ hr), hta.node⟩
  · exact ⟨ha.row, ha.node⟩

/-- A bulk run whose batches, as far as they go through, re-emit in place. -/
def BulkInPlace (env : Env) : SqliteStore → List (List FileGraph) → Prop
  | _, [] => True
  | s, batch :: batches =>
    ((s.writeFileGraphsBatch env batch true).isOk → s.ReemitsInPlace batch) ∧
      BulkInPlace env (s.bulkBatch env batch) batches

theorem BulkIndexed.bulkBatches {batches : List (List FileGraph)} (h : s.BulkIndexed)
    (ha : s.Addressed (batches.flatten.flatMap FileGraph.nodes))
    (hin : s.BulkInPlace env batches) :
    (batches.foldl (SqliteStore.bulkBatch env) s).BulkIndexed := by
  induction batches generalizing s with
  | nil => exact h
  | cons batch batches ih =>
    rw [List.flatten_cons, List.flatMap_append] at ha
    have hb := ha.subset (List.subset_append_left _ _)
    have ha' := @Addressed.bulkBatch env _ _ _ h.unstaged ha (List.subset_append_left _ _)
    exact ih (h.bulkBatch hb hin.1) (ha'.subset (List.subset_append_right _ _)) hin.2

/-- The attribution makes up a file node for the path. -/
def FileNodeMissing (env : Env) (nodes : NodeTable) (corpus path : String) : Prop :=
  (fileRows nodes corpus path).find? (fun r => r.kind = "file") = none ∧
    ¬ nodes.Has (fileNodeRow env nodes corpus path).id ∧
    ¬ nodes.HasIndex (fileNodeRow env nodes corpus path).vname

instance (env : Env) (nodes : NodeTable) (corpus path : String) :
    Decidable (FileNodeMissing env nodes corpus path) := inferInstanceAs (Decidable (_ ∧ _ ∧ _))

/-- Once the nodes of the batch are in, every reference outside the function bodies finds a file
node, or one cannot be made up. -/
def FilesStand (env : Env) (s : SqliteStore) (corpus : String) (nodes : List Node)
    (refs : List ScipRef) : Prop :=
  ∀ ref ∈ refs,
    findNarrowestEnclosing (fetchAllFnSpans (phaseBNodes s nodes).1 corpus ref.callerPath)
      ref.callerLine = none →
    ¬ FileNodeMissing env (phaseBNodes s nodes).1 corpus ref.callerPath

instance (env : Env) (s : SqliteStore) (corpus : String) (nodes : List Node)
    (refs : List ScipRef) : Decidable (FilesStand env s corpus nodes refs) :=
  inferInstanceAs (Decidable (∀ ref ∈ refs, _ → _))

theorem fileNodeForAttribution_nodes {nodes : NodeTable} {corpus path : String}
    (h : ¬ FileNodeMissing env nodes corpus path) :
    (fileNodeForAttribution env nodes corpus path).1 = nodes := by
  rw [fileNodeForAttribution]
  split
  · rfl
  next hf =>
    dsimp only
    by_cases hk : nodes.Has (fileNodeRow env nodes corpus path).id
    · rw [IndexedTable.insertIgnore, dif_pos hk]
    · by_cases hi : nodes.HasIndex (fileNodeRow env nodes corpus path).vname
      · rw [IndexedTable.insertIgnore, dif_neg hk, dif_pos hi]
      · exact absurd ⟨hf, hk, hi⟩ h

theorem attributeRefs_nodes {corpus : String} {nodes : List Node} {refs : List ScipRef}
    {keep : List String} (h : FilesStand env s corpus nodes refs) :
    (s.attributeRefs env corpus (phaseBNodes s nodes).1 refs keep).nodes =
      (phaseBNodes s nodes).1 := by
  rw [FilesStand] at h
  rw [attributeRefs]
  generalize hst : List.foldl (retractOwned corpus keep) _ _ = st
  have hn : st.nodes = (phaseBNodes s nodes).1 := by
    rw [← hst, foldl_retractOwned_nodes]
  clear hst
  generalize (phaseBNodes s nodes).1 = table at h hn ⊢
  induction refs generalizing st with
  | nil => exact hn
  | cons ref refs ih =>
    refine ih _ (fun r hr => h r (List.mem_cons_of_mem _ hr)) ?_
    rw [attributeRef_nodes, attributeCaller, hn]
    split
    · rfl
    next hnone => exact fileNodeForAttribution_nodes (h ref List.mem_cons_self hnone)

theorem Indexed.writeScipAttributedBatch {corpus : String} {nodes : List Node}
    {refs : List ScipRef} (h : s.Indexed) (ha : s.Addressed nodes)
    (hf : FilesStand env s corpus nodes refs) :
    (s.writeScipAttributedBatch env corpus nodes refs).Indexed := by
  rw [SqliteStore.writeScipAttributedBatch, writeScipAttributedBatchKeeping]
  dsimp only
  split_ifs
  · exact h
  · refine ⟨?_, h.unstaged⟩
    dsimp only
    rw [attributeRefs_nodes hf]
    exact @exact_of_phaseBNodes _ (s.nodes, s.lex) ha.keyed h.exact

end SqliteStore

namespace GraphWrite

/-- When a write leaves the index exact: a bulk run re-emits in place, and no file node is made up
for a reference. -/
def KeepsIndex (env : Env) (s : SqliteStore) : GraphWrite → Prop
  | bulkInit batches => s.BulkInPlace env batches
  | writeScipAttributedBatch corpus nodes refs => s.FilesStand env corpus nodes refs
  | _ => True

theorem indexed_apply {env : Env} {s : SqliteStore} {w : GraphWrite} (h : s.Indexed)
    (ha : s.Addressed w.nodes) (hw : w.KeepsIndex env s) : (w.apply env s).Indexed := by
  cases w with
  | putNode n =>
    change ((s.putNode n).toOption.getD s).Indexed
    cases hp : s.putNode n with
    | ok s' => exact h.putNode ha hp
    | error e => exact h
  | writeFileGraphsBatch batch =>
    change (((s.writeFileGraphsBatch env batch false).toOption.map Prod.fst).getD s).Indexed
    cases hp : s.writeFileGraphsBatch env batch false with
    | ok p => exact h.writeFileGraphsBatch ha hp
    | error e => exact h
  | bulkInit batches =>
    have hb : s.BulkIndexed := ⟨.inl h.exact, h.unstaged⟩
    exact (hb.bulkBatches ha hw).rebuild
  | reindexReplace c => exact h.reindexed ha
  | deleteNodesForPath path => exact h.deleteNodesWhere
  | deleteFile corpus path => exact h.deleteFile corpus path
  | deleteNodesForPathPrefix pre => exact h.deleteNodesWhere
  | writePhaseBBatch nodes edges provenance =>
    change ((s.writePhaseBBatch nodes edges provenance).toOption.getD s).Indexed
    cases hp : s.writePhaseBBatch nodes edges provenance with
    | ok s' => exact h.writePhaseBBatch ha hp
    | error e => exact h
  | writeScipAttributedBatch corpus nodes refs => exact h.writeScipAttributedBatch ha hw
  | purgeGraph => exact h.purgeGraph

end GraphWrite

/-- In every state of a run whose writes keep the index, the lexical index is exact. The ids are
hashes, taken to be free of collisions. -/
theorem reachable_lexicallyExact {env : Env} {s : SqliteStore}
    (h : Reachable env (fun s w => s.Addressed w.nodes ∧ w.KeepsIndex env s) s) :
    s.LexicallyExact := by
  have hi : s.Indexed := by
    induction h with
    | empty => exact SqliteStore.indexed_empty
    | step _ hw ih => exact GraphWrite.indexed_apply ih hw.1 hw.2
  exact lexicallyExact_of_exact hi.exact

/-- A file of a Go package: its own node and the package's, which lies under the directory. -/
def packageGraph (path : String) : FileGraph :=
  ⟨path, "h", [parsed path "go" "file" "file", parsed "pkg" "go" "pkg" "go-pkg"], [], none⟩

/-- Two files indexed at once, one of them again in bulk, and a reference from its top level. -/
theorem reachable_lexicallyExact_initial :
    let s := (GraphWrite.putNode (parsed "m.go" "go" "file" "file")).apply lengthEnv .empty
    let t := (GraphWrite.bulkInit [[packageGraph "pkg/a.go", packageGraph "pkg/ab.go"]]).apply
      lengthEnv s
    ((GraphWrite.writeScipAttributedBatch "repo" [parsed "x.go" "go" "func:F" "function"]
      [⟨"pkg/a.go", 3, 10, true, none⟩]).apply lengthEnv t).LexicallyExact := by
  intro s t
  refine @reachable_lexicallyExact lengthEnv _ (.step (.step (.step .empty ?_) ?_) ?_)
  · exact ⟨⟨by decide, by decide⟩, trivial⟩
  · refine ⟨⟨by decide +kernel, by decide +kernel⟩, ⟨fun _ => ?_, trivial⟩⟩
    intro before file after hsplit n hn
    have hnew : ∀ g ∈ [packageGraph "pkg/a.go", packageGraph "pkg/ab.go"], ∀ n ∈ g.nodes,
        ∀ r, r ∈ s.nodes → r.id ≠ n.id := by decide +kernel
    have hfile : file ∈ [packageGraph "pkg/a.go", packageGraph "pkg/ab.go"] := by
      rw [hsplit]
      exact List.mem_append_right _ List.mem_cons_self
    exact .inr fun r hr hid => absurd hid (hnew file hfile n hn r hr)
  · exact ⟨⟨by decide +kernel, by decide +kernel⟩, by
      change SqliteStore.FilesStand _ _ _ _ _
      decide +kernel⟩

/-- A reference outside every function of a file not indexed yet makes up a file node without
index entries; a bulk run that emits a stored package node again leaves it with two postings. -/
theorem reachable_unindexed :
    (∃ s, Reachable lengthEnv (fun s w => s.Addressed w.nodes) s ∧
      s.nodes.rows.length = 2 ∧ s.lex.fts.card = 1 ∧ ¬ s.LexicallyExact) ∧
    ∃ s, Reachable lengthEnv (fun s w => s.Addressed w.nodes) s ∧
      s.nodes.rows.length = 3 ∧ s.lex.fts.card = 4 ∧ ¬ s.LexicallyExact := by
  have hcard : ∀ s : SqliteStore, s.nodes.rows.length ≠ s.lex.fts.card → ¬ s.LexicallyExact := by
    intro s hne h
    rw [h.fts, Multiset.coe_card, List.length_map] at hne
    exact hne rfl
  let fallback : GraphWrite := .writeScipAttributedBatch "repo"
    [parsed "x.go" "go" "func:F" "function"] [⟨"pkg/a.go", 3, 10, true, none⟩]
  let first : GraphWrite := .writeFileGraphsBatch [packageGraph "pkg/a.go"]
  let second : GraphWrite := .bulkInit [[packageGraph "pkg/ab.go"]]
  constructor
  · have hn : (fallback.apply lengthEnv .empty).nodes.rows.length = 2 := by decide +kernel
    have hf : (fallback.apply lengthEnv .empty).lex.fts.card = 1 := by decide +kernel
    refine ⟨_, .step .empty ⟨by decide, by decide⟩, hn, hf, hcard _ ?_⟩
    rw [hn, hf]
    decide
  · have hn : (second.apply lengthEnv (first.apply lengthEnv .empty)).nodes.rows.length = 3 := by
      decide +kernel
    have hf : (second.apply lengthEnv (first.apply lengthEnv .empty)).lex.fts.card = 4 := by
      decide +kernel
    refine ⟨_, .step (.step .empty ⟨by decide, by decide⟩) ⟨?_, by decide⟩, hn, hf, hcard _ ?_⟩
    · decide +kernel
    · rw [hn, hf]
      decide

end Travsr.Store
