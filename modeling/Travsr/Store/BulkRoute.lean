import Travsr.Store.LexicalRuns

namespace Travsr.Store

open Travsr.Core Relational Postings

/-- The same postings, map rows and refcounts. -/
structure SameIndex (a b : Lexical) : Prop where
  fts : a.fts = b.fts
  ftsMap : (a.ftsMap.rows : Multiset FtsMapRow) = b.ftsMap.rows
  words : a.words = b.words
  wordsMap : (a.wordsMap.rows : Multiset WordsMapRow) = b.wordsMap.rows
  vocab : ∀ tok, refcount a.vocab tok = refcount b.vocab tok

theorem SameIndex.of_exact {a b : Lexical} {nodes : NodeTable} (ha : a.Exact nodes)
    (hb : b.Exact nodes) : SameIndex a b := by
  have hmap : ∀ {x : Lexical}, x.Exact nodes → (x.ftsMap.rows : Multiset FtsMapRow) = _ :=
    fun hx => rows_of_find? (u := nodes.toTable) (fun _ => rfl) hx.ftsMap
  have hwords : ∀ {x : Lexical}, x.Exact nodes → (x.wordsMap.rows : Multiset WordsMapRow) = _ :=
    fun hx => rows_of_find? (u := nodes.toTable) (fun _ => rfl) hx.wordsMap
  have hftsMap := (hmap ha).trans (hmap hb).symm
  have hwordsMap := (hwords ha).trans (hwords hb).symm
  refine ⟨?_, hftsMap, ?_, hwordsMap, ?_⟩
  · rw [faithful_none.mp ha.fts, faithful_none.mp hb.fts, hftsMap]
  · rw [faithful_none.mp ha.words, faithful_none.mp hb.words, hwordsMap]
  · intro tok
    rw [ha.vocab, hb.vocab, hftsMap]

namespace SqliteStore

variable {env : Env} {s t u : SqliteStore} {file : FileGraph} {batch : List FileGraph}

def bulkRoute (env : Env) (s : SqliteStore) (batch : List FileGraph) : SqliteStore :=
  (s.bulkBatch env batch).rebuildFtsFromMap

def perNodeRoute (env : Env) (s : SqliteStore) (batch : List FileGraph) : SqliteStore :=
  ((s.writeFileGraphsBatch env batch false).toOption.map Prod.fst).getD s

/-- The routes leave one index, and another rebuild succeeds and changes nothing. -/
structure RoutesAgree (env : Env) (s : SqliteStore) (batch : List FileGraph) : Prop where
  index : SameIndex (s.bulkRoute env batch).lex (s.perNodeRoute env batch).lex
  again : (s.bulkRoute env batch).lex.rebuildFtsFromMap = .ok (s.bulkRoute env batch).lex

/-! ### Both routes write the same rows -/

theorem putMapOnly_isSome {lex : Lexical} (h : lex.pending.isSome) (nodes : List Node) :
    ∃ lex', nodes.foldlM Lexical.putMapOnly lex = some lex' ∧ lex'.pending.isSome := by
  induction nodes generalizing lex with
  | nil => exact ⟨lex, rfl, h⟩
  | cons n nodes ih =>
    obtain ⟨ids, hids⟩ := Option.isSome_iff_exists.mp h
    rw [List.foldlM_cons, Lexical.putMapOnly, hids]
    exact ih rfl

/-- One file over stores that differ in their index at most: both routes fail, or both go through
and leave the same rows. -/
theorem writeFile_routes (u : SqliteStore) {lex : Lexical} (h : lex.pending.isSome)
    (file : FileGraph) :
    (∃ e e', writeFile env true { u with lex := lex } file = .error e ∧
      writeFile env false u file = .error e') ∨
    ∃ u' lex', writeFile env true { u with lex := lex } file = .ok { u' with lex := lex' } ∧
      writeFile env false u file = .ok u' ∧ lex'.pending.isSome := by
  have hids : ({ u with lex := lex } : SqliteStore).scopeIds file = u.scopeIds file := rfl
  obtain ⟨lex', hlex, hpending⟩ :=
    @putMapOnly_isSome (lex.retract (u.scopeIds file)) h file.nodes
  have hbulk : indexNodes true (lex.retract (u.scopeIds file)) file.nodes = .ok lex' := by
    rw [indexNodes, if_pos rfl, hlex]
  have hnode : indexNodes false (u.lex.retract (u.scopeIds file)) file.nodes =
      .ok (file.nodes.foldl Lexical.put (u.lex.retract (u.scopeIds file))) := rfl
  unfold writeFile
  rw [hids]
  cases hn : insertNodes "inserting node in batch" (file.hashes env)
      (u.nodes.deleteWhere fun r => file.InScope r) file.nodes with
  | error e => exact .inl ⟨e, e, rfl, rfl⟩
  | ok nodes =>
    right
    simp only [bind, Except.bind, hbulk, hnode]
    exact ⟨_, lex', rfl, rfl, hpending⟩

theorem foldlM_writeFile_routes (u : SqliteStore) {lex : Lexical} (h : lex.pending.isSome)
    (batch : List FileGraph) :
    (∃ e e', batch.foldlM (writeFile env true) { u with lex := lex } = .error e ∧
      batch.foldlM (writeFile env false) u = .error e') ∨
    ∃ u' lex', batch.foldlM (writeFile env true) { u with lex := lex } =
        .ok { u' with lex := lex' } ∧
      batch.foldlM (writeFile env false) u = .ok u' := by
  induction batch generalizing u lex with
  | nil => exact .inr ⟨u, lex, rfl, rfl⟩
  | cons file batch ih =>
    simp only [List.foldlM_cons, bind, Except.bind]
    rcases @writeFile_routes env u _ h file with ⟨e, e', ht, hu⟩ | ⟨u', lex', ht, hu, hp⟩
    · rw [ht, hu]
      exact .inl ⟨e, e', rfl, rfl⟩
    · rw [ht, hu]
      exact ih u' hp

theorem nodes_routes (hs : s.stagingActive = false) (batch : List FileGraph) :
    (s.bulkRoute env batch).nodes = (s.perNodeRoute env batch).nodes := by
  have hrebuild : ∀ v : SqliteStore, v.rebuildFtsFromMap.nodes = v.nodes := by
    intro v
    unfold rebuildFtsFromMap
    split <;> rfl
  have hbegin : (s.lex.beginBulkFtsTracking).pending.isSome := rfl
  have hstage : ¬ s.stagingActive = true := by simp [hs]
  rw [bulkRoute, hrebuild, bulkBatch, perNodeRoute]
  simp only [writeFileGraphsBatch, if_neg hstage, Bool.false_eq_true, if_false, prepareBulk,
    if_true, bind, Except.bind, pure, Except.pure]
  rcases @foldlM_writeFile_routes env s _ hbegin batch with
    ⟨e, e', ht, hu⟩ | ⟨u, lex, ht, hu⟩
  · rw [ht, hu]
    rfl
  · rw [ht, hu]
    have hguard : ({ u with lex := lex } : SqliteStore).guardedEdges batch =
        u.guardedEdges batch := rfl
    simp only [hguard]
    cases insertEdges "inserting edge in batch" u.edges (u.guardedEdges batch) <;> rfl

/-! ### The routes and the rebuild after them -/

theorem rebuild_again (env : Env) (s : SqliteStore) (batch : List FileGraph) :
    (s.bulkRoute env batch).lex.rebuildFtsFromMap =
      .error (.database "bulk-inserting nodes_fts + nodes_fts_words from pending nodes") := by
  have hpending : ∀ v : SqliteStore, v.rebuildFtsFromMap.lex.pending = none := by
    intro v
    unfold rebuildFtsFromMap Lexical.rebuildFtsFromMap
    cases hv : v.lex.pending with
    | none => exact hv
    | some ids => rfl
  rw [Lexical.rebuildFtsFromMap, bulkRoute, hpending]

theorem index_routes (h : s.Indexed) (ha : s.Addressed (batch.flatMap FileGraph.nodes))
    (hin : (s.writeFileGraphsBatch env batch true).isOk → s.ReemitsInPlace batch) :
    SameIndex (s.bulkRoute env batch).lex (s.perNodeRoute env batch).lex := by
  have hbulk : (s.bulkRoute env batch).Indexed :=
    (BulkIndexed.bulkBatch ⟨.inl h.exact, h.unstaged⟩ ha hin).rebuild
  have hnode : (s.perNodeRoute env batch).Indexed :=
    @GraphWrite.indexed_apply env s (.writeFileGraphsBatch batch) h ha trivial
  have hexact := hbulk.exact
  rw [nodes_routes h.unstaged] at hexact
  exact SameIndex.of_exact hexact hnode.exact

/-- The routes never agree in all that is asked of them: a rebuild after the bulk route fails. They
do leave one index when the nodes of the batch that are stored already are emitted in place. -/
theorem routes_never_agree (env : Env) (s : SqliteStore) (batch : List FileGraph) :
    ¬ RoutesAgree env s batch ∧
    (s.Indexed → s.Addressed (batch.flatMap FileGraph.nodes) →
      ((s.writeFileGraphsBatch env batch true).isOk → s.ReemitsInPlace batch) →
      SameIndex (s.bulkRoute env batch).lex (s.perNodeRoute env batch).lex) := by
  refine ⟨fun h => ?_, index_routes⟩
  have hagain := h.again
  rw [rebuild_again] at hagain
  cases hagain

end SqliteStore

/-- The two files of a package, into an empty store. -/
theorem routes_never_agree_package :
    ¬ SqliteStore.RoutesAgree lengthEnv .empty
        [packageGraph "pkg/a.go", packageGraph "pkg/ab.go"] ∧
      SameIndex
        (SqliteStore.empty.bulkRoute lengthEnv
          [packageGraph "pkg/a.go", packageGraph "pkg/ab.go"]).lex
        (SqliteStore.empty.perNodeRoute lengthEnv
          [packageGraph "pkg/a.go", packageGraph "pkg/ab.go"]).lex := by
  have h := SqliteStore.routes_never_agree lengthEnv .empty
    [packageGraph "pkg/a.go", packageGraph "pkg/ab.go"]
  refine ⟨h.1, h.2 SqliteStore.indexed_empty ?_ fun _ => ?_⟩
  · exact ⟨by decide, by decide +kernel⟩
  · intro before file after _ n _
    exact .inr fun r hr => absurd hr (by simp [SqliteStore.empty])

/-- With the first file stored, the bulk write of the second one leaves four postings for three
nodes, and the rebuild cannot be repeated. -/
theorem routes_differ_on_package_node :
    let s := SqliteStore.empty.perNodeRoute lengthEnv [packageGraph "pkg/a.go"]
    let batch := [packageGraph "pkg/ab.go"]
    s.LexicallyExact ∧ (s.perNodeRoute lengthEnv batch).lex.fts.card = 3 ∧
      (s.bulkRoute lengthEnv batch).lex.fts.card = 4 ∧
      (s.bulkRoute lengthEnv batch).lex.rebuildFtsFromMap.isOk = false ∧
      ¬ s.RoutesAgree lengthEnv batch := by
  intro s batch
  have hexact : s.LexicallyExact := by
    have ha : SqliteStore.empty.Addressed ([packageGraph "pkg/a.go"].flatMap FileGraph.nodes) :=
      ⟨by decide, by decide⟩
    exact lexicallyExact_of_exact (@GraphWrite.indexed_apply lengthEnv _
      (.writeFileGraphsBatch [packageGraph "pkg/a.go"]) SqliteStore.indexed_empty ha trivial).exact
  have hnode : (s.perNodeRoute lengthEnv batch).lex.fts.card = 3 := by decide +kernel
  have hbulk : (s.bulkRoute lengthEnv batch).lex.fts.card = 4 := by decide +kernel
  refine ⟨hexact, hnode, hbulk, by rw [SqliteStore.rebuild_again]; rfl, fun h => ?_⟩
  rw [h.index.fts, hnode] at hbulk
  cases hbulk

end Travsr.Store
