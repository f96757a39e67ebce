import Travsr.Store.Staging

namespace Travsr.Store

open Travsr.Core Relational

def Stage.append (stage more : Stage) : Stage :=
  ⟨stage.nodes ++ more.nodes, stage.edges ++ more.edges⟩

namespace SqliteStore

variable {env : Env} {bulk : Bool} {bare : BareRow} {s : SqliteStore} {stage : Stage}
  {batch : List FileGraph}

/-- `begin_staging_tables`, a `write_file_graphs_batch` and the flush, on one connection. -/
def stagedRun (env : Env) (bulk : Bool) (bare : BareRow) (s : SqliteStore)
    (batch : List FileGraph) : SqliteStore × Except StoreError (Nat × Nat) :=
  match s.beginStagingTables.writeFileGraphsBatch env batch bulk with
  | .ok (t, _) => t.flushStagingToProduction bare
  | .error e => (s.beginStagingTables, .error e)

def cleared (s : SqliteStore) : SqliteStore := { s with stage := none }

/-- Where the batch can be written at all, the run writes what it writes on a connection without
temp tables. -/
def WritesAlone (env : Env) (bulk : Bool) (bare : BareRow) (s : SqliteStore)
    (batch : List FileGraph) : Prop :=
  ∀ counts, (s.cleared.stagedRun env bulk bare batch).2 = .ok counts →
    (s.stagedRun env bulk bare batch).2 = .ok counts ∧
      (s.stagedRun env bulk bare batch).1.nodes = (s.cleared.stagedRun env bulk bare batch).1.nodes ∧
      (s.stagedRun env bulk bare batch).1.edges = (s.cleared.stagedRun env bulk bare batch).1.edges

/-- An id is the digest of one vname. -/
def OneName (rows : List NodeRow) : Prop :=
  ∀ a ∈ rows, ∀ b ∈ rows, a.id = b.id → a.vname = b.vname

instance (rows : List NodeRow) : Decidable (OneName rows) :=
  inferInstanceAs (Decidable (∀ a ∈ rows, ∀ b ∈ rows, _))

theorem OneName.subset {rows more : List NodeRow} (h : OneName more) (hs : rows ⊆ more) :
    OneName rows := fun a ha b hb => h a (hs ha) b (hs hb)

/-- The id is a node's once the staged nodes are promoted. -/
def PromotedId (t : NodeTable) (stage : Stage) (x : NodeId) : Prop :=
  t.Has x ∨ ∃ r ∈ stage.nodes, r.id = x

/-- No constraint of the production tables stands against the staged rows: a vname has one id, and
the confidence of an edge that is promoted is at most 100. -/
structure Promotable (t : NodeTable) (stage : Stage) : Prop where
  stored : ∀ a, a ∈ t → ∀ b ∈ stage.nodes, a.vname = b.vname → a.id = b.id
  staged : ∀ a ∈ stage.nodes, ∀ b ∈ stage.nodes, a.vname = b.vname → a.id = b.id
  confidence : ∀ e ∈ stage.edges, PromotedId t stage e.src → PromotedId t stage e.dst →
    confidenceOk e.confidence

/-- A constraint that stands against some rows stands against them whatever is staged beside
them. -/
theorem Promotable.of_append {t : NodeTable} {more : Stage}
    (h : Promotable t (stage.append more)) : Promotable t stage := by
  have hnode : ∀ b ∈ stage.nodes, b ∈ (stage.append more).nodes :=
    fun b hb => List.mem_append_left _ hb
  have hid : ∀ x, PromotedId t stage x → PromotedId t (stage.append more) x :=
    fun x hx => hx.imp_right fun hr => hr.imp fun r hr => ⟨hnode r hr.1, hr.2⟩
  refine ⟨?_, ?_, ?_⟩
  · exact fun a ha b hb => h.stored a ha b (hnode b hb)
  · exact fun a ha b hb => h.staged a (hnode a ha) b (hnode b hb)
  · exact fun e he hsrc hdst =>
      h.confidence e (List.mem_append_left _ he) (hid _ hsrc) (hid _ hdst)

/-! ### When a flush goes through -/

theorem confidenceOk_maxColumn (values : List (Option Nat)) :
    confidenceOk (maxColumn values) = true ↔ ∀ v ∈ values, confidenceOk v = true := by
  obtain ⟨hmem, hle⟩ := maxColumn_spec values
  constructor
  · intro h v hv
    cases v with
    | none => rfl
    | some a =>
      obtain ⟨b, hb, hab⟩ := hle _ hv a rfl
      rw [Option.mem_def.mp hb] at h
      have hb100 : b ≤ 100 := of_decide_eq_true h
      exact decide_eq_true (hab.trans hb100)
  · intro h
    rcases hmem with hnone | hv
    · rw [hnone]
      rfl
    · exact h _ hv

theorem stagedEdges_confidence (edges : List EdgeRow) :
    ((stagedEdges edges).all fun e => confidenceOk e.confidence) = true ↔
      ∀ e ∈ edges, confidenceOk e.confidence = true := by
  rw [List.all_eq_true]
  constructor
  · intro h e he
    have hfind : ((stagedEdges edges).find? fun r => r.key = e.key).isSome := by
      rw [find?_stagedEdges, Option.isSome_map, List.find?_isSome]
      exact ⟨e, he, by simp⟩
    obtain ⟨r, hr⟩ := Option.isSome_iff_exists.mp hfind
    have hok := h r (List.mem_of_find?_eq_some hr)
    rw [find?_stagedEdges] at hr
    obtain ⟨g, _, rfl⟩ := Option.map_eq_some_iff.mp hr
    exact (confidenceOk_maxColumn _).mp hok _
      (List.mem_map.mpr ⟨e, List.mem_filter.mpr ⟨he, by simp⟩, rfl⟩)
  · intro h r hr
    obtain ⟨k, _, hk⟩ := List.mem_filterMap.mp hr
    obtain ⟨g, _, rfl⟩ := Option.map_eq_some_iff.mp hk
    refine (confidenceOk_maxColumn _).mpr fun v hv => ?_
    obtain ⟨e, he, rfl⟩ := List.mem_map.mp hv
    exact h e (List.mem_filter.mp he).1

theorem mem_stagedNodes {r : NodeRow} (h : r ∈ stagedNodes bare stage) :
    ∃ g ∈ stage.nodes, g.id = r.id ∧ g.vname = r.vname := by
  obtain ⟨k, _, hk⟩ := List.mem_filterMap.mp h
  obtain ⟨g, hg, rfl⟩ := Option.map_eq_some_iff.mp hk
  exact ⟨g, (List.mem_filter.mp (bare.mem _ _ hg)).1, rfl, rfl⟩

theorem exists_stagedNodes {g : NodeRow} (hname : OneName stage.nodes) (h : g ∈ stage.nodes) :
    ∃ r ∈ stagedNodes bare stage, r.id = g.id ∧ r.vname = g.vname := by
  have hgroup : stage.nodes.filter (fun r => r.id = g.id) ≠ [] :=
    List.ne_nil_of_mem (List.mem_filter.mpr ⟨h, by simp⟩)
  obtain ⟨b, hb⟩ := Option.isSome_iff_exists.mp (bare.isSome _ hgroup)
  have hmem := List.mem_filter.mp (bare.mem _ _ hb)
  have hid : b.id = g.id := by simpa using hmem.2
  refine ⟨mergeStaged b (stage.nodes.filter fun r => r.id = g.id), ?_, hid,
    hname b hmem.1 g h hid⟩
  refine List.mem_filterMap.mpr ⟨g.id, List.mem_dedup.mpr (List.mem_map_of_mem h), ?_⟩
  dsimp only
  rw [hb]
  rfl

theorem flush_isOk_iff (ha : s.stagingActive = true) (hs : s.stage = some stage)
    (hname : OneName (s.nodes.rows ++ stage.nodes)) :
    (s.flushStagingToProduction bare).2.isOk = true ↔ Promotable s.nodes stage := by
  have hrow := fun (r : NodeRow) => @mem_stagedNodes bare stage r
  have hin : ∀ g ∈ stage.nodes, g ∈ s.nodes.rows ++ stage.nodes :=
    fun g hg => List.mem_append_right _ hg
  have hstage : OneName stage.nodes := fun a ha b hb => hname a (hin a ha) b (hin b hb)
  have hold : ∀ a, a ∈ s.nodes → ∀ b ∈ stagedNodes bare stage, a.id = b.id → a.vname = b.vname := by
    intro a hm b hb hid
    obtain ⟨g, hg, hgi, hgv⟩ := hrow b hb
    exact (hname a (List.mem_append_left _ hm) g (hin g hg) (hid.trans hgi.symm)).trans hgv
  have hnew : ∀ a ∈ stagedNodes bare stage, ∀ b ∈ stagedNodes bare stage,
      a.id = b.id → a.vname = b.vname := by
    intro a hm b hb hid
    obtain ⟨g, hg, hgi, hgv⟩ := hrow a hm
    obtain ⟨g', hg', hgi', hgv'⟩ := hrow b hb
    exact hgv.symm.trans ((hstage g hg g' hg' (hgi.trans (hid.trans hgi'.symm))).trans hgv')
  have hsome := IndexedTable.upsertAll_isSome_iff parseUpdate (stagedNodes bare stage) s.nodes
    hold hnew
  -- the index holds of the selected rows as it holds of the staged ones
  have hindex : (s.nodes.upsertAll parseUpdate (stagedNodes bare stage)).isSome ↔
      (∀ a, a ∈ s.nodes → ∀ b ∈ stage.nodes, a.vname = b.vname → a.id = b.id) ∧
        ∀ a ∈ stage.nodes, ∀ b ∈ stage.nodes, a.vname = b.vname → a.id = b.id := by
    rw [hsome]
    constructor
    · intro h
      refine ⟨fun a hm b hb hv => ?_, fun a hm b hb hv => ?_⟩
      · obtain ⟨r, hr, hri, hrv⟩ := @exists_stagedNodes bare _ _ hstage hb
        exact (h.1 a hm r hr (hv.trans hrv.symm)).trans hri
      · obtain ⟨r, hr, hri, hrv⟩ := @exists_stagedNodes bare _ _ hstage hm
        obtain ⟨r', hr', hri', hrv'⟩ := @exists_stagedNodes bare _ _ hstage hb
        exact hri.symm.trans ((h.2 r hr r' hr' (hrv.trans (hv.trans hrv'.symm))).trans hri')
    · intro h
      refine ⟨fun a hm b hb hv => ?_, fun a hm b hb hv => ?_⟩
      · obtain ⟨g, hg, hgi, hgv⟩ := hrow b hb
        exact (h.1 a hm g hg (hv.trans hgv.symm)).trans hgi
      · obtain ⟨g, hg, hgi, hgv⟩ := hrow a hm
        obtain ⟨g', hg', hgi', hgv'⟩ := hrow b hb
        exact hgi.symm.trans ((h.2 g hg g' hg' (hgv.trans (hv.trans hgv'.symm))).trans hgi')
  rw [flushStagingToProduction, ha, hs]
  dsimp only
  cases hu : s.nodes.upsertAll parseUpdate (stagedNodes bare stage) with
  | none =>
    refine iff_of_false Bool.false_ne_true fun h => ?_
    have hyes := hindex.mpr ⟨h.stored, h.staged⟩
    rw [hu] at hyes
    exact Bool.false_ne_true hyes
  | some nodes =>
    have hkeys := hindex.mp (by rw [hu]; rfl)
    have hhas : ∀ x, nodes.Has x ↔ PromotedId s.nodes stage x := by
      intro x
      rw [Table.has_iff_find?, IndexedTable.find?_of_upsertAll hu, Option.isSome_iff_ne_none, ne_eq,
        IndexedTable.evolve_eq_none, not_and_or, Table.find?_eq_none, not_not]
      refine or_congr_right ⟨fun hne => ?_, fun hr => ?_⟩
      · obtain ⟨r, hr⟩ := List.exists_mem_of_ne_nil _ hne
        obtain ⟨hm, hid⟩ := List.mem_filter.mp hr
        obtain ⟨g, hg, hgi, _⟩ := hrow r hm
        exact ⟨g, hg, hgi.trans (of_decide_eq_true hid)⟩
      · obtain ⟨g, hg, hgi⟩ := hr
        obtain ⟨r, hr, hri, _⟩ := @exists_stagedNodes bare _ _ hstage hg
        exact List.ne_nil_of_mem (List.mem_filter.mpr ⟨hr, decide_eq_true (hri.trans hgi)⟩)
    dsimp only
    have hconf := stagedEdges_confidence
      (stage.edges.filter fun e => nodes.Has e.src ∧ nodes.Has e.dst)
    split_ifs with hall
    · refine iff_of_true rfl ⟨hkeys.1, hkeys.2, fun e he hsrc hdst => ?_⟩
      refine hconf.mp hall e (List.mem_filter.mpr ⟨he, ?_⟩)
      exact decide_eq_true ⟨(hhas _).mpr hsrc, (hhas _).mpr hdst⟩
    · refine iff_of_false Bool.false_ne_true fun h => hall (hconf.mpr fun e he => ?_)
      obtain ⟨hm, hends⟩ := List.mem_filter.mp he
      have hends := of_decide_eq_true hends
      exact h.confidence e hm ((hhas _).mp hends.1) ((hhas _).mp hends.2)

/-- A flush that fails leaves the store as it is, but for the flag: the temp tables stay. -/
theorem flush_of_error {e : StoreError} (h : (s.flushStagingToProduction bare).2 = .error e) :
    s.stagingActive = true ∧
      (s.flushStagingToProduction bare).1 = { s with stagingActive := false } := by
  revert h
  rw [flushStagingToProduction]
  split
  · intro h
    cases h
  next hactive _ => exact fun _ => ⟨hactive, rfl⟩
  next stage hactive hstage =>
    split
    · exact fun _ => ⟨hactive, rfl⟩
    · dsimp only
      split_ifs
      · intro h
        cases h
      · exact fun _ => ⟨hactive, rfl⟩

/-! ### The next run on the connection -/

/-- The maps of the text index take the nodes of a batch: the bulk run's temp table is there, or
there is nothing to record in it. -/
def Recordable (bulk : Bool) (s : SqliteStore) (batch : List FileGraph) : Prop :=
  (s.prepareBulk bulk).lex.pending.isSome = true ∨ ∀ file ∈ batch, file.nodes = []

instance (bulk : Bool) (s : SqliteStore) (batch : List FileGraph) :
    Decidable (Recordable bulk s batch) := inferInstanceAs (Decidable (_ ∨ _))

theorem stageFile_ok {st t : SqliteStore} {file : FileGraph} (hs : st.stage = some stage)
    (h : stageFile env st file = .ok t) :
    t.nodes = st.nodes ∧ t.edges = st.edges ∧ t.stagingActive = st.stagingActive ∧
      t.stage = some (stage.append (stageOf env [file])) := by
  rw [stageFile, hs] at h
  dsimp only at h
  cases hl : file.nodes.foldlM Lexical.putMapOnly st.lex with
  | none =>
    rw [hl] at h
    cases h
  | some lex =>
    rw [hl] at h
    obtain rfl := Except.ok.inj h
    exact ⟨rfl, rfl, rfl, by simp [Stage.append, stageOf]⟩

theorem stageOf_cons (file : FileGraph) (batch : List FileGraph) :
    (stage.append (stageOf env [file])).append (stageOf env batch) =
      stage.append (stageOf env (file :: batch)) := by
  simp [Stage.append, stageOf]

theorem foldlM_stageFile_ok {st t : SqliteStore} (hs : st.stage = some stage)
    (h : batch.foldlM (stageFile env) st = .ok t) :
    t.nodes = st.nodes ∧ t.edges = st.edges ∧ t.stagingActive = st.stagingActive ∧
      t.stage = some (stage.append (stageOf env batch)) := by
  induction batch generalizing st stage with
  | nil =>
    obtain rfl := Except.ok.inj h
    exact ⟨rfl, rfl, rfl, by simpa [Stage.append, stageOf] using hs⟩
  | cons file batch ih =>
    rw [List.foldlM_cons] at h
    cases hfile : stageFile env st file with
    | error e =>
      rw [hfile] at h
      cases h
    | ok u =>
      rw [hfile] at h
      obtain ⟨hn, he, ha, hu⟩ := stageFile_ok hs hfile
      obtain ⟨hn', he', ha', ht⟩ := ih hu h
      exact ⟨hn'.trans hn, he'.trans he, ha'.trans ha, ht.trans (congrArg some (stageOf_cons _ _))⟩

theorem foldlM_stageFile_iff {st : SqliteStore} (hs : st.stage = some stage) :
    (∃ t, batch.foldlM (stageFile env) st = .ok t) ↔
      st.lex.pending.isSome = true ∨ ∀ file ∈ batch, file.nodes = [] := by
  cases hp : st.lex.pending.isSome with
  | true =>
    obtain ⟨t, ht, _⟩ : ∃ t, batch.foldlM (stageFile env) st = .ok t ∧ _ :=
      foldlM_stageFile hs hp
    exact iff_of_true ⟨t, ht⟩ (Or.inl rfl)
  | false =>
    rw [or_iff_right Bool.false_ne_true]
    induction batch generalizing st stage with
    | nil => exact iff_of_true ⟨st, rfl⟩ fun file hf => absurd hf List.not_mem_nil
    | cons file batch ih =>
      rw [List.foldlM_cons, List.forall_mem_cons]
      cases hnodes : file.nodes with
      | nil =>
        obtain ⟨u, hu, huse, hupending⟩ : ∃ u, stageFile env st file = .ok u ∧
            u.stage = some (stage.append (stageOf env [file])) ∧ u.lex = st.lex := by
          have hlex : file.nodes.foldlM Lexical.putMapOnly st.lex = some st.lex := by
            rw [hnodes]
            rfl
          simp only [stageFile, hs, hlex]
          exact ⟨_, rfl, by simp [Stage.append, stageOf], rfl⟩
        rw [hu, and_iff_right rfl]
        exact ih huse (by rw [hupending]; exact hp)
      | cons n nodes =>
        have hlex : file.nodes.foldlM Lexical.putMapOnly st.lex = none := by
          have hnone : st.lex.pending = none := Option.not_isSome_iff_eq_none.mp (by simp [hp])
          rw [hnodes, List.foldlM_cons, Lexical.putMapOnly, hnone]
          rfl
        have hfile : stageFile env st file = .error (.database "staging: put_node_fts_map_only") := by
          rw [stageFile, hs]
          dsimp only
          rw [hlex]
        rw [hfile]
        refine iff_of_false (fun h => ?_) fun h => List.cons_ne_nil n nodes h.1
        obtain ⟨t, ht⟩ := h
        cases ht

theorem beginStaged_write (hs : s.stage.getD ⟨[], []⟩ = stage) :
    (Recordable bulk s batch → ∃ t counts,
      s.beginStagingTables.writeFileGraphsBatch env batch bulk = .ok (t, counts) ∧
        t.nodes = s.nodes ∧ t.edges = s.edges ∧ t.stagingActive = true ∧
        t.stage = some (stage.append (stageOf env batch))) ∧
      (¬ Recordable bulk s batch → ∃ e,
        s.beginStagingTables.writeFileGraphsBatch env batch bulk = .error e) := by
  have hstage : (s.beginStagingTables.prepareBulk bulk).stage = some stage := by
    rw [← hs]
    cases bulk <;> rfl
  have hlex : (s.beginStagingTables.prepareBulk bulk).lex = (s.prepareBulk bulk).lex := by
    cases bulk <;> rfl
  have hiff := @foldlM_stageFile_iff env _ batch _ hstage
  rw [hlex] at hiff
  constructor
  · intro hr
    obtain ⟨t, ht⟩ := hiff.mpr hr
    obtain ⟨hn, he, ha, hst⟩ := foldlM_stageFile_ok hstage ht
    have hwrite : ∃ counts,
        s.beginStagingTables.writeFileGraphsBatch env batch bulk = .ok (t, counts) := by
      rw [writeFileGraphsBatch, if_pos (show s.beginStagingTables.stagingActive = true from rfl), ht]
      exact ⟨_, rfl⟩
    obtain ⟨counts, hwrite⟩ := hwrite
    refine ⟨t, counts, hwrite, hn.trans ?_, he.trans ?_, ha.trans ?_, hst⟩
    · cases bulk <;> rfl
    · cases bulk <;> rfl
    · cases bulk <;> rfl
  · intro hr
    cases ht : batch.foldlM (stageFile env) (s.beginStagingTables.prepareBulk bulk) with
    | ok t => exact absurd (hiff.mp ⟨t, ht⟩) hr
    | error e =>
      refine ⟨e, ?_⟩
      rw [writeFileGraphsBatch, if_pos (show s.beginStagingTables.stagingActive = true from rfl), ht]
      rfl

/-- What a staged run comes to: the rows already in the temp tables and those of the batch are
promoted together. -/
theorem stagedRun_isOk_iff (hs : s.stage.getD ⟨[], []⟩ = stage)
    (hname : OneName (s.nodes.rows ++ (stage.append (stageOf env batch)).nodes)) :
    (s.stagedRun env bulk bare batch).2.isOk = true ↔
      Recordable bulk s batch ∧ Promotable s.nodes (stage.append (stageOf env batch)) := by
  obtain ⟨hok, herr⟩ := @beginStaged_write env bulk s stage batch hs
  by_cases hr : Recordable bulk s batch
  · obtain ⟨t, counts, hw, hn, _, ha, hst⟩ := hok hr
    rw [stagedRun, hw, and_iff_right hr, ← hn]
    exact flush_isOk_iff ha hst (by rw [hn]; exact hname)
  · obtain ⟨e, hw⟩ := herr hr
    rw [stagedRun, hw]
    exact iff_of_false Bool.false_ne_true fun h => hr h.1

/-- A failed flush changes nothing but the flag, and the rows of its batch stay in the temp tables:
the next staged run on the connection writes its own rows alone only where these could not be
written at all. -/
theorem failedFlush_alone_iff (env : Env) (bulk : Bool) (bare bare' : BareRow) (s : SqliteStore)
    (stage : Stage) (batch : List FileGraph) (e : StoreError) (hstage : s.stage = some stage)
    (hfail : (s.flushStagingToProduction bare).2 = .error e)
    (hname : OneName (s.nodes.rows ++ (stage.append (stageOf env batch)).nodes)) :
    (s.flushStagingToProduction bare).1 = { s with stagingActive := false } ∧
      (WritesAlone env bulk bare' (s.flushStagingToProduction bare).1 batch ↔
        ¬ (Recordable bulk s batch ∧ Promotable s.nodes (stageOf env batch))) := by
  obtain ⟨hactive, hleft⟩ := flush_of_error hfail
  refine ⟨hleft, ?_⟩
  rw [hleft]
  have hrecord : ∀ t : Option Stage,
      Recordable bulk { s with stage := t, stagingActive := false } batch ↔
        Recordable bulk s batch := by
    intro t
    cases bulk <;> exact Iff.rfl
  have hsub : ∀ rows, rows ⊆ (stage.append (stageOf env batch)).nodes →
      s.nodes.rows ++ rows ⊆ s.nodes.rows ++ (stage.append (stageOf env batch)).nodes :=
    fun rows h => List.append_subset.mpr
      ⟨List.subset_append_left _ _, List.subset_append_of_subset_right _ h⟩
  have hclean := @stagedRun_isOk_iff env bulk bare'
    { s with stage := none, stagingActive := false } ⟨[], []⟩ batch rfl
    (hname.subset (hsub _ fun r hr => List.mem_append_right _ hr))
  have hagain := @stagedRun_isOk_iff env bulk bare' { s with stagingActive := false } stage batch
    (by rw [hstage]; rfl) hname
  have hstuck : ¬ Promotable s.nodes (stage.append (stageOf env batch)) := by
    intro h
    have hok := (@flush_isOk_iff bare s stage hactive hstage
      (hname.subset (hsub _ fun r hr => List.mem_append_left _ hr))).mpr h.of_append
    rw [hfail] at hok
    exact Bool.false_ne_true hok
  rw [hrecord] at hclean hagain
  constructor
  · intro halone hr
    obtain ⟨counts, hcounts⟩ := exists_ok (hclean.mpr hr)
    have hok := (halone counts hcounts).1
    exact hstuck (hagain.mp (by rw [hok]; rfl)).2
  · intro hno counts hcounts
    exact absurd (hclean.mp ((congrArg Except.isOk hcounts).trans rfl)) hno

def overconfidentGraph : FileGraph :=
  { importerGraph none with edges := [⟨8, 17, .definesBinding, some 200, none⟩] }

def overconfidentStore : SqliteStore :=
  match empty.beginStagingTables.writeFileGraphsBatch lengthEnv [overconfidentGraph] true with
  | .ok (t, _) => t
  | .error _ => empty

theorem failedFlush_alone_overconfident :
    empty.stagedRun lengthEnv true .first [overconfidentGraph] =
        overconfidentStore.flushStagingToProduction .first ∧
      (overconfidentStore.flushStagingToProduction .first).1 =
        { overconfidentStore with stagingActive := false } ∧
      (WritesAlone lengthEnv true .first
          (overconfidentStore.flushStagingToProduction .first).1 [importedGraph (some 90)] ↔
        ¬ (Recordable true overconfidentStore [importedGraph (some 90)] ∧
          Promotable overconfidentStore.nodes (stageOf lengthEnv [importedGraph (some 90)]))) :=
  ⟨rfl, failedFlush_alone_iff lengthEnv true .first .first overconfidentStore
    (stageOf lengthEnv [overconfidentGraph]) [importedGraph (some 90)]
    (.database "inserting edges from staging") rfl rfl (by decide +kernel)⟩

/-- The run after the failed one fails on the rows that were left, and writes none of its own. -/
theorem failedFlush_poisons_next :
    let failed := overconfidentStore.flushStagingToProduction .first
    let next := failed.1.stagedRun lengthEnv true .first [importedGraph (some 90)]
    failed.2.isOk = false ∧ next.2.isOk = false ∧ next.1.nodes.rows = [] ∧
      (failed.1.cleared.stagedRun lengthEnv true .first [importedGraph (some 90)]).2.isOk = true ∧
      ¬ WritesAlone lengthEnv true .first failed.1 [importedGraph (some 90)] := by
  have hfailed : (overconfidentStore.flushStagingToProduction .first).2.isOk = false := by
    decide +kernel
  have hnext : ((overconfidentStore.flushStagingToProduction .first).1.stagedRun lengthEnv true
      .first [importedGraph (some 90)]).2.isOk = false := by decide +kernel
  have hrows : ((overconfidentStore.flushStagingToProduction .first).1.stagedRun lengthEnv true
      .first [importedGraph (some 90)]).1.nodes.rows = [] := by decide +kernel
  have halone : ((overconfidentStore.flushStagingToProduction .first).1.cleared.stagedRun lengthEnv
      true .first [importedGraph (some 90)]).2.isOk = true := by decide +kernel
  refine ⟨hfailed, hnext, hrows, halone, fun hw => ?_⟩
  obtain ⟨counts, hcounts⟩ := exists_ok halone
  have hok := (hw counts hcounts).1
  rw [hok] at hnext
  exact Bool.noConfusion hnext

end SqliteStore

end Travsr.Store
