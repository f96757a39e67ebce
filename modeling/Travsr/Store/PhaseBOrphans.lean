import Travsr.Store.PhaseB

namespace Travsr.Store

open Travsr.Core Relational

theorem phaseBNode_nodes (st : NodeTable × Lexical) (n : Node) :
    (phaseBNode st n).1 = st.1.upsertSkip { NodeRow.ofNode n none with testRole := .none }
      (phaseBUpdate { NodeRow.ofNode n none with testRole := .none }) := by
  simp only [phaseBNode, IndexedTable.upsertSkip]
  cases st.1.upsert { NodeRow.ofNode n none with testRole := .none }
    (phaseBUpdate { NodeRow.ofNode n none with testRole := .none }) <;> rfl

theorem has_phaseBNode {st : NodeTable × Lexical} {n : Node} {x : NodeId} :
    (phaseBNode st n).1.Has x ↔ st.1.Has x ∨ (n.id = x ∧ ¬ st.1.HasIndex n.vname) := by
  rw [phaseBNode_nodes, IndexedTable.has_upsertSkip]
  rfl

/-- A node of the batch is stored afterwards unless a row holds its vname under another id. -/
theorem has_foldl_phaseBNode {nodes : List Node} {st : NodeTable × Lexical}
    (hid : ∀ n ∈ nodes, ∀ m ∈ nodes, n.vname = m.vname → n.id = m.id) {x : NodeId} :
    (nodes.foldl phaseBNode st).1.Has x ↔
      st.1.Has x ∨ ∃ n ∈ nodes, n.id = x ∧ ¬ st.1.HasIndex n.vname := by
  induction nodes generalizing st with
  | nil => simp
  | cons m nodes ih =>
    have hrest : ∀ n ∈ nodes, ∀ k ∈ nodes, n.vname = k.vname → n.id = k.id :=
      fun n hn k hk => hid n (List.mem_cons_of_mem _ hn) k (List.mem_cons_of_mem _ hk)
    have hindex : ∀ v, (phaseBNode st m).1.HasIndex v ↔
        st.1.HasIndex v ∨ (m.vname = v ∧ ¬ st.1.Has m.id ∧ ¬ st.1.HasIndex m.vname) := by
      intro v
      rw [phaseBNode_nodes, IndexedTable.hasIndex_upsertSkip]
      rfl
    rw [List.foldl_cons, ih hrest, has_phaseBNode]
    constructor
    · intro h
      rcases h with (h | ⟨hx, hi⟩) | ⟨n, hn, hx, hi⟩
      · exact .inl h
      · exact .inr ⟨m, List.mem_cons_self, hx, hi⟩
      · exact .inr ⟨n, List.mem_cons_of_mem _ hn, hx, fun h => hi ((hindex _).mpr (.inl h))⟩
    · intro h
      rcases h with h | ⟨n, hn, hx, hi⟩
      · exact .inl (.inl h)
      rcases List.mem_cons.mp hn with rfl | hn'
      · exact .inl (.inr ⟨hx, hi⟩)
      · by_cases hm : (phaseBNode st m).1.HasIndex n.vname
        · rcases (hindex _).mp hm with hm | ⟨hv, _, hmi⟩
          · exact absurd hm hi
          · have := hid m List.mem_cons_self n hn hv
            exact .inl (.inr ⟨this.trans hx, hmi⟩)
        · exact .inr ⟨n, hn', hx, hm⟩

theorem has_foldl_putPhaseBEdge {provenance : String} {edges : List Edge} {t : EdgeTable}
    {k : NodeId × NodeId × EdgeKind} :
    (edges.foldl (putPhaseBEdge provenance) t).Has k ↔
      t.Has k ∨ ∃ e ∈ edges, (e.src, e.dst, e.kind) = k := by
  exact Table.has_foldl_upsert (fun e : Edge => ⟨e.src, e.dst, e.kind, provenance, e.confidence⟩)
    (fun e => phaseBEdgeUpdate ⟨e.src, e.dst, e.kind, provenance, e.confidence⟩)
    (fun _ => phaseBEdgeUpdate_key _)

namespace SqliteStore

theorem noOrphans_iff_keys {s : SqliteStore} :
    s.NoOrphans ↔ ∀ k, s.edges.Has k → s.Stored k.1 ∧ s.Stored k.2.1 := by
  constructor
  · intro h k ⟨e, he, hk⟩
    subst hk
    exact h e he
  · intro h e he
    exact h e.key ⟨e, he, rfl⟩

/-- A row holds the vname of every node of the batch with this id, which itself is not stored. -/
def Refused (s : SqliteStore) (nodes : List Node) (x : NodeId) : Prop :=
  ¬ s.Stored x ∧ (∃ n ∈ nodes, n.id = x) ∧ ∀ n ∈ nodes, n.id = x → s.nodes.HasIndex n.vname

/-- The node is stored or named by the batch. -/
def Named (s : SqliteStore) (nodes : List Node) (x : NodeId) : Prop :=
  s.Stored x ∨ ∃ n ∈ nodes, n.id = x

instance (s : SqliteStore) (nodes : List Node) (x : NodeId) : Decidable (s.Refused nodes x) :=
  inferInstanceAs (Decidable (_ ∧ (∃ n ∈ nodes, _) ∧ ∀ n ∈ nodes, _ → _))

instance (s : SqliteStore) (nodes : List Node) (x : NodeId) : Decidable (s.Named nodes x) :=
  inferInstanceAs (Decidable (_ ∨ ∃ n ∈ nodes, _))

/-- The edges the guard lets through have no refused end. -/
def Unrefused (s : SqliteStore) (nodes : List Node) (edges : List Edge) : Prop :=
  ∀ e ∈ edges, s.Named nodes e.src → s.Named nodes e.dst →
    ¬ s.Refused nodes e.src ∧ ¬ s.Refused nodes e.dst

instance (s : SqliteStore) (nodes : List Node) (edges : List Edge) :
    Decidable (s.Unrefused nodes edges) := inferInstanceAs (Decidable (∀ e ∈ edges, _))

variable {env : Env} {s s' : SqliteStore} {nodes : List Node} {edges : List Edge}
  {provenance corpus : String}

theorem has_phaseBNodes (hid : ∀ n ∈ nodes, n.id = env.vnameId n.vname) {x : NodeId} :
    (phaseBNodes s nodes).1.Has x ↔ s.Named nodes x ∧ ¬ s.Refused nodes x := by
  have hv : ∀ n ∈ nodes, ∀ m ∈ nodes, n.vname = m.vname → n.id = m.id := by
    intro n hn m hm h
    rw [hid n hn, hid m hm, h]
  rw [phaseBNodes, has_foldl_phaseBNode hv]
  constructor
  · intro h
    rcases h with h | ⟨n, hn, hx, hi⟩
    · exact ⟨.inl h, fun hr => hr.1 h⟩
    · exact ⟨.inr ⟨n, hn, hx⟩, fun hr => hi (hr.2.2 n hn hx)⟩
  · intro ⟨hn, hr⟩
    by_cases hs : s.Stored x
    · exact .inl hs
    · right
      have hex := hn.resolve_left hs
      by_contra hno
      refine hr ⟨hs, hex, ?_⟩
      intro n hn hx
      by_contra hi
      exact hno ⟨n, hn, hx, hi⟩

theorem endpointPresent_iff (hid : ∀ n ∈ nodes, n.id = env.vnameId n.vname) {x : NodeId} :
    s.endpointPresent nodes x ↔ s.Named nodes x := by
  rw [endpointPresent, has_phaseBNodes hid, List.mem_map]
  constructor
  · intro h
    exact h.elim .inr And.left
  · intro h
    rcases h with h | h
    · exact .inr ⟨.inl h, fun hr => hr.1 h⟩
    · exact .inl h

theorem writePhaseBBatch_ok (h : s.writePhaseBBatch nodes edges provenance = .ok s') :
    s'.nodes = (phaseBNodes s nodes).1 ∧ s'.lex = (phaseBNodes s nodes).2 ∧
      s'.edges = (edges.filter fun e => s.endpointPresent nodes e.src ∧
        s.endpointPresent nodes e.dst).foldl (putPhaseBEdge provenance) s.edges ∧
      s'.sites = s.sites := by
  unfold writePhaseBBatch at h
  split_ifs at h with he
  · obtain rfl := Except.ok.inj h
    simp only [Bool.and_eq_true, List.isEmpty_iff] at he
    rw [he.1, he.2]
    exact ⟨rfl, rfl, rfl, rfl⟩
  · dsimp only at h
    split_ifs at h
    obtain rfl := Except.ok.inj h
    exact ⟨rfl, rfl, rfl, rfl⟩

theorem writePhaseBBatch_noOrphans_iff (h0 : s.NoOrphans)
    (hid : ∀ n ∈ nodes, n.id = env.vnameId n.vname)
    (h : s.writePhaseBBatch nodes edges provenance = .ok s') :
    s'.NoOrphans ↔ s.Unrefused nodes edges := by
  obtain ⟨hn, _, he, _⟩ := writePhaseBBatch_ok h
  have hst : ∀ x, s'.Stored x ↔ s.Named nodes x ∧ ¬ s.Refused nodes x := by
    intro x
    rw [Stored, hn]
    exact has_phaseBNodes hid
  have hkeep : ∀ x, s.Stored x → s.Named nodes x ∧ ¬ s.Refused nodes x :=
    fun x hx => ⟨.inl hx, fun hr => hr.1 hx⟩
  rw [noOrphans_iff_keys]
  simp only [he, has_foldl_putPhaseBEdge, List.mem_filter, decide_eq_true_eq,
    endpointPresent_iff hid, hst]
  constructor
  · intro hk e hem hsrc hdst
    have := hk (e.src, e.dst, e.kind) (.inr ⟨e, ⟨hem, hsrc, hdst⟩, rfl⟩)
    exact ⟨this.1.2, this.2.2⟩
  · intro hg k hk
    rcases hk with hk | ⟨e, ⟨hem, hsrc, hdst⟩, rfl⟩
    · have := noOrphans_iff_keys.mp h0 k hk
      exact ⟨hkeep _ this.1, hkeep _ this.2⟩
    · exact ⟨⟨hsrc, (hg e hem hsrc hdst).1⟩, ⟨hdst, (hg e hem hsrc hdst).2⟩⟩

end SqliteStore

/-- The file node cannot be made up: another row holds its vname. -/
def FileNodeRefused (env : Env) (nodes : NodeTable) (corpus path : String) : Prop :=
  (fileRows nodes corpus path).find? (fun r => r.kind = "file") = none ∧
    ¬ nodes.Has (fileNodeRow env nodes corpus path).id ∧
    nodes.HasIndex (fileNodeRow env nodes corpus path).vname

instance (env : Env) (nodes : NodeTable) (corpus path : String) :
    Decidable (FileNodeRefused env nodes corpus path) := inferInstanceAs (Decidable (_ ∧ _ ∧ _))

/-- The reference falls back to a file node that is refused. -/
def Unattributed (env : Env) (corpus : String) (spans : String → List FnSpan) (nodes : NodeTable)
    (ref : ScipRef) : Prop :=
  findNarrowestEnclosing (spans ref.callerPath) ref.callerLine = none ∧
    FileNodeRefused env nodes corpus ref.callerPath

instance (env : Env) (corpus : String) (spans : String → List FnSpan) (nodes : NodeTable)
    (ref : ScipRef) : Decidable (Unattributed env corpus spans nodes ref) :=
  inferInstanceAs (Decidable (_ ∧ _))

/-- The reference becomes an edge once it has a caller. -/
def MakesEdge (nodes : NodeTable) (ref : ScipRef) : Prop :=
  (nodes.find? ref.calleeId).any fun r => r.kind = "field" || ref.isCall

instance (nodes : NodeTable) (ref : ScipRef) : Decidable (MakesEdge nodes ref) :=
  inferInstanceAs (Decidable (_ = true))

/-- No reference, when its turn comes, makes an edge from a file node that is refused. -/
def Attributable (env : Env) (corpus : String) (spans : String → List FnSpan) :
    NodeTable → List ScipRef → Prop
  | _, [] => True
  | nodes, ref :: refs =>
    ¬ (Unattributed env corpus spans nodes ref ∧ MakesEdge nodes ref) ∧
      Attributable env corpus spans (attributeCaller env corpus spans nodes ref).1 refs

instance decidableAttributable (env : Env) (corpus : String) (spans : String → List FnSpan) :
    ∀ (nodes : NodeTable) (refs : List ScipRef), Decidable (Attributable env corpus spans nodes refs)
  | _, [] => inferInstanceAs (Decidable True)
  | nodes, ref :: refs =>
    have := decidableAttributable env corpus spans (attributeCaller env corpus spans nodes ref).1 refs
    inferInstanceAs (Decidable (¬ (_ ∧ _) ∧ _))

def Attribution.Closed (st : Attribution) : Prop :=
  ∀ k, st.edges.Has k → st.nodes.Has k.1 ∧ st.nodes.Has k.2.1

def Attribution.Hanging (env : Env) (corpus : String) (paths : List String) (st : Attribution) :
    Prop :=
  ∃ path ∈ paths, FileNodeRefused env st.nodes corpus path ∧
    ∃ k, st.edges.Has k ∧ k.1 = (fileNodeRow env st.nodes corpus path).id

def FilesGrown (corpus : String) (base nodes : NodeTable) : Prop :=
  (∀ x, base.Has x → nodes.Has x) ∧
    ∀ path, fileRows nodes corpus path = fileRows base corpus path ∨
      ((fileRows nodes corpus path).find? (fun r => r.kind = "file")).isSome

variable {env : Env} {corpus : String} {base nodes : NodeTable} {paths : List String}

theorem fileRows_insertIgnore {row : NodeRow} {path : String} :
    fileRows (nodes.insertIgnore row) corpus path = fileRows nodes corpus path ∨
      (¬ nodes.Has row.id ∧ ¬ nodes.HasIndex row.vname ∧ row.vname.corpus = corpus ∧
        row.vname.path = path ∧
        fileRows (nodes.insertIgnore row) corpus path = fileRows nodes corpus path ++ [row]) := by
  unfold IndexedTable.insertIgnore
  split_ifs with hk hi
  · exact .inl rfl
  · exact .inl rfl
  · by_cases hp : row.vname.corpus = corpus ∧ row.vname.path = path
    · refine .inr ⟨hk, hi, hp.1, hp.2, ?_⟩
      simp [fileRows, IndexedTable.insert, hp]
    · left
      simpa [fileRows, IndexedTable.insert] using hp

theorem has_insertIgnore {row : NodeRow} {x : NodeId} :
    (nodes.insertIgnore row).Has x ↔
      nodes.Has x ∨ (row.id = x ∧ ¬ nodes.Has row.id ∧ ¬ nodes.HasIndex row.vname) := by
  constructor
  · intro ⟨r, hr, hx⟩
    rcases IndexedTable.mem_insertIgnore.mp hr with hr | ⟨rfl, h⟩
    · exact .inl ⟨r, hr, hx⟩
    · exact .inr ⟨hx, h⟩
  · intro h
    rcases h with ⟨r, hr, hx⟩ | ⟨hx, h⟩
    · exact ⟨r, IndexedTable.mem_insertIgnore.mpr (.inl hr), hx⟩
    · exact ⟨row, IndexedTable.mem_insertIgnore.mpr (.inr ⟨rfl, h⟩), hx⟩

theorem hasIndex_insertIgnore {row : NodeRow} {v : VName} (h : nodes.HasIndex v) :
    (nodes.insertIgnore row).HasIndex v := by
  obtain ⟨r, hr, hv⟩ := h
  exact ⟨r, IndexedTable.mem_insertIgnore.mpr (.inl hr), hv⟩

theorem fileNodeRow_congr {path : String}
    (h : fileRows nodes corpus path = fileRows base corpus path) :
    fileNodeRow env nodes corpus path = fileNodeRow env base corpus path := by
  rw [fileNodeRow, fileNodeRow, h]

theorem fileNodeForAttribution_spec (path : String) :
    (¬ FileNodeRefused env nodes corpus path ∧
        (fileNodeForAttribution env nodes corpus path).1.Has
          (fileNodeForAttribution env nodes corpus path).2) ∨
      (FileNodeRefused env nodes corpus path ∧
        fileNodeForAttribution env nodes corpus path =
          (nodes, (fileNodeRow env nodes corpus path).id)) := by
  unfold fileNodeForAttribution
  split
  next r hr =>
    refine .inl ⟨fun h => ?_, ?_⟩
    · rw [h.1] at hr
      cases hr
    · have hm := (List.mem_filter.mp (List.mem_of_find?_eq_some hr)).1
      exact Table.has_of_mem (t := nodes.toTable) hm
  next hf =>
    dsimp only
    by_cases hk : nodes.Has (fileNodeRow env nodes corpus path).id
    · exact .inl ⟨fun h => h.2.1 hk, has_insertIgnore.mpr (.inl hk)⟩
    · by_cases hi : nodes.HasIndex (fileNodeRow env nodes corpus path).vname
      · refine .inr ⟨⟨hf, hk, hi⟩, ?_⟩
        rw [IndexedTable.insertIgnore, dif_neg hk, dif_pos hi]
      · exact .inl ⟨fun h => hi h.2.2, has_insertIgnore.mpr (.inr ⟨rfl, hk, hi⟩)⟩

theorem fileNodeForAttribution_mono {path : String} {x : NodeId} (hx : nodes.Has x) :
    (fileNodeForAttribution env nodes corpus path).1.Has x := by
  unfold fileNodeForAttribution
  split
  · exact hx
  · exact has_insertIgnore.mpr (.inl hx)

theorem FilesGrown.fileNodeForAttribution (h : FilesGrown corpus base nodes) (path : String) :
    FilesGrown corpus base (fileNodeForAttribution env nodes corpus path).1 := by
  refine ⟨fun x hx => fileNodeForAttribution_mono (h.1 x hx), ?_⟩
  intro q
  unfold Store.fileNodeForAttribution
  split
  · exact h.2 q
  · dsimp only
    rcases @fileRows_insertIgnore corpus nodes (fileNodeRow env nodes corpus path) q with heq | ⟨_, _, _, _, heq⟩
    · rw [heq]
      exact h.2 q
    · right
      rw [heq, List.find?_isSome]
      exact ⟨_, List.mem_append_right _ List.mem_cons_self, by simp [fileNodeRow]⟩

theorem FileNodeRefused.fileNodeForAttribution {p q : String} (hg : FilesGrown corpus base nodes)
    (hinj : (fileNodeRow env base corpus q).id = (fileNodeRow env base corpus p).id → q = p)
    (h : FileNodeRefused env nodes corpus p) :
    FileNodeRefused env (fileNodeForAttribution env nodes corpus q).1 corpus p ∧
      fileNodeRow env (fileNodeForAttribution env nodes corpus q).1 corpus p =
        fileNodeRow env nodes corpus p := by
  unfold Store.fileNodeForAttribution
  split
  · exact ⟨h, rfl⟩
  next hf =>
    dsimp only
    have hbase : ∀ path, (fileRows nodes corpus path).find? (fun r => r.kind = "file") = none →
        fileNodeRow env nodes corpus path = fileNodeRow env base corpus path := by
      intro path hnone
      rcases hg.2 path with heq | hsome
      · exact fileNodeRow_congr heq
      · rw [hnone] at hsome
        cases hsome
    have hrows : fileRows (nodes.insertIgnore (fileNodeRow env nodes corpus q)) corpus p =
        fileRows nodes corpus p := by
      rcases @fileRows_insertIgnore corpus nodes (fileNodeRow env nodes corpus q) p with heq | ⟨_, hi, _, hpath, _⟩
      · exact heq
      · have hqp : q = p := hpath
        subst hqp
        exact absurd h.2.2 hi
    have hrow := @fileNodeRow_congr env _ _ _ _ hrows
    refine ⟨⟨by rw [hrows]; exact h.1, ?_, ?_⟩, hrow⟩
    · rw [hrow, has_insertIgnore]
      intro hx
      rcases hx with hx | ⟨hid, _, hi⟩
      · exact h.2.1 hx
      · rw [hbase q hf, hbase p h.1] at hid
        rw [hinj hid] at hi
        exact hi h.2.2
    · rw [hrow]
      exact hasIndex_insertIgnore h.2.2

theorem mem_fnSpans {path : String} {sp : FnSpan} (h : sp ∈ fetchAllFnSpans base corpus path) :
    base.Has sp.id := by
  rw [fetchAllFnSpans, List.mem_insertionSort, List.mem_filterMap] at h
  obtain ⟨r, hr, hsp⟩ := h
  obtain ⟨line, _, hsp⟩ := Option.bind_eq_some_iff.mp hsp
  obtain ⟨endLine, _, rfl⟩ := Option.map_eq_some_iff.mp hsp
  have hm := (List.mem_filter.mp (List.mem_filter.mp hr).1).1
  exact Table.has_of_mem (t := base.toTable) hm

theorem attributeCaller_spec (hg : FilesGrown corpus base nodes) (ref : ScipRef) :
    (¬ Unattributed env corpus (fetchAllFnSpans base corpus) nodes ref ∧
        (attributeCaller env corpus (fetchAllFnSpans base corpus) nodes ref).1.Has
          (attributeCaller env corpus (fetchAllFnSpans base corpus) nodes ref).2) ∨
      (Unattributed env corpus (fetchAllFnSpans base corpus) nodes ref ∧
        attributeCaller env corpus (fetchAllFnSpans base corpus) nodes ref =
          (nodes, (fileNodeRow env nodes corpus ref.callerPath).id)) := by
  unfold attributeCaller Unattributed
  cases hs : findNarrowestEnclosing (fetchAllFnSpans base corpus ref.callerPath) ref.callerLine with
  | some id =>
    refine .inl ⟨by simp, hg.1 id ?_⟩
    obtain ⟨sp, hsp, rfl⟩ := Option.map_eq_some_iff.mp hs
    exact mem_fnSpans (List.mem_of_find?_eq_some hsp)
  | none => simpa using fileNodeForAttribution_spec ref.callerPath

theorem FilesGrown.attributeCaller (hg : FilesGrown corpus base nodes)
    (spans : String → List FnSpan) (ref : ScipRef) :
    FilesGrown corpus base (attributeCaller env corpus spans nodes ref).1 := by
  unfold Store.attributeCaller
  split
  · exact hg
  · exact hg.fileNodeForAttribution ref.callerPath

theorem attributeCaller_mono {spans : String → List FnSpan} {ref : ScipRef} {x : NodeId}
    (hx : nodes.Has x) : (attributeCaller env corpus spans nodes ref).1.Has x := by
  unfold attributeCaller
  split
  · exact hx
  · exact fileNodeForAttribution_mono hx

/-- The edges a reference leaves: the old ones, and one from its caller when it makes one. -/
theorem has_attributeRef_edges (spans : String → List FnSpan) (st : Attribution) (ref : ScipRef)
    (k : NodeId × NodeId × EdgeKind) :
    (attributeRef env corpus spans st ref).edges.Has k → st.edges.Has k ∨
      (k.1 = (attributeCaller env corpus spans st.nodes ref).2 ∧ k.2.1 = ref.calleeId ∧
        (attributeCaller env corpus spans st.nodes ref).1.Has ref.calleeId) := by
  unfold attributeRef
  dsimp only
  split_ifs
  · exact .inl
  · split
    · exact .inl
    next callee hc =>
      dsimp only
      intro h
      by_cases hw : callee.kind = "field" ∨ ref.isCall
      · rw [if_pos hw] at h
        rcases Table.has_upsert.mp h with h | h
        · exact .inl h
        · obtain ⟨hm, hid⟩ := Table.mem_of_find? hc
          exact .inr ⟨congrArg Prod.fst h.symm, congrArg (fun k => k.2.1) h.symm, ⟨callee, hm, hid⟩⟩
      · rw [if_neg hw] at h
        exact .inl h

theorem attributeRef_edges_mono {spans : String → List FnSpan} {st : Attribution} {ref : ScipRef}
    {k : NodeId × NodeId × EdgeKind} (h : st.edges.Has k) :
    (attributeRef env corpus spans st ref).edges.Has k := by
  unfold attributeRef
  dsimp only
  split_ifs
  · exact h
  · split
    · exact h
    next callee _ =>
      dsimp only
      by_cases hw : callee.kind = "field" ∨ ref.isCall
      · rw [if_pos hw]
        exact Table.has_upsert.mpr (.inl h)
      · rw [if_neg hw]
        exact h

theorem has_edge_of_makesEdge {spans : String → List FnSpan} {st : Attribution} {ref : ScipRef}
    (hne : (attributeCaller env corpus spans st.nodes ref).2 ≠ ref.calleeId)
    (hm : MakesEdge (attributeCaller env corpus spans st.nodes ref).1 ref) :
    ∃ k, (attributeRef env corpus spans st ref).edges.Has k ∧
      k.1 = (attributeCaller env corpus spans st.nodes ref).2 := by
  unfold attributeRef
  dsimp only
  rw [if_neg hne]
  unfold MakesEdge at hm
  cases hc : (attributeCaller env corpus spans st.nodes ref).1.find? ref.calleeId with
  | none =>
    rw [hc] at hm
    cases hm
  | some callee =>
    rw [hc] at hm
    simp only [Option.any_some, Bool.or_eq_true, decide_eq_true_eq] at hm
    dsimp only
    rw [if_pos hm]
    exact ⟨_, Table.has_upsert.mpr (.inr rfl), rfl⟩

theorem Attribution.Closed.not_hanging {st : Attribution} (h : st.Closed) :
    ¬ st.Hanging env corpus paths := by
  intro ⟨path, _, href, k, hk, hk1⟩
  exact href.2.1 (hk1 ▸ (h k hk).1)

theorem Attribution.Closed.attributeRef {st : Attribution} (h : st.Closed)
    (hg : FilesGrown corpus base st.nodes) {ref : ScipRef}
    (hok : ¬ (Unattributed env corpus (fetchAllFnSpans base corpus) st.nodes ref ∧
      MakesEdge st.nodes ref)) :
    (attributeRef env corpus (fetchAllFnSpans base corpus) st ref).Closed := by
  intro k hk
  rw [attributeRef_nodes]
  rcases @attributeCaller_spec env _ _ _ hg ref with ⟨_, hcaller⟩ | ⟨hun, hcaller⟩
  · rcases has_attributeRef_edges _ _ _ _ hk with hold | ⟨h1, h2, hcallee⟩
    · exact ⟨attributeCaller_mono (h k hold).1, attributeCaller_mono (h k hold).2⟩
    · exact ⟨h1 ▸ hcaller, h2 ▸ hcallee⟩
  · have hno : ¬ MakesEdge st.nodes ref := fun hm => hok ⟨hun, hm⟩
    have hsame : (Store.attributeRef env corpus (fetchAllFnSpans base corpus) st ref).edges =
        st.edges := by
      unfold Store.attributeRef MakesEdge at *
      dsimp only
      rw [hcaller]
      dsimp only
      split_ifs
      · rfl
      · split
        · rfl
        next callee hc =>
          dsimp only
          rw [if_neg]
          simpa [hc] using hno
    rw [hcaller]
    exact h k (hsame ▸ hk)

theorem Attribution.Hanging.attributeRef {st : Attribution} {ref : ScipRef}
    (hg : FilesGrown corpus base st.nodes) (hp : ref.callerPath ∈ paths)
    (hinj : ∀ p ∈ paths, ∀ q ∈ paths,
      (fileNodeRow env base corpus p).id = (fileNodeRow env base corpus q).id → p = q)
    (h : st.Hanging env corpus paths) (spans : String → List FnSpan) :
    (attributeRef env corpus spans st ref).Hanging env corpus paths := by
  obtain ⟨path, hpath, href, k, hk, hk1⟩ := h
  have hkeep : FileNodeRefused env (attributeCaller env corpus spans st.nodes ref).1 corpus path ∧
      fileNodeRow env (attributeCaller env corpus spans st.nodes ref).1 corpus path =
        fileNodeRow env st.nodes corpus path := by
    unfold attributeCaller
    split
    · exact ⟨href, rfl⟩
    · exact href.fileNodeForAttribution hg (hinj _ hp _ hpath)
  refine ⟨path, hpath, ?_, k, attributeRef_edges_mono hk, ?_⟩
  · rw [attributeRef_nodes]
    exact hkeep.1
  · rw [attributeRef_nodes, hkeep.2]
    exact hk1

theorem Attribution.hanging_of_unattributed {st : Attribution} {ref : ScipRef}
    (hg : FilesGrown corpus base st.nodes) (hp : ref.callerPath ∈ paths)
    (hun : Unattributed env corpus (fetchAllFnSpans base corpus) st.nodes ref)
    (hm : MakesEdge st.nodes ref) :
    (attributeRef env corpus (fetchAllFnSpans base corpus) st ref).Hanging env corpus paths := by
  have hcaller := ((@attributeCaller_spec env _ _ _ hg ref).resolve_left (fun h => h.1 hun)).2
  have hne : (attributeCaller env corpus (fetchAllFnSpans base corpus) st.nodes ref).2 ≠
      ref.calleeId := by
    rw [hcaller]
    intro heq
    unfold MakesEdge at hm
    obtain ⟨r, hr⟩ := Option.isSome_iff_exists.mp (Option.isSome_of_any hm)
    obtain ⟨hmem, hid⟩ := Table.mem_of_find? hr
    exact hun.2.2.1 ⟨r, hmem, hid.trans heq.symm⟩
  obtain ⟨k, hk, hk1⟩ := has_edge_of_makesEdge hne (by rw [hcaller]; exact hm)
  refine ⟨ref.callerPath, hp, ?_, k, hk, ?_⟩
  · rw [attributeRef_nodes, hcaller]
    exact hun.2
  · rw [attributeRef_nodes, hk1, hcaller]

/-- The references of a batch leave every edge with both its ends exactly when they are
attributable. -/
theorem closed_foldl_attributeRef {refs : List ScipRef} {st : Attribution}
    (hg : FilesGrown corpus base st.nodes) (hp : ∀ ref ∈ refs, ref.callerPath ∈ paths)
    (hinj : ∀ p ∈ paths, ∀ q ∈ paths,
      (fileNodeRow env base corpus p).id = (fileNodeRow env base corpus q).id → p = q)
    (h : st.Closed) :
    (refs.foldl (attributeRef env corpus (fetchAllFnSpans base corpus)) st).Closed ↔
      Attributable env corpus (fetchAllFnSpans base corpus) st.nodes refs := by
  have hstep : ∀ (st : Attribution) (ref : ScipRef), FilesGrown corpus base st.nodes →
      FilesGrown corpus base (attributeRef env corpus (fetchAllFnSpans base corpus) st ref).nodes := by
    intro st ref hg
    rw [attributeRef_nodes]
    exact hg.attributeCaller _ ref
  have hhang : ∀ (refs : List ScipRef) (st : Attribution), FilesGrown corpus base st.nodes →
      (∀ ref ∈ refs, ref.callerPath ∈ paths) → st.Hanging env corpus paths →
      (refs.foldl (attributeRef env corpus (fetchAllFnSpans base corpus)) st).Hanging env corpus
        paths := by
    intro refs
    induction refs with
    | nil => exact fun _ _ _ h => h
    | cons ref refs ih =>
      intro st hg hp h
      rw [List.forall_mem_cons] at hp
      exact ih _ (hstep st ref hg) hp.2 (h.attributeRef hg hp.1 hinj _)
  induction refs generalizing st with
  | nil => simpa [Attributable] using h
  | cons ref refs ih =>
    rw [List.forall_mem_cons] at hp
    rw [List.foldl_cons, Attributable, ← attributeRef_nodes]
    by_cases hok : Unattributed env corpus (fetchAllFnSpans base corpus) st.nodes ref ∧
        MakesEdge st.nodes ref
    · constructor
      · intro hc
        have hh := hhang refs _ (hstep st ref hg) hp.2
          (Attribution.hanging_of_unattributed hg hp.1 hok.1 hok.2)
        exact absurd hh hc.not_hanging
      · intro ha
        exact absurd hok ha.1
    · have hrest := ih (hstep st ref hg) hp.2 (h.attributeRef hg hok)
      exact hrest.trans (and_iff_right hok).symm

theorem Attribution.Closed.retractOwned {st : Attribution} (h : st.Closed) (keep : List String)
    (path : String) : (retractOwned corpus keep st path).Closed := by
  intro k hk
  rw [retractOwned_nodes]
  apply h
  unfold Store.retractOwned at hk
  split_ifs at hk
  · exact hk
  · obtain ⟨e, he, hek⟩ := hk
    exact ⟨e, (Table.mem_deleteWhere.mp he).1, hek⟩

theorem foldl_retractOwned {keep : List String} {st : Attribution} (h : st.Closed) :
    (paths.foldl (retractOwned corpus keep) st).Closed ∧
      (paths.foldl (retractOwned corpus keep) st).nodes = st.nodes := by
  induction paths generalizing st with
  | nil => exact ⟨h, rfl⟩
  | cons path paths ih =>
    obtain ⟨hc, hn⟩ := ih (h.retractOwned keep path)
    exact ⟨hc, hn.trans (retractOwned_nodes keep st path)⟩

/-- No two files of the batch share the id of the file node made up for them. -/
def FileIdsDistinct (env : Env) (corpus : String) (nodes : NodeTable) (refs : List ScipRef) : Prop :=
  ∀ p ∈ refs.map ScipRef.callerPath, ∀ q ∈ refs.map ScipRef.callerPath,
    (fileNodeRow env nodes corpus p).id = (fileNodeRow env nodes corpus q).id → p = q

instance (env : Env) (corpus : String) (nodes : NodeTable) (refs : List ScipRef) :
    Decidable (FileIdsDistinct env corpus nodes refs) :=
  inferInstanceAs (Decidable (∀ p ∈ _, ∀ q ∈ _, _ → _))

namespace SqliteStore

variable {s : SqliteStore}

theorem stored_phaseBNodes {nodes : List Node} {x : NodeId} (hx : s.Stored x) : (phaseBNodes s nodes).1.Has x := by
  have hrun : ∀ (l : List Node) (st : NodeTable × Lexical), st.1.Has x →
      (l.foldl phaseBNode st).1.Has x := by
    intro l
    induction l with
    | nil => exact fun _ h => h
    | cons n l ih => exact fun st h => ih _ (has_phaseBNode.mpr (.inl h))
  exact hrun nodes _ hx

theorem writeScipAttributedBatchKeeping_noOrphans_iff {batch : List Node} {refs : List ScipRef}
    {keep : List String} (h0 : s.NoOrphans)
    (hinj : FileIdsDistinct env corpus (phaseBNodes s batch).1 refs) :
    (s.writeScipAttributedBatchKeeping env corpus batch refs keep).NoOrphans ↔
      Attributable env corpus (fetchAllFnSpans (phaseBNodes s batch).1 corpus)
        (phaseBNodes s batch).1 refs := by
  unfold writeScipAttributedBatchKeeping
  split_ifs with he
  · simp only [Bool.and_eq_true, List.isEmpty_iff] at he
    rw [he.2]
    exact iff_of_true h0 trivial
  · rw [noOrphans_iff_keys]
    have hstart : Attribution.Closed ⟨(phaseBNodes s batch).1, s.edges, s.sites⟩ := by
      intro k hk
      have := noOrphans_iff_keys.mp h0 k hk
      exact ⟨stored_phaseBNodes this.1, stored_phaseBNodes this.2⟩
    obtain ⟨hc, hn⟩ := @foldl_retractOwned corpus (refs.map ScipRef.callerPath).dedup keep _ hstart
    have hgrown : FilesGrown corpus (phaseBNodes s batch).1
        ((refs.map ScipRef.callerPath).dedup.foldl (retractOwned corpus keep)
          ⟨(phaseBNodes s batch).1, s.edges, s.sites⟩).nodes := by
      rw [hn]
      exact ⟨fun _ h => h, fun _ => .inl rfl⟩
    have hrun := @closed_foldl_attributeRef env _ _ _ _ _ hgrown
      (fun ref href => List.mem_map_of_mem href) hinj hc
    rw [hn] at hrun
    exact hrun

/-- A Phase B writer leaves no half-edge exactly when no edge the guard lets through ends in a
node whose vname a row holds under another id, and no reference makes an edge from a file node
that is refused so. -/
theorem phaseB_noOrphans_iff (h0 : s.NoOrphans) :
    (∀ (nodes : List Node) (edges : List Edge) (provenance : String) (s' : SqliteStore),
        (∀ n ∈ nodes, n.id = env.vnameId n.vname) →
        s.writePhaseBBatch nodes edges provenance = .ok s' →
        (s'.NoOrphans ↔ s.Unrefused nodes edges)) ∧
      ∀ (corpus : String) (nodes : List Node) (refs : List ScipRef) (keep : List String),
        FileIdsDistinct env corpus (phaseBNodes s nodes).1 refs →
        ((s.writeScipAttributedBatchKeeping env corpus nodes refs keep).NoOrphans ↔
          Attributable env corpus (fetchAllFnSpans (phaseBNodes s nodes).1 corpus)
            (phaseBNodes s nodes).1 refs) :=
  ⟨fun _ _ _ _ hid h => writePhaseBBatch_noOrphans_iff h0 hid h,
    fun _ _ _ _ hinj => writeScipAttributedBatchKeeping_noOrphans_iff h0 hinj⟩

/-- A call, its caller's node and an edge to a node the sidecar never emitted. -/
theorem phaseB_noOrphans_fresh :
    (∃ s', empty.writePhaseBBatch [parsed "a.rs" "rust" "fn:a" "function",
        parsed "b.rs" "rust" "method:b" "method"]
        [⟨12, 8, .refCall, none, none⟩, ⟨12, 99, .refCall, none, none⟩] "scip" = .ok s' ∧
        s'.NoOrphans) ∧
      (empty.writeScipAttributedBatchKeeping lengthEnv "repo" [parsed "a.rs" "rust" "fn:a" "function"]
        [⟨"b.rs", 3, 8, true, none⟩, ⟨"b.rs", 4, 99, true, none⟩] []).NoOrphans := by
  have h0 : SqliteStore.empty.NoOrphans := by decide
  constructor
  · obtain ⟨s', h⟩ := exists_ok (x := empty.writePhaseBBatch [parsed "a.rs" "rust" "fn:a" "function",
      parsed "b.rs" "rust" "method:b" "method"]
      [⟨12, 8, .refCall, none, none⟩, ⟨12, 99, .refCall, none, none⟩] "scip") (by decide +kernel)
    refine ⟨s', h, ?_⟩
    exact ((@phaseB_noOrphans_iff lengthEnv _ h0).1 _ _ _ _ (by decide) h).mpr
      (by decide +kernel)
  · exact ((@phaseB_noOrphans_iff lengthEnv _ h0).2 _ _ _ _ (by decide +kernel)).mpr
      (by decide +kernel)

def staleStore : SqliteStore where
  __ := SqliteStore.empty
  nodes := ⟨⟨[⟨90, ⟨"repo", "", "a.rs", "rust", "fn:a"⟩, "function", "", none, none, false, .none,
      none⟩,
    ⟨91, ⟨"repo", "", "go.mod", "go", "file"⟩, "module", "", none, none, false, .none, none⟩],
    by decide⟩, by decide⟩

theorem staleStore_half_edges :
    staleStore.NoOrphans ∧
      (∃ s', staleStore.writePhaseBBatch [parsed "a.rs" "rust" "fn:a" "function",
          parsed "b.rs" "rust" "method:b" "method"] [⟨12, 8, .refCall, none, none⟩] "scip" = .ok s' ∧
        ¬ s'.NoOrphans) ∧
      ¬ (staleStore.writeScipAttributedBatchKeeping lengthEnv "repo" []
        [⟨"go.mod", 3, 90, true, none⟩] []).NoOrphans := by
  refine ⟨by decide, ⟨_, rfl, ?_⟩, ?_⟩ <;> decide +kernel

end SqliteStore

end Travsr.Store
