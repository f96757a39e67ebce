import Travsr.Store.BatchOrder

namespace Travsr.Store.SqliteStore

open Travsr.Core Relational

variable {env : Env} {bulk : Bool} {s t u : SqliteStore} {file : FileGraph}
  {before rest batch : List FileGraph} {chunks : List (List FileGraph)}
  {k : NodeId × NodeId × EdgeKind} {x : NodeId}

/-- The writer's consecutive `write_file_graphs_batch` calls; the first failed one ends the run. -/
def writeFileGraphsBatches (env : Env) (bulk : Bool) (s : SqliteStore)
    (chunks : List (List FileGraph)) : Except StoreError SqliteStore :=
  chunks.foldlM (fun t batch => (t.writeFileGraphsBatch env batch bulk).map Prod.fst) s

def holdsAfter (s : SqliteStore) (x : NodeId) (held : Bool) (file : FileGraph) : Bool :=
  (held && decide (x ∉ s.scopeIds file)) || decide (x ∈ file.emittedIds)

/-- Whether a node is there once the files are written, from the store before them. -/
def storedAfter (s : SqliteStore) (files : List FileGraph) (x : NodeId) : Bool :=
  files.foldl (s.holdsAfter x) (decide (s.Stored x))

/-- A file takes away the edges that leave its old nodes, and those into the nodes it lost. -/
def Drops (s : SqliteStore) (file : FileGraph) (k : NodeId × NodeId × EdgeKind) : Prop :=
  k.1 ∈ s.scopeIds file ∨ (k.2.1 ∈ s.scopeIds file ∧ k.2.1 ∉ file.emittedIds)

instance (s : SqliteStore) (file : FileGraph) (k : NodeId × NodeId × EdgeKind) :
    Decidable (s.Drops file k) := inferInstanceAs (Decidable (_ ∨ _))

/-- After a chunk both ends are there, and no file still to come takes the edge away. -/
def Keeps (s : SqliteStore) (k : NodeId × NodeId × EdgeKind) (before rest : List FileGraph) : Prop :=
  s.storedAfter before k.1 ∧ s.storedAfter before k.2.1 ∧ ∀ file ∈ rest, ¬ s.Drops file k

instance (s : SqliteStore) (k : NodeId × NodeId × EdgeKind) (before rest : List FileGraph) :
    Decidable (s.Keeps k before rest) := inferInstanceAs (Decidable (_ ∧ _ ∧ ∀ file ∈ rest, _))

/-- The first edge under a key in the first chunk that has one and keeps it. -/
def keptEdge (s : SqliteStore) (k : NodeId × NodeId × EdgeKind) :
    List FileGraph → List (List FileGraph) → Option Edge
  | _, [] => none
  | before, batch :: chunks =>
    (if s.Keeps k (before ++ batch) chunks.flatten then batch.findSome? (firstEdge k) else none).or
      (s.keptEdge k (before ++ batch) chunks)

/-- The row stored under a key outlives all the files. -/
def Outlives (s : SqliteStore) (files : List FileGraph) (k : NodeId × NodeId × EdgeKind) : Prop :=
  s.edges.Has k ∧ ∀ file ∈ files, ¬ s.Drops file k

instance (s : SqliteStore) (files : List FileGraph) (k : NodeId × NodeId × EdgeKind) :
    Decidable (s.Outlives files k) := inferInstanceAs (Decidable (_ ∧ ∀ file ∈ files, _))

/-- No boundary falls between an edge and its ends: an edge whose ends are there in the end, under
a key no surviving row holds, is kept by some chunk with the confidence of the first such edge. -/
def BoundaryFree (s : SqliteStore) (chunks : List (List FileGraph)) : Prop :=
  ∀ e ∈ chunks.flatten.flatMap FileGraph.edges, s.storedAfter chunks.flatten e.src →
    s.storedAfter chunks.flatten e.dst → ¬ s.Outlives chunks.flatten (EdgeRow.ofParse e).key →
      (s.keptEdge (EdgeRow.ofParse e).key [] chunks).map Edge.confidence =
        (chunks.flatten.findSome? (firstEdge (EdgeRow.ofParse e).key)).map Edge.confidence

instance (s : SqliteStore) (chunks : List (List FileGraph)) : Decidable (s.BoundaryFree chunks) :=
  inferInstanceAs (Decidable (∀ e ∈ chunks.flatten.flatMap FileGraph.edges, _))

/-- A store in the middle of a run: the files still to come find what they found at the start. -/
structure Reached (s t : SqliteStore) (before rest : List FileGraph) : Prop where
  scope : ∀ g ∈ rest, t.scopeIds g = s.scopeIds g
  stored : ∀ x, t.Stored x ↔ s.storedAfter before x = true

theorem Reached.start (s : SqliteStore) (rest : List FileGraph) : s.Reached s [] rest :=
  ⟨fun _ _ => rfl, fun _ => (decide_eq_true_iff).symm⟩

theorem Reached.of_nodes (h : s.Reached t before rest) (hn : u.nodes = t.nodes) :
    s.Reached u before rest := by
  refine ⟨fun g hg => ?_, fun x => ?_⟩
  · rw [← h.scope g hg, scopeIds, scopeIds, idsWhere, idsWhere, hn]
  · rw [← h.stored x, Stored, Stored, hn]

theorem storedAfter_append (s : SqliteStore) (before batch : List FileGraph) (x : NodeId) :
    s.storedAfter (before ++ batch) x = batch.foldl (s.holdsAfter x) (s.storedAfter before x) :=
  List.foldl_append

theorem storedAfter_concat (s : SqliteStore) (before : List FileGraph) (file : FileGraph)
    (x : NodeId) : s.storedAfter (before ++ [file]) x = true ↔
      (s.storedAfter before x = true ∧ x ∉ s.scopeIds file) ∨ x ∈ file.emittedIds := by
  rw [storedAfter_append, List.foldl_cons, List.foldl_nil, holdsAfter]
  simp only [Bool.or_eq_true, Bool.and_eq_true, decide_eq_true_eq]

theorem storedAfter_mono (h : s.storedAfter before x = true)
    (hrest : ∀ file ∈ rest, x ∈ s.scopeIds file → x ∈ file.emittedIds) :
    s.storedAfter (before ++ rest) x = true := by
  induction rest using List.reverseRecOn with
  | nil => rwa [List.append_nil]
  | append_singleton rest file ih =>
    have hprev := ih fun f hf => hrest f (List.mem_append_left _ hf)
    rw [← List.append_assoc, storedAfter_concat]
    by_cases hx : x ∈ s.scopeIds file
    · exact .inr (hrest file (by simp) hx)
    · exact .inl ⟨hprev, hx⟩

theorem Reached.writeFile (h : s.Reached t before (file :: rest)) (hown : file.OwnPaths)
    (hne : ∀ g ∈ rest, g.vnamePath ≠ file.vnamePath) (hw : FileWritten env bulk t file u) :
    s.Reached u (before ++ [file]) rest ∧
      ∀ e, e ∈ u.edges ↔ e ∈ t.edges ∧ ¬ s.Drops file e.key := by
  have hscope : t.scopeIds file = s.scopeIds file := h.scope file List.mem_cons_self
  refine ⟨⟨?_, ?_⟩, ?_⟩
  · intro g hg
    rw [hw.scopeIds_eq hown (hne g hg), h.scope g (List.mem_cons_of_mem _ hg)]
  · intro x
    rw [hw.stored_iff, storedAfter_concat, h.stored, hscope]
  · intro e
    rw [hw.mem_edges, hscope, Drops, not_or, not_and, not_not]
    rfl

theorem Reached.writeFiles (h : s.Reached t before (batch ++ rest))
    (hown : ∀ file ∈ batch, file.OwnPaths)
    (hpaths : (batch ++ rest).Pairwise fun f g => g.vnamePath ≠ f.vnamePath)
    (hw : batch.foldlM (SqliteStore.writeFile env bulk) t = .ok u) :
    s.Reached u (before ++ batch) rest ∧
      ∀ e, e ∈ u.edges ↔ e ∈ t.edges ∧ ∀ file ∈ batch, ¬ s.Drops file e.key := by
  induction batch generalizing t before with
  | nil =>
    obtain rfl := Except.ok.inj hw
    refine ⟨?_, by simp⟩
    rwa [List.append_nil]
  | cons file batch ih =>
    rw [List.foldlM_cons] at hw
    simp only [bind, Except.bind] at hw
    split at hw
    · cases hw
    next t' ht' =>
      obtain ⟨hnext, hedges⟩ := h.writeFile (hown file List.mem_cons_self)
        (List.pairwise_cons.mp hpaths).1 (writeFile_ok ht')
      obtain ⟨hlast, hrest⟩ := ih hnext (fun f hf => hown f (List.mem_cons_of_mem _ hf))
        (List.pairwise_cons.mp hpaths).2 hw
      refine ⟨?_, ?_⟩
      · rwa [List.append_assoc] at hlast
      · intro e
        rw [hrest, hedges, List.forall_mem_cons, and_assoc]

theorem find?_of_drops (h : ∀ e, e ∈ u.edges ↔ e ∈ t.edges ∧ ∀ file ∈ batch, ¬ s.Drops file e.key) :
    u.edges.find? k = if ∀ file ∈ batch, ¬ s.Drops file k then t.edges.find? k else none := by
  apply Option.ext
  intro e
  rw [Table.find?_eq_some, h]
  split_ifs with hp
  · rw [Table.find?_eq_some]
    constructor
    · intro hfound
      exact ⟨hfound.1.1, hfound.2⟩
    · intro hfound
      obtain ⟨he, hk⟩ := hfound
      exact ⟨⟨he, hk ▸ hp⟩, hk⟩
  · constructor
    · intro hfound
      obtain ⟨⟨_, hd⟩, hk⟩ := hfound
      exact absurd (hk ▸ hd) hp
    · intro he
      cases he

theorem of_map_fst {ε α β : Type} {r : Except ε (α × β)} {a : α} (h : r.map Prod.fst = .ok a) :
    ∃ b, r = .ok (a, b) := by
  cases r with
  | error e => cases h
  | ok p =>
    obtain rfl := Except.ok.inj h
    exact ⟨p.2, rfl⟩

theorem stagingActive_of_batch {counts : BatchWriteCounts} (hstage : t.stagingActive = false)
    (h : t.writeFileGraphsBatch env batch bulk = .ok (u, counts)) : u.stagingActive = false := by
  simp only [writeFileGraphsBatch, hstage, bind, Except.bind, pure, Except.pure,
    Bool.false_eq_true, if_false] at h
  split at h
  · cases h
  next v hv =>
    split at h
    · cases h
    next edges he =>
      obtain ⟨rfl, _⟩ := Prod.mk.inj (Except.ok.inj h)
      have hkeep : v.stagingActive = false := by
        refine foldlM_writeFile (P := fun v => v.stagingActive = false) ?_ hv ?_
        · intro s s' file _ hw hs
          rw [hw.stagingActive, hs]
        · cases bulk <;> exact hstage
      exact hkeep

theorem Reached.writeBatch (h : s.Reached t before (batch ++ rest)) (hstage : t.stagingActive = false)
    (hown : ∀ file ∈ batch, file.OwnPaths)
    (hpaths : (batch ++ rest).Pairwise fun f g => g.vnamePath ≠ f.vnamePath)
    (hw : (t.writeFileGraphsBatch env batch bulk).map Prod.fst = .ok u) :
    s.Reached u (before ++ batch) rest ∧ ∀ k, u.edges.find? k =
      (if ∀ file ∈ batch, ¬ s.Drops file k then t.edges.find? k else none).or
        ((if s.storedAfter (before ++ batch) k.1 ∧ s.storedAfter (before ++ batch) k.2.1 then
          batch.findSome? (firstEdge k) else none).map EdgeRow.ofParse) := by
  obtain ⟨counts, hok⟩ := of_map_fst hw
  obtain ⟨v, hv, hn, _, _, he⟩ := writeFileGraphsBatch_ok hstage hok
  obtain ⟨hpn, hpe, _⟩ := prepareBulk_tables bulk t
  obtain ⟨hreach, hedges⟩ := (h.of_nodes hpn).writeFiles hown hpaths hv
  refine ⟨hreach.of_nodes hn, ?_⟩
  intro k
  rw [hpe] at hedges
  rw [he, Table.find?_insertAll, find?_guardedEdges, find?_of_drops hedges]
  simp only [hreach.stored]
  split_ifs <;> rfl

/-- The row a run of calls leaves under a key: the one it found, unless a file takes it away; and
else the first one that is kept. -/
theorem Reached.find?_edges (h : s.Reached t before chunks.flatten) (hstage : t.stagingActive = false)
    (hown : ∀ file ∈ chunks.flatten, file.OwnPaths)
    (hpaths : chunks.flatten.Pairwise fun f g => g.vnamePath ≠ f.vnamePath)
    (hw : t.writeFileGraphsBatches env bulk chunks = .ok u) (k : NodeId × NodeId × EdgeKind) :
    u.edges.find? k =
      (if ∀ file ∈ chunks.flatten, ¬ s.Drops file k then t.edges.find? k else none).or
        ((s.keptEdge k before chunks).map EdgeRow.ofParse) := by
  induction chunks generalizing t before with
  | nil =>
    obtain rfl := Except.ok.inj hw
    simp [keptEdge]
  | cons batch chunks ih =>
    rw [writeFileGraphsBatches, List.foldlM_cons] at hw
    simp only [bind, Except.bind] at hw
    rw [List.flatten_cons] at h hown hpaths
    split at hw
    · cases hw
    next t' ht' =>
      obtain ⟨hnext, hrow⟩ := h.writeBatch hstage
        (fun f hf => hown f (List.mem_append_left _ hf)) hpaths ht'
      obtain ⟨_, hok⟩ := of_map_fst ht'
      have hrest := ih hnext (stagingActive_of_batch hstage hok)
        (fun f hf => hown f (List.mem_append_right _ hf)) (List.pairwise_append.mp hpaths).2.1 hw
      rw [hrest, hrow, keptEdge, List.flatten_cons]
      simp only [List.forall_mem_append]
      -- what the later files take away was not kept, and what they spare was kept by this chunk
      by_cases hlater : ∀ file ∈ chunks.flatten, ¬ s.Drops file k
      · have hkeeps : s.Keeps k (before ++ batch) chunks.flatten ↔
            s.storedAfter (before ++ batch) k.1 ∧ s.storedAfter (before ++ batch) k.2.1 :=
          ⟨fun hk => ⟨hk.1, hk.2.1⟩, fun hk => ⟨hk.1, hk.2, hlater⟩⟩
        simp only [hkeeps, if_pos hlater, Option.map_or, Option.or_assoc, and_iff_left hlater]
      · have hkeeps : ¬ s.Keeps k (before ++ batch) chunks.flatten := fun hk => hlater hk.2.2
        have hboth : ¬ ((∀ file ∈ batch, ¬ s.Drops file k) ∧
            ∀ file ∈ chunks.flatten, ¬ s.Drops file k) := fun hk => hlater hk.2
        rw [if_neg hlater, if_neg hkeeps, if_neg hboth, Option.none_or, Option.none_or, Option.none_or]

theorem stored_of_keptEdge {e : Edge} (h : s.keptEdge k before chunks = some e) :
    s.storedAfter (before ++ chunks.flatten) k.1 = true ∧
      s.storedAfter (before ++ chunks.flatten) k.2.1 = true := by
  induction chunks generalizing before with
  | nil => cases h
  | cons batch chunks ih =>
    rw [List.flatten_cons, ← List.append_assoc]
    rw [keptEdge, Option.or_eq_some_iff] at h
    rcases h with h | ⟨_, h⟩
    · split_ifs at h with hk
      obtain ⟨hsrc, hdst, hspared⟩ := hk
      refine ⟨storedAfter_mono hsrc fun f hf hs => ?_, storedAfter_mono hdst fun f hf hs => ?_⟩
      · exact absurd (.inl hs) (hspared f hf)
      · by_contra hno
        exact hspared f hf (.inr ⟨hs, hno⟩)
    · exact ih h

theorem mem_of_keptEdge {e : Edge} (h : s.keptEdge k before chunks = some e) :
    e ∈ chunks.flatten.flatMap FileGraph.edges ∧ (EdgeRow.ofParse e).key = k := by
  induction chunks generalizing before with
  | nil => cases h
  | cons batch chunks ih =>
    rw [keptEdge, Option.or_eq_some_iff] at h
    rw [List.flatten_cons, List.flatMap_append]
    rcases h with h | ⟨_, h⟩
    · split_ifs at h
      obtain ⟨file, hf, hfe⟩ := List.exists_of_findSome?_eq_some h
      obtain ⟨he, hk⟩ := firstEdge_spec hfe
      exact ⟨List.mem_append_left _ (List.mem_flatMap.mpr ⟨file, hf, he⟩), hk⟩
    · obtain ⟨he, hk⟩ := ih h
      exact ⟨List.mem_append_right _ he, hk⟩

theorem foldlM_writeFile_congr {t' u' : SqliteStore} (hn : t.nodes = t'.nodes)
    (hs : t.sites = t'.sites) (h : batch.foldlM (writeFile env bulk) t = .ok u)
    (h' : batch.foldlM (writeFile env bulk) t' = .ok u') :
    u.nodes = u'.nodes ∧ u.sites = u'.sites := by
  induction batch generalizing t t' with
  | nil =>
    obtain rfl := Except.ok.inj h
    obtain rfl := Except.ok.inj h'
    exact ⟨hn, hs⟩
  | cons file batch ih =>
    rw [List.foldlM_cons] at h h'
    simp only [bind, Except.bind] at h h'
    split at h
    · cases h
    next v hv =>
      split at h'
      · cases h'
      next v' hv' =>
        have hw := writeFile_ok hv
        have hw' := writeFile_ok hv'
        have hscope : t.scopeIds file = t'.scopeIds file := by
          rw [scopeIds, scopeIds, idsWhere, idsWhere, hn]
        refine ih ?_ ?_ h h'
        · have hnodes := hw.nodes
          rw [hn] at hnodes
          exact Except.ok.inj (hnodes.symm.trans hw'.nodes)
        · rw [hw.sites, hw'.sites, hs, hscope]

theorem batches_tables (hstage : t.stagingActive = false)
    (h : t.writeFileGraphsBatches env bulk chunks = .ok u) {t' u' : SqliteStore}
    (hn : t.nodes = t'.nodes) (hs : t.sites = t'.sites)
    (h' : chunks.flatten.foldlM (writeFile env bulk) t' = .ok u') :
    u.nodes = u'.nodes ∧ u.sites = u'.sites := by
  induction chunks generalizing t t' with
  | nil =>
    obtain rfl := Except.ok.inj h
    obtain rfl := Except.ok.inj h'
    exact ⟨hn, hs⟩
  | cons batch chunks ih =>
    rw [writeFileGraphsBatches, List.foldlM_cons] at h
    rw [List.flatten_cons, List.foldlM_append] at h'
    simp only [bind, Except.bind] at h h'
    split at h
    · cases h
    next v hv =>
      split at h'
      · cases h'
      next v' hv' =>
        obtain ⟨_, hok⟩ := of_map_fst hv
        obtain ⟨w, hw, hwn, hws, _, _⟩ := writeFileGraphsBatch_ok hstage hok
        obtain ⟨hpn, _, hps⟩ := prepareBulk_tables bulk t
        obtain ⟨hcn, hcs⟩ := foldlM_writeFile_congr (hpn.trans hn) (hps.trans hs) hw hv'
        exact ih (stagingActive_of_batch hstage hok) h (hwn.trans hcn) (hws.trans hcs) h'

theorem keptEdge_singleton (s : SqliteStore) (k : NodeId × NodeId × EdgeKind)
    (files : List FileGraph) : s.keptEdge k [] [files] =
      if s.storedAfter files k.1 ∧ s.storedAfter files k.2.1 then files.findSome? (firstEdge k)
      else none := by
  rw [keptEdge, keptEdge, Option.or_none, List.nil_append, List.flatten_nil]
  have hkeeps : s.Keeps k files [] ↔ s.storedAfter files k.1 ∧ s.storedAfter files k.2.1 :=
    ⟨fun h => ⟨h.1, h.2.1⟩, fun h => ⟨h.1, h.2, by simp⟩⟩
  simp only [hkeeps]

theorem map_ofParse_eq_iff {a b : Option Edge} (ha : ∀ e ∈ a, (EdgeRow.ofParse e).key = k)
    (hb : ∀ e ∈ b, (EdgeRow.ofParse e).key = k) :
    a.map EdgeRow.ofParse = b.map EdgeRow.ofParse ↔ a.map Edge.confidence = b.map Edge.confidence := by
  have hrow : ∀ o : Option Edge, (∀ e ∈ o, (EdgeRow.ofParse e).key = k) → o.map EdgeRow.ofParse =
      (o.map Edge.confidence).map fun c => ⟨k.1, k.2.1, k.2.2, "tree-sitter", c⟩ := by
    intro o ho
    cases o with
    | none => rfl
    | some e =>
      obtain rfl := ho e rfl
      rfl
  constructor
  · intro h
    have hconf := congrArg (Option.map EdgeRow.confidence) h
    rwa [Option.map_map, Option.map_map] at hconf
  · intro h
    rw [hrow a ha, hrow b hb, h]

/-- Two runs over the same files leave the same row under a key when it survives, or when they keep
edges of one confidence. -/
theorem find?_edges_eq_iff {chunks' : List (List FileGraph)} (hflat : chunks'.flatten = chunks.flatten)
    (hstage : s.stagingActive = false) (hown : ∀ file ∈ chunks.flatten, file.OwnPaths)
    (hpaths : chunks.flatten.Pairwise fun f g => g.vnamePath ≠ f.vnamePath)
    (ht : s.writeFileGraphsBatches env bulk chunks' = .ok t)
    (hu : s.writeFileGraphsBatches env bulk chunks = .ok u) (k : NodeId × NodeId × EdgeKind) :
    u.edges.find? k = t.edges.find? k ↔ s.Outlives chunks.flatten k ∨
      (s.keptEdge k [] chunks).map Edge.confidence = (s.keptEdge k [] chunks').map Edge.confidence := by
  rw [(Reached.start s chunks.flatten).find?_edges hstage hown hpaths hu,
    (Reached.start s chunks'.flatten).find?_edges hstage (hflat ▸ hown) (hflat ▸ hpaths) ht, hflat,
    ← map_ofParse_eq_iff (fun e he => (mem_of_keptEdge he).2) (fun e he => (mem_of_keptEdge he).2)]
  by_cases hspared : ∀ file ∈ chunks.flatten, ¬ s.Drops file k
  · rw [if_pos hspared, Outlives, and_iff_left hspared, Table.has_iff_find?]
    cases s.edges.find? k with
    | none => simp
    | some row => simp
  · rw [if_neg hspared, Outlives, Option.none_or, Option.none_or]
    exact (or_iff_right fun h => hspared h.2).symm

/-- Where the files are cut into calls does not matter exactly when no boundary falls between an
edge and its ends. -/
theorem batches_agree_iff (hstage : s.stagingActive = false)
    (hpaths : (chunks.flatten.map FileGraph.vnamePath).Nodup)
    (hown : ∀ file ∈ chunks.flatten, file.OwnPaths)
    (ht : s.writeFileGraphsBatches env bulk [chunks.flatten] = .ok t)
    (hu : s.writeFileGraphsBatches env bulk chunks = .ok u) :
    (u.nodes.Same t.nodes.toTable ∧ u.edges.Same t.edges ∧ u.sites.Same t.sites) ↔
      s.BoundaryFree chunks := by
  have hflat : [chunks.flatten].flatten = chunks.flatten := by simp
  have hpairs : chunks.flatten.Pairwise fun f g => g.vnamePath ≠ f.vnamePath :=
    (List.pairwise_map.mp hpaths).imp fun hne => hne.symm
  have hrows := find?_edges_eq_iff hflat hstage hown hpairs ht hu
  constructor
  · intro ⟨_, hedges, _⟩ e he hsrc hdst hnew
    have hkept := ((hrows _).mp (hedges.find? _)).resolve_left hnew
    have hends : s.storedAfter chunks.flatten (EdgeRow.ofParse e).key.1 = true ∧
        s.storedAfter chunks.flatten (EdgeRow.ofParse e).key.2.1 = true := ⟨hsrc, hdst⟩
    rwa [keptEdge_singleton, if_pos hends] at hkept
  · intro hfree
    have hedges : u.edges.Same t.edges := by
      apply Table.same_of_find?
      intro k
      rw [hrows]
      by_cases hold : s.Outlives chunks.flatten k
      · exact .inl hold
      right
      rw [keptEdge_singleton]
      cases hk : s.keptEdge k [] chunks with
      | some e =>
        obtain ⟨he, rfl⟩ := mem_of_keptEdge hk
        have hends := stored_of_keptEdge hk
        rw [List.nil_append] at hends
        rw [if_pos hends, ← hk]
        exact hfree e he hends.1 hends.2 hold
      | none =>
        split_ifs with hends
        · cases hf : chunks.flatten.findSome? (firstEdge k) with
          | none => rfl
          | some e =>
            obtain ⟨file, hm, hfe⟩ := List.exists_of_findSome?_eq_some hf
            obtain ⟨he, rfl⟩ := firstEdge_spec hfe
            have hkept := hfree e (List.mem_flatMap.mpr ⟨file, hm, he⟩) hends.1 hends.2 hold
            rw [hk, hf] at hkept
            exact hkept
        · rfl
    obtain ⟨v, hv⟩ : ∃ v, chunks.flatten.foldlM (writeFile env bulk) (s.prepareBulk bulk) = .ok v := by
      rw [writeFileGraphsBatches, List.foldlM_cons] at ht
      simp only [bind, Except.bind] at ht
      split at ht
      · cases ht
      next t' ht' =>
        obtain ⟨_, hok⟩ := of_map_fst ht'
        obtain ⟨v, hv, _⟩ := writeFileGraphsBatch_ok hstage hok
        exact ⟨v, hv⟩
    obtain ⟨hpn, _, hps⟩ := prepareBulk_tables bulk s
    obtain ⟨hnu, hsu⟩ := batches_tables hstage hu hpn.symm hps.symm hv
    obtain ⟨hnt, hst⟩ := batches_tables hstage ht hpn.symm hps.symm (hflat ▸ hv)
    refine ⟨?_, hedges, ?_⟩
    · rw [hnu, hnt]
      exact Table.Same.refl _
    · rw [hsu, hst]
      exact Table.Same.refl _

/-- The importer and then its target, which gives the importer's edge once more. -/
theorem batches_agree_repeated :
    ∃ t u, empty.writeFileGraphsBatches lengthEnv false
        [[importerGraph (some 90), importedGraph (some 90)]] = .ok t ∧
      empty.writeFileGraphsBatches lengthEnv false
        [[importerGraph (some 90)], [importedGraph (some 90)]] = .ok u ∧
      u.nodes.Same t.nodes.toTable ∧ u.edges.Same t.edges ∧ u.sites.Same t.sites := by
  obtain ⟨t, ht⟩ := exists_ok (x := empty.writeFileGraphsBatches lengthEnv false
    [[importerGraph (some 90), importedGraph (some 90)]]) (by decide +kernel)
  obtain ⟨u, hu⟩ := exists_ok (x := empty.writeFileGraphsBatches lengthEnv false
    [[importerGraph (some 90)], [importedGraph (some 90)]]) (by decide +kernel)
  have hiff := @batches_agree_iff _ _ _ _ _ [[importerGraph (some 90)], [importedGraph (some 90)]]
    rfl (by decide) (by decide) ht hu
  exact ⟨t, u, ht, hu, hiff.mpr (by decide +kernel)⟩

def targetGraph : FileGraph := { importedGraph none with edges := [] }

/-- An import is lost when its target comes with a later call. -/
theorem batch_boundary_loses_import :
    (∀ file ∈ [importerGraph (some 90), targetGraph], file.OwnPaths) ∧
      ∃ t u, empty.writeFileGraphsBatches lengthEnv false [[importerGraph (some 90), targetGraph]] =
        .ok t ∧
      empty.writeFileGraphsBatches lengthEnv false [[importerGraph (some 90)], [targetGraph]] =
        .ok u ∧
      t.edges.Has (17, 11, .resolvesTo) ∧ ¬ u.edges.Has (17, 11, .resolvesTo) := by
  obtain ⟨t, ht, hkeep⟩ := exists_ok_and (x := empty.writeFileGraphsBatches lengthEnv false
    [[importerGraph (some 90), targetGraph]]) (p := fun t => t.edges.Has (17, 11, .resolvesTo))
    (by decide +kernel)
  obtain ⟨u, hu, hlose⟩ := exists_ok_and (x := empty.writeFileGraphsBatches lengthEnv false
    [[importerGraph (some 90)], [targetGraph]]) (p := fun u => ¬ u.edges.Has (17, 11, .resolvesTo))
    (by decide +kernel)
  exact ⟨by decide, t, u, ht, hu, hkeep, hlose⟩

end Travsr.Store.SqliteStore
