import Travsr.Store.LiveOverlay
import Travsr.Store.PhaseBOrphans
import Travsr.Store.Staging

namespace Travsr.Store

open Travsr.Core Relational

/-- A writer of edges with its arguments. -/
inductive EdgeWriter where
  | putEdge (e : Edge)
  | putEdgeLive (e : Edge)
  | putEdgeLsif (e : Edge)
  | phaseB (nodes : List Node) (edges : List Edge) (provenance : String)
  | scipAttributed (corpus : String) (nodes : List Node) (refs : List ScipRef)
  | fileGraphs (batch : List FileGraph) (bulk : Bool)
  | beginStaging
  | flush (bare : SqliteStore.BareRow)

namespace EdgeWriter

def provenance : EdgeWriter → Option String
  | putEdge _ | fileGraphs _ _ | flush _ => some "tree-sitter"
  | putEdgeLive _ => some "live"
  | putEdgeLsif _ => some "lsif"
  | phaseB _ _ provenance => some provenance
  | scipAttributed _ _ _ => some "scip"
  | beginStaging => none

/-- The writer ranks below a compiler. -/
def Heuristic (w : EdgeWriter) : Prop := ∀ p ∈ w.provenance, ¬ isCommitted p

def apply (env : Env) (s : SqliteStore) : EdgeWriter → SqliteStore
  | putEdge e => (s.putEdge e).toOption.getD s
  | putEdgeLive e => (s.putEdgeLive e).toOption.getD s
  | putEdgeLsif e => (s.putEdgeLsif e).toOption.getD s
  | phaseB nodes edges provenance => (s.writePhaseBBatch nodes edges provenance).toOption.getD s
  | scipAttributed corpus nodes refs => s.writeScipAttributedBatch env corpus nodes refs
  | fileGraphs batch bulk => ((s.writeFileGraphsBatch env batch bulk).toOption.map Prod.fst).getD s
  | beginStaging => s.beginStagingTables
  | flush bare => (s.flushStagingToProduction bare).1

def DeletesNone (env : Env) (s : SqliteStore) : EdgeWriter → Prop
  | scipAttributed corpus nodes refs =>
    ((refs.map ScipRef.callerPath).dedup.foldl (retractOwned corpus [])
      ⟨(phaseBNodes s nodes).1, s.edges, s.sites⟩).edges = s.edges
  | fileGraphs batch bulk => s.stagingActive = false → ∀ t,
    batch.foldlM (SqliteStore.writeFile env bulk) (s.prepareBulk bulk) = .ok t → t.edges = s.edges
  | _ => True

def run (env : Env) (s : SqliteStore) (ws : List EdgeWriter) : SqliteStore := ws.foldl (apply env) s

theorem run_concat (env : Env) (s : SqliteStore) (ws : List EdgeWriter) (w : EdgeWriter) :
    run env s (ws ++ [w]) = w.apply env (run env s ws) := by
  rw [run, List.foldl_append]
  rfl

end EdgeWriter

/-- A row under a compiler's label still has one. -/
def LabelKept (t u : EdgeTable) : Prop :=
  ∀ r, r ∈ t → isCommitted r.provenance → ∃ r', r' ∈ u ∧ r'.key = r.key ∧ isCommitted r'.provenance

theorem LabelKept.refl (t : EdgeTable) : LabelKept t t := fun r hr hc => ⟨r, hr, rfl, hc⟩

theorem LabelKept.trans {t u v : EdgeTable} (h : LabelKept t u) (h' : LabelKept u v) :
    LabelKept t v := by
  intro r hr hc
  obtain ⟨r', hr', hk', hc'⟩ := h r hr hc
  obtain ⟨r'', hr'', hk'', hc''⟩ := h' r' hr' hc'
  exact ⟨r'', hr'', hk''.trans hk', hc''⟩

theorem LabelKept.of_mem {t u : EdgeTable} (h : ∀ r, r ∈ t → isCommitted r.provenance → r ∈ u) :
    LabelKept t u := fun r hr hc => ⟨r, h r hr hc, rfl, hc⟩

theorem LabelKept.upsert {t : EdgeTable} {row : EdgeRow} {f : EdgeRow → EdgeRow}
    {hf : ∀ x, (f x).key = x.key}
    (h : ∀ o, isCommitted o.provenance → isCommitted (f o).provenance) :
    LabelKept t (t.upsert row f hf) := by
  intro r hr hc
  by_cases hk : r.key = row.key
  · exact ⟨f r, Table.mem_upsert.mpr (.inr (.inl ⟨r, hr, hk, rfl⟩)), hf r, h r hc⟩
  · exact ⟨r, Table.mem_upsert.mpr (.inl ⟨hr, hk⟩), rfl, hc⟩

theorem LabelKept.foldl {β : Type} {f : EdgeTable → β → EdgeTable} {bs : List β} {t : EdgeTable}
    (h : ∀ t b, b ∈ bs → LabelKept t (f t b)) : LabelKept t (bs.foldl f t) := by
  induction bs generalizing t with
  | nil => exact .refl t
  | cons b bs ih =>
    exact (h t b List.mem_cons_self).trans (ih fun t b hb => h t b (List.mem_cons_of_mem _ hb))

theorem isCommitted_iff (p : String) : isCommitted p ↔ p ∈ ["lsif", "scip"] := by
  simp [isCommitted, or_comm]

theorem isCommitted_phaseBEdgeUpdate {excluded old : EdgeRow} (h : isCommitted old.provenance) :
    isCommitted (phaseBEdgeUpdate excluded old).provenance := by
  rw [isCommitted_iff] at h ⊢
  simp only [phaseBEdgeUpdate]
  split_ifs with hx
  · exact hx
  · exact h

theorem phaseBEdgeUpdate_committed {excluded old : EdgeRow} (he : ¬ isCommitted excluded.provenance)
    (ho : isCommitted old.provenance) :
    phaseBEdgeUpdate excluded old = { old with confidence := excluded.confidence } := by
  rw [isCommitted_iff] at he ho
  rw [phaseBEdgeUpdate, if_neg he, if_pos ho]

namespace SqliteStore

variable {env : Env} {s s' : SqliteStore} {e : Edge} {nodes : List Node} {edges : List Edge}
  {provenance corpus : String}

def phaseBWritten (s : SqliteStore) (nodes : List Node) (edges : List Edge) : List Edge :=
  edges.filter fun e => s.endpointPresent nodes e.src ∧ s.endpointPresent nodes e.dst

/-- A Phase B batch that goes through gives an edge a compiler has labelled the confidence it
already had, if it gives it any. -/
def KeepsConfidence (s : SqliteStore) (nodes : List Node) (edges : List Edge) : Prop :=
  (∀ e ∈ s.phaseBWritten nodes edges, confidenceOk e.confidence) →
    ∀ r, r ∈ s.edges → isCommitted r.provenance →
      ∀ e ∈ ((s.phaseBWritten nodes edges).filter fun e => (e.src, e.dst, e.kind) = r.key).getLast?,
        e.confidence = r.confidence

instance (s : SqliteStore) (nodes : List Node) (edges : List Edge) :
    Decidable (s.KeepsConfidence nodes edges) :=
  inferInstanceAs (Decidable (_ → ∀ r ∈ s.edges.rows, _))

theorem mem_putEdge (h : s.putEdge e = .ok s') {r : EdgeRow} (hr : r ∈ s.edges) : r ∈ s'.edges := by
  unfold putEdge at h
  split_ifs at h
  obtain rfl := Except.ok.inj h
  exact Table.mem_insertIgnore.mpr (.inl hr)

theorem mem_putEdgeLive (h : s.putEdgeLive e = .ok s') {r : EdgeRow} (hr : r ∈ s.edges)
    (hl : r.provenance ≠ "live") : r ∈ s'.edges := by
  unfold putEdgeLive at h
  split_ifs at h
  obtain rfl := Except.ok.inj h
  refine Table.mem_upsert.mpr ?_
  by_cases hk : r.key = (EdgeRow.mk e.src e.dst e.kind "live" e.confidence).key
  · exact .inr (.inl ⟨r, hr, hk, by rw [liveUpdate, if_neg hl]⟩)
  · exact .inl ⟨hr, hk⟩

theorem labelKept_putEdgeLsif (h : s.putEdgeLsif e = .ok s') : LabelKept s.edges s'.edges := by
  unfold putEdgeLsif at h
  split_ifs at h
  obtain rfl := Except.ok.inj h
  exact LabelKept.upsert fun _ _ => rfl

theorem labelKept_writePhaseBBatch (h : s.writePhaseBBatch nodes edges provenance = .ok s') :
    LabelKept s.edges s'.edges := by
  rw [(writePhaseBBatch_ok h).2.2.1]
  exact LabelKept.foldl fun t e _ => LabelKept.upsert fun _ => isCommitted_phaseBEdgeUpdate

theorem find?_writePhaseBBatch (h : s.writePhaseBBatch nodes edges provenance = .ok s')
    (hp : ¬ isCommitted provenance) {r : EdgeRow} (hr : r ∈ s.edges)
    (hc : isCommitted r.provenance) :
    s'.edges.find? r.key = some
      { r with confidence := (((s.phaseBWritten nodes edges).filter fun e =>
          (e.src, e.dst, e.kind) = r.key).getLast?.map Edge.confidence).getD r.confidence } := by
  have hfold : ∀ es : List Edge, es.foldl (fun o e => some (o.elim
      ⟨e.src, e.dst, e.kind, provenance, e.confidence⟩
      (phaseBEdgeUpdate ⟨e.src, e.dst, e.kind, provenance, e.confidence⟩))) (some r) =
      some { r with confidence := (es.getLast?.map Edge.confidence).getD r.confidence } := by
    intro es
    induction es using List.reverseRecOn with
    | nil => rfl
    | append_singleton es e ih =>
      have hstep := @phaseBEdgeUpdate_committed ⟨e.src, e.dst, e.kind, provenance, e.confidence⟩
        { r with confidence := (es.getLast?.map Edge.confidence).getD r.confidence } hp hc
      rw [List.foldl_append, ih, List.getLast?_concat, List.foldl_cons, List.foldl_nil,
        Option.elim_some, hstep]
      rfl
  have hfind := @Table.find?_foldl_upsert _ _ EdgeRow.key _ _
    (fun e : Edge => ⟨e.src, e.dst, e.kind, provenance, e.confidence⟩)
    (fun e => phaseBEdgeUpdate ⟨e.src, e.dst, e.kind, provenance, e.confidence⟩)
    (fun e => phaseBEdgeUpdate_key _) (s.phaseBWritten nodes edges) s.edges r.key
  rw [Table.find?_of_mem hr, hfold] at hfind
  rw [(writePhaseBBatch_ok h).2.2.1]
  exact hfind

theorem writePhaseBBatch_isOk :
    (∃ s', s.writePhaseBBatch nodes edges provenance = .ok s') ↔
      ∀ e ∈ s.phaseBWritten nodes edges, confidenceOk e.confidence := by
  rw [← List.all_eq_true, writePhaseBBatch]
  split_ifs with he
  · simp only [Bool.and_eq_true, List.isEmpty_iff] at he
    rw [phaseBWritten, he.2]
    exact iff_of_true ⟨s, rfl⟩ rfl
  · dsimp only
    rw [phaseBWritten]
    split_ifs with hall
    · exact iff_of_true ⟨_, rfl⟩ hall
    · exact iff_of_false (fun ⟨_, h⟩ => by cases h) hall

/-- A heuristic Phase B batch leaves compilers' edges unchanged exactly when it keeps their
confidence. -/
theorem committed_unchanged_iff (hp : ¬ isCommitted provenance) :
    (∀ r, r ∈ s.edges → isCommitted r.provenance →
      r ∈ ((s.writePhaseBBatch nodes edges provenance).toOption.getD s).edges) ↔
      s.KeepsConfidence nodes edges := by
  cases h : s.writePhaseBBatch nodes edges provenance with
  | error err =>
    refine iff_of_true (fun r hr _ => hr) ?_
    intro hall
    obtain ⟨s', hs'⟩ := (@writePhaseBBatch_isOk s nodes edges provenance).mpr hall
    rw [h] at hs'
    cases hs'
  | ok s' =>
    have hall := (@writePhaseBBatch_isOk s nodes edges provenance).mp ⟨s', h⟩
    refine Iff.trans ?_ (forall_prop_of_true hall).symm
    refine forall_congr' fun r => forall_congr' fun hr => forall_congr' fun hc => ?_
    have hfind := find?_writePhaseBBatch h hp hr hc
    have hmem : r ∈ s'.edges ↔ s'.edges.find? r.key = some r :=
      ⟨Table.find?_of_mem, fun hf => (Table.mem_of_find? hf).1⟩
    change r ∈ s'.edges ↔ _
    rw [hmem, hfind]
    cases (((s.phaseBWritten nodes edges).filter fun e =>
        (e.src, e.dst, e.kind) = r.key).getLast?) with
    | none => simp
    | some e =>
      cases r
      simp

theorem labelKept_attributeRef (spans : String → List FnSpan) (st : Attribution) (ref : ScipRef) :
    LabelKept st.edges (attributeRef env corpus spans st ref).edges := by
  unfold attributeRef
  dsimp only
  split_ifs
  · exact .refl _
  · split
    · exact .refl _
    next callee _ =>
      dsimp only
      split_ifs
      · exact LabelKept.upsert fun _ _ => rfl
      · exact LabelKept.upsert fun _ _ => rfl
      · exact .refl _

theorem labelKept_writeScipAttributedBatch {refs : List ScipRef}
    (h : (EdgeWriter.scipAttributed corpus nodes refs).DeletesNone env s) :
    LabelKept s.edges (s.writeScipAttributedBatch env corpus nodes refs).edges := by
  have hfold : ∀ (spans : String → List FnSpan) (refs : List ScipRef) (st : Attribution),
      LabelKept st.edges (refs.foldl (attributeRef env corpus spans) st).edges := by
    intro spans refs
    induction refs with
    | nil => exact fun st => .refl _
    | cons ref refs ih =>
      intro st
      exact (labelKept_attributeRef spans st ref).trans (ih _)
  unfold writeScipAttributedBatch writeScipAttributedBatchKeeping
  split_ifs
  · exact .refl _
  · have hkept := hfold (fetchAllFnSpans (phaseBNodes s nodes).1 corpus) refs
      ((refs.map ScipRef.callerPath).dedup.foldl (retractOwned corpus [])
        ⟨(phaseBNodes s nodes).1, s.edges, s.sites⟩)
    rw [h] at hkept
    exact hkept

theorem stageFile_edges {file : FileGraph} (h : stageFile env s file = .ok s') :
    s'.edges = s.edges := by
  unfold stageFile at h
  split at h
  · cases h
  · split at h
    · cases h
    · obtain rfl := Except.ok.inj h
      rfl

theorem foldlM_stageFile_edges {batch : List FileGraph}
    (h : batch.foldlM (stageFile env) s = .ok s') : s'.edges = s.edges := by
  induction batch generalizing s with
  | nil =>
    obtain rfl := Except.ok.inj h
    rfl
  | cons file batch ih =>
    rw [List.foldlM_cons] at h
    simp only [bind, Except.bind] at h
    split at h
    · cases h
    next t ht => exact (ih h).trans (stageFile_edges ht)

theorem mem_writeFileGraphsBatch {batch : List FileGraph} {bulk : Bool} {counts : BatchWriteCounts}
    (hd : (EdgeWriter.fileGraphs batch bulk).DeletesNone env s)
    (h : s.writeFileGraphsBatch env batch bulk = .ok (s', counts)) {r : EdgeRow}
    (hr : r ∈ s.edges) : r ∈ s'.edges := by
  cases hstage : s.stagingActive with
  | true =>
    simp only [writeFileGraphsBatch, hstage, bind, Except.bind, pure, Except.pure, if_true] at h
    split at h
    · cases h
    next t ht =>
      obtain ⟨rfl, _⟩ := Prod.mk.inj (Except.ok.inj h)
      rwa [foldlM_stageFile_edges ht, (prepareBulk_tables bulk s).2.1]
  | false =>
    obtain ⟨t, ht, _, _, _, he⟩ := writeFileGraphsBatch_ok hstage h
    rw [he, hd hstage t ht]
    exact Table.mem_insertAll_of_mem hr

theorem mem_flushStagingToProduction {bare : BareRow} {r : EdgeRow} (hr : r ∈ s.edges) :
    r ∈ (s.flushStagingToProduction bare).1.edges := by
  unfold flushStagingToProduction
  split
  · exact hr
  · exact hr
  · split
    · exact hr
    · dsimp only
      split_ifs
      · exact Table.mem_insertAll_of_mem hr
      · exact hr

end SqliteStore

namespace EdgeWriter

variable {env : Env} {s : SqliteStore} {w : EdgeWriter}

theorem getD_of_ok {P : SqliteStore → Prop} {x : Except StoreError SqliteStore}
    (h : ∀ s', x = .ok s' → P s') (h0 : P s) : P (x.toOption.getD s) := by
  cases x with
  | ok s' => exact h s' rfl
  | error e => exact h0

theorem labelKept_apply (h : w.DeletesNone env s) : LabelKept s.edges (w.apply env s).edges := by
  cases w with
  | putEdge e =>
    exact getD_of_ok (P := fun s' => LabelKept s.edges s'.edges)
      (fun s' hs' => .of_mem fun r hr _ => SqliteStore.mem_putEdge hs' hr) (.refl _)
  | putEdgeLive e =>
    refine getD_of_ok (P := fun s' => LabelKept s.edges s'.edges) ?_ (.refl _)
    intro s' hs'
    refine .of_mem fun r hr hc => SqliteStore.mem_putEdgeLive hs' hr ?_
    intro hl
    rw [hl] at hc
    exact absurd hc (by decide)
  | putEdgeLsif e =>
    exact getD_of_ok (P := fun s' => LabelKept s.edges s'.edges)
      (fun s' => SqliteStore.labelKept_putEdgeLsif) (.refl _)
  | phaseB nodes edges provenance =>
    exact getD_of_ok (P := fun s' => LabelKept s.edges s'.edges)
      (fun s' => SqliteStore.labelKept_writePhaseBBatch) (.refl _)
  | scipAttributed corpus nodes refs => exact SqliteStore.labelKept_writeScipAttributedBatch h
  | fileGraphs batch bulk =>
    cases hw : s.writeFileGraphsBatch env batch bulk with
    | error err =>
      rw [apply, hw]
      exact .refl _
    | ok p =>
      rw [apply, hw]
      exact .of_mem fun r hr _ => SqliteStore.mem_writeFileGraphsBatch h hw hr
  | beginStaging => exact .refl _
  | flush bare => exact .of_mem fun r hr _ => SqliteStore.mem_flushStagingToProduction hr

/-- The state in which a call of the run is made meets the condition: a heuristic Phase B batch
keeps the confidence of compilers' edges. -/
def Condition (s : SqliteStore) : EdgeWriter → Prop
  | phaseB nodes edges provenance => ¬ isCommitted provenance → s.KeepsConfidence nodes edges
  | _ => True

theorem unchanged_iff (h : w.DeletesNone env s) :
    (w.Heuristic → ∀ r, r ∈ s.edges → isCommitted r.provenance → r ∈ (w.apply env s).edges) ↔
      w.Condition s := by
  cases w with
  | putEdge e =>
    refine iff_of_true (fun _ r hr _ => ?_) trivial
    exact getD_of_ok (P := fun s' => r ∈ s'.edges) (fun s' hs' => SqliteStore.mem_putEdge hs' hr) hr
  | putEdgeLive e =>
    refine iff_of_true (fun _ r hr hc => ?_) trivial
    refine getD_of_ok (P := fun s' => r ∈ s'.edges) (fun s' hs' =>
      SqliteStore.mem_putEdgeLive hs' hr ?_) hr
    intro hl
    rw [hl] at hc
    exact absurd hc (by decide)
  | putEdgeLsif e =>
    exact iff_of_true (fun hw => absurd rfl (hw "lsif" rfl)) trivial
  | phaseB nodes edges provenance =>
    have hw : (phaseB nodes edges provenance).Heuristic ↔ ¬ isCommitted provenance := by
      simp [Heuristic, EdgeWriter.provenance]
    rw [hw]
    exact forall_congr' fun hp => SqliteStore.committed_unchanged_iff hp
  | scipAttributed corpus nodes refs =>
    exact iff_of_true (fun hw => absurd rfl (hw "scip" rfl)) trivial
  | fileGraphs batch bulk =>
    refine iff_of_true (fun _ r hr _ => ?_) trivial
    cases hw : s.writeFileGraphsBatch env batch bulk with
    | error err =>
      rw [apply, hw]
      exact hr
    | ok p =>
      rw [apply, hw]
      exact SqliteStore.mem_writeFileGraphsBatch h hw hr
  | beginStaging => exact iff_of_true (fun _ r hr _ => hr) trivial
  | flush bare =>
    exact iff_of_true (fun _ r hr _ => SqliteStore.mem_flushStagingToProduction hr) trivial

/-- Something holds of every call of a run, in the store it is made in. -/
def EveryCall (env : Env) (P : SqliteStore → EdgeWriter → Prop) (s : SqliteStore)
    (ws : List EdgeWriter) : Prop :=
  ∀ pre w post, ws = pre ++ w :: post → P (run env s pre) w

theorem everyCall_nil {P : SqliteStore → EdgeWriter → Prop} : EveryCall env P s [] := by
  intro pre w post h
  simp at h

theorem everyCall_cons {P : SqliteStore → EdgeWriter → Prop} {ws : List EdgeWriter} :
    EveryCall env P s (w :: ws) ↔ P s w ∧ EveryCall env P (w.apply env s) ws := by
  constructor
  · intro h
    refine ⟨h [] w ws rfl, ?_⟩
    intro pre w' post hws
    exact h (w :: pre) w' post (by rw [hws]; rfl)
  · intro h pre w' post hws
    cases pre with
    | nil =>
      obtain ⟨rfl, _⟩ := List.cons.inj hws
      exact h.1
    | cons v pre =>
      obtain ⟨hv, hrest⟩ := List.cons.inj hws
      subst hv
      exact h.2 pre w' post hrest

/-- The precedence of labels over a run: an edge under a compiler's label keeps one, a live write
changes live rows only, and a heuristic write leaves a compiler's edge as it is. -/
structure Precedence (env : Env) (s : SqliteStore) (ws : List EdgeWriter) : Prop where
  label : ∀ pre mid post, ws = pre ++ mid ++ post →
    LabelKept (run env s pre).edges (run env s (pre ++ mid)).edges
  live : ∀ pre e post, ws = pre ++ putEdgeLive e :: post → ∀ r, r ∈ (run env s pre).edges →
    r.provenance ≠ "live" → r ∈ (run env s (pre ++ [putEdgeLive e])).edges
  heuristic : ∀ pre w post, ws = pre ++ w :: post → w.Heuristic → ∀ r, r ∈ (run env s pre).edges →
    isCommitted r.provenance → r ∈ (run env s (pre ++ [w])).edges

theorem labelKept_run {ws : List EdgeWriter} (h : EveryCall env (DeletesNone env) s ws) :
    ∀ pre mid post, ws = pre ++ mid ++ post →
      LabelKept (run env s pre).edges (run env s (pre ++ mid)).edges := by
  intro pre mid
  induction mid using List.reverseRecOn with
  | nil =>
    intro post _
    rw [List.append_nil]
    exact .refl _
  | append_singleton mid w ih =>
    intro post hws
    have hsplit : ws = pre ++ mid ++ w :: post := by
      rw [hws]
      simp
    refine (ih (w :: post) hsplit).trans ?_
    rw [← List.append_assoc, run_concat]
    exact labelKept_apply (h (pre ++ mid) w post hsplit)

/-- Every interleaving of the writers, its deletes meeting no edge, keeps the precedence exactly
when each heuristic Phase B batch in it gives the edges that compilers have labelled the
confidence they have. -/
theorem precedence_iff {ws : List EdgeWriter} (h : EveryCall env (DeletesNone env) s ws) :
    Precedence env s ws ↔ EveryCall env Condition s ws := by
  constructor
  · intro hp pre w post hws
    refine (unchanged_iff (h pre w post hws)).mp ?_
    have hu := hp.heuristic pre w post hws
    rwa [run_concat] at hu
  · intro hc
    refine ⟨labelKept_run h, ?_, ?_⟩
    · intro pre e post _ r hr hl
      rw [run_concat]
      exact getD_of_ok (P := fun s' => r ∈ s'.edges)
        (fun s' hs' => SqliteStore.mem_putEdgeLive hs' hr hl) hr
    · intro pre w post hws
      rw [run_concat]
      exact (unchanged_iff (h pre w post hws)).mpr (hc pre w post hws)

def foundCall (confidence : Option Nat) : Edge := ⟨8, 9, .refCall, confidence, none⟩

def callEnds : List Node :=
  [parsed "a.ts" "typescript" "fn:f" "function", parsed "a.ts" "typescript" "fn:go" "function"]

theorem precedence_guess_agrees :
    Precedence lengthEnv SqliteStore.empty [putEdgeLsif (foundCall none),
      phaseB callEnds [foundCall none] "tree-sitter", putEdgeLive (foundCall (some 40))] := by
  refine (precedence_iff ?_).mpr ?_
  · exact everyCall_cons.mpr ⟨trivial, everyCall_cons.mpr ⟨trivial,
      everyCall_cons.mpr ⟨trivial, everyCall_nil⟩⟩⟩
  · refine everyCall_cons.mpr ⟨trivial, everyCall_cons.mpr ⟨?_,
      everyCall_cons.mpr ⟨trivial, everyCall_nil⟩⟩⟩
    intro _
    decide +kernel

/-- A compiler's edge with a confidence, guessed again without one: the label stays and the
confidence is gone. -/
theorem precedence_guess_clears :
    EveryCall lengthEnv (DeletesNone lengthEnv) SqliteStore.empty
        [putEdgeLsif (foundCall (some 90)), phaseB callEnds [foundCall none] "tree-sitter"] ∧
      ¬ Precedence lengthEnv SqliteStore.empty
        [putEdgeLsif (foundCall (some 90)), phaseB callEnds [foundCall none] "tree-sitter"] := by
  refine ⟨everyCall_cons.mpr ⟨trivial, everyCall_cons.mpr ⟨trivial, everyCall_nil⟩⟩, ?_⟩
  intro hp
  have hkept := hp.heuristic [putEdgeLsif (foundCall (some 90))]
    (phaseB callEnds [foundCall none] "tree-sitter") [] rfl
    (by intro p hp'; obtain rfl := Option.some.inj hp'; decide)
    ⟨8, 9, .refCall, "lsif", some 90⟩ (by decide +kernel) (by decide)
  exact absurd hkept (by decide +kernel)

end EdgeWriter

end Travsr.Store
