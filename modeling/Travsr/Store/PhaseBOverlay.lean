import Travsr.Store.Attribution
import Travsr.Store.PhaseBRows

namespace Travsr.Store

open Travsr.Core Relational

/-! ### Edge tables -/

/-- No row is made live, and every row stays unless something that is not the live lane takes its
key over. -/
structure TakenOver (t u : EdgeTable) : Prop where
  row : ∀ e, e ∈ t → ∃ e', e' ∈ u ∧ e'.key = e.key ∧ (e' = e ∨ e'.provenance ≠ "live")
  live : ∀ e, e ∈ u → e.provenance = "live" → e ∈ t

theorem TakenOver.refl (t : EdgeTable) : TakenOver t t :=
  ⟨fun e he => ⟨e, he, rfl, .inl rfl⟩, fun _ he _ => he⟩

theorem TakenOver.trans {t u v : EdgeTable} (h : TakenOver t u) (h' : TakenOver u v) :
    TakenOver t v := by
  refine ⟨?_, fun e he hl => h.live e (h'.live e he hl) hl⟩
  intro e he
  obtain ⟨e', he', hk', hc'⟩ := h.row e he
  obtain ⟨e'', he'', hk'', hc''⟩ := h'.row e' he'
  refine ⟨e'', he'', hk''.trans hk', ?_⟩
  rcases hc'' with rfl | hc''
  · exact hc'
  · exact .inr hc''

theorem TakenOver.upsert {t : EdgeTable} {row : EdgeRow} {f : EdgeRow → EdgeRow}
    {hf : ∀ x, (f x).key = x.key} (hrow : row.provenance ≠ "live")
    (h : ∀ o, (f o).provenance ≠ "live") : TakenOver t (t.upsert row f hf) := by
  refine ⟨?_, ?_⟩
  · intro e he
    by_cases hk : e.key = row.key
    · exact ⟨f e, Table.mem_upsert.mpr (.inr (.inl ⟨e, he, hk, rfl⟩)), hf e, .inr (h e)⟩
    · exact ⟨e, Table.mem_upsert.mpr (.inl ⟨he, hk⟩), rfl, .inl rfl⟩
  · intro e he hl
    rcases Table.mem_upsert.mp he with ⟨he, -⟩ | ⟨o, -, -, rfl⟩ | ⟨rfl, -⟩
    · exact he
    · exact absurd hl (h o)
    · exact absurd hl hrow

theorem TakenOver.insertIgnore {t : EdgeTable} {row : EdgeRow} (hrow : row.provenance ≠ "live") :
    TakenOver t (t.insertIgnore row) := by
  refine ⟨fun e he => ⟨e, Table.mem_insertIgnore.mpr (.inl he), rfl, .inl rfl⟩, ?_⟩
  intro e he hl
  rcases Table.mem_insertIgnore.mp he with he | ⟨rfl, -⟩
  · exact he
  · exact absurd hl hrow

theorem TakenOver.foldl {β : Type} {f : EdgeTable → β → EdgeTable} {bs : List β} {t : EdgeTable}
    (h : ∀ t b, TakenOver t (f t b)) : TakenOver t (bs.foldl f t) := by
  induction bs generalizing t with
  | nil => exact .refl t
  | cons b bs ih => exact (h t b).trans ih

def liveRows (t : EdgeTable) : EdgeTable := t.deleteWhere fun e => e.provenance ≠ "live"

theorem mem_liveRows {t : EdgeTable} {e : EdgeRow} :
    e ∈ liveRows t ↔ e ∈ t ∧ e.provenance = "live" := by
  unfold liveRows
  rw [Table.mem_deleteWhere, not_not]

theorem phaseBEdgeUpdate_not_live {excluded : EdgeRow} (h : excluded.provenance ≠ "live")
    (o : EdgeRow) : (phaseBEdgeUpdate excluded o).provenance ≠ "live" := by
  unfold phaseBEdgeUpdate
  dsimp only
  split_ifs with he ho
  · exact h
  · intro hl
    rw [hl] at ho
    revert ho
    decide
  · exact h

/-! ### Node tables -/

def NamesKept (a b : NodeTable) : Prop :=
  ∀ r, r ∈ a → ∃ r', r' ∈ b ∧ r'.id = r.id ∧ r'.vname = r.vname

theorem NamesKept.refl (a : NodeTable) : NamesKept a a := fun r hr => ⟨r, hr, rfl, rfl⟩

theorem NamesKept.trans {a b c : NodeTable} (h : NamesKept a b) (h' : NamesKept b c) :
    NamesKept a c := by
  intro r hr
  obtain ⟨r', hr', hid', hv'⟩ := h r hr
  obtain ⟨r'', hr'', hid'', hv''⟩ := h' r' hr'
  exact ⟨r'', hr'', hid''.trans hid', hv''.trans hv'⟩

theorem NamesKept.foldl_phaseBNode {nodes : List Node} {st : NodeTable × Lexical} :
    NamesKept st.1 (nodes.foldl phaseBNode st).1 := by
  induction nodes generalizing st with
  | nil => exact .refl st.1
  | cons n nodes ih =>
    refine NamesKept.trans ?_ ih
    intro r hr
    rw [phaseBNode_eq]
    by_cases hk : r.id = (phaseBRow n).id
    · exact ⟨(phaseBUpdate (phaseBRow n)).apply r,
        IndexedTable.mem_upsertSkip.mpr (.inr (.inl ⟨r, hr, hk, rfl⟩)), rfl, rfl⟩
    · exact ⟨r, IndexedTable.mem_upsertSkip.mpr (.inl ⟨hr, hk⟩), rfl, rfl⟩

theorem NamesKept.phaseBNodes (s : SqliteStore) (nodes : List Node) :
    NamesKept s.nodes (phaseBNodes s nodes).1 :=
  @NamesKept.foldl_phaseBNode nodes (s.nodes, s.lex)

theorem Grown.namesKept {env : Env} {corpus : String} {a b : NodeTable}
    (h : Grown env corpus a b) : NamesKept a b := by
  intro r hr
  have hfind : a.find? r.id = some r := Table.find?_of_mem (t := a.toTable) hr
  obtain ⟨hmem, hid⟩ := Table.mem_of_find? (h.row r.id r hfind)
  exact ⟨r, hmem, hid, rfl⟩

/-! ### The writers of a Phase B run -/

/-- What a Phase B run makes of a store: the nodes keep their names, and the live edges their
rows, as far as the run does not derive them anew. -/
structure OverlayKept (s t : SqliteStore) : Prop where
  nodes : NamesKept s.nodes t.nodes
  edges : TakenOver (liveRows s.edges) t.edges

namespace OverlayKept

variable {env : Env} {corpus : String} {s t u : SqliteStore}

theorem refl (s : SqliteStore) : OverlayKept s s :=
  ⟨.refl s.nodes, fun e he => ⟨e, (mem_liveRows.mp he).1, rfl, .inl rfl⟩,
    fun _ he hl => mem_liveRows.mpr ⟨he, hl⟩⟩

theorem write (h : OverlayKept s t) (hn : NamesKept t.nodes u.nodes)
    (he : TakenOver t.edges u.edges) : OverlayKept s u :=
  ⟨h.nodes.trans hn, h.edges.trans he⟩

theorem phaseBBatch (h : OverlayKept s t) {nodes : List Node} {edges : List Edge}
    {provenance : String} (hp : provenance ≠ "live") :
    OverlayKept s ((t.writePhaseBBatch nodes edges provenance).toOption.getD t) := by
  unfold SqliteStore.writePhaseBBatch
  dsimp only
  split_ifs
  · exact h
  · refine h.write (NamesKept.phaseBNodes t nodes) ?_
    exact TakenOver.foldl fun t e => TakenOver.upsert hp (phaseBEdgeUpdate_not_live hp)
  · exact h

theorem takenOver_attributeRef {spans : String → List FnSpan} (st : Attribution) (ref : ScipRef) :
    TakenOver st.edges (attributeRef env corpus spans st ref).edges := by
  have hscip : "scip" ≠ "live" := by decide
  unfold attributeRef
  dsimp only
  split_ifs
  · exact .refl _
  · split
    · exact .refl _
    · dsimp only
      split_ifs
      · exact TakenOver.upsert hscip fun _ => hscip
      · exact TakenOver.upsert hscip fun _ => hscip
      · exact .refl _

theorem takenOver_attributeRefs {spans : String → List FnSpan} {refs : List ScipRef}
    {st : Attribution} :
    TakenOver st.edges (refs.foldl (attributeRef env corpus spans) st).edges := by
  induction refs generalizing st with
  | nil => exact .refl _
  | cons ref refs ih => exact (takenOver_attributeRef st ref).trans ih

theorem takenOver_foldl_retractOwned {keep paths : List String} {st : Attribution} :
    TakenOver (liveRows st.edges) (paths.foldl (retractOwned corpus keep) st).edges := by
  have hrun : ∀ e : EdgeRow, (e ∈ (paths.foldl (retractOwned corpus keep) st).edges → e ∈ st.edges) ∧
      (e ∈ st.edges → e.provenance = "live" →
        e ∈ (paths.foldl (retractOwned corpus keep) st).edges) := by
    intro e
    induction paths generalizing st with
    | nil => exact ⟨id, fun he _ => he⟩
    | cons path paths ih =>
      have hstep : (e ∈ (retractOwned corpus keep st path).edges → e ∈ st.edges) ∧
          (e ∈ st.edges → e.provenance = "live" →
            e ∈ (retractOwned corpus keep st path).edges) := by
        unfold retractOwned
        split_ifs
        · exact ⟨id, fun he _ => he⟩
        · refine ⟨fun he => (Table.mem_deleteWhere.mp he).1, ?_⟩
          intro he hl
          refine Table.mem_deleteWhere.mpr ⟨he, ?_⟩
          rw [hl]
          exact fun h => absurd h.1 (by decide)
      exact ⟨fun he => hstep.1 (ih.1 he), fun he hl => ih.2 (hstep.2 he hl) hl⟩
  refine ⟨fun e he => ?_, fun e he hl => mem_liveRows.mpr ⟨(hrun e).1 he, hl⟩⟩
  obtain ⟨he, hl⟩ := mem_liveRows.mp he
  exact ⟨e, (hrun e).2 he hl, rfl, .inl rfl⟩

theorem attributedBatch (nodes : List Node) (refs : List ScipRef) (keep : List String) :
    OverlayKept s (s.writeScipAttributedBatchKeeping env corpus nodes refs keep) := by
  unfold SqliteStore.writeScipAttributedBatchKeeping SqliteStore.attributeRefs
  split_ifs
  · exact .refl s
  · dsimp only
    refine ⟨?_, ?_⟩
    · rw [foldl_attributeRef_eq _ refs _ (by rw [foldl_retractOwned_nodes])]
      dsimp only
      rw [foldl_retractOwned_nodes]
      exact (NamesKept.phaseBNodes s nodes).trans (grown_foldl_attributeCaller _ refs).namesKept
    · have hretracted := @takenOver_foldl_retractOwned corpus keep
        (refs.map ScipRef.callerPath).dedup ⟨(phaseBNodes s nodes).1, s.edges, s.sites⟩
      exact hretracted.trans takenOver_attributeRefs

end OverlayKept

end Travsr.Store
