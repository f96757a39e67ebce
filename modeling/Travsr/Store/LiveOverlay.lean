import Travsr.Store.Batch
import Travsr.Store.PhaseB

namespace Travsr.Store

open Travsr.Core Relational

/-- `put_edge_lsif`: a compiler's edge takes the row over. -/
def lsifUpdate (e : Edge) (old : EdgeRow) : EdgeRow :=
  { old with provenance := "lsif", confidence := e.confidence }

/-- `put_edge_live`: only a row that is live already is refreshed. -/
def liveUpdate (e : Edge) (old : EdgeRow) : EdgeRow :=
  if old.provenance = "live" then { old with confidence := e.confidence } else old

theorem liveUpdate_key (e : Edge) (old : EdgeRow) : (liveUpdate e old).key = old.key := by
  unfold liveUpdate
  split_ifs <;> rfl

namespace SqliteStore

def putEdge (s : SqliteStore) (e : Edge) : Except StoreError SqliteStore :=
  if confidenceOk e.confidence then .ok { s with edges := s.edges.insertIgnore (EdgeRow.ofParse e) }
  else .error (.database "inserting tree-sitter edge")

def putEdgeLsif (s : SqliteStore) (e : Edge) : Except StoreError SqliteStore :=
  if confidenceOk e.confidence then
    .ok { s with
      edges := s.edges.upsert ⟨e.src, e.dst, e.kind, "lsif", e.confidence⟩ (lsifUpdate e)
        (fun _ => rfl) }
  else .error (.database "inserting lsif edge")

def putEdgeLive (s : SqliteStore) (e : Edge) : Except StoreError SqliteStore :=
  if confidenceOk e.confidence then
    .ok { s with
      edges := s.edges.upsert ⟨e.src, e.dst, e.kind, "live", e.confidence⟩ (liveUpdate e)
        (liveUpdate_key e) }
  else .error (.database "inserting live edge")

/-- `sweep_live_edges_for_languages`, with the number of edges swept: the occurrence rows first,
while their edge still says `live`. -/
def sweepLiveEdgesForLanguages (s : SqliteStore) (languages : List String) : SqliteStore × Nat :=
  if languages.isEmpty then (s, 0)
  else
    let ids := s.idsWhere fun r => r.vname.language ∈ languages
    let swept (e : EdgeRow) : Prop := e.provenance = "live" ∧ e.src ∈ ids
    let keys := (s.edges.rows.filter fun e => swept e).map EdgeRow.key
    let edges := s.edges.deleteWhere swept
    ({ s with
        sites := s.sites.deleteWhere fun r => (r.src, r.dst, r.kind) ∈ keys
        edges := edges },
      s.edges.rows.length - edges.rows.length)

/-- `record_edge_sites`: unknown lines and self references are skipped. -/
def recordEdgeSites (s : SqliteStore) (sites : List (NodeId × NodeId × Nat × Option Nat)) :
    SqliteStore :=
  let known := sites.filter fun r => r.2.2.1 ≠ 0 ∧ r.1 ≠ r.2.1
  { s with
    sites := known.foldl (fun t r => putSite t ⟨r.1, r.2.1, .refCall, r.2.2.1, r.2.2.2⟩) s.sites }

end SqliteStore

end Travsr.Store

namespace Travsr.Store

open Travsr.Core Relational

namespace SqliteStore

variable {s s' : SqliteStore} {e : Edge} {es : List Edge} {languages : List String}

/-- A live edge of a language to retire: that of its source node. -/
def Retired (s : SqliteStore) (languages : List String) (e : EdgeRow) : Prop :=
  e.provenance = "live" ∧ ∃ r, r ∈ s.nodes ∧ r.id = e.src ∧ r.vname.language ∈ languages

/-- The live lane's writes, one after another; a failed one changes nothing. -/
def putEdgesLive (s : SqliteStore) (es : List Edge) : SqliteStore :=
  es.foldl (fun s e => (s.putEdgeLive e).toOption.getD s) s

/-- The sweep removes the live edges of the languages and their occurrences, and nothing else. -/
theorem sweepLiveEdges_spec (s : SqliteStore) (languages : List String) :
    let s' := (s.sweepLiveEdgesForLanguages languages).1
    (∀ e, e ∈ s'.edges ↔ e ∈ s.edges ∧ ¬ s.Retired languages e) ∧
      (∀ r, r ∈ s'.sites ↔ r ∈ s.sites ∧
        ¬ ∃ e, e ∈ s.edges ∧ s.Retired languages e ∧ e.key = (r.src, r.dst, r.kind)) ∧
      s'.nodes = s.nodes ∧ s'.files = s.files ∧ s'.lex = s.lex ∧ s'.stage = s.stage ∧
      s'.stagingActive = s.stagingActive := by
  intro s'
  cases languages with
  | nil =>
    have hno : ∀ e, ¬ s.Retired [] e := by
      intro e ⟨_, r, _, _, hl⟩
      cases hl
    have hsame : s' = s := rfl
    rw [hsame]
    refine ⟨?_, ?_, rfl, rfl, rfl, rfl, rfl⟩
    · intro e
      simp [hno e]
    · intro r
      simp [hno]
  | cons l ls =>
    have hswept : ∀ e : EdgeRow, (e.provenance = "live" ∧
        e.src ∈ s.idsWhere fun r => r.vname.language ∈ l :: ls) ↔ s.Retired (l :: ls) e := by
      intro e
      rw [mem_idsWhere]
      rfl
    refine ⟨?_, ?_, rfl, rfl, rfl, rfl, rfl⟩
    · intro e
      have hmem : e ∈ s'.edges ↔ e ∈ s.edges ∧ ¬ (e.provenance = "live" ∧
          e.src ∈ s.idsWhere fun r => r.vname.language ∈ l :: ls) := Table.mem_deleteWhere
      rw [hmem, hswept]
    · intro r
      have hmem : r ∈ s'.sites ↔ r ∈ s.sites ∧ (r.src, r.dst, r.kind) ∉
          (s.edges.rows.filter fun e => e.provenance = "live" ∧
            e.src ∈ s.idsWhere fun r => r.vname.language ∈ l :: ls).map EdgeRow.key :=
        Table.mem_deleteWhere
      rw [hmem, List.mem_map]
      simp only [List.mem_filter, decide_eq_true_eq, hswept, and_assoc]
      rfl

/-- What the live lane leaves behind: the rows that stood there, none of them live, and after them
live rows of stored sources. -/
structure Overlaid (s s' : SqliteStore) : Prop where
  nodes : s'.nodes = s.nodes
  edges : ∃ live : List EdgeRow, s'.edges.rows = s.edges.rows ++ live ∧
    ∀ e ∈ live, e.provenance = "live" ∧ s.Stored e.src

theorem liveUpdate_of_live (e : Edge) {o : EdgeRow} (h : o.provenance = "live") :
    (liveUpdate e o).provenance = "live" ∧ (liveUpdate e o).src = o.src := by
  rw [liveUpdate, if_pos h]
  exact ⟨h, rfl⟩

theorem Overlaid.putEdgeLive (hno : ∀ o, o ∈ s.edges → o.provenance ≠ "live") (h : Overlaid s s')
    (hsrc : s.Stored e.src) : Overlaid s ((s'.putEdgeLive e).toOption.getD s') := by
  obtain ⟨hn, live, hrows, hlive⟩ := h
  unfold SqliteStore.putEdgeLive
  split_ifs with hc
  · refine ⟨hn, ?_⟩
    change ∃ live', (s'.edges.upsert _ (liveUpdate e) (liveUpdate_key e)).rows = _ ∧ _
    unfold Table.upsert
    split_ifs with hhas
    · -- a row that is not live stays as it is; a live one is refreshed in place
      refine ⟨live.map fun o => if o.key = (e.src, e.dst, e.kind) then liveUpdate e o else o, ?_, ?_⟩
      · change s'.edges.rows.map (fun o => if o.key = (e.src, e.dst, e.kind) then liveUpdate e o
          else o) = _
        rw [hrows, List.map_append]
        congr 1
        rw [List.map_congr_left (g := id), List.map_id]
        intro o ho
        have hol : liveUpdate e o = o := by
          rw [liveUpdate, if_neg (hno o ho)]
        rw [hol, ite_self]
        rfl
      · intro o ho
        obtain ⟨o', ho', hoe⟩ := List.mem_map.mp ho
        obtain ⟨hp, hs⟩ := hlive o' ho'
        subst hoe
        split_ifs
        · obtain ⟨hp', hs'⟩ := liveUpdate_of_live e hp
          exact ⟨hp', hs' ▸ hs⟩
        · exact ⟨hp, hs⟩
    · refine ⟨live ++ [⟨e.src, e.dst, e.kind, "live", e.confidence⟩], ?_, ?_⟩
      · rw [Table.insertIgnore, dif_neg hhas]
        change s'.edges.rows ++ _ = _
        rw [hrows, List.append_assoc]
      · intro o ho
        rcases List.mem_append.mp ho with ho | ho
        · exact hlive o ho
        · rw [List.mem_singleton.mp ho]
          exact ⟨rfl, hsrc⟩
  · exact ⟨hn, live, hrows, hlive⟩

theorem overlaid_putEdgesLive (hno : ∀ o, o ∈ s.edges → o.provenance ≠ "live")
    (hsrc : ∀ e ∈ es, s.Stored e.src) : Overlaid s (s.putEdgesLive es) := by
  have hrun : ∀ (es : List Edge) (t : SqliteStore), (∀ e ∈ es, s.Stored e.src) → Overlaid s t →
      Overlaid s (t.putEdgesLive es) := by
    intro es
    induction es with
    | nil => exact fun _ _ h => h
    | cons e es ih =>
      intro t hsrc h
      rw [List.forall_mem_cons] at hsrc
      exact ih _ hsrc.2 (h.putEdgeLive hno hsrc.1)
  exact hrun es s hsrc ⟨rfl, [], (List.append_nil _).symm, fun _ h => absurd h List.not_mem_nil⟩

theorem Overlaid.sweep (hno : ∀ o, o ∈ s.edges → o.provenance ≠ "live") (h : Overlaid s s')
    (hall : ∀ r, r ∈ s.nodes → r.vname.language ∈ languages) :
    (s'.sweepLiveEdgesForLanguages languages).1.edges = s.edges := by
  obtain ⟨hn, live, hrows, hlive⟩ := h
  have hrest : ∀ t : EdgeTable, t.rows = s.edges.rows → t = s.edges := by
    intro t ht
    obtain ⟨rows, hnd⟩ := t
    subst ht
    rfl
  apply hrest
  cases languages with
  | nil =>
    have hnil : live = [] := by
      apply List.eq_nil_iff_forall_not_mem.mpr
      intro e he
      obtain ⟨r, hr, _⟩ := (hlive e he).2
      cases hall r hr
    change s'.edges.rows = _
    rw [hrows, hnil, List.append_nil]
  | cons l ls =>
    change s'.edges.rows.filter (fun e => ¬ (e.provenance = "live" ∧
      e.src ∈ s'.idsWhere fun r => r.vname.language ∈ l :: ls)) = _
    rw [hrows, List.filter_append]
    have hkeep : s.edges.rows.filter (fun e => ¬ (e.provenance = "live" ∧
        e.src ∈ s'.idsWhere fun r => r.vname.language ∈ l :: ls)) = s.edges.rows := by
      rw [List.filter_eq_self]
      intro e he
      rw [decide_eq_true_eq]
      exact fun h => hno e he h.1
    have hdrop : live.filter (fun e => ¬ (e.provenance = "live" ∧
        e.src ∈ s'.idsWhere fun r => r.vname.language ∈ l :: ls)) = [] := by
      rw [List.filter_eq_nil_iff]
      intro e he
      obtain ⟨hp, r, hr, hid⟩ := hlive e he
      rw [decide_eq_true_eq, not_not]
      exact ⟨hp, mem_idsWhere.mpr ⟨r, hn ▸ hr, hid, hall r hr⟩⟩
    rw [hkeep, hdrop, List.append_nil]

/-- The live overlay is additive: over a store without live edges it comes off without a trace, and
a sweep removes the live edges of its languages with their occurrences only. -/
theorem liveOverlay_additive :
    (∀ (s : SqliteStore) (es : List Edge) (languages : List String),
        (∀ o, o ∈ s.edges → o.provenance ≠ "live") → (∀ e ∈ es, s.Stored e.src) →
        (∀ r, r ∈ s.nodes → r.vname.language ∈ languages) →
        ((s.putEdgesLive es).sweepLiveEdgesForLanguages languages).1.edges = s.edges) ∧
      ∀ (s : SqliteStore) (languages : List String),
        let s' := (s.sweepLiveEdgesForLanguages languages).1
        (∀ e, e ∈ s'.edges ↔ e ∈ s.edges ∧ ¬ s.Retired languages e) ∧
          (∀ r, r ∈ s'.sites ↔ r ∈ s.sites ∧
            ¬ ∃ e, e ∈ s.edges ∧ s.Retired languages e ∧ e.key = (r.src, r.dst, r.kind)) ∧
          s'.nodes = s.nodes ∧ s'.files = s.files ∧ s'.lex = s.lex ∧ s'.stage = s.stage ∧
          s'.stagingActive = s.stagingActive :=
  ⟨fun _ _ _ hno hsrc hall => (overlaid_putEdgesLive hno hsrc).sweep hno hall, sweepLiveEdges_spec⟩

def ratifiedStore : SqliteStore where
  __ := SqliteStore.empty
  nodes := (phaseBNodes SqliteStore.empty [parsed "a.ts" "typescript" "fn:f" "function",
    parsed "a.ts" "typescript" "fn:go" "function"]).1
  edges := Table.empty.insertIgnore ⟨9, 8, .refCall, "scip", some 90⟩

/-- A live write over the compiler's edge, a new live edge and its refresh, all taken off again. -/
theorem liveOverlay_ratified :
    ((ratifiedStore.putEdgesLive [⟨9, 8, .refCall, some 40, none⟩, ⟨8, 9, .refCall, some 40, none⟩,
      ⟨8, 9, .refCall, none, none⟩]).sweepLiveEdgesForLanguages ["typescript"]).1.edges =
      ratifiedStore.edges :=
  liveOverlay_additive.1 ratifiedStore _ _ (by
    change ∀ o ∈ ratifiedStore.edges.rows, o.provenance ≠ "live"
    decide +kernel) (by decide +kernel) (by
    change ∀ r ∈ ratifiedStore.nodes.rows, r.vname.language ∈ ["typescript"]
    decide +kernel)

end SqliteStore

end Travsr.Store
