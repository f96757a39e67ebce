import Travsr.Daemon.PhaseBRun

namespace Travsr.Daemon

open Travsr.Core Travsr.Store Travsr.Indexer Relational

def FRESHNESS_MARKERS : List String :=
  ["last_commit", "phase_b_commit", "phase_b_dirty", PHASE_B_DIRTY_SEQ]

/-- Two completions agree: the same edges, occurrences, reference rows and markers, and no live edge
of the languages that ran on either side. -/
structure SameCompletion (ran : List String) (a b : LiveStore) : Prop where
  edges : Table.Same a.edges b.edges
  sites : Table.Same a.sites b.sites
  refs : Table.Same a.refs b.refs
  markers : ∀ m ∈ FRESHNESS_MARKERS, a.getMeta m = b.getMeta m
  retired : (∀ e, e ∈ a.edges → ¬ a.Retired ran e) ∧ ∀ e, e ∈ b.edges → ¬ b.Retired ran e

/-! ### The two endings -/

section

variable {s : LiveStore} {ratified : List String}

theorem mem_refs_reconcile {r : RefResolution} :
    r ∈ (reconcileClaims .none s).refs ↔
      r ∈ s.refs ∧ ¬ (r.state = .pending ∧ s.HasSiteFor r) ∧ s.Stored r.src := by
  show r ∈ Table.deleteWhere (Table.deleteWhere _ _) _ ↔ _
  rw [Table.mem_deleteWhere, Table.mem_deleteWhere, not_not, and_assoc]

theorem mem_refs_consume {r : RefResolution} :
    r ∈ (consumeClaims .none s ratified).refs ↔
      r ∈ s.refs ∧ ¬ (r.IsClaim ∧ OfRatified s ratified r) := by
  show r ∈ (s.consumeMeasuredRefResolutions ratified).refs ↔ _
  unfold LiveStore.consumeMeasuredRefResolutions
  by_cases hnil : ratified.isEmpty
  · rw [if_pos hnil, List.isEmpty_iff.mp hnil]
    simp [OfRatified]
  · rw [if_neg hnil, ofRatified_iff]
    exact Table.mem_deleteWhere

/-- Where a ratification has no live edge to retire, it differs from a reconciliation in the claims
it consumes. -/
theorem ratify_of_none_retired (h : ∀ e, e ∈ s.edges → ¬ s.Retired ratified e) :
    (ratifyLiveOverlay .none s ratified).nodes = s.nodes ∧
      Table.Same (ratifyLiveOverlay .none s ratified).edges s.edges ∧
      Table.Same (ratifyLiveOverlay .none s ratified).sites s.sites ∧
      ∀ r, r ∈ (ratifyLiveOverlay .none s ratified).refs ↔
        r ∈ (reconcileClaims .none s).refs ∧ ¬ (r.IsClaim ∧ OfRatified s ratified r) := by
  obtain ⟨hstore, hrefs⟩ := @measureLivePrecision_frame .none s ratified
  have hconsumed : (consumeClaims .none (measureLivePrecision .none s ratified)
      ratified).toSqliteStore = s.toSqliteStore := consumeClaims_frame.1.trans hstore
  have hswept : (sweepOverlay .none (consumeClaims .none
      (measureLivePrecision .none s ratified) ratified) ratified).toSqliteStore =
      (s.sweepLiveEdgesForLanguages ratified).1 := by
    show ((consumeClaims .none (measureLivePrecision .none s ratified)
      ratified).toSqliteStore.sweepLiveEdgesForLanguages ratified).1 = _
    rw [hconsumed]
  have hend : (ratifyLiveOverlay .none s ratified).toSqliteStore =
      (s.sweepLiveEdgesForLanguages ratified).1 := by
    unfold ratifyLiveOverlay
    rw [reconcileClaims_frame.1, hswept]
  obtain ⟨hedges, hsites, hnodes, -⟩ := SqliteStore.sweepLiveEdges_spec s.toSqliteStore ratified
  have hsame : Table.Same (s.sweepLiveEdgesForLanguages ratified).1.sites s.sites := by
    intro r
    rw [hsites]
    exact and_iff_left fun ⟨e, he, hretired, _⟩ => h e he hretired
  refine ⟨?_, ?_, ?_, ?_⟩
  · rw [hend, hnodes]
  · intro e
    rw [hend, hedges]
    exact and_iff_left_of_imp (h e)
  · rw [hend]
    exact hsame
  · intro r
    have hsitefor : (s.sweepLiveEdgesForLanguages ratified).1.HasSiteFor r ↔ s.HasSiteFor r := by
      unfold SqliteStore.HasSiteFor
      rw [hnodes]
      exact exists_congr fun site => and_congr_left fun _ => hsame site
    have hstored : (s.sweepLiveEdgesForLanguages ratified).1.Stored r.src ↔ s.Stored r.src := by
      unfold SqliteStore.Stored
      rw [hnodes]
    unfold ratifyLiveOverlay
    rw [mem_refs_reconcile, mem_refs_reconcile, hswept, hsitefor, hstored, sweepOverlay_frame.2.1,
      mem_refs_consume, hrefs, OfRatified, hstore]
    exact and_right_comm

theorem getMeta_ratify {f : Faults} {name : String} (h : ∀ language, livePrecisionMetaKey language ≠ name) :
    (ratifyLiveOverlay f s ratified).getMeta name = s.getMeta name := by
  have hwrite : ∀ (t : LiveStore) (language : Option String) (p : LivePrecision),
      (writePrecisionTotals f t language p).getMeta name = t.getMeta name := by
    intro t language p
    unfold writePrecisionTotals
    split_ifs
    · rfl
    · rw [getMeta_setMeta, if_neg (h language)]
  have hrun : ∀ (entries : List (String × LivePrecision)) (st : LiveStore × LivePrecision),
      (entries.foldl (measureLanguage f ratified) st).1.getMeta name = st.1.getMeta name := by
    intro entries
    induction entries with
    | nil => exact fun _ => rfl
    | cons e entries ih =>
      intro st
      rw [List.foldl_cons, ih]
      unfold measureLanguage
      split_ifs
      · rfl
      · exact hwrite st.1 _ _
  rw [LiveStore.getMeta, ratify_metadata, ← LiveStore.getMeta]
  unfold measureLivePrecision
  dsimp only
  split_ifs
  · rfl
  · rfl
  · rw [hwrite, hrun]

theorem livePrecisionMetaKey_ne {name : String} (h : name ∈ FRESHNESS_MARKERS)
    (language : Option String) : livePrecisionMetaKey language ≠ name := by
  rintro rfl
  have hpre : LIVE_PRECISION_META.toList <+: (livePrecisionMetaKey language).toList := by
    cases language with
    | none => exact List.prefix_refl _
    | some lang =>
      show _ <+: (LIVE_PRECISION_META ++ "." ++ lang).toList
      rw [String.toList_append, String.toList_append, List.append_assoc]
      exact List.prefix_append _ _
  have hno : ∀ m ∈ FRESHNESS_MARKERS, ¬ LIVE_PRECISION_META.toList <+: m.toList := by
    decide +kernel
  exact hno _ h hpre

end

/-! ### The two completions -/

def stamped (s : LiveStore) (sha m : String) : Option String :=
  if "phase_b_dirty" = m then some "0"
  else if "phase_b_commit" = m then some sha
  else if "last_commit" = m then some sha
  else s.getMeta m

namespace PhaseBRun

variable (run : PhaseBRun)

theorem initWrites_eq : run.initWrites = run.backgroundWrites := rfl

def written (s : LiveStore) : LiveStore :=
  { s with toSqliteStore := (run.initWrites s.toSqliteStore).1 }

def ranLabels : List String := ratifiedLanguages ⟨run.output.outcome.ran, run.output.outcome.crashed⟩

/-- The run derives anew every live edge of the languages that ran, and there are no claims of
theirs. -/
structure NothingToRetire (s : LiveStore) : Prop where
  edges : ∀ e, e ∈ s.edges → e.provenance = "live" →
    (∃ l ∈ (run.written s).languageOf e.src, l ∈ run.ranLabels) → e ∉ (run.written s).edges
  claims : ∀ r, r ∈ s.refs → r.IsClaim →
    ¬ ∃ l ∈ (run.written s).languageOf r.src, l ∈ run.ranLabels

variable {run} {s : LiveStore} {sha : String}

theorem none_retired_iff :
    (∀ e, e ∈ (run.written s).edges → ¬ (run.written s).Retired run.ranLabels e) ↔
      ∀ e, e ∈ s.edges → e.provenance = "live" →
        (∃ l ∈ (run.written s).languageOf e.src, l ∈ run.ranLabels) →
          e ∉ (run.written s).edges := by
  have hold : ∀ e, e ∈ (run.written s).edges → e.provenance = "live" → e ∈ s.edges := by
    intro e he hl
    have hkept := run.overlayKept_backgroundWrites s.toSqliteStore
    exact (mem_liveRows.mp (hkept.edges.live e he hl)).1
  have hlang : ∀ x, (∃ r, r ∈ (run.written s).nodes ∧ r.id = x ∧ r.vname.language ∈ run.ranLabels) ↔
      ∃ l ∈ (run.written s).languageOf x, l ∈ run.ranLabels := by
    intro x
    constructor
    · rintro ⟨r, hr, hx, hl⟩
      exact ⟨_, languageOf_eq_some.mpr ⟨r, hr, hx, rfl⟩, hl⟩
    · rintro ⟨l, hx, hl⟩
      obtain ⟨r, hr, hid, rfl⟩ := languageOf_eq_some.mp hx
      exact ⟨r, hr, hid, hl⟩
  constructor
  · intro h e _ hl hx he
    exact h e he ⟨hl, (hlang e.src).mpr hx⟩
  · intro h e he hretired
    exact h e (hold e he hretired.1) hretired.1 ((hlang e.src).mp hretired.2) he

theorem madeProgress_of_no_crash (hcrash : run.output.outcome.crashed = []) (g : SqliteStore) :
    (run.initWrites g).2.madeProgress = true := by
  show PhaseBReport.madeProgress ⟨run.output.outcome.ran, run.output.outcome.crashed⟩ = true
  rw [hcrash]
  rfl

theorem initPhaseB_eq (hcrash : run.output.outcome.crashed = []) (hsha : sha ≠ "") :
    run.initPhaseB .none s sha = (((reconcileClaims .none { s.setMeta "last_commit" sha with
      toSqliteStore := (run.initWrites s.toSqliteStore).1 }).setMeta "last_commit" sha).setMeta
        "phase_b_commit" sha).setMeta "phase_b_dirty" "0" := by
  have hseq : ∀ t : LiveStore, t.metadata = (s.setMeta "last_commit" sha).metadata →
      readDirtySeq ((t.setMeta "last_commit" sha).setMeta "phase_b_commit" sha) =
        readDirtySeq s := by
    intro t ht
    have hcell : t.getMeta PHASE_B_DIRTY_SEQ = s.getMeta PHASE_B_DIRTY_SEQ := by
      have hsame : t.getMeta PHASE_B_DIRTY_SEQ =
          (s.setMeta "last_commit" sha).getMeta PHASE_B_DIRTY_SEQ := by
        rw [LiveStore.getMeta, ht, ← LiveStore.getMeta]
      rw [hsame, getMeta_setMeta, if_neg (by decide)]
    rw [readDirtySeq, getMeta_setMeta, if_neg (by decide), getMeta_setMeta, if_neg (by decide),
      hcell, ← readDirtySeq]
  unfold initPhaseB
  dsimp only
  rw [if_neg hsha, if_neg hsha, if_pos (madeProgress_of_no_crash hcrash _), if_pos]
  · rfl
  · apply hseq
    exact reconcileClaims_frame.2

theorem backgroundPhaseB_eq (hcrash : run.output.outcome.crashed = []) (hsha : sha ≠ "")
    (hdue : s.getMeta "phase_b_commit" ≠ some sha) :
    run.backgroundPhaseB .none false (s.setMeta "last_commit" sha) =
      ((ratifyLiveOverlay .none { s.setMeta "last_commit" sha with
        toSqliteStore := (run.initWrites s.toSqliteStore).1 } run.ranLabels).setMeta
          "phase_b_commit" sha).setMeta "phase_b_dirty" "0" := by
  have hlast : ((s.setMeta "last_commit" sha).getMeta "last_commit").getD "" = sha := by
    rw [getMeta_setMeta, if_pos rfl, Option.getD_some]
  have hmarker : ¬ (sha = "" ∨
      sha = ((s.setMeta "last_commit" sha).getMeta "phase_b_commit").getD "") := by
    rw [getMeta_setMeta, if_neg (by decide)]
    rintro (h | h)
    · exact hsha h
    · cases hm : s.getMeta "phase_b_commit" with
      | none =>
        rw [hm] at h
        exact hsha h
      | some v =>
        rw [hm] at h
        exact hdue (hm.trans (congrArg some h.symm))
  unfold backgroundPhaseB
  dsimp only
  rw [hlast, if_neg hmarker, if_neg Bool.false_ne_true, ← initWrites_eq,
    if_pos (madeProgress_of_no_crash hcrash _), if_pos (madeProgress_of_no_crash hcrash _)]
  rfl

theorem getMeta_stamps {t : LiveStore} {m : String}
    (h : t.getMeta m = (s.setMeta "last_commit" sha).getMeta m) :
    ((t.setMeta "phase_b_commit" sha).setMeta "phase_b_dirty" "0").getMeta m = stamped s sha m := by
  rw [getMeta_setMeta, getMeta_setMeta, h, getMeta_setMeta]
  rfl

/-- The two completions agree exactly where nothing is left to retire. -/
theorem completions_agree_iff (run : PhaseBRun) (s : LiveStore) (sha : String)
    (hcrash : run.output.outcome.crashed = []) (hsha : sha ≠ "")
    (hdue : s.getMeta "phase_b_commit" ≠ some sha) :
    SameCompletion run.ranLabels (run.initPhaseB .none s sha)
        (run.backgroundPhaseB .none false (s.setMeta "last_commit" sha)) ↔
      run.NothingToRetire s := by
  rw [initPhaseB_eq hcrash hsha, backgroundPhaseB_eq hcrash hsha hdue]
  let t : LiveStore := { s.setMeta "last_commit" sha with
    toSqliteStore := (run.initWrites s.toSqliteStore).1 }
  change SameCompletion run.ranLabels
    ((((reconcileClaims .none t).setMeta "last_commit" sha).setMeta "phase_b_commit" sha).setMeta
      "phase_b_dirty" "0")
    (((ratifyLiveOverlay .none t run.ranLabels).setMeta "phase_b_commit" sha).setMeta
      "phase_b_dirty" "0") ↔ _
  have hinit : (reconcileClaims .none t).toSqliteStore = t.toSqliteStore := reconcileClaims_frame.1
  constructor
  · intro h
    have hnone : ∀ e, e ∈ t.edges → ¬ t.Retired run.ranLabels e := by
      have hretired := h.retired.1
      intro e he
      rw [← hinit] at he ⊢
      exact hretired e he
    refine ⟨none_retired_iff.mp hnone, ?_⟩
    intro r hr hclaim hof
    obtain ⟨-, -, -, hrefs⟩ := ratify_of_none_retired hnone
    have hstored : t.Stored r.src := by
      obtain ⟨l, hl, -⟩ := hof
      exact stored_iff_languageOf.mpr ⟨l, hl⟩
    have hkept : r ∈ (reconcileClaims .none t).refs := by
      refine mem_refs_reconcile.mpr ⟨hr, ?_, hstored⟩
      rw [hclaim.1]
      exact fun h => nomatch h.1
    exact ((hrefs r).mp ((h.refs r).mp hkept)).2 ⟨hclaim, hof⟩
  · intro h
    have hnone : ∀ e, e ∈ t.edges → ¬ t.Retired run.ranLabels e := none_retired_iff.mpr h.edges
    obtain ⟨hnodes, hedges, hsites, hrefs⟩ := ratify_of_none_retired hnone
    refine ⟨?_, ?_, ?_, ?_, ?_, ?_⟩
    · intro e
      show e ∈ (reconcileClaims .none t).edges ↔ e ∈ (ratifyLiveOverlay .none t _).edges
      rw [hinit, hedges]
    · intro r
      show r ∈ (reconcileClaims .none t).sites ↔ r ∈ (ratifyLiveOverlay .none t _).sites
      rw [hinit, hsites]
    · intro r
      show r ∈ (reconcileClaims .none t).refs ↔ r ∈ (ratifyLiveOverlay .none t _).refs
      rw [hrefs]
      refine (and_iff_left_of_imp fun hr hof => ?_).symm
      exact h.claims r (mem_refs_reconcile.mp hr).1 hof.1 hof.2
    · intro m hm
      have hcells : (reconcileClaims .none t).getMeta m = (s.setMeta "last_commit" sha).getMeta m := by
        rw [LiveStore.getMeta, reconcileClaims_frame.2]
        rfl
      rw [@getMeta_stamps s sha, @getMeta_stamps s sha]
      · exact getMeta_ratify (livePrecisionMetaKey_ne hm)
      · rw [getMeta_setMeta, hcells, getMeta_setMeta]
        split_ifs <;> rfl
    · intro e he
      change e ∈ (reconcileClaims .none t).edges at he
      change ¬ (reconcileClaims .none t).Retired _ e
      rw [hinit] at he ⊢
      exact hnone e he
    · intro e he hretired
      have hmem : e ∈ t.edges := (hedges e).mp he
      obtain ⟨hl, n, hn, hsrc⟩ := hretired
      change n ∈ (ratifyLiveOverlay .none t _).nodes at hn
      rw [hnodes] at hn
      exact hnone e hmem ⟨hl, n, hn, hsrc⟩

/-- The analyzer of Python ran, and the overlay is of another language. -/
theorem completions_agree_elsewhere :
    SameCompletion ["python"]
      ((silentRun ⟨["python"], []⟩ []).initPhaseB .none (labelled "go") "d")
      ((silentRun ⟨["python"], []⟩ []).backgroundPhaseB .none false
        ((labelled "go").setMeta "last_commit" "d")) := by
  refine (completions_agree_iff (silentRun ⟨["python"], []⟩ []) (labelled "go") "d" rfl (by decide)
    (by decide +kernel)).mpr ⟨?_, ?_⟩
  · intro e he _ ⟨l, hl, hran⟩
    obtain rfl := (edges_labelled _ _).mp he
    obtain rfl : "go" = l := Option.some.inj hl
    exact absurd hran (by decide)
  · intro r hr
    exact absurd hr (Table.not_mem_empty r)

/-- A live edge of the language that ran: the background path sweeps it and the inline one does
not. -/
theorem inline_keeps_overlay :
    ¬ ∀ (run : PhaseBRun) (s : LiveStore) (sha : String), run.output.outcome.crashed = [] →
      sha ≠ "" → s.getMeta "phase_b_commit" ≠ some sha →
        SameCompletion run.ranLabels (run.initPhaseB .none s sha)
          (run.backgroundPhaseB .none false (s.setMeta "last_commit" sha)) := by
  intro h
  have hsame := h (silentRun ⟨["python"], []⟩ []) (labelled "python") "d" rfl (by decide)
    (by decide +kernel)
  have hmem : (⟨1, 2, .refCall, "live", none⟩ : EdgeRow) ∈
      ((silentRun ⟨["python"], []⟩ []).initPhaseB .none (labelled "python") "d").edges := by
    decide +kernel
  exact hsame.retired.1 _ hmem (by exact ⟨rfl, _, List.mem_singleton.mpr rfl, rfl, by decide⟩)

end PhaseBRun

end Travsr.Daemon
