import Travsr.Daemon.MeterRuns
import Travsr.Daemon.NativeCalls
import Travsr.Daemon.PhaseBMarkers
import Travsr.Daemon.ScipUnifier
import Travsr.Store.PhaseBOverlay

namespace Travsr.Daemon

open Travsr.Core Travsr.Store Travsr.Indexer Relational SortDedup

/-- What the analyzer of one language returned, its build roots taken together: one root can fail
while another succeeds. -/
structure LangResult where
  lang : String
  nodes : List Node
  edges : List Edge
  refs : List ScipRef
  unresolvedCalls : List UnresolvedCall
  positionalRefs : List LsifPositionalRef
  ran : Bool
  crashed : Bool

structure PhaseBOutcome where
  ran : List String
  crashed : List String
  deriving DecidableEq, Repr

/-- What all the analyzers returned. -/
structure PhaseBOutput where
  nodes : List Node
  edges : List Edge
  refs : List ScipRef
  unresolved : List UnresolvedCall
  positional : List LsifPositionalRef
  outcome : PhaseBOutcome

/-- The merge of `invoke_phase_b_all`, in the order of the languages' names. -/
def mergeResults (results : List LangResult) : PhaseBOutput :=
  let results := sortBy LangResult.lang results
  { nodes := results.flatMap LangResult.nodes
    edges := results.flatMap LangResult.edges
    refs := results.flatMap LangResult.refs
    unresolved := results.flatMap LangResult.unresolvedCalls
    positional := results.flatMap LangResult.positionalRefs
    outcome :=
      { ran := (results.filter LangResult.ran).map LangResult.lang
        crashed := (results.filter LangResult.crashed).map LangResult.lang } }

inductive LsifSkipReason where
  /-- The emitter could not be spawned. -/
  | emitterMissing
  /-- The emitter started but did not yield a usable dump. -/
  | emitterFailed
  deriving DecidableEq, Repr

/-- A cross-file pass that was due and did not deliver. -/
structure LsifSkip where
  language : String
  reason : LsifSkipReason
  deriving DecidableEq, Repr

/-- How nodes label an analyzer's language: JavaScript's are labelled `typescript`. -/
def nodeLabel (lang : String) : String := if lang = "javascript" then "typescript" else lang

/-- `ratified_languages`: the labels whose live overlay the run may retire. -/
def ratifiedLanguages (report : PhaseBReport) : List String :=
  report.ran.foldl (fun langs lang =>
    if nodeLabel lang ∈ langs then langs else langs ++ [nodeLabel lang]) []

/-- `unratified_languages`: the labels whose files the run must not retract. -/
def unratifiedLanguages (outcome : PhaseBOutcome) (skips : List LsifSkip) : List String :=
  let failed := (skips.filter fun s => s.reason = .emitterFailed).map LsifSkip.language
  (sortBy id ((outcome.crashed ++ failed).map nodeLabel)).destutter (· ≠ ·)

def OUTSIDE_REPO_PREFIXES : List String := ["../", "/", "..\\", "\\"]

/-- `is_outside_repo`: a parent-relative or absolute path, or one on a Windows drive. -/
def isOutsideRepo (path : String) : Bool :=
  OUTSIDE_REPO_PREFIXES.any (Text.startsWith path) ||
    match path.toList with
    | drive :: ':' :: slash :: _ => drive.isAlpha && (slash == '/' || slash == '\\')
    | _ => false

/-- The name of a package of the `crates.io` registry. -/
def packageName (r : NodeRow) : Option (List Char) :=
  if r.vname.corpus ≠ "crates.io" then none
  else
    ((Text.stripPrefix "pkg:" r.vname.signature.toList).map fun rest =>
      ((Text.rsplitOnce '@' rest).map Prod.fst).getD rest).filter fun name => name ≠ []

def manifestLinks (s : SqliteStore) : List Edge :=
  (s.nodes.rows.filter fun r => r.kind = "crate").flatMap fun r =>
    match Text.stripPrefix "crate:" r.vname.signature.toList with
    | none => []
    | some name =>
      ((s.nodes.rows.filter fun p => p.kind = "package" ∧ packageName p = some name).filter fun p =>
        p.id ≠ r.id).map fun p => ⟨r.id, p.id, .resolvesTo, none, none⟩

/-- `cross_link_manifest_deps`. -/
def crossLinkManifestDeps (s : SqliteStore) : SqliteStore :=
  (manifestLinks s).foldl (fun s e => (s.putEdge e).toOption.getD s) s

/-- `lsif_covered_keys`: the call sites that are resolved, each with the leaf of its callee. -/
def lsifCoveredKeys (nodes : NodeTable) (resolved : List ScipRef) : List (String × Nat × String) :=
  resolved.filterMap fun r => (nodes.find? r.calleeId).map fun n =>
    (r.callerPath, r.callerLine, Ident.leafOf n.vname.signature)

/-- `split_field_sites`: the occurrences of calls and those of field accesses. -/
def splitFieldSites (resolved : List Edge) (sites : List CallSite) :
    List CallSite × List CallSite :=
  let fieldPairs := (resolved.filter fun e => e.kind = .refField).map fun e => (e.src, e.dst)
  let isFieldSite (r : CallSite) : Bool := fieldPairs.any (· = (r.1, r.2.1))
  (sites.filter fun r => !isFieldSite r, sites.filter isFieldSite)

/-- The aliases of a unification and the nodes it dropped. -/
structure Unified where
  aliasMap : NodeId → Option NodeId
  /-- `alias_map.is_empty()`. -/
  unaliased : Bool
  dropped : List NodeId

def Unified.none : Unified := ⟨fun _ => Option.none, true, []⟩

/-- `remap_resolved_sites`: no occurrence points at a node that was aliased or dropped. -/
def remapResolvedSites (sites : List CallSite) (u : Unified) : List CallSite :=
  if u.unaliased && u.dropped.isEmpty then sites
  else
    sites.filterMap fun r =>
      if r.2.1 ∈ u.dropped then Option.none
      else
        let dst := (u.aliasMap r.2.1).getD r.2.1
        if r.1 = dst then Option.none else some (r.1, dst, r.2.2)

/-- An edge with its ends aliased; one to a dropped node, or from a node to itself, goes. -/
def aliasEdge (u : Unified) (e : Edge) : Option Edge :=
  if e.src ∈ u.dropped ∨ e.dst ∈ u.dropped then Option.none
  else
    let e := { e with src := (u.aliasMap e.src).getD e.src, dst := (u.aliasMap e.dst).getD e.dst }
    if e.src = e.dst then Option.none else some e

def phaseBBatch (s : SqliteStore) (nodes : List Node) (edges : List Edge) (provenance : String) :
    SqliteStore :=
  (s.writePhaseBBatch nodes edges provenance).toOption.getD s

/-- What `write_phase_b_results` leaves and returns. -/
structure PhaseBWritten where
  store : SqliteStore
  report : PhaseBReport
  unified : Unified

/-- `write_phase_b_results`: without references the batch is written as it is, otherwise it is
unified with the parsed nodes first. -/
def writePhaseBResults (env : Env) (tables : CharTables) (s : SqliteStore) (corpus : String)
    (nodes : List Node) (edges : List Edge) (refs : List ScipRef) (outcome : PhaseBOutcome)
    (skips : List LsifSkip) : PhaseBWritten :=
  let outside := (nodes.filter fun n => isOutsideRepo n.vname.path).map Node.id
  let nodes := nodes.filter fun n => n.id ∉ outside
  let edges := edges.filter fun e => e.src ∉ outside ∧ e.dst ∉ outside
  let refs := refs.filter fun r => isOutsideRepo r.callerPath = false ∧ r.calleeId ∉ outside
  let cycleWroteCrate := nodes.any fun n => n.kind = "crate"
  let written : SqliteStore × Unified :=
    if refs.isEmpty then (phaseBBatch s nodes edges "scip", .none)
    else
      let (unify, refs, _) := unifyAll ⟨tables, s.nodes, corpus⟩ nodes refs
      let unified : Unified :=
        ⟨unify.aliasMap, nodes.all fun n => unify.aliasMap n.id = none, unify.dropped⟩
      let refs := refs.filter fun r => r.calleeId ∉ unified.dropped
      let nodes := nodes.filter fun n => unified.aliasMap n.id = none ∧ n.id ∉ unified.dropped
      let edges := edges.filterMap (aliasEdge unified)
      let attributed := s.writeScipAttributedBatchKeeping env corpus nodes refs
        (unratifiedLanguages outcome skips)
      (if edges.isEmpty then attributed else phaseBBatch attributed [] edges "scip", unified)
  { store := if cycleWroteCrate then crossLinkManifestDeps written.1 else written.1
    report := ⟨outcome.ran, outcome.crashed⟩
    unified := written.2 }

end Travsr.Daemon

namespace Travsr.Daemon

open Travsr.Core Travsr.Store Travsr.Indexer Relational

/-- What a Phase B run has from outside the store: the analyzers' output, the cross-file passes that
did not deliver, and `classify_phase_b_calls`, which reads the source files. -/
structure PhaseBRun where
  env : Env
  tables : CharTables
  corpus : String
  classify : List Node → List ScipRef → List ScipRef
  output : PhaseBOutput
  skips : List LsifSkip

def PHASE_B_DIRTY_SEQ : String := "phase_b_dirty_seq"

def readDirtySeq (s : LiveStore) : Nat := ((s.getMeta PHASE_B_DIRTY_SEQ).bind fun v =>
  parseU64 v.toList).getD 0

namespace PhaseBRun

variable (run : PhaseBRun)

/-- The writes of an inline run, in `init_repo_with_progress`. -/
def initWrites (s : SqliteStore) : SqliteStore × PhaseBReport :=
  let out := run.output
  let refs := run.classify out.nodes out.refs
  let positional := resolveLsifPositionalRefs s.nodes run.corpus out.positional
  let lsifCovered := lsifCoveredKeys s.nodes positional
  let refs := refs ++ positional
  let (resolved, resolvedSites) :=
    resolveUnresolvedCalls s out.unresolved out.nodes out.edges lsifCovered
  let nativeSrcs := resolvedSites.map Prod.fst
  let carried := refs.map ScipRef.callerPath
  let keepLanguages := unratifiedLanguages out.outcome run.skips
  let written := writePhaseBResults run.env run.tables s run.corpus out.nodes out.edges refs
    out.outcome run.skips
  let s := phaseBBatch written.store [] resolved "tree-sitter"
  let (callSites, fieldSites) := splitFieldSites resolved resolvedSites
  (s.replaceOwnedEdgeSites nativeSrcs carried keepLanguages
    (remapResolvedSites callSites written.unified) (remapResolvedSites fieldSites written.unified),
    written.report)

/-- The writes of a background run, in `run_background_phase_b_inner`. -/
def backgroundWrites (s : SqliteStore) : SqliteStore × PhaseBReport :=
  let out := run.output
  let refs := run.classify out.nodes out.refs
  let positional := resolveLsifPositionalRefs s.nodes run.corpus out.positional
  let lsifCovered := lsifCoveredKeys s.nodes positional
  let refs := refs ++ positional
  let (resolved, resolvedSites) :=
    resolveUnresolvedCalls s out.unresolved out.nodes out.edges lsifCovered
  let nativeSrcs := resolvedSites.map Prod.fst
  let carried := refs.map ScipRef.callerPath
  let keepLanguages := unratifiedLanguages out.outcome run.skips
  let written := writePhaseBResults run.env run.tables s run.corpus out.nodes out.edges refs
    out.outcome run.skips
  let s := phaseBBatch written.store [] resolved "tree-sitter"
  let (callSites, fieldSites) := splitFieldSites resolved resolvedSites
  (s.replaceOwnedEdgeSites nativeSrcs carried keepLanguages
    (remapResolvedSites callSites written.unified) (remapResolvedSites fieldSites written.unified),
    written.report)

/-- `init_repo_with_progress` at a commit, from the reading of the dirty sequence on, with inline
Phase B. -/
def initPhaseB (f : Faults) (s : LiveStore) (sha : String) : LiveStore :=
  let dirtySeqBefore := readDirtySeq s
  let s := if sha = "" then s else s.setMeta "last_commit" sha
  let (store, report) := run.initWrites s.toSqliteStore
  let s := reconcileClaims f { s with toSqliteStore := store }
  if sha = "" then s
  else
    let s := s.setMeta "last_commit" sha
    if report.madeProgress then
      let s := s.setMeta "phase_b_commit" sha
      if readDirtySeq s = dirtySeqBefore then s.setMeta "phase_b_dirty" "0" else s
    else s

/-- `run_background_phase_b_inner`: nothing is done where the markers agree, or while an init holds
its lock. -/
def backgroundPhaseB (f : Faults) (initRunning : Bool) (s : LiveStore) : LiveStore :=
  let targetSha := (s.getMeta "last_commit").getD ""
  if targetSha = "" ∨ targetSha = (s.getMeta "phase_b_commit").getD "" then s
  else if initRunning then s
  else
    let (store, report) := run.backgroundWrites s.toSqliteStore
    let s := { s with toSqliteStore := store }
    let s := if report.madeProgress then ratifyLiveOverlay f s (ratifiedLanguages report) else s
    if report.madeProgress then
      (s.setMeta "phase_b_commit" targetSha).setMeta "phase_b_dirty" "0"
    else s

end PhaseBRun

end Travsr.Daemon

namespace Travsr.Daemon

open Travsr.Core Travsr.Store Travsr.Indexer Relational SortDedup

/-! ### The two sets of labels -/

/-- The languages that share the label `typescript`. -/
def SCRIPT_LANGUAGES : List String := ["javascript", "typescript"]

/-- Two analyzers whose nodes cannot be told apart. -/
def SameNodes (a b : String) : Prop := a = b ∨ (a ∈ SCRIPT_LANGUAGES ∧ b ∈ SCRIPT_LANGUAGES)

theorem nodeLabel_eq_iff {a b : String} : nodeLabel a = nodeLabel b ↔ SameNodes a b := by
  unfold nodeLabel SameNodes SCRIPT_LANGUAGES
  simp only [List.mem_cons, List.not_mem_nil, or_false]
  split_ifs with ha hb hb
  · simp [ha, hb]
  · subst ha
    constructor
    · intro h
      exact .inr ⟨.inl rfl, .inr h.symm⟩
    · rintro (h | ⟨-, h | h⟩)
      · exact absurd h.symm hb
      · exact absurd h hb
      · exact h.symm
  · subst hb
    constructor
    · intro h
      exact .inr ⟨.inr h, .inl rfl⟩
    · rintro (h | ⟨h | h, -⟩)
      · exact absurd h ha
      · exact absurd h ha
      · exact h
  · constructor
    · exact .inl
    · rintro (h | ⟨h | h, h' | h'⟩)
      · exact h
      · exact absurd h ha
      · exact absurd h ha
      · exact absurd h' hb
      · exact h.trans h'.symm

theorem mem_ratifiedLanguages {report : PhaseBReport} {l : String} :
    l ∈ ratifiedLanguages report ↔ ∃ a ∈ report.ran, nodeLabel a = l := by
  have hrun : ∀ (ran langs : List String), l ∈ ran.foldl (fun langs lang =>
      if nodeLabel lang ∈ langs then langs else langs ++ [nodeLabel lang]) langs ↔
        l ∈ langs ∨ ∃ a ∈ ran, nodeLabel a = l := by
    intro ran
    induction ran with
    | nil => simp
    | cons a ran ih =>
      intro langs
      rw [List.foldl_cons, ih, List.exists_mem_cons_iff, ← or_assoc]
      refine or_congr_left ?_
      split_ifs with h
      · exact ⟨.inl, fun hor => hor.elim id fun heq => heq ▸ h⟩
      · rw [List.mem_append, List.mem_singleton, eq_comm (a := l)]
  unfold ratifiedLanguages
  rw [hrun]
  simp

/-- A language fell short: its analyzer crashed, or its cross-file pass ran and failed. -/
def FellShort (outcome : PhaseBOutcome) (skips : List LsifSkip) (lang : String) : Prop :=
  lang ∈ outcome.crashed ∨ ⟨lang, .emitterFailed⟩ ∈ skips

theorem mem_unratifiedLanguages {outcome : PhaseBOutcome} {skips : List LsifSkip} {l : String} :
    l ∈ unratifiedLanguages outcome skips ↔ ∃ b, FellShort outcome skips b ∧ nodeLabel b = l := by
  unfold unratifiedLanguages
  dsimp only
  rw [mem_destutter_ne, mem_sortBy, List.mem_map]
  refine exists_congr fun b => and_congr_left fun _ => ?_
  have hskip : (b ∈ (skips.filter fun s => s.reason = .emitterFailed).map LsifSkip.language) ↔
      ⟨b, .emitterFailed⟩ ∈ skips := by
    rw [List.mem_map]
    constructor
    · rintro ⟨s, hs, rfl⟩
      obtain ⟨hmem, hr⟩ := List.mem_filter.mp hs
      rw [decide_eq_true_eq] at hr
      rw [← hr]
      exact hmem
    · intro h
      exact ⟨_, List.mem_filter.mpr ⟨h, by simp⟩, rfl⟩
  rw [List.mem_append, hskip, FellShort]

/-- No language that ran shares its nodes with one that fell short. -/
def Separate (outcome : PhaseBOutcome) (skips : List LsifSkip) : Prop :=
  ∀ a ∈ outcome.ran, ∀ b, FellShort outcome skips b → ¬ SameNodes a b

theorem separate_iff {outcome : PhaseBOutcome} {skips : List LsifSkip} :
    Separate outcome skips ↔ ∀ l ∈ ratifiedLanguages ⟨outcome.ran, outcome.crashed⟩,
      l ∉ unratifiedLanguages outcome skips := by
  simp only [mem_ratifiedLanguages, mem_unratifiedLanguages, Separate, ← nodeLabel_eq_iff]
  constructor
  · rintro h l ⟨a, ha, rfl⟩ ⟨b, hb, hl⟩
    exact h a ha b hb hl.symm
  · intro h a ha b hb heq
    exact h (nodeLabel a) ⟨a, ha, rfl⟩ ⟨b, hb, heq.symm⟩

/-! ### What a background run leaves -/

/-- What a run leaves of the overlay of some languages: their live edges, as far as it did not
derive them anew, and their claims. -/
structure OverlayLeft (s t : LiveStore) (langs : List String) : Prop where
  edges : ∀ e, e ∈ s.edges → e.provenance = "live" → (∃ l ∈ s.languageOf e.src, l ∈ langs) →
    ∃ e', e' ∈ t.edges ∧ e'.key = e.key ∧ (e' = e ∨ e'.provenance ≠ "live")
  claims : ∀ r, r ∈ s.refs → r.IsClaim → (∃ l ∈ s.languageOf r.src, l ∈ langs) → r ∈ t.refs

theorem OverlayLeft.refl (s : LiveStore) (langs : List String) : OverlayLeft s s langs :=
  ⟨fun e he _ _ => ⟨e, he, rfl, .inl rfl⟩, fun _ hr _ _ => hr⟩

theorem OverlayLeft.congr {s t u : LiveStore} {langs : List String}
    (hstore : u.toSqliteStore = t.toSqliteStore) (hrefs : u.refs = t.refs)
    (h : OverlayLeft s t langs) : OverlayLeft s u langs :=
  ⟨by rw [hstore]; exact h.edges, by rw [hrefs]; exact h.claims⟩

theorem languageOf_kept {a b : SqliteStore} (h : NamesKept a.nodes b.nodes) {x : NodeId}
    {l : String} (hl : a.languageOf x = some l) : b.languageOf x = some l := by
  obtain ⟨r, hr, hx⟩ := Option.map_eq_some_iff.mp hl
  obtain ⟨hmem, hid⟩ := Table.mem_of_find? hr
  obtain ⟨r', hmem', hid', hv⟩ := h r hmem
  have hfind : b.nodes.find? x = some r' := by
    rw [← hid, ← hid']
    exact Table.find?_of_mem (t := b.nodes.toTable) hmem'
  show (b.nodes.find? x).map _ = some l
  rw [hfind, Option.map_some, hv, hx]

theorem overlayKept_crossLink {s t : SqliteStore} (h : OverlayKept s t) :
    OverlayKept s (crossLinkManifestDeps t) := by
  have hrun : ∀ (es : List Edge) (t : SqliteStore), OverlayKept s t →
      OverlayKept s (es.foldl (fun s e => (s.putEdge e).toOption.getD s) t) := by
    intro es
    induction es with
    | nil => exact fun _ h => h
    | cons e es ih =>
      intro t h
      apply ih
      unfold SqliteStore.putEdge
      dsimp only
      split_ifs
      · exact h.write (.refl _) (TakenOver.insertIgnore (by show "tree-sitter" ≠ "live"; decide))
      · exact h
  exact hrun (manifestLinks t) t h

theorem overlayKept_writePhaseBResults {env : Env} {tables : CharTables} {s : SqliteStore}
    {corpus : String} {nodes : List Node} {edges : List Edge} {refs : List ScipRef}
    {outcome : PhaseBOutcome} {skips : List LsifSkip} :
    OverlayKept s
      (writePhaseBResults env tables s corpus nodes edges refs outcome skips).store := by
  have hscip : "scip" ≠ "live" := by decide
  unfold writePhaseBResults
  dsimp only
  split_ifs
  · exact overlayKept_crossLink ((OverlayKept.refl s).phaseBBatch hscip)
  · exact overlayKept_crossLink (.attributedBatch _ _ _)
  · exact overlayKept_crossLink ((OverlayKept.attributedBatch _ _ _).phaseBBatch hscip)
  · exact (OverlayKept.refl s).phaseBBatch hscip
  · exact .attributedBatch _ _ _
  · exact (OverlayKept.attributedBatch _ _ _).phaseBBatch hscip

namespace PhaseBRun

variable (run : PhaseBRun)

theorem overlayKept_backgroundWrites (s : SqliteStore) :
    OverlayKept s (run.backgroundWrites s).1 := by
  unfold backgroundWrites
  dsimp only
  have hresults := @overlayKept_writePhaseBResults run.env run.tables s run.corpus
  refine OverlayKept.write (t := phaseBBatch _ [] _ "tree-sitter") ?_ (.refl _) (.refl _)
  exact hresults.phaseBBatch (by decide)

theorem backgroundWrites_report (s : SqliteStore) :
    (run.backgroundWrites s).2 = ⟨run.output.outcome.ran, run.output.outcome.crashed⟩ := rfl

/-- A background run does nothing, or it writes and, where an analyzer delivered, retires the
overlay of the languages that ran. -/
theorem backgroundPhaseB_cases (f : Faults) (initRunning : Bool) (s : LiveStore) :
    run.backgroundPhaseB f initRunning s = s ∨
      ∃ t : LiveStore, (run.backgroundPhaseB f initRunning s).toSqliteStore = t.toSqliteStore ∧
        (run.backgroundPhaseB f initRunning s).refs = t.refs ∧
        (t = { s with toSqliteStore := (run.backgroundWrites s.toSqliteStore).1 } ∨
          t = ratifyLiveOverlay f { s with toSqliteStore := (run.backgroundWrites s.toSqliteStore).1 }
            (ratifiedLanguages ⟨run.output.outcome.ran, run.output.outcome.crashed⟩)) := by
  unfold backgroundPhaseB
  dsimp only
  rw [backgroundWrites_report]
  split_ifs
  · exact .inl rfl
  · exact .inl rfl
  · exact .inr ⟨ratifyLiveOverlay f _ _, rfl, rfl, .inr rfl⟩
  · exact .inr ⟨_, rfl, rfl, .inl rfl⟩

end PhaseBRun

theorem OverlayLeft.ratify {s : LiveStore} {t : SqliteStore} {f : Faults}
    {ratified langs : List String} (hkept : OverlayKept s.toSqliteStore t)
    (hsep : ∀ l ∈ ratified, l ∉ langs) :
    OverlayLeft s (ratifyLiveOverlay f { s with toSqliteStore := t } ratified) langs := by
  have hlang : ∀ {x : NodeId} {l : String}, s.languageOf x = some l → t.languageOf x = some l :=
    fun h => languageOf_kept hkept.nodes h
  refine ⟨?_, ?_⟩
  · intro e he hlive hof
    obtain ⟨l, hl, hin⟩ := hof
    obtain ⟨e', he', hk, hcases⟩ := hkept.edges.row e (mem_liveRows.mpr ⟨he, hlive⟩)
    refine ⟨e', (ratify_edges e').mpr ⟨he', fun _ hretired => ?_⟩, hk, hcases⟩
    obtain ⟨hl', n, hn, hid, hrat⟩ := hretired
    rcases hcases with rfl | hne
    · have hsame := hlang hl
      rw [languageOf_eq_some.mpr ⟨n, hn, hid, rfl⟩] at hsame
      exact hsep _ hrat (Option.some.inj hsame ▸ hin)
    · exact hne hl'
  · intro r hr hclaim hof
    obtain ⟨l, hl, hin⟩ := hof
    refine (claim_ratify hclaim).mpr ⟨hr, fun _ hrat => ?_, fun _ => ?_⟩
    · obtain ⟨l', hl', hrat⟩ := hrat
      have hsame : some l' = some l := hl'.symm.trans (hlang hl)
      exact hsep l' hrat (Option.some.inj hsame ▸ hin)
    · exact stored_iff_languageOf.mpr ⟨l, hlang hl⟩

theorem OverlayLeft.writes {s : LiveStore} {t : SqliteStore} {langs : List String}
    (hkept : OverlayKept s.toSqliteStore t) :
    OverlayLeft s { s with toSqliteStore := t } langs :=
  ⟨fun e he hlive _ => hkept.edges.row e (mem_liveRows.mpr ⟨he, hlive⟩), fun _ hr _ _ => hr⟩

theorem PhaseBRun.overlayLeft (run : PhaseBRun) (f : Faults) (initRunning : Bool) (s : LiveStore)
    (h : Separate run.output.outcome run.skips) :
    OverlayLeft s (run.backgroundPhaseB f initRunning s)
      (unratifiedLanguages run.output.outcome run.skips) := by
  have hkept := run.overlayKept_backgroundWrites s.toSqliteStore
  rcases run.backgroundPhaseB_cases f initRunning s with heq | ⟨t, hstore, hrefs, rfl | rfl⟩
  · rw [heq]
    exact .refl s _
  · exact (OverlayLeft.writes hkept).congr hstore hrefs
  · exact (OverlayLeft.ratify hkept (separate_iff.mp h)).congr hstore hrefs

/-! ### When the labels meet -/

def labelled (label : String) : LiveStore where
  __ := SqliteStore.empty
  nodes :=
    { rows := [⟨1, ⟨"repo", "", "a", label, "fn:f"⟩, "function", "", none, none, false, .none, none⟩]
      nodup := List.nodup_singleton _
      index_nodup := List.nodup_singleton _ }
  edges := Table.empty.insertIgnore ⟨1, 2, .refCall, "live", none⟩
  refs := Table.empty
  metadata := Table.empty.insertIgnore ⟨"last_commit", "c"⟩

def silentRun (outcome : PhaseBOutcome) (skips : List LsifSkip) : PhaseBRun where
  env := lengthEnv
  tables := ⟨Char.isAlpha, Char.isAlphanum⟩
  corpus := "repo"
  classify _ refs := refs
  output := ⟨[], [], [], [], [], outcome⟩
  skips := skips

theorem silentRun_backgroundWrites (outcome : PhaseBOutcome) (skips : List LsifSkip)
    (s : SqliteStore) :
    (silentRun outcome skips).backgroundWrites s = (s, ⟨outcome.ran, outcome.crashed⟩) := rfl

theorem languageOf_labelled (label : String) : (labelled label).languageOf 1 = some label := rfl

theorem edges_labelled (label : String) (e : EdgeRow) :
    e ∈ (labelled label).edges ↔ e = ⟨1, 2, .refCall, "live", none⟩ := by
  show e ∈ Table.insertIgnore _ _ ↔ _
  simp [Table.Has]

theorem edges_silentRun {outcome : PhaseBOutcome} {skips : List LsifSkip} {label : String}
    (h : outcome.ran ≠ []) :
    ((silentRun outcome skips).backgroundPhaseB .none false (labelled label)).edges =
      (ratifyLiveOverlay .none (labelled label)
        (ratifiedLanguages ⟨outcome.ran, outcome.crashed⟩)).edges := by
  have hlast : (labelled label).getMeta "last_commit" = some "c" := rfl
  have hdone : (labelled label).getMeta "phase_b_commit" = none := rfl
  have hprogress : PhaseBReport.madeProgress ⟨outcome.ran, outcome.crashed⟩ = true := by
    simp [PhaseBReport.madeProgress, h]
  unfold PhaseBRun.backgroundPhaseB
  rw [hlast, hdone, if_neg (by decide), if_neg Bool.false_ne_true, silentRun_backgroundWrites]
  dsimp only
  rw [hprogress]
  rfl

theorem overlay_lost {outcome : PhaseBOutcome} {skips : List LsifSkip} {a b : String}
    (ha : a ∈ outcome.ran) (hb : FellShort outcome skips b) (hsame : SameNodes a b) :
    ¬ OverlayLeft (labelled (nodeLabel a))
      ((silentRun outcome skips).backgroundPhaseB .none false (labelled (nodeLabel a)))
      (unratifiedLanguages outcome skips) := by
  intro h
  have hlabel := nodeLabel_eq_iff.mpr hsame
  obtain ⟨e', he', hkey, -⟩ := h.edges ⟨1, 2, .refCall, "live", none⟩
    ((edges_labelled _ _).mpr rfl) rfl
    ⟨nodeLabel a, languageOf_labelled _, mem_unratifiedLanguages.mpr ⟨b, hb, hlabel.symm⟩⟩
  rw [edges_silentRun (List.ne_nil_of_mem ha), ratify_edges, edges_labelled] at he'
  obtain ⟨rfl, hkept⟩ := he'
  refine hkept rfl ⟨rfl, ?_⟩
  exact ⟨_, List.mem_singleton.mpr rfl, rfl, mem_ratifiedLanguages.mpr ⟨a, ha, rfl⟩⟩

/-- The languages to retire and those to keep are disjoint exactly when no language that ran shares
its nodes with one that fell short, and this is also when every background run leaves the overlay
of those that fell short. -/
theorem unratified_left_iff (outcome : PhaseBOutcome) (skips : List LsifSkip) :
    ((∀ l ∈ ratifiedLanguages ⟨outcome.ran, outcome.crashed⟩,
        l ∉ unratifiedLanguages outcome skips) ↔ Separate outcome skips) ∧
      ((∀ (run : PhaseBRun) (f : Faults) (initRunning : Bool) (s : LiveStore),
          run.output.outcome = outcome → run.skips = skips →
            OverlayLeft s (run.backgroundPhaseB f initRunning s)
              (unratifiedLanguages outcome skips)) ↔ Separate outcome skips) := by
  refine ⟨separate_iff.symm, ?_, ?_⟩
  · intro h a ha b hb hsame
    exact overlay_lost ha hb hsame (h (silentRun outcome skips) .none false _ rfl rfl)
  · rintro h run f initRunning s rfl rfl
    exact run.overlayLeft f initRunning s h

/-- The native pass for TypeScript ran and its emitter failed: the label is to retire and to keep,
and the live edge goes. -/
theorem failed_emitter_loses_overlay :
    "typescript" ∈ ratifiedLanguages ⟨["typescript"], []⟩ ∧
      "typescript" ∈ unratifiedLanguages ⟨["typescript"], []⟩ [⟨"typescript", .emitterFailed⟩] ∧
      ¬ OverlayLeft (labelled "typescript")
        ((silentRun ⟨["typescript"], []⟩ [⟨"typescript", .emitterFailed⟩]).backgroundPhaseB .none
          false (labelled "typescript"))
        (unratifiedLanguages ⟨["typescript"], []⟩ [⟨"typescript", .emitterFailed⟩]) := by
  have hran : "typescript" ∈ (⟨["typescript"], []⟩ : PhaseBOutcome).ran := List.mem_singleton.mpr rfl
  have hfell : FellShort ⟨["typescript"], []⟩ [⟨"typescript", .emitterFailed⟩] "typescript" :=
    .inr (List.mem_singleton.mpr rfl)
  refine ⟨mem_ratifiedLanguages.mpr ⟨_, hran, by decide⟩,
    mem_unratifiedLanguages.mpr ⟨_, hfell, by decide⟩, ?_⟩
  exact overlay_lost hran hfell (.inl rfl)

end Travsr.Daemon
