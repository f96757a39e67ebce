import Travsr.Store.Attribution
import Travsr.Store.Delete
import Travsr.Store.PhaseBRows

namespace Travsr.Store

open Travsr.Core Relational

variable {env : Env} {corpus path : String} {s : SqliteStore} {base : NodeTable} {nodes : List Node}
  {refs : List ScipRef} {keep : List String}

/-- The function or method spans the line. -/
def NodeRow.Encloses (r : NodeRow) (sp : FnSpan) (line : Nat) : Prop :=
  r.kind ∈ ["function", "method", "fn"] ∧ r.id = sp.id ∧ r.line = some sp.line ∧
    r.endLine = some sp.endLine ∧ sp.line ≤ line ∧ line ≤ sp.endLine

/-- The node a reference belongs to: the innermost function or method of its file around the line,
of several the one whose stored id is the smallest, or else the file node. -/
def IsCaller (env : Env) (corpus : String) (nodes : NodeTable) (ref : ScipRef) (x : NodeId) : Prop :=
  (∃ r ∈ fileRows nodes corpus ref.callerPath, ∃ sp, r.Encloses sp ref.callerLine ∧ r.id = x ∧
      ∀ r' ∈ fileRows nodes corpus ref.callerPath, ∀ sp', r'.Encloses sp' ref.callerLine →
        sp.Before sp') ∨
    ((∀ r ∈ fileRows nodes corpus ref.callerPath, ∀ sp, ¬ r.Encloses sp ref.callerLine) ∧
      x = (fileNodeForAttribution env nodes corpus ref.callerPath).2)

theorem FnSpan.Before.total (a b : FnSpan) : a.Before b ∨ b.Before a := by
  unfold FnSpan.Before
  omega

theorem FnSpan.Before.trans {a b c : FnSpan} (h : a.Before b) (h' : b.Before c) : a.Before c := by
  unfold FnSpan.Before at *
  omega

theorem mem_fetchAllFnSpans {sp : FnSpan} : sp ∈ fetchAllFnSpans base corpus path ↔
    ∃ r ∈ fileRows base corpus path, r.kind ∈ ["function", "method", "fn"] ∧ r.id = sp.id ∧
      r.line = some sp.line ∧ r.endLine = some sp.endLine := by
  rw [fetchAllFnSpans, List.mem_insertionSort, List.mem_filterMap]
  constructor
  · intro hex
    obtain ⟨r, hr, hsp⟩ := hex
    rw [List.mem_filter, decide_eq_true_eq] at hr
    obtain ⟨line, hl, hsp⟩ := Option.bind_eq_some_iff.mp hsp
    obtain ⟨endLine, he, rfl⟩ := Option.map_eq_some_iff.mp hsp
    exact ⟨r, hr.1, hr.2, rfl, hl, he⟩
  · intro hex
    obtain ⟨r, hr, hk, hid, hl, he⟩ := hex
    refine ⟨r, List.mem_filter.mpr ⟨hr, by simpa using hk⟩, ?_⟩
    rw [hl, he, hid]
    rfl

theorem callerIn_isCaller (ref : ScipRef) :
    IsCaller env corpus base ref (callerIn env corpus base ref) := by
  have hsorted : (fetchAllFnSpans base corpus ref.callerPath).Pairwise FnSpan.Before := by
    have := @List.pairwise_insertionSort _ FnSpan.Before _ ⟨FnSpan.Before.total⟩
      ⟨fun _ _ _ => FnSpan.Before.trans⟩
    exact this _
  unfold callerIn attributeCaller findNarrowestEnclosing
  cases hf : (fetchAllFnSpans base corpus ref.callerPath).find?
      (fun sp => sp.line ≤ ref.callerLine && ref.callerLine ≤ sp.endLine) with
  | some sp =>
    left
    obtain ⟨hp, before, after, hsplit, hbefore⟩ := List.find?_eq_some_iff_append.mp hf
    obtain ⟨r, hr, hk, hid, hl, he⟩ := mem_fetchAllFnSpans.mp (List.mem_of_find?_eq_some hf)
    rw [Bool.and_eq_true, decide_eq_true_eq, decide_eq_true_eq] at hp
    refine ⟨r, hr, sp, ⟨hk, hid, hl, he, hp⟩, hid, ?_⟩
    intro r' hr' sp' hex
    obtain ⟨hk', hid', hl', he', hin⟩ := hex
    have hmem := mem_fetchAllFnSpans.mpr ⟨r', hr', hk', hid', hl', he'⟩
    rw [hsplit] at hmem hsorted
    rcases List.mem_append.mp hmem with hm | hm
    · have hno := hbefore sp' hm
      simp [hin] at hno
    · rcases List.mem_cons.mp hm with heq | hm
      · subst heq
        exact (FnSpan.Before.total sp' sp').elim id id
      · exact List.rel_of_pairwise_cons (List.pairwise_append.mp hsorted).2.1 hm
  | none =>
    right
    refine ⟨?_, rfl⟩
    intro r hr sp hex
    obtain ⟨hk, hid, hl, he, hin⟩ := hex
    have hno := List.find?_eq_none.mp hf sp (mem_fetchAllFnSpans.mpr ⟨r, hr, hk, hid, hl, he⟩)
    simp [hin] at hno

/-- Ids are hashes of vnames, free of collisions between the file nodes that a batch may make up
and the rows and nodes at hand. -/
structure FilesAddressed (env : Env) (corpus : String) (base : NodeTable) (nodes : List Node)
    (refs : List ScipRef) : Prop where
  distinct : FileIdsDistinct env corpus base refs
  row : ∀ path ∈ refs.map ScipRef.callerPath, ∀ r, r ∈ base →
    r.id = (fileNodeRow env base corpus path).id → r.vname = (fileNodeRow env base corpus path).vname
  node : ∀ path ∈ refs.map ScipRef.callerPath, ∀ n ∈ nodes,
    n.id = (fileNodeRow env base corpus path).id → n.vname = (fileNodeRow env base corpus path).vname

theorem filesGrown_foldl (spans : String → List FnSpan) {t : NodeTable}
    (h : FilesGrown corpus base t) : FilesGrown corpus base
      (refs.foldl (fun t ref => (attributeCaller env corpus spans t ref).1) t) := by
  induction refs generalizing t with
  | nil => exact h
  | cons ref refs ih => exact ih (h.attributeCaller spans ref)

theorem FilesGrown.refl (base : NodeTable) : FilesGrown corpus base base :=
  ⟨fun _ h => h, fun _ => .inl rfl⟩

theorem FilesGrown.fileNodeRow_eq {t : NodeTable} (h : FilesGrown corpus base t)
    (hf : (fileRows t corpus path).find? (fun r => r.kind = "file") = none) :
    fileNodeRow env t corpus path = fileNodeRow env base corpus path := by
  rcases h.2 path with heq | hsome
  · exact fileNodeRow_congr heq
  · rw [hf] at hsome
    cases hsome

/-- The batch makes up the file node of the path. -/
def FileNodeMade (env : Env) (corpus : String) (base : NodeTable) (refs : List ScipRef)
    (path : String) : Prop :=
  ¬ Settled env corpus base path ∧ ∃ ref ∈ refs, ref.callerPath = path ∧
    findNarrowestEnclosing (fetchAllFnSpans base corpus path) ref.callerLine = none

instance (env : Env) (corpus : String) (nodes : NodeTable) (path : String) :
    Decidable (Settled env corpus nodes path) := decidable_of_iff _ settled_iff.symm

instance (env : Env) (corpus : String) (base : NodeTable) (refs : List ScipRef) (path : String) :
    Decidable (FileNodeMade env corpus base refs path) :=
  inferInstanceAs (Decidable (_ ∧ ∃ ref ∈ refs, _))

theorem FileNodeMade.carried (h : FileNodeMade env corpus base refs path) :
    path ∈ refs.map ScipRef.callerPath := by
  obtain ⟨_, ref, href, hpath, _⟩ := h
  exact hpath ▸ List.mem_map_of_mem href

theorem FileNodeMade.not_has (h : FileNodeMade env corpus base refs path) :
    ¬ base.Has (fileNodeRow env base corpus path).id :=
  fun hk => h.1 (settled_iff.mpr (.inr (.inl hk)))

theorem mem_attributedNodes {r : NodeRow} (h : r ∈ attributedNodes env corpus base refs) :
    r ∈ base ∨ ∃ path, FileNodeMade env corpus base refs path ∧
      r = fileNodeRow env base corpus path := by
  have hgen : ∀ (rs : List ScipRef) (t : NodeTable), FilesGrown corpus base t →
      r ∈ rs.foldl (fun t ref =>
        (attributeCaller env corpus (fetchAllFnSpans base corpus) t ref).1) t →
      r ∈ t ∨ ∃ ref ∈ rs, r = fileNodeRow env base corpus ref.callerPath ∧
        findNarrowestEnclosing (fetchAllFnSpans base corpus ref.callerPath) ref.callerLine = none ∧
        (fileRows base corpus ref.callerPath).find? (fun r => r.kind = "file") = none ∧
        ¬ t.Has r.id ∧ ¬ t.HasIndex r.vname := by
    intro rs
    induction rs with
    | nil => exact fun _ _ h => .inl h
    | cons ref rs ih =>
      intro t hg hr
      rcases ih _ (hg.attributeCaller _ ref) hr with hr | ⟨ref', href', heq, hs, hn, hk, hi⟩
      · unfold attributeCaller at hr
        split at hr
        · exact .inl hr
        next hs =>
          unfold fileNodeForAttribution at hr
          split at hr
          · exact .inl hr
          next hf =>
            rcases IndexedTable.mem_insertIgnore.mp hr with hr | ⟨heq, hk, hi⟩
            · exact .inl hr
            · subst heq
              have hbase : (fileRows base corpus ref.callerPath).find? (fun r => r.kind = "file") =
                  none := by
                rcases hg.2 ref.callerPath with hsame | hsome
                · rwa [← hsame]
                · rw [hf] at hsome
                  cases hsome
              exact .inr ⟨ref, List.mem_cons_self, hg.fileNodeRow_eq hf, hs, hbase, hk, hi⟩
      · have hgrow := @grown_attributeCaller env corpus t (fetchAllFnSpans base corpus) ref
        exact .inr ⟨ref', List.mem_cons_of_mem _ href', heq, hs, hn, mt hgrow.has hk,
          mt (hgrow.index _) hi⟩
  rcases hgen refs base (.refl base) h with hr | ⟨ref, href, heq, hs, hn, hk, hi⟩
  · exact .inl hr
  · refine .inr ⟨ref.callerPath, ⟨?_, ref, href, rfl, hs⟩, heq⟩
    rw [settled_iff, ← heq]
    intro hset
    rcases hset with ⟨r', hr', hkind⟩ | hk' | hi'
    · have hno := List.find?_eq_none.mp hn r' hr'
      simp [hkind] at hno
    · exact hk hk'
    · exact hi hi'

theorem FilesAddressed.callerIn_file (hf : FilesAddressed env corpus base nodes refs) {ref : ScipRef}
    (href : ref ∈ refs) {r : NodeRow} (hr : r ∈ attributedNodes env corpus base refs)
    (hid : r.id = callerIn env corpus (attributedNodes env corpus base refs) ref) :
    r.vname.corpus = corpus ∧ r.vname.path = ref.callerPath := by
  set last := attributedNodes env corpus base refs with hlast
  have hrow : ∀ r', r' ∈ fileRows last corpus ref.callerPath → r'.id = r.id →
      r.vname.corpus = corpus ∧ r.vname.path = ref.callerPath := by
    intro r' hr' heq
    rw [fileRows, List.mem_filter, decide_eq_true_eq] at hr'
    rw [← IndexedTable.eq_of_key (t := last) hr'.1 hr heq]
    exact hr'.2
  rcases @callerIn_isCaller env corpus last ref with ⟨r', hr', _, _, hx, _⟩ | ⟨_, hx⟩
  · exact hrow r' hr' (hx.trans hid.symm)
  · cases hfile : (fileRows last corpus ref.callerPath).find? (fun r => r.kind = "file") with
    | some r' =>
      apply hrow r' (List.mem_of_find?_eq_some hfile)
      rw [hid, hx]
      simp only [fileNodeForAttribution, hfile]
    | none =>
      have hgrown : FilesGrown corpus base last := filesGrown_foldl _ (.refl base)
      have hrid : r.id = (fileNodeRow env base corpus ref.callerPath).id := by
        rw [hid, hx, ← hgrown.fileNodeRow_eq hfile]
        simp only [fileNodeForAttribution, hfile]
      have hp := List.mem_map_of_mem (f := ScipRef.callerPath) href
      rcases mem_attributedNodes hr with hb | ⟨q, hmade, heq⟩
      · rw [hf.row _ hp r hb hrid]
        exact ⟨rfl, rfl⟩
      · rw [heq] at hrid ⊢
        exact ⟨rfl, hf.distinct _ hmade.carried _ hp hrid⟩

theorem FilesAddressed.made_mem (hf : FilesAddressed env corpus base nodes refs)
    (h : FileNodeMade env corpus base refs path) :
    fileNodeRow env base corpus path ∈ fileRows (attributedNodes env corpus base refs) corpus path := by
  set last := attributedNodes env corpus base refs with hlast
  have hset : Settled env corpus last path := by
    obtain ⟨_, ref, href, hpath, hs⟩ := h
    have hself := @attributeCaller_attributedNodes env corpus base refs
      (fetchAllFnSpans base corpus) ref href
    subst hpath
    simp only [attributeCaller, hs] at hself
    exact hself
  have hmem : ∀ r, r ∈ last → (∃ q, FileNodeMade env corpus base refs q ∧ q = path ∧
      r = fileNodeRow env base corpus q) →
      fileNodeRow env base corpus path ∈ fileRows last corpus path := by
    intro r hr hex
    obtain ⟨q, _, hq, heq⟩ := hex
    subst hq
    subst heq
    exact List.mem_filter.mpr ⟨hr, by simp [fileNodeRow]⟩
  have hgrown : FilesGrown corpus base last := filesGrown_foldl _ (.refl base)
  have hfree := mt (@settled_iff env corpus base path).mpr h.1
  rw [not_or, not_or] at hfree
  by_cases hfile : ∃ r ∈ fileRows last corpus path, r.kind = "file"
  · obtain ⟨r, hr, hk⟩ := hfile
    rw [fileRows, List.mem_filter, decide_eq_true_eq] at hr
    rcases mem_attributedNodes hr.1 with hb | ⟨q, hq, heq⟩
    · exact absurd ⟨r, List.mem_filter.mpr ⟨hb, by simpa using hr.2⟩, hk⟩ hfree.1
    · have hqp : q = path := by
        rw [heq] at hr
        exact hr.2.2
      exact hmem r hr.1 ⟨q, hq, hqp, heq⟩
  · have hnone : (fileRows last corpus path).find? (fun r => r.kind = "file") = none := by
      simpa using hfile
    have hset' := (settled_iff.mp hset).resolve_left hfile
    rw [hgrown.fileNodeRow_eq hnone] at hset'
    rcases hset' with ⟨r, hr, hid⟩ | ⟨r, hr, hv⟩
    · rcases mem_attributedNodes hr with hb | ⟨q, hq, heq⟩
      · exact absurd ⟨r, hb, hid⟩ hfree.2.1
      · have hqp : q = path := hf.distinct q hq.carried path h.carried (heq ▸ hid)
        exact hmem r hr ⟨q, hq, hqp, heq⟩
    · rcases mem_attributedNodes hr with hb | ⟨q, hq, heq⟩
      · exact absurd ⟨r, hb, hv⟩ hfree.2.2
      · have hvq : (fileNodeRow env base corpus q).vname = (fileNodeRow env base corpus path).vname :=
          heq ▸ hv
        have hqp : q = path := congrArg VName.path hvq
        exact hmem r hr ⟨q, hq, hqp, heq⟩

/-- The nodes of a file in the end: those it had, and its file node where one is made up. -/
theorem FilesAddressed.mem_last (hf : FilesAddressed env corpus base nodes refs) {x : NodeId} :
    x ∈ (fileRows (attributedNodes env corpus base refs) corpus path).map NodeRow.id ↔
      x ∈ (fileRows base corpus path).map NodeRow.id ∨
        (FileNodeMade env corpus base refs path ∧ x = (fileNodeRow env base corpus path).id) := by
  constructor
  · intro h
    obtain ⟨r, hr, hid⟩ := List.mem_map.mp h
    rw [fileRows, List.mem_filter, decide_eq_true_eq] at hr
    rcases mem_attributedNodes hr.1 with hb | ⟨q, hq, heq⟩
    · exact .inl (List.mem_map.mpr ⟨r, List.mem_filter.mpr ⟨hb, by simpa using hr.2⟩, hid⟩)
    · have hqp : q = path := by
        rw [heq] at hr
        exact hr.2.2
      subst hqp
      exact .inr ⟨hq, by rw [← hid, heq]⟩
  · intro h
    rcases h with h | ⟨hm, hx⟩
    · obtain ⟨r, hr, hid⟩ := List.mem_map.mp h
      rw [fileRows, List.mem_filter, decide_eq_true_eq] at hr
      have hgrow := @grown_attributedNodes env corpus base refs
      have hfind : base.find? r.id = some r := Table.find?_of_mem (t := base.toTable) hr.1
      have hl := (Table.mem_of_find? (hgrow.row _ _ hfind)).1
      exact List.mem_map.mpr ⟨r, List.mem_filter.mpr ⟨hl, by simpa using hr.2⟩, hid⟩
    · exact List.mem_map.mpr ⟨_, hf.made_mem hm, hx.symm⟩

def derivedSites (env : Env) (corpus : String) (nodes : NodeTable) (refs : List ScipRef)
    (path : String) : List SiteRow :=
  (refs.filter fun ref => ref.callerPath = path).filterMap (siteOf env corpus nodes)

def derivedEdges (env : Env) (corpus : String) (nodes : NodeTable) (refs : List ScipRef)
    (path : String) : List EdgeRow :=
  (refs.filter fun ref => ref.callerPath = path).filterMap (edgeOf env corpus nodes)

def firstColumn (k : NodeId × NodeId × EdgeKind × Int) (rows : List SiteRow) : Option Nat :=
  (rows.filter fun r => r.key = k).findSome? SiteRow.col

/-- The row is what the file's references give: one of them gives its key, and the column is the
first that one of these knows. -/
def DerivedSite (env : Env) (corpus : String) (nodes : NodeTable) (refs : List ScipRef)
    (path : String) (r : SiteRow) : Prop :=
  (∃ d ∈ derivedSites env corpus nodes refs path, d.key = r.key) ∧
    r.col = firstColumn r.key (derivedSites env corpus nodes refs path)

namespace SqliteStore

/-- A re-derived edge with the key hangs from a node of the file. -/
def OwnsEdge (s : SqliteStore) (corpus path : String) (k : NodeId × NodeId × EdgeKind) : Prop :=
  ∃ e, e ∈ s.edges ∧ Rederived e ∧ e.src ∈ s.idsAt corpus path ∧ e.key = k

/-- The occurrence lies in a node of the file. -/
def OwnsSite (s : SqliteStore) (corpus path : String) (r : SiteRow) : Prop :=
  r ∈ s.sites ∧ r.src ∈ s.idsAt corpus path

end SqliteStore

/-- The occurrences that hang from the id of a file node before the batch makes it up. -/
def leftSites (env : Env) (corpus : String) (s : SqliteStore) (base : NodeTable)
    (refs : List ScipRef) (path : String) : List SiteRow :=
  s.sites.rows.filter fun r =>
    FileNodeMade env corpus base refs path ∧ r.src = (fileNodeRow env base corpus path).id

def leftEdges (env : Env) (corpus : String) (s : SqliteStore) (base : NodeTable)
    (refs : List ScipRef) (path : String) : List EdgeRow :=
  s.edges.rows.filter fun e => Rederived e ∧
    FileNodeMade env corpus base refs path ∧ e.src = (fileNodeRow env base corpus path).id

/-- When the file's rows come out as derived: no reference to a stored callee falls back to a file
node that is refused; what hangs from the id of a file node before it is made up is derived as
well; and what the references give whose callee is made up only after their turn is left there
or given by others, with the same column. -/
structure Orderly (env : Env) (corpus : String) (s : SqliteStore) (base : NodeTable)
    (refs : List ScipRef) (path : String) : Prop where
  grounded : ∀ ref ∈ refs, ref.callerPath = path →
    (attributedNodes env corpus base refs).Has ref.calleeId →
    ¬ Unattributed env corpus (fetchAllFnSpans base corpus) (attributedNodes env corpus base refs) ref
  left : ∀ r ∈ leftSites env corpus s base refs path,
    ∃ d ∈ derivedSites env corpus (attributedNodes env corpus base refs) refs path, d.key = r.key
  leftEdge : ∀ e ∈ leftEdges env corpus s base refs path,
    ∃ d ∈ derivedEdges env corpus (attributedNodes env corpus base refs) refs path, d.key = e.key
  late : ∀ d ∈ derivedSites env corpus (attributedNodes env corpus base refs) refs path,
    ∃ r ∈ leftSites env corpus s base refs path ++
      derivedSites env corpus (attributedNodes env corpus base refs)
        (timely env corpus (fetchAllFnSpans base corpus) base refs) path, r.key = d.key
  lateEdge : ∀ d ∈ derivedEdges env corpus (attributedNodes env corpus base refs) refs path,
    ∃ e ∈ leftEdges env corpus s base refs path ++
      derivedEdges env corpus (attributedNodes env corpus base refs)
        (timely env corpus (fetchAllFnSpans base corpus) base refs) path, e.key = d.key
  column : ∀ d ∈ derivedSites env corpus (attributedNodes env corpus base refs) refs path,
    firstColumn d.key (leftSites env corpus s base refs path ++
      derivedSites env corpus (attributedNodes env corpus base refs)
        (timely env corpus (fetchAllFnSpans base corpus) base refs) path) =
      firstColumn d.key
        (derivedSites env corpus (attributedNodes env corpus base refs) refs path)

theorem filterMap_filter_of {α β : Type} {f : α → Option β} {p : α → Bool} {q : β → Bool}
    {l : List α} (h : ∀ a ∈ l, ∀ b, f a = some b → q b → p a) :
    (l.filterMap f).filter q = ((l.filter p).filterMap f).filter q := by
  induction l with
  | nil => rfl
  | cons a l ih =>
    have hrest := ih fun a' ha' => h a' (List.mem_cons_of_mem _ ha')
    cases hf : f a with
    | none =>
      by_cases hp : p a
      · rw [List.filterMap_cons_none hf, List.filter_cons_of_pos hp, List.filterMap_cons_none hf, hrest]
      · rw [List.filterMap_cons_none hf, List.filter_cons_of_neg hp, hrest]
    | some b =>
      by_cases hp : p a
      · rw [List.filterMap_cons_some hf, List.filter_cons_of_pos hp, List.filterMap_cons_some hf,
          List.filter_cons, List.filter_cons, hrest]
      · have hq : ¬ q b := fun hq => hp (h a List.mem_cons_self b hf hq)
        rw [List.filterMap_cons_some hf, List.filter_cons_of_neg hp, List.filter_cons_of_neg hq, hrest]

theorem recorded_some (rows : List SiteRow) (o : SiteRow) :
    recorded (some o) rows = some { o with col := (o :: rows).findSome? SiteRow.col } := by
  induction rows generalizing o with
  | nil =>
    cases o with
    | mk src dst kind line col => cases col <;> rfl
  | cons b rows ih =>
    change recorded (some { o with col := o.col <|> b.col }) rows = _
    rw [ih]
    cases o with
    | mk src dst kind line col => cases col <;> rfl

theorem recorded_eq_some {rows : List SiteRow} {k : NodeId × NodeId × EdgeKind × Int}
    {r : SiteRow} :
    recorded none (rows.filter fun b => b.key = k) = some r ↔
      r.key = k ∧ (∃ b ∈ rows, b.key = k) ∧ r.col = firstColumn k rows := by
  rw [firstColumn]
  have hex : (∃ b ∈ rows, b.key = k) ↔ rows.filter (fun b => b.key = k) ≠ [] := by
    simp [List.filter_eq_nil_iff]
  have hkey : ∀ b ∈ rows.filter (fun b => b.key = k), b.key = k := by
    intro b hb
    exact of_decide_eq_true (List.mem_filter.mp hb).2
  rw [hex]
  cases hl : rows.filter (fun b => b.key = k) with
  | nil => simp [recorded]
  | cons b l =>
    have hb : b.key = k := hkey b (hl ▸ List.mem_cons_self)
    change recorded (some b) l = some r ↔ _
    rw [recorded_some, Option.some.injEq, ← hb]
    constructor
    · intro h
      rw [← h]
      exact ⟨rfl, List.cons_ne_nil _ _, rfl⟩
    · intro hex
      obtain ⟨hr, _, hc⟩ := hex
      cases r with
      | mk src dst kind line col =>
        obtain ⟨h1, h2⟩ := Prod.mk.inj hr
        obtain ⟨h2, h3⟩ := Prod.mk.inj h2
        obtain ⟨h3, h4⟩ := Prod.mk.inj h3
        dsimp only at h1 h2 h3 h4 hc
        rw [h1, h2, h3, h4, hc]

theorem recorded_idem (rows : List SiteRow) :
    recorded (recorded none rows) rows = recorded none rows := by
  cases rows with
  | nil => rfl
  | cons b rows =>
    change recorded (recorded (some b) rows) (b :: rows) = recorded (some b) rows
    rw [recorded_some, recorded_some]
    cases b with
    | mk src dst kind line col => cases col <;> cases h : rows.findSome? SiteRow.col <;> simp [h]

theorem labelled_concat (old : Option EdgeRow) (rows : List EdgeRow) (b : EdgeRow) :
    labelled old (rows ++ [b]) =
      some ((labelled old rows).elim b fun r => { r with provenance := "scip" }) := by
  rw [labelled, List.foldl_append]
  rfl

theorem labelled_provenance {old : Option EdgeRow} {rows : List EdgeRow} {e : EdgeRow}
    (hrows : ∀ b ∈ rows, b.provenance = "scip") (hne : rows ≠ []) (h : labelled old rows = some e) :
    e.provenance = "scip" := by
  rcases List.eq_nil_or_concat rows with hnil | ⟨init, b, hsplit⟩
  · exact absurd hnil hne
  · rw [hsplit, List.concat_eq_append] at h hrows
    rw [labelled_concat] at h
    obtain rfl := Option.some.inj h
    cases labelled old init with
    | none => exact hrows b (List.mem_append_right _ List.mem_cons_self)
    | some o => rfl

theorem labelled_isSome {old : Option EdgeRow} {rows : List EdgeRow} (hne : rows ≠ []) :
    ∃ e, labelled old rows = some e := by
  rcases List.eq_nil_or_concat rows with hnil | ⟨init, b, hsplit⟩
  · exact absurd hnil hne
  · rw [hsplit, List.concat_eq_append, labelled_concat]
    exact ⟨_, rfl⟩

theorem rederived_of_labelled {t : EdgeTable} {old : Option EdgeRow} {rows : List EdgeRow}
    {k : NodeId × NodeId × EdgeKind} (h : t.find? k = labelled old rows)
    (hrows : ∀ b ∈ rows, Rederived b ∧ b.key = k) (hne : rows ≠ []) :
    ∃ e, t.find? k = some e ∧ Rederived e := by
  obtain ⟨e, hlab⟩ := @labelled_isSome old rows hne
  have hek : e.key = k := (Table.mem_of_find? (h.trans hlab)).2
  obtain ⟨b, hb⟩ := List.exists_mem_of_ne_nil _ hne
  have hkind : e.kind = b.kind := congrArg (fun k => k.2.2) (hek.trans (hrows b hb).2.symm)
  refine ⟨e, h.trans hlab, labelled_provenance (fun b hb => (hrows b hb).1.1) hne hlab, ?_⟩
  rw [hkind]
  exact (hrows b hb).1.2

theorem SqliteStore.ownsEdge_iff_find? {t : SqliteStore} {k : NodeId × NodeId × EdgeKind} :
    t.OwnsEdge corpus path k ↔ k.1 ∈ t.idsAt corpus path ∧
      ∃ e, t.edges.find? k = some e ∧ Rederived e := by
  constructor
  · intro hex
    obtain ⟨e, hm, hr, hsrc, hek⟩ := hex
    subst hek
    exact ⟨hsrc, e, Table.find?_of_mem hm, hr⟩
  · intro hex
    obtain ⟨hsrc, e, hfind, hr⟩ := hex
    obtain ⟨hm, hek⟩ := Table.mem_of_find? hfind
    subst hek
    exact ⟨e, hm, hr, hsrc, rfl⟩

theorem siteOf_key {ref : ScipRef} {r : SiteRow} (h : siteOf env corpus base ref = some r) :
    r.src = callerIn env corpus base ref := by
  obtain ⟨_, _, _, rfl⟩ := siteOf_eq_some.mp h
  rfl

theorem edgeOf_key {ref : ScipRef} {e : EdgeRow} (h : edgeOf env corpus base ref = some e) :
    e.src = callerIn env corpus base ref ∧ Rederived e := by
  obtain ⟨_, callee, _, _, rfl⟩ := edgeOf_eq_some.mp h
  refine ⟨rfl, rfl, ?_⟩
  unfold refKind
  split_ifs <;> simp

section Batch

variable (hf : FilesAddressed env corpus base nodes refs)

include hf

theorem FilesAddressed.path_of_caller {ref : ScipRef} (href : ref ∈ refs) {x : NodeId}
    (hx : callerIn env corpus (attributedNodes env corpus base refs) ref = x)
    (hmem : x ∈ (fileRows (attributedNodes env corpus base refs) corpus path).map NodeRow.id) :
    ref.callerPath = path := by
  obtain ⟨r, hr, hid⟩ := List.mem_map.mp hmem
  rw [fileRows, List.mem_filter, decide_eq_true_eq] at hr
  exact (hf.callerIn_file href hr.1 (hid.trans hx.symm)).2.symm.trans hr.2.2

theorem FilesAddressed.sites_of_path {rs : List ScipRef} (hrs : rs ⊆ refs)
    {k : NodeId × NodeId × EdgeKind × Int}
    (hk : k.1 ∈ (fileRows (attributedNodes env corpus base refs) corpus path).map NodeRow.id) :
    (rs.filterMap (siteOf env corpus (attributedNodes env corpus base refs))).filter
        (fun r => r.key = k) =
      (derivedSites env corpus (attributedNodes env corpus base refs) rs path).filter
        (fun r => r.key = k) := by
  refine filterMap_filter_of ?_
  intro ref href r hr hq
  rw [decide_eq_true_eq] at hq ⊢
  refine hf.path_of_caller (hrs href) ?_ hk
  rw [← hq]
  exact (siteOf_key hr).symm

theorem FilesAddressed.edges_of_path {rs : List ScipRef} (hrs : rs ⊆ refs)
    {k : NodeId × NodeId × EdgeKind}
    (hk : k.1 ∈ (fileRows (attributedNodes env corpus base refs) corpus path).map NodeRow.id) :
    (rs.filterMap (edgeOf env corpus (attributedNodes env corpus base refs))).filter
        (fun e => e.key = k) =
      (derivedEdges env corpus (attributedNodes env corpus base refs) rs path).filter
        (fun e => e.key = k) := by
  refine filterMap_filter_of ?_
  intro ref href e he hq
  rw [decide_eq_true_eq] at hq ⊢
  refine hf.path_of_caller (hrs href) ?_ hk
  rw [← hq]
  exact (edgeOf_key he).1.symm

theorem FilesAddressed.retracted_iff (hc : Carried corpus base refs keep path) {x : NodeId}
    (hx : x ∈ (fileRows (attributedNodes env corpus base refs) corpus path).map NodeRow.id) :
    ¬ Retracted corpus base refs keep x ↔
      FileNodeMade env corpus base refs path ∧ x = (fileNodeRow env base corpus path).id := by
  rcases hf.mem_last.mp hx with hb | hm
  · refine iff_of_false (not_not_intro (Store.retracted_iff.mpr ⟨path, hc, hb⟩)) ?_
    intro hex
    obtain ⟨hmade, hid⟩ := hex
    obtain ⟨r, hr, hrid⟩ := List.mem_map.mp hb
    exact hmade.not_has ⟨r, (List.mem_filter.mp hr).1, hrid.trans hid⟩
  · refine iff_of_true ?_ hm
    intro hret
    obtain ⟨q, _, hq⟩ := Store.retracted_iff.mp hret
    obtain ⟨r, hr, hrid⟩ := List.mem_map.mp hq
    exact hm.1.not_has ⟨r, (List.mem_filter.mp hr).1, hrid.trans hm.2⟩

end Batch

theorem timely_subset : timely env corpus (fetchAllFnSpans base corpus) base refs ⊆ refs :=
  fun _ h => (mem_timely h).1

theorem idsAt_iff {t : SqliteStore} {last : NodeTable} (h : t.nodes = last) {x : NodeId} :
    x ∈ t.idsAt corpus path ↔ x ∈ (fileRows last corpus path).map NodeRow.id := by
  rw [SqliteStore.mem_idsAt, h, List.mem_map]
  simp only [fileRows, List.mem_filter, decide_eq_true_eq]
  constructor
  · intro hex
    obtain ⟨r, hr, hid, hp⟩ := hex
    exact ⟨r, ⟨hr, hp⟩, hid⟩
  · intro hex
    obtain ⟨r, ⟨hr, hp⟩, hid⟩ := hex
    exact ⟨r, hr, hid, hp⟩

/-- What stands under an occurrence of a carried file afterwards: what was left there, and the
references in time. -/
theorem find?_sites_carried (hf : FilesAddressed env corpus (phaseBNodes s nodes).1 nodes refs)
    (hc : Carried corpus (phaseBNodes s nodes).1 refs keep path)
    {k : NodeId × NodeId × EdgeKind × Int}
    (hk : k.1 ∈ (s.writeScipAttributedBatchKeeping env corpus nodes refs keep).idsAt corpus path) :
    (s.writeScipAttributedBatchKeeping env corpus nodes refs keep).sites.find? k =
      recorded none ((leftSites env corpus s (phaseBNodes s nodes).1 refs path ++
        derivedSites env corpus (attributedNodes env corpus (phaseBNodes s nodes).1 refs)
          (timely env corpus (fetchAllFnSpans (phaseBNodes s nodes).1 corpus) (phaseBNodes s nodes).1
            refs) path).filter fun r => r.key = k) := by
  obtain ⟨hn, hs, _⟩ := writeScipAttributedBatchKeeping_tables env s corpus nodes refs keep
  set base := (phaseBNodes s nodes).1
  have hmem := (idsAt_iff hn).mp hk
  rw [hs, hf.sites_of_path timely_subset hmem, List.filter_append]
  have hleft : (leftSites env corpus s base refs path).filter (fun r => r.key = k) =
      ((s.sites.find? k).filter fun _ => ¬ Retracted corpus base refs keep k.1).toList := by
    rw [leftSites, List.filter_filter]
    by_cases hm : FileNodeMade env corpus base refs path ∧ k.1 = (fileNodeRow env base corpus path).id
    · have hret := (hf.retracted_iff hc hmem).mpr hm
      have hkeep : ((s.sites.find? k).filter fun _ => ¬ Retracted corpus base refs keep k.1) =
          s.sites.find? k := by
        cases s.sites.find? k <;> simp [hret]
      rw [hkeep, ← Table.filter_key]
      refine List.filter_congr ?_
      intro r _
      by_cases hrk : r.key = k
      · have hsrc : r.src = k.1 := congrArg Prod.fst hrk
        simp [hrk, hsrc, hm]
      · simp [hrk]
    · have hret := mt (hf.retracted_iff hc hmem).mp hm
      rw [not_not] at hret
      have hdrop : ((s.sites.find? k).filter fun _ => ¬ Retracted corpus base refs keep k.1) =
          none := by
        simp [hret]
      rw [hdrop, Option.toList_none, List.filter_eq_nil_iff]
      intro r _
      by_cases hrk : r.key = k
      · have hsrc : r.src = k.1 := congrArg Prod.fst hrk
        simpa [hrk, hsrc] using hm
      · simp [hrk]
  rw [hleft]
  cases (s.sites.find? k).filter fun _ => ¬ Retracted corpus base refs keep k.1 <;> rfl

theorem ownsEdge_carried_iff (hf : FilesAddressed env corpus (phaseBNodes s nodes).1 nodes refs)
    (hc : Carried corpus (phaseBNodes s nodes).1 refs keep path) {k : NodeId × NodeId × EdgeKind} :
    (s.writeScipAttributedBatchKeeping env corpus nodes refs keep).OwnsEdge corpus path k ↔
      k.1 ∈ (s.writeScipAttributedBatchKeeping env corpus nodes refs keep).idsAt corpus path ∧
        ∃ e ∈ leftEdges env corpus s (phaseBNodes s nodes).1 refs path ++
          derivedEdges env corpus (attributedNodes env corpus (phaseBNodes s nodes).1 refs)
            (timely env corpus (fetchAllFnSpans (phaseBNodes s nodes).1 corpus)
              (phaseBNodes s nodes).1 refs) path, e.key = k := by
  obtain ⟨hn, _, he⟩ := writeScipAttributedBatchKeeping_tables env s corpus nodes refs keep
  set base := (phaseBNodes s nodes).1
  set s' := s.writeScipAttributedBatchKeeping env corpus nodes refs keep
  set inTime := timely env corpus (fetchAllFnSpans base corpus) base refs
  set last := attributedNodes env corpus base refs
  have hmem : k.1 ∈ s'.idsAt corpus path ↔ k.1 ∈ (fileRows last corpus path).map NodeRow.id :=
    idsAt_iff hn
  rw [SqliteStore.ownsEdge_iff_find?]
  refine and_congr_right ?_
  intro hk
  have hkm := hmem.mp hk
  have hret := hf.retracted_iff hc hkm
  have hfind := he k
  rw [hf.edges_of_path timely_subset hkm] at hfind
  set rows := (derivedEdges env corpus last inTime path).filter fun e => e.key = k with hrows
  have hmade : ∀ b ∈ rows, Rederived b ∧ b.key = k := by
    intro b hb
    obtain ⟨hm, hk⟩ := List.mem_filter.mp hb
    obtain ⟨ref, _, hbe⟩ := List.mem_filterMap.mp hm
    exact ⟨(edgeOf_key hbe).2, of_decide_eq_true hk⟩
  have hex : (∃ e ∈ derivedEdges env corpus last inTime path, e.key = k) ↔ rows ≠ [] := by
    simp [hrows, List.filter_eq_nil_iff]
  simp only [List.mem_append, or_and_right, exists_or, hex]
  by_cases hnil : rows = []
  · rw [hnil] at hfind ⊢
    change _ = (s.edges.find? k).filter _ at hfind
    simp only [ne_eq, not_true_eq_false, or_false, hfind]
    constructor
    · intro hex
      obtain ⟨e, hold, hr⟩ := hex
      obtain ⟨hfe, hno⟩ := Option.filter_eq_some_iff.mp hold
      obtain ⟨hm, hek⟩ := Table.mem_of_find? hfe
      have hnr : ¬ Retracted corpus base refs keep k.1 := fun h => of_decide_eq_true hno ⟨hr, h⟩
      obtain ⟨hmade, hid⟩ := hret.mp hnr
      have hsrc : e.src = k.1 := congrArg Prod.fst hek
      exact ⟨e, List.mem_filter.mpr ⟨hm, by simpa using ⟨hr, hmade, hsrc.trans hid⟩⟩, hek⟩
    · intro hex
      obtain ⟨e, hle, hek⟩ := hex
      rw [leftEdges, List.mem_filter, decide_eq_true_eq] at hle
      obtain ⟨hm, hr, hmade, hid⟩ := hle
      have hsrc : e.src = k.1 := congrArg Prod.fst hek
      have hnr := hret.mpr ⟨hmade, hsrc.symm.trans hid⟩
      have hfe : s.edges.find? k = some e := hek ▸ Table.find?_of_mem hm
      refine ⟨e, Option.filter_eq_some_iff.mpr ⟨hfe, ?_⟩, hr⟩
      rw [decide_eq_true_eq]
      exact fun h => hnr h.2
  · exact iff_of_true (rederived_of_labelled hfind hmade hnil) (.inr hnil)

theorem ownsSite_carried_iff (hf : FilesAddressed env corpus (phaseBNodes s nodes).1 nodes refs)
    (hc : Carried corpus (phaseBNodes s nodes).1 refs keep path) {r : SiteRow} :
    let base := (phaseBNodes s nodes).1
    let there := leftSites env corpus s base refs path ++
      derivedSites env corpus (attributedNodes env corpus base refs)
        (timely env corpus (fetchAllFnSpans base corpus) base refs) path
    let s' := s.writeScipAttributedBatchKeeping env corpus nodes refs keep
    s'.OwnsSite corpus path r ↔ r.src ∈ s'.idsAt corpus path ∧ (∃ b ∈ there, b.key = r.key) ∧
      r.col = firstColumn r.key there := by
  intro base there s'
  constructor
  · intro hex
    obtain ⟨hm, hsrc⟩ := hex
    have hfind := Table.find?_of_mem hm
    rw [find?_sites_carried hf hc hsrc] at hfind
    exact ⟨hsrc, (recorded_eq_some.mp hfind).2⟩
  · intro hex
    obtain ⟨hsrc, hex, hcol⟩ := hex
    have hfind : s'.sites.find? r.key = some r := by
      rw [find?_sites_carried hf hc hsrc]
      exact recorded_eq_some.mpr ⟨rfl, hex, hcol⟩
    exact ⟨(Table.mem_of_find? hfind).1, hsrc⟩

theorem derivedSite_src {d : SiteRow} {rs : List ScipRef}
    (hd : d ∈ derivedSites env corpus base rs path) :
    ∃ ref ∈ rs, ref.callerPath = path ∧ siteOf env corpus base ref = some d := by
  obtain ⟨ref, href, hsite⟩ := List.mem_filterMap.mp hd
  rw [List.mem_filter, decide_eq_true_eq] at href
  exact ⟨ref, href.1, href.2, hsite⟩

theorem derivedEdge_src {d : EdgeRow} {rs : List ScipRef}
    (hd : d ∈ derivedEdges env corpus base rs path) :
    ∃ ref ∈ rs, ref.callerPath = path ∧ edgeOf env corpus base ref = some d := by
  obtain ⟨ref, href, hedge⟩ := List.mem_filterMap.mp hd
  rw [List.mem_filter, decide_eq_true_eq] at href
  exact ⟨ref, href.1, href.2, hedge⟩

theorem derivedSites_subset {rs : List ScipRef} (h : rs ⊆ refs) :
    derivedSites env corpus base rs path ⊆ derivedSites env corpus base refs path := by
  intro d hd
  obtain ⟨ref, href, hp, hsite⟩ := derivedSite_src hd
  exact List.mem_filterMap.mpr ⟨ref, List.mem_filter.mpr ⟨h href, by simpa using hp⟩, hsite⟩

theorem derivedEdges_subset {rs : List ScipRef} (h : rs ⊆ refs) :
    derivedEdges env corpus base rs path ⊆ derivedEdges env corpus base refs path := by
  intro d hd
  obtain ⟨ref, href, hp, hedge⟩ := derivedEdge_src hd
  exact List.mem_filterMap.mpr ⟨ref, List.mem_filter.mpr ⟨h href, by simpa using hp⟩, hedge⟩

/-- The edges and occurrences of a carried file are the derived ones exactly when the batch is
orderly there. -/
theorem derived_iff_orderly (hf : FilesAddressed env corpus (phaseBNodes s nodes).1 nodes refs)
    (hc : Carried corpus (phaseBNodes s nodes).1 refs keep path) :
    let s' := s.writeScipAttributedBatchKeeping env corpus nodes refs keep
    ((∀ k, s'.OwnsEdge corpus path k ↔
        ∃ d ∈ derivedEdges env corpus s'.nodes refs path, d.key = k) ∧
      ∀ r, s'.OwnsSite corpus path r ↔ DerivedSite env corpus s'.nodes refs path r) ↔
      Orderly env corpus s (phaseBNodes s nodes).1 refs path := by
  intro s'
  have hn : s'.nodes = attributedNodes env corpus (phaseBNodes s nodes).1 refs :=
    (writeScipAttributedBatchKeeping_tables env s corpus nodes refs keep).1
  have hedge := fun k => @ownsEdge_carried_iff env corpus path s nodes refs keep hf hc k
  have hsite := fun r => @ownsSite_carried_iff env corpus path s nodes refs keep hf hc r
  dsimp only at hsite
  change ∀ k, s'.OwnsEdge corpus path k ↔ _ at hedge
  change ∀ r, s'.OwnsSite corpus path r ↔ _ at hsite
  rw [hn]
  simp only [hedge, hsite]
  set base := (phaseBNodes s nodes).1
  set last := attributedNodes env corpus base refs
  set inTime := timely env corpus (fetchAllFnSpans base corpus) base refs
  have hids : ∀ x, x ∈ s'.idsAt corpus path ↔ x ∈ (fileRows last corpus path).map NodeRow.id :=
    fun x => idsAt_iff hn
  have hmade : ∀ x, FileNodeMade env corpus base refs path →
      x = (fileNodeRow env base corpus path).id → x ∈ s'.idsAt corpus path :=
    fun x hm hx => (hids x).mpr (hf.mem_last.mpr (.inr ⟨hm, hx⟩))
  have hcaller : ∀ ref ∈ refs, ref.callerPath = path →
      last.Has (callerIn env corpus last ref) → callerIn env corpus last ref ∈ s'.idsAt corpus path := by
    intro ref href hp hex
    obtain ⟨r, hr, hid⟩ := hex
    obtain ⟨hcorp, hpath⟩ := hf.callerIn_file href hr hid
    rw [hids, List.mem_map]
    exact ⟨r, List.mem_filter.mpr ⟨hr, by simpa using ⟨hcorp, hpath.trans hp⟩⟩, hid⟩
  constructor
  · intro hex
    obtain ⟨he, hs⟩ := hex
    have hkey : ∀ d ∈ derivedSites env corpus last refs path, d.src ∈ s'.idsAt corpus path ∧
        (∃ r ∈ leftSites env corpus s base refs path ++ derivedSites env corpus last inTime path,
          r.key = d.key) ∧
        firstColumn d.key (derivedSites env corpus last refs path) =
          firstColumn d.key (leftSites env corpus s base refs path ++
            derivedSites env corpus last inTime path) := by
      intro d hd
      exact (hs { d with col := firstColumn d.key (derivedSites env corpus last refs path) }).mpr
        ⟨⟨d, hd, rfl⟩, rfl⟩
    refine ⟨?_, ?_, ?_, fun d hd => (hkey d hd).2.1, ?_, fun d hd => (hkey d hd).2.2.symm⟩
    · intro ref href hp hcallee hun
      have hno := mt (has_callerIn_iff href).mp (not_not_intro hun)
      have hne : callerIn env corpus last ref ≠ ref.calleeId := fun heq => hno (heq ▸ hcallee)
      obtain ⟨callee, hfind⟩ := Option.isSome_iff_exists.mp (Table.has_iff_find?.mp hcallee)
      obtain ⟨d, hrow⟩ : ∃ d, siteOf env corpus last ref = some d :=
        ⟨_, siteOf_eq_some.mpr ⟨hne, callee, hfind, rfl⟩⟩
      have hd : d ∈ derivedSites env corpus last refs path := List.mem_filterMap.mpr
        ⟨ref, List.mem_filter.mpr ⟨href, by simpa using hp⟩, hrow⟩
      obtain ⟨r, hr, hid, _⟩ := SqliteStore.mem_idsAt.mp (hkey d hd).1
      rw [hn] at hr
      exact hno ⟨r, hr, hid.trans (siteOf_key hrow)⟩
    · intro r hr
      have hr' := hr
      rw [leftSites, List.mem_filter, decide_eq_true_eq] at hr'
      have hsrc := hmade r.src hr'.2.1 hr'.2.2
      have hown := (hs { r with col := firstColumn r.key (leftSites env corpus s base refs path ++
        derivedSites env corpus last inTime path) }).mp
          ⟨hsrc, ⟨r, List.mem_append_left _ hr, rfl⟩, rfl⟩
      exact hown.1
    · intro e hle
      have hle' := hle
      rw [leftEdges, List.mem_filter, decide_eq_true_eq] at hle'
      have hsrc := hmade e.src hle'.2.2.1 hle'.2.2.2
      exact (he e.key).mp ⟨hsrc, e, List.mem_append_left _ hle, rfl⟩
    · intro d hd
      exact ((he d.key).mpr ⟨d, hd, rfl⟩).2
  · intro ho
    have hstored : ∀ ref ∈ refs, ref.callerPath = path → last.Has ref.calleeId →
        callerIn env corpus last ref ∈ s'.idsAt corpus path :=
      fun ref href hp hcallee =>
        hcaller ref href hp ((has_callerIn_iff href).mpr (ho.grounded ref href hp hcallee))
    constructor
    · intro k
      constructor
      · intro hex
        obtain ⟨_, e, hmem, hek⟩ := hex
        rcases List.mem_append.mp hmem with hl | ht
        · obtain ⟨d, hd, hdk⟩ := ho.leftEdge e hl
          exact ⟨d, hd, hdk.trans hek⟩
        · exact ⟨e, derivedEdges_subset timely_subset ht, hek⟩
      · intro hex
        obtain ⟨d, hd, hdk⟩ := hex
        obtain ⟨ref, href, hp, hedgeOf⟩ := derivedEdge_src hd
        obtain ⟨_, callee, hfind, _, _⟩ := edgeOf_eq_some.mp hedgeOf
        have hsrc := hstored ref href hp (Table.has_iff_find?.mpr (by rw [hfind]; rfl))
        rw [← (edgeOf_key hedgeOf).1] at hsrc
        obtain ⟨e, hmem, hek⟩ := ho.lateEdge d hd
        subst hdk
        exact ⟨hsrc, e, hmem, hek⟩
    · intro r
      constructor
      · intro hex
        obtain ⟨_, ⟨b, hmem, hbk⟩, hcol⟩ := hex
        have hex : ∃ d ∈ derivedSites env corpus last refs path, d.key = r.key := by
          rcases List.mem_append.mp hmem with hl | ht
          · obtain ⟨d, hd, hdk⟩ := ho.left b hl
            exact ⟨d, hd, hdk.trans hbk⟩
          · exact ⟨b, derivedSites_subset timely_subset ht, hbk⟩
        obtain ⟨d, hd, hdk⟩ := hex
        have hcd := ho.column d hd
        rw [hdk] at hcd
        exact ⟨⟨d, hd, hdk⟩, hcol.trans hcd⟩
      · intro hex
        obtain ⟨⟨d, hd, hdk⟩, hcol⟩ := hex
        obtain ⟨ref, href, hp, hsiteOf⟩ := derivedSite_src hd
        obtain ⟨_, callee, hfind, _⟩ := siteOf_eq_some.mp hsiteOf
        have hsrc := hstored ref href hp (Table.has_iff_find?.mpr (by rw [hfind]; rfl))
        rw [← siteOf_key hsiteOf] at hsrc
        have hrsrc : d.src = r.src := congrArg Prod.fst hdk
        obtain ⟨b, hmem, hbk⟩ := ho.late d hd
        have hcd := ho.column d hd
        rw [hdk] at hcd
        exact ⟨hrsrc ▸ hsrc, ⟨b, hmem, hbk.trans hdk⟩, hcol.trans hcd.symm⟩

/-- What an attributed batch promises: references go to their callers; the edges and occurrences
of every file it speaks for are those derived from its references; the same batch again changes
neither; and the rows of files without a reference stay. -/
structure Converges (env : Env) (s : SqliteStore) (corpus : String) (nodes : List Node)
    (refs : List ScipRef) (keep : List String) (s' s'' : SqliteStore) : Prop where
  caller : ∀ ref ∈ refs, IsCaller env corpus s'.nodes ref (callerIn env corpus s'.nodes ref)
  edges : ∀ path, Carried corpus (phaseBNodes s nodes).1 refs keep path → ∀ k,
    s'.OwnsEdge corpus path k ↔ ∃ d ∈ derivedEdges env corpus s'.nodes refs path, d.key = k
  sites : ∀ path, Carried corpus (phaseBNodes s nodes).1 refs keep path → ∀ r,
    s'.OwnsSite corpus path r ↔ DerivedSite env corpus s'.nodes refs path r
  edgesAgain : ∀ path, Carried corpus (phaseBNodes s nodes).1 refs keep path → ∀ k,
    s''.OwnsEdge corpus path k ↔ s'.OwnsEdge corpus path k
  sitesAgain : ∀ path, Carried corpus (phaseBNodes s nodes).1 refs keep path → ∀ r,
    s''.OwnsSite corpus path r ↔ s'.OwnsSite corpus path r
  edgesElsewhere : ∀ c path, ¬ (c = corpus ∧ path ∈ refs.map ScipRef.callerPath) → ∀ e,
    e.src ∈ s'.idsAt c path → (e ∈ s'.edges ↔ e ∈ s.edges)
  sitesElsewhere : ∀ c path, ¬ (c = corpus ∧ path ∈ refs.map ScipRef.callerPath) → ∀ r,
    r.src ∈ s'.idsAt c path → (r ∈ s'.sites ↔ r ∈ s.sites)

theorem phaseBNodes_again (ha : s.Addressed nodes)
    (hf : FilesAddressed env corpus (phaseBNodes s nodes).1 nodes refs) {t : SqliteStore}
    (ht : t.nodes = attributedNodes env corpus (phaseBNodes s nodes).1 refs) :
    (phaseBNodes t nodes).1 = t.nodes := by
  have hgrow := @grown_attributedNodes env corpus (phaseBNodes s nodes).1 refs
  have hrows : ∀ r, r ∈ attributedNodes env corpus (phaseBNodes s nodes).1 refs → _ :=
    fun r => mem_attributedNodes
  rw [← ht] at hgrow hrows
  set base := (phaseBNodes s nodes).1 with hbase
  have htaken : ∀ n ∈ nodes, t.nodes.Has n.id ∨ t.nodes.HasIndex n.vname := by
    intro n hn
    exact (@has_or_hasIndex_foldl_phaseBNode nodes (s.nodes, s.lex) n hn).imp hgrow.has (hgrow.index _)
  have hkeys : (phaseBNodes t nodes).1.rows.map NodeRow.id = t.nodes.rows.map NodeRow.id :=
    keys_foldl_phaseBNode htaken
  apply IndexedTable.eq_of_rows_find? hkeys
  intro x
  by_cases hx : t.nodes.Has x
  · have hlast : (phaseBNodes t nodes).1.Has x := has_foldl_phaseBNode_mono hx
    rw [phaseBNodes] at hlast ⊢
    rw [find?_foldl_phaseBNode ha.node hlast]
    by_cases hb : base.Has x
    · have hfind := find?_foldl_phaseBNode ha.node hb
      obtain ⟨r, hr⟩ := Option.isSome_iff_exists.mp (Table.has_iff_find?.mp hb)
      have hr' : t.nodes.find? x = some r := hgrow.row x r hr
      change base.find? x = _ at hfind
      rw [hr] at hfind
      rw [hr']
      exact evolve_phaseB_idem hfind.symm
    · obtain ⟨r, hr, hid⟩ := hx
      rcases hrows r hr with hrb | ⟨q, hmade, heq⟩
      · exact absurd ⟨r, hrb, hid⟩ hb
      · have hnone : nodes.filter (fun n => n.id = x) = [] := by
          rw [List.filter_eq_nil_iff]
          intro n hn hnx
          rw [decide_eq_true_eq] at hnx
          have hnid : n.id = (fileNodeRow env base corpus q).id := by
            rw [hnx, ← hid, heq]
          have hv := hf.node q hmade.carried n hn hnid
          rcases @has_or_hasIndex_foldl_phaseBNode nodes (s.nodes, s.lex) n hn with hk | hi
          · exact hb (hnx ▸ hk)
          · exact hmade.1 (settled_iff.mpr (.inr (.inr (hv ▸ hi))))
        rw [hnone]
        rfl
  · have hlast : ¬ (phaseBNodes t nodes).1.Has x := by
      intro hex
      obtain ⟨r, hr, hid⟩ := hex
      have hm : x ∈ (phaseBNodes t nodes).1.rows.map NodeRow.id := List.mem_map.mpr ⟨r, hr, hid⟩
      rw [hkeys] at hm
      obtain ⟨r', hr', hid'⟩ := List.mem_map.mp hm
      exact hx ⟨r', hr', hid'⟩
    rw [Table.find?_eq_none.mpr hx, Table.find?_eq_none.mpr hlast]

theorem attributedNodes_again (spans : String → List FnSpan) {t : NodeTable} {rs : List ScipRef}
    (h : ∀ ref ∈ rs, (attributeCaller env corpus spans t ref).1 = t) :
    rs.foldl (fun t ref => (attributeCaller env corpus spans t ref).1) t = t ∧
      timely env corpus spans t rs = rs.filter fun ref => t.Has ref.calleeId := by
  induction rs with
  | nil => exact ⟨rfl, rfl⟩
  | cons ref rs ih =>
    obtain ⟨hfold, htime⟩ := ih fun r hr => h r (List.mem_cons_of_mem _ hr)
    have href := h ref List.mem_cons_self
    refine ⟨?_, ?_⟩
    · rw [List.foldl_cons, href, hfold]
    · rw [timely, href, htime]
      by_cases hc : t.Has ref.calleeId
      · rw [if_pos hc, List.filter_cons_of_pos (by simpa using hc)]
      · rw [if_neg hc, List.filter_cons_of_neg (by simpa using hc)]

theorem filterMap_stored {β : Type} {f : ScipRef → Option β} {t : NodeTable} {rs : List ScipRef}
    (h : ∀ ref, ¬ t.Has ref.calleeId → f ref = none) :
    (rs.filter fun ref => t.Has ref.calleeId).filterMap f = rs.filterMap f := by
  induction rs with
  | nil => rfl
  | cons ref rs ih =>
    by_cases hc : t.Has ref.calleeId
    · rw [List.filter_cons_of_pos (by simpa using hc), List.filterMap_cons, List.filterMap_cons, ih]
    · rw [List.filter_cons_of_neg (by simpa using hc), ih, List.filterMap_cons_none (h ref hc)]

theorem writeScipAttributedBatchKeeping_again (ha : s.Addressed nodes)
    (hf : FilesAddressed env corpus (phaseBNodes s nodes).1 nodes refs) {t : SqliteStore}
    (ht : t.nodes = attributedNodes env corpus (phaseBNodes s nodes).1 refs) :
    let t' := t.writeScipAttributedBatchKeeping env corpus nodes refs keep
    t'.nodes = t.nodes ∧
      (∀ k, t'.sites.find? k = recorded
        ((t.sites.find? k).filter fun _ => ¬ Retracted corpus t.nodes refs keep k.1)
        ((refs.filterMap (siteOf env corpus t.nodes)).filter fun r => r.key = k)) ∧
      ∀ k, t'.edges.find? k = labelled
        ((t.edges.find? k).filter fun e => ¬ (Rederived e ∧ Retracted corpus t.nodes refs keep k.1))
        ((refs.filterMap (edgeOf env corpus t.nodes)).filter fun e => e.key = k) := by
  intro t'
  obtain ⟨hn, hs, he⟩ := writeScipAttributedBatchKeeping_tables env t corpus nodes refs keep
  have hnone : ∀ ref, ¬ t.nodes.Has ref.calleeId →
      siteOf env corpus t.nodes ref = none ∧ edgeOf env corpus t.nodes ref = none := by
    intro ref hc
    simp [siteOf, edgeOf, Table.find?_eq_none.mpr hc]
  have hspans : fetchAllFnSpans t.nodes corpus =
      fetchAllFnSpans (phaseBNodes s nodes).1 corpus := by
    rw [ht]
    exact (grown_attributedNodes refs).spans
  have hcaller : ∀ ref ∈ refs, (attributeCaller env corpus (fetchAllFnSpans t.nodes corpus)
      t.nodes ref).1 = t.nodes := by
    intro ref href
    rw [hspans, ht]
    exact attributeCaller_attributedNodes _ href
  obtain ⟨hlast, htime⟩ := attributedNodes_again (fetchAllFnSpans t.nodes corpus) hcaller
  change attributedNodes env corpus t.nodes refs = t.nodes at hlast
  rw [phaseBNodes_again ha hf ht, hlast] at hn hs he
  rw [htime, filterMap_stored fun ref hc => (hnone ref hc).1] at hs
  rw [htime, filterMap_stored fun ref hc => (hnone ref hc).2] at he
  exact ⟨hn, hs, he⟩

theorem derived_again (ha : s.Addressed nodes)
    (hf : FilesAddressed env corpus (phaseBNodes s nodes).1 nodes refs) {t : SqliteStore}
    (ht : t.nodes = attributedNodes env corpus (phaseBNodes s nodes).1 refs)
    (he : ∀ k, t.OwnsEdge corpus path k ↔
      ∃ d ∈ derivedEdges env corpus t.nodes refs path, d.key = k)
    (hs : ∀ r, t.OwnsSite corpus path r ↔ DerivedSite env corpus t.nodes refs path r) :
    let t' := t.writeScipAttributedBatchKeeping env corpus nodes refs keep
    (∀ k, t'.OwnsEdge corpus path k ↔ t.OwnsEdge corpus path k) ∧
      ∀ r, t'.OwnsSite corpus path r ↔ t.OwnsSite corpus path r := by
  intro t'
  obtain ⟨hn, hsites, hedges⟩ :=
    @writeScipAttributedBatchKeeping_again env corpus s nodes refs keep ha hf t ht
  change t'.nodes = t.nodes at hn
  change ∀ k, t'.sites.find? k = _ at hsites
  change ∀ k, t'.edges.find? k = _ at hedges
  have hids : ∀ x, x ∈ t'.idsAt corpus path ↔ x ∈ t.idsAt corpus path := by
    intro x
    rw [SqliteStore.mem_idsAt, SqliteStore.mem_idsAt, hn]
  have hpath : ∀ x, x ∈ t.idsAt corpus path → x ∈ (fileRows (attributedNodes env corpus
      (phaseBNodes s nodes).1 refs) corpus path).map NodeRow.id := fun x => (idsAt_iff ht).mp
  constructor
  · intro k
    rw [SqliteStore.ownsEdge_iff_find?, hids, SqliteStore.ownsEdge_iff_find?]
    refine and_congr_right ?_
    intro hk
    have hfind := hedges k
    rw [ht, hf.edges_of_path (List.Subset.refl _) (hpath _ hk), ← ht] at hfind
    set rows := (derivedEdges env corpus t.nodes refs path).filter fun e => e.key = k with hrows
    by_cases hnil : rows = []
    · have hno : ¬ t.OwnsEdge corpus path k := by
        rw [he]
        intro hex
        obtain ⟨d, hd, hdk⟩ := hex
        have := List.filter_eq_nil_iff.mp hnil d hd
        simp [hdk] at this
      have hno' : ¬ ∃ e, t.edges.find? k = some e ∧ Rederived e := fun h =>
        hno (SqliteStore.ownsEdge_iff_find?.mpr ⟨hk, h⟩)
      refine iff_of_false ?_ hno'
      rw [hnil] at hfind
      intro hex
      obtain ⟨e, hsome, hr⟩ := hex
      exact hno' ⟨e, (Option.filter_eq_some_iff.mp (hfind.symm.trans hsome)).1, hr⟩
    · have hmade : ∀ b ∈ rows, Rederived b ∧ b.key = k := by
        intro b hb
        obtain ⟨hm, hbk⟩ := List.mem_filter.mp hb
        obtain ⟨ref, _, _, hbe⟩ := derivedEdge_src hm
        exact ⟨(edgeOf_key hbe).2, of_decide_eq_true hbk⟩
      refine iff_of_true (rederived_of_labelled hfind hmade hnil) ?_
      obtain ⟨d, hd⟩ := List.exists_mem_of_ne_nil _ hnil
      obtain ⟨hm, hdk⟩ := List.mem_filter.mp hd
      exact (SqliteStore.ownsEdge_iff_find?.mp ((he k).mpr ⟨d, hm, of_decide_eq_true hdk⟩)).2
  · have hsame : ∀ k : NodeId × NodeId × EdgeKind × Int, k.1 ∈ t.idsAt corpus path →
        t'.sites.find? k = t.sites.find? k := by
      intro k hk
      have hold : t.sites.find? k = recorded none
          ((derivedSites env corpus t.nodes refs path).filter fun r => r.key = k) := by
        apply Option.ext
        intro r
        rw [recorded_eq_some, Table.find?_eq_some]
        constructor
        · intro hex
          obtain ⟨hm, hrk⟩ := hex
          subst hrk
          exact ⟨rfl, (hs r).mp ⟨hm, hk⟩⟩
        · intro hex
          obtain ⟨hrk, hd⟩ := hex
          subst hrk
          exact ⟨((hs r).mpr hd).1, rfl⟩
      have hfind := hsites k
      rw [ht, hf.sites_of_path (List.Subset.refl _) (hpath _ hk), ← ht] at hfind
      rw [hfind, hold]
      by_cases hret : Retracted corpus t.nodes refs keep k.1
      · have hdrop : ((recorded none ((derivedSites env corpus t.nodes refs path).filter
            fun r => r.key = k)).filter fun _ => ¬ Retracted corpus t.nodes refs keep k.1) = none := by
          simp [hret]
        rw [hdrop]
      · have hkeep : ((recorded none ((derivedSites env corpus t.nodes refs path).filter
            fun r => r.key = k)).filter fun _ => ¬ Retracted corpus t.nodes refs keep k.1) =
            recorded none ((derivedSites env corpus t.nodes refs path).filter
              fun r => r.key = k) := by
          cases recorded none ((derivedSites env corpus t.nodes refs path).filter
            fun r => r.key = k) <;> simp [hret]
        rw [hkeep, recorded_idem]
    intro r
    rw [SqliteStore.OwnsSite, SqliteStore.OwnsSite, hids]
    refine and_congr_left ?_
    intro hsrc
    rw [Table.mem_iff_find?, Table.mem_iff_find?, hsame r.key hsrc]

theorem find?_elsewhere (hf : FilesAddressed env corpus (phaseBNodes s nodes).1 nodes refs)
    {c : String} (hc : ¬ (c = corpus ∧ path ∈ refs.map ScipRef.callerPath)) {x : NodeId}
    (hx : x ∈ (s.writeScipAttributedBatchKeeping env corpus nodes refs keep).idsAt c path) :
    (∀ k, k.1 = x → (s.writeScipAttributedBatchKeeping env corpus nodes refs keep).sites.find? k =
        s.sites.find? k) ∧
      ∀ k, k.1 = x → (s.writeScipAttributedBatchKeeping env corpus nodes refs keep).edges.find? k =
        s.edges.find? k := by
  obtain ⟨hn, hs, he⟩ := writeScipAttributedBatchKeeping_tables env s corpus nodes refs keep
  obtain ⟨r, hr, hid, hrc, hrp⟩ := SqliteStore.mem_idsAt.mp hx
  rw [hn] at hr
  have hret : ¬ Retracted corpus (phaseBNodes s nodes).1 refs keep x := by
    intro h
    obtain ⟨q, hcar, hq⟩ := retracted_iff.mp h
    obtain ⟨r', hr', hid'⟩ := List.mem_map.mp hq
    rw [fileRows, List.mem_filter, decide_eq_true_eq] at hr'
    have hfind : (phaseBNodes s nodes).1.find? r'.id = some r' :=
      Table.find?_of_mem (t := (phaseBNodes s nodes).1.toTable) hr'.1
    have hgrow := @grown_attributedNodes env corpus (phaseBNodes s nodes).1 refs
    have hlast := (Table.mem_of_find? (hgrow.row _ _ hfind)).1
    have hsame := IndexedTable.eq_of_key hr hlast (hid.trans hid'.symm)
    subst hsame
    exact hc ⟨hrc.symm.trans hr'.2.1, hrp ▸ hr'.2.2 ▸ hcar.1⟩
  have hcaller : ∀ ref ∈ refs, callerIn env corpus
      (attributedNodes env corpus (phaseBNodes s nodes).1 refs) ref ≠ x := by
    intro ref href heq
    obtain ⟨hcorp, hpath⟩ := hf.callerIn_file href hr (hid.trans heq.symm)
    refine hc ⟨hrc.symm.trans hcorp, ?_⟩
    rw [← hrp, hpath]
    exact List.mem_map_of_mem href
  constructor
  · intro k hk
    have hnil : ((timely env corpus (fetchAllFnSpans (phaseBNodes s nodes).1 corpus)
        (phaseBNodes s nodes).1 refs).filterMap (siteOf env corpus (attributedNodes env corpus
          (phaseBNodes s nodes).1 refs))).filter (fun r => r.key = k) = [] := by
      rw [List.filter_eq_nil_iff]
      intro d hd hdk
      obtain ⟨ref, href, hsite⟩ := List.mem_filterMap.mp hd
      refine hcaller ref (timely_subset href) ?_
      rw [← siteOf_key hsite, ← hk, ← of_decide_eq_true hdk]
      rfl
    rw [hs, hnil, hk]
    cases hfs : s.sites.find? k <;> simp [recorded, hret]
  · intro k hk
    have hnil : ((timely env corpus (fetchAllFnSpans (phaseBNodes s nodes).1 corpus)
        (phaseBNodes s nodes).1 refs).filterMap (edgeOf env corpus (attributedNodes env corpus
          (phaseBNodes s nodes).1 refs))).filter (fun e => e.key = k) = [] := by
      rw [List.filter_eq_nil_iff]
      intro d hd hdk
      obtain ⟨ref, href, hedge⟩ := List.mem_filterMap.mp hd
      refine hcaller ref (timely_subset href) ?_
      rw [← (edgeOf_key hedge).1, ← hk, ← of_decide_eq_true hdk]
      rfl
    rw [he, hnil, hk]
    cases hfs : s.edges.find? k <;> simp [labelled, hret]

/-- An attributed batch converges exactly when it is orderly in every file it speaks for. Ids are
hashes of vnames, taken to be free of collisions. -/
theorem converges_iff (ha : s.Addressed nodes)
    (hf : FilesAddressed env corpus (phaseBNodes s nodes).1 nodes refs) :
    let s' := s.writeScipAttributedBatchKeeping env corpus nodes refs keep
    Converges env s corpus nodes refs keep s'
        (s'.writeScipAttributedBatchKeeping env corpus nodes refs keep) ↔
      ∀ path, Carried corpus (phaseBNodes s nodes).1 refs keep path →
        Orderly env corpus s (phaseBNodes s nodes).1 refs path := by
  intro s'
  have hn : s'.nodes = attributedNodes env corpus (phaseBNodes s nodes).1 refs :=
    (writeScipAttributedBatchKeeping_tables env s corpus nodes refs keep).1
  constructor
  · intro h path hc
    exact (derived_iff_orderly hf hc).mp ⟨h.edges path hc, h.sites path hc⟩
  · intro h
    have hderived := fun path hc =>
      (@derived_iff_orderly env corpus path s nodes refs keep hf hc).mpr (h path hc)
    have hagain := fun path hc =>
      @derived_again env corpus path s nodes refs keep ha hf s' hn (hderived path hc).1 (hderived path hc).2
    refine ⟨fun ref _ => callerIn_isCaller ref, fun path hc => (hderived path hc).1,
      fun path hc => (hderived path hc).2, fun path hc => (hagain path hc).1,
      fun path hc => (hagain path hc).2, ?_, ?_⟩
    · intro c path hc e hsrc
      have hfind := (find?_elsewhere hf hc hsrc).2 e.key rfl
      rw [Table.mem_iff_find?, Table.mem_iff_find?, hfind]
    · intro c path hc r hsrc
      have hfind := (find?_elsewhere hf hc hsrc).1 r.key rfl
      rw [Table.mem_iff_find?, Table.mem_iff_find?, hfind]

/-- A batch is orderly once every file it falls back to has its file node, as after Phase A. -/
theorem orderly_of_indexed (h : ∀ ref ∈ refs,
    findNarrowestEnclosing (fetchAllFnSpans base corpus ref.callerPath) ref.callerLine = none →
      ∃ r ∈ fileRows base corpus ref.callerPath, r.kind = "file") :
    Orderly env corpus s base refs path := by
  have hcaller : ∀ ref ∈ refs,
      (attributeCaller env corpus (fetchAllFnSpans base corpus) base ref).1 = base := by
    intro ref href
    unfold attributeCaller
    split
    · rfl
    next hs => exact settled_iff.mpr (.inl (h ref href hs))
  obtain ⟨hlast, htime⟩ := attributedNodes_again (fetchAllFnSpans base corpus) hcaller
  change attributedNodes env corpus base refs = base at hlast
  have hmade : ¬ FileNodeMade env corpus base refs path := by
    intro hex
    obtain ⟨hset, ref, href, hp, hs⟩ := hex
    subst hp
    exact hset (settled_iff.mpr (.inl (h ref href hs)))
  have hleft : leftSites env corpus s base refs path = [] ∧
      leftEdges env corpus s base refs path = [] := by
    simp [leftSites, leftEdges, hmade]
  have hsites : derivedSites env corpus base (timely env corpus (fetchAllFnSpans base corpus) base
      refs) path = derivedSites env corpus base refs path := by
    rw [derivedSites, htime, List.filter_comm, filterMap_stored]
    · rfl
    · intro ref hc
      simp [siteOf, Table.find?_eq_none.mpr hc]
  have hedges : derivedEdges env corpus base (timely env corpus (fetchAllFnSpans base corpus) base
      refs) path = derivedEdges env corpus base refs path := by
    rw [derivedEdges, htime, List.filter_comm, filterMap_stored]
    · rfl
    · intro ref hc
      simp [edgeOf, Table.find?_eq_none.mpr hc]
  refine ⟨?_, ?_, ?_, ?_, ?_, ?_⟩
  · intro ref href _ _ hun
    obtain ⟨r, hr, hk⟩ := h ref href hun.1
    have hno := hun.2.1
    rw [hlast] at hno
    have := List.find?_eq_none.mp hno r hr
    simp [hk] at this
  · simp [hleft.1]
  · simp [hleft.2]
  · rw [hlast, hleft.1, hsites]
    exact fun d hd => ⟨d, hd, rfl⟩
  · rw [hlast, hleft.2, hedges]
    exact fun d hd => ⟨d, hd, rfl⟩
  · rw [hlast, hleft.1, hsites]
    exact fun d _ => rfl

instance (env : Env) (corpus : String) (nodes : NodeTable) (refs : List ScipRef) (path : String)
    (r : SiteRow) : Decidable (DerivedSite env corpus nodes refs path r) :=
  inferInstanceAs (Decidable ((∃ d ∈ derivedSites env corpus nodes refs path, _) ∧ _))

instance (s : SqliteStore) (corpus path : String) (r : SiteRow) :
    Decidable (s.OwnsSite corpus path r) := inferInstanceAs (Decidable (_ ∧ _))

instance (env : Env) (corpus : String) (base : NodeTable) (nodes : List Node)
    (refs : List ScipRef) : Decidable (FilesAddressed env corpus base nodes refs) :=
  have : Decidable (∀ path ∈ refs.map ScipRef.callerPath, ∀ r, r ∈ base →
      r.id = (fileNodeRow env base corpus path).id →
      r.vname = (fileNodeRow env base corpus path).vname) :=
    inferInstanceAs (Decidable (∀ path ∈ refs.map ScipRef.callerPath, ∀ r ∈ base.rows, _ → _))
  decidable_of_iff (FileIdsDistinct env corpus base refs ∧
    (∀ path ∈ refs.map ScipRef.callerPath, ∀ r, r ∈ base →
      r.id = (fileNodeRow env base corpus path).id →
      r.vname = (fileNodeRow env base corpus path).vname) ∧
    ∀ path ∈ refs.map ScipRef.callerPath, ∀ n ∈ nodes,
      n.id = (fileNodeRow env base corpus path).id →
      n.vname = (fileNodeRow env base corpus path).vname)
    ⟨fun h => ⟨h.1, h.2.1, h.2.2⟩, fun h => ⟨h.distinct, h.row, h.node⟩⟩

def topLevelNodes : List Node :=
  [parsed "b.ts" "typescript" "file" "file", parsed "a.ts" "typescript" "fn:go" "function"]

theorem converges_indexed :
    let s' := SqliteStore.empty.writeScipAttributedBatchKeeping lengthEnv "repo" topLevelNodes
      [⟨"b.ts", 5, 9, true, none⟩] []
    Converges lengthEnv SqliteStore.empty "repo" topLevelNodes [⟨"b.ts", 5, 9, true, none⟩] [] s'
      (s'.writeScipAttributedBatchKeeping lengthEnv "repo" topLevelNodes
        [⟨"b.ts", 5, 9, true, none⟩] []) := by
  refine (converges_iff ⟨by decide, by decide⟩ (by decide +kernel)).mpr ?_
  intro path _
  apply orderly_of_indexed
  decide +kernel

def deletedStore : SqliteStore :=
  ((SqliteStore.empty.writeScipAttributedBatchKeeping lengthEnv "repo"
    [parsed "a.ts" "typescript" "fn:go" "function"] [⟨"b.ts", 3, 9, true, none⟩]
    []).deleteNodesForPath "b.ts").1

/-- The file node made up again takes the old occurrence back, though no reference gives it. -/
theorem not_converges_deleted :
    deletedStore.Addressed [] ∧
      FilesAddressed lengthEnv "repo" (phaseBNodes deletedStore []).1 []
        [⟨"b.ts", 5, 9, true, none⟩] ∧
      let s' := deletedStore.writeScipAttributedBatchKeeping lengthEnv "repo" []
        [⟨"b.ts", 5, 9, true, none⟩] []
      ¬ Converges lengthEnv deletedStore "repo" [] [⟨"b.ts", 5, 9, true, none⟩] [] s'
        (s'.writeScipAttributedBatchKeeping lengthEnv "repo" [] [⟨"b.ts", 5, 9, true, none⟩] []) := by
  refine ⟨⟨by simp, by simp⟩, by decide +kernel, ?_⟩
  intro s' h
  have hsite := (h.sites "b.ts" (by decide +kernel) ⟨8, 9, .refCall, 3, none⟩).mp
    (by decide +kernel)
  revert hsite
  decide +kernel

end Travsr.Store
