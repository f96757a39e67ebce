import Travsr.Store.PhaseBOrphans

namespace Travsr.Store

open Travsr.Core Relational

variable {env : Env} {corpus : String} {s : SqliteStore} {a b c : NodeTable} {refs : List ScipRef}

def refKind (callee : NodeRow) : EdgeKind := if callee.kind = "field" then .refField else .refCall

def callerIn (env : Env) (corpus : String) (nodes : NodeTable) (ref : ScipRef) : NodeId :=
  (attributeCaller env corpus (fetchAllFnSpans nodes corpus) nodes ref).2

def siteOf (env : Env) (corpus : String) (nodes : NodeTable) (ref : ScipRef) : Option SiteRow :=
  if callerIn env corpus nodes ref = ref.calleeId then none
  else (nodes.find? ref.calleeId).map fun callee =>
    ⟨callerIn env corpus nodes ref, ref.calleeId, refKind callee, ref.callerLine, ref.callerCol⟩

def edgeOf (env : Env) (corpus : String) (nodes : NodeTable) (ref : ScipRef) : Option EdgeRow :=
  if callerIn env corpus nodes ref = ref.calleeId then none
  else ((nodes.find? ref.calleeId).filter fun callee => callee.kind = "field" ∨ ref.isCall).map
    fun callee => ⟨callerIn env corpus nodes ref, ref.calleeId, refKind callee, "scip", none⟩

/-- The table once the file nodes that a batch's references fall back to are made up. -/
def attributedNodes (env : Env) (corpus : String) (nodes : NodeTable) (refs : List ScipRef) :
    NodeTable :=
  refs.foldl (fun t ref => (attributeCaller env corpus (fetchAllFnSpans nodes corpus) t ref).1) nodes

def timely (env : Env) (corpus : String) (spans : String → List FnSpan) :
    NodeTable → List ScipRef → List ScipRef
  | _, [] => []
  | nodes, ref :: refs =>
    let after := (attributeCaller env corpus spans nodes ref).1
    if after.Has ref.calleeId then ref :: timely env corpus spans after refs
    else timely env corpus spans after refs

theorem scip_key (r : EdgeRow) : ({ r with provenance := "scip" } : EdgeRow).key = r.key := rfl

def putScipEdge (t : EdgeTable) (e : EdgeRow) : EdgeTable :=
  t.upsert e (fun r => { r with provenance := "scip" }) scip_key

/-- A later table of the attribution: rows stay, and every reference is attributed as before. -/
structure Grown (env : Env) (corpus : String) (a b : NodeTable) : Prop where
  row : ∀ x r, a.find? x = some r → b.find? x = some r
  index : ∀ v, a.HasIndex v → b.HasIndex v
  spans : fetchAllFnSpans b corpus = fetchAllFnSpans a corpus
  file : ∀ path, (fileNodeForAttribution env b corpus path).2 =
    (fileNodeForAttribution env a corpus path).2

theorem Grown.refl (a : NodeTable) : Grown env corpus a a :=
  ⟨fun _ _ h => h, fun _ h => h, rfl, fun _ => rfl⟩

theorem Grown.trans (h : Grown env corpus a b) (h' : Grown env corpus b c) :
    Grown env corpus a c :=
  ⟨fun x r hr => h'.row x r (h.row x r hr), fun v hv => h'.index v (h.index v hv),
    h'.spans.trans h.spans, fun path => (h'.file path).trans (h.file path)⟩

theorem Grown.has (h : Grown env corpus a b) {x : NodeId} (hx : a.Has x) : b.Has x := by
  rw [Table.has_iff_find?, Option.isSome_iff_exists] at hx ⊢
  obtain ⟨r, hr⟩ := hx
  exact ⟨r, h.row x r hr⟩

theorem Grown.callerIn (h : Grown env corpus a b) (ref : ScipRef) :
    callerIn env corpus b ref = callerIn env corpus a ref := by
  have hf := h.file ref.callerPath
  simp only [Store.callerIn, attributeCaller, h.spans]
  split
  · rfl
  · exact hf

theorem find?_insertIgnore_of_has {row r : NodeRow} {x : NodeId} (h : a.find? x = some r) :
    (a.insertIgnore row).find? x = some r := by
  obtain ⟨hr, hx⟩ := Table.mem_of_find? h
  subst hx
  have hm : r ∈ (a.insertIgnore row).toTable := IndexedTable.mem_insertIgnore.mpr (.inl hr)
  exact Table.find?_of_mem hm

theorem grown_fileNodeForAttribution (path : String) :
    Grown env corpus a (fileNodeForAttribution env a corpus path).1 := by
  cases hf : (fileRows a corpus path).find? (fun r => r.kind = "file") with
  | some r =>
    simp only [fileNodeForAttribution, hf]
    exact .refl a
  | none =>
    have hself : fileNodeForAttribution env a corpus path =
        (a.insertIgnore (fileNodeRow env a corpus path), (fileNodeRow env a corpus path).id) := by
      simp only [fileNodeForAttribution, hf]
    rw [hself]
    dsimp only
    have hrows : ∀ q, fileRows (a.insertIgnore (fileNodeRow env a corpus path)) corpus q =
        fileRows a corpus q ∨ (q = path ∧
          fileRows (a.insertIgnore (fileNodeRow env a corpus path)) corpus q =
            fileRows a corpus q ++ [fileNodeRow env a corpus path]) := by
      intro q
      rcases @fileRows_insertIgnore corpus a (fileNodeRow env a corpus path) q with h | ⟨_, _, _, hq, h⟩
      · exact .inl h
      · exact .inr ⟨hq.symm, h⟩
    refine ⟨fun x r h => find?_insertIgnore_of_has h, fun v h => hasIndex_insertIgnore h, ?_, ?_⟩
    · funext q
      unfold fetchAllFnSpans
      rcases hrows q with h | ⟨_, h⟩
      · rw [h]
      · rw [h, List.filter_append, List.filter_cons_of_neg (by simp [fileNodeRow]), List.filter_nil,
          List.append_nil]
    · intro q
      rcases hrows q with h | ⟨rfl, h⟩
      · have hrow := @fileNodeRow_congr env corpus _ _ q h
        simp only [fileNodeForAttribution, h, hrow]
        split <;> rfl
      · rw [hself]
        have hkind : (fileNodeRow env a corpus q).kind = "file" := rfl
        simp only [fileNodeForAttribution, h, List.find?_append, hf, hkind, Option.none_or,
          List.find?_cons, decide_true]

theorem grown_attributeCaller (spans : String → List FnSpan) (ref : ScipRef) :
    Grown env corpus a (attributeCaller env corpus spans a ref).1 := by
  unfold attributeCaller
  split
  · exact .refl a
  · exact grown_fileNodeForAttribution ref.callerPath

theorem grown_foldl_attributeCaller (spans : String → List FnSpan) (refs : List ScipRef) :
    Grown env corpus a (refs.foldl (fun t ref => (attributeCaller env corpus spans t ref).1) a) := by
  induction refs generalizing a with
  | nil => exact .refl a
  | cons ref refs ih => exact (grown_attributeCaller spans ref).trans ih

theorem grown_attributedNodes (refs : List ScipRef) :
    Grown env corpus a (attributedNodes env corpus a refs) := grown_foldl_attributeCaller _ refs

theorem Grown.siteOf (h : Grown env corpus a b) {ref : ScipRef} (hc : a.Has ref.calleeId) :
    siteOf env corpus b ref = siteOf env corpus a ref ∧
      edgeOf env corpus b ref = edgeOf env corpus a ref := by
  rw [Table.has_iff_find?, Option.isSome_iff_exists] at hc
  obtain ⟨r, hr⟩ := hc
  simp only [Store.siteOf, Store.edgeOf, h.callerIn, hr, h.row _ r hr, true_and]

theorem siteOf_eq_some {ref : ScipRef} {r : SiteRow} :
    siteOf env corpus a ref = some r ↔ callerIn env corpus a ref ≠ ref.calleeId ∧
      ∃ callee, a.find? ref.calleeId = some callee ∧
        r = ⟨callerIn env corpus a ref, ref.calleeId, refKind callee, ref.callerLine,
          ref.callerCol⟩ := by
  unfold siteOf
  split_ifs with h
  · simp [h]
  · rw [Option.map_eq_some_iff]
    simp only [ne_eq, h, not_false_eq_true, true_and, eq_comm]

theorem edgeOf_eq_some {ref : ScipRef} {e : EdgeRow} :
    edgeOf env corpus a ref = some e ↔ callerIn env corpus a ref ≠ ref.calleeId ∧
      ∃ callee, a.find? ref.calleeId = some callee ∧ (callee.kind = "field" ∨ ref.isCall) ∧
        e = ⟨callerIn env corpus a ref, ref.calleeId, refKind callee, "scip", none⟩ := by
  unfold edgeOf
  split_ifs with h
  · simp [h]
  · simp only [Option.map_eq_some_iff, Option.filter_eq_some_iff, decide_eq_true_eq, ne_eq, h,
      not_false_eq_true, true_and, and_assoc, @eq_comm _ e]

theorem mem_timely {spans : String → List FnSpan} {ref : ScipRef}
    (h : ref ∈ timely env corpus spans a refs) :
    ref ∈ refs ∧
      (refs.foldl (fun t ref => (attributeCaller env corpus spans t ref).1) a).Has ref.calleeId := by
  induction refs generalizing a with
  | nil => cases h
  | cons r refs ih =>
    rw [timely] at h
    split_ifs at h with hc
    · rcases List.mem_cons.mp h with heq | h
      · subst heq
        exact ⟨List.mem_cons_self, (grown_foldl_attributeCaller spans refs).has hc⟩
      · exact ⟨List.mem_cons_of_mem _ (ih h).1, (ih h).2⟩
    · exact ⟨List.mem_cons_of_mem _ (ih h).1, (ih h).2⟩

theorem attributeRef_eq (st : Attribution) (ref : ScipRef)
    (hs : fetchAllFnSpans st.nodes corpus = fetchAllFnSpans a corpus) :
    let after := (attributeCaller env corpus (fetchAllFnSpans a corpus) st.nodes ref).1
    attributeRef env corpus (fetchAllFnSpans a corpus) st ref =
      ⟨after, ((edgeOf env corpus after ref).toList).foldl putScipEdge st.edges,
        ((siteOf env corpus after ref).toList).foldl putSite st.sites⟩ := by
  intro after
  have hcaller : callerIn env corpus after ref =
      (attributeCaller env corpus (fetchAllFnSpans a corpus) st.nodes ref).2 := by
    rw [(grown_attributeCaller _ ref).callerIn, callerIn, hs]
  unfold attributeRef siteOf edgeOf
  rw [hcaller]
  dsimp only
  by_cases hself : (attributeCaller env corpus (fetchAllFnSpans a corpus) st.nodes ref).2 =
      ref.calleeId
  · simp only [if_pos hself]
    rfl
  · simp only [if_neg hself]
    cases after.find? ref.calleeId with
    | none => rfl
    | some callee =>
      dsimp only
      by_cases hw : callee.kind = "field" ∨ ref.isCall
      · rw [if_pos hw, Option.filter_some, decide_eq_true hw]
        rfl
      · rw [if_neg hw, Option.filter_some, decide_eq_false hw]
        rfl

/-- The attribution of a batch writes the rows of the references whose callee is stored in time,
as the table left at the end gives them. -/
theorem foldl_attributeRef_eq (spans : String → List FnSpan) (refs : List ScipRef)
    (st : Attribution) (hs : fetchAllFnSpans st.nodes corpus = spans) :
    let last := refs.foldl (fun t ref => (attributeCaller env corpus spans t ref).1) st.nodes
    refs.foldl (attributeRef env corpus spans) st =
      ⟨last,
        ((timely env corpus spans st.nodes refs).filterMap (edgeOf env corpus last)).foldl
          putScipEdge st.edges,
        ((timely env corpus spans st.nodes refs).filterMap (siteOf env corpus last)).foldl
          putSite st.sites⟩ := by
  intro last
  induction refs generalizing st with
  | nil => rfl
  | cons ref refs ih =>
    have hstep := @attributeRef_eq env corpus st.nodes st ref rfl
    rw [hs] at hstep
    have hgrow := @grown_attributeCaller env corpus st.nodes spans ref
    have hrest := ih (attributeRef env corpus spans st ref)
      (by rw [attributeRef_nodes, hgrow.spans, hs])
    rw [List.foldl_cons, hrest, attributeRef_nodes, hstep]
    dsimp only
    have hlast : Grown env corpus (attributeCaller env corpus spans st.nodes ref).1 last :=
      grown_foldl_attributeCaller spans refs
    change Attribution.mk last _ _ = _
    rw [timely]
    split_ifs with hc
    · obtain ⟨hsite, hedge⟩ := hlast.siteOf hc
      rw [← hsite, ← hedge]
      congr 1
      · rw [List.filterMap_cons]
        cases edgeOf env corpus last ref <;> rfl
      · rw [List.filterMap_cons]
        cases siteOf env corpus last ref <;> rfl
    · have hnone := Table.find?_eq_none.mpr hc
      simp [siteOf, edgeOf, hnone]
      exact ⟨rfl, rfl⟩

/-- A fallback that finds or makes its file node does so once. -/
def Settled (env : Env) (corpus : String) (nodes : NodeTable) (path : String) : Prop :=
  (fileNodeForAttribution env nodes corpus path).1 = nodes

theorem insertIgnore_eq_self {row : NodeRow} :
    a.insertIgnore row = a ↔ a.Has row.id ∨ a.HasIndex row.vname := by
  unfold IndexedTable.insertIgnore
  split_ifs with hk hi
  · exact iff_of_true rfl (.inl hk)
  · exact iff_of_true rfl (.inr hi)
  · refine iff_of_false ?_ (fun h => h.elim hk hi)
    intro h
    have hlen := congrArg (fun t => t.rows.length) h
    simp [IndexedTable.insert] at hlen

theorem settled_iff {path : String} :
    Settled env corpus a path ↔ (∃ r ∈ fileRows a corpus path, r.kind = "file") ∨
      a.Has (fileNodeRow env a corpus path).id ∨ a.HasIndex (fileNodeRow env a corpus path).vname := by
  unfold Settled fileNodeForAttribution
  cases hf : (fileRows a corpus path).find? (fun r => r.kind = "file") with
  | some r =>
    have hk := List.find?_some hf
    rw [decide_eq_true_eq] at hk
    exact iff_of_true rfl (.inl ⟨r, List.mem_of_find?_eq_some hf, hk⟩)
  | none =>
    have hno : ¬ ∃ r ∈ fileRows a corpus path, r.kind = "file" := by
      simpa using hf
    rw [or_iff_right hno]
    exact insertIgnore_eq_self

theorem settled_fileNodeForAttribution (path : String) :
    Settled env corpus (fileNodeForAttribution env a corpus path).1 path := by
  cases hf : (fileRows a corpus path).find? (fun r => r.kind = "file") with
  | some r =>
    have hself : (fileNodeForAttribution env a corpus path).1 = a := by
      simp only [fileNodeForAttribution, hf]
    rw [hself, Settled, hself]
  | none =>
    have hself : (fileNodeForAttribution env a corpus path).1 =
        a.insertIgnore (fileNodeRow env a corpus path) := by
      simp only [fileNodeForAttribution, hf]
    rw [hself, settled_iff]
    rcases @fileRows_insertIgnore corpus a (fileNodeRow env a corpus path) path with h | ⟨_, _, _, _, h⟩
    · right
      rw [@fileNodeRow_congr env corpus _ _ path h]
      by_cases hk : a.Has (fileNodeRow env a corpus path).id
      · exact .inl (has_insertIgnore.mpr (.inl hk))
      · by_cases hi : a.HasIndex (fileNodeRow env a corpus path).vname
        · exact .inr (hasIndex_insertIgnore hi)
        · exact .inl (has_insertIgnore.mpr (.inr ⟨rfl, hk, hi⟩))
    · left
      rw [h]
      exact ⟨_, List.mem_append_right _ List.mem_cons_self, rfl⟩

theorem Settled.fileNodeForAttribution {p : String} (h : Settled env corpus a p) (q : String) :
    Settled env corpus (fileNodeForAttribution env a corpus q).1 p := by
  have hgrow := @grown_fileNodeForAttribution env corpus a q
  cases hf : (fileRows a corpus q).find? (fun r => r.kind = "file") with
  | some r =>
    have hself : (Store.fileNodeForAttribution env a corpus q).1 = a := by
      simp only [Store.fileNodeForAttribution, hf]
    rwa [hself]
  | none =>
    have hself : (Store.fileNodeForAttribution env a corpus q).1 =
        a.insertIgnore (fileNodeRow env a corpus q) := by
      simp only [Store.fileNodeForAttribution, hf]
    rw [hself] at hgrow ⊢
    rcases @fileRows_insertIgnore corpus a (fileNodeRow env a corpus q) p with hr | ⟨_, _, _, _, hr⟩
    · rw [settled_iff, hr, @fileNodeRow_congr env corpus _ _ p hr]
      exact (settled_iff.mp h).imp id (Or.imp hgrow.has (hgrow.index _))
    · rw [settled_iff, hr]
      exact .inl ⟨_, List.mem_append_right _ List.mem_cons_self, rfl⟩

theorem attributeCaller_attributedNodes (spans : String → List FnSpan) {ref : ScipRef}
    (h : ref ∈ refs) :
    let last := refs.foldl (fun t ref => (attributeCaller env corpus spans t ref).1) a
    (attributeCaller env corpus spans last ref).1 = last := by
  intro last
  cases hs : findNarrowestEnclosing (spans ref.callerPath) ref.callerLine with
  | some x =>
    simp only [attributeCaller, hs]
  | none =>
    have hstep : ∀ (t : NodeTable) (r : ScipRef), Settled env corpus t ref.callerPath →
        Settled env corpus (attributeCaller env corpus spans t r).1 ref.callerPath := by
      intro t r ht
      unfold attributeCaller
      split
      · exact ht
      · exact ht.fileNodeForAttribution r.callerPath
    have hrun : ∀ (rs : List ScipRef) (t : NodeTable), Settled env corpus t ref.callerPath →
        Settled env corpus (rs.foldl (fun t r => (attributeCaller env corpus spans t r).1) t)
          ref.callerPath := by
      intro rs
      induction rs with
      | nil => exact fun _ ht => ht
      | cons r rs ih => exact fun t ht => ih _ (hstep t r ht)
    have hlast : Settled env corpus last ref.callerPath := by
      obtain ⟨before, after, rfl⟩ := List.append_of_mem h
      simp only [last, List.foldl_append, List.foldl_cons]
      apply hrun
      simp only [attributeCaller, hs]
      exact settled_fileNodeForAttribution ref.callerPath
    simp only [attributeCaller, hs]
    exact hlast

theorem has_callerIn_iff {ref : ScipRef} (href : ref ∈ refs) :
    (attributedNodes env corpus base refs).Has
        (callerIn env corpus (attributedNodes env corpus base refs) ref) ↔
      ¬ Unattributed env corpus (fetchAllFnSpans base corpus) (attributedNodes env corpus base refs)
        ref := by
  set last := attributedNodes env corpus base refs
  have hspans : fetchAllFnSpans last corpus = fetchAllFnSpans base corpus :=
    (grown_attributedNodes refs).spans
  have hself : (attributeCaller env corpus (fetchAllFnSpans base corpus) last ref).1 = last :=
    attributeCaller_attributedNodes (fetchAllFnSpans base corpus) href
  have hspec := @attributeCaller_spec env corpus last last ⟨fun _ h => h, fun _ => .inl rfl⟩ ref
  rw [hspans, hself] at hspec
  rw [callerIn, hspans]
  rcases hspec with ⟨hun, hhas⟩ | ⟨hun, heq⟩
  · exact iff_of_true hhas hun
  · rw [heq]
    exact iff_of_false hun.2.2.1 (not_not_intro hun)

/-- The batch speaks for the whole file: it carries a reference from it, and no language of it is
kept. -/
def Carried (corpus : String) (nodes : NodeTable) (refs : List ScipRef) (keep : List String)
    (path : String) : Prop :=
  path ∈ refs.map ScipRef.callerPath ∧ fileLanguageIsKept nodes corpus path keep = false

instance (corpus : String) (nodes : NodeTable) (refs : List ScipRef) (keep : List String)
    (path : String) : Decidable (Carried corpus nodes refs keep path) :=
  inferInstanceAs (Decidable (_ ∧ _))

def Retracted (corpus : String) (nodes : NodeTable) (refs : List ScipRef) (keep : List String)
    (x : NodeId) : Prop :=
  ∃ path ∈ (refs.map ScipRef.callerPath).dedup,
    fileLanguageIsKept nodes corpus path keep = false ∧
      x ∈ (fileRows nodes corpus path).map NodeRow.id

instance (corpus : String) (nodes : NodeTable) (refs : List ScipRef) (keep : List String)
    (x : NodeId) : Decidable (Retracted corpus nodes refs keep x) :=
  inferInstanceAs (Decidable (∃ path ∈ _, _))

theorem retracted_iff {keep : List String} {x : NodeId} :
    Retracted corpus a refs keep x ↔
      ∃ path, Carried corpus a refs keep path ∧ x ∈ (fileRows a corpus path).map NodeRow.id := by
  simp only [Retracted, Carried, List.mem_dedup, and_assoc]

/-- The label and the kinds of the edges a batch re-derives. -/
def Rederived (e : EdgeRow) : Prop :=
  e.provenance = "scip" ∧ e.kind ∈ [EdgeKind.refCall, .refField]

instance (e : EdgeRow) : Decidable (Rederived e) := inferInstanceAs (Decidable (_ ∧ _))

theorem foldl_retractOwned_eq {keep paths : List String} {st : Attribution} :
    (∀ k, (paths.foldl (retractOwned corpus keep) st).sites.find? k =
      (st.sites.find? k).filter fun _ => ¬ ∃ path ∈ paths,
        fileLanguageIsKept st.nodes corpus path keep = false ∧
          k.1 ∈ (fileRows st.nodes corpus path).map NodeRow.id) ∧
      ∀ k, (paths.foldl (retractOwned corpus keep) st).edges.find? k =
        (st.edges.find? k).filter fun e => ¬ (Rederived e ∧ ∃ path ∈ paths,
          fileLanguageIsKept st.nodes corpus path keep = false ∧
            k.1 ∈ (fileRows st.nodes corpus path).map NodeRow.id) := by
  induction paths generalizing st with
  | nil =>
    refine ⟨fun k => ?_, fun k => ?_⟩
    · rw [List.foldl_nil]
      cases st.sites.find? k <;> simp [Option.filter]
    · rw [List.foldl_nil]
      cases st.edges.find? k <;> simp [Option.filter]
  | cons path paths ih =>
    obtain ⟨hs, he⟩ := @ih (retractOwned corpus keep st path)
    rw [retractOwned_nodes] at hs he
    cases hk : fileLanguageIsKept st.nodes corpus path keep with
    | true =>
      have hsame : retractOwned corpus keep st path = st := by rw [retractOwned, if_pos hk]
      rw [hsame] at hs he
      refine ⟨fun k => ?_, fun k => ?_⟩
      · rw [List.foldl_cons, hsame, hs]
        simp [hk]
      · rw [List.foldl_cons, hsame, he]
        simp [hk]
    | false =>
      have hstep : retractOwned corpus keep st path = { st with
          sites := st.sites.deleteWhere fun r => r.src ∈ (fileRows st.nodes corpus path).map NodeRow.id
          edges := st.edges.deleteWhere fun e => e.provenance = "scip" ∧
            e.kind ∈ [EdgeKind.refCall, .refField] ∧
              e.src ∈ (fileRows st.nodes corpus path).map NodeRow.id } := by
        rw [retractOwned, if_neg (by rw [hk]; exact Bool.false_ne_true)]
      refine ⟨fun k => ?_, fun k => ?_⟩
      · rw [List.foldl_cons, hs, hstep, Table.find?_deleteWhere]
        cases hf : st.sites.find? k with
        | none => rfl
        | some r =>
          have hsrc : r.src = k.1 := congrArg Prod.fst (Table.mem_of_find? hf).2
          rw [Option.filter_filter]
          simp only [Option.filter_some, hsrc, List.exists_mem_cons_iff, hk]
          simp
      · rw [List.foldl_cons, he, hstep, Table.find?_deleteWhere]
        cases hf : st.edges.find? k with
        | none => rfl
        | some e =>
          have hsrc : e.src = k.1 := congrArg Prod.fst (Table.mem_of_find? hf).2
          rw [Option.filter_filter]
          simp only [Option.filter_some, hsrc, List.exists_mem_cons_iff, hk, Rederived]
          congr 1
          by_cases hr : e.provenance = "scip" ∧ e.kind ∈ [EdgeKind.refCall, .refField]
          · simp [hr.1, hr.2]
          · have hr' : ¬ (e.provenance = "scip" ∧ e.kind ∈ [EdgeKind.refCall, .refField] ∧
                k.1 ∈ (fileRows st.nodes corpus path).map NodeRow.id) := fun h => hr ⟨h.1, h.2.1⟩
            simp only [hr, hr', false_and, not_false_eq_true, decide_true, Bool.and_self]

/-- What the rows of one occurrence make of the row they meet: a column that is known stays. -/
def recorded (old : Option SiteRow) (rows : List SiteRow) : Option SiteRow :=
  rows.foldl (fun o b => some (o.elim b fun r => { r with col := r.col <|> b.col })) old

theorem recorded_eq_none {old : Option SiteRow} {rows : List SiteRow} :
    recorded old rows = none ↔ old = none ∧ rows = [] := by
  induction rows generalizing old with
  | nil => simp [recorded]
  | cons b rows ih =>
    change recorded (some _) rows = none ↔ _
    rw [ih]
    simp

def labelled (old : Option EdgeRow) (rows : List EdgeRow) : Option EdgeRow :=
  rows.foldl (fun o b => some (o.elim b fun r => { r with provenance := "scip" })) old

theorem writeScipAttributedBatchKeeping_tables (env : Env) (s : SqliteStore) (corpus : String)
    (nodes : List Node) (refs : List ScipRef) (keep : List String) :
    let base := (phaseBNodes s nodes).1
    let last := attributedNodes env corpus base refs
    let inTime := timely env corpus (fetchAllFnSpans base corpus) base refs
    let s' := s.writeScipAttributedBatchKeeping env corpus nodes refs keep
    s'.nodes = last ∧
      (∀ k, s'.sites.find? k = recorded
        ((s.sites.find? k).filter fun _ => ¬ Retracted corpus base refs keep k.1)
        ((inTime.filterMap (siteOf env corpus last)).filter fun r => r.key = k)) ∧
      ∀ k, s'.edges.find? k = labelled
        ((s.edges.find? k).filter fun e =>
          ¬ (Rederived e ∧ Retracted corpus base refs keep k.1))
        ((inTime.filterMap (edgeOf env corpus last)).filter fun e => e.key = k) := by
  intro base last inTime s'
  have hst : s'.nodes = (s.attributeRefs env corpus base refs keep).nodes ∧
      s'.edges = (s.attributeRefs env corpus base refs keep).edges ∧
      s'.sites = (s.attributeRefs env corpus base refs keep).sites := by
    simp only [s', SqliteStore.writeScipAttributedBatchKeeping]
    split_ifs with he
    · simp only [Bool.and_eq_true, List.isEmpty_iff] at he
      simp [base, he.1, he.2, SqliteStore.attributeRefs, phaseBNodes]
    · exact ⟨rfl, rfl, rfl⟩
  obtain ⟨hsites, hedges⟩ := @foldl_retractOwned_eq corpus keep
    (refs.map ScipRef.callerPath).dedup ⟨base, s.edges, s.sites⟩
  have hrun := @foldl_attributeRef_eq env corpus (fetchAllFnSpans base corpus) refs
    ((refs.map ScipRef.callerPath).dedup.foldl (retractOwned corpus keep) ⟨base, s.edges, s.sites⟩)
    (by rw [foldl_retractOwned_nodes])
  rw [foldl_retractOwned_nodes] at hrun
  change s.attributeRefs env corpus base refs keep = _ at hrun
  obtain ⟨hn, he, hs⟩ := hst
  rw [hrun] at hn he hs
  refine ⟨hn, fun k => ?_, fun k => ?_⟩
  · rw [hs]
    exact (@Table.find?_foldl_upsert _ _ SiteRow.key _ _ id
      (fun b r => { r with col := r.col <|> b.col }) (fun _ _ => rfl) _ _ k).trans
        (by rw [hsites]; rfl)
  · rw [he]
    exact (@Table.find?_foldl_upsert _ _ EdgeRow.key _ _ id
      (fun _ r => { r with provenance := "scip" }) (fun _ _ => rfl) _ _ k).trans
        (by rw [hedges]; rfl)

end Travsr.Store
