import Travsr.Daemon.LiveResolve

namespace Travsr.Daemon

open Travsr.Core Travsr.Store Relational

/-- The row claims the edge of the emission. -/
def Emission.ClaimedBy (m : Emission) (r : RefResolution) : Prop :=
  r.src = m.edge.src ∧ r.refLine = m.line ∧ r.name = m.name ∧ r.state = .resolved ∧
    r.resolvedDst = some m.edge.dst

instance (m : Emission) : DecidablePred m.ClaimedBy :=
  fun _ => inferInstanceAs (Decidable (_ ∧ _))

namespace Examined

def key (r : Examined) : Option (NodeId × Nat × Nat × String) :=
  r.src.map fun src => (src, r.line, 0, r.name)

def row (r : Examined) : Option RefResolution :=
  r.src.map fun src =>
    ⟨src, r.line, 0, r.name, if r.edge.isSome then .resolved else .pending, r.edge.map Edge.dst⟩

def emission (r : Examined) : Option Emission := r.edge.map fun e => ⟨e, r.line, r.name⟩

theorem row_key (r : Examined) : r.row.map RefResolution.key = r.key := by
  cases hs : r.src <;> simp [row, key, hs, RefResolution.key]

def Plain (r : Examined) : Prop := ∀ e ∈ r.edge, e.confidence = none

end Examined

def lastUnder (refs : List Examined) (k : NodeId × Nat × Nat × String) : Option Examined :=
  (refs.filter fun r => r.key = some k).getLast?

/-- Each reference that resolves is recorded under the source of its edge, and the last reference
recorded there resolves to the same node; or a standing row that no reference is recorded over
claims the edge already. -/
def Recorded (standing : RefTable) (refs : List Examined) : Prop :=
  ∀ r ∈ refs, ∀ e ∈ r.edge,
    (∃ q ∈ lastUnder refs (e.src, r.line, 0, r.name), q.edge.map Edge.dst = some e.dst) ∨
      ∃ o, o ∈ standing ∧ (⟨e, r.line, r.name⟩ : Emission).ClaimedBy o ∧
        ∀ q ∈ refs, q.key ≠ some o.key

theorem putEdgeLive_plain {s : SqliteStore} {e : Edge} (h : e.confidence = none) :
    ∃ s', s.putEdgeLive e = .ok s' ∧ s'.nodes = s.nodes := by
  have hok : confidenceOk e.confidence = true := by rw [h]; rfl
  rw [SqliteStore.putEdgeLive, if_pos hok]
  exact ⟨_, rfl, rfl⟩

/-- One reference: its edge is written, counted and recorded, or it is recorded as pending. -/
theorem examine_spec (p : LivePass) {r : Examined} (h : r.Plain) :
    (p.examine r).store.nodes = p.store.nodes ∧
      (p.examine r).emitted = p.emitted ++ r.emission.toList ∧
      (p.examine r).states = p.states ++ r.row.toList := by
  unfold LivePass.examine
  cases he : r.edge with
  | none =>
    refine ⟨rfl, ?_, ?_⟩
    · rw [Examined.emission, he]
      exact (List.append_nil _).symm
    · cases hs : r.src <;> simp [Examined.row, LivePass.note, he, hs]
  | some e =>
    obtain ⟨s', hs', hn⟩ := putEdgeLive_plain (s := p.store) (h e he)
    have hput : (some e).bind (fun e => (p.store.putEdgeLive e).toOption.map fun s => (e, s)) =
        some (e, s') := by
      rw [Option.bind_some, hs']
      rfl
    rw [hput]
    refine ⟨hn, ?_, ?_⟩
    · rw [Examined.emission, he]
      rfl
    · cases hs : r.src <;> simp [Examined.row, LivePass.note, LivePass.claim, he, hs]

theorem foldl_examine_spec {refs : List Examined} (h : ∀ r ∈ refs, r.Plain) (p : LivePass) :
    (refs.foldl LivePass.examine p).store.nodes = p.store.nodes ∧
      (refs.foldl LivePass.examine p).emitted = p.emitted ++ refs.filterMap Examined.emission ∧
      (refs.foldl LivePass.examine p).states = p.states ++ refs.filterMap Examined.row := by
  induction refs generalizing p with
  | nil => simp
  | cons r refs ih =>
    rw [List.forall_mem_cons] at h
    obtain ⟨hn, he, hr⟩ := examine_spec p h.1
    obtain ⟨ihn, ihe, ihr⟩ := ih h.2 (p.examine r)
    refine ⟨ihn.trans hn, ?_, ?_⟩
    · rw [List.foldl_cons, ihe, he, List.append_assoc]
      cases hm : r.emission <;> simp [hm]
    · rw [List.foldl_cons, ihr, hr, List.append_assoc]
      cases hm : r.row <;> simp [hm]

theorem foldl_examine_map {β : Type} (f : NodeTable → β → Examined) (hf : ∀ t b, (f t b).Plain)
    (bs : List β) (p : LivePass) :
    bs.foldl (fun p b => p.examine (f p.store.nodes b)) p =
      (bs.map (f p.store.nodes)).foldl LivePass.examine p := by
  induction bs generalizing p with
  | nil => rfl
  | cons b bs ih =>
    rw [List.foldl_cons, ih, List.map_cons, List.foldl_cons, (examine_spec p (hf _ b)).1]

theorem edgeIfSound_eq_some {nodes : NodeTable} {src dst : NodeId} {kind : EdgeKind} {e : Edge} :
    edgeIfSound nodes src dst kind = some e ↔
      e = ⟨src, dst, kind, none, none⟩ ∧ src ≠ dst ∧
        ∃ a ∈ nodes.find? src, ∃ b ∈ nodes.find? dst, a.vname.corpus = b.vname.corpus := by
  unfold edgeIfSound
  split_ifs with hs
  · simp [hs]
  · simp only [Option.bind_eq_some_iff, Option.mem_def]
    constructor
    · rintro ⟨a, ha, b, hb, h⟩
      split_ifs at h with hc
      exact ⟨(Option.some.inj h).symm, hs, a, ha, b, hb, hc⟩
    · rintro ⟨he, -, a, ha, b, hb, hc⟩
      refine ⟨a, ha, b, hb, ?_⟩
      rw [if_pos hc, he]

theorem ofResolution_plain {corpus path : String} (nodes : NodeTable) (r : LiveResolution) :
    (ofResolution nodes corpus path r).Plain := by
  intro e he
  have hone : resolveOne nodes corpus path r = some e := he
  simp only [resolveOne, Option.bind_eq_some_iff] at hone
  obtain ⟨kind, -, src, -, dst, -, h⟩ := hone
  split_ifs at h
  rw [(edgeIfSound_eq_some.mp h).1]

theorem lexicalOne_sound {nodes : NodeTable} {call : UnresolvedCall} {bound : Finset String}
    {e : Edge} (h : lexicalOne nodes call bound = some e) :
    ¬ (bareIdentifier call ∧ Ident.leafOf call.calleeSig ∈ bound) ∧
      ∃ src ∈ nodes.find? call.src,
        ∃ dst ∈ (candidateSignatures call).findSome? fun sig =>
            uniqueDefinition nodes sig (lexicalEdgeKind call) (languageScope src),
          ¬ (bareIdentifier call ∧ ¬ hintCrateReaches call.hintCrate dst) ∧
            edgeIfSound nodes call.src dst.id (lexicalEdgeKind call) = some e := by
  unfold lexicalOne at h
  split_ifs at h with hb
  obtain ⟨src, hsrc, h⟩ := Option.bind_eq_some_iff.mp h
  obtain ⟨dst, hdst, h⟩ := Option.bind_eq_some_iff.mp h
  split_ifs at h with hq
  exact ⟨hb, src, hsrc, dst, hdst, hq, h⟩

theorem inheritanceEdge_sound {nodes : NodeTable} {src : NodeId} {baseName : String}
    {bound : Finset String} {e : Edge} (h : inheritanceEdge nodes src baseName bound = some e) :
    baseName ∉ bound ∧ ∃ a ∈ nodes.find? src,
      ∃ dst ∈ uniqueBaseDefinition nodes baseName (languageScope a),
        edgeIfSound nodes src dst .isImplementation = some e := by
  unfold inheritanceEdge at h
  split_ifs at h with hb
  obtain ⟨a, ha, h⟩ := Option.bind_eq_some_iff.mp h
  obtain ⟨dst, hdst, h⟩ := Option.bind_eq_some_iff.mp h
  exact ⟨hb, a, ha, dst, hdst, h⟩

theorem ofCall_plain {bound : Finset String} (nodes : NodeTable) (call : UnresolvedCall) :
    (ofCall nodes bound call).Plain := by
  intro e he
  obtain ⟨_, _, _, _, _, _, h⟩ := lexicalOne_sound he
  rw [(edgeIfSound_eq_some.mp h).1]

theorem ofInheritance_plain {corpus path : String} {bound : Finset String} (nodes : NodeTable)
    (r : InheritanceRef) : (ofInheritance nodes corpus path bound r).Plain := by
  intro e he
  obtain ⟨src, _, hone⟩ := Option.bind_eq_some_iff.mp he
  obtain ⟨_, _, _, _, _, h⟩ := inheritanceEdge_sound hone
  rw [(edgeIfSound_eq_some.mp h).1]

section

variable (s : LiveStore) (corpus path : String)

def editorRefs (resolutions : List LiveResolution) : List Examined :=
  resolutions.map (ofResolution s.nodes corpus path)

def lexicalRefs (unresolved : List UnresolvedCall) (inheritance : List InheritanceRef)
    (bound : Finset String) : List Examined :=
  unresolved.map (ofCall s.nodes bound) ++
    inheritance.map (ofInheritance s.nodes corpus path bound)

theorem editorRefs_plain (resolutions : List LiveResolution) :
    ∀ r ∈ editorRefs s corpus path resolutions, r.Plain := by
  intro r hr
  obtain ⟨x, -, rfl⟩ := List.mem_map.mp hr
  exact ofResolution_plain _ x

theorem lexicalRefs_plain (unresolved : List UnresolvedCall) (inheritance : List InheritanceRef)
    (bound : Finset String) :
    ∀ r ∈ lexicalRefs s corpus path unresolved inheritance bound, r.Plain := by
  intro r hr
  rcases List.mem_append.mp hr with hr | hr
  · obtain ⟨x, -, rfl⟩ := List.mem_map.mp hr
    exact ofCall_plain _ x
  · obtain ⟨x, -, rfl⟩ := List.mem_map.mp hr
    exact ofInheritance_plain _ x

theorem editorPass_eq (resolutions : List LiveResolution) :
    editorPass s corpus path resolutions =
      (editorRefs s corpus path resolutions).foldl LivePass.examine (.start s.toSqliteStore) :=
  foldl_examine_map _ (fun t r => ofResolution_plain t r) resolutions _

theorem lexicalPass_eq (unresolved : List UnresolvedCall) (inheritance : List InheritanceRef)
    (bound : Finset String) :
    lexicalPass s corpus path unresolved inheritance bound =
      (lexicalRefs s corpus path unresolved inheritance bound).foldl LivePass.examine
        (.start s.toSqliteStore) := by
  have hcalls := foldl_examine_map (fun t call => ofCall t bound call)
    (fun t call => ofCall_plain t call) unresolved (.start s.toSqliteStore)
  have hplain : ∀ r ∈ unresolved.map (ofCall s.nodes bound), r.Plain := fun r hr =>
    lexicalRefs_plain s corpus path unresolved inheritance bound r (List.mem_append_left _ hr)
  have hnodes : ((unresolved.map (ofCall s.nodes bound)).foldl LivePass.examine
      (.start s.toSqliteStore)).store.nodes = s.nodes := (foldl_examine_spec hplain _).1
  have hclauses := foldl_examine_map (fun t r => ofInheritance t corpus path bound r)
    (fun t r => ofInheritance_plain t r) inheritance
    ((unresolved.map (ofCall s.nodes bound)).foldl LivePass.examine (.start s.toSqliteStore))
  rw [hnodes] at hclauses
  rw [lexicalPass, hcalls, lexicalRefs, List.foldl_append]
  exact hclauses

end

theorem find?_states (standing : RefTable) (refs : List Examined)
    (k : NodeId × Nat × Nat × String) :
    ((refs.filterMap Examined.row).foldl putRef standing).find? k =
      ((lastUnder refs k).bind Examined.row).or (standing.find? k) := by
  have hfilter : (refs.filterMap Examined.row).filter (fun r => r.key = k) =
      (refs.filter fun r => r.key = some k).filterMap Examined.row := by
    rw [List.filter_filterMap, List.filterMap_filter]
    apply List.filterMap_congr
    intro r _
    have hkey := r.row_key
    cases hrow : r.row with
    | none =>
      rw [hrow] at hkey
      simp [← hkey]
    | some x =>
      rw [hrow] at hkey
      simp [← hkey, Option.filter_some]
  have hlast : ∀ l : List Examined, (∀ r ∈ l, r.row.isSome) →
      (l.filterMap Examined.row).getLast? = l.getLast?.bind Examined.row := by
    intro l
    induction l using List.reverseRecOn with
    | nil => exact fun _ => rfl
    | append_singleton l r _ =>
      intro hl
      obtain ⟨x, hx⟩ := Option.isSome_iff_exists.mp (hl r (by simp))
      rw [List.filterMap_append, List.getLast?_append]
      simp [hx]
  rw [find?_foldl_putRef, hfilter, hlast, lastUnder]
  intro r hr
  have hk : r.key = some k := by simpa using (List.mem_filter.mp hr).2
  rw [← Option.isSome_map (f := RefResolution.key), r.row_key, hk]
  rfl

theorem mem_lastUnder {refs : List Examined} {k : NodeId × Nat × Nat × String} {q : Examined}
    (h : q ∈ lastUnder refs k) : q ∈ refs ∧ q.key = some k := by
  have hq := List.mem_of_getLast? h
  rw [List.mem_filter, decide_eq_true_eq] at hq
  exact hq

theorem claimed_iff_recorded (standing : RefTable) (refs : List Examined) :
    (∀ m ∈ refs.filterMap Examined.emission,
        ∃ r, r ∈ (refs.filterMap Examined.row).foldl putRef standing ∧ m.ClaimedBy r) ↔
      Recorded standing refs := by
  have hone : ∀ m : Emission,
      (∃ r, r ∈ (refs.filterMap Examined.row).foldl putRef standing ∧ m.ClaimedBy r) ↔
        (∃ q ∈ lastUnder refs (m.edge.src, m.line, 0, m.name),
            q.edge.map Edge.dst = some m.edge.dst) ∨
          ∃ o, o ∈ standing ∧ m.ClaimedBy o ∧ ∀ q ∈ refs, q.key ≠ some o.key := by
    intro m
    constructor
    · intro ⟨r, hr, hm⟩
      rw [Table.mem_iff_find?, find?_states] at hr
      cases hl : lastUnder refs r.key with
      | none =>
        rw [hl] at hr
        refine .inr ⟨r, (Table.mem_of_find? hr).1, hm, ?_⟩
        rw [lastUnder, List.getLast?_eq_none_iff, List.filter_eq_nil_iff] at hl
        intro q hq
        simpa using hl q hq
      | some q =>
        obtain ⟨-, hk⟩ := mem_lastUnder hl
        have hrow := q.row_key
        rw [hk] at hrow
        obtain ⟨x, hx, -⟩ := Option.map_eq_some_iff.mp hrow
        rw [hl, Option.bind_some, hx, Option.some_or] at hr
        obtain rfl := Option.some.inj hr
        obtain ⟨src, -, rfl⟩ := Option.map_eq_some_iff.mp hx
        obtain ⟨hs, hline, hname, -, hdst⟩ := hm
        refine .inl ⟨q, ?_, hdst⟩
        rw [← hs, ← hline, ← hname]
        exact hl
    · rintro (⟨q, hq, hdst⟩ | ⟨o, ho, hm, hfree⟩)
      · obtain ⟨-, hk⟩ := mem_lastUnder hq
        obtain ⟨src, hsrc, heq⟩ := Option.map_eq_some_iff.mp hk
        simp only [Prod.mk.injEq, true_and] at heq
        obtain ⟨hs, hline, hname⟩ := heq
        have hsome : q.edge.isSome := by
          rw [← Option.isSome_map (f := Edge.dst), hdst]
          rfl
        let x : RefResolution := ⟨src, q.line, 0, q.name, .resolved, q.edge.map Edge.dst⟩
        have hx : q.row = some x := by
          rw [Examined.row, hsrc, if_pos hsome]
          rfl
        refine ⟨x, ?_, hs, hline, hname, rfl, hdst⟩
        rw [Table.mem_iff_find?, find?_states]
        have hkey : x.key = (m.edge.src, m.line, 0, m.name) := by
          rw [← hs, ← hline, ← hname]
          rfl
        rw [hkey, show lastUnder refs (m.edge.src, m.line, 0, m.name) = some q from hq,
          Option.bind_some, hx, Option.some_or]
      · refine ⟨o, ?_, hm⟩
        rw [Table.mem_iff_find?, find?_states]
        have hnone : lastUnder refs o.key = none := by
          rw [lastUnder, List.getLast?_eq_none_iff, List.filter_eq_nil_iff]
          intro q hq
          simpa using hfree q hq
        rw [hnone]
        exact Table.find?_of_mem ho
  constructor
  · intro h r hr e he
    refine (hone ⟨e, r.line, r.name⟩).mp (h _ (List.mem_filterMap.mpr ⟨r, hr, ?_⟩))
    rw [Examined.emission, show r.edge = some e from he]
    rfl
  · intro h m hm
    obtain ⟨r, hr, hrm⟩ := List.mem_filterMap.mp hm
    obtain ⟨e, he, rfl⟩ := Option.map_eq_some_iff.mp hrm
    exact (hone _).mpr (h r hr e he)

section

variable (s : LiveStore) (corpus path : String)

def standingRows : RefTable := s.refs.deleteWhere fun r => r.src ∈ s.idsAt corpus path

theorem replaceRefResolutionStates_refs {s s' : LiveStore} (hn : s'.nodes = s.nodes)
    (hr : s'.refs = s.refs) (rows : List RefResolution) :
    (s'.replaceRefResolutionStates corpus path rows).refs =
      rows.foldl putRef (standingRows s corpus path) := by
  have hids : s'.idsAt corpus path = s.idsAt corpus path := by
    unfold SqliteStore.idsAt SqliteStore.idsWhere
    rw [hn]
  unfold LiveStore.replaceRefResolutionStates standingRows
  rw [hids, hr]

/-- Which edges of a live pass the precision meter has a claim of: the editor's lane writes its rows
over the table, and the lexical lane over what is left of it without the file's. -/
theorem emitted_claimed_iff (s : LiveStore) (corpus path : String) :
    (∀ resolutions : List LiveResolution,
        let after := applyLiveResolutions s corpus path resolutions
        let emitted := (editorPass s corpus path resolutions).emitted
        after.2.emitted = emitted.length ∧
          ((∀ m ∈ emitted, ∃ r, r ∈ after.1.refs ∧ m.ClaimedBy r) ↔
            Recorded s.refs (editorRefs s corpus path resolutions))) ∧
      ∀ (unresolved : List UnresolvedCall) (inheritance : List InheritanceRef)
        (bound : Finset String),
        let after := resolveUnambiguousLexical s corpus path unresolved inheritance bound
        let emitted := (lexicalPass s corpus path unresolved inheritance bound).emitted
        after.2.emitted = emitted.length ∧
          ((∀ m ∈ emitted, ∃ r, r ∈ after.1.refs ∧ m.ClaimedBy r) ↔
            Recorded (standingRows s corpus path)
              (lexicalRefs s corpus path unresolved inheritance bound)) := by
  constructor
  · intro resolutions after emitted
    refine ⟨rfl, ?_⟩
    have hrun := foldl_examine_spec (editorRefs_plain s corpus path resolutions)
      (.start s.toSqliteStore)
    rw [← editorPass_eq] at hrun
    obtain ⟨-, he, hs⟩ := hrun
    have hemitted : emitted = (editorRefs s corpus path resolutions).filterMap Examined.emission :=
      he
    have hrefs : after.1.refs =
        ((editorRefs s corpus path resolutions).filterMap Examined.row).foldl putRef s.refs := by
      show (editorPass s corpus path resolutions).states.foldl putRef s.refs = _
      rw [hs]
      rfl
    rw [hemitted, hrefs]
    exact claimed_iff_recorded _ _
  · intro unresolved inheritance bound after emitted
    refine ⟨rfl, ?_⟩
    have hrun := foldl_examine_spec (lexicalRefs_plain s corpus path unresolved inheritance bound)
      (.start s.toSqliteStore)
    rw [← lexicalPass_eq] at hrun
    obtain ⟨hn, he, hs⟩ := hrun
    have hemitted : emitted =
        (lexicalRefs s corpus path unresolved inheritance bound).filterMap Examined.emission := he
    have hrefs : after.1.refs =
        ((lexicalRefs s corpus path unresolved inheritance bound).filterMap Examined.row).foldl
          putRef (standingRows s corpus path) := by
      have hreplace := @replaceRefResolutionStates_refs corpus path s
        ((lexicalPass s corpus path unresolved inheritance bound).finish s) hn rfl
        (lexicalPass s corpus path unresolved inheritance bound).states
      have hstates : (lexicalPass s corpus path unresolved inheritance bound).states =
          (lexicalRefs s corpus path unresolved inheritance bound).filterMap Examined.row := hs
      rw [← hstates]
      exact hreplace
    rw [hemitted, hrefs]
    exact claimed_iff_recorded _ _

end

/-- A script beside a module with one function, and two classes of which one has a method. -/
def scriptStore : LiveStore where
  __ := SqliteStore.empty
  nodes := (phaseBNodes SqliteStore.empty [parsed "a.py" "python" "file" "file",
    { parsed "b.py" "python" "fn:run" "function" with line := some 1, endLine := some 2 },
    { parsed "c.py" "python" "method:Shop.save" "method" with line := some 2, endLine := some 3 }]).1
  refs := Table.empty
  metadata := Table.empty

/-- A call at the top level of a script hangs from the file node and is recorded nowhere; of two
calls of one name on a line the row of the second takes the place of the first. -/
theorem emitted_not_claimed :
    (¬ ∀ (s : LiveStore) (corpus path : String) (resolutions : List LiveResolution),
        ∀ m ∈ (editorPass s corpus path resolutions).emitted,
          ∃ r, r ∈ (applyLiveResolutions s corpus path resolutions).1.refs ∧ m.ClaimedBy r) ∧
      ¬ ∀ (s : LiveStore) (corpus path : String) (unresolved : List UnresolvedCall)
        (inheritance : List InheritanceRef) (bound : Finset String),
        ∀ m ∈ (lexicalPass s corpus path unresolved inheritance bound).emitted,
          ∃ r, r ∈ (resolveUnambiguousLexical s corpus path unresolved inheritance bound).1.refs ∧
            m.ClaimedBy r := by
  constructor
  · intro h
    have hm := h scriptStore "repo" "a.py" [⟨3, "run", "b.py", 1, "ref/call"⟩]
      ⟨⟨8, 10, .refCall, none, none⟩, 3, "run"⟩ (by decide +kernel)
    obtain ⟨r, hr, -⟩ := hm
    have hempty : (applyLiveResolutions scriptStore "repo" "a.py"
        [⟨3, "run", "b.py", 1, "ref/call"⟩]).1.refs.rows = [] := by decide +kernel
    rw [← Table.mem_rows, hempty] at hr
    exact List.not_mem_nil hr
  · intro h
    have hm := h scriptStore "repo" "b.py"
      [⟨10, "fn:save", none, none, 2, none, true, some "Shop"⟩,
        ⟨10, "fn:save", none, none, 2, none, true, none⟩] [] ∅
      ⟨⟨10, 20, .refCall, none, none⟩, 2, "save"⟩ (by decide +kernel)
    have hrows : ¬ ∃ r ∈ (resolveUnambiguousLexical scriptStore "repo" "b.py"
        [⟨10, "fn:save", none, none, 2, none, true, some "Shop"⟩,
          ⟨10, "fn:save", none, none, 2, none, true, none⟩] [] ∅).1.refs.rows,
        (⟨⟨10, 20, .refCall, none, none⟩, 2, "save"⟩ : Emission).ClaimedBy r := by decide +kernel
    exact hrows hm

end Travsr.Daemon
