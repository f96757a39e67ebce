import Travsr.Daemon.NativeCallGates

namespace Travsr.Daemon

open Travsr.Core Travsr.Store Relational

variable {lang path : String} {s s' : SqliteStore} {caller : NodeRow} {u : UnresolvedCall}
  {rows : List NodeRow} {n d : NodeRow}

/-- A node with a language that is not the given one. -/
def Foreign (lang : String) (n : NodeRow) : Prop := n.vname.language ≠ "" ∧ n.vname.language ≠ lang

instance (lang : String) : DecidablePred (Foreign lang) := fun n =>
  inferInstanceAs (Decidable (n.vname.language ≠ "" ∧ n.vname.language ≠ lang))

/-- The edge is incident to a foreign node of the store. -/
def Touches (lang : String) (s : SqliteStore) (e : EdgeRow) : Prop :=
  ∃ n ∈ s.nodes.rows, Foreign lang n ∧ (n.id = e.src ∨ n.id = e.dst)

instance (lang : String) (s : SqliteStore) : DecidablePred (Touches lang s) := fun e =>
  inferInstanceAs (Decidable (∃ n ∈ s.nodes.rows, Foreign lang n ∧ (n.id = e.src ∨ n.id = e.dst)))

def keptRows (lang : String) (s : SqliteStore) : List NodeRow :=
  s.nodes.rows.filter fun n => ¬ Foreign lang n

/-- Foreign nodes are added or removed, with edges incident to them. -/
structure ForeignChange (lang : String) (s s' : SqliteStore) : Prop where
  nodes : keptRows lang s = keptRows lang s'
  removed : ∀ e, e ∈ s.edges → ¬ e ∈ s'.edges → Touches lang s e
  added : ∀ e, e ∈ s'.edges → ¬ e ∈ s.edges → Touches lang s' e

def nativePart (lang : String) (s : SqliteStore) : SqliteStore :=
  { s with
    nodes := s.nodes.deleteWhere (Foreign lang)
    edges := s.edges.deleteWhere (Touches lang s) }

theorem keptRows_nativePart : keptRows lang (nativePart lang s) = keptRows lang s := by
  have hrows : (nativePart lang s).nodes.rows = keptRows lang s := rfl
  rw [keptRows, hrows, keptRows, List.filter_filter]
  simp only [Bool.and_self]

theorem foreignChange_nativePart : ForeignChange lang s (nativePart lang s) where
  nodes := keptRows_nativePart.symm
  removed e he hne := by
    by_contra ht
    exact hne (Table.mem_deleteWhere.mpr ⟨he, ht⟩)
  added e he hne := absurd (Table.mem_deleteWhere.mp he).1 hne

theorem mem_keptRows : n ∈ keptRows lang s ↔ n ∈ s.nodes ∧ ¬ Foreign lang n := by
  rw [keptRows, List.mem_filter, decide_eq_true_eq]
  rfl

theorem ForeignChange.mem_nodes (h : ForeignChange lang s s') (hn : n ∈ s.nodes)
    (hf : ¬ Foreign lang n) : n ∈ s'.nodes :=
  (mem_keptRows.mp (h.nodes ▸ mem_keptRows.mpr ⟨hn, hf⟩)).1

theorem ForeignChange.imports (h : ForeignChange lang s s') {p : String × String}
    (hp : p ∈ (nativePart lang s).fileImportPairs) : p ∈ s'.fileImportPairs := by
  rw [SqliteStore.mem_fileImportPairs] at hp ⊢
  obtain ⟨e1, h1, e2, h2, hk1, hs, hk2, n1, hn1, hi1, n2, hn2, hi2, hf, rfl⟩ := hp
  have hedge : ∀ e, e ∈ (nativePart lang s).edges → e ∈ s'.edges := by
    intro e he
    obtain ⟨he, ht⟩ := Table.mem_deleteWhere.mp he
    by_contra hne
    exact ht (h.removed e he hne)
  have hnode : ∀ n, n ∈ (nativePart lang s).nodes → n ∈ s'.nodes := by
    intro n hn
    obtain ⟨hn, hf⟩ := IndexedTable.mem_deleteWhere.mp hn
    exact h.mem_nodes hn hf
  exact ⟨e1, hedge e1 h1, e2, hedge e2 h2, hk1, hs, hk2, n1, hnode n1 hn1, hi1, n2,
    hnode n2 hn2, hi2, hf, rfl⟩

theorem langScoped_kept (hl : lang ≠ "") (p : NodeRow → Bool) :
    langScoped lang (s.nodes.rows.filter p) = langScoped lang ((keptRows lang s).filter p) := by
  rw [langScoped, langScoped, keptRows, List.filter_filter, List.filter_filter, List.filter_filter]
  apply List.filter_congr
  intro n _
  have hne : lang.isEmpty = false := by
    rw [Bool.eq_false_iff]
    exact fun h => hl (String.isEmpty_iff.mp h)
  by_cases hn : n.vname.language = lang
  · have hf : ¬ Foreign lang n := fun hf => hf.2 hn
    simp [hn, hf, hne]
  · simp [hn, hne]

def eligible (lang : String) (u : UnresolvedCall) (candidates : List NodeRow) : List NodeRow :=
  hinted u (langScoped lang candidates)

def firstSig (u : UnresolvedCall) : Option String :=
  let leaf := Ident.leafOf u.calleeSig
  if isField u then u.recvType.map fun t => fieldSig t leaf
  else if u.isMethodCall then u.recvType.map fun t => methodSig t leaf
  else some u.calleeSig

/-- What a later tier may offer: the methods of the leaf of some class, or what a free call falls
back on. -/
def Later (rows : List NodeRow) (u : UnresolvedCall) (candidates : List NodeRow) : Prop :=
  if u.isMethodCall then
    ∃ base, candidates = withSig rows (methodSig base (Ident.leafOf u.calleeSig))
  else candidates = fallback rows u

/-- What no foreign node changes for a caller with a language: a field access; a call whose first
signature a kept node has, unless an import can break a tie among these; a call to which no later
tier offers a node it could come down to. -/
def InsulatedNamed (s : SqliteStore) (caller : NodeRow) (u : UnresolvedCall) : Prop :=
  let lang := caller.vname.language
  let path := caller.vname.path
  let kept := keptRows lang s
  let sure := (nativePart lang s).fileImportPairs
  isField u = true ∨ ∀ sig ∈ firstSig u,
    if withSig kept sig ≠ [] then
      Tied u path (eligible lang u (withSig kept sig)) →
        ∀ d, ¬ Pickable u path sure (eligible lang u (withSig kept sig)) d
    else
      ∀ candidates, Later kept u candidates →
        ∀ d, ¬ Pickable u path sure (eligible lang u candidates) d

/-- Without a language nothing is dropped: the hint leads to no reachable path, or the first
signature is that of several nodes or of one that is not callable. -/
def InsulatedNameless (s : SqliteStore) (caller : NodeRow) (u : UnresolvedCall) : Prop :=
  let path := caller.vname.path
  ∀ sig ∈ firstSig u,
    if u.hintCrate = none ∨ isField u = true then
      let found := (withSig (keptRows "" s) sig).filter fun n =>
        bareFn u = true → n.vname.path = path
      found ≠ [] ∧ ∀ d, found = [d] → ¬ Callable u path d
    else
      ∀ p, u.hintCrate.all (fun hint => hintMatches hint p) = true →
        ¬ (underTests p = true → underTests path = true)

/-- The call is insulated from the nodes of other languages. -/
def Insulated (s : SqliteStore) (caller : NodeRow) (u : UnresolvedCall) : Prop :=
  if caller.vname.language = "" then InsulatedNameless s caller u else InsulatedNamed s caller u

/-- No change of foreign nodes shows in what the pass emits for the caller, whichever of the calls
it is given. -/
def Noninterfering (s : SqliteStore) (caller : NodeRow) (us : List UnresolvedCall) : Prop :=
  ∀ calls, (∀ u ∈ calls, u ∈ us) → ∀ pbNodes pbEdges lsifCovered s',
    ForeignChange caller.vname.language s s' →
      SameFor caller.id (resolveUnresolvedCalls s calls pbNodes pbEdges lsifCovered)
        (resolveUnresolvedCalls s' calls pbNodes pbEdges lsifCovered)

theorem callerPath_of_mem (hc : caller ∈ s.nodes) (hu : u.src = caller.id) :
    callerPath s.nodes u.src = caller.vname.path := by
  rw [callerPath, hu, Table.find?_of_mem (t := s.nodes.toTable) hc]
  rfl

theorem callerLang_of_mem (hc : caller ∈ s.nodes) (hu : u.src = caller.id) :
    callerLang s.nodes u.src = caller.vname.language := by
  rw [callerLang, hu, Table.find?_of_mem (t := s.nodes.toTable) hc]
  rfl

theorem not_foreign_caller : ¬ Foreign caller.vname.language caller := fun h => h.2 rfl

theorem not_isEmpty_iff {l : List NodeRow} : (!l.isEmpty) = true ↔ l ≠ [] := by
  rw [Bool.not_eq_true', List.isEmpty_eq_false_iff]

theorem nil_isEmpty : ¬ (!([] : List NodeRow).isEmpty) = true := by decide

theorem firstSig_method (hf : isField u = false) (hm : u.isMethodCall = true) :
    firstSig u = u.recvType.map fun t => methodSig t (Ident.leafOf u.calleeSig) := by
  rw [firstSig, hf, if_neg Bool.false_ne_true, if_pos hm]

theorem firstSig_free (hf : isField u = false) (hm : ¬ u.isMethodCall = true) :
    firstSig u = some u.calleeSig := by
  rw [firstSig, hf, if_neg Bool.false_ne_true, if_neg hm]

theorem candidatesOf_first {nodes : NodeTable} {h : ClassHierarchy} {sig : String}
    (hf : isField u = false) (hsig : firstSig u = some sig) (hne : withSig nodes.rows sig ≠ []) :
    candidatesOf nodes h u = withSig nodes.rows sig := by
  unfold candidatesOf
  by_cases hm : u.isMethodCall = true
  · rw [firstSig_method hf hm] at hsig
    obtain ⟨t, ht, rfl⟩ := Option.map_eq_some_iff.mp hsig
    rw [if_pos hm, ht, Option.toList_some, List.flatMap_singleton]
    exact if_pos (not_isEmpty_iff.mpr hne)
  · rw [firstSig_free hf hm] at hsig
    obtain rfl := Option.some.inj hsig
    rw [if_neg hm]
    exact if_pos (not_isEmpty_iff.mpr hne)

theorem candidatesOf_none {nodes : NodeTable} {h : ClassHierarchy} (hf : isField u = false)
    (hsig : firstSig u = none) : candidatesOf nodes h u = [] := by
  unfold candidatesOf
  by_cases hm : u.isMethodCall = true
  · rw [firstSig_method hf hm, Option.map_eq_none_iff] at hsig
    rw [if_pos hm, hsig]
    rfl
  · rw [firstSig_free hf hm] at hsig
    cases hsig

theorem candidatesOf_later {nodes : NodeTable} {h : ClassHierarchy} {sig : String}
    (hf : isField u = false) (hsig : firstSig u = some sig) (hmiss : withSig nodes.rows sig = []) :
    candidatesOf nodes h u = [] ∨ Later nodes.rows u (candidatesOf nodes h u) := by
  unfold candidatesOf Later
  by_cases hm : u.isMethodCall = true
  · rw [firstSig_method hf hm] at hsig
    obtain ⟨t, ht, rfl⟩ := Option.map_eq_some_iff.mp hsig
    rw [if_pos hm, if_pos hm, ht, Option.toList_some, List.flatMap_singleton]
    unfold methodCandidates
    dsimp only
    rw [hmiss, if_neg nil_isEmpty]
    by_cases hknown : KnownType nodes t
    · rw [if_neg (not_not.mpr hknown)]
      cases hfind : ((h.ancestors (callerPath nodes u.src) t).map fun base =>
          withSig nodes.rows (methodSig base (Ident.leafOf u.calleeSig))).find?
            fun m => !m.isEmpty with
      | none => exact .inl rfl
      | some m =>
        obtain ⟨base, -, hbase⟩ := List.mem_map.mp (List.mem_of_find?_eq_some hfind)
        exact .inr ⟨base, hbase.symm⟩
    · rw [if_pos hknown]
      exact .inl rfl
  · rw [firstSig_free hf hm] at hsig
    obtain rfl := Option.some.inj hsig
    rw [if_neg hm, if_neg hm]
    right
    unfold freeCandidates
    dsimp only
    rw [hmiss, if_neg nil_isEmpty]

section

variable (hl : lang ≠ "")

include hl

theorem eligible_withSig (sig : String) :
    eligible lang u (withSig s.nodes.rows sig) = eligible lang u (withSig (keptRows lang s) sig) := by
  rw [eligible, withSig, langScoped_kept hl]
  rfl

theorem eligible_leafPool :
    eligible lang u (leafPool s.nodes.rows u) = eligible lang u (leafPool (keptRows lang s) u) := by
  unfold leafPool
  by_cases h : qualified u.calleeSig = true ∨ (Ident.leafOf u.calleeSig).isEmpty = true
  · rw [if_pos h, if_pos h]
  · rw [if_neg h, if_neg h, eligible, langScoped_kept hl]
    rfl

theorem eligible_later {candidates : List NodeRow} (h : Later s.nodes.rows u candidates) :
    eligible lang u candidates = [] ∨ ∃ kept, Later (keptRows lang s) u kept ∧
      eligible lang u candidates = eligible lang u kept := by
  unfold Later at h
  by_cases hm : u.isMethodCall = true
  · rw [if_pos hm] at h
    obtain ⟨base, rfl⟩ := h
    right
    refine ⟨withSig (keptRows lang s) (methodSig base (Ident.leafOf u.calleeSig)), ?_,
      eligible_withSig hl _⟩
    rw [Later, if_pos hm]
    exact ⟨base, rfl⟩
  · rw [if_neg hm] at h
    subst h
    have halt : eligible lang u (u.altCalleeSig.toList.flatMap (withSig s.nodes.rows)) =
        eligible lang u (u.altCalleeSig.toList.flatMap (withSig (keptRows lang s))) := by
      cases u.altCalleeSig with
      | none => rfl
      | some alt =>
        simp only [Option.toList_some, List.flatMap_singleton]
        exact eligible_withSig hl alt
    have hsub : u.altCalleeSig.toList.flatMap (withSig s.nodes.rows) = [] →
        u.altCalleeSig.toList.flatMap (withSig (keptRows lang s)) = [] := by
      cases u.altCalleeSig with
      | none => exact fun _ => rfl
      | some alt =>
        simp only [Option.toList_some, List.flatMap_singleton]
        intro hnil
        apply List.filter_eq_nil_iff.mpr
        intro n hn
        exact List.filter_eq_nil_iff.mp hnil n (mem_keptRows.mp hn).1
    unfold fallback
    dsimp only
    by_cases hkept : u.altCalleeSig.toList.flatMap (withSig (keptRows lang s)) = []
    · by_cases hall : u.altCalleeSig.toList.flatMap (withSig s.nodes.rows) = []
      · right
        refine ⟨leafPool (keptRows lang s) u, ?_, ?_⟩
        · rw [Later, if_neg hm, fallback, hkept]
          rfl
        · rw [hall, if_neg nil_isEmpty]
          exact eligible_leafPool hl
      · left
        rw [if_pos (not_isEmpty_iff.mpr hall), halt, hkept]
        rfl
    · right
      have hall := fun h => hkept (hsub h)
      refine ⟨u.altCalleeSig.toList.flatMap (withSig (keptRows lang s)), ?_, ?_⟩
      · rw [Later, if_neg hm, fallback]
        exact (if_pos (not_isEmpty_iff.mpr hkept)).symm
      · rw [if_pos (not_isEmpty_iff.mpr hall), halt]

end

theorem settle_eq_nil {ds : List NodeRow} {sure imports : List (String × String)}
    {crates : CrateGraph} (hsure : ∀ p ∈ sure, p ∈ imports)
    (h : ∀ d, ¬ Pickable u path sure ds d) : settle u path imports crates ds = [] :=
  List.eq_nil_iff_forall_not_mem.mpr fun d hd => h d (pickable_of_mem_settle hsure hd)

theorem not_pickable_nil {sure : List (String × String)} (d : NodeRow) :
    ¬ Pickable u path sure [] d := fun h => absurd h.mem List.not_mem_nil

theorem ForeignChange.refl (lang : String) (s : SqliteStore) : ForeignChange lang s s :=
  ⟨rfl, fun _ h hn => absurd h hn, fun _ h hn => absurd h hn⟩

theorem ForeignChange.withSig_ne_nil {sig : String} (h : ForeignChange lang s s')
    (hne : withSig (keptRows lang s) sig ≠ []) : withSig s'.nodes.rows sig ≠ [] := by
  obtain ⟨n, hn⟩ := List.exists_mem_of_ne_nil _ hne
  obtain ⟨hmem, hsig⟩ := mem_withSig.mp hn
  rw [h.nodes] at hmem
  exact List.ne_nil_of_mem (mem_withSig.mpr ⟨(mem_keptRows.mp hmem).1, hsig⟩)

section

variable (hf : isField u = false)

include hf

theorem settle_of_miss (hl : caller.vname.language ≠ "") (hi : InsulatedNamed s caller u)
    (hch : ForeignChange caller.vname.language s s') {sig : String} (hsig : firstSig u = some sig)
    (hmiss : withSig (keptRows caller.vname.language s) sig = []) {h : ClassHierarchy}
    {crates : CrateGraph} :
    settle u caller.vname.path s'.fileImportPairs crates
      (eligible caller.vname.language u (candidatesOf s'.nodes h u)) = [] := by
  have hlate := (hi.resolve_left (by rw [hf]; exact Bool.false_ne_true)) sig hsig
  rw [if_neg (not_not.mpr hmiss)] at hlate
  apply settle_eq_nil fun p hp => hch.imports hp
  intro d
  by_cases hne : withSig s'.nodes.rows sig = []
  · rcases candidatesOf_later (h := h) hf hsig hne with hnil | hlater
    · rw [hnil]
      exact not_pickable_nil d
    · rcases eligible_later hl hlater with hnil | ⟨kept, hkept, heq⟩
      · rw [hnil]
        exact not_pickable_nil d
      · rw [heq]
        rw [← hch.nodes] at hkept
        exact hlate kept hkept d
  · rw [candidatesOf_first hf hsig hne, eligible_withSig hl, ← hch.nodes, hmiss]
    exact not_pickable_nil d

theorem settle_of_named {s₁ s₂ : SqliteStore} (hl : caller.vname.language ≠ "")
    (hi : InsulatedNamed s caller u) (h₁ : ForeignChange caller.vname.language s s₁)
    (h₂ : ForeignChange caller.vname.language s s₂) {c₁ c₂ : ClassHierarchy}
    {crates : CrateGraph} :
    settle u caller.vname.path s₁.fileImportPairs crates
        (eligible caller.vname.language u (candidatesOf s₁.nodes c₁ u)) =
      settle u caller.vname.path s₂.fileImportPairs crates
        (eligible caller.vname.language u (candidatesOf s₂.nodes c₂ u)) := by
  cases hsig : firstSig u with
  | none =>
    have hnil : ∀ imports, settle u caller.vname.path imports crates
        (eligible caller.vname.language u []) = [] := fun imports =>
      @settle_eq_nil _ _ _ [] _ _ (fun _ h => absurd h List.not_mem_nil) not_pickable_nil
    rw [candidatesOf_none hf hsig, candidatesOf_none hf hsig, hnil, hnil]
  | some sig =>
    by_cases hmiss : withSig (keptRows caller.vname.language s) sig = []
    · rw [settle_of_miss hf hl hi h₁ hsig hmiss, settle_of_miss hf hl hi h₂ hsig hmiss]
    · have htie := (hi.resolve_left (by rw [hf]; exact Bool.false_ne_true)) sig hsig
      rw [if_pos hmiss] at htie
      rw [candidatesOf_first hf hsig (h₁.withSig_ne_nil hmiss),
        candidatesOf_first hf hsig (h₂.withSig_ne_nil hmiss), eligible_withSig hl,
        eligible_withSig hl, ← h₁.nodes, ← h₂.nodes]
      by_cases ht : Tied u caller.vname.path
          (eligible caller.vname.language u (withSig (keptRows caller.vname.language s) sig))
      · rw [settle_eq_nil (fun p hp => h₁.imports hp) (htie ht),
          settle_eq_nil (fun p hp => h₂.imports hp) (htie ht)]
      · exact settle_of_not_tied ht _ _

end

theorem hinted_of_none (hh : u.hintCrate = none) (ds : List NodeRow) : hinted u ds = ds := by
  rw [hinted, hh]
  exact List.filter_eq_self.mpr fun _ _ => rfl

theorem langScoped_empty (ds : List NodeRow) : langScoped "" ds = ds :=
  List.filter_eq_self.mpr fun _ _ => rfl

theorem eq_singleton_of_sublist {l l' : List NodeRow} (h : l.Sublist l') (hne : l ≠ [])
    (hlen : l'.length = 1) : ∃ d, l = [d] ∧ l' = [d] := by
  obtain ⟨d, rfl⟩ := List.length_eq_one_iff.mp hlen
  rcases List.sublist_singleton.mp h with hl | hl
  · exact absurd hl hne
  · exact ⟨d, hl, rfl⟩

theorem ForeignChange.found_sublist {sig : String} (h : ForeignChange lang s s')
    (p : NodeRow → Bool) :
    ((withSig (keptRows lang s) sig).filter p).Sublist ((withSig s'.nodes.rows sig).filter p) := by
  rw [h.nodes]
  exact (List.filter_sublist.filter _).filter _

theorem bareFn_of_isField (hf : isField u = true) : ¬ bareFn u = true := by
  intro hb
  unfold bareFn Text.startsWith at hb
  unfold isField Text.startsWith at hf
  rw [Bool.and_eq_true] at hb
  obtain ⟨_, ha⟩ := List.isPrefixOf_iff_prefix.mp hb.2
  obtain ⟨_, hc⟩ := List.isPrefixOf_iff_prefix.mp hf
  rw [← ha] at hc
  exact absurd (congrArg (fun l => l[1]?) hc) (by simp)

/-- Without a language a call that is insulated resolves to nothing, in whatever changed store. -/
theorem settle_of_nameless (hf : isField u = false) (hi : InsulatedNameless s caller u)
    (hch : ForeignChange "" s s') {imports : List (String × String)} {h : ClassHierarchy}
    {crates : CrateGraph} :
    settle u caller.vname.path imports crates (eligible "" u (candidatesOf s'.nodes h u)) = [] := by
  rw [eligible, langScoped_empty]
  cases hsig : firstSig u with
  | none =>
    rw [candidatesOf_none hf hsig]
    exact @settle_eq_nil _ _ _ [] _ _ (fun _ h => absurd h List.not_mem_nil) not_pickable_nil
  | some sig =>
    have hi := hi sig hsig
    apply List.eq_nil_iff_forall_not_mem.mpr
    intro d hd
    cases hh : u.hintCrate with
    | some hint =>
      rw [if_neg (by rw [hh, hf]; simp)] at hi
      have hpick := @pickable_of_mem_settle _ _ [] _ _ _ _ (fun _ h => absurd h List.not_mem_nil) hd
      have hhint := (List.mem_filter.mp hpick.mem).2
      exact hi d.vname.path hhint hpick.callable.tests
    | none =>
      rw [if_pos (.inl hh)] at hi
      obtain ⟨hne, honly⟩ := hi
      have hsub := @ForeignChange.found_sublist _ _ _ sig hch fun n =>
        decide (bareFn u = true → n.vname.path = caller.vname.path)
      have hfirst : withSig s'.nodes.rows sig ≠ [] := by
        intro hnil
        rw [hnil] at hsub
        exact hne (List.sublist_nil.mp hsub)
      rw [candidatesOf_first hf hsig hfirst, hinted_of_none hh] at hd
      by_cases hb : bareFn u = true ∧ 1 < (withSig s'.nodes.rows sig).length
      · obtain ⟨hone, hd⟩ := (mem_settle_bare hh hb.1 hb.2).mp hd
        have hown : (withSig s'.nodes.rows sig).filter (fun n =>
            decide (bareFn u = true → n.vname.path = caller.vname.path)) =
              (withSig s'.nodes.rows sig).filter (fun n => n.vname.path = caller.vname.path) :=
          List.filter_congr fun n _ => by simp [hb.1]
        rw [hown] at hsub
        obtain ⟨x, hx⟩ := List.exists_mem_of_ne_nil _ hne
        obtain ⟨hx, hxp⟩ := List.mem_filter.mp (hsub.subset hx)
        rcases scopeBareCall_cases caller.vname.path imports (withSig s'.nodes.rows sig) with
          ⟨-, hs⟩ | ⟨hnone, -⟩
        · rw [hs] at hone hd
          obtain ⟨y, hy, hy'⟩ := eq_singleton_of_sublist hsub hne hone
          rw [hy'] at hd
          obtain ⟨hmem, hcall⟩ := callable_of_mem_reachableFrom hd
          rw [List.mem_singleton.mp hmem] at hcall
          exact honly y hy hcall
        · exact hnone x hx (of_decide_eq_true hxp)
      · obtain ⟨hone, hd⟩ := (mem_settle_free hh hb).mp hd
        obtain ⟨y, hy, hy'⟩ :=
          eq_singleton_of_sublist (hsub.trans List.filter_sublist) hne hone
        rw [hy'] at hd
        obtain ⟨hmem, hcall⟩ := callable_of_mem_reachableFrom hd
        rw [List.mem_singleton.mp hmem] at hcall
        exact honly y hy hcall

def soleField (u : UnresolvedCall) (caller : NodeRow) (crates : CrateGraph) (rows : List NodeRow)
    (t : String) : List NodeRow :=
  let sameLang := langScoped caller.vname.language
    (withSig rows (fieldSig t (Ident.leafOf u.calleeSig)))
  if sameLang.length ≠ 1 then [] else reachableFrom u caller.vname.path crates sameLang

theorem soleField_of_change (hf : isField u = true) (hi : Insulated s caller u)
    (hch : ForeignChange caller.vname.language s s') {crates : CrateGraph} {t : String}
    (ht : u.recvType = some t) :
    soleField u caller crates s'.nodes.rows t = soleField u caller crates s.nodes.rows t := by
  unfold Insulated at hi
  by_cases hl : caller.vname.language = ""
  · rw [if_pos hl] at hi
    rw [hl] at hch
    have hfirst : firstSig u = some (fieldSig t (Ident.leafOf u.calleeSig)) := by
      rw [firstSig, if_pos hf, ht, Option.map_some]
    have hi := hi _ hfirst
    rw [if_pos (.inr hf)] at hi
    obtain ⟨hne, honly⟩ := hi
    have hnil : ∀ s', ForeignChange "" s s' → soleField u caller crates s'.nodes.rows t = [] := by
      intro s' hch
      have hsub := (@ForeignChange.found_sublist _ _ _ (fieldSig t (Ident.leafOf u.calleeSig)) hch fun n =>
        decide (bareFn u = true → n.vname.path = caller.vname.path)).trans List.filter_sublist
      unfold soleField
      dsimp only
      rw [hl, langScoped_empty]
      split_ifs with hlen
      · rfl
      · obtain ⟨y, hy, hy'⟩ := eq_singleton_of_sublist hsub hne (not_not.mp hlen)
        rw [hy']
        apply List.eq_nil_iff_forall_not_mem.mpr
        intro d hd
        obtain ⟨hmem, hcall⟩ := callable_of_mem_reachableFrom hd
        rw [List.mem_singleton.mp hmem] at hcall
        exact honly y hy hcall
    rw [hnil s' hch, hnil s (ForeignChange.refl _ s)]
  · unfold soleField withSig
    rw [langScoped_kept hl, langScoped_kept hl, hch.nodes]

theorem targets_of_insulated {us : List UnresolvedCall} {pbNodes : List Node}
    {pbEdges : List Edge} {lsifCovered : List (String × Nat × String)} (hc : caller ∈ s.nodes)
    (hu : u ∈ us) (hsrc : u.src = caller.id) (hi : Insulated s caller u)
    (hch : ForeignChange caller.vname.language s s') :
    (CallIndex.build s us pbNodes pbEdges).targets u lsifCovered =
      (CallIndex.build s' us pbNodes pbEdges).targets u lsifCovered := by
  have hc' := hch.mem_nodes hc not_foreign_caller
  cases hf : isField u with
  | true =>
    rw [targets_field hf, targets_field hf, fieldTargets_build hu hf, fieldTargets_build hu hf,
      callerPath_of_mem hc hsrc, callerPath_of_mem hc' hsrc, callerLang_of_mem hc hsrc,
      callerLang_of_mem hc' hsrc]
    cases ht : u.recvType with
    | none => rfl
    | some t =>
      simp only [Option.toList_some, List.flatMap_singleton]
      exact (soleField_of_change hf hi hch ht).symm
  | false =>
    by_cases hcov : (caller.vname.path, u.callerLine, Ident.leafOf u.calleeSig) ∈ lsifCovered
    · rw [targets_covered hf (by rw [callerPath_of_mem hc hsrc]; exact hcov),
        targets_covered hf (by rw [callerPath_of_mem hc' hsrc]; exact hcov)]
    · rw [targets_build hu hf (by rw [callerPath_of_mem hc hsrc]; exact hcov),
        targets_build hu hf (by rw [callerPath_of_mem hc' hsrc]; exact hcov),
        callerPath_of_mem hc hsrc, callerPath_of_mem hc' hsrc, callerLang_of_mem hc hsrc,
        callerLang_of_mem hc' hsrc]
      unfold Insulated at hi
      by_cases hl : caller.vname.language = ""
      · rw [if_pos hl] at hi
        rw [hl] at hch ⊢
        exact (settle_of_nameless hf hi (ForeignChange.refl _ s)).trans
          (settle_of_nameless hf hi hch).symm
      · rw [if_neg hl] at hi
        exact settle_of_named hf hl hi (ForeignChange.refl _ s) hch

theorem noninterfering_of_insulated {us : List UnresolvedCall} (hc : caller ∈ s.nodes)
    (h : ∀ u ∈ us, u.src = caller.id → Insulated s caller u) : Noninterfering s caller us := by
  intro calls hcalls pbNodes pbEdges lsifCovered s' hch
  apply sameFor_of_targets
  intro u hu hsrc
  exact targets_of_insulated hc hu hsrc (h u (hcalls u hu) hsrc) hch

end Travsr.Daemon
