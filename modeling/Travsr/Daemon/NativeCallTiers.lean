import Travsr.Daemon.NativeCalls

namespace Travsr.Daemon

open Travsr.Core Travsr.Store Relational SortDedup

variable {s : SqliteStore} {us : List UnresolvedCall} {pbNodes : List Node} {pbEdges : List Edge}
  {u : UnresolvedCall} {sig t : String}

/-- Some stored node makes the type one of the graph. -/
def KnownType (nodes : NodeTable) (t : String) : Prop :=
  ∃ n ∈ nodes.rows, n.vname.signature ∈ typeSigs t

instance (nodes : NodeTable) (t : String) : Decidable (KnownType nodes t) :=
  inferInstanceAs (Decidable (∃ n ∈ nodes.rows, n.vname.signature ∈ typeSigs t))

def methodCandidates (nodes : NodeTable) (h : ClassHierarchy) (u : UnresolvedCall) (t : String) :
    List NodeRow :=
  let leaf := Ident.leafOf u.calleeSig
  let exact := withSig nodes.rows (methodSig t leaf)
  if !exact.isEmpty then exact
  else if ¬ KnownType nodes t then []
  else
    (((h.ancestors (callerPath nodes u.src) t).map fun base =>
      withSig nodes.rows (methodSig base leaf)).find? fun m => !m.isEmpty).getD []

/-- The free functions of the callee's name, whatever prefix the callee has. -/
def leafPool (rows : List NodeRow) (u : UnresolvedCall) : List NodeRow :=
  if qualified u.calleeSig ∨ (Ident.leafOf u.calleeSig).isEmpty then []
  else
    rows.filter fun n => n.kind ∈ ["function", "method", "fn"] ∧
      callableLeaf n.vname.signature = some (Ident.leafOf u.calleeSig) ∧
      !qualified n.vname.signature

def fallback (rows : List NodeRow) (u : UnresolvedCall) : List NodeRow :=
  let alt := u.altCalleeSig.toList.flatMap (withSig rows)
  if !alt.isEmpty then alt else leafPool rows u

def freeCandidates (rows : List NodeRow) (u : UnresolvedCall) : List NodeRow :=
  let exact := withSig rows u.calleeSig
  if !exact.isEmpty then exact else fallback rows u

def candidatesOf (nodes : NodeTable) (h : ClassHierarchy) (u : UnresolvedCall) : List NodeRow :=
  if u.isMethodCall then u.recvType.toList.flatMap (methodCandidates nodes h u)
  else freeCandidates nodes.rows u

theorem withSig_nodesBySignatures {nodes : NodeTable} {sigs : List String} (h : sig ∈ sigs) :
    withSig (nodesBySignatures nodes sigs) sig = withSig nodes.rows sig := by
  rw [withSig, nodesBySignatures, List.filter_filter, withSig]
  apply List.filter_congr
  intro n _
  by_cases hn : n.vname.signature = sig
  · simp [hn, h]
  · simp [hn]

theorem mem_withSig {rows : List NodeRow} {n : NodeRow} :
    n ∈ withSig rows sig ↔ n ∈ rows ∧ n.vname.signature = sig := by
  rw [withSig, List.mem_filter, decide_eq_true_eq]

theorem stripPrefix_eq_some {pat : String} {cs rest : List Char}
    (h : Text.stripPrefix pat cs = some rest) : cs = pat.toList ++ rest := by
  unfold Text.stripPrefix at h
  split_ifs at h with hp
  obtain ⟨tail, rfl⟩ := List.isPrefixOf_iff_prefix.mp hp
  rw [← Option.some.inj h, List.drop_left]

theorem leafOf_of_callableLeaf {leaf : String} (h : callableLeaf sig = some leaf) :
    Ident.leafOf sig = leaf := by
  unfold callableLeaf at h
  cases hfn : Text.stripPrefix "fn:" sig.toList with
  | some rest =>
    rw [hfn] at h
    have hbody : Text.afterFirst [':'] sig.toList = some rest := by
      rw [stripPrefix_eq_some hfn]
      rfl
    rw [Ident.leafOf, hbody]
    exact Option.some.inj h
  | none =>
    rw [hfn] at h
    obtain ⟨rest, hrest, hlast⟩ := Option.bind_eq_some_iff.mp h
    obtain ⟨tail, htail, rfl⟩ := Option.map_eq_some_iff.mp hlast
    have hbody : Text.afterFirst [':'] sig.toList = some rest := by
      rw [stripPrefix_eq_some hrest]
      rfl
    rw [Ident.leafOf, hbody, Option.getD_some, htail, Option.getD_some]

theorem afterFirst_typeSigs (h : sig ∈ typeSigs t) :
    Text.afterFirst [':'] sig.toList = some t.toList := by
  have hsig : sig = "struct:" ++ t ∨ sig = "enum:" ++ t ∨ sig = "trait:" ++ t ∨
      sig = "class:" ++ t ∨ sig = "interface:" ++ t := by
    simpa only [typeSigs, List.mem_cons, List.not_mem_nil, or_false] using h
  rcases hsig with rfl | rfl | rfl | rfl | rfl <;> rw [String.toList_append] <;> rfl

section

variable (hu : u ∈ us)

include hu

theorem bySig_calleeSig :
    withSig (CallIndex.build s us pbNodes pbEdges).bySig u.calleeSig =
      withSig s.nodes.rows u.calleeSig :=
  withSig_nodesBySignatures (List.mem_append_left _ (List.mem_map.mpr ⟨u, hu, rfl⟩))

theorem bySig_altCalleeSig :
    u.altCalleeSig.toList.flatMap (withSig (CallIndex.build s us pbNodes pbEdges).bySig) =
      u.altCalleeSig.toList.flatMap (withSig s.nodes.rows) := by
  cases halt : u.altCalleeSig with
  | none => rfl
  | some alt =>
    simp only [Option.toList_some, List.flatMap_singleton]
    exact withSig_nodesBySignatures
      (List.mem_append_right _ (List.mem_filterMap.mpr ⟨u, hu, halt⟩))

theorem byRecvSig_methodSig (ht : u.recvType = some t) :
    withSig (CallIndex.build s us pbNodes pbEdges).byRecvSig
        (methodSig t (Ident.leafOf u.calleeSig)) =
      withSig s.nodes.rows (methodSig t (Ident.leafOf u.calleeSig)) :=
  withSig_nodesBySignatures (List.mem_filterMap.mpr ⟨u, hu, by rw [ht]; rfl⟩)

theorem byFieldRecvSig_fieldSig (hf : isField u = true) (ht : u.recvType = some t) :
    withSig (CallIndex.build s us pbNodes pbEdges).byFieldRecvSig
        (fieldSig t (Ident.leafOf u.calleeSig)) =
      withSig s.nodes.rows (fieldSig t (Ident.leafOf u.calleeSig)) :=
  withSig_nodesBySignatures
    (List.mem_filterMap.mpr ⟨u, List.mem_filter.mpr ⟨hu, hf⟩, by rw [ht]; rfl⟩)

theorem mem_knownGraphTypes (ht : u.recvType = some t) :
    t ∈ (CallIndex.build s us pbNodes pbEdges).knownGraphTypes ↔ KnownType s.nodes t := by
  constructor
  · intro h
    obtain ⟨n, hn, hname⟩ := List.mem_filterMap.mp h
    obtain ⟨hmem, hsig⟩ := mem_nodesBySignatures.mp hn
    obtain ⟨t', -, hsig⟩ := List.mem_flatMap.mp hsig
    rw [afterFirst_typeSigs hsig, Option.map_some, String.ofList_toList] at hname
    rw [Option.some.inj hname] at hsig
    exact ⟨n, hmem, hsig⟩
  · rintro ⟨n, hn, hsig⟩
    apply List.mem_filterMap.mpr
    refine ⟨n, mem_nodesBySignatures.mpr ⟨hn, List.mem_flatMap.mpr ⟨t, ?_, hsig⟩⟩, ?_⟩
    · exact List.mem_filterMap.mpr ⟨u, hu, ht⟩
    · rw [afterFirst_typeSigs hsig, Option.map_some, String.ofList_toList]

theorem leafMatches_build (hmiss : withSig s.nodes.rows u.calleeSig = []) :
    (CallIndex.build s us pbNodes pbEdges).leafMatches u = leafPool s.nodes.rows u := by
  have hfirst := @bySig_calleeSig s _ pbNodes pbEdges _ hu
  rw [hmiss] at hfirst
  unfold CallIndex.leafMatches leafPool
  by_cases hq : qualified u.calleeSig = true
  · rw [if_pos hq, if_pos (.inl hq)]
  · rw [if_neg hq]
    have hrows : (CallIndex.build s us pbNodes pbEdges).byLeaf = fnNodesByLeafName s.nodes
        (((us.filter fun v => (withSig (CallIndex.build s us pbNodes pbEdges).bySig
          v.calleeSig).isEmpty).map fun v => Ident.leafOf v.calleeSig).filter
            fun leaf => !leaf.isEmpty) := rfl
    rw [hrows, fnNodesByLeafName, List.filter_filter]
    by_cases hleaf : (Ident.leafOf u.calleeSig).isEmpty = true
    · rw [if_pos (.inr hleaf), List.filter_eq_nil_iff]
      intro n _ hn
      rw [Bool.and_eq_true, decide_eq_true_eq, decide_eq_true_eq] at hn
      obtain ⟨⟨hsame, -⟩, -, hany⟩ := hn
      obtain ⟨leaf, hcl, hmem⟩ := (Option.any_eq_true _ _).mp hany
      have hne := (List.mem_filter.mp (of_decide_eq_true hmem)).2
      rw [← leafOf_of_callableLeaf hcl, hsame, hleaf] at hne
      exact absurd hne (by decide)
    · rw [if_neg (not_or.mpr ⟨hq, hleaf⟩)]
      have hasked : Ident.leafOf u.calleeSig ∈
          ((us.filter fun v => (withSig (CallIndex.build s us pbNodes pbEdges).bySig
            v.calleeSig).isEmpty).map fun v => Ident.leafOf v.calleeSig).filter
              fun leaf => !leaf.isEmpty := by
        refine List.mem_filter.mpr ⟨List.mem_map.mpr ⟨u, List.mem_filter.mpr ⟨hu, ?_⟩, rfl⟩, ?_⟩
        · rw [hfirst]
          rfl
        · rw [Bool.not_eq_true', Bool.eq_false_iff]
          exact hleaf
      apply List.filter_congr
      intro n _
      rw [Bool.eq_iff_iff, Bool.and_eq_true, decide_eq_true_eq, decide_eq_true_eq,
        decide_eq_true_eq]
      constructor
      · rintro ⟨⟨hsame, hnq⟩, hkind, hany⟩
        obtain ⟨leaf, hcl, -⟩ := (Option.any_eq_true _ _).mp hany
        refine ⟨hkind, ?_, hnq⟩
        rw [hcl, ← leafOf_of_callableLeaf hcl, hsame]
      · rintro ⟨hkind, hcl, hnq⟩
        refine ⟨⟨leafOf_of_callableLeaf hcl, hnq⟩, hkind, ?_⟩
        rw [hcl, Option.any_some, decide_eq_true_eq]
        exact hasked

theorem byInheritedSig_methodSig {base : String} (hm : u.isMethodCall = true)
    (ht : u.recvType = some t) (hknown : KnownType s.nodes t)
    (hmiss : withSig s.nodes.rows (methodSig t (Ident.leafOf u.calleeSig)) = [])
    (hbase : base ∈ (ClassHierarchy.build s.nodes pbEdges).ancestors (callerPath s.nodes u.src) t) :
    withSig (CallIndex.build s us pbNodes pbEdges).byInheritedSig
        (methodSig base (Ident.leafOf u.calleeSig)) =
      withSig s.nodes.rows (methodSig base (Ident.leafOf u.calleeSig)) := by
  apply withSig_nodesBySignatures
  refine List.mem_flatMap.mpr ⟨u, List.mem_filter.mpr ⟨hu, hm⟩, ?_⟩
  rw [ht, Option.toList_some, List.flatMap_singleton]
  dsimp only
  rw [if_neg]
  · exact List.mem_map.mpr ⟨base, hbase, rfl⟩
  · rintro (h | h)
    · exact h ((@mem_knownGraphTypes s _ pbNodes pbEdges _ _ hu ht).mpr hknown)
    · have hrecv := @byRecvSig_methodSig s _ pbNodes pbEdges _ _ hu ht
      rw [hmiss] at hrecv
      rw [CallIndex.build] at hrecv
      dsimp only at hrecv
      rw [hrecv] at h
      exact absurd h (by decide)

theorem methodMatches_build (hm : u.isMethodCall = true) (ht : u.recvType = some t) :
    (CallIndex.build s us pbNodes pbEdges).methodMatches u t =
      methodCandidates s.nodes (ClassHierarchy.build s.nodes pbEdges) u t := by
  unfold CallIndex.methodMatches methodCandidates
  dsimp only
  rw [byRecvSig_methodSig hu ht]
  by_cases hmiss : withSig s.nodes.rows (methodSig t (Ident.leafOf u.calleeSig)) = []
  · have hnil : ¬ (!([] : List NodeRow).isEmpty) = true := by decide
    rw [hmiss, if_neg hnil, if_neg hnil]
    by_cases hknown : KnownType s.nodes t
    · rw [if_neg (not_not.mpr ((mem_knownGraphTypes hu ht).mpr hknown)),
        if_neg (not_not.mpr hknown)]
      congr 2
      apply List.map_congr_left
      intro base hbase
      exact byInheritedSig_methodSig hu hm ht hknown hmiss hbase
    · rw [if_pos ((mem_knownGraphTypes hu ht).not.mpr hknown), if_pos hknown]
  · have hne : (!(withSig s.nodes.rows (methodSig t (Ident.leafOf u.calleeSig))).isEmpty) = true := by
      rw [Bool.not_eq_true', List.isEmpty_eq_false_iff]
      exact hmiss
    rw [if_pos hne, if_pos hne]

theorem callMatches_build :
    (CallIndex.build s us pbNodes pbEdges).callMatches u =
      candidatesOf s.nodes (ClassHierarchy.build s.nodes pbEdges) u := by
  unfold CallIndex.callMatches candidatesOf
  by_cases hm : u.isMethodCall = true
  · rw [if_pos hm, if_pos hm]
    cases ht : u.recvType with
    | none => rfl
    | some t =>
      simp only [Option.toList_some, List.flatMap_singleton]
      exact methodMatches_build hu hm ht
  · rw [if_neg hm, if_neg hm]
    unfold CallIndex.freeMatches freeCandidates fallback
    dsimp only
    rw [bySig_calleeSig hu, bySig_altCalleeSig hu]
    by_cases hmiss : withSig s.nodes.rows u.calleeSig = []
    · rw [leafMatches_build hu hmiss]
    · have hne : (!(withSig s.nodes.rows u.calleeSig).isEmpty) = true := by
        rw [Bool.not_eq_true', List.isEmpty_eq_false_iff]
        exact hmiss
      rw [if_pos hne, if_pos hne]

theorem fieldTargets_build (hf : isField u = true) :
    (CallIndex.build s us pbNodes pbEdges).fieldTargets u =
      u.recvType.toList.flatMap fun t =>
        let sameLang := langScoped (callerLang s.nodes u.src)
          (withSig s.nodes.rows (fieldSig t (Ident.leafOf u.calleeSig)))
        if sameLang.length ≠ 1 then []
        else reachableFrom u (callerPath s.nodes u.src) (CrateGraph.build pbNodes pbEdges)
          sameLang := by
  unfold CallIndex.fieldTargets
  cases ht : u.recvType with
  | none => rfl
  | some t =>
    simp only [Option.toList_some, List.flatMap_singleton]
    rw [byFieldRecvSig_fieldSig hu hf ht]
    rfl

theorem targets_build (hf : isField u = false) {lsifCovered : List (String × Nat × String)}
    (hc : (callerPath s.nodes u.src, u.callerLine, Ident.leafOf u.calleeSig) ∉ lsifCovered) :
    (CallIndex.build s us pbNodes pbEdges).targets u lsifCovered =
      settle u (callerPath s.nodes u.src) s.fileImportPairs (CrateGraph.build pbNodes pbEdges)
        (hinted u (langScoped (callerLang s.nodes u.src)
          (candidatesOf s.nodes (ClassHierarchy.build s.nodes pbEdges) u))) := by
  unfold CallIndex.targets CallIndex.chosen
  rw [hf, if_neg Bool.false_ne_true]
  rw [callMatches_build hu]
  exact if_neg hc

end

theorem targets_covered (hf : isField u = false) {lsifCovered : List (String × Nat × String)}
    (hc : (callerPath s.nodes u.src, u.callerLine, Ident.leafOf u.calleeSig) ∈ lsifCovered) :
    (CallIndex.build s us pbNodes pbEdges).targets u lsifCovered = [] := by
  unfold CallIndex.targets
  rw [hf, if_neg Bool.false_ne_true]
  exact if_pos hc

theorem targets_field (hf : isField u = true) (lsifCovered : List (String × Nat × String)) :
    (CallIndex.build s us pbNodes pbEdges).targets u lsifCovered =
      (CallIndex.build s us pbNodes pbEdges).fieldTargets u := by
  unfold CallIndex.targets
  rw [if_pos hf]

theorem mem_callSites {lsifCovered : List (String × Nat × String)} {r : CallSite} :
    r ∈ (resolveUnresolvedCalls s us pbNodes pbEdges lsifCovered).2 ↔
      ∃ u ∈ us, ∃ n ∈ (CallIndex.build s us pbNodes pbEdges).targets u lsifCovered,
        (pushed u n).2 = r := by
  unfold resolveUnresolvedCalls resolvedPushes
  dsimp only
  rw [mem_destutter_ne, mem_sortBy]
  simp only [List.mem_map, List.mem_flatMap]
  constructor
  · rintro ⟨p, ⟨u, hu, n, hn, rfl⟩, rfl⟩
    exact ⟨u, hu, n, hn, rfl⟩
  · rintro ⟨u, hu, n, hn, rfl⟩
    exact ⟨_, ⟨u, hu, n, hn, rfl⟩, rfl⟩

theorem mem_callEdges {lsifCovered : List (String × Nat × String)} {e : Edge} :
    e ∈ (resolveUnresolvedCalls s us pbNodes pbEdges lsifCovered).1 ↔
      ((resolvedPushes s us pbNodes pbEdges lsifCovered).map Prod.fst).find?
        (fun x => edgeOrder x = edgeOrder e) = some e :=
  mem_dedupBy_sortBy

/-- The output for a caller. -/
def SameFor (c : NodeId) (out out' : List Edge × List CallSite) : Prop :=
  (∀ e, e.src = c → (e ∈ out.1 ↔ e ∈ out'.1)) ∧ ∀ r, r.1 = c → (r ∈ out.2 ↔ r ∈ out'.2)

theorem filter_pushes (c : NodeId) (lsifCovered : List (String × Nat × String)) :
    (resolvedPushes s us pbNodes pbEdges lsifCovered).filter (fun p => p.1.src = c) =
      (us.filter fun u => u.src = c).flatMap fun u =>
        ((CallIndex.build s us pbNodes pbEdges).targets u lsifCovered).map (pushed u) := by
  unfold resolvedPushes
  dsimp only
  have hgen : ∀ l : List UnresolvedCall,
      (l.flatMap fun u => ((CallIndex.build s us pbNodes pbEdges).targets u lsifCovered).map
        (pushed u)).filter (fun p => p.1.src = c) =
      (l.filter fun u => u.src = c).flatMap fun u =>
        ((CallIndex.build s us pbNodes pbEdges).targets u lsifCovered).map (pushed u) := by
    intro l
    induction l with
    | nil => rfl
    | cons v l ih =>
      rw [List.flatMap_cons, List.filter_append, ih]
      by_cases hv : v.src = c
      · rw [List.filter_cons_of_pos (by simpa using hv), List.flatMap_cons]
        congr 1
        apply List.filter_eq_self.mpr
        intro p hp
        obtain ⟨n, -, rfl⟩ := List.mem_map.mp hp
        exact decide_eq_true hv
      · rw [List.filter_cons_of_neg (by simpa using hv)]
        rw [List.filter_eq_nil_iff.mpr, List.nil_append]
        intro p hp
        obtain ⟨n, -, rfl⟩ := List.mem_map.mp hp
        exact fun h => hv (of_decide_eq_true h)
  exact hgen us

theorem sameFor_of_targets {s' : SqliteStore} {c : NodeId}
    {lsifCovered : List (String × Nat × String)}
    (h : ∀ u ∈ us, u.src = c → (CallIndex.build s us pbNodes pbEdges).targets u lsifCovered =
      (CallIndex.build s' us pbNodes pbEdges).targets u lsifCovered) :
    SameFor c (resolveUnresolvedCalls s us pbNodes pbEdges lsifCovered)
      (resolveUnresolvedCalls s' us pbNodes pbEdges lsifCovered) := by
  have hpush : (resolvedPushes s us pbNodes pbEdges lsifCovered).filter (fun p => p.1.src = c) =
      (resolvedPushes s' us pbNodes pbEdges lsifCovered).filter (fun p => p.1.src = c) := by
    rw [filter_pushes, filter_pushes]
    apply List.flatMap_congr
    intro u hu
    obtain ⟨hu, huc⟩ := List.mem_filter.mp hu
    rw [h u hu (of_decide_eq_true huc)]
  constructor
  · intro e he
    have hfind : ∀ l : List (Edge × CallSite),
        (l.map Prod.fst).find? (fun x => edgeOrder x = edgeOrder e) =
          ((l.filter fun p => p.1.src = c).map Prod.fst).find? fun x => edgeOrder x = edgeOrder e := by
      intro l
      rw [List.find?_map, List.find?_map, List.find?_filter]
      congr 2
      funext p
      by_cases hp : edgeOrder p.1 = edgeOrder e
      · have hsrc : p.1.src = c := (congrArg (fun k => (ofLex k).1) hp).trans he
        simp [hp, hsrc]
      · simp [hp]
    rw [mem_callEdges, mem_callEdges, hfind, hpush, ← hfind]
  · intro r hr
    rw [mem_callSites, mem_callSites]
    constructor
    · rintro ⟨u, hu, n, hn, rfl⟩
      exact ⟨u, hu, n, by rwa [← h u hu hr], rfl⟩
    · rintro ⟨u, hu, n, hn, rfl⟩
      exact ⟨u, hu, n, by rwa [h u hu hr], rfl⟩

theorem targets_of_sameFor {s' : SqliteStore} {lsifCovered : List (String × Nat × String)}
    (h : SameFor u.src (resolveUnresolvedCalls s [u] pbNodes pbEdges lsifCovered)
      (resolveUnresolvedCalls s' [u] pbNodes pbEdges lsifCovered)) {n : NodeRow}
    (hn : n ∈ (CallIndex.build s [u] pbNodes pbEdges).targets u lsifCovered) :
    ∃ n' ∈ (CallIndex.build s' [u] pbNodes pbEdges).targets u lsifCovered, n'.id = n.id := by
  have hmem := (h.2 (pushed u n).2 rfl).mp
    (mem_callSites.mpr ⟨u, List.mem_singleton_self u, n, hn, rfl⟩)
  obtain ⟨v, hv, n', hn', heq⟩ := mem_callSites.mp hmem
  rw [List.mem_singleton] at hv
  subst hv
  exact ⟨n', hn', congrArg (fun r => r.2.1) heq⟩

end Travsr.Daemon
