import Travsr.Daemon.NativeCallLeaks

namespace Travsr.Daemon

open Travsr.Core Travsr.Store Relational

variable {lang : String} {s s' s₁ s₂ : SqliteStore} {caller a b n d : NodeRow}
  {u : UnresolvedCall} {us : List UnresolvedCall} {pbEdges : List Edge}

theorem SameFor.symm {c : NodeId} {out out' : List Edge × List CallSite}
    (h : SameFor c out out') : SameFor c out' out :=
  ⟨fun e he => (h.1 e he).symm, fun r hr => (h.2 r hr).symm⟩

def alone (s : SqliteStore) (pbEdges : List Edge) (u : UnresolvedCall) : List NodeRow :=
  (CallIndex.build s [u] [] pbEdges).targets u []

theorem alone_call (hc : caller ∈ s.nodes) (hsrc : u.src = caller.id) (hf : isField u = false) :
    alone s pbEdges u = settle u caller.vname.path s.fileImportPairs (CrateGraph.build [] pbEdges)
      (eligible caller.vname.language u
        (candidatesOf s.nodes (ClassHierarchy.build s.nodes pbEdges) u)) := by
  rw [alone, targets_build (List.mem_singleton_self u) hf List.not_mem_nil,
    callerPath_of_mem hc hsrc, callerLang_of_mem hc hsrc]
  rfl

theorem alone_field {t : String} (hc : caller ∈ s.nodes) (hsrc : u.src = caller.id)
    (hf : isField u = true) (ht : u.recvType = some t) :
    alone s pbEdges u = soleField u caller (CrateGraph.build [] pbEdges) s.nodes.rows t := by
  rw [alone, targets_field hf, fieldTargets_build (List.mem_singleton_self u) hf,
    callerPath_of_mem hc hsrc, callerLang_of_mem hc hsrc, ht]
  simp only [Option.toList_some, List.flatMap_singleton]
  rfl

theorem Noninterfering.ids (h : Noninterfering s caller us) (hu : u ∈ us)
    (hsrc : u.src = caller.id) (h₁ : ForeignChange caller.vname.language s s₁)
    (h₂ : ForeignChange caller.vname.language s s₂) (hn : n ∈ alone s₁ pbEdges u) :
    ∃ n' ∈ alone s₂ pbEdges u, n'.id = n.id := by
  have hcalls : ∀ v ∈ [u], v ∈ us := fun v hv => by rwa [List.mem_singleton.mp hv]
  have hsame₁ := h [u] hcalls [] pbEdges [] s₁ h₁
  have hsame₂ := h [u] hcalls [] pbEdges [] s₂ h₂
  rw [← hsrc] at hsame₁ hsame₂
  obtain ⟨m, hm, hmid⟩ := targets_of_sameFor hsame₁.symm hn
  obtain ⟨n', hn', hid⟩ := targets_of_sameFor hsame₂ hm
  exact ⟨n', hn', hid.trans hmid⟩

theorem mem_eligible {candidates : List NodeRow} :
    d ∈ eligible lang u candidates ↔ d ∈ candidates ∧
      (lang.isEmpty = true ∨ d.vname.language = lang) ∧
      u.hintCrate.all (fun hint => hintMatches hint d.vname.path) = true := by
  rw [eligible, hinted, langScoped, List.mem_filter, List.mem_filter, Bool.or_eq_true,
    decide_eq_true_eq, and_assoc]

theorem nodup_eligible {candidates : List NodeRow} (h : candidates.Nodup) :
    (eligible lang u candidates).Nodup := (h.filter _).filter _

theorem nodup_keptRows : (keptRows lang s).Nodup := s.nodes.toTable.nodup_rows.filter _

section

variable (hg : Grown lang s s' a b)

include hg

theorem Grown.withSig_ne_nil : withSig s'.nodes.rows a.vname.signature ≠ [] := by
  apply List.ne_nil_of_mem (a := a)
  rw [mem_withSig, hg.rows]
  exact ⟨by simp, rfl⟩

theorem Grown.withSig_eq {sig : String} (ha : a.vname.signature ≠ sig)
    (hb : b.vname.signature ≠ sig) : withSig s'.nodes.rows sig = withSig (keptRows lang s) sig := by
  rw [hg.rows, withSig, withSig, List.filter_append]
  have hnil : [a, b].filter (fun n => n.vname.signature = sig) = [] := by simp [ha, hb]
  rw [hnil, List.append_nil]

theorem Grown.withSig_first {sig : String} (ha : a.vname.signature = sig)
    (hb : b.vname.signature ≠ sig) :
    withSig s'.nodes.rows sig = withSig (keptRows lang s) sig ++ [a] := by
  rw [hg.rows, withSig, withSig, List.filter_append]
  have hone : [a, b].filter (fun n => n.vname.signature = sig) = [a] := by simp [ha, hb]
  rw [hone]

end

/-- A foreign node of the first signature leaves a call of a caller with a language without a
target, when no kept node has the signature. -/
theorem alone_killed (hl : caller.vname.language ≠ "") (hc : caller ∈ s'.nodes)
    (hsrc : u.src = caller.id) (hf : isField u = false)
    (hg : Grown caller.vname.language s s' a b) (hsig : firstSig u = some a.vname.signature)
    (hmiss : withSig (keptRows caller.vname.language s) a.vname.signature = []) :
    alone s' pbEdges u = [] := by
  rw [alone_call hc hsrc hf, candidatesOf_first hf hsig hg.withSig_ne_nil, eligible_withSig hl,
    ← hg.change.nodes, hmiss]
  exact @settle_eq_nil _ _ _ [] _ _ (fun _ h => absurd h List.not_mem_nil) not_pickable_nil

theorem alone_hit (hl : caller.vname.language ≠ "") (hc : caller ∈ s.nodes)
    (hsrc : u.src = caller.id) (hf : isField u = false)
    (hch : ForeignChange caller.vname.language s s') {sig : String} (hsig : firstSig u = some sig)
    (hne : withSig (keptRows caller.vname.language s) sig ≠ []) :
    alone s' pbEdges u = settle u caller.vname.path s'.fileImportPairs
      (CrateGraph.build [] pbEdges)
      (eligible caller.vname.language u (withSig (keptRows caller.vname.language s) sig)) := by
  rw [alone_call (hch.mem_nodes hc not_foreign_caller) hsrc hf,
    candidatesOf_first hf hsig (hch.withSig_ne_nil hne), eligible_withSig hl, ← hch.nodes]

theorem eq_of_kept_id {n n' : NodeRow} (hn : n ∈ keptRows lang s) (hn' : n' ∈ keptRows lang s)
    (h : n.id = n'.id) : n = n' :=
  Table.eq_of_key (t := s.nodes.toTable) (mem_keptRows.mp hn).1 (mem_keptRows.mp hn').1 h

theorem Noninterfering.not_tied (h : Noninterfering s caller us) (hc : caller ∈ s.nodes)
    (hl : caller.vname.language ≠ "") (hu : u ∈ us) (hsrc : u.src = caller.id)
    (hf : isField u = false) {sig : String} (hsig : firstSig u = some sig)
    (hne : withSig (keptRows caller.vname.language s) sig ≠ [])
    (ht : Tied u caller.vname.path
      (eligible caller.vname.language u (withSig (keptRows caller.vname.language s) sig)))
    (hd : Pickable u caller.vname.path (nativePart caller.vname.language s).fileImportPairs
      (eligible caller.vname.language u (withSig (keptRows caller.vname.language s) sig)) d) :
    False := by
  have hnd : (eligible caller.vname.language u
      (withSig (keptRows caller.vname.language s) sig)).Nodup :=
    nodup_eligible (nodup_keptRows.filter _)
  obtain ⟨x, hx, hflip⟩ := @settle_of_tied _ _ _ _ _ [] hnd ht hd
  obtain ⟨s₁, a, b, hg, hpa, -, hpb, -⟩ :=
    exists_grown caller.vname.language s caller.vname.path "" x.vname.path ""
  have hkept : ∀ {s' n}, ForeignChange caller.vname.language s s' → n ∈ alone s' [] u →
      n ∈ keptRows caller.vname.language s := by
    intro s' n hch hn
    rw [alone_hit hl hc hsrc hf hch hsig hne] at hn
    have hpick := @pickable_of_mem_settle _ _ [] _ _ _ _ (fun _ h => absurd h List.not_mem_nil) hn
    exact (mem_withSig.mp (mem_eligible.mp hpick.mem).1).1
  have hiff := hflip (nativePart caller.vname.language s).fileImportPairs s₁.fileImportPairs
    (fun _ _ => Iff.rfl) (fun y _ => by
      rw [hg.imports, hpa, hpb, Prod.mk.injEq]
      simp only [true_and])
  rw [← alone_hit hl hc hsrc hf foreignChange_nativePart hsig hne,
    ← alone_hit hl hc hsrc hf hg.change hsig hne] at hiff
  have hback : ∀ {s₁ s₂}, ForeignChange caller.vname.language s s₁ →
      ForeignChange caller.vname.language s s₂ → d ∈ alone s₁ [] u → d ∈ alone s₂ [] u := by
    intro s₁ s₂ h₁ h₂ hd
    obtain ⟨d', hd', hid⟩ := h.ids hu hsrc h₁ h₂ hd
    rwa [← eq_of_kept_id (hkept h₂ hd') (hkept h₁ hd) hid]
  by_cases hmem : d ∈ alone (nativePart caller.vname.language s) [] u
  · exact hiff.mp hmem (hback foreignChange_nativePart hg.change hmem)
  · exact hmem (hback hg.change foreignChange_nativePart (not_not.mp fun hno => hmem (hiff.mpr hno)))

theorem exists_other (x y : String) : ∃ z : String, z ≠ x ∧ z ≠ y := by
  have hlen : (x ++ y ++ "x").toList.length = x.toList.length + y.toList.length + 1 := by
    rw [String.toList_append, String.toList_append, List.length_append, List.length_append]
    rfl
  refine ⟨x ++ y ++ "x", fun h => ?_, fun h => ?_⟩ <;> rw [h] at hlen <;> omega

theorem nodup_fallback {rows : List NodeRow} (h : rows.Nodup) : (fallback rows u).Nodup := by
  unfold fallback
  dsimp only
  split_ifs
  · cases u.altCalleeSig with
    | none => exact List.nodup_nil
    | some alt =>
      simp only [Option.toList_some, List.flatMap_singleton]
      exact h.filter _
  · unfold leafPool
    split_ifs
    · exact List.nodup_nil
    · exact h.filter _

theorem exists_fallback (hl : caller.vname.language ≠ "") (hc : caller ∈ s.nodes)
    (hsrc : u.src = caller.id) (hf : isField u = false) (hm : ¬ u.isMethodCall = true)
    (hmiss : withSig (keptRows caller.vname.language s) u.calleeSig = [])
    (hd : Pickable u caller.vname.path (nativePart caller.vname.language s).fileImportPairs
      (eligible caller.vname.language u (fallback (keptRows caller.vname.language s) u)) d) :
    ∃ s', ForeignChange caller.vname.language s s' ∧ d ∈ alone s' [] u := by
  obtain ⟨other, ho1, ho2⟩ := exists_other u.calleeSig (u.altCalleeSig.getD "")
  obtain ⟨s', a, b, hg, hpa, hsa, hpb, hsb⟩ :=
    exists_grown caller.vname.language s caller.vname.path other d.vname.path other
  refine ⟨s', hg.change, ?_⟩
  have hmiss' : withSig s'.nodes.rows u.calleeSig = [] := by
    rw [hg.withSig_eq (by rwa [hsa]) (by rwa [hsb]), hmiss]
  have halt : u.altCalleeSig.toList.flatMap (withSig s'.nodes.rows) =
      u.altCalleeSig.toList.flatMap (withSig (keptRows caller.vname.language s)) := by
    cases hua : u.altCalleeSig with
    | none => rfl
    | some alt =>
      rw [hua, Option.getD_some] at ho2
      simp only [Option.toList_some, List.flatMap_singleton]
      exact hg.withSig_eq (by rwa [hsa]) (by rwa [hsb])
  have hcand : eligible caller.vname.language u
      (candidatesOf s'.nodes (ClassHierarchy.build s'.nodes []) u) =
        eligible caller.vname.language u (fallback (keptRows caller.vname.language s) u) := by
    rw [candidatesOf, if_neg hm, freeCandidates]
    rw [hmiss', if_neg nil_isEmpty, fallback, fallback, halt]
    split_ifs
    · rfl
    · rw [eligible_leafPool hl, ← hg.change.nodes]
  rw [alone_call (hg.change.mem_nodes hc not_foreign_caller) hsrc hf, hcand]
  refine mem_settle_of_pickable (nodup_eligible ?_) (fun x _ => ?_) hd
  · exact nodup_fallback nodup_keptRows
  · rw [hg.imports, hpa, hpb, Prod.mk.injEq]
    simp only [true_and]

theorem classAt_of_mem {nodes : NodeTable} {name : String} (hn : n ∈ nodes)
    (hsig : n.vname.signature = "class:" ++ name) :
    ClassHierarchy.classAt nodes n.id = some (n.vname.path, name) := by
  have hstrip : Text.stripPrefix "class:" n.vname.signature.toList = some name.toList := by
    rw [hsig, String.toList_append, Text.stripPrefix,
      if_pos (List.isPrefixOf_iff_prefix.mpr (List.prefix_append _ _)), List.drop_left]
  rw [ClassHierarchy.classAt, Table.find?_of_mem (t := nodes.toTable) hn, Option.bind_some, hstrip,
    Option.map_some, String.ofList_toList]

theorem ancestors_of_edge {nodes : NodeTable} {t base : String} (ha : a ∈ nodes) (hb : b ∈ nodes)
    (hta : a.vname.signature = "class:" ++ t) (htb : b.vname.signature = "class:" ++ base)
    (hne : base ≠ t) :
    (ClassHierarchy.build nodes [⟨a.id, b.id, .isImplementation, none, none⟩]).ancestors
      a.vname.path t = [base] := by
  have hbases : ∀ cls, (ClassHierarchy.build nodes
      [⟨a.id, b.id, .isImplementation, none, none⟩]).bases a.vname.path cls =
        if cls = t then [base] else [] := by
    intro cls
    unfold ClassHierarchy.build
    dsimp only
    by_cases hcls : cls = t
    · subst hcls
      rw [if_pos rfl, List.filter_cons_of_pos (by simp [classAt_of_mem ha hta]), List.filter_nil,
        List.filterMap_cons_some (by rw [classAt_of_mem hb htb]; rfl), List.filterMap_nil]
    · rw [if_neg hcls, List.filter_cons_of_neg (by simp [classAt_of_mem ha hta, Ne.symm hcls]),
        List.filter_nil, List.filterMap_nil]
  have hround : ∀ depth, (ClassHierarchy.build nodes
      [⟨a.id, b.id, .isImplementation, none, none⟩]).ancestorsFrom a.vname.path t (depth + 2) []
        [t] = [base] := by
    intro depth
    simp [ClassHierarchy.ancestorsFrom, hbases, ClassHierarchy.meet, hne]
  exact hround 6

/-- A method call that some class's method could answer is answered by it in some changed store. -/
theorem exists_inherited (hc : caller ∈ s.nodes)
    (hsrc : u.src = caller.id) (hf : isField u = false) (hm : u.isMethodCall = true)
    {t base : String} (ht : u.recvType = some t)
    (hmiss : withSig (keptRows caller.vname.language s)
      (methodSig t (Ident.leafOf u.calleeSig)) = [])
    (hd : Pickable u caller.vname.path (nativePart caller.vname.language s).fileImportPairs
      (eligible caller.vname.language u (withSig (keptRows caller.vname.language s)
        (methodSig base (Ident.leafOf u.calleeSig)))) d) :
    ∃ s' pbEdges, ForeignChange caller.vname.language s s' ∧ d ∈ alone s' pbEdges u := by
  have hmem := mem_eligible.mp hd.mem
  have hne : base ≠ t := by
    intro h
    rw [h, hmiss] at hmem
    exact absurd hmem.1 List.not_mem_nil
  obtain ⟨s', a, b, hg, hpa, hsa, hpb, hsb⟩ :=
    exists_grown caller.vname.language s caller.vname.path ("class:" ++ t) "" ("class:" ++ base)
  have ha : a ∈ s'.nodes := by
    have : a ∈ s'.nodes.rows := by rw [hg.rows]; simp
    exact this
  have hb : b ∈ s'.nodes := by
    have : b ∈ s'.nodes.rows := by rw [hg.rows]; simp
    exact this
  have hother : ∀ x y leaf : String, "class:" ++ x ≠ methodSig y leaf := by
    intro x y leaf h
    have := congrArg (fun z => z.toList.head?) h
    simp [methodSig] at this
  have hrows : ∀ cls, withSig s'.nodes.rows (methodSig cls (Ident.leafOf u.calleeSig)) =
      withSig (keptRows caller.vname.language s) (methodSig cls (Ident.leafOf u.calleeSig)) :=
    fun cls => hg.withSig_eq (by rw [hsa]; exact hother _ _ _) (by rw [hsb]; exact hother _ _ _)
  have hknown : KnownType s'.nodes t := ⟨a, ha, by rw [hsa]; simp [typeSigs]⟩
  have hfind : [withSig (keptRows caller.vname.language s)
      (methodSig base (Ident.leafOf u.calleeSig))].find? (fun m => !m.isEmpty) =
        some (withSig (keptRows caller.vname.language s)
          (methodSig base (Ident.leafOf u.calleeSig))) :=
    List.find?_cons_of_pos (not_isEmpty_iff.mpr (List.ne_nil_of_mem hmem.1))
  have hcand : candidatesOf s'.nodes
      (ClassHierarchy.build s'.nodes [⟨a.id, b.id, .isImplementation, none, none⟩]) u =
        withSig (keptRows caller.vname.language s)
          (methodSig base (Ident.leafOf u.calleeSig)) := by
    rw [candidatesOf, if_pos hm, ht, Option.toList_some, List.flatMap_singleton, methodCandidates]
    rw [hrows, hmiss, if_neg nil_isEmpty, if_neg (not_not.mpr hknown),
      callerPath_of_mem (hg.change.mem_nodes hc not_foreign_caller) hsrc, ← hpa,
      ancestors_of_edge ha hb hsa hsb hne, List.map_singleton, hrows, hfind, Option.getD_some]
  refine ⟨s', [⟨a.id, b.id, .isImplementation, none, none⟩], hg.change, ?_⟩
  rw [alone_call (hg.change.mem_nodes hc not_foreign_caller) hsrc hf, hcand]
  have hbare : ¬ Tied u caller.vname.path (eligible caller.vname.language u
      (withSig (keptRows caller.vname.language s)
        (methodSig base (Ident.leafOf u.calleeSig)))) := by
    rintro ⟨-, hb, -⟩
    rw [bareFn, hm] at hb
    exact absurd hb (by simp)
  rw [settle_of_not_tied hbare _ ((nativePart caller.vname.language s).fileImportPairs ++
    [(caller.vname.path, d.vname.path)])]
  refine mem_settle_of_pickable (nodup_eligible (nodup_keptRows.filter _)) (fun x _ => ?_) hd
  rw [List.mem_append, List.mem_singleton, Prod.mk.injEq]
  simp only [true_and]

/-- A later tier that could answer a call is switched on by one change and off by another. -/
theorem Noninterfering.not_later (h : Noninterfering s caller us) (hc : caller ∈ s.nodes)
    (hl : caller.vname.language ≠ "") (hu : u ∈ us) (hsrc : u.src = caller.id)
    (hf : isField u = false) {sig : String} (hsig : firstSig u = some sig)
    (hmiss : withSig (keptRows caller.vname.language s) sig = []) {candidates : List NodeRow}
    (hlater : Later (keptRows caller.vname.language s) u candidates)
    (hd : Pickable u caller.vname.path (nativePart caller.vname.language s).fileImportPairs
      (eligible caller.vname.language u candidates) d) : False := by
  have hon : ∃ s' pbEdges, ForeignChange caller.vname.language s s' ∧ d ∈ alone s' pbEdges u := by
    unfold Later at hlater
    by_cases hm : u.isMethodCall = true
    · rw [if_pos hm] at hlater
      obtain ⟨base, rfl⟩ := hlater
      rw [firstSig_method hf hm] at hsig
      obtain ⟨t, ht, rfl⟩ := Option.map_eq_some_iff.mp hsig
      exact exists_inherited hc hsrc hf hm ht hmiss hd
    · rw [if_neg hm] at hlater
      subst hlater
      rw [firstSig_free hf hm] at hsig
      obtain rfl := Option.some.inj hsig
      obtain ⟨s', hch, hmem⟩ := exists_fallback hl hc hsrc hf hm hmiss hd
      exact ⟨s', [], hch, hmem⟩
  obtain ⟨s₁, pbEdges, h₁, hmem⟩ := hon
  obtain ⟨s₂, a, b, hg, -, hsa, -, -⟩ := exists_grown caller.vname.language s "" sig "" ""
  rw [← hsa] at hsig hmiss
  obtain ⟨n, hn, -⟩ := h.ids hu hsrc h₁ hg.change hmem
  rw [alone_killed hl (hg.change.mem_nodes hc not_foreign_caller) hsrc hf hg hsig hmiss] at hn
  exact absurd hn List.not_mem_nil

theorem insulatedNamed_of_noninterfering (h : Noninterfering s caller us) (hc : caller ∈ s.nodes)
    (hl : caller.vname.language ≠ "") (hu : u ∈ us) (hsrc : u.src = caller.id) :
    InsulatedNamed s caller u := by
  cases hf : isField u with
  | true => exact .inl hf
  | false =>
    right
    intro sig hsig
    split_ifs with hmiss
    · exact fun ht d hd => h.not_tied hc hl hu hsrc hf hsig hmiss ht hd
    · intro candidates hlater d hd
      exact h.not_later hc hl hu hsrc hf hsig (not_not.mp hmiss) hlater hd

theorem mem_of_mem_fallback {rows : List NodeRow} (h : n ∈ fallback rows u) : n ∈ rows := by
  unfold fallback at h
  dsimp only at h
  split_ifs at h
  · obtain ⟨alt, -, hn⟩ := List.mem_flatMap.mp h
    exact (mem_withSig.mp hn).1
  · unfold leafPool at h
    split_ifs at h
    · exact absurd h List.not_mem_nil
    · exact (List.mem_filter.mp h).1

theorem mem_of_mem_candidatesOf {nodes : NodeTable} {c : ClassHierarchy} (hf : isField u = false)
    (h : n ∈ candidatesOf nodes c u) : n ∈ nodes.rows := by
  cases hsig : firstSig u with
  | none =>
    rw [candidatesOf_none hf hsig] at h
    exact absurd h List.not_mem_nil
  | some sig =>
    by_cases hne : withSig nodes.rows sig = []
    · rcases candidatesOf_later (h := c) hf hsig hne with hnil | hlater
      · rw [hnil] at h
        exact absurd h List.not_mem_nil
      · unfold Later at hlater
        split_ifs at hlater
        · obtain ⟨base, hbase⟩ := hlater
          rw [hbase] at h
          exact (mem_withSig.mp h).1
        · rw [hlater] at h
          exact mem_of_mem_fallback h
    · rw [candidatesOf_first hf hsig hne] at h
      exact (mem_withSig.mp h).1

theorem mem_of_mem_alone (hc : caller ∈ s.nodes) (hsrc : u.src = caller.id)
    (h : n ∈ alone s pbEdges u) : n ∈ s.nodes.rows := by
  cases hf : isField u with
  | true =>
    cases ht : u.recvType with
    | none =>
      rw [alone, targets_field hf, fieldTargets_build (List.mem_singleton_self u) hf, ht] at h
      exact absurd h List.not_mem_nil
    | some t =>
      rw [alone_field hc hsrc hf ht] at h
      unfold soleField at h
      dsimp only at h
      split_ifs at h
      · exact absurd h List.not_mem_nil
      · have hmem := (mem_reachableFrom.mp h).1
        exact (mem_withSig.mp (List.mem_filter.mp hmem).1).1
  | false =>
    rw [alone_call hc hsrc hf] at h
    have hpick := @pickable_of_mem_settle _ _ [] _ _ _ _ (fun _ h => absurd h List.not_mem_nil) h
    exact mem_of_mem_candidatesOf hf (mem_eligible.mp hpick.mem).1

theorem Noninterfering.not_brought (h : Noninterfering s caller us) (hc : caller ∈ s.nodes)
    (hu : u ∈ us) (hsrc : u.src = caller.id) (hg : Grown caller.vname.language s s' a b) :
    a ∉ alone s' pbEdges u := by
  intro ha
  obtain ⟨n, hn, hid⟩ := h.ids hu hsrc hg.change foreignChange_nativePart ha
  have hc' := (foreignChange_nativePart (s := s)).mem_nodes hc not_foreign_caller
  have hrow : n ∈ keptRows caller.vname.language s := mem_of_mem_alone hc' hsrc hn
  exact hg.fresh n hrow hid

/-- The nodes of a signature that a bare call looks at first: those in the caller's file. -/
def ownFile (u : UnresolvedCall) (path : String) (rows : List NodeRow) (sig : String) :
    List NodeRow :=
  (withSig rows sig).filter fun n => bareFn u = true → n.vname.path = path

theorem ownFile_of_bare {path sig : String} {rows : List NodeRow} (hb : bareFn u = true) :
    ownFile u path rows sig = (withSig rows sig).filter fun n => n.vname.path = path :=
  List.filter_congr fun n _ => by simp [hb]

theorem ownFile_of_not_bare {path sig : String} {rows : List NodeRow} (hb : ¬ bareFn u = true) :
    ownFile u path rows sig = withSig rows sig :=
  List.filter_eq_self.mpr fun n _ => by simp [hb]

theorem scope_ownFile {path sig : String} {rows : List NodeRow} {imports : List (String × String)}
    (hb : bareFn u = true) (hne : ownFile u path rows sig ≠ []) :
    scopeBareCall path imports (withSig rows sig) = ownFile u path rows sig := by
  rw [ownFile_of_bare hb] at hne ⊢
  obtain ⟨x, hx⟩ := List.exists_mem_of_ne_nil _ hne
  obtain ⟨hx, hxp⟩ := List.mem_filter.mp hx
  rcases scopeBareCall_cases path imports (withSig rows sig) with ⟨-, hs⟩ | ⟨hnone, -⟩
  · exact hs
  · exact absurd (of_decide_eq_true hxp) (hnone x hx)

section

variable (hl : caller.vname.language = "") (hc : caller ∈ s.nodes) (hsrc : u.src = caller.id)
  {sig : String} (hsig : firstSig u = some sig)

include hl hc hsrc hsig

theorem alone_nameless (hf : isField u = false) (hh : u.hintCrate = none)
    (hne : withSig s.nodes.rows sig ≠ []) :
    alone s pbEdges u = settle u caller.vname.path s.fileImportPairs (CrateGraph.build [] pbEdges)
      (withSig s.nodes.rows sig) := by
  rw [alone_call hc hsrc hf, candidatesOf_first hf hsig hne, eligible, hl, langScoped_empty,
    hinted_of_none hh]

theorem alone_nameless_field (hf : isField u = true) :
    alone s pbEdges u = if (withSig s.nodes.rows sig).length ≠ 1 then []
      else reachableFrom u caller.vname.path (CrateGraph.build [] pbEdges)
        (withSig s.nodes.rows sig) := by
  rw [firstSig, if_pos hf] at hsig
  obtain ⟨t, ht, rfl⟩ := Option.map_eq_some_iff.mp hsig
  rw [alone_field hc hsrc hf ht, soleField, hl, langScoped_empty]

theorem mem_alone_of_own (hh : u.hintCrate = none ∨ isField u = true)
    (hown : ownFile u caller.vname.path s.nodes.rows sig = [d])
    (hd : Callable u caller.vname.path d) : d ∈ alone s pbEdges u := by
  have hreach : d ∈ reachableFrom u caller.vname.path (CrateGraph.build [] pbEdges) [d] :=
    mem_reachableFrom_noCrates.mpr ⟨List.mem_singleton_self d, hd⟩
  have hmem : d ∈ withSig s.nodes.rows sig := by
    have : d ∈ ownFile u caller.vname.path s.nodes.rows sig := by
      rw [hown]
      exact List.mem_singleton_self d
    exact (List.mem_filter.mp this).1
  cases hf : isField u with
  | true =>
    rw [ownFile_of_not_bare (bareFn_of_isField hf)] at hown
    rw [alone_nameless_field hl hc hsrc hsig hf, hown, if_neg (by simp)]
    exact hreach
  | false =>
    have hh := hh.resolve_right (by rw [hf]; exact Bool.false_ne_true)
    rw [alone_nameless hl hc hsrc hsig hf hh (List.ne_nil_of_mem hmem)]
    by_cases hb : bareFn u = true ∧ 1 < (withSig s.nodes.rows sig).length
    · rw [mem_settle_bare hh hb.1 hb.2, scope_ownFile hb.1 (by rw [hown]; simp), hown]
      exact ⟨rfl, hreach⟩
    · have hall : withSig s.nodes.rows sig = [d] := by
        by_cases hbare : bareFn u = true
        · have hle : ¬ 1 < (withSig s.nodes.rows sig).length := fun h => hb ⟨hbare, h⟩
          have hpos := List.length_pos_of_mem hmem
          obtain ⟨x, hx⟩ := List.length_eq_one_iff.mp (show (withSig s.nodes.rows sig).length = 1 by omega)
          rw [hx] at hmem ⊢
          rw [List.mem_singleton.mp hmem]
        · rw [← ownFile_of_not_bare hbare, hown]
      rw [mem_settle_free hh hb, hall]
      exact ⟨rfl, hreach⟩

theorem alone_of_two (hh : u.hintCrate = none ∨ isField u = true)
    (hown : 1 < (ownFile u caller.vname.path s.nodes.rows sig).length) :
    alone s pbEdges u = [] := by
  have hle : (ownFile u caller.vname.path s.nodes.rows sig).length ≤
      (withSig s.nodes.rows sig).length := List.length_filter_le _ _
  cases hf : isField u with
  | true =>
    rw [alone_nameless_field hl hc hsrc hsig hf, if_pos (by omega)]
  | false =>
    have hh := hh.resolve_right (by rw [hf]; exact Bool.false_ne_true)
    have hne : withSig s.nodes.rows sig ≠ [] := by
      intro hnil
      rw [hnil, List.length_nil] at hle
      omega
    rw [alone_nameless hl hc hsrc hsig hf hh hne]
    by_cases hb : bareFn u = true ∧ 1 < (withSig s.nodes.rows sig).length
    · have hown' : ownFile u caller.vname.path s.nodes.rows sig ≠ [] := by
        intro hnil
        rw [hnil] at hown
        simp at hown
      rw [settle_bare hh hb.1 hb.2, scope_ownFile hb.1 hown', if_pos (by omega)]
    · rw [settle_free hh hb, if_pos (by omega)]

end

/-- A node of the first signature in the caller's file answers or silences a call of a caller
without a language. -/
theorem insulatedNameless_of_noninterfering (h : Noninterfering s caller us) (hc : caller ∈ s.nodes)
    (hl : caller.vname.language = "") (hu : u ∈ us) (hsrc : u.src = caller.id) :
    InsulatedNameless s caller u := by
  intro sig hsig
  obtain ⟨other, hother, -⟩ := exists_other sig sig
  have hown : ∀ {s' a b}, Grown caller.vname.language s s' a b → a.vname.signature = sig →
      b.vname.signature = other → a.vname.path = caller.vname.path →
      ownFile u caller.vname.path s'.nodes.rows sig =
        ownFile u caller.vname.path (keptRows caller.vname.language s) sig ++ [a] := by
    intro s' a b hg hsa hsb hpa
    rw [ownFile, hg.withSig_first hsa (by rwa [hsb]), List.filter_append]
    have hone : [a].filter (fun n => decide (bareFn u = true → n.vname.path = caller.vname.path)) =
        [a] := List.filter_eq_self.mpr fun n hn => by
      rw [List.mem_singleton.mp hn]
      exact decide_eq_true fun _ => hpa
    rw [hone]
    rfl
  have hkept : caller ∈ keptRows caller.vname.language s := mem_keptRows.mpr ⟨hc, not_foreign_caller⟩
  split_ifs with hh
  · obtain ⟨s₁, a, b, hg, hpa, hsa, -, hsb⟩ :=
      exists_grown caller.vname.language s caller.vname.path sig "" other
    have hc₁ := hg.change.mem_nodes hc not_foreign_caller
    have hown₁ := hown hg hsa hsb hpa
    rw [hl] at hown₁
    refine ⟨fun hnil => ?_, fun d hd hcall => ?_⟩
    · refine @Noninterfering.not_brought _ _ _ _ _ _ _ [] h hc hu hsrc hg
        (mem_alone_of_own hl hc₁ hsrc hsig hh ?_ ⟨?_, fun ht => by rwa [hpa] at ht⟩)
      · rw [hown₁, ownFile, hnil]
        rfl
      · rw [hsrc]
        exact hg.fresh caller hkept
    · have hc₀ := (foreignChange_nativePart (s := s)).mem_nodes hc not_foreign_caller
      have hown₀ : ownFile u caller.vname.path
          (nativePart caller.vname.language s).nodes.rows sig = [d] := by
        rw [hl]
        exact hd
      have hd₀ := @mem_alone_of_own _ _ _ _ [] hl hc₀ hsrc _ hsig hh hown₀ hcall
      obtain ⟨n, hn, -⟩ := h.ids hu hsrc foreignChange_nativePart hg.change hd₀
      rw [alone_of_two hl hc₁ hsrc hsig hh (by rw [hown₁, ownFile, hd]; simp)] at hn
      exact absurd hn List.not_mem_nil
  · rw [not_or] at hh
    have hf : isField u = false := by
      rw [Bool.eq_false_iff]
      exact hh.2
    intro p hp htests
    obtain ⟨s₁, a, b, hg, hpa, hsa, -, -⟩ := exists_grown caller.vname.language s p sig "" other
    have hc₁ := hg.change.mem_nodes hc not_foreign_caller
    refine @Noninterfering.not_brought _ _ _ _ _ _ _ [] h hc hu hsrc hg ?_
    obtain ⟨hint, hhint⟩ := Option.ne_none_iff_exists'.mp hh.1
    have hne := hg.withSig_ne_nil
    rw [hsa] at hne
    rw [alone_call hc₁ hsrc hf, candidatesOf_first hf hsig hne, settle_hint hhint]
    refine mem_reachableFrom_noCrates.mpr ⟨mem_eligible.mpr ⟨?_, .inl ?_, by rwa [hpa]⟩, ?_, ?_⟩
    · rw [mem_withSig, hg.rows]
      exact ⟨by simp, hsa⟩
    · rw [hl]
      rfl
    · rw [hsrc]
      exact hg.fresh caller hkept
    · rwa [hpa]

/-- Changes of the nodes of other languages never show in what is emitted for the calls of a caller
if and only if every one of its calls is insulated. -/
theorem native_noninterference_iff (hc : caller ∈ s.nodes) :
    Noninterfering s caller us ↔ ∀ u ∈ us, u.src = caller.id → Insulated s caller u := by
  constructor
  · intro h u hu hsrc
    unfold Insulated
    split_ifs with hl
    · exact insulatedNameless_of_noninterfering h hc hl hu hsrc
    · exact insulatedNamed_of_noninterfering h hc hl hu hsrc
  · exact noninterfering_of_insulated hc

/-- A Python function, a Python function whose name reads as a class, and a TypeScript class of that
name. -/
def pyMain : NodeRow :=
  ⟨1, ⟨"", "", "app.py", "python", "fn:main"⟩, "fn", "", some 1, some 9, false, .none, none⟩

def pyFoo : NodeRow :=
  ⟨2, ⟨"", "", "foo.py", "python", "fn:Foo"⟩, "fn", "", some 1, some 2, false, .none, none⟩

def tsFoo : NodeRow :=
  ⟨3, ⟨"", "", "foo.ts", "typescript", "class:Foo"⟩, "class", "", some 1, some 2, false, .none, none⟩

def pythonStore : SqliteStore :=
  { SqliteStore.empty with nodes := ⟨⟨[pyMain, pyFoo], by decide⟩, by decide⟩ }

def polyglotStore : SqliteStore :=
  { SqliteStore.empty with nodes := ⟨⟨[pyMain, pyFoo, tsFoo], by decide⟩, by decide⟩ }

/-- `Foo()` in Python, read as a class first and as a function second. -/
def fooCall : UnresolvedCall := ⟨1, "class:Foo", some "fn:Foo", none, 7, some 4, false, none⟩

/-- `self.count` in Python, of a receiver of the class `Foo`. -/
def countField : UnresolvedCall := ⟨1, "field:count", none, none, 8, none, false, some "Foo"⟩

/-- A field access is insulated. -/
theorem countField_noninterfering : Noninterfering pythonStore pyMain [countField] := by
  apply (native_noninterference_iff (List.mem_cons_self (a := pyMain) (l := [pyFoo]))).mpr
  intro u hu _
  rw [List.mem_singleton.mp hu, Insulated, if_neg (by decide)]
  exact .inl (by decide)

/-- The TypeScript class takes the edge of the Python call away. -/
theorem foreign_class_suppresses :
    ForeignChange pyMain.vname.language pythonStore polyglotStore ∧
      (resolveUnresolvedCalls pythonStore [fooCall] [] [] []).1 =
        [⟨1, 2, .refCall, none, none⟩] ∧
      (resolveUnresolvedCalls polyglotStore [fooCall] [] [] []).1 = [] ∧
      ¬ Noninterfering pythonStore pyMain [fooCall] := by
  have hch : ForeignChange pyMain.vname.language pythonStore polyglotStore :=
    ⟨by decide, fun _ he _ => absurd he List.not_mem_nil, fun _ he _ => absurd he List.not_mem_nil⟩
  have hone : (resolveUnresolvedCalls pythonStore [fooCall] [] [] []).1 =
      [⟨1, 2, .refCall, none, none⟩] := by decide +kernel
  have hnone : (resolveUnresolvedCalls polyglotStore [fooCall] [] [] []).1 = [] := by
    decide +kernel
  refine ⟨hch, hone, hnone, fun h => ?_⟩
  have hsame := (h [fooCall] (fun _ hu => hu) [] [] [] polyglotStore hch).1
    ⟨1, 2, .refCall, none, none⟩ rfl
  rw [hone, hnone] at hsame
  exact absurd (hsame.mp (List.mem_singleton_self _)) List.not_mem_nil

end Travsr.Daemon
