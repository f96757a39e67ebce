import Mathlib.Logic.Relation
import Travsr.Core.Pieces
import Travsr.Daemon.NativeCallNoninterference

namespace Travsr.Daemon

open Travsr.Core Travsr.Store Relational SortDedup Text

variable {pbNodes : List Node} {pbEdges : List Edge} {path dir : String}

/-! ### Crates and their dependencies -/

/-- A crate of the pass has the directory. -/
def IsCrateDir (pbNodes : List Node) (dir : String) : Prop :=
  ∃ id, CrateGraph.dirById pbNodes id = some dir

def pathPieces (path : String) : List (List Char) := splitOn (· = '/') path.toList

/-- The path lies in the directory by its components; the root directory has none. -/
def LiesIn (path dir : String) : Prop := dir = "" ∨ pathPieces dir <+: pathPieces path

/-- The longest crate directory that the path lies in. -/
structure IsCrateOf (pbNodes : List Node) (path dir : String) : Prop where
  isDir : IsCrateDir pbNodes dir
  lies : LiesIn path dir
  longest : ∀ d, IsCrateDir pbNodes d → LiesIn path d → byteLen d ≤ byteLen dir

/-- A `Depends` edge between two crates. -/
def DependsOn (pbNodes : List Node) (pbEdges : List Edge) (dir dep : String) : Prop :=
  ∃ e ∈ pbEdges, e.kind = .depends ∧ CrateGraph.dirById pbNodes e.src = some dir ∧
    CrateGraph.dirById pbNodes e.dst = some dep

theorem mem_direct {dep : String} :
    dep ∈ CrateGraph.direct pbNodes pbEdges dir ↔ DependsOn pbNodes pbEdges dir dep := by
  simp only [CrateGraph.direct, DependsOn, List.mem_filterMap, List.mem_filter,
    decide_eq_true_eq, and_assoc]

theorem reflTransGen_of_iterate {n : Nat} {seen : List String}
    (hseen : ∀ d ∈ seen, Relation.ReflTransGen (DependsOn pbNodes pbEdges) dir d) {d : String}
    (hd : d ∈ (CrateGraph.widen (CrateGraph.direct pbNodes pbEdges))^[n] seen) :
    Relation.ReflTransGen (DependsOn pbNodes pbEdges) dir d := by
  induction n generalizing seen with
  | zero => exact hseen d hd
  | succ n ih =>
    rw [Function.iterate_succ_apply] at hd
    apply ih _ hd
    intro x hx
    rw [CrateGraph.widen, List.mem_dedup, List.mem_append, List.mem_flatMap] at hx
    rcases hx with hx | ⟨y, hy, hxy⟩
    · exact hseen x hx
    · exact (hseen y hy).tail (mem_direct.mp hxy)

theorem dependsOn_of_reachable {d : String}
    (hd : d ∈ (CrateGraph.build pbNodes pbEdges).reachable dir) :
    Relation.ReflTransGen (DependsOn pbNodes pbEdges) dir d := by
  apply reflTransGen_of_iterate _ hd
  intro x hx
  rw [List.mem_singleton.mp hx]

theorem liesIn_iff :
    LiesIn path dir ↔ (dir.isEmpty || path = dir || startsWith path (dir ++ "/")) = true := by
  rw [LiesIn, pathPieces, pathPieces, splitOn_prefix_iff, Bool.or_eq_true, Bool.or_eq_true,
    String.isEmpty_iff, decide_eq_true_eq, or_assoc]
  apply or_congr Iff.rfl
  apply or_congr String.toList_inj
  rw [startsWith, List.isPrefixOf_iff_prefix, String.toList_append]
  constructor
  · rintro ⟨rest, hrest⟩
    exact ⟨rest, by simp [hrest]⟩
  · rintro ⟨rest, hrest⟩
    exact ⟨rest, by simp [← hrest]⟩

theorem LiesIn.toList_isPrefix (h : LiesIn path dir) : dir.toList <+: path.toList := by
  rcases h with rfl | h
  · exact List.nil_prefix
  · rcases splitOn_prefix_iff.mp h with heq | ⟨rest, hrest⟩
    · exact heq ▸ List.prefix_rfl
    · exact ⟨_, hrest.symm⟩

theorem mem_dirsByLenDesc :
    dir ∈ (CrateGraph.build pbNodes pbEdges).dirsByLenDesc ↔ IsCrateDir pbNodes dir := by
  show dir ∈ (sortBy _ ((pbNodes.map Node.id).dedup.filterMap (CrateGraph.dirById pbNodes))
    ).destutter (· ≠ ·) ↔ _
  rw [mem_destutter_ne, mem_sortBy, List.mem_filterMap]
  constructor
  · exact fun ⟨id, _, hdir⟩ => ⟨id, hdir⟩
  · intro ⟨id, hdir⟩
    refine ⟨id, ?_, hdir⟩
    obtain ⟨n, hn, hsome⟩ := List.exists_of_findSome?_eq_some hdir
    rw [List.mem_dedup]
    split_ifs at hsome with hid
    exact List.mem_map.mpr ⟨n, List.mem_reverse.mp hn, hid.1⟩

theorem sorted_dirsByLenDesc :
    (CrateGraph.build pbNodes pbEdges).dirsByLenDesc.Pairwise fun a b => byteLen b ≤ byteLen a :=
  (@sorted_sortBy _ _ _ (fun d : String => OrderDual.toDual (byteLen d)) _).sublist
    (List.destutter_sublist _ _)

theorem eq_of_prefix_byteLen {a b : String} (ha : a.toList <+: path.toList)
    (hb : b.toList <+: path.toList) (h : byteLen a = byteLen b) : a = b := by
  have hpre : ∀ x y : String, x.toList <+: y.toList → byteLen x = byteLen y → x = y := by
    intro x y ⟨rest, hrest⟩ hlen
    have hy : y = x ++ String.ofList rest := by
      apply String.toList_inj.mp
      rw [← hrest, String.toList_append, String.toList_ofList]
    rw [hy, byteLen, byteLen, String.utf8ByteSize_append] at hlen
    have hzero : (String.ofList rest).utf8ByteSize = 0 := by omega
    rw [hy, String.utf8ByteSize_eq_zero_iff.mp hzero, String.append_empty]
  rcases List.prefix_or_prefix_of_prefix ha hb with hle | hle
  · exact hpre a b hle h
  · exact (hpre b a hle h.symm).symm

theorem crateDirForPath_of_isCrateOf (h : IsCrateOf pbNodes path dir) :
    (CrateGraph.build pbNodes pbEdges).crateDirForPath path = some dir := by
  have hsome : ((CrateGraph.build pbNodes pbEdges).crateDirForPath path).isSome := by
    rw [CrateGraph.crateDirForPath, List.find?_isSome]
    exact ⟨dir, mem_dirsByLenDesc.mpr h.isDir, liesIn_iff.mp h.lies⟩
  obtain ⟨found, hfound⟩ := Option.isSome_iff_exists.mp hsome
  obtain ⟨hlies, before, after, hsplit, hskip⟩ := List.find?_eq_some_iff_append.mp hfound
  have hdir : IsCrateDir pbNodes found := by
    rw [← @mem_dirsByLenDesc pbNodes pbEdges, hsplit]
    simp
  have hle := h.longest found hdir (liesIn_iff.mpr hlies)
  have hmem := (@mem_dirsByLenDesc pbNodes pbEdges _).mpr h.isDir
  have hsorted := @sorted_dirsByLenDesc pbNodes pbEdges
  rw [hsplit] at hmem hsorted
  -- the directory does not stand before the one found, so it is not longer
  have hge : byteLen dir ≤ byteLen found := by
    rcases List.mem_append.mp hmem with hmem | hmem
    · have := hskip dir hmem
      rw [liesIn_iff.mp h.lies] at this
      cases this
    · rcases List.mem_cons.mp hmem with heq | hmem
      · rw [heq]
      · exact (List.pairwise_cons.mp (List.pairwise_append.mp hsorted).2.1).1 dir hmem
  rw [hfound, eq_of_prefix_byteLen (liesIn_iff.mpr hlies).toList_isPrefix h.lies.toList_isPrefix
    (Nat.le_antisymm hle hge)]

/-! ### The gates -/

/-- The target's crate is the caller's, or one it depends on. -/
def CrateFeasible (pbNodes : List Node) (pbEdges : List Edge) (callerPath path : String) : Prop :=
  ∀ caller crate, IsCrateOf pbNodes callerPath caller → IsCrateOf pbNodes path crate →
    caller = crate ∨ Relation.TransGen (DependsOn pbNodes pbEdges) caller crate

theorem crateFeasible_of_reachable {callerPath : String}
    (h : callTargetReachable callerPath path (CrateGraph.build pbNodes pbEdges) = true) :
    CrateFeasible pbNodes pbEdges callerPath path := by
  intro caller crate hcaller hcrate
  rw [callTargetReachable, crateDirForPath_of_isCrateOf hcaller,
    crateDirForPath_of_isCrateOf hcrate] at h
  split at h
  · cases h
  · simp only [Bool.or_eq_true, decide_eq_true_eq] at h
    rcases h with heq | hmem
    · exact .inl heq
    · rcases Relation.reflTransGen_iff_eq_or_transGen.mp (dependsOn_of_reachable hmem) with heq | htrans
      · exact .inl heq.symm
      · exact .inr htrans

/-- The qualifier is one of the names of the path, or is with hyphens for its underscores. -/
def NamesSegment (hint path : String) : Prop :=
  ∃ seg ∈ splitOn (fun c => c = '/' || c = '.') path.toList,
    seg = hint.toList ∨ seg = hint.toList.map fun c => if c = '_' then '-' else c

/-- Every call edge leads to another node that the caller's crate can reach, and every call with a
qualifier to definitions whose paths name it. -/
structure Feasible (s : SqliteStore) (us : List UnresolvedCall) (pbNodes : List Node)
    (pbEdges : List Edge) (lsifCovered : List (String × Nat × String)) : Prop where
  edges : ∀ e ∈ (resolveUnresolvedCalls s us pbNodes pbEdges lsifCovered).1, e.kind = .refCall →
    e.src ≠ e.dst ∧ ∃ n ∈ s.nodes.rows, n.id = e.dst ∧
      CrateFeasible pbNodes pbEdges (callerPath s.nodes e.src) n.vname.path ∧
      ("tests".toList ∈ pathPieces n.vname.path →
        "tests".toList ∈ pathPieces (callerPath s.nodes e.src))
  qualified : ∀ u ∈ us, isField u = false → ∀ hint, u.hintCrate = some hint →
    ∀ n ∈ (CallIndex.build s us pbNodes pbEdges).targets u lsifCovered,
      NamesSegment hint n.vname.path

/-- A call's qualifier stands in the path of a definition it names, but only inside a segment, and
the other gates let the definition through. -/
def MatchesInsideSegment (s : SqliteStore) (us : List UnresolvedCall) (pbNodes : List Node)
    (pbEdges : List Edge) (lsifCovered : List (String × Nat × String)) : Prop :=
  ∃ u ∈ us, isField u = false ∧
    (callerPath s.nodes u.src, u.callerLine, Ident.leafOf u.calleeSig) ∉ lsifCovered ∧
    ∃ hint, u.hintCrate = some hint ∧
      ∃ n ∈ candidatesOf s.nodes (ClassHierarchy.build s.nodes pbEdges) u,
        (callerLang s.nodes u.src = "" ∨ n.vname.language = callerLang s.nodes u.src) ∧
        hintMatches hint n.vname.path ∧ ¬ NamesSegment hint n.vname.path ∧ u.src ≠ n.id ∧
        callTargetReachable (callerPath s.nodes u.src) n.vname.path
          (CrateGraph.build pbNodes pbEdges)

variable {s : SqliteStore} {us : List UnresolvedCall} {u : UnresolvedCall} {n : NodeRow}
  {lsifCovered : List (String × Nat × String)}

theorem of_mem_settle {imports : List (String × String)} {crates : CrateGraph} {ds : List NodeRow}
    (h : n ∈ settle u path imports crates ds) :
    n ∈ ds ∧ u.src ≠ n.id ∧ callTargetReachable path n.vname.path crates = true := by
  cases hh : u.hintCrate with
  | some hint =>
    rw [settle_hint hh] at h
    exact mem_reachableFrom.mp h
  | none =>
    by_cases hb : bareFn u = true ∧ 1 < ds.length
    · obtain ⟨-, hd⟩ := (mem_settle_bare hh hb.1 hb.2).mp h
      obtain ⟨hmem, hgate⟩ := mem_reachableFrom.mp hd
      refine ⟨?_, hgate⟩
      rcases scopeBareCall_cases path imports ds with ⟨-, hs⟩ | ⟨-, ⟨-, hs⟩ | ⟨-, hs⟩⟩
      · rw [hs] at hmem
        exact (List.mem_filter.mp hmem).1
      · rw [hs] at hmem
        exact (List.mem_filter.mp hmem).1
      · rwa [hs] at hmem
    · obtain ⟨-, hd⟩ := (mem_settle_free hh hb).mp h
      exact mem_reachableFrom.mp hd

theorem of_mem_targets (hu : u ∈ us) (hf : isField u = false)
    (hn : n ∈ (CallIndex.build s us pbNodes pbEdges).targets u lsifCovered) :
    n ∈ s.nodes.rows ∧ u.src ≠ n.id ∧
      callTargetReachable (callerPath s.nodes u.src) n.vname.path
        (CrateGraph.build pbNodes pbEdges) = true := by
  by_cases hc : (callerPath s.nodes u.src, u.callerLine, Ident.leafOf u.calleeSig) ∈ lsifCovered
  · rw [targets_covered hf hc] at hn
    exact absurd hn List.not_mem_nil
  · rw [targets_build hu hf hc] at hn
    obtain ⟨hmem, hgate⟩ := of_mem_settle hn
    have hcand := (List.mem_filter.mp (List.mem_filter.mp hmem).1).1
    exact ⟨mem_of_mem_candidatesOf hf hcand, hgate⟩

theorem exists_push_of_callEdge {e : Edge}
    (he : e ∈ (resolveUnresolvedCalls s us pbNodes pbEdges lsifCovered).1)
    (hkind : e.kind = .refCall) :
    ∃ u ∈ us, isField u = false ∧
      ∃ n ∈ (CallIndex.build s us pbNodes pbEdges).targets u lsifCovered,
        u.src = e.src ∧ n.id = e.dst := by
  have hmem := List.mem_of_find?_eq_some (mem_callEdges.mp he)
  obtain ⟨p, hp, rfl⟩ := List.mem_map.mp hmem
  obtain ⟨u, hu, hp⟩ := List.mem_flatMap.mp hp
  obtain ⟨n, hn, rfl⟩ := List.mem_map.mp hp
  refine ⟨u, hu, ?_, n, hn, rfl, rfl⟩
  cases hf : isField u with
  | false => rfl
  | true => simp [pushed, hf] at hkind

theorem mem_targets_hint (hu : u ∈ us) (hf : isField u = false)
    (hc : (callerPath s.nodes u.src, u.callerLine, Ident.leafOf u.calleeSig) ∉ lsifCovered)
    {hint : String} (hh : u.hintCrate = some hint) :
    n ∈ (CallIndex.build s us pbNodes pbEdges).targets u lsifCovered ↔
      n ∈ candidatesOf s.nodes (ClassHierarchy.build s.nodes pbEdges) u ∧
        (callerLang s.nodes u.src = "" ∨ n.vname.language = callerLang s.nodes u.src) ∧
        hintMatches hint n.vname.path ∧ u.src ≠ n.id ∧
        callTargetReachable (callerPath s.nodes u.src) n.vname.path
          (CrateGraph.build pbNodes pbEdges) := by
  rw [targets_build hu hf hc, settle_hint hh, mem_reachableFrom, hinted, List.mem_filter,
    langScoped, List.mem_filter, hh]
  simp only [Option.all_some, Bool.or_eq_true, String.isEmpty_iff, decide_eq_true_eq, and_assoc]

/-- The calls are feasible exactly when no qualified call names a reachable definition whose path
holds the qualifier only inside a segment; the other gates always hold. -/
theorem feasible_iff (s : SqliteStore) (us : List UnresolvedCall) (pbNodes : List Node)
    (pbEdges : List Edge) (lsifCovered : List (String × Nat × String)) :
    Feasible s us pbNodes pbEdges lsifCovered ↔
      ¬ MatchesInsideSegment s us pbNodes pbEdges lsifCovered := by
  constructor
  · rintro h ⟨u, hu, hf, hc, hint, hh, n, hn, hlang, hmatch, hno, hne, hreach⟩
    exact hno (h.qualified u hu hf hint hh n
      ((mem_targets_hint hu hf hc hh).mpr ⟨hn, hlang, hmatch, hne, hreach⟩))
  · intro hno
    refine ⟨?_, ?_⟩
    · intro e he hkind
      obtain ⟨u, hu, hf, n, hn, hsrc, hdst⟩ := exists_push_of_callEdge he hkind
      obtain ⟨hmem, hne, hreach⟩ := of_mem_targets hu hf hn
      rw [hsrc] at hne hreach
      rw [hdst] at hne
      refine ⟨hne, n, hmem, hdst, crateFeasible_of_reachable hreach, fun ht => ?_⟩
      exact underTests_iff.mp (tests_of_reachable hreach (underTests_iff.mpr ht))
    · intro u hu hf hint hh n hn
      by_contra hseg
      by_cases hc : (callerPath s.nodes u.src, u.callerLine, Ident.leafOf u.calleeSig) ∈ lsifCovered
      · rw [targets_covered hf hc] at hn
        exact absurd hn List.not_mem_nil
      · obtain ⟨hcand, hlang, hmatch, hne, hreach⟩ := (mem_targets_hint hu hf hc hh).mp hn
        exact hno ⟨u, hu, hf, hc, hint, hh, n, hcand, hlang, hmatch, hseg, hne, hreach⟩

/-- A Rust caller, and a function of a file whose name only begins with the qualifier. -/
def rsMain : NodeRow :=
  ⟨1, ⟨"", "", "src/main.rs", "rust", "fn:main"⟩, "fn", "", some 1, some 9, false, .none, none⟩

def fsckRead : NodeRow :=
  ⟨2, ⟨"", "", "src/fsck.rs", "rust", "fn:read"⟩, "fn", "", some 1, some 2, false, .none, none⟩

def fsckStore : SqliteStore :=
  { SqliteStore.empty with nodes := ⟨⟨[rsMain, fsckRead], by decide⟩, by decide⟩ }

/-- `fs::read(…)`. -/
def fsRead : UnresolvedCall := ⟨1, "fn:read", none, some "fs", 7, some 4, false, none⟩

/-- A call of the standard library leads to the repository's `src/fsck.rs`. -/
theorem fs_reaches_fsck :
    (resolveUnresolvedCalls fsckStore [fsRead] [] [] []).1 = [⟨1, 2, .refCall, none, none⟩] ∧
      ¬ Feasible fsckStore [fsRead] [] [] [] := by
  have htargets : fsckRead ∈ (CallIndex.build fsckStore [fsRead] [] []).targets fsRead [] := by
    decide +kernel
  have hedge : (resolveUnresolvedCalls fsckStore [fsRead] [] [] []).1 =
      [⟨1, 2, .refCall, none, none⟩] := by decide +kernel
  refine ⟨hedge, fun h => ?_⟩
  have hseg := h.qualified fsRead (List.mem_singleton_self _) (by decide) "fs" rfl _ htargets
  have hno : ¬ NamesSegment "fs" "src/fsck.rs" := by
    unfold NamesSegment
    decide
  exact hno hseg

end Travsr.Daemon
