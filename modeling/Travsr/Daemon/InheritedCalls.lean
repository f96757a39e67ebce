import Travsr.Lib.Linearisation
import Travsr.Daemon.FeasibleCalls

namespace Travsr.Daemon

open Travsr.Core Travsr.Store Relational Bfs Linearisation

/-- The classes that one file declares, each with its bases in the order of its declaration. -/
structure FileHierarchy where
  path : String
  classes : List String
  bases : String → List String
  closed : ∀ c, ∀ b ∈ bases c, c ∈ classes ∧ b ∈ classes

/-- The store and the edges of Phase B hold the hierarchy, whatever the ids of its nodes are and
however its edges are ordered; each method of its classes is stored once, in their file. -/
structure FileHierarchy.HeldBy (h : FileHierarchy) (s : SqliteStore) (pbEdges : List Edge) :
    Prop where
  known : ∀ c ∈ h.classes, ∃ n ∈ s.nodes.rows,
    n.vname.signature = "class:" ++ c ∧ n.vname.path = h.path
  declared : ∀ c, ∀ b ∈ h.bases c, ∃ e ∈ pbEdges, e.kind = .isImplementation ∧
    ClassHierarchy.classAt s.nodes e.src = some (h.path, c) ∧
    ClassHierarchy.classAt s.nodes e.dst = some (h.path, b)
  only : ∀ e ∈ pbEdges, e.kind = .isImplementation → ∀ c ∈ h.classes,
    ClassHierarchy.classAt s.nodes e.src = some (h.path, c) →
      ∃ b ∈ h.bases c, ClassHierarchy.classAt s.nodes e.dst = some (h.path, b)
  once : ∀ c ∈ h.classes, ∀ leaf, ∀ n ∈ withSig s.nodes.rows (methodSig c leaf),
    ∀ n' ∈ withSig s.nodes.rows (methodSig c leaf), n = n'
  home : ∀ c ∈ h.classes, ∀ leaf, ∀ n ∈ withSig s.nodes.rows (methodSig c leaf),
    n.vname.path = h.path
  language : ∀ n ∈ s.nodes.rows, ∀ n' ∈ s.nodes.rows, n.vname.path = h.path →
    n'.vname.path = h.path → n.vname.language = n'.vname.language

def defines (s : SqliteStore) (u : UnresolvedCall) (c : String) : Bool :=
  !(withSig s.nodes.rows (methodSig c (Ident.leafOf u.calleeSig))).isEmpty

/-- A method call in the file, on a receiver whose class does not define the method. No positional
reference covers the call, and the path names its qualifier, if it has one. -/
structure InheritedCall (h : FileHierarchy) (s : SqliteStore)
    (lsifCovered : List (String × Nat × String)) (u : UnresolvedCall) (t : String) : Prop where
  method : u.isMethodCall = true
  call : isField u = false
  receiver : u.recvType = some t
  mem : t ∈ h.classes
  caller : ∃ n ∈ s.nodes.rows, u.src = n.id ∧ n.vname.path = h.path
  uncovered : (h.path, u.callerLine, Ident.leafOf u.calleeSig) ∉ lsifCovered
  qualifier : u.hintCrate.all (fun hint => hintMatches hint h.path) = true
  missing : defines s u t = false

/-- The method of the class that the call names; a call never leads back to its caller. -/
def methodOf (s : SqliteStore) (u : UnresolvedCall) (c : String) : List NodeRow :=
  (withSig s.nodes.rows (methodSig c (Ident.leafOf u.calleeSig))).filter fun n => u.src ≠ n.id

def mroTargets (s : SqliteStore) (u : UnresolvedCall) (mro : List String) : List NodeRow :=
  ((mro.find? (defines s u)).map (methodOf s u)).getD []

/-- Every inherited call goes to the first class of the linearisation that defines the method. -/
def FollowsMro : Prop :=
  ∀ (h : FileHierarchy) (s : SqliteStore) (us : List UnresolvedCall) (pbNodes : List Node)
    (pbEdges : List Edge) (lsifCovered : List (String × Nat × String)) (u : UnresolvedCall)
    (t : String) (mro : List String), h.HeldBy s pbEdges → u ∈ us →
    InheritedCall h s lsifCovered u t →
    linearise h.bases ClassHierarchy.MAX_DEPTH t = some mro →
    (CallIndex.build s us pbNodes pbEdges).targets u lsifCovered = mroTargets s u mro

variable {h : FileHierarchy} {s : SqliteStore} {us : List UnresolvedCall} {pbNodes : List Node}
  {pbEdges : List Edge} {lsifCovered : List (String × Nat × String)} {u : UnresolvedCall}
  {t c : String} {mro : List String}

/-! ### The walk over the bases -/

theorem ancestorsFrom_eq_rounds (hierarchy : ClassHierarchy) (path cls : String) (depth : Nat)
    (ordered frontier : List String) :
    hierarchy.ancestorsFrom path cls depth ordered frontier =
      rounds (hierarchy.bases path) cls depth ordered frontier := by
  induction depth generalizing ordered frontier with
  | zero => rfl
  | succ depth ih =>
    rw [ClassHierarchy.ancestorsFrom, rounds]
    simp only [ih]
    rfl

theorem mem_bases_build (held : h.HeldBy s pbEdges) (hc : c ∈ h.classes) (b : String) :
    b ∈ (ClassHierarchy.build s.nodes pbEdges).bases h.path c ↔ b ∈ h.bases c := by
  simp only [ClassHierarchy.build, List.mem_filterMap, List.mem_filter, decide_eq_true_eq,
    Option.map_eq_some_iff]
  constructor
  · rintro ⟨e, ⟨he, hkind, hsrc⟩, ⟨p, b'⟩, hdst, rfl⟩
    obtain ⟨b, hb, hdst'⟩ := held.only e he hkind c hc hsrc
    rw [hdst, Option.some.injEq, Prod.mk.injEq] at hdst'
    rwa [hdst'.2]
  · intro hb
    obtain ⟨e, he, hkind, hsrc, hdst⟩ := held.declared c b hb
    exact ⟨e, ⟨he, hkind, hsrc⟩, _, hdst, rfl⟩

theorem within_build (held : h.HeldBy s pbEdges) (ht : t ∈ h.classes) {k : Nat} {x : String} :
    Within ((ClassHierarchy.build s.nodes pbEdges).bases h.path) t k x ↔ Within h.bases t k x :=
  within_congr ht (fun _ _ _ hb => (h.closed _ _ hb).2) fun _ hc b => mem_bases_build held hc b

theorem mem_classes_of_linearise (ht : t ∈ h.classes) {depth : Nat}
    (hlin : linearise h.bases depth t = some mro) : ∀ x ∈ mro, x ∈ h.classes := by
  intro x hx
  have hclosed : ∀ c, c ∈ h.classes → ∀ b ∈ h.bases c, b ∈ h.classes :=
    fun _ _ _ hb => (h.closed _ _ hb).2
  exact ((mem_linearise hlin x).mp hx).closed ht hclosed

theorem ancestors_spec (held : h.HeldBy s pbEdges) (ht : t ∈ h.classes)
    (hlin : linearise h.bases ClassHierarchy.MAX_DEPTH t = some mro) :
    (∀ x, x ∈ (ClassHierarchy.build s.nodes pbEdges).ancestors h.path t ↔ x ∈ mro ∧ x ≠ t) ∧
      ((ClassHierarchy.build s.nodes pbEdges).ancestors h.path t).Pairwise (Nearer h.bases t) := by
  obtain ⟨left, hmet⟩ := (@met_start _ ((ClassHierarchy.build s.nodes pbEdges).bases h.path) t).rounds
    ClassHierarchy.MAX_DEPTH
  rw [← ancestorsFrom_eq_rounds, Nat.zero_add] at hmet
  constructor
  · intro x
    rw [mem_linearise hlin, ← within_build held ht]
    exact hmet.mem x
  · exact hmet.sorted.imp fun hnear k hk =>
      (within_build held ht).mp (hnear k ((within_build held ht).mpr hk))

/-! ### The gates -/

theorem reachable_self (path : String) (crates : CrateGraph) :
    callTargetReachable path path crates = true := by
  unfold callTargetReachable
  rw [Bool.and_not_self, if_neg Bool.false_ne_true]
  cases crates.crateDirForPath path with
  | none => rfl
  | some dir => simp

/-- The gates let the one method of a class of the file through, if it is not the caller. -/
theorem settle_methodOf (held : h.HeldBy s pbEdges) (call : InheritedCall h s lsifCovered u t)
    (hc : c ∈ h.classes) (imports : List (String × String)) (crates : CrateGraph) :
    settle u h.path imports crates (hinted u (langScoped (callerLang s.nodes u.src)
      (withSig s.nodes.rows (methodSig c (Ident.leafOf u.calleeSig))))) = methodOf s u c := by
  obtain ⟨caller, hcaller, hsrc, hpath⟩ := call.caller
  have hlang := callerLang_of_mem hcaller hsrc
  have hscope : langScoped (callerLang s.nodes u.src)
      (withSig s.nodes.rows (methodSig c (Ident.leafOf u.calleeSig))) =
        withSig s.nodes.rows (methodSig c (Ident.leafOf u.calleeSig)) := by
    apply List.filter_eq_self.mpr
    intro n hn
    have hsame := held.language n (mem_withSig.mp hn).1 caller hcaller (held.home c hc _ n hn) hpath
    rw [hlang, hsame]
    simp
  have hhint : hinted u (withSig s.nodes.rows (methodSig c (Ident.leafOf u.calleeSig))) =
      withSig s.nodes.rows (methodSig c (Ident.leafOf u.calleeSig)) := by
    apply List.filter_eq_self.mpr
    intro n hn
    rw [held.home c hc _ n hn]
    exact call.qualifier
  have hreach : ∀ rows : List NodeRow, (∀ n ∈ rows, n.vname.path = h.path) →
      reachableFrom u h.path crates rows = rows.filter fun n => u.src ≠ n.id := by
    intro rows hrows
    apply List.filter_congr
    intro n hn
    rw [hrows n hn, reachable_self]
    simp
  rw [hscope, hhint, methodOf]
  have hhome := held.home c hc (Ident.leafOf u.calleeSig)
  have honce := held.once c hc (Ident.leafOf u.calleeSig)
  have hnodup : (withSig s.nodes.rows (methodSig c (Ident.leafOf u.calleeSig))).Nodup :=
    s.nodes.toTable.nodup_rows.filter _
  generalize withSig s.nodes.rows (methodSig c (Ident.leafOf u.calleeSig)) = rows
    at hhome honce hnodup ⊢
  cases hq : u.hintCrate with
  | some hint => rw [settle_hint hq, hreach rows hhome]
  | none =>
    have hbare : ¬ (bareFn u = true ∧ 1 < rows.length) := by
      rw [bareFn, call.method]
      simp
    rw [settle_free hq hbare, hreach rows hhome]
    cases rows with
    | nil => rfl
    | cons n rest =>
      have hrest : rest = [] := by
        apply List.eq_nil_iff_forall_not_mem.mpr
        intro x hx
        have heq := honce x (List.mem_cons_of_mem n hx) n List.mem_cons_self
        exact (List.nodup_cons.mp hnodup).1 (heq ▸ hx)
      rw [hrest, List.length_singleton, if_neg (by simp)]

theorem settle_nil (path : String) (imports : List (String × String)) (crates : CrateGraph) :
    settle u path imports crates [] = [] :=
  List.eq_nil_iff_forall_not_mem.mpr fun _ hn =>
    absurd (of_mem_settle hn).1 List.not_mem_nil

theorem targets_inherited (held : h.HeldBy s pbEdges) (hu : u ∈ us)
    (call : InheritedCall h s lsifCovered u t)
    (hlin : linearise h.bases ClassHierarchy.MAX_DEPTH t = some mro) :
    (CallIndex.build s us pbNodes pbEdges).targets u lsifCovered = mroTargets s u
      ((ClassHierarchy.build s.nodes pbEdges).ancestors h.path t) := by
  obtain ⟨caller, hcaller, hsrc, hpath⟩ := call.caller
  have hcp : callerPath s.nodes u.src = h.path := (callerPath_of_mem hcaller hsrc).trans hpath
  have hknown : KnownType s.nodes t := by
    obtain ⟨n, hn, hsig, -⟩ := held.known t call.mem
    exact ⟨n, hn, by simp [typeSigs, hsig]⟩
  have hmiss : ¬ (!(withSig s.nodes.rows (methodSig t (Ident.leafOf u.calleeSig))).isEmpty) = true := by
    have := call.missing
    rw [defines] at this
    rw [this]
    exact Bool.false_ne_true
  rw [targets_build hu call.call (by rw [hcp]; exact call.uncovered), hcp, candidatesOf,
    if_pos call.method, call.receiver, Option.toList_some, List.flatMap_singleton, methodCandidates,
    if_neg hmiss, if_neg (not_not.mpr hknown), hcp, mroTargets, List.find?_map]
  have hfind : ((fun m : List NodeRow => !m.isEmpty) ∘ fun base =>
      withSig s.nodes.rows (methodSig base (Ident.leafOf u.calleeSig))) = defines s u := rfl
  rw [hfind]
  cases hd : ((ClassHierarchy.build s.nodes pbEdges).ancestors h.path t).find? (defines s u) with
  | none => exact settle_nil _ _ _
  | some d =>
    simp only [Option.map_some, Option.getD_some]
    apply settle_methodOf held call
    have hmem := ((ancestors_spec held call.mem hlin).1 d).mp (List.mem_of_find?_eq_some hd)
    exact mem_classes_of_linearise call.mem hlin d hmem.1

/-- An inherited call goes to the method of a class that defines it, with none of those that do
nearer to the receiver's, and nowhere if none does; under single inheritance the class is the first
of the linearisation. -/
theorem inherited_nearest (held : h.HeldBy s pbEdges) (hu : u ∈ us)
    (call : InheritedCall h s lsifCovered u t)
    (hlin : linearise h.bases ClassHierarchy.MAX_DEPTH t = some mro) :
    ((∃ d ∈ mro, defines s u d = true ∧
        (∀ d' ∈ mro, defines s u d' = true → Nearer h.bases t d d') ∧
        (CallIndex.build s us pbNodes pbEdges).targets u lsifCovered = methodOf s u d) ∨
      ((∀ d ∈ mro, defines s u d = false) ∧
        (CallIndex.build s us pbNodes pbEdges).targets u lsifCovered = [])) ∧
    ((∀ c, (h.bases c).length ≤ 1) →
      (CallIndex.build s us pbNodes pbEdges).targets u lsifCovered = mroTargets s u mro) := by
  obtain ⟨hmem, hsorted⟩ := ancestors_spec held call.mem hlin
  have htargets := @targets_inherited _ _ _ pbNodes _ _ _ _ _ held hu call hlin
  -- the receiver's own class does not define the method, so only the walk can find it
  have hwalk : ∀ d ∈ mro, defines s u d = true →
      d ∈ (ClassHierarchy.build s.nodes pbEdges).ancestors h.path t := by
    intro d hd hdef
    refine (hmem d).mpr ⟨hd, ?_⟩
    rintro rfl
    rw [call.missing] at hdef
    cases hdef
  rw [htargets, mroTargets]
  cases hfound : ((ClassHierarchy.build s.nodes pbEdges).ancestors h.path t).find? (defines s u) with
  | none =>
    have hnone : ∀ d ∈ mro, defines s u d = false := by
      intro d hd
      rw [← Bool.not_eq_true]
      exact fun hdef => List.find?_eq_none.mp hfound d (hwalk d hd hdef) hdef
    refine ⟨.inr ⟨hnone, rfl⟩, fun _ => ?_⟩
    rw [mroTargets, List.find?_eq_none.mpr fun d hd => by simp [hnone d hd]]
  | some d =>
    have hd := ((hmem d).mp (List.mem_of_find?_eq_some hfound)).1
    have hdef := List.find?_some hfound
    have hnear : ∀ d' ∈ mro, defines s u d' = true → Nearer h.bases t d d' :=
      fun d' hd' hdef' => nearer_of_find? hsorted hfound d' (hwalk d' hd' hdef') hdef'
    refine ⟨.inl ⟨d, hd, hdef, hnear, rfl⟩, fun single => ?_⟩
    have hsome : (mro.find? (defines s u)).isSome := List.find?_isSome.mpr ⟨d, hd, hdef⟩
    obtain ⟨first, hfirst⟩ := Option.isSome_iff_exists.mp hsome
    have hmro := nearer_of_find? (sorted_linearise single hlin) hfirst d hd hdef
    have heq : d = first := eq_of_nearer single ((mem_linearise hlin d).mp hd)
      (hnear first (List.mem_of_find?_eq_some hfirst) (List.find?_some hfirst)) hmro
    rw [mroTargets, hfirst, heq]

/-! ### A class with two bases -/

/-- `class B(A)` and `class D(B, C)`. -/
def declaredBases (c : String) : List String :=
  if c = "D" then ["B", "C"] else if c = "B" then ["A"] else []

theorem mem_declaredBases {b : String} (hb : b ∈ declaredBases c) :
    (c, b) ∈ [("D", "B"), ("D", "C"), ("B", "A")] := by
  unfold declaredBases at hb
  split_ifs at hb with hD hB
  · simpa [hD] using hb
  · simpa [hB] using hb
  · cases hb

def twoBases : FileHierarchy where
  path := "models.py"
  classes := ["A", "B", "C", "D"]
  bases := declaredBases
  closed := by
    have hall : ∀ p ∈ [("D", "B"), ("D", "C"), ("B", "A")],
        p.1 ∈ ["A", "B", "C", "D"] ∧ p.2 ∈ ["A", "B", "C", "D"] := by decide
    exact fun c b hb => hall _ (mem_declaredBases hb)

def pyRow (id : NodeId) (sig kind : String) : NodeRow :=
  ⟨id, ⟨"", "", "models.py", "python", sig⟩, kind, "", some id, some id, false, .none, none⟩

/-- `A` and `C` define `save`, and `D.run` calls it. -/
def twoBasesRows : List NodeRow :=
  [pyRow 1 "class:A" "class", pyRow 2 "class:B" "class", pyRow 3 "class:C" "class",
    pyRow 4 "class:D" "class", pyRow 5 "method:A.save" "method", pyRow 6 "method:C.save" "method",
    pyRow 7 "method:D.run" "method"]

def twoBasesStore : SqliteStore :=
  { SqliteStore.empty with nodes := ⟨⟨twoBasesRows, by decide⟩, by decide⟩ }

def twoBasesEdges : List Edge :=
  [⟨2, 1, .isImplementation, none, none⟩, ⟨4, 2, .isImplementation, none, none⟩,
    ⟨4, 3, .isImplementation, none, none⟩]

/-- `self.save()`. -/
def selfSave : UnresolvedCall := ⟨7, "fn:save", none, none, 9, some 8, true, some "D"⟩

theorem twoBases_held : twoBases.HeldBy twoBasesStore twoBasesEdges where
  known := by decide +kernel
  declared := by
    have hall : ∀ p ∈ [("D", "B"), ("D", "C"), ("B", "A")],
        ∃ e ∈ twoBasesEdges, e.kind = .isImplementation ∧
          ClassHierarchy.classAt twoBasesStore.nodes e.src = some (twoBases.path, p.1) ∧
          ClassHierarchy.classAt twoBasesStore.nodes e.dst = some (twoBases.path, p.2) := by
      decide +kernel
    exact fun c b hb => hall _ (mem_declaredBases hb)
  only := by decide +kernel
  once := by
    have hsig : ∀ n ∈ twoBasesRows, ∀ n' ∈ twoBasesRows,
        n.vname.signature = n'.vname.signature → n = n' := by decide +kernel
    intro c _ leaf n hn n' hn'
    obtain ⟨hn, hsn⟩ := mem_withSig.mp hn
    obtain ⟨hn', hsn'⟩ := mem_withSig.mp hn'
    exact hsig n hn n' hn' (hsn.trans hsn'.symm)
  home := by
    have hpath : ∀ n ∈ twoBasesRows, n.vname.path = twoBases.path := by decide
    exact fun c _ leaf n hn => hpath n (mem_withSig.mp hn).1
  language := by
    have hlang : ∀ n ∈ twoBasesRows, n.vname.language = "python" := by decide
    exact fun n hn n' hn' _ _ => (hlang n hn).trans (hlang n' hn').symm

theorem selfSave_inherited : InheritedCall twoBases twoBasesStore [] selfSave "D" :=
  ⟨rfl, by decide, rfl, by decide, ⟨pyRow 7 "method:D.run" "method", by decide, rfl, rfl⟩, by simp,
    rfl, by decide +kernel⟩

theorem twoBases_linearise :
    linearise twoBases.bases ClassHierarchy.MAX_DEPTH "D" = some ["D", "B", "A", "C"] := by
  decide +kernel

theorem selfSave_nearest :
    ((∃ d ∈ ["D", "B", "A", "C"], defines twoBasesStore selfSave d = true ∧
        (∀ d' ∈ ["D", "B", "A", "C"], defines twoBasesStore selfSave d' = true →
          Nearer twoBases.bases "D" d d') ∧
        (CallIndex.build twoBasesStore [selfSave] [] twoBasesEdges).targets selfSave [] =
          methodOf twoBasesStore selfSave d) ∨
      ((∀ d ∈ ["D", "B", "A", "C"], defines twoBasesStore selfSave d = false) ∧
        (CallIndex.build twoBasesStore [selfSave] [] twoBasesEdges).targets selfSave [] = [])) :=
  (inherited_nearest twoBases_held (List.mem_singleton_self _) selfSave_inherited
    twoBases_linearise).1

/-- The call goes to `C.save`, which is nearer, where the linearisation has `A` before `C`. -/
theorem selfSave_leaves_mro :
    (resolveUnresolvedCalls twoBasesStore [selfSave] [] twoBasesEdges []).1 =
      [⟨7, 6, .refCall, none, none⟩] ∧ ¬ FollowsMro := by
  have htargets : (CallIndex.build twoBasesStore [selfSave] [] twoBasesEdges).targets selfSave [] ≠
      mroTargets twoBasesStore selfSave ["D", "B", "A", "C"] := by decide +kernel
  refine ⟨by decide +kernel, fun hmro => ?_⟩
  exact htargets (hmro twoBases twoBasesStore [selfSave] [] twoBasesEdges [] selfSave "D" _
    twoBases_held (List.mem_singleton_self _) selfSave_inherited twoBases_linearise)

end Travsr.Daemon
