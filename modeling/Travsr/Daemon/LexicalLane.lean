import Travsr.Daemon.LiveClaims

namespace Travsr.Daemon

open Travsr.Core Travsr.Store Relational

variable {nodes : NodeTable} {sig : String} {kind : EdgeKind} {language : Option String}

/-- A stored definition of a signature that an edge of the kind may point at from the language. -/
def Defines (nodes : NodeTable) (kind : EdgeKind) (language : Option String) (sig : String)
    (n : NodeRow) : Prop :=
  n ∈ nodes ∧ n.vname.signature = sig ∧ n.kind ∈ targetKinds kind ∧
    ∀ l ∈ language, n.vname.language = l

theorem mem_lookup_of_not_truncated (h : ¬ truncated (lookupNodesExact nodes sig none))
    {n : NodeRow} :
    n ∈ lookupNodesExact nodes sig none ↔
      n ∈ nodes ∧ n.vname.signature = sig ∧ n.kind ∉ ["file", "import"] := by
  have hlen : ((nodes.rows.filter fun r => r.vname.signature = sig ∧ r.kind ∉ ["file", "import"] ∧
      (none : Option String).all fun hint => r.vname.path = hint || likeSuffix r.vname.path hint
      ).insertionSort fun a b => toI64 a.id ≤ toI64 b.id).length ≤ NODE_EXACT_LOOKUP_LIMIT := by
    by_contra hgt
    apply h
    rw [truncated, decide_eq_true_eq, lookupNodesExact, List.length_take]
    omega
  rw [lookupNodesExact, List.take_of_length_le hlen, List.mem_insertionSort, List.mem_filter,
    decide_eq_true_eq]
  simp only [Option.all_none, and_true]
  rfl

theorem targetKinds_not_file {n : NodeRow} (h : n.kind ∈ targetKinds kind) :
    n.kind ∉ ["file", "import"] := by
  intro hf
  have hk : n.kind = "file" ∨ n.kind = "import" := by simpa using hf
  rcases hk with hk | hk <;> rw [hk] at h <;> cases kind <;> exact absurd h (by decide)

theorem mem_validTargets (h : ¬ truncated (lookupNodesExact nodes sig none)) {n : NodeRow} :
    n ∈ validTargets (lookupNodesExact nodes sig none) kind language ↔
      Defines nodes kind language sig n := by
  rw [validTargets, List.mem_filter, decide_eq_true_eq, mem_lookup_of_not_truncated h]
  have hall : (language.all fun l => n.vname.language = l) = true ↔
      ∀ l ∈ language, n.vname.language = l := by
    cases language <;> simp
  rw [hall]
  constructor
  · exact fun ⟨⟨hn, hs, _⟩, hk, hl⟩ => ⟨hn, hs, hk, hl⟩
  · exact fun ⟨hn, hs, hk, hl⟩ => ⟨⟨hn, hs, targetKinds_not_file hk⟩, hk, hl⟩

theorem uniqueDefinition_sound {n : NodeRow}
    (h : uniqueDefinition nodes sig kind language = some n) :
    Defines nodes kind language sig n ∧ ∀ m, Defines nodes kind language sig m → m = n := by
  unfold uniqueDefinition at h
  dsimp only at h
  split_ifs at h with ht
  have hvalid : validTargets (lookupNodesExact nodes sig none) kind language = [n] := by
    revert h
    cases validTargets (lookupNodesExact nodes sig none) kind language with
    | nil => exact fun h => nomatch h
    | cons a l =>
      cases l with
      | nil => exact fun h => by rw [Option.some.inj h]
      | cons => exact fun h => nomatch h
  refine ⟨(mem_validTargets ht).mp (by rw [hvalid]; exact List.mem_singleton_self n), ?_⟩
  intro m hm
  have hmem := (mem_validTargets ht).mpr hm
  rw [hvalid] at hmem
  exact List.mem_singleton.mp hmem

theorem uniqueDefinition_ambiguous {a b : NodeRow} (ha : Defines nodes kind language sig a)
    (hb : Defines nodes kind language sig b) (hab : a ≠ b) :
    uniqueDefinition nodes sig kind language = none := by
  cases h : uniqueDefinition nodes sig kind language with
  | none => rfl
  | some n =>
    obtain ⟨-, honly⟩ := uniqueDefinition_sound h
    exact absurd ((honly a ha).trans (honly b hb).symm) hab

theorem foldlM_baseCandidate {cs : List NodeRow} {found result : Option NodeId}
    (h : cs.foldlM baseCandidate found = some result) :
    (∀ id ∈ found, result = some id) ∧ (∀ n ∈ cs, result = some n.id) ∧
      ∀ id ∈ result, found = some id ∨ ∃ n ∈ cs, n.id = id := by
  induction cs generalizing found with
  | nil =>
    obtain rfl := Option.some.inj h
    exact ⟨fun _ h => h, fun _ h => absurd h List.not_mem_nil, fun _ h => .inl h⟩
  | cons c cs ih =>
    rw [List.foldlM_cons] at h
    obtain ⟨next, hnext, hrest⟩ := Option.bind_eq_some_iff.mp h
    obtain ⟨h1, h2, h3⟩ := ih hrest
    have hc : next = some c.id ∧ ∀ id ∈ found, id = c.id := by
      cases found with
      | none => exact ⟨(Option.some.inj hnext).symm, fun _ h => nomatch h⟩
      | some id =>
        unfold baseCandidate at hnext
        dsimp only at hnext
        split_ifs at hnext with hid
        refine ⟨by rw [← Option.some.inj hnext, hid], ?_⟩
        intro id' hid'
        exact (Option.some.inj hid').symm.trans hid
    obtain ⟨rfl, hfound⟩ := hc
    have hres : result = some c.id := h1 c.id rfl
    refine ⟨fun id hid => by rw [hres, hfound id hid], ?_, ?_⟩
    · intro n hn
      rcases List.mem_cons.mp hn with rfl | hn
      · exact hres
      · exact h2 n hn
    · intro id hid
      rw [Option.mem_def, hres] at hid
      exact .inr ⟨c, List.mem_cons_self, Option.some.inj hid⟩

theorem foldlM_baseKind {baseName : String} {kinds : List String} {found result : Option NodeId}
    (h : kinds.foldlM (baseKind nodes baseName language) found = some result) :
    (∀ id ∈ found, result = some id) ∧
      (∀ kind ∈ kinds, ∀ n,
        Defines nodes .isImplementation language (kind ++ ":" ++ baseName) n →
          result = some n.id) ∧
      ∀ id ∈ result, found = some id ∨ ∃ kind ∈ kinds, ∃ n,
        Defines nodes .isImplementation language (kind ++ ":" ++ baseName) n ∧ n.id = id := by
  induction kinds generalizing found with
  | nil =>
    obtain rfl := Option.some.inj h
    exact ⟨fun _ h => h, fun _ h => absurd h List.not_mem_nil, fun _ h => .inl h⟩
  | cons kind kinds ih =>
    rw [List.foldlM_cons] at h
    obtain ⟨next, hnext, hrest⟩ := Option.bind_eq_some_iff.mp h
    obtain ⟨r1, r2, r3⟩ := ih hrest
    unfold baseKind at hnext
    dsimp only at hnext
    split_ifs at hnext with ht
    obtain ⟨c1, c2, c3⟩ := foldlM_baseCandidate hnext
    refine ⟨fun id hid => r1 id (c1 id hid), ?_, ?_⟩
    · intro k hk n hn
      rcases List.mem_cons.mp hk with rfl | hk
      · exact r1 n.id (c2 n ((mem_validTargets ht).mpr hn))
      · exact r2 k hk n hn
    · intro id hid
      rcases r3 id hid with hnext | ⟨k, hk, n, hn⟩
      · rcases c3 id hnext with hf | ⟨n, hn, hnid⟩
        · exact .inl hf
        · exact .inr ⟨kind, List.mem_cons_self, n, (mem_validTargets ht).mp hn, hnid⟩
      · exact .inr ⟨k, List.mem_cons_of_mem _ hk, n, hn⟩

theorem uniqueBaseDefinition_sound {baseName : String} {id : NodeId}
    (h : uniqueBaseDefinition nodes baseName language = some id) :
    (∃ kind ∈ targetKinds .isImplementation, ∃ n,
        Defines nodes .isImplementation language (kind ++ ":" ++ baseName) n ∧ n.id = id) ∧
      ∀ kind ∈ targetKinds .isImplementation, ∀ n,
        Defines nodes .isImplementation language (kind ++ ":" ++ baseName) n → n.id = id := by
  unfold uniqueBaseDefinition at h
  rw [Option.join_eq_some_iff] at h
  obtain ⟨-, hall, hsome⟩ := foldlM_baseKind h
  refine ⟨?_, ?_⟩
  · rcases hsome id rfl with hno | hsome
    · cases hno
    · exact hsome
  · intro kind hkind n hn
    exact (Option.some.inj (hall kind hkind n hn)).symm

/-- An edge between two stored nodes of one corpus, and of one language when the source has one,
to the only definition of one of the signatures. -/
structure Unambiguous (nodes : NodeTable) (src : NodeId) (kind : EdgeKind) (sigs : List String)
    (a b : NodeRow) (e : Edge) : Prop where
  edge : e = ⟨src, b.id, kind, none, none⟩
  source : a ∈ nodes ∧ a.id = src
  target : b ∈ nodes ∧ b.id ≠ src
  corpus : a.vname.corpus = b.vname.corpus
  language : a.vname.language ≠ "" → b.vname.language = a.vname.language
  validKind : b.kind ∈ targetKinds kind
  only : ∃ sig ∈ sigs, Defines nodes kind (languageScope a) sig b ∧
    ∀ n, Defines nodes kind (languageScope a) sig n → n = b

theorem languageScope_defines {a b : NodeRow} (h : Defines nodes kind (languageScope a) sig b)
    (ha : a.vname.language ≠ "") : b.vname.language = a.vname.language := by
  have hempty : ¬ a.vname.language.isEmpty = true := by
    rw [String.isEmpty_iff]
    exact ha
  have hscope : languageScope a = some a.vname.language := if_neg hempty
  rw [hscope] at h
  exact h.2.2.2 _ rfl

theorem unambiguous_of_edgeIfSound {src : NodeId} {sigs : List String} {a b : NodeRow} {e : Edge}
    (ha : nodes.find? src = some a) (hsig : sig ∈ sigs)
    (hb : Defines nodes kind (languageScope a) sig b)
    (honly : ∀ n, Defines nodes kind (languageScope a) sig n → n = b)
    (he : edgeIfSound nodes src b.id kind = some e) : Unambiguous nodes src kind sigs a b e := by
  obtain ⟨rfl, hne, a', ha', b', hb', hc⟩ := edgeIfSound_eq_some.mp he
  have haa : a = a' := Option.some.inj (ha.symm.trans ha')
  have hbb : b = b' := Option.some.inj
    ((Table.find?_of_mem (t := nodes.toTable) hb.1).symm.trans hb')
  subst haa hbb
  exact ⟨rfl, Table.mem_of_find? ha, ⟨hb.1, hne.symm⟩, hc, languageScope_defines hb, hb.2.2.1,
    sig, hsig, hb, honly⟩

/-- The qualifier of a bare call names the definition's file: a path keyword names every file, and
an underscore may stand for a hyphen. -/
def QualifierReaches (hint : Option String) (path : String) : Prop :=
  ∀ h ∈ hint, h ∈ ["self", "super", "crate"] ∨
    ∃ seg ∈ Text.splitOn (fun c => c = '/' || c = '.') path.toList,
      seg = h.toList ∨ seg = h.toList.map fun c => if c = '_' then '-' else c

theorem hintCrateReaches_iff {hint : Option String} {dst : NodeRow} :
    hintCrateReaches hint dst ↔ QualifierReaches hint dst.vname.path := by
  cases hint with
  | none => simp [hintCrateReaches, QualifierReaches]
  | some h =>
    simp only [hintCrateReaches, QualifierReaches, Option.all_some, Option.mem_def,
      Option.some.injEq, forall_eq', Bool.or_eq_true, decide_eq_true_eq, List.any_eq_true]

theorem lexicalOne_unambiguous {call : UnresolvedCall} {bound : Finset String} {e : Edge}
    (h : lexicalOne nodes call bound = some e) :
    ∃ a b, Unambiguous nodes call.src (lexicalEdgeKind call) (candidateSignatures call) a b e ∧
      (bareIdentifier call → QualifierReaches call.hintCrate b.vname.path) := by
  obtain ⟨-, a, ha, b, hb, hq, he⟩ := lexicalOne_sound h
  obtain ⟨sig, hsig, hu⟩ := List.exists_of_findSome?_eq_some hb
  obtain ⟨hdef, honly⟩ := uniqueDefinition_sound hu
  refine ⟨a, b, unambiguous_of_edgeIfSound ha hsig hdef honly he, ?_⟩
  intro hbare
  rw [← hintCrateReaches_iff]
  by_contra hr
  exact hq ⟨hbare, hr⟩

theorem lexicalOne_ambiguous {call : UnresolvedCall} {bound : Finset String} {a m n : NodeRow}
    (ha : nodes.find? call.src = some a) (hsig : candidateSignatures call = [sig])
    (hm : Defines nodes (lexicalEdgeKind call) (languageScope a) sig m)
    (hn : Defines nodes (lexicalEdgeKind call) (languageScope a) sig n) (hmn : m ≠ n) :
    lexicalOne nodes call bound = none := by
  unfold lexicalOne
  split_ifs
  · rfl
  · rw [ha, Option.bind_some, hsig, List.findSome?_singleton, uniqueDefinition_ambiguous hm hn hmn]
    rfl

theorem inheritanceEdge_unambiguous {src : NodeId} {baseName : String} {bound : Finset String}
    {e : Edge} (h : inheritanceEdge nodes src baseName bound = some e) :
    baseName ∉ bound ∧
      ∃ a b, Unambiguous nodes src .isImplementation
          ((targetKinds .isImplementation).map fun kind => kind ++ ":" ++ baseName) a b e ∧
        ∀ kind ∈ targetKinds .isImplementation, ∀ n,
          Defines nodes .isImplementation (languageScope a) (kind ++ ":" ++ baseName) n →
            n = b := by
  obtain ⟨hfree, a, ha, dst, hdst, he⟩ := inheritanceEdge_sound h
  obtain ⟨⟨kind, hkind, b, hb, rfl⟩, hall⟩ := uniqueBaseDefinition_sound hdst
  have hsame : ∀ kind ∈ targetKinds .isImplementation, ∀ n,
      Defines nodes .isImplementation (languageScope a) (kind ++ ":" ++ baseName) n → n = b :=
    fun k hk n hn => IndexedTable.eq_of_key hn.1 hb.1 (hall k hk n hn)
  exact ⟨hfree, a, b, unambiguous_of_edgeIfSound ha
    (List.mem_map.mpr ⟨kind, hkind, rfl⟩) hb (hsame kind hkind) he, hsame⟩

/-- The lexical lane fails closed. What a pass emits is what its calls and its clauses come to, one
by one; each edge leads to the only definition of the signature that selected it, and a name that
is bound locally, a qualifier that names another file or a single signature with two definitions
comes to nothing. -/
theorem lexicalLane_failsClosed (s : LiveStore) (corpus path : String)
    (unresolved : List UnresolvedCall) (inheritance : List InheritanceRef) (bound : Finset String) :
    ((lexicalPass s corpus path unresolved inheritance bound).emitted.map Emission.edge =
        unresolved.filterMap (fun call => lexicalOne s.nodes call bound) ++
          inheritance.filterMap fun r =>
            (enclosingDefinitionAt s.nodes corpus path r.line).bind fun src =>
              inheritanceEdge s.nodes src r.baseName bound) ∧
      (∀ call e, lexicalOne s.nodes call bound = some e →
        ∃ a b, Unambiguous s.nodes call.src (lexicalEdgeKind call) (candidateSignatures call) a b e ∧
          (bareIdentifier call → QualifierReaches call.hintCrate b.vname.path)) ∧
      (∀ call, bareIdentifier call → Ident.leafOf call.calleeSig ∈ bound →
        lexicalOne s.nodes call bound = none) ∧
      (∀ call sig, candidateSignatures call = [sig] → ∀ a, a ∈ s.nodes → a.id = call.src →
        ∀ m n, Defines s.nodes (lexicalEdgeKind call) (languageScope a) sig m →
          Defines s.nodes (lexicalEdgeKind call) (languageScope a) sig n → m ≠ n →
            lexicalOne s.nodes call bound = none) ∧
      ∀ src baseName e, inheritanceEdge s.nodes src baseName bound = some e →
        baseName ∉ bound ∧
          ∃ a b, Unambiguous s.nodes src .isImplementation
              ((targetKinds .isImplementation).map fun kind => kind ++ ":" ++ baseName) a b e ∧
            ∀ kind ∈ targetKinds .isImplementation, ∀ n,
              Defines s.nodes .isImplementation (languageScope a) (kind ++ ":" ++ baseName) n →
                n = b := by
  refine ⟨?_, fun _ _ => lexicalOne_unambiguous, ?_, ?_, fun _ _ _ => inheritanceEdge_unambiguous⟩
  · have hrun := (foldl_examine_spec (lexicalRefs_plain s corpus path unresolved inheritance bound)
      (.start s.toSqliteStore)).2.1
    rw [← lexicalPass_eq] at hrun
    have hedge : ∀ r : Examined, r.emission.map Emission.edge = r.edge := by
      intro r
      rw [Examined.emission, Option.map_map]
      exact Option.map_id'
    rw [hrun, LivePass.start, List.nil_append, List.map_filterMap, lexicalRefs,
      List.filterMap_append, List.filterMap_map, List.filterMap_map]
    simp only [hedge, Function.comp_def]
    rfl
  · intro call hbare hbound
    exact if_pos ⟨hbare, hbound⟩
  · intro call sig hsig a ha haid m n hm hn hmn
    refine lexicalOne_ambiguous ?_ hsig hm hn hmn
    rw [← haid]
    exact Table.find?_of_mem (t := s.nodes.toTable) ha

/-- A function of one name in two languages, and a name that two classes and one function have. -/
def polyglotNodes : NodeTable :=
  (phaseBNodes SqliteStore.empty [parsed "a.py" "python" "fn:main" "function",
    parsed "b.py" "python" "fn:run" "function", parsed "lib/c.rs" "rust" "fn:run" "function",
    parsed "lib/dd.rs" "rust" "fn:top" "function", parsed "e.py" "python" "class:Foo" "class",
    parsed "gggg.py" "python" "class:Foo" "class",
    parsed "hhhhhhhh.py" "python" "fn:Foo" "function"]).1

/-- A definition of another language is not counted, a path keyword is no segment of a path, and
the second signature is tried after two nodes define the first. -/
theorem lexicalLane_not_strict :
    (¬ ∀ (nodes : NodeTable) (bound : Finset String) (call : UnresolvedCall) (e : Edge),
        lexicalOne nodes call bound = some e → ∃ sig ∈ candidateSignatures call,
          ∀ n ∈ nodes.rows, n.vname.signature = sig → n.id = e.dst) ∧
      (¬ ∀ (nodes : NodeTable) (bound : Finset String) (call : UnresolvedCall) (e : Edge),
        lexicalOne nodes call bound = some e → bareIdentifier call →
          ∀ h ∈ call.hintCrate, ∃ b ∈ nodes.rows, b.id = e.dst ∧
            h.toList ∈ Text.splitOn (fun c => c = '/' || c = '.') b.vname.path.toList) ∧
      ¬ ∀ (nodes : NodeTable) (bound : Finset String) (call : UnresolvedCall),
        ∀ sig ∈ (candidateSignatures call).head?, ∀ m ∈ nodes.rows, ∀ n ∈ nodes.rows,
          m.vname.signature = sig → n.vname.signature = sig → m ≠ n →
            lexicalOne nodes call bound = none := by
  refine ⟨?_, ?_, ?_⟩
  · intro h
    have hone := h polyglotNodes ∅ ⟨11, "fn:run", none, none, 1, none, false, none⟩
      ⟨11, 10, .refCall, none, none⟩ (by decide +kernel)
    revert hone
    decide +kernel
  · intro h
    have hone := h polyglotNodes ∅ ⟨15, "fn:run", none, some "super", 1, none, false, none⟩
      ⟨15, 14, .refCall, none, none⟩ (by decide +kernel) rfl
    revert hone
    decide +kernel
  · intro h
    have hone := h polyglotNodes ∅ ⟨11, "class:Foo", some "fn:Foo", none, 1, none, false, none⟩
    revert hone
    decide +kernel

end Travsr.Daemon
