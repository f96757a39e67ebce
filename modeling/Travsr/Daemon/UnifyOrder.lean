import Travsr.Daemon.ScipUnifier
import Travsr.Lib.FirstMatch

namespace Travsr.Daemon

open Travsr.Core Core.Text Indexer Store

def symOf (n : Node) : String := scipSymbolFromSig n.vname.signature

namespace Unifier

variable {u : Unifier} {batch : List Node} {n : Node} {d : Definition}

theorem prepare_definition (h : u.prepare batch n = .definition d) :
    d.id = n.id ∧ d.scipSym = symOf n ∧ d.path = n.vname.path ∧
      d.language = n.vname.language ∧ n.line = some d.line := by
  simp only [prepare] at h
  repeat' split at h
  all_goals cases h
  exact ⟨rfl, rfl, rfl, rfl, by assumption⟩

def ownRung (u : Unifier) (d : Definition) : Option NodeId := u.overloadRung d <|> u.acrossRung d

def spanTwin (u : Unifier) (batch : List Node) (n : Node) : Option NodeId :=
  match u.prepare batch n with
  | .definition d => u.spanRung d
  | _ => none

def fieldTwin (u : Unifier) (batch : List Node) (n : Node) : Option NodeId :=
  match u.prepare batch n with
  | .lineless p => u.setterTwin n p
  | _ => none

def leftUnmatched (u : Unifier) (batch : List Node) (n : Node) : Option Definition :=
  match u.prepare batch n with
  | .definition d => if u.spanRung d = none ∧ d.dslContained = false then some d else none
  | _ => none

theorem leftUnmatched_eq_some :
    u.leftUnmatched batch n = some d ↔
      u.prepare batch n = .definition d ∧ u.spanRung d = none ∧ d.dslContained = false := by
  unfold leftUnmatched
  cases hp : u.prepare batch n with
  | definition e =>
    simp only [Option.ite_none_right_eq_some, Option.some.injEq, Prepared.definition.injEq]
    constructor
    · rintro ⟨h, rfl⟩
      exact ⟨rfl, h⟩
    · rintro ⟨rfl, h⟩
      exact ⟨h, rfl⟩
  | _ => simp

end Unifier

namespace Pass

variable {u : Unifier} {batch : List Node} {n : Node} {st : Pass} {d : Definition}

/-- What the rungs read and write of the pass. -/
structure SameMaps (st st' : Pass) : Prop where
  aliasMap : st'.aliasMap = st.aliasMap
  symToTs : st'.symToTs = st.symToTs
  unmatched : st'.unmatched = st.unmatched

theorem sameMaps_attempt (st : Pass) (d : Definition) : SameMaps st (st.attempt d) := by
  unfold attempt
  split_ifs <;> exact ⟨rfl, rfl, rfl⟩

theorem sameMaps_credit (st : Pass) (d : Definition) : SameMaps st (st.credit d) := by
  unfold credit
  split_ifs <;> exact ⟨rfl, rfl, rfl⟩

theorem sameMaps_creditAttempted (st : Pass) (sym : String) :
    SameMaps st (st.creditAttempted sym) := by
  unfold creditAttempted
  split_ifs <;> exact ⟨rfl, rfl, rfl⟩

theorem sameMaps_dropLocal (u : Unifier) (st : Pass) (n : Node) :
    SameMaps st (st.dropLocal u n) := by
  unfold dropLocal
  split_ifs <;> exact ⟨rfl, rfl, rfl⟩

theorem foldl_dropLocal_aliasMap (u : Unifier) (l : List Node) (st : Pass) :
    (l.foldl (dropLocal u) st).aliasMap = st.aliasMap := by
  induction l generalizing st with
  | nil => rfl
  | cons n l ih => exact (ih _).trans (sameMaps_dropLocal u st n).aliasMap

theorem insertAlias_eq (m : NodeId → Option NodeId) (k v i : NodeId) :
    insertAlias m k v i = ((if k = i then some v else none) <|> m i) := by
  unfold insertAlias
  by_cases h : k = i
  · simp [h]
  · simp [h, Ne.symm h]

theorem orInsert_eq {α : Type} (m : String → Option α) (k : String) (v : α) (x : String) :
    orInsert m k v x = (m x <|> if k = x then some v else none) := by
  unfold orInsert
  by_cases h : k = x
  · subst h
    cases m k <;> simp
  · simp [h, Ne.symm h]

/-- One node of the first loop: the last alias of an id counts, the first match of a symbol. -/
theorem visit_maps (u : Unifier) (batch : List Node) (st : Pass) (n : Node) :
    (∀ i, (st.visit u batch n).aliasMap i =
      ((if n.id = i then u.spanTwin batch n <|> u.fieldTwin batch n else none) <|>
        st.aliasMap i)) ∧
    (∀ k, (st.visit u batch n).symToTs k =
      (st.symToTs k <|> if symOf n = k then u.spanTwin batch n else none)) ∧
    (st.visit u batch n).unmatched = st.unmatched ++ (u.leftUnmatched batch n).toList := by
  unfold visit Unifier.fieldTwin Unifier.spanTwin Unifier.leftUnmatched
  cases hp : u.prepare batch n with
  | skipped => simp
  | dropped => simp
  | lineless p =>
    cases ht : u.setterTwin n p with
    | none => simp [ht]
    | some ts => simp [ht, insertAlias_eq]
  | definition d =>
    obtain ⟨hid, hsym, _⟩ := Unifier.prepare_definition hp
    have hatt := sameMaps_attempt st d
    simp only [define]
    cases hs : u.spanRung d with
    | some ts =>
      have hcr := sameMaps_credit ((st.attempt d).bind d ts) d
      rw [hcr.aliasMap, hcr.symToTs, hcr.unmatched]
      simp [bind, hatt.aliasMap, hatt.symToTs, hatt.unmatched, insertAlias_eq, orInsert_eq, hid,
        hsym]
    | none =>
      by_cases hd : d.dslContained = true
      · simp [hd, hatt.aliasMap, hatt.symToTs, hatt.unmatched]
      · simp [hd, hatt.aliasMap, hatt.symToTs, hatt.unmatched]

theorem rescue_maps (u : Unifier) (st : Pass) (d : Definition) :
    (∀ i, (st.rescue u d).aliasMap i =
      ((if d.id = i then st.symToTs d.scipSym <|> u.ownRung d else none) <|> st.aliasMap i)) ∧
    (∀ k, (st.rescue u d).symToTs k =
      (st.symToTs k <|> if d.scipSym = k then u.ownRung d else none)) := by
  cases hr : st.symToTs d.scipSym <|> u.ownRung d with
  | some ts =>
    have heq : st.rescue u d = (st.bind d ts).creditAttempted d.scipSym := by
      unfold rescue
      rw [show (st.symToTs d.scipSym <|> u.overloadRung d <|> u.acrossRung d) = some ts from hr]
    have hsame := sameMaps_creditAttempted (st.bind d ts) d.scipSym
    rw [heq, hsame.aliasMap, hsame.symToTs]
    refine ⟨fun i => ?_, fun k => ?_⟩
    · exact insertAlias_eq st.aliasMap d.id ts i
    · have hsym : (st.bind d ts).symToTs = orInsert st.symToTs d.scipSym ts := rfl
      rw [hsym, orInsert_eq]
      by_cases hk : d.scipSym = k
      · subst hk
        cases hs : st.symToTs d.scipSym with
        | some ts' => simp
        | none =>
          rw [hs] at hr
          simpa using hr.symm
      · simp [hk]
  | none =>
    have heq : st.rescue u d = st := by
      unfold rescue
      rw [show (st.symToTs d.scipSym <|> u.overloadRung d <|> u.acrossRung d) = none from hr]
    rw [heq]
    have hboth : st.symToTs d.scipSym = none ∧ u.ownRung d = none := by simpa using hr
    simp [hboth.2]

end Pass

end Travsr.Daemon

namespace Travsr.Daemon

open Travsr.Core Core.Text Indexer Store

namespace Unifier

variable {u : Unifier} {batch batch' : List Node} {n : Node} {d : Definition}

def rules (u : Unifier) (batch : List Node) : FirstMatch.Rules Node NodeId String where
  id := Node.id
  key := symOf
  teaches n := (u.spanTwin batch n).isSome = true
  alone n := (u.fieldTwin batch n).isSome = true
  pending n := (u.leftUnmatched batch n).isSome = true
  own n := (u.leftUnmatched batch n).any (fun d => (u.ownRung d).isSome) = true

end Unifier

namespace Pass

variable {u : Unifier} {batch : List Node} {n : Node} {st : Pass} {d : Definition}

theorem foldl_visit_spec (u : Unifier) (batch l : List Node) (st : Pass) :
    (∀ i, ((l.foldl (visit u batch) st).aliasMap i).isSome = true ↔
      (st.aliasMap i).isSome = true ∨
        ∃ n ∈ l, n.id = i ∧ ((u.rules batch).teaches n ∨ (u.rules batch).alone n)) ∧
    (∀ k, ((l.foldl (visit u batch) st).symToTs k).isSome = true ↔ (st.symToTs k).isSome = true ∨
      (u.rules batch).Taught l k) ∧
    (l.foldl (visit u batch) st).unmatched = st.unmatched ++ l.filterMap (u.leftUnmatched batch) := by
  induction l generalizing st with
  | nil => simp [FirstMatch.Rules.Taught]
  | cons n l ih =>
    obtain ⟨halias, hsym, hun⟩ := visit_maps u batch st n
    obtain ⟨halias', hsym', hun'⟩ := ih (st.visit u batch n)
    rw [List.foldl_cons]
    refine ⟨fun i => ?_, fun k => ?_, ?_⟩
    · rw [halias', halias]
      by_cases hi : n.id = i <;> simp [hi, Unifier.rules, or_assoc, or_comm, or_left_comm]
    · rw [hsym', hsym]
      by_cases hk : symOf n = k <;> simp [hk, FirstMatch.Rules.Taught, Unifier.rules, or_assoc]
    · rw [hun', hun, List.append_assoc]
      cases hl : u.leftUnmatched batch n <;> simp [hl]

theorem foldl_rescue_spec (u : Unifier) (batch l : List Node) (st : Pass) (i : NodeId) :
    (((l.filterMap (u.leftUnmatched batch)).foldl (rescue u) st).aliasMap i).isSome = true ↔
      (st.aliasMap i).isSome = true ∨ ∃ pre n post, l = pre ++ n :: post ∧
        (n.id = i ∧ (u.rules batch).pending n ∧ ((st.symToTs (symOf n)).isSome = true ∨
          (u.rules batch).Learnt (pre ++ [n]) (symOf n))) := by
  induction l generalizing st with
  | nil => simp
  | cons m l ih =>
    rw [FirstMatch.exists_split_cons]
    cases hm : u.leftUnmatched batch m with
    | none =>
      have hpend : ¬ (u.rules batch).pending m := by simp [Unifier.rules, hm]
      rw [List.filterMap_cons_none hm, ih]
      simp [hpend, FirstMatch.Rules.learnt_cons]
    | some d =>
      obtain ⟨hid, hsym, _⟩ :=
        Unifier.prepare_definition (Unifier.leftUnmatched_eq_some.mp hm).1
      have hpend : (u.rules batch).pending m := by simp [Unifier.rules, hm]
      have hown : (u.rules batch).own m ↔ (u.ownRung d).isSome = true := by
        simp [Unifier.rules, hm]
      have hkey : (u.rules batch).key m = symOf m := rfl
      obtain ⟨halias, hlearn⟩ := rescue_maps u st d
      have hnow : ((st.rescue u d).aliasMap i).isSome = true ↔ (st.aliasMap i).isSome = true ∨
          (m.id = i ∧ ((st.symToTs (symOf m)).isSome = true ∨ (u.ownRung d).isSome = true)) := by
        rw [halias, hid, hsym]
        by_cases hi : m.id = i <;> simp [hi, or_comm]
      have hthen : ∀ k, ((st.rescue u d).symToTs k).isSome = true ↔
          (st.symToTs k).isSome = true ∨ ((u.ownRung d).isSome = true ∧ symOf m = k) := by
        intro k
        rw [hlearn, hsym]
        by_cases hk : symOf m = k <;> simp [hk]
      rw [List.filterMap_cons_some hm, List.foldl_cons, ih, hnow]
      simp only [hthen, List.nil_append, List.cons_append, FirstMatch.Rules.learnt_cons, hpend,
        hown, hkey, true_and, and_true, or_assoc]
      simp [FirstMatch.Rules.Learnt]

theorem isSome_unifyPass (u : Unifier) (batch : List Node) (i : NodeId) :
    ((unifyPass u batch).aliasMap i).isSome = true ↔ (u.rules batch).Settled batch i := by
  obtain ⟨halias, hsym, hun⟩ := foldl_visit_spec u batch batch .empty
  have hsecond := foldl_rescue_spec u batch batch (batch.foldl (visit u batch) .empty) i
  have hempty : (Pass.empty.unmatched ++ batch.filterMap (u.leftUnmatched batch)) =
      batch.filterMap (u.leftUnmatched batch) := rfl
  rw [unifyPass]
  simp only [foldl_dropLocal_aliasMap, hun, hempty]
  rw [hsecond, halias]
  constructor
  · rintro ((hno | ⟨n, hn, hid, hfirst⟩) | ⟨pre, n, post, hl, hid, hp, hkey⟩)
    · cases hno
    · obtain ⟨pre, post, hl⟩ := List.append_of_mem hn
      exact ⟨pre, n, post, hl, hid, hfirst.imp_right .inl⟩
    · refine ⟨pre, n, post, hl, hid, .inr (.inr ⟨hp, hkey.imp_left fun hs => ?_⟩)⟩
      rcases (hsym _).mp hs with hno | htaught
      · cases hno
      · exact htaught
  · rintro ⟨pre, n, post, hl, hid, hteach | halone | ⟨hp, hkey⟩⟩
    · exact .inl (.inr ⟨n, hl ▸ List.mem_append_right pre List.mem_cons_self, hid, .inl hteach⟩)
    · exact .inl (.inr ⟨n, hl ▸ List.mem_append_right pre List.mem_cons_self, hid, .inr halone⟩)
    · exact .inr ⟨pre, n, post, hl, hid, hp, hkey.imp_left fun ht => (hsym _).mpr (.inr ht)⟩

end Pass

namespace Unifier

variable {u : Unifier} {batch batch' : List Node} {n : Node} {d : Definition}

theorem prepare_eq (u : Unifier) (batch : List Node) (n : Node) :
    u.prepare batch n =
      match u.prepare [] n with
      | .definition d => .definition { d with sameFile := u.sameFileOf batch n d.parsed }
      | p => p := by
  unfold prepare
  by_cases hfile : isFilePackage n = true
  · simp only [hfile, if_true]
  simp only [hfile]
  cases u.parseName n with
  | none => rfl
  | some p =>
    obtain ⟨parsed, isScip⟩ := p
    by_cases hleaf : isDslScopeLeaf u.tables parsed = true
    · simp only [hleaf]
      rfl
    by_cases hanon : isAnonymousType n parsed = true
    · simp only [hleaf, hanon]
      rfl
    by_cases hskip : (isScip && !phaseAIndexed u.nodes u.corpus n.vname.path) = true
    · simp only [hleaf, hanon, hskip]
      rfl
    simp only [hleaf, hanon, hskip]
    cases n.line <;> rfl

theorem mem_sameFileOf_perm (h : batch'.Perm batch) (p : ScipName) (s : String) :
    s ∈ u.sameFileOf batch' n p ↔ s ∈ u.sameFileOf batch n p := by
  have htypes : ∀ path t, t ∈ u.clangTypes batch' path ↔ t ∈ u.clangTypes batch path :=
    fun path t => ((h.filter _).filterMap _).mem_iff
  unfold sameFileOf
  simp only [List.mem_append]
  refine or_congr_left (or_congr_right ?_)
  cases p.container with
  | none => exact Iff.rfl
  | some c =>
    simp only [List.mem_append]
    refine or_congr_right ?_
    split_ifs
    · simp only [List.mem_map, htypes]
    · exact Iff.rfl

theorem isSome_spanRung {d' : Definition} (hpath : d'.path = d.path) (hline : d'.line = d.line)
    (hsame : ∀ s, s ∈ d'.sameFile ↔ s ∈ d.sameFile) :
    (u.spanRung d').isSome = (u.spanRung d).isSome := by
  have hrows : candidateRows u.nodes u.corpus d'.path d'.sameFile =
      candidateRows u.nodes u.corpus d.path d.sameFile := by
    simp only [candidateRows, hpath, hsame]
  simp only [spanRung, findTsNodeForUnification, hrows, hline, Option.isSome_map]
  cases hf : (candidateRows u.nodes u.corpus d.path d.sameFile).filter fun p =>
      p.Spans d.line ∨ p.distance d.line ≤ MAX_LINE_DELTA with
  | nil => rfl
  | cons p ps =>
    have hne : ∀ f : Placed → Rank, ((p :: ps).argmin f).isSome = true := by
      intro f
      rw [Option.isSome_iff_ne_none, ne_eq, List.argmin_eq_none]
      exact List.cons_ne_nil p ps
    rw [hne, hne]

/-- A node is prepared alike in every order of the batch. -/
inductive Alike (u : Unifier) : Prepared → Prepared → Prop
  | refl (p : Prepared) : Alike u p p
  | definition {d d' : Definition} (hdsl : d'.dslContained = d.dslContained)
      (hspan : (u.spanRung d').isSome = (u.spanRung d).isSome)
      (hown : u.ownRung d' = u.ownRung d) : Alike u (.definition d) (.definition d')

theorem alike_prepare (h : batch'.Perm batch) (n : Node) :
    Alike u (u.prepare batch n) (u.prepare batch' n) := by
  rw [prepare_eq u batch, prepare_eq u batch']
  cases u.prepare [] n with
  | definition d =>
    exact .definition rfl (isSome_spanRung rfl rfl (mem_sameFileOf_perm h d.parsed)) rfl
  | _ => exact .refl _

theorem rules_perm (h : batch'.Perm batch) : u.rules batch' = u.rules batch := by
  have hnode : ∀ n, (u.spanTwin batch' n).isSome = (u.spanTwin batch n).isSome ∧
      u.fieldTwin batch' n = u.fieldTwin batch n ∧
      (u.leftUnmatched batch' n).isSome = (u.leftUnmatched batch n).isSome ∧
      (u.leftUnmatched batch' n).any (fun d => (u.ownRung d).isSome) =
        (u.leftUnmatched batch n).any (fun d => (u.ownRung d).isSome) := by
    intro n
    have halike := alike_prepare h n (u := u)
    unfold spanTwin fieldTwin leftUnmatched
    generalize u.prepare batch n = p at halike ⊢
    generalize u.prepare batch' n = p' at halike ⊢
    cases halike with
    | refl => exact ⟨rfl, rfl, rfl, rfl⟩
    | @definition d d' hdsl hspan hown =>
      have hnone : u.spanRung d' = none ↔ u.spanRung d = none := by
        rw [← Option.isNone_iff_eq_none, ← Option.isNone_iff_eq_none, ← Option.not_isSome,
          ← Option.not_isSome, hspan]
      refine ⟨hspan, rfl, ?_, ?_⟩
      · simp only [hnone, hdsl]
        split_ifs <;> rfl
      · simp only [hnone, hdsl]
        split_ifs
        · exact congrArg Option.isSome hown
        · rfl
  unfold rules
  simp only [hnode]

/-- The node has an alias in the outcome for the batch. -/
def Aliased (u : Unifier) (batch : List Node) (refs : List ScipRef) (n : Node) : Prop :=
  ((unifyAll u batch refs).1.aliasMap n.id).isSome = true

instance (u : Unifier) (batch : List Node) (refs : List ScipRef) (n : Node) :
    Decidable (u.Aliased batch refs n) :=
  inferInstanceAs (Decidable (_ = true))

/-- The node enters the unmatched set. -/
def EntersUnmatched (u : Unifier) (batch : List Node) (n : Node) : Prop :=
  (u.leftUnmatched batch n).isSome = true

/-- Where one occurrence of a symbol is aliased, all those that entered the unmatched set are. -/
def NoOrphanTwin (u : Unifier) (batch : List Node) (refs : List ScipRef) : Prop :=
  ∀ a ∈ batch, ∀ b ∈ batch, symOf a = symOf b → u.Aliased batch refs a →
    u.EntersUnmatched batch b → u.Aliased batch refs b

/-- A node that comes by an alias wherever it stands in the batch: a span matches it, or it is a
setter whose field is found, or it is left unmatched and either a span matches another occurrence
of its symbol or its own lookups, of overloads and across files, find a node. -/
def FindsTwin (u : Unifier) (batch : List Node) (n : Node) : Prop := (u.rules batch).Sure batch n

/-- Of each symbol, no occurrence finds a twin or each one that enters the unmatched set does, or
shares its id with one that does. -/
def TwinsAgree (u : Unifier) (batch : List Node) : Prop :=
  ∀ a ∈ batch, ∀ b ∈ batch, symOf a = symOf b →
    (∃ c ∈ batch, c.id = a.id ∧ u.FindsTwin batch c) → u.EntersUnmatched batch b →
    ∃ c ∈ batch, c.id = b.id ∧ u.FindsTwin batch c

/-- In every order of the batch no twin is orphaned and the same nodes are aliased, exactly when
the occurrences of each symbol agree. -/
theorem no_orphan_twin_iff (u : Unifier) (batch : List Node) (refs : List ScipRef) :
    (∀ batch', batch'.Perm batch → u.NoOrphanTwin batch' refs ∧
      ∀ i, ((unifyAll u batch' refs).1.aliasMap i).isSome = true ↔
        ((unifyAll u batch refs).1.aliasMap i).isSome = true) ↔
      u.TwinsAgree batch := by
  have hmap : ∀ b i, ((unifyAll u b refs).1.aliasMap i).isSome = true ↔
      (u.rules b).Settled b i := fun b i => Pass.isSome_unifyPass u b i
  have hno : ∀ batch', batch'.Perm batch →
      (u.NoOrphanTwin batch' refs ↔ (u.rules batch).NoOrphan batch') := by
    intro batch' h
    rw [← rules_perm h]
    simp only [NoOrphanTwin, Aliased, EntersUnmatched, hmap]
    exact Iff.rfl
  have hiff := FirstMatch.Rules.noOrphan_iff (u.rules batch) batch
  refine Iff.trans (forall₂_congr fun batch' h => ?_) hiff
  rw [hno batch' h]
  simp only [hmap, rules_perm h]

/-- A file with the group of a method at its tenth line, a file that only names its class, and a
function elsewhere that shares the method's name. -/
def splitMethodRows : NodeTable :=
  List.foldl
    (fun t (r : Nat × String × String × String × Nat × Nat) =>
      t.insertIgnore ⟨r.1, ⟨"c", "", r.2.1, "csharp", r.2.2.1⟩, r.2.2.2.1, "", some r.2.2.2.2.1,
        some r.2.2.2.2.2, false, .none, none⟩)
    Relational.IndexedTable.empty
    [(1, "B.cs", "method:C.n", "method", 10, 12), (2, "D.cs", "fn:n", "function", 1, 3),
      (3, "A.cs", "class:C", "class", 1, 90)]

def splitMethodUnifier : Unifier := ⟨⟨Char.isAlpha, Char.isAlphanum⟩, splitMethodRows, "c"⟩

def splitMethod (id : NodeId) (path : String) (line : Nat) : Node :=
  ⟨id, ⟨"c", "", path, "csharp", "scip:" ++ path ++ ":scip-dotnet nuget . . C#n()."⟩, "definition",
    "", some line, none, .none⟩

/-- The occurrence that comes first stays behind: only a later one finds the method's group. -/
theorem first_occurrence_is_orphaned : ¬ ∀ (u : Unifier) (batch : List Node) (refs : List ScipRef),
    ∀ batch', batch'.Perm batch → u.NoOrphanTwin batch' refs ∧
      ∀ i, ((unifyAll u batch' refs).1.aliasMap i).isSome = true ↔
        ((unifyAll u batch refs).1.aliasMap i).isSome = true := by
  intro h
  let batch := [splitMethod 11 "A.cs" 5, splitMethod 12 "B.cs" 50]
  have htwin := (h splitMethodUnifier batch [] batch (.refl batch)).1 (splitMethod 12 "B.cs" 50)
    (List.mem_cons_of_mem _ List.mem_cons_self) (splitMethod 11 "A.cs" 5) List.mem_cons_self
  have hsym : symOf (splitMethod 12 "B.cs" 50) = symOf (splitMethod 11 "A.cs" 5) := by
    decide +kernel
  have haliased : splitMethodUnifier.Aliased batch [] (splitMethod 12 "B.cs" 50) := by
    decide +kernel
  have henters : splitMethodUnifier.EntersUnmatched batch (splitMethod 11 "A.cs" 5) := by
    show (splitMethodUnifier.leftUnmatched batch (splitMethod 11 "A.cs" 5)).isSome = true
    decide +kernel
  have horphan : ¬ splitMethodUnifier.Aliased batch [] (splitMethod 11 "A.cs" 5) := by
    decide +kernel
  exact horphan (htwin hsym haliased henters)

end Unifier

end Travsr.Daemon
