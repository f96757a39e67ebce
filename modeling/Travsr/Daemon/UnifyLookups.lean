import Travsr.Daemon.UnifyOrder

namespace Travsr.Daemon

open Travsr.Core Core.Text Indexer Store

/-! ### What a node is sent to -/

namespace Unifier

/-- What the lookups of an occurrence of the symbol answer: a span, or else its own rungs. -/
def Offers (u : Unifier) (batch : List Node) (sym : String) (ts : NodeId) : Prop :=
  ∃ m ∈ batch, symOf m = sym ∧
    (u.spanTwin batch m = some ts ∨ (u.leftUnmatched batch m).bind u.ownRung = some ts)

/-- What the pass may send a node to: the answer to a lookup of its own, or what some occurrence of
its symbol finds when it is left unmatched. -/
def Sends (u : Unifier) (batch : List Node) (n : Node) (ts : NodeId) : Prop :=
  u.spanTwin batch n = some ts ∨ u.fieldTwin batch n = some ts ∨
    (u.EntersUnmatched batch n ∧ u.Offers batch (symOf n) ts)

/-- The pass drops the node where it comes by it. -/
def Drops (u : Unifier) (batch : List Node) (n : Node) : Prop :=
  u.prepare batch n = .dropped ∨
    ∃ d, u.prepare batch n = .definition d ∧ u.spanRung d = none ∧ d.dslContained = true

/-- A symbol of Kotlin's inside a function. -/
def IsLocalSymbol (u : Unifier) (n : Node) : Prop :=
  n.vname.language = "kotlin" ∧ n.kind = "symbol" ∧ Pass.isLocal u n = true

/-- An entry of the id is dropped. -/
def DropsId (u : Unifier) (batch : List Node) (i : NodeId) : Prop :=
  (∃ n ∈ batch, n.id = i ∧ u.Drops batch n) ∨
    ∃ n ∈ batch, n.id = i ∧ u.IsLocalSymbol n ∧ ¬ (u.rules batch).Settled batch i

/-- A node that no lookup settles and nothing drops. -/
def LeftOver (u : Unifier) (batch : List Node) (n : Node) : Prop :=
  ¬ (u.rules batch).Settled batch n.id ∧ ¬ u.DropsId batch n.id

open Classical in
noncomputable def leftOvers (u : Unifier) (batch : List Node) : List Node :=
  batch.filter fun n => u.LeftOver batch n

def survivors (u : Unifier) (batch : List Node) (refs : List ScipRef) : List Node :=
  batch.filter fun n => (unifyAll u batch refs).1.aliasMap n.id = none ∧
    n.id ∉ (unifyAll u batch refs).1.dropped

/-- The pass over the store that some Phase B nodes have been written to. -/
def written (u : Unifier) (lex : Lexical) (nodes : List Node) : Unifier :=
  { u with nodes := (nodes.foldl phaseBNode (u.nodes, lex)).1 }

end Unifier

namespace Pass

variable {u : Unifier} {batch l : List Node} {n : Node} {st : Pass} {d : Definition}
  {i ts : NodeId} {sym : String}

/-- What the pass has gathered is what the lookups answered. -/
structure Gathered (u : Unifier) (batch : List Node) (st : Pass) : Prop where
  aliasMap : ∀ i ts, st.aliasMap i = some ts → ∃ n ∈ batch, n.id = i ∧ u.Sends batch n ts
  symToTs : ∀ k ts, st.symToTs k = some ts → u.Offers batch k ts

theorem gathered_empty : Gathered u batch .empty where
  aliasMap := by
    intro i ts h
    cases h
  symToTs := by
    intro k ts h
    cases h

theorem Gathered.visit (h : Gathered u batch st) (hn : n ∈ batch) :
    Gathered u batch (st.visit u batch n) := by
  obtain ⟨halias, hsym, _⟩ := visit_maps u batch st n
  constructor
  · intro i ts hi
    rw [halias, Option.orElse_eq_some, Option.ite_none_right_eq_some, Option.orElse_eq_some] at hi
    rcases hi with ⟨hid, hs | ⟨_, hf⟩⟩ | ⟨_, hi⟩
    · exact ⟨n, hn, hid, .inl hs⟩
    · exact ⟨n, hn, hid, .inr (.inl hf)⟩
    · exact h.aliasMap i ts hi
  · intro k ts hk
    rw [hsym, Option.orElse_eq_some, Option.ite_none_right_eq_some] at hk
    rcases hk with hk | ⟨_, hsymn, hs⟩
    · exact h.symToTs k ts hk
    · exact ⟨n, hn, hsymn, .inl hs⟩

theorem Gathered.rescue (h : Gathered u batch st) (hn : n ∈ batch)
    (hd : u.leftUnmatched batch n = some d) : Gathered u batch (st.rescue u d) := by
  obtain ⟨halias, hsym⟩ := rescue_maps u st d
  obtain ⟨hid, hsymn, _⟩ :=
    Unifier.prepare_definition (Unifier.leftUnmatched_eq_some.mp hd).1
  have henters : u.EntersUnmatched batch n := by
    rw [Unifier.EntersUnmatched, hd]
    rfl
  have hown : ∀ ts, u.ownRung d = some ts → u.Offers batch (symOf n) ts := by
    intro ts hts
    refine ⟨n, hn, rfl, .inr ?_⟩
    rw [hd]
    exact hts
  constructor
  · intro i ts hi
    rw [halias, hsymn, Option.orElse_eq_some, Option.ite_none_right_eq_some,
      Option.orElse_eq_some] at hi
    rcases hi with ⟨hni, hs | ⟨_, ho⟩⟩ | ⟨_, hi⟩
    · exact ⟨n, hn, hid.symm.trans hni, .inr (.inr ⟨henters, h.symToTs _ ts hs⟩)⟩
    · exact ⟨n, hn, hid.symm.trans hni, .inr (.inr ⟨henters, hown ts ho⟩)⟩
    · exact h.aliasMap i ts hi
  · intro k ts hk
    rw [hsym, hsymn, Option.orElse_eq_some, Option.ite_none_right_eq_some] at hk
    rcases hk with hk | ⟨_, rfl, ho⟩
    · exact h.symToTs k ts hk
    · exact hown ts ho

theorem Gathered.foldl_visit (h : Gathered u batch st) (hl : ∀ n ∈ l, n ∈ batch) :
    Gathered u batch (l.foldl (Pass.visit u batch) st) := by
  induction l generalizing st with
  | nil => exact h
  | cons n l ih =>
    exact ih (h.visit (hl n List.mem_cons_self)) fun m hm => hl m (List.mem_cons_of_mem n hm)

theorem Gathered.foldl_rescue (h : Gathered u batch st) (hl : ∀ n ∈ l, n ∈ batch) :
    Gathered u batch ((l.filterMap (u.leftUnmatched batch)).foldl (Pass.rescue u) st) := by
  induction l generalizing st with
  | nil => exact h
  | cons n l ih =>
    have hrest : ∀ m ∈ l, m ∈ batch := fun m hm => hl m (List.mem_cons_of_mem n hm)
    cases hd : u.leftUnmatched batch n with
    | none =>
      rw [List.filterMap_cons_none hd]
      exact ih h hrest
    | some d =>
      rw [List.filterMap_cons_some hd]
      exact ih (h.rescue (hl n List.mem_cons_self) hd) hrest

theorem sends_of_aliasMap (h : (unifyPass u batch).aliasMap i = some ts) :
    ∃ n ∈ batch, n.id = i ∧ u.Sends batch n ts := by
  have hun : (batch.foldl (visit u batch) .empty).unmatched =
      batch.filterMap (u.leftUnmatched batch) := (foldl_visit_spec u batch batch .empty).2.2
  rw [unifyPass] at h
  simp only [foldl_dropLocal_aliasMap, hun] at h
  have hfirst : Gathered u batch (batch.foldl (visit u batch) .empty) :=
    gathered_empty.foldl_visit fun _ hn => hn
  exact (hfirst.foldl_rescue fun _ hn => hn).aliasMap i ts h

/-! ### What the pass drops -/

theorem attempt_dropped (st : Pass) (d : Definition) : (st.attempt d).dropped = st.dropped := by
  unfold attempt
  split_ifs <;> rfl

theorem credit_dropped (st : Pass) (d : Definition) : (st.credit d).dropped = st.dropped := by
  unfold credit
  split_ifs <;> rfl

theorem mem_visit_dropped :
    i ∈ (st.visit u batch n).dropped ↔ i ∈ st.dropped ∨ (n.id = i ∧ u.Drops batch n) := by
  unfold visit Unifier.Drops
  cases hp : u.prepare batch n with
  | skipped => simp
  | dropped => simp [@eq_comm _ i]
  | lineless p =>
    cases ht : u.setterTwin n p <;> simp [ht]
  | definition d =>
    obtain ⟨hid, _⟩ := Unifier.prepare_definition hp
    simp only [define]
    cases hs : u.spanRung d with
    | some ts => simp [hs, credit_dropped, bind, attempt_dropped]
    | none =>
      by_cases hd : d.dslContained = true
      · simp [hs, hd, attempt_dropped, hid, @eq_comm _ i]
      · simp [hd, attempt_dropped]

theorem rescue_dropped (u : Unifier) (st : Pass) (d : Definition) :
    (st.rescue u d).dropped = st.dropped := by
  unfold rescue
  cases st.symToTs d.scipSym <|> u.overloadRung d <|> u.acrossRung d with
  | none => rfl
  | some ts =>
    show ((st.bind d ts).creditAttempted d.scipSym).dropped = st.dropped
    unfold creditAttempted
    split_ifs <;> rfl

theorem mem_foldl_visit_dropped :
    i ∈ (l.foldl (visit u batch) st).dropped ↔
      i ∈ st.dropped ∨ ∃ n ∈ l, n.id = i ∧ u.Drops batch n := by
  induction l generalizing st with
  | nil => simp
  | cons n l ih =>
    rw [List.foldl_cons, ih, mem_visit_dropped]
    simp only [List.mem_cons, exists_eq_or_imp, or_assoc]

theorem foldl_rescue_dropped (ds : List Definition) :
    (ds.foldl (rescue u) st).dropped = st.dropped := by
  induction ds generalizing st with
  | nil => rfl
  | cons d ds ih => exact (ih).trans (rescue_dropped u st d)

theorem mem_foldl_dropLocal_dropped :
    i ∈ (l.foldl (dropLocal u) st).dropped ↔
      i ∈ st.dropped ∨ ∃ n ∈ l, n.id = i ∧ u.IsLocalSymbol n ∧ st.aliasMap i = none := by
  induction l generalizing st with
  | nil => simp
  | cons n l ih =>
    have hstep : i ∈ (st.dropLocal u n).dropped ↔
        i ∈ st.dropped ∨ (n.id = i ∧ u.IsLocalSymbol n ∧ st.aliasMap i = none) := by
      unfold dropLocal Unifier.IsLocalSymbol
      split_ifs with h
      · obtain ⟨hk, hs, ha, hloc⟩ := h
        rw [List.mem_append, List.mem_singleton]
        refine or_congr_right ⟨?_, fun h => h.1.symm⟩
        rintro rfl
        exact ⟨rfl, ⟨hk, hs, hloc⟩, ha⟩
      · constructor
        · exact .inl
        · rintro (h' | ⟨rfl, ⟨hk, hs, hloc⟩, ha⟩)
          · exact h'
          · exact absurd ⟨hk, hs, ha, hloc⟩ h
    rw [List.foldl_cons, ih, hstep, (sameMaps_dropLocal u st n).aliasMap]
    simp only [List.mem_cons, exists_eq_or_imp, or_assoc]

theorem mem_dropped_iff : i ∈ (unifyPass u batch).dropped ↔ u.DropsId batch i := by
  have hsome := isSome_unifyPass u batch i
  rw [unifyPass] at hsome ⊢
  simp only [foldl_dropLocal_aliasMap] at hsome
  simp only [mem_foldl_dropLocal_dropped, foldl_rescue_dropped, mem_foldl_visit_dropped]
  have hnone : ∀ o : Option NodeId, o = none ↔ ¬ o.isSome = true := by simp
  rw [Unifier.DropsId, ← hsome]
  simp only [hnone]
  simp [empty]

end Pass

namespace Unifier

variable {u : Unifier} {batch : List Node} {refs : List ScipRef} {n : Node}

theorem survivors_eq (u : Unifier) (batch : List Node) (refs : List ScipRef) :
    u.survivors batch refs = u.leftOvers batch := by
  unfold survivors leftOvers
  apply List.filter_congr
  intro n _
  have halias : (unifyPass u batch).aliasMap n.id = none ↔ ¬ (u.rules batch).Settled batch n.id := by
    rw [← Pass.isSome_unifyPass]
    simp
  have hdrop : n.id ∈ (unifyPass u batch).dropped ↔ u.DropsId batch n.id := Pass.mem_dropped_iff
  rw [decide_eq_decide]
  exact and_congr halias (not_congr hdrop)

end Unifier

/-! ### The pass is made of its lookups -/

/-- The lookups made for a node of the batch answer alike in two stores. -/
structure SameAnswers (u u' : Unifier) (batch : List Node) (n : Node) : Prop where
  prepare : u'.prepare batch n = u.prepare batch n
  span : ∀ d, u.prepare batch n = .definition d → u'.spanRung d = u.spanRung d
  /-- Where no span has matched its symbol. -/
  own : ∀ d, u.leftUnmatched batch n = some d → ¬ (u.rules batch).Taught batch (symOf n) →
    u'.ownRung d = u.ownRung d
  field : ∀ p, u.prepare batch n = .lineless p → u'.setterTwin n p = u.setterTwin n p
  scope : n.vname.language = "kotlin" → n.kind = "symbol" → ¬ (u.rules batch).Settled batch n.id →
    Pass.isLocal u' n = Pass.isLocal u n

namespace Pass

variable {u u' : Unifier} {batch l : List Node} {n : Node} {st : Pass} {d : Definition}

theorem visit_congr (h : SameAnswers u u' batch n) (st : Pass) :
    st.visit u' batch n = st.visit u batch n := by
  unfold visit
  rw [h.prepare]
  cases hp : u.prepare batch n with
  | skipped => rfl
  | dropped => rfl
  | lineless p =>
    dsimp only
    rw [h.field p hp]
  | definition d =>
    dsimp only [define]
    rw [h.span d hp]

theorem rescue_congr (h : (st.symToTs d.scipSym).isSome = true ∨ u'.ownRung d = u.ownRung d) :
    st.rescue u' d = st.rescue u d := by
  have hrung : (st.symToTs d.scipSym <|> u'.ownRung d) = (st.symToTs d.scipSym <|> u.ownRung d) := by
    rcases h with h | h
    · obtain ⟨ts, hts⟩ := Option.isSome_iff_exists.mp h
      rw [hts]
      rfl
    · rw [h]
  unfold rescue
  rw [show (st.symToTs d.scipSym <|> u'.overloadRung d <|> u'.acrossRung d) =
    (st.symToTs d.scipSym <|> u.overloadRung d <|> u.acrossRung d) from hrung]

theorem foldl_rescue_congr {ds : List Definition}
    (h : ∀ d ∈ ds, (st.symToTs d.scipSym).isSome = true ∨ u'.ownRung d = u.ownRung d) :
    ds.foldl (rescue u') st = ds.foldl (rescue u) st := by
  induction ds generalizing st with
  | nil => rfl
  | cons d ds ih =>
    rw [List.foldl_cons, List.foldl_cons, rescue_congr (h d List.mem_cons_self)]
    apply ih
    intro e he
    refine (h e (List.mem_cons_of_mem d he)).imp_left fun hs => ?_
    obtain ⟨ts, hts⟩ := Option.isSome_iff_exists.mp hs
    rw [(rescue_maps u st d).2, hts]
    rfl

theorem foldl_dropLocal_congr
    (h : ∀ n ∈ l, n.vname.language = "kotlin" → n.kind = "symbol" → st.aliasMap n.id = none →
      isLocal u' n = isLocal u n) :
    l.foldl (dropLocal u') st = l.foldl (dropLocal u) st := by
  induction l generalizing st with
  | nil => rfl
  | cons n l ih =>
    have hstep : st.dropLocal u' n = st.dropLocal u n := by
      unfold dropLocal
      by_cases hn : n.vname.language = "kotlin" ∧ n.kind = "symbol" ∧ st.aliasMap n.id = none
      · rw [h n List.mem_cons_self hn.1 hn.2.1 hn.2.2]
      · rw [if_neg fun hc => hn ⟨hc.1, hc.2.1, hc.2.2.1⟩, if_neg fun hc => hn ⟨hc.1, hc.2.1, hc.2.2.1⟩]
    rw [List.foldl_cons, List.foldl_cons, hstep]
    apply ih
    intro m hm
    rw [(sameMaps_dropLocal u st n).aliasMap]
    exact h m (List.mem_cons_of_mem n hm)

theorem unifyPass_congr (h : ∀ n ∈ batch, SameAnswers u u' batch n) :
    unifyPass u' batch = unifyPass u batch := by
  obtain ⟨_, hsym, hun⟩ := foldl_visit_spec u batch batch .empty
  have hfirst : batch.foldl (visit u' batch) .empty = batch.foldl (visit u batch) .empty :=
    List.foldl_ext _ _ _ fun st n hn => visit_congr (h n hn) st
  have hsecond : ((batch.foldl (visit u batch) .empty).unmatched).foldl (rescue u')
        (batch.foldl (visit u batch) .empty) =
      ((batch.foldl (visit u batch) .empty).unmatched).foldl (rescue u)
        (batch.foldl (visit u batch) .empty) := by
    apply foldl_rescue_congr
    intro d hd
    rw [hun] at hd
    obtain ⟨n, hn, hleft⟩ := List.mem_filterMap.mp (show d ∈ batch.filterMap _ from hd)
    obtain ⟨_, hdsym, _⟩ :=
      Unifier.prepare_definition (Unifier.leftUnmatched_eq_some.mp hleft).1
    by_cases htaught : (u.rules batch).Taught batch (symOf n)
    · exact .inl (hdsym ▸ (hsym _).mpr (.inr htaught))
    · exact .inr ((h n hn).own d hleft htaught)
  unfold unifyPass
  dsimp only
  rw [hfirst, hsecond]
  apply foldl_dropLocal_congr
  intro n hn hk hs hnone
  apply (h n hn).scope hk hs
  rw [← isSome_unifyPass, unifyPass]
  simp only [foldl_dropLocal_aliasMap, hnone]
  exact Bool.false_ne_true

end Pass

/-! ### A second run repeats the first -/

/-- No alias goes to the node itself or to one of the nodes that only Phase B wrote, and a run over
the store that the survivors are written to repeats the verdict. -/
structure Repeats (u : Unifier) (lex : Lexical) (batch : List Node) (refs : List ScipRef)
    (onlyB : NodeId → Prop) : Prop where
  ontoPhaseA : ∀ i ts, (unifyAll u batch refs).1.aliasMap i = some ts → ts ≠ i ∧ ¬ onlyB ts
  again : ∀ out, out = (unifyAll (u.written lex (u.survivors batch refs)) batch refs).1 →
    out.attempted = (unifyAll u batch refs).1.attempted ∧
    out.unified = (unifyAll u batch refs).1.unified ∧
    out.misses = (unifyAll u batch refs).1.misses ∧
    out.aliasMap = (unifyAll u batch refs).1.aliasMap

/-- No lookup made for a node of the batch, or for another occurrence of its symbol, answers with
the node itself or with one that only Phase B wrote, and every lookup answers alike once the nodes
that are left over have been written. -/
structure Steady (u : Unifier) (lex : Lexical) (batch : List Node) (onlyB : NodeId → Prop) :
    Prop where
  sends : ∀ n ∈ batch, ∀ ts, u.Sends batch n ts → ts ≠ n.id ∧ ¬ onlyB ts
  answers : ∀ n ∈ batch, SameAnswers u (u.written lex (u.leftOvers batch)) batch n

end Travsr.Daemon
