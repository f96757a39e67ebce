import Mathlib.Data.List.Infix
import Travsr.Lib.Postings
import Travsr.Store.Batch
import Travsr.Store.Delete
import Travsr.Store.PhaseB
import Travsr.Store.Read

namespace Travsr.Store

open Travsr.Core Relational Postings

def refcount (vocab : Vocab) (tok : String) : Nat := ((vocab.find? tok).map VocabRow.refcount).getD 0

def occurrences (tok : String) (rows : Multiset FtsMapRow) : Nat :=
  (rows.map fun m => (vocabTokens m.tokens).count tok).sum

theorem refcount_vocabIncrement (vocab : Vocab) (tokens tok : String) :
    refcount (vocabIncrement vocab tokens) tok =
      refcount vocab tok + (vocabTokens tokens).count tok := by
  unfold vocabIncrement
  induction vocabTokens tokens generalizing vocab with
  | nil => simp
  | cons a as ih =>
    have hstep : refcount (vocab.upsert ⟨a, 1⟩ (fun r => { r with refcount := r.refcount + 1 })
        (fun _ => rfl)) tok = refcount vocab tok + if a = tok then 1 else 0 := by
      rw [refcount, Table.find?_upsert]
      by_cases h : a = tok
      · subst h
        rw [if_pos rfl, if_pos rfl, refcount]
        cases vocab.find? a <;> rfl
      · rw [if_neg h, if_neg h]
        rfl
    rw [List.foldl_cons, ih, hstep, List.count_cons, beq_eq_decide]
    simp only [decide_eq_true_eq]
    omega

theorem refcount_vocabDecrement (vocab : Vocab) (tokens tok : String) :
    refcount (vocabDecrement vocab tokens) tok =
      refcount vocab tok - (vocabTokens tokens).count tok := by
  unfold vocabDecrement
  induction vocabTokens tokens generalizing vocab with
  | nil => simp
  | cons a as ih =>
    have hstep : refcount (vocab.updateWhere (fun r => r.token = a)
        (fun r => { r with refcount := r.refcount - 1 }) (fun _ => rfl)) tok =
          refcount vocab tok - if a = tok then 1 else 0 := by
      rw [refcount, Table.find?_updateWhere, refcount]
      cases hf : vocab.find? tok with
      | none => simp
      | some r =>
        have hk : r.token = tok := (Table.mem_of_find? hf).2
        by_cases h : a = tok
        · simp [hk, h]
        · simp [hk, h, Ne.symm h]
    rw [List.foldl_cons, ih, hstep, List.count_cons, beq_eq_decide]
    simp only [decide_eq_true_eq]
    omega

theorem occurrences_cons (tok : String) (m : FtsMapRow) (rows : Multiset FtsMapRow) :
    occurrences tok (m ::ₘ rows) = (vocabTokens m.tokens).count tok + occurrences tok rows := by
  simp only [occurrences, Multiset.map_cons, Multiset.sum_cons]

theorem refcount_foldl_vocabDecrement (old : List FtsMapRow) (vocab : Vocab) (tok : String) :
    refcount (old.foldl (fun v m => vocabDecrement v m.tokens) vocab) tok =
      refcount vocab tok - occurrences tok old := by
  induction old generalizing vocab with
  | nil => simp [occurrences]
  | cons m old ih =>
    rw [List.foldl_cons, ih, refcount_vocabDecrement, ← Multiset.cons_coe, occurrences_cons]
    omega

theorem refcount_countedVocab (map : Table FtsMapRow FtsMapRow.nodeId) (tok : String) :
    refcount (Lexical.countedVocab map) tok = occurrences tok map.rows := by
  have hcount : occurrences tok map.rows =
      (map.rows.flatMap fun m => vocabTokens m.tokens).count tok := by
    rw [occurrences, Multiset.map_coe, Multiset.sum_coe, List.count_flatMap]
    rfl
  rw [hcount, refcount]
  by_cases h : tok ∈ map.rows.flatMap fun m => vocabTokens m.tokens
  · have hm : (⟨tok, (map.rows.flatMap fun m => vocabTokens m.tokens).count tok⟩ : VocabRow) ∈
        Lexical.countedVocab map := List.mem_map.mpr ⟨tok, List.mem_dedup.mpr h, rfl⟩
    rw [Table.find?_of_mem hm]
    rfl
  · have hn : (Lexical.countedVocab map).find? tok = none := by
      rw [Table.find?_eq_none]
      intro ⟨r, hr, hk⟩
      obtain ⟨t, ht, htr⟩ := List.mem_map.mp hr
      subst htr
      exact h (hk ▸ List.mem_dedup.mp ht)
    rw [hn, List.count_eq_zero_of_not_mem h]
    rfl

theorem occurrences_filter_add (tok : String) (rows : Multiset FtsMapRow) (p : FtsMapRow → Prop)
    [DecidablePred p] :
    occurrences tok (rows.filter p) + occurrences tok (rows.filter fun m => ¬ p m) =
      occurrences tok rows := by
  rw [occurrences, occurrences, occurrences, ← Multiset.sum_add, ← Multiset.map_add,
    Multiset.filter_add_not]

/-- The map tables remember each stored node with the tokens and the words of its own data. -/
structure Lexical.Remembers (lex : Lexical) (nodes : NodeTable) : Prop where
  ftsMap : ∀ x, lex.ftsMap.find? x = (nodes.find? x).map fun r => ftsRow r.toNode
  wordsMap : ∀ x, lex.wordsMap.find? x = (nodes.find? x).map fun r => wordsRow r.toNode

/-- The index is exact: one posting for each stored node, as its data gives it, remembered in the
map tables, and every refcount the number of occurrences. -/
structure Lexical.Exact (lex : Lexical) (nodes : NodeTable) : Prop extends
    lex.Remembers nodes where
  fts : Faithful (fun _ => False) lex.fts lex.ftsMap
  words : Faithful (fun _ => False) lex.words lex.wordsMap
  vocab : ∀ tok, refcount lex.vocab tok = occurrences tok lex.ftsMap.rows
  pending : lex.pending = none

/-- The index of a bulk run before its rebuild: the postings of the pending nodes are missing, and
their tokens may be missing from the vocabulary. -/
structure Lexical.Deferred (lex : Lexical) (nodes : NodeTable) (ids : List NodeId) : Prop extends
    lex.Remembers nodes where
  fts : Faithful (· ∈ ids) lex.fts lex.ftsMap
  words : Faithful (· ∈ ids) lex.words lex.wordsMap
  vocab : ∀ tok, refcount lex.vocab tok ≤
    occurrences tok ((lex.ftsMap.rows : Multiset FtsMapRow).filter fun m => ¬ m.nodeId ∈ ids)
  pending : lex.pending = some ids

/-- One node of the table is set, with the data its index entries are made of. -/
def NodeSet (nodes nodes' : NodeTable) (n : Node) : Prop :=
  ∃ r : NodeRow, r.id = n.id ∧ r.vname = n.vname ∧ r.kind = n.kind ∧
    ∀ x, nodes'.find? x = if n.id = x then some r else nodes.find? x

theorem ftsRow_congr {a b : Node} (hid : a.id = b.id) (hv : a.vname = b.vname)
    (hk : a.kind = b.kind) : ftsRow a = ftsRow b := by
  simp only [ftsRow, nodeFtsTokens, hid, hv, hk]

theorem wordsRow_congr {a b : Node} (hid : a.id = b.id) (hv : a.vname = b.vname) :
    wordsRow a = wordsRow b := by
  simp only [wordsRow, nodeFtsWords, hid, hv]

namespace Lexical

variable {lex : Lexical} {nodes nodes' : NodeTable} {n : Node} {ids : List NodeId}

theorem Remembers.set (h : lex.Remembers nodes) (hs : NodeSet nodes nodes' n) {lex' : Lexical}
    (hfts : lex'.ftsMap = lex.ftsMap.upsert (ftsRow n)
      (fun r => { r with tokens := (ftsRow n).tokens }) (fun _ => rfl))
    (hwords : lex'.wordsMap = lex.wordsMap.upsert (wordsRow n)
      (fun r => { r with sigWords := (wordsRow n).sigWords, pathWords := (wordsRow n).pathWords })
      (fun _ => rfl)) : lex'.Remembers nodes' := by
  obtain ⟨r, hid, hv, hk, hfind⟩ := hs
  constructor
  · intro x
    rw [hfts, Table.find?_upsert, hfind]
    by_cases hx : n.id = x
    · have hrow : ∀ o : FtsMapRow, o.nodeId = x →
          ({ o with tokens := (ftsRow n).tokens } : FtsMapRow) = ftsRow n := by
        intro o ho
        rw [ho, ← hx]
        rfl
      rw [if_pos hx, if_pos (show (ftsRow n).nodeId = x from hx), Option.map_some,
        ftsRow_congr (a := r.toNode) hid hv hk]
      cases ho : lex.ftsMap.find? x with
      | none => rfl
      | some o => rw [Option.elim_some, hrow o (Table.mem_of_find? ho).2]
    · rw [if_neg hx, if_neg (show ¬ (ftsRow n).nodeId = x from hx), h.ftsMap]
  · intro x
    rw [hwords, Table.find?_upsert, hfind]
    by_cases hx : n.id = x
    · have hrow : ∀ o : WordsMapRow, o.nodeId = x →
          (⟨o.nodeId, (wordsRow n).sigWords, (wordsRow n).pathWords⟩ : WordsMapRow) =
            wordsRow n := by
        intro o ho
        rw [ho, ← hx]
        rfl
      rw [if_pos hx, if_pos (show (wordsRow n).nodeId = x from hx), Option.map_some,
        wordsRow_congr (a := r.toNode) hid hv]
      cases ho : lex.wordsMap.find? x with
      | none => rfl
      | some o => rw [Option.elim_some, hrow o (Table.mem_of_find? ho).2]
    · rw [if_neg hx, if_neg (show ¬ (wordsRow n).nodeId = x from hx), h.wordsMap]

theorem Exact.put (h : lex.Exact nodes) (hs : NodeSet nodes nodes' n) :
    (lex.put n).Exact nodes' := by
  have hfts : ∀ o : FtsMapRow, o.nodeId = (ftsRow n).nodeId →
      (⟨o.nodeId, (ftsRow n).tokens⟩ : FtsMapRow) = ftsRow n := by
    intro o ho
    rw [ho]
  have hwords : ∀ o : WordsMapRow, o.nodeId = (wordsRow n).nodeId →
      (⟨o.nodeId, (wordsRow n).sigWords, (wordsRow n).pathWords⟩ : WordsMapRow) =
        wordsRow n := by
    intro o ho
    rw [ho]
  refine ⟨h.toRemembers.set hs rfl rfl, ?_, ?_, ?_, h.pending⟩
  · rw [put_fts, put_ftsMap]
    exact h.fts.put hfts
  · rw [put_words, put_wordsMap]
    exact h.words.put hwords
  · intro tok
    rw [put_vocab, put_ftsMap, refcount_vocabIncrement,
      Table.coe_rows_upsert lex.ftsMap (ftsRow n) _ _ hfts]
    change refcount (Option.elim (lex.ftsMap.find? n.id) _ _) tok + _ =
      occurrences tok (ftsRow n ::ₘ Option.elim (lex.ftsMap.find? n.id) _ _)
    rw [occurrences_cons]
    cases hf : lex.ftsMap.find? n.id with
    | none =>
      rw [Option.elim_none, Option.elim_none, h.vocab]
      exact Nat.add_comm _ _
    | some o =>
      have hsplit := occurrences_cons tok o ((lex.ftsMap.rows : Multiset FtsMapRow).erase o)
      rw [Multiset.cons_erase (Multiset.mem_coe.mpr (Table.mem_of_find? hf).1)] at hsplit
      rw [Option.elim_some, Option.elim_some, refcount_vocabDecrement, h.vocab, hsplit]
      simp only [ftsRow]
      omega

theorem Remembers.retract (h : lex.Remembers nodes) {p : NodeRow → Prop} [DecidablePred p]
    {old : Finset NodeId} (hold : ∀ r, r ∈ nodes → (r.id ∈ old ↔ p r)) :
    (lex.retract old).Remembers (nodes.deleteWhere p) := by
  have hfind : ∀ x, (nodes.deleteWhere p).find? x = if x ∈ old then none else nodes.find? x := by
    intro x
    have hd : (nodes.deleteWhere p).find? x = (nodes.find? x).filter fun r => ¬ p r :=
      Table.find?_deleteWhere nodes.toTable p x
    rw [hd]
    cases hf : nodes.find? x with
    | none => simp
    | some r =>
      obtain ⟨hm, hid⟩ := Table.mem_of_find? hf
      have := hold r hm
      rw [hid] at this
      by_cases hx : x ∈ old
      · simp [hx, this.mp hx]
      · simp [hx, mt this.mpr hx]
  constructor
  · intro x
    change (lex.ftsMap.deleteWhere _).find? x = _
    rw [Table.find?_deleteWhere, h.ftsMap, hfind]
    cases hf : nodes.find? x with
    | none => simp
    | some r =>
      have hid : r.id = x := (Table.mem_of_find? hf).2
      by_cases hx : x ∈ old <;> simp [hx, ftsRow, NodeRow.toNode, hid, Option.filter]
  · intro x
    change (lex.wordsMap.deleteWhere _).find? x = _
    rw [Table.find?_deleteWhere, h.wordsMap, hfind]
    cases hf : nodes.find? x with
    | none => simp
    | some r =>
      have hid : r.id = x := (Table.mem_of_find? hf).2
      by_cases hx : x ∈ old <;> simp [hx, wordsRow, NodeRow.toNode, hid, Option.filter]

theorem Exact.retract (h : lex.Exact nodes) {p : NodeRow → Prop} [DecidablePred p]
    {old : Finset NodeId} (hold : ∀ r, r ∈ nodes → (r.id ∈ old ↔ p r)) :
    (lex.retract old).Exact (nodes.deleteWhere p) := by
  refine ⟨h.toRemembers.retract hold, h.fts.retract _, h.words.retract _, ?_, h.pending⟩
  intro tok
  change refcount ((lex.ftsMap.rows.filter _).foldl _ _) tok = occurrences tok
    ((lex.ftsMap.rows.filter _ : List FtsMapRow) : Multiset FtsMapRow)
  rw [refcount_foldl_vocabDecrement, h.vocab,
    ← occurrences_filter_add tok lex.ftsMap.rows (fun m => m.nodeId ∈ old)]
  simp only [Multiset.filter_coe]
  exact Nat.add_sub_cancel_left _ _

theorem Exact.begin (h : lex.Exact nodes) : lex.beginBulkFtsTracking.Deferred nodes [] := by
  have hnone : ∀ {ρ : Type} {key : ρ → NodeId} {m : Multiset ρ} {t : Table ρ key},
      Faithful (fun _ => False) m t → Faithful (fun k => k ∈ ([] : List NodeId)) m t := by
    intro ρ key m t hf
    rw [faithful_none] at hf
    simp [Faithful, hf]
  refine ⟨⟨h.ftsMap, h.wordsMap⟩, hnone h.fts, hnone h.words, ?_, ?_⟩
  · intro tok
    have := h.vocab tok
    simpa [beginBulkFtsTracking] using this.le
  · rw [beginBulkFtsTracking, h.pending]
    rfl

theorem Deferred.retract (h : lex.Deferred nodes ids) {p : NodeRow → Prop} [DecidablePred p]
    {old : Finset NodeId} (hold : ∀ r, r ∈ nodes → (r.id ∈ old ↔ p r)) :
    (lex.retract old).Deferred (nodes.deleteWhere p) ids := by
  refine ⟨h.toRemembers.retract hold, h.fts.retract _, h.words.retract _, ?_, h.pending⟩
  intro tok
  change refcount ((lex.ftsMap.rows.filter _).foldl _ _) tok ≤ occurrences tok
    (((lex.ftsMap.rows.filter _ : List FtsMapRow) : Multiset FtsMapRow).filter _)
  rw [refcount_foldl_vocabDecrement]
  have hle := h.vocab tok
  have hsplit := occurrences_filter_add tok
    ((lex.ftsMap.rows : Multiset FtsMapRow).filter fun m => ¬ m.nodeId ∈ ids)
    (fun m => m.nodeId ∈ old)
  have hsub : occurrences tok (((lex.ftsMap.rows : Multiset FtsMapRow).filter
      fun m => ¬ m.nodeId ∈ ids).filter fun m => m.nodeId ∈ old) ≤
        occurrences tok ((lex.ftsMap.rows : Multiset FtsMapRow).filter fun m => m.nodeId ∈ old) := by
    have := occurrences_filter_add tok
      ((lex.ftsMap.rows : Multiset FtsMapRow).filter fun m => m.nodeId ∈ old)
      (fun m => ¬ m.nodeId ∈ ids)
    rw [Multiset.filter_comm]
    omega
  rw [← Multiset.filter_coe, ← Multiset.filter_coe, Multiset.filter_comm]
  beta_reduce
  omega

theorem Deferred.putMapOnly (h : lex.Deferred nodes ids) (hs : NodeSet nodes nodes' n)
    (hnew : n.id ∈ ids ∨ ¬ nodes.Has n.id) :
    ∃ lex' ids', lex.putMapOnly n = some lex' ∧ lex'.Deferred nodes' ids' ∧
      ∀ x, x ∈ ids' ↔ x = n.id ∨ x ∈ ids := by
  have hids : ∀ x, (x ∈ if n.id ∈ ids then ids else ids ++ [n.id]) ↔ x = n.id ∨ x ∈ ids := by
    intro x
    split_ifs with hn
    · constructor
      · exact .inr
      · intro hx
        exact hx.elim (fun he => he ▸ hn) id
    · rw [List.mem_append, List.mem_singleton]
      exact or_comm
  have hfts : ∀ o : FtsMapRow, o.nodeId = (ftsRow n).nodeId →
      (⟨o.nodeId, (ftsRow n).tokens⟩ : FtsMapRow) = ftsRow n := by
    intro o ho
    rw [ho]
  have hwords : ∀ o : WordsMapRow, o.nodeId = (wordsRow n).nodeId →
      (⟨o.nodeId, (wordsRow n).sigWords, (wordsRow n).pathWords⟩ : WordsMapRow) =
        wordsRow n := by
    intro o ho
    rw [ho]
  have hnone : ¬ nodes.Has n.id → nodes.find? n.id = none := Table.find?_eq_none.mpr
  have hnf : n.id ∈ ids ∨ ¬ lex.ftsMap.Has (ftsRow n).nodeId := by
    refine hnew.imp_right fun hn => Table.find?_eq_none.mp ?_
    rw [show (ftsRow n).nodeId = n.id from rfl, h.ftsMap, hnone hn, Option.map_none]
  have hnw : n.id ∈ ids ∨ ¬ lex.wordsMap.Has (wordsRow n).nodeId := by
    refine hnew.imp_right fun hn => Table.find?_eq_none.mp ?_
    rw [show (wordsRow n).nodeId = n.id from rfl, h.wordsMap, hnone hn, Option.map_none]
  have hkeep : Faithful (· ∈ ids)
      ((lex.ftsMap.rows : Multiset FtsMapRow).filter fun m => ¬ m.nodeId ∈ ids) lex.ftsMap := by
    rw [Faithful]
  have hrows : Faithful (· ∈ if n.id ∈ ids then ids else ids ++ [n.id]) _
      (lex.ftsMap.upsert (ftsRow n) (fun r => ⟨r.nodeId, (ftsRow n).tokens⟩) fun _ => rfl) :=
    hkeep.defer hfts hnf hids
  unfold Lexical.putMapOnly
  rw [h.pending]
  refine ⟨_, _, rfl, ⟨h.toRemembers.set hs rfl rfl, ?_, ?_, ?_, rfl⟩, hids⟩
  · exact h.fts.defer hfts hnf hids
  · exact h.words.defer hwords hnw hids
  · intro tok
    exact hrows ▸ h.vocab tok

theorem Deferred.rebuild (h : lex.Deferred nodes ids) :
    ∃ lex', lex.rebuildFtsFromMap = .ok lex' ∧ lex'.Exact nodes := by
  unfold rebuildFtsFromMap
  rw [h.pending]
  refine ⟨_, rfl, ⟨h.ftsMap, h.wordsMap⟩, h.fts.flush, h.words.flush, ?_, rfl⟩
  intro tok
  dsimp only
  split_ifs with he
  · have hall := occurrences_filter_add tok lex.ftsMap.rows fun m => m.nodeId ∈ ids
    have hzero : refcount (countedVocab lex.ftsMap) tok = 0 := by
      rw [refcount, Table.find?, List.isEmpty_iff.mp he]
      rfl
    rw [refcount_countedVocab] at hzero
    have hle := h.vocab tok
    omega
  · exact refcount_countedVocab lex.ftsMap tok

end Lexical

end Travsr.Store

namespace Travsr.Store

open Travsr.Core Relational

/-- What begins with the text before the `%` matches, whatever the text. -/
theorem like_of_prefix {pre cs : List Char} (h : pre <+: cs) : like (pre ++ ['%']) cs = true := by
  induction pre generalizing cs with
  | nil =>
    have hself : like [] [] = true := rfl
    have hend : [] ∈ cs.tails := (List.mem_tails _ _).mpr List.nil_suffix
    have hany : cs.tails.any (like []) = true := List.any_eq_true.mpr ⟨[], hend, hself⟩
    cases cs <;> exact hany
  | cons p pre ih =>
    obtain ⟨rest, rfl⟩ := h
    have hrest := ih (List.prefix_append pre rest)
    rw [List.cons_append, List.cons_append, like]
    split_ifs with hp
    · refine List.any_eq_true.mpr ⟨pre ++ rest, ?_, hrest⟩
      exact (List.mem_tails _ _).mpr (List.suffix_cons p _)
    · simp [hrest]

namespace SqliteStore

variable {s : SqliteStore} {pre : String}

/-- The path begins with the text. -/
def Begins (pre : String) (r : NodeRow) : Prop := pre.toList <+: r.vname.path.toList

instance (pre : String) : DecidablePred (Begins pre) :=
  fun _ => inferInstanceAs (Decidable (_ <+: _))

theorem underPrefix_of_begins {r : NodeRow} (h : Begins pre r) : UnderPrefix pre r :=
  like_of_prefix h

/-- The nodes of the condition are gone with their edges and their index entries, and nothing
else is. -/
structure Removed (p : NodeRow → Prop) [DecidablePred p] (s s' : SqliteStore) : Prop where
  nodes : ∀ r, r ∈ s'.nodes ↔ r ∈ s.nodes ∧ ¬ p r
  edges : ∀ e, e ∈ s'.edges ↔ e ∈ s.edges ∧ e.src ∉ s.idsWhere p ∧ e.dst ∉ s.idsWhere p
  ftsMap : ∀ m, m ∈ s'.lex.ftsMap ↔ m ∈ s.lex.ftsMap ∧ m.nodeId ∉ s.idsWhere p
  wordsMap : ∀ m, m ∈ s'.lex.wordsMap ↔ m ∈ s.lex.wordsMap ∧ m.nodeId ∉ s.idsWhere p
  fts : s'.lex.fts = s.lex.fts - ↑(s.lex.ftsMap.rows.filter fun m => m.nodeId ∈ s.idsWhere p)
  words : s'.lex.words =
    s.lex.words - ↑(s.lex.wordsMap.rows.filter fun m => m.nodeId ∈ s.idsWhere p)
  vocab : ∀ tok, refcount s'.lex.vocab tok = refcount s.lex.vocab tok -
    occurrences tok ↑(s.lex.ftsMap.rows.filter fun m => m.nodeId ∈ s.idsWhere p)
  others : s'.sites = s.sites ∧ s'.files = s.files ∧ s'.stage = s.stage ∧
    s'.stagingActive = s.stagingActive ∧ s'.lex.pending = s.lex.pending

theorem removed_deleteNodesWhere (s : SqliteStore) (p : NodeRow → Prop) [DecidablePred p] :
    Removed p s (s.deleteNodesWhere p) where
  nodes _ := IndexedTable.mem_deleteWhere
  edges _ := Table.mem_deleteWhere.trans (and_congr_right fun _ => not_or)
  ftsMap _ := Table.mem_deleteWhere
  wordsMap _ := Table.mem_deleteWhere
  fts := rfl
  words := rfl
  vocab tok := refcount_foldl_vocabDecrement _ s.lex.vocab tok
  others := ⟨rfl, rfl, rfl, rfl, rfl⟩

theorem deleteNodesWhere_congr {p q : NodeRow → Prop} [DecidablePred p] [DecidablePred q]
    (h : ∀ r, r ∈ s.nodes → (p r ↔ q r)) : s.deleteNodesWhere p = s.deleteNodesWhere q := by
  have hids : s.idsWhere p = s.idsWhere q := by
    refine Finset.ext fun x => ?_
    rw [mem_idsWhere, mem_idsWhere]
    exact exists_congr fun r => and_congr_right fun hr => and_congr_right fun _ => h r hr
  have hrows : s.nodes.rows.filter (fun r => ¬ p r) = s.nodes.rows.filter (fun r => ¬ q r) :=
    List.filter_congr fun r hr => by simp [h r hr]
  have hnodes : s.nodes.deleteWhere p = s.nodes.deleteWhere q := by
    simp only [IndexedTable.deleteWhere, Table.deleteWhere, hrows]
  simp only [deleteNodesWhere, hids, hnodes]

/-- The nodes under the prefix are removed and no others exactly where every stored path that the
pattern matches begins with the prefix. -/
theorem deleteNodesForPathPrefix_iff (s : SqliteStore) (pre : String) :
    Removed (Begins pre) s (s.deleteNodesForPathPrefix pre).1 ↔
      ∀ r, r ∈ s.nodes → UnderPrefix pre r → Begins pre r := by
  apply Iff.intro
  · intro h r hr hunder
    by_contra hnot
    have hkept : r ∈ (s.deleteNodesForPathPrefix pre).1.nodes := (h.nodes r).mpr ⟨hr, hnot⟩
    exact (IndexedTable.mem_deleteWhere.mp hkept).2 hunder
  · intro h
    have hsame : s.deleteNodesWhere (UnderPrefix pre) = s.deleteNodesWhere (Begins pre) :=
      deleteNodesWhere_congr fun r hr => ⟨h r hr, underPrefix_of_begins⟩
    show Removed (Begins pre) s (s.deleteNodesWhere (UnderPrefix pre))
    rw [hsame]
    exact removed_deleteNodesWhere s (Begins pre)

/-- A source file in a directory spelled like a build directory but for one letter. -/
def capitalStore : SqliteStore where
  __ := SqliteStore.empty
  nodes := ⟨⟨[⟨1, ⟨"a", "", "Target/app.ts", "typescript", "fn:x"⟩, "function", "", none, none,
    false, .none, none⟩], by decide⟩, by decide⟩

theorem deleteNodesForPathPrefix_takes_more :
    ¬ Removed (Begins "target/") capitalStore
      (capitalStore.deleteNodesForPathPrefix "target/").1 := by
  intro h
  have hrow : (⟨1, ⟨"a", "", "Target/app.ts", "typescript", "fn:x"⟩, "function", "", none, none,
      false, .none, none⟩ : NodeRow) ∈ capitalStore.nodes := List.mem_singleton.mpr rfl
  have hkept := (h.nodes _).mpr ⟨hrow, by decide⟩
  exact absurd (IndexedTable.mem_deleteWhere.mp hkept).2 (by decide)

/-- An underscore of the prefix stands for any character. -/
example : UnderPrefix "node_modules/"
    ⟨1, ⟨"a", "", "node-modules/x.ts", "typescript", "fn:x"⟩, "function", "", none, none, false,
      .none, none⟩ := by
  decide

end SqliteStore

end Travsr.Store
