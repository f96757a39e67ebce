import Travsr.Store.Preservation

namespace Travsr.Store

open Travsr.Core Relational GreatestClosed

theorem evolve_evolve (rows : List NodeRow) (old : Option NodeRow) :
    IndexedTable.evolve parseUpdate (IndexedTable.evolve parseUpdate old rows) rows =
      IndexedTable.evolve parseUpdate old rows := by
  cases old with
  | some r =>
    rw [evolve_some_eq_overwrite, evolve_some_eq_overwrite, overwrite_idem]
  | none =>
    cases rows with
    | nil => rfl
    | cons row rows =>
      rw [evolve_none_cons, evolve_some_eq_overwrite, overwrite_idem]

theorem collectMap_concat {κ υ : Type} [DecidableEq κ] (pairs : List (κ × υ)) (p : κ × υ) (k : κ) :
    collectMap (pairs ++ [p]) k = if p.1 = k then some p.2 else collectMap pairs k := by
  rw [collectMap, collectMap, List.reverse_append, List.reverse_singleton, List.singleton_append,
    List.find?_cons]
  by_cases h : p.1 = k <;> simp [h]

theorem Reparse.newLine_eq (c : Reparse) (x : NodeId) :
    c.newLine x = lastKnown ((c.nodes.filter fun n => n.id = x).map Node.line) none := by
  rw [newLine]
  induction c.nodes using List.reverseRecOn with
  | nil => rfl
  | append_singleton nodes n ih =>
    have hone : ∀ l, n.line = some l →
        [n].filterMap (fun n => n.line.map fun l => (n.id, l)) = [(n.id, l)] := by
      intro l hl
      simp [hl]
    rw [List.filterMap_append, List.filter_append]
    by_cases hx : n.id = x
    · have hlast : lastKnown (((nodes.filter fun n => n.id = x) ++ [n]).map Node.line) none =
          (n.line <|> lastKnown ((nodes.filter fun n => n.id = x).map Node.line) none) := by
        rw [lastKnown, List.map_append, List.foldl_append]
        rfl
      rw [List.filter_cons_of_pos (by simpa using hx), List.filter_nil, hlast, ← ih]
      cases hl : n.line with
      | none => simp [hl]
      | some l =>
        rw [hone l hl, collectMap_concat, if_pos hx]
        rfl
    · rw [List.filter_cons_of_neg (by simpa using hx), List.filter_nil, List.append_nil, ← ih]
      cases hl : n.line with
      | none => simp [hl]
      | some l => rw [hone l hl, collectMap_concat, if_neg hx]

namespace Reparse

def ownIds (c : Reparse) : Finset NodeId :=
  ((c.nodes.filter (fun n => n.vname.corpus = c.corpus ∧ n.vname.path = c.path)).map
    Node.id).toFinset

theorem mem_ownIds {c : Reparse} {x : NodeId} :
    x ∈ c.ownIds ↔ ∃ n ∈ c.nodes, n.id = x ∧ n.vname.corpus = c.corpus ∧ n.vname.path = c.path := by
  simp only [ownIds, List.mem_toFinset, List.mem_map, List.mem_filter, decide_eq_true_eq]
  constructor
  · intro ⟨n, ⟨hn, hcp⟩, hid⟩
    exact ⟨n, hn, hid, hcp⟩
  · intro ⟨n, hn, hid, hcp⟩
    exact ⟨n, ⟨hn, hcp⟩, hid⟩

theorem ownIds_subset_newIds (c : Reparse) : c.ownIds ⊆ c.newIds := by
  intro x hx
  obtain ⟨n, hn, hid, hcp⟩ := mem_ownIds.mp hx
  exact mem_newIds.mpr ⟨n, hn, hcp.2, hid⟩

def hashed (env : Env) (c : Reparse) : Finset NodeId :=
  c.ownIds.filter fun x => (c.hashes env x).isSome

/-- Saved once more, the parse is a pure body edit. -/
def Whole (c : Reparse) : Prop := c.content.isSome ∧ c.ownIds = c.newIds

instance (c : Reparse) : Decidable c.Whole := inferInstanceAs (Decidable (_ ∧ _))

def rowOf (c : Reparse) (k : NodeId × NodeId × EdgeKind) : Option EdgeRow :=
  (c.edges.map EdgeRow.ofParse).find? fun e => e.key = k

end Reparse

namespace SqliteStore

variable {env : Env} {s s' : SqliteStore} {c : Reparse}

/-- The edge outlives the call. -/
def Survives (env : Env) (s : SqliteStore) (c : Reparse) (e : EdgeRow) : Prop :=
  ¬ s.Dropped env c e ∧ e.dst ∉ s.removedIds c

instance (e : EdgeRow) : Decidable (s.Survives env c e) := inferInstanceAs (Decidable (_ ∧ _))

def steadyPairs (env : Env) (s : SqliteStore) (c : Reparse) : List (NodeId × NodeId) :=
  (s.edges.rows.filter (fun e => e.src ∈ c.ownIds ∧ s.Survives env c e)).map
    (fun e => (e.src, e.dst)) ++ c.edges.map fun e => (e.src, e.dst)

/-- The definitions a repeat of the call preserves: the hashed ones from which no edge it finds
leads to a definition of the file that is not preserved. -/
def steady (env : Env) (s : SqliteStore) (c : Reparse) : Finset NodeId :=
  if c.Whole ∧ ∀ n ∈ c.nodes, n.kind ∈ typeLevelKinds → n.id ∈ c.hashed env then
    demote (s.steadyPairs env c) c.newIds (c.hashed env)
  else ∅

/-- The symbol is stored, or emitted by the parse, under the signature. -/
def Signed (s : SqliteStore) (c : Reparse) (x : NodeId) (signature : String) : Prop :=
  (∃ r, r ∈ s.nodes ∧ r.id = x ∧ r.vname.signature = signature) ∨
    ∃ n ∈ c.nodes, n.id = x ∧ n.vname.signature = signature

/-- A repeat keeps the edge: a committed reference of the file node whose target's name stands
outside every body. -/
def KeptAgain (env : Env) (s : SqliteStore) (c : Reparse) (e : EdgeRow) : Prop :=
  c.Whole ∧ isReference e.kind ∧ isCommitted e.provenance ∧
    (∃ file, c.nodes.find? (fun n => n.kind = "file") = some file ∧ file.id = e.src) ∧
      ∃ signature, s.Signed c e.dst signature ∧
        spelledName signature ∈ topLevelWords env c.lines c.nodes

/-- What a call may leave for its repeat not to change it. -/
structure Settled (env : Env) (s : SqliteStore) (c : Reparse) : Prop where
  edges : ∀ e, e ∈ s.edges → s.Survives env c e → e.src ∈ c.ownIds → e.src ∉ s.steady env c →
    s.KeptAgain env c e ∨ c.rowOf e.key = some e
  parsed : ∀ p ∈ c.edges, p.dst ∈ s.removedIds c → p.src ∈ s.steady env c
  sites : ∀ r, r ∈ s.sites → r.src ∈ c.ownIds → r.src ∉ s.oldIds c →
    r.src ∈ s.steady env c ∧ 1 ≤ r.line

namespace Reindexed

variable (h : Reindexed env s c s')

include h

theorem mem_edges_iff {e : EdgeRow} : e ∈ s'.edges ↔
    (e ∈ s.edges ∧ s.Survives env c e) ∨ (e ∈ s'.edges ∧ c.rowOf e.key = some e) := by
  have hf := h.find?_edges e.key
  constructor
  · intro he
    have hdst : ¬ e.key.2.1 ∈ s.removedIds c := (h.mem_edges he).1
    rw [Table.find?_of_mem he, if_neg hdst, eq_comm, Option.or_eq_some_iff] at hf
    rcases hf with hl | ⟨_, hr⟩
    · obtain ⟨ho, hd⟩ := Option.filter_eq_some_iff.mp hl
      exact .inl ⟨(Table.mem_of_find? ho).1, by simpa using hd, hdst⟩
    · split_ifs at hr
      exact .inr ⟨he, hr⟩
  · intro he
    rcases he with ⟨he, hd, hdst⟩ | ⟨he, _⟩
    · have hdst' : ¬ e.key.2.1 ∈ s.removedIds c := hdst
      rw [if_neg hdst', Table.find?_of_mem he, Option.filter_some, if_pos (by simpa using hd),
        Option.some_or] at hf
      exact (Table.mem_of_find? hf).1
    · exact he

theorem edited_eq : s'.edited env c = ∅ := by
  rw [Finset.eq_empty_iff_forall_notMem]
  intro x hx
  obtain ⟨_, r, hr, hid, old, new, ho, hn, hne⟩ := mem_edited.mp hx
  rw [h.bodyHash hr, hid, hn] at ho
  exact hne (Option.some.inj ho).symm

theorem words_eq (x : NodeId) : s'.words env c x =
    (c.nodes.find? (fun n => n.kind = "file")).bind fun file =>
      if file.id = x then some (topLevelWords env c.lines c.nodes) else none := by
  have hedits : words.edits env s' c x = none := by
    rw [words.edits, h.edited_eq]
    simp [collectMap]
  rw [words, hedits]
  cases c.nodes.find? (fun n => n.kind = "file") <;> rfl

variable (ha : s.Addressed c.nodes)

include ha

theorem oldIds_eq : s'.oldIds c = c.ownIds := by
  ext x
  rw [Reparse.mem_ownIds, oldIds, h.mem_idsAt_iff ha]
  constructor
  · intro hx
    exact hx.elim (fun hx => absurd hx.1 hx.2) id
  · exact .inr

theorem pureBodyEdit_iff : s'.PureBodyEdit c ↔ c.Whole := by
  rw [PureBodyEdit, h.oldIds_eq ha, Reparse.Whole]

theorem hashEqual_eq (hw : c.Whole) : s'.hashEqual env c = c.hashed env := by
  ext x
  rw [mem_hashEqual, Reparse.hashed, Finset.mem_filter, ← h.oldIds_eq ha, oldIds]
  constructor
  · intro ⟨_, r, hr, hid, hash, hb, hc⟩
    obtain ⟨hm, hcp⟩ := mem_rowsAt.mp hr
    exact ⟨mem_idsAt.mpr ⟨r, hm, hid, hcp⟩, by rw [hc]; rfl⟩
  · intro ⟨hx, hc⟩
    obtain ⟨r, hm, hid, hcp⟩ := mem_idsAt.mp hx
    obtain ⟨hash, hc⟩ := Option.isSome_iff_exists.mp hc
    have hr : r ∈ s'.rowsAt c.corpus c.path := mem_rowsAt.mpr ⟨hm, hcp⟩
    refine ⟨(h.pureBodyEdit_iff ha).mpr hw, r, hr, hid, hash, ?_, hc⟩
    rw [h.bodyHash hr, hid, hc]

theorem mem_refPairs {p : NodeId × NodeId} :
    p ∈ s'.refPairs c ↔ p ∈ s.steadyPairs env c := by
  simp only [refPairs, steadyPairs, List.mem_append, List.mem_map, List.mem_filter,
    decide_eq_true_eq, h.oldIds_eq ha]
  constructor
  · intro hp
    rcases hp with ⟨e, ⟨he, hs⟩, hep⟩ | hp
    · obtain ⟨hd, ⟨heo, hdrop⟩ | ⟨q, hq, _, hqe⟩⟩ := h.mem_edges he
      · exact .inl ⟨e, ⟨heo, hs, hdrop, hd⟩, hep⟩
      · subst hqe
        exact .inr ⟨q, hq, hep⟩
    · exact .inr hp
  · intro hp
    rcases hp with ⟨e, ⟨he, hs, hdrop, hd⟩, hep⟩ | hp
    · left
      refine ⟨e, ⟨?_, hs⟩, hep⟩
      have hf := h.find?_edges e.key
      have hdst : ¬ e.key.2.1 ∈ s.removedIds c := hd
      rw [if_neg hdst, Table.find?_of_mem he, Option.filter_some, if_pos (by simpa using hdrop),
        Option.some_or] at hf
      exact (Table.mem_of_find? hf).1
    · exact .inr hp

theorem preserved_eq : s'.preserved env c = s.steady env c := by
  rw [steady]
  by_cases hw : c.Whole
  · have hchange : s'.TypeLevelChange env c ↔
        ¬ ∀ n ∈ c.nodes, n.kind ∈ typeLevelKinds → n.id ∈ c.hashed env := by
      simp only [TypeLevelChange, h.hashEqual_eq ha hw, not_forall, exists_prop]
    rw [preserved, h.hashEqual_eq ha hw, demote_congr fun p => h.mem_refPairs ha]
    by_cases ht : ∀ n ∈ c.nodes, n.kind ∈ typeLevelKinds → n.id ∈ c.hashed env
    · rw [if_neg (fun hc => hchange.mp hc ht), if_pos ⟨hw, ht⟩]
    · rw [if_pos (hchange.mpr ht), if_neg (fun hwt => ht hwt.2)]
  · have hempty : s'.preserved env c = ∅ := by
      by_contra hne
      obtain ⟨x, hx⟩ := Finset.nonempty_iff_ne_empty.mpr hne
      exact hw ((h.pureBodyEdit_iff ha).mp (pureBodyEdit_of_mem_preserved hx))
    rw [if_neg (fun hwt => hw hwt.1)]
    exact hempty

end Reindexed

theorem ownIds_eq_of_pureBodyEdit (ha : s.Addressed c.nodes) (he : s.PureBodyEdit c) :
    c.ownIds = c.newIds := by
  refine Finset.Subset.antisymm c.ownIds_subset_newIds ?_
  intro x hx
  obtain ⟨n, hn, _, hid⟩ := Reparse.mem_newIds.mp hx
  rw [← he.2] at hx
  obtain ⟨r, hr, hrid, hcp⟩ := mem_idsAt.mp hx
  rw [ha.row r hr n hn (hrid.trans hid.symm)] at hcp
  exact Reparse.mem_ownIds.mpr ⟨n, hn, hid, hcp⟩

theorem preserved_subset_steady (ha : s.Addressed c.nodes) :
    s.preserved env c ⊆ s.steady env c := by
  intro x hx
  have he := pureBodyEdit_of_mem_preserved hx
  have hown := ownIds_eq_of_pureBodyEdit ha he
  have hhash : s.hashEqual env c ⊆ c.hashed env := by
    intro y hy
    obtain ⟨_, _, _, _, hash, _, hc⟩ := mem_hashEqual.mp hy
    have hyo := hashEqual_subset_oldIds hy
    rw [he.2, ← hown] at hyo
    exact Finset.mem_filter.mpr ⟨hyo, by rw [hc]; rfl⟩
  have hchange : ¬ s.TypeLevelChange env c := by
    intro hc
    rw [preserved, if_pos hc] at hx
    exact Finset.notMem_empty x hx
  have htype : ∀ n ∈ c.nodes, n.kind ∈ typeLevelKinds → n.id ∈ c.hashed env := by
    intro n hn hk
    by_contra hno
    exact hchange ⟨n, hn, hk, fun hm => hno (hhash hm)⟩
  rw [steady, if_pos ⟨⟨he.1, hown⟩, htype⟩]
  rw [preserved, if_neg hchange] at hx
  refine subset_demote ((demote_subset _ _ _).trans hhash) ?_ hx
  intro p hp hsrc hdst
  refine demote_closed (s.refPairs c) _ _ p ?_ hsrc hdst
  rw [refPairs, List.mem_append]
  rw [steadyPairs, List.mem_append] at hp
  refine hp.imp_left fun hp => ?_
  obtain ⟨e, hem, hep⟩ := List.mem_map.mp hp
  rw [List.mem_filter, decide_eq_true_eq] at hem
  refine List.mem_map.mpr ⟨e, List.mem_filter.mpr ⟨hem.1, ?_⟩, hep⟩
  have hso : e.src ∈ s.oldIds c := by
    rw [he.2, ← hown]
    exact hem.2.1
  simpa using hso

namespace Reindexed

variable (h : Reindexed env s c s') (ha : s.Addressed c.nodes)

include h ha

theorem removedIds_eq : s'.removedIds c = ∅ := by
  rw [removedIds, h.oldIds_eq ha, Finset.sdiff_eq_empty_iff_subset]
  exact c.ownIds_subset_newIds

theorem repeat_isOk (hcheck : ∀ e ∈ c.edges, e.src ∉ s.preserved env c → confidenceOk e.confidence) :
    ∃ p, s'.reindexReplace env c = .ok p := by
  have ha' := h.addressed ha (List.Subset.refl _)
  rw [reindexReplace_isOk]
  constructor
  · have hfirst := (insertNodes_isOk (fun r hr => ha.row r (IndexedTable.mem_deleteWhere.mp hr).1)
      ha.node).mp ⟨_, h.nodes⟩
    refine (insertNodes_isOk (fun r hr => ha'.row r (IndexedTable.mem_deleteWhere.mp hr).1)
      ha.node).mpr ⟨?_, hfirst.2⟩
    intro r hr n hn hv
    rcases mem_insertNodes h.nodes (IndexedTable.mem_deleteWhere.mp hr).1 with
      ⟨o, ho, hoid, hov⟩ | ⟨m, hm, hmid, hmv⟩
    · exact hoid.symm.trans (hfirst.1 o ho n hn (hov.trans hv))
    · exact hmid.symm.trans (hfirst.2 m hm n hn (hmv.trans hv))
  · intro e he hp
    refine hcheck e he fun hp' => hp ?_
    rw [h.preserved_eq ha]
    exact preserved_subset_steady ha hp'

theorem repeat_lineDelta {x : NodeId} (hx : x ∈ s.steady env c) :
    s'.lineDelta env c x = some 0 := by
  rw [← h.preserved_eq ha] at hx
  obtain ⟨_, r, hr, hid, hash, _, hc⟩ := mem_hashEqual.mp (preserved_subset_hashEqual hx)
  obtain ⟨new, hnew⟩ := newLine_of_hashes hc
  have hline := line_of_evolve_none (h.evolve_own hr)
  rw [List.map_map, hid] at hline
  rw [lineDelta_eq hx (mem_rowsAt.mp hr).1 hid, hline, hnew]
  rw [Reparse.newLine_eq] at hnew
  have hmap : (c.nodes.filter fun n => n.id = x).map
      (NodeRow.line ∘ fun n => NodeRow.ofNode n (c.hashes env n.id)) =
        (c.nodes.filter fun n => n.id = x).map Node.line := rfl
  rw [hmap, hnew, Option.bind_some, Option.map_some, sub_self]

theorem signed_iff {x : NodeId} (hx : x ∉ s.removedIds c) {signature : String} :
    (∃ d, s'.nodes.find? x = some d ∧ d.vname.signature = signature) ↔
      s.Signed c x signature := by
  have ha' := h.addressed ha (List.Subset.refl _)
  constructor
  · intro ⟨d, hd, hsig⟩
    obtain ⟨hm, hid⟩ := Table.mem_of_find? hd
    rcases mem_insertNodes h.nodes hm with ⟨o, ho, hoid, hov⟩ | ⟨n, hn, hnid, hnv⟩
    · exact .inl ⟨o, (IndexedTable.mem_deleteWhere.mp ho).1, hoid.trans hid, by rw [hov, hsig]⟩
    · exact .inr ⟨n, hn, hnid.trans hid, by rw [hnv, hsig]⟩
  · intro hs
    have hst : s'.Stored x := by
      rw [h.stored_iff]
      rcases hs with ⟨r, hr, hid, _⟩ | ⟨n, hn, hid, _⟩
      · by_cases hold : x ∈ s.oldIds c
        · rw [removedIds, Finset.mem_sdiff, not_and, not_not] at hx
          obtain ⟨n, hn, _, hid⟩ := Reparse.mem_newIds.mp (hx hold)
          exact .inr ⟨n, hn, hid⟩
        · exact .inl ⟨⟨r, hr, hid⟩, hold⟩
      · exact .inr ⟨n, hn, hid⟩
    obtain ⟨d, hd, hdid⟩ := hst
    refine ⟨d, Table.find?_eq_some.mpr ⟨hd, hdid⟩, ?_⟩
    rcases hs with ⟨r, hr, hid, hsig⟩ | ⟨n, hn, hid, hsig⟩
    · have hv : d.vname = r.vname := by
        rcases mem_insertNodes h.nodes hd with ⟨o, ho, hoid, hov⟩ | ⟨n, hn, hnid, hnv⟩
        · have hor := IndexedTable.eq_of_key (IndexedTable.mem_deleteWhere.mp ho).1 hr
            (hoid.trans (hdid.trans hid.symm))
          rw [← hov, hor]
        · rw [← hnv, ha.row r hr n hn (hid.trans (hdid.symm.trans hnid.symm))]
      rw [hv, hsig]
    · rw [ha'.row d hd n hn (hdid.trans hid.symm), hsig]

theorem mem_kept_iff {e : EdgeRow} (he : e ∈ s'.edges) (hs : e.src ∈ c.ownIds)
    (hdst : e.dst ∉ s.removedIds c) : e.key ∈ s'.kept env c ↔ s.KeptAgain env c e := by
  have hedit : ¬ s'.TypeLevelEdit env c := by
    intro ⟨n, _, _, hn⟩
    rw [h.edited_eq] at hn
    exact Finset.notMem_empty _ hn
  have hthrough : s'.throughEdited env c = [] := by
    rw [throughEdited, h.edited_eq]
    simp
  have hcond : s'.PureBodyEdit c ∧ ¬ s'.TypeLevelEdit env c ↔ c.Whole := by
    rw [h.pureBodyEdit_iff ha]
    exact and_iff_left hedit
  rw [kept, KeptAgain]
  by_cases hw : c.Whole
  · rw [if_pos (hcond.mpr hw), List.mem_map]
    simp only [List.mem_filter, decide_eq_true_eq, mem_keptCandidates, hthrough,
      List.not_mem_nil, not_false_eq_true, true_and, hw]
    constructor
    · intro hkept
      obtain ⟨p, ⟨⟨hp, _, hk, hc, d, hd, hsig⟩, hany⟩, hkey⟩ := hkept
      obtain rfl := Table.eq_of_key hp he hkey
      rw [h.words_eq] at hany
      cases hfile : c.nodes.find? (fun n => n.kind = "file") with
      | none =>
        rw [hfile] at hany
        cases hany
      | some file =>
        rw [hfile, Option.bind_some] at hany
        split_ifs at hany with hid
        · exact ⟨hk, hc, ⟨file, rfl, hid⟩, p.2, (h.signed_iff ha hdst).mp ⟨d, hd, hsig⟩,
            by simpa using hany⟩
        · cases hany
    · intro hagain
      obtain ⟨hk, hc, ⟨file, hfile, hid⟩, sig, hsig, hspell⟩ := hagain
      obtain ⟨d, hd, hds⟩ := (h.signed_iff ha hdst).mpr hsig
      refine ⟨(e, sig), ⟨⟨he, ?_, hk, hc, d, hd, hds⟩, ?_⟩, rfl⟩
      · rw [h.oldIds_eq ha]
        exact hs
      · rw [h.words_eq, hfile, Option.bind_some, if_pos hid]
        simpa using hspell
  · rw [if_neg fun hp => hw (hcond.mp hp)]
    simp [hw]

variable {s'' : SqliteStore} (h' : Reindexed env s' c s'')

include h'

theorem repeat_nodes : s'.nodes.Same s''.nodes.toTable := by
  apply Table.same_of_find?
  intro x
  have hfind := h'.find?_nodes x
  rw [h.oldIds_eq ha] at hfind
  change s'.nodes.find? x = s''.nodes.find? x
  rw [hfind]
  by_cases hx : x ∈ c.ownIds
  · rw [if_pos hx]
    rw [← h.oldIds_eq ha] at hx
    obtain ⟨r, hr, hid, hcp⟩ := mem_idsAt.mp hx
    subst hid
    rw [h.evolve_own (mem_rowsAt.mpr ⟨hr, hcp⟩)]
    exact Table.find?_of_mem (t := s'.nodes.toTable) hr
  · rw [if_neg hx, h.find?_nodes, evolve_evolve]

/-- The repeat keeps the edges exactly when the parse gives back those it drops and adds none. -/
theorem repeat_edges_iff : s'.edges.Same s''.edges ↔
    (∀ e, e ∈ s'.edges → s'.Dropped env c e → c.rowOf e.key = some e) ∧
      ∀ p ∈ c.edges, p.src ∉ s.steady env c → s'.edges.Has (EdgeRow.ofParse p).key := by
  have hfind : ∀ k, s''.edges.find? k =
      ((s'.edges.find? k).filter (fun e => ¬ s'.Dropped env c e)).or
        (if k.1 ∈ s.steady env c then none else c.rowOf k) := by
    intro k
    rw [h'.find?_edges, h.removedIds_eq ha, if_neg (Finset.notMem_empty _), h.preserved_eq ha,
      Reparse.rowOf]
  have hsrc : ∀ e, s'.Dropped env c e → e.key.1 ∉ s.steady env c := by
    intro e hd
    rw [← h.preserved_eq ha]
    exact hd.2.1
  constructor
  · intro hsame
    constructor
    · intro e he hd
      have hf := hfind e.key
      rw [← hsame.find?, Table.find?_of_mem he, Option.filter_some, if_neg (by simpa using hd),
        Option.none_or, if_neg (hsrc e hd)] at hf
      exact hf.symm
    · intro p hp hps
      by_contra hno
      have hf := hfind (EdgeRow.ofParse p).key
      have hpk : (EdgeRow.ofParse p).key.1 ∉ s.steady env c := hps
      rw [← hsame.find?, Table.find?_eq_none.mpr hno, Option.filter_none, Option.none_or,
        if_neg hpk, Reparse.rowOf] at hf
      have hpm := List.find?_eq_none.mp hf.symm _ (List.mem_map_of_mem hp)
      simp at hpm
  · intro ⟨hdrop, hadd⟩
    apply Table.same_of_find?
    intro k
    rw [hfind]
    cases hk : s'.edges.find? k with
    | some e =>
      obtain ⟨he, hek⟩ := Table.mem_of_find? hk
      by_cases hd : s'.Dropped env c e
      · have hkey : k.1 ∉ s.steady env c := hek ▸ hsrc e hd
        rw [Option.filter_some, if_neg (by simpa using hd), Option.none_or, if_neg hkey, ← hek,
          hdrop e he hd]
      · rw [Option.filter_some, if_pos (by simpa using hd), Option.some_or]
    | none =>
      rw [Option.filter_none, Option.none_or]
      split_ifs with hks
      · rfl
      · cases hr : c.rowOf k with
        | none => rfl
        | some e =>
          have hek := List.find?_some hr
          rw [decide_eq_true_eq] at hek
          obtain ⟨p, hp, hpe⟩ := List.mem_map.mp (List.mem_of_find?_eq_some hr)
          have hps : p.src = k.1 := by
            rw [← hek, ← hpe]
            rfl
          have hhas := hadd p hp (hps ▸ hks)
          rw [hpe, hek] at hhas
          exact absurd hhas (Table.find?_eq_none.mp hk)

theorem repeat_sites_iff : s'.sites.Same s''.sites ↔
    ∀ r, r ∈ s'.sites → r.src ∈ c.ownIds → r.src ∈ s.steady env c ∧ 1 ≤ r.line := by
  have hshift : ∀ r, r ∈ s'.shiftedSites env c ↔
      r ∈ s'.sites ∧ r.src ∈ s.steady env c ∧ 1 ≤ r.line := by
    intro r
    rw [mem_shiftedSites]
    constructor
    · intro hr
      obtain ⟨o, ho, delta, hd, hle, hr⟩ := hr
      have hos : o.src ∈ s.steady env c := by
        rw [lineDelta] at hd
        split_ifs at hd with hp
        rwa [h.preserved_eq ha] at hp
      rw [h.repeat_lineDelta ha hos] at hd
      obtain rfl := Option.some.inj hd
      rw [add_zero] at hle hr
      subst hr
      exact ⟨ho, hos, hle⟩
    · intro hr
      obtain ⟨hr, hs, hle⟩ := hr
      exact ⟨r, hr, 0, h.repeat_lineDelta ha hs, by rwa [add_zero], by rw [add_zero]⟩
  have hmem : ∀ r, r ∈ s''.sites ↔
      (r ∈ s'.sites ∧ r.src ∉ c.ownIds) ∨ r ∈ s'.sites ∧ r.src ∈ s.steady env c ∧ 1 ≤ r.line := by
    intro r
    rw [h'.mem_sites, h.oldIds_eq ha, hshift]
  constructor
  · intro hsame r hr hown
    exact (((hmem r).mp ((hsame r).mp hr)).resolve_left fun hn => hn.2 hown).2
  · intro hall r
    rw [hmem]
    constructor
    · intro hr
      by_cases hown : r.src ∈ c.ownIds
      · exact .inr ⟨hr, hall r hr hown⟩
      · exact .inl ⟨hr, hown⟩
    · intro hr
      exact hr.elim And.left And.left

end Reindexed

/-- A call that went through can be repeated; the nodes are then as they were, and the edges and
occurrences exactly when the call left them settled. -/
theorem reindexReplace_repeat (ha : s.Addressed c.nodes) {rep : ReplaceReport}
    (hok : s.reindexReplace env c = .ok (s', rep)) :
    ∃ s'' rep', s'.reindexReplace env c = .ok (s'', rep') ∧ s'.nodes.Same s''.nodes.toTable ∧
      (s'.edges.Same s''.edges ∧ s'.sites.Same s''.sites ↔ s.Settled env c) := by
  have h := reindexReplace_ok hok
  obtain ⟨⟨s'', rep'⟩, hok'⟩ := h.repeat_isOk ha (reindexReplace_isOk.mp ⟨_, hok⟩).2
  have h' := reindexReplace_ok hok'
  refine ⟨s'', rep', hok', h.repeat_nodes ha h', ?_⟩
  rw [h.repeat_edges_iff ha h', h.repeat_sites_iff ha h']
  have hdropped : ∀ e : EdgeRow, s'.Dropped env c e ↔
      e.src ∈ c.ownIds ∧ e.src ∉ s.steady env c ∧ e.key ∉ s'.kept env c := by
    intro e
    rw [Dropped, h.oldIds_eq ha, h.preserved_eq ha]
  have hnone : ∀ e, e ∈ s'.edges → e.dst ∉ s.removedIds c := fun e he => (h.mem_edges he).1
  constructor
  · intro ⟨⟨hdrop, hadd⟩, hsites⟩
    refine ⟨?_, ?_, ?_⟩
    · intro e he hsv hown hst
      have hem : e ∈ s'.edges := h.mem_edges_iff.mpr (.inl ⟨he, hsv⟩)
      by_cases hk : e.key ∈ s'.kept env c
      · exact .inl ((h.mem_kept_iff ha hem hown hsv.2).mp hk)
      · exact .inr (hdrop e hem ((hdropped e).mpr ⟨hown, hst, hk⟩))
    · intro p hp hrem
      by_contra hst
      obtain ⟨e, he, hek⟩ := hadd p hp hst
      have hed : e.dst = p.dst := congrArg (fun k => k.2.1) hek
      exact hnone e he (hed ▸ hrem)
    · intro r hr hown hold
      exact hsites r (h.mem_sites.mpr (.inl ⟨hr, hold⟩)) hown
  · intro hset
    refine ⟨⟨?_, ?_⟩, ?_⟩
    · intro e he hd
      obtain ⟨hown, hst, hk⟩ := (hdropped e).mp hd
      rcases h.mem_edges_iff.mp he with ⟨heo, hsv⟩ | ⟨_, hrow⟩
      · refine (hset.edges e heo hsv hown hst).resolve_left fun hka => hk ?_
        exact (h.mem_kept_iff ha he hown hsv.2).mpr hka
      · exact hrow
    · intro p hp hst
      have hdst : ¬ (EdgeRow.ofParse p).key.2.1 ∈ s.removedIds c :=
        fun hrem => hst (hset.parsed p hp hrem)
      have hpre : ¬ (EdgeRow.ofParse p).key.1 ∈ s.preserved env c :=
        fun hm => hst (preserved_subset_steady ha hm)
      rw [Table.has_iff_find?, h.find?_edges, if_neg hdst, if_neg hpre, Option.isSome_or,
        Bool.or_eq_true]
      right
      rw [List.find?_isSome]
      exact ⟨_, List.mem_map_of_mem hp, by simp⟩
    · intro r hr hown
      rcases h.mem_sites.mp hr with ⟨hro, hold⟩ | hsh
      · exact hset.sites r hro hown hold
      · obtain ⟨o, _, delta, hd, hle, hro⟩ := mem_shiftedSites.mp hsh
        rw [lineDelta] at hd
        split_ifs at hd with hp
        subst hro
        exact ⟨preserved_subset_steady ha hp, hle⟩

/-- A definition that moved keeps its call and its occurrence over one save and over two. -/
theorem reindexReplace_repeat_moved :
    ∃ s' rep s'' rep', (callerStore (some 1) ⟨[⟨10, 11, .refCall, 1, some 0⟩], by decide⟩).reindexReplace
        lengthEnv (movedFile "\ngo()\n" 2) = .ok (s', rep) ∧
      s'.reindexReplace lengthEnv (movedFile "\ngo()\n" 2) = .ok (s'', rep') ∧
      s'.edges.Same s''.edges ∧ s'.sites.Same s''.sites := by
  obtain ⟨⟨s', rep⟩, h⟩ := exists_ok (x := (callerStore (some 1)
    ⟨[⟨10, 11, .refCall, 1, some 0⟩], by decide⟩).reindexReplace
      lengthEnv (movedFile "\ngo()\n" 2)) (by decide +kernel)
  obtain ⟨s'', rep', h', _, hiff⟩ := reindexReplace_repeat ⟨by decide, by decide⟩ h
  refine ⟨s', rep, s'', rep', h, h', hiff.mpr ⟨?_, ?_, ?_⟩⟩
  · have hst : ∀ e ∈ (callerStore (some 1) ⟨[⟨10, 11, .refCall, 1, some 0⟩],
        by decide⟩).edges.rows, e.src ∈ (callerStore (some 1) ⟨[⟨10, 11, .refCall, 1, some 0⟩],
          by decide⟩).steady lengthEnv (movedFile "\ngo()\n" 2) := by decide +kernel
    exact fun e he _ _ hno => absurd (hst e he) hno
  · decide +kernel
  · decide +kernel

/-- A function with a call and a field read, and the field, which has no hash. -/
def fieldStore : SqliteStore where
  __ := SqliteStore.empty
  nodes := ⟨⟨[NodeRow.ofNode (parsed "a.py" "python" "file" "file") none,
    NodeRow.ofNode { parsed "a.py" "python" "fn:run" "function" with
      line := some 1, endLine := some 1 } (some "go(n);"),
    NodeRow.ofNode (parsed "a.py" "python" "fld:n" "field") none,
    NodeRow.ofNode (parsed "lib.py" "python" "fn:go" "function") none], by decide⟩, by decide⟩
  edges := ⟨[⟨10, 11, .refCall, "scip", none⟩, ⟨10, 9, .refField, "scip", none⟩], by decide⟩

def editedFile : Reparse where
  corpus := "repo"
  path := "a.py"
  nodes := [parsed "a.py" "python" "file" "file",
    { parsed "a.py" "python" "fn:run" "function" with line := some 1, endLine := some 1 },
    parsed "a.py" "python" "fld:n" "field"]
  edges := []
  newHash := "h"
  content := some "go(n)"

/-- The first save keeps the call, the second drops it. -/
theorem reindexReplace_repeat_drops :
    ∃ s' rep s'' rep', fieldStore.reindexReplace lengthEnv editedFile = .ok (s', rep) ∧
      s'.reindexReplace lengthEnv editedFile = .ok (s'', rep') ∧
      ⟨10, 11, .refCall, "scip", none⟩ ∈ s'.edges ∧ s''.edges.rows = [] := by
  refine ⟨_, _, _, _, rfl, rfl, ?_, ?_⟩ <;> decide +kernel

end SqliteStore

end Travsr.Store
