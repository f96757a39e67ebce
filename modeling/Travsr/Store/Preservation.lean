import Travsr.Store.Reindex

namespace Travsr.Store

open Travsr.Core Relational GreatestClosed

theorem collectMap_eq_getLast? {κ υ : Type} [DecidableEq κ] (pairs : List (κ × υ)) (k : κ) :
    collectMap pairs k = ((pairs.filter fun p => p.1 = k).getLast?).map Prod.snd := by
  rw [collectMap, ← List.head?_filter, List.filter_reverse, List.head?_reverse]

theorem collectMap_isSome {κ υ : Type} [DecidableEq κ] {pairs : List (κ × υ)} {k : κ} :
    (collectMap pairs k).isSome ↔ ∃ p ∈ pairs, p.1 = k := by
  rw [collectMap_eq_getLast?, Option.isSome_map, List.getLast?_isSome, ne_eq,
    List.filter_eq_nil_iff]
  simp

namespace SqliteStore

variable {env : Env} {s s' : SqliteStore} {c : Reparse} {x : NodeId}

/-- The stored body hash of a definition of the file is the current one. -/
def HashMatches (env : Env) (s : SqliteStore) (c : Reparse) (x : NodeId) : Prop :=
  ∃ r ∈ s.rowsAt c.corpus c.path, r.id = x ∧
    ∃ hash, r.bodyHash = some hash ∧ c.hashes env x = some hash

theorem mem_hashEqual_iff (h : s.PureBodyEdit c) : x ∈ s.hashEqual env c ↔ s.HashMatches env c x :=
  mem_hashEqual.trans (and_iff_right h)

theorem removedIds_of_pureBodyEdit (h : s.PureBodyEdit c) : s.removedIds c = ∅ := by
  rw [removedIds, h.2, Finset.sdiff_self]

theorem newLine_of_hashes {hash : String} (h : c.hashes env x = some hash) :
    ∃ new, c.newLine x = some new := by
  rw [← Option.isSome_iff_exists, Reparse.newLine, collectMap_isSome]
  obtain ⟨text, _, hb⟩ := Option.bind_eq_some_iff.mp h
  have hsome : (bodyHashesForSpans env text (spansOf c.nodes) x).isSome := by
    rw [hb]
    rfl
  rw [bodyHashesForSpans, collectMap_isSome] at hsome
  obtain ⟨p, hp, hpx⟩ := hsome
  obtain ⟨q, hq, hqp⟩ := List.mem_map.mp hp
  obtain ⟨span, hspan, hspq⟩ := List.mem_filterMap.mp hq
  obtain ⟨text', _, hq'⟩ := Option.map_eq_some_iff.mp hspq
  obtain ⟨n, hn, hns⟩ := List.mem_filterMap.mp hspan
  obtain ⟨line, hline, hsp⟩ := Option.map_eq_some_iff.mp hns
  refine ⟨(n.id, line), List.mem_filterMap.mpr ⟨n, hn, by rw [hline]; rfl⟩, ?_⟩
  subst hqp hq' hsp
  exact hpx

theorem preserved_eq_empty
    (h : c.content = none ∨ s.oldIds c ≠ c.newIds ∨
      ∃ n ∈ c.nodes, n.kind ∈ typeLevelKinds ∧ ¬ s.HashMatches env c n.id) :
    s.preserved env c = ∅ := by
  by_contra hne
  obtain ⟨x, hx⟩ := Finset.nonempty_iff_ne_empty.mpr hne
  have he := pureBodyEdit_of_mem_preserved hx
  rcases h with hc | hids | ⟨n, hn, hk, hm⟩
  · rw [PureBodyEdit, hc] at he
    exact absurd he.1 (by simp)
  · exact hids he.2
  · refine hne (if_pos ⟨n, hn, hk, ?_⟩)
    rwa [mem_hashEqual_iff he]

theorem preserved_isGreatest (hc : c.content ≠ none) (hids : s.oldIds c = c.newIds)
    (ht : ∀ n ∈ c.nodes, n.kind ∈ typeLevelKinds → s.HashMatches env c n.id) :
    IsGreatest { q : Finset NodeId | (∀ x ∈ q, s.HashMatches env c x) ∧
      Closed (s.refPairs c) (s.oldIds c) q } (s.preserved env c) := by
  have he : s.PureBodyEdit c := ⟨Option.isSome_iff_ne_none.mpr hc, hids⟩
  have hchange : ¬ s.TypeLevelChange env c := by
    intro ⟨n, hn, hk, hm⟩
    exact hm ((mem_hashEqual_iff he).mpr (ht n hn hk))
  have hset : { q : Finset NodeId | (∀ x ∈ q, s.HashMatches env c x) ∧
      Closed (s.refPairs c) (s.oldIds c) q } =
        { q | q ⊆ s.hashEqual env c ∧ Closed (s.refPairs c) c.newIds q } := by
    ext q
    show _ ∧ _ ↔ _ ∧ _
    rw [hids]
    refine and_congr_left fun _ => forall₂_congr fun x _ => ?_
    exact (mem_hashEqual_iff he).symm
  rw [hset, preserved, if_neg hchange]
  exact demote_isGreatest _ _ _

/-- The demotion loop leaves through its own exit, whatever fuel it is given beyond the number of
hash-equal definitions. -/
theorem demotion_halts (fuel : Nat) (h : (s.hashEqual env c).card ≤ fuel) :
    demoteStep (s.refPairs c) c.newIds
      (Loop.iterate (demoteStep (s.refPairs c) c.newIds) fuel (s.hashEqual env c)) = none :=
  Loop.iterate_halts (demoteStep_decreases _ _) fuel _ h

theorem mem_shiftedSites {r : SiteRow} :
    r ∈ s.shiftedSites env c ↔ ∃ o, o ∈ s.sites ∧ ∃ delta, s.lineDelta env c o.src = some delta ∧
      1 ≤ o.line + delta ∧ r = { o with line := o.line + delta } := by
  rw [shiftedSites, List.mem_filterMap]
  constructor
  · intro ⟨o, ho, hb⟩
    obtain ⟨delta, hd, hr⟩ := Option.bind_eq_some_iff.mp hb
    split_ifs at hr with hlt
    exact ⟨o, ho, delta, hd, not_lt.mp hlt, (Option.some.inj hr).symm⟩
  · intro ⟨o, ho, delta, hd, hle, hr⟩
    refine ⟨o, ho, Option.bind_eq_some_iff.mpr ⟨delta, hd, ?_⟩⟩
    rw [if_neg (not_lt.mpr hle), hr]

theorem eq_of_mem_shiftedSites {r r' : SiteRow} (hr : r ∈ s.shiftedSites env c)
    (hr' : r' ∈ s.shiftedSites env c) (hk : r.key = r'.key) : r = r' := by
  obtain ⟨o, ho, delta, hd, _, rfl⟩ := mem_shiftedSites.mp hr
  obtain ⟨o', ho', delta', hd', _, rfl⟩ := mem_shiftedSites.mp hr'
  simp only [SiteRow.key, Prod.mk.injEq] at hk
  obtain ⟨hsrc, hdst, hkind, hline⟩ := hk
  have hdelta : delta = delta' := by
    rw [hsrc, hd'] at hd
    exact (Option.some.inj hd).symm
  subst hdelta
  have hkey : o.key = o'.key := by
    simp only [SiteRow.key, Prod.mk.injEq]
    exact ⟨hsrc, hdst, hkind, by omega⟩
  rw [Table.eq_of_key ho ho' hkey]

theorem lineDelta_eq {r : NodeRow} (hp : x ∈ s.preserved env c) (hr : r ∈ s.nodes)
    (hid : r.id = x) : s.lineDelta env c x =
      r.line.bind fun old => (c.newLine x).map fun (new : Nat) => (new : Int) - old := by
  have hold : x ∈ s.oldIds c := preserved_subset_oldIds hp
  obtain ⟨r', hr', hid', hcp⟩ := mem_idsAt.mp hold
  obtain rfl := IndexedTable.eq_of_key hr' hr (hid'.trans hid.symm)
  have hfind : (s.rowsAt c.corpus c.path).find? (fun r => r.id = x) = some r' := by
    cases hf : (s.rowsAt c.corpus c.path).find? (fun r => r.id = x) with
    | none =>
      rw [List.find?_eq_none] at hf
      exact absurd (by simpa using hid') (hf r' (mem_rowsAt.mpr ⟨hr', hcp⟩))
    | some o =>
      have hoid := List.find?_some hf
      rw [decide_eq_true_eq] at hoid
      have hom := (mem_rowsAt.mp (List.mem_of_find?_eq_some hf)).1
      rw [IndexedTable.eq_of_key hom hr' (hoid.trans hid'.symm)]
  rw [lineDelta, if_pos hp, hfind, Option.bind_some]

namespace Reindexed

variable (h : Reindexed env s c s')

include h

theorem edges_preserved {e : EdgeRow} (hp : e.src ∈ s.preserved env c) :
    e ∈ s'.edges ↔ e ∈ s.edges := by
  have hf := h.find?_edges e.key
  have hkeep : ∀ o, s.edges.find? e.key = some o → ¬ s.Dropped env c o := by
    intro o ho hd
    have hsrc : o.src = e.src := congrArg Prod.fst (Table.mem_of_find? ho).2
    exact hd.2.1 (hsrc ▸ hp)
  have hpk : e.key.1 ∈ s.preserved env c := hp
  rw [removedIds_of_pureBodyEdit (pureBodyEdit_of_mem_preserved hp),
    if_neg (Finset.notMem_empty _), if_pos hpk, Option.or_none] at hf
  have hsame : s'.edges.find? e.key = s.edges.find? e.key := by
    rw [hf]
    cases ho : s.edges.find? e.key with
    | none => rfl
    | some o => rw [Option.filter_some, if_pos (by simpa using hkeep o ho)]
  have hiff : ∀ t : EdgeTable, e ∈ t ↔ t.find? e.key = some e :=
    fun t => (Table.find?_eq_some.trans (and_iff_left rfl)).symm
  rw [hiff, hiff, hsame]

theorem mem_sites {r : SiteRow} :
    r ∈ s'.sites ↔ (r ∈ s.sites ∧ r.src ∉ s.oldIds c) ∨ r ∈ s.shiftedSites env c := by
  have hsrc : ∀ o ∈ s.shiftedSites env c, o.src ∈ s.oldIds c := by
    intro o ho
    obtain ⟨p, _, delta, hd, _, rfl⟩ := mem_shiftedSites.mp ho
    rw [lineDelta] at hd
    split_ifs at hd with hp
    exact preserved_subset_oldIds hp
  rw [h.sites, Table.mem_insertAll, Table.mem_deleteWhere]
  refine or_congr_right ?_
  constructor
  · intro ⟨_, hr⟩
    exact List.mem_of_find?_eq_some hr
  · intro hr
    constructor
    · intro ⟨o, ho, hk⟩
      have hos : o.src = r.src := congrArg Prod.fst hk
      exact (Table.mem_deleteWhere.mp ho).2 (hos ▸ hsrc r hr)
    · cases hf : (s.shiftedSites env c).find? (fun o => o.key = r.key) with
      | none =>
        rw [List.find?_eq_none] at hf
        exact absurd (by simp) (hf r hr)
      | some o =>
        have hk := List.find?_some hf
        rw [decide_eq_true_eq] at hk
        rw [eq_of_mem_shiftedSites (List.mem_of_find?_eq_some hf) hr hk]

theorem sites_preserved (hp : x ∈ s.preserved env c) :
    ∃ row new, row ∈ s.nodes ∧ row.id = x ∧ c.newLine x = some new ∧
      (row.line = none → ∀ r, r ∈ s'.sites → r.src ≠ x) ∧
      ∀ old, row.line = some old → ∀ r : SiteRow, r.src = x →
        (r ∈ s'.sites ↔ ∃ o, o ∈ s.sites ∧ o.src = x ∧ 1 ≤ o.line + ((new : Int) - old) ∧
          r = { o with line := o.line + ((new : Int) - old) }) := by
  have hold := preserved_subset_oldIds hp
  obtain ⟨_, row, hrow, hid, hash, _, hcur⟩ := mem_hashEqual.mp (preserved_subset_hashEqual hp)
  have hmem := (mem_rowsAt.mp hrow).1
  obtain ⟨new, hnew⟩ := newLine_of_hashes hcur
  have hdelta := lineDelta_eq hp hmem hid
  rw [hnew] at hdelta
  refine ⟨row, new, hmem, hid, hnew, ?_, ?_⟩
  · intro hline r hr hsrc
    rcases h.mem_sites.mp hr with hr | hr
    · exact hr.2 (hsrc ▸ hold)
    · obtain ⟨o, _, delta, hd, _, rfl⟩ := mem_shiftedSites.mp hr
      have hox : o.src = x := hsrc
      rw [hox, hdelta, hline] at hd
      cases hd
  · intro old hline r hsrc
    rw [hline] at hdelta
    rw [h.mem_sites, mem_shiftedSites]
    constructor
    · intro hr
      rcases hr with hr | ⟨o, ho, delta, hd, hle, rfl⟩
      · exact absurd (hsrc ▸ hold) hr.2
      · have hox : o.src = x := hsrc
        rw [hox, hdelta] at hd
        obtain rfl := Option.some.inj hd
        exact ⟨o, ho, hox, hle, rfl⟩
    · intro ⟨o, ho, hox, hle, hr⟩
      exact .inr ⟨o, ho, _, by rw [hox, hdelta]; rfl, hle, hr⟩

end Reindexed

/-- Preservation is sound and maximal. It is off without a text, when a symbol came or went and
when a type-level definition is not hash-equal; else the preserved definitions are the greatest
set of hash-equal ones from which no owned or parsed edge leads to a definition of the file outside
it, found in as many rounds as there are hash-equal definitions. Their edges stay, and their
occurrences move as far as they did. -/
theorem reindexReplace_preservation :
    ((c.content = none ∨ s.oldIds c ≠ c.newIds ∨
        ∃ n ∈ c.nodes, n.kind ∈ typeLevelKinds ∧ ¬ s.HashMatches env c n.id) →
      s.preserved env c = ∅) ∧
    (c.content ≠ none → s.oldIds c = c.newIds →
      (∀ n ∈ c.nodes, n.kind ∈ typeLevelKinds → s.HashMatches env c n.id) →
      IsGreatest { q : Finset NodeId | (∀ x ∈ q, s.HashMatches env c x) ∧
        Closed (s.refPairs c) (s.oldIds c) q } (s.preserved env c)) ∧
    (∀ fuel, (s.hashEqual env c).card ≤ fuel →
      demoteStep (s.refPairs c) c.newIds
        (Loop.iterate (demoteStep (s.refPairs c) c.newIds) fuel (s.hashEqual env c)) = none) ∧
    ∀ s' rep, s.reindexReplace env c = .ok (s', rep) →
      (∀ e : EdgeRow, e.src ∈ s.preserved env c → (e ∈ s'.edges ↔ e ∈ s.edges)) ∧
      ∀ x ∈ s.preserved env c, ∃ row new, row ∈ s.nodes ∧ row.id = x ∧ c.newLine x = some new ∧
        (row.line = none → ∀ r, r ∈ s'.sites → r.src ≠ x) ∧
        ∀ old, row.line = some old → ∀ r : SiteRow, r.src = x →
          (r ∈ s'.sites ↔ ∃ o, o ∈ s.sites ∧ o.src = x ∧ 1 ≤ o.line + ((new : Int) - old) ∧
            r = { o with line := o.line + ((new : Int) - old) }) := by
  refine ⟨preserved_eq_empty, preserved_isGreatest, demotion_halts, ?_⟩
  intro s' rep hok
  have h := reindexReplace_ok hok
  exact ⟨fun e he => h.edges_preserved he, fun x hx => h.sites_preserved hx⟩

def callerStore (line : Option Nat) (sites : SiteTable) : SqliteStore where
  __ := SqliteStore.empty
  nodes := ⟨⟨[NodeRow.ofNode (parsed "a.py" "python" "file" "file") none,
    NodeRow.ofNode { parsed "a.py" "python" "fn:run" "function" with
      line := line, endLine := some 2 } (some "go()\n"),
    NodeRow.ofNode (parsed "lib.py" "python" "fn:go" "function") none],
    show [8, 10, 11].Nodup by decide⟩, show [("a.py", "file"), ("a.py", "fn:run"),
      ("lib.py", "fn:go")].map (fun p => VName.mk "repo" "" p.1 "python" p.2) |>.Nodup by decide⟩
  edges := ⟨[⟨10, 11, .refCall, "scip", none⟩], by decide⟩
  sites := sites

def movedFile (content : String) (line : Nat) : Reparse where
  corpus := "repo"
  path := "a.py"
  nodes := [parsed "a.py" "python" "file" "file",
    { parsed "a.py" "python" "fn:run" "function" with line := some line, endLine := some line }]
  edges := [⟨8, 10, .definesBinding, none, none⟩]
  newHash := "h"
  content := some content

theorem reindexReplace_preservation_moved :
    ∃ s' rep, (callerStore (some 1) ⟨[⟨10, 11, .refCall, 1, some 0⟩], by decide⟩).reindexReplace
        lengthEnv (movedFile "\ngo()\n" 2) = .ok (s', rep) ∧
      ⟨10, 11, .refCall, "scip", none⟩ ∈ s'.edges ∧ ⟨10, 11, .refCall, 2, some 0⟩ ∈ s'.sites := by
  obtain ⟨⟨s', rep⟩, h⟩ := exists_ok (x := (callerStore (some 1)
    ⟨[⟨10, 11, .refCall, 1, some 0⟩], by decide⟩).reindexReplace
      lengthEnv (movedFile "\ngo()\n" 2)) (by decide +kernel)
  obtain ⟨_, _, _, hok⟩ := @reindexReplace_preservation lengthEnv
    (callerStore (some 1) ⟨[⟨10, 11, .refCall, 1, some 0⟩], by decide⟩)
    (movedFile "\ngo()\n" 2)
  obtain ⟨hedges, hsites⟩ := hok s' rep h
  refine ⟨s', rep, h, (hedges _ (by decide +kernel)).mpr (by decide), ?_⟩
  obtain ⟨row, new, hrow, hid, hnew, _, hshift⟩ := hsites 10 (by decide +kernel)
  have hline : ∀ r, r ∈ (callerStore (some 1) ⟨[⟨10, 11, .refCall, 1, some 0⟩],
      by decide⟩).nodes → r.id = 10 → r.line = some 1 := by decide
  have hnew' : some new = some 2 := hnew.symm.trans (by decide +kernel)
  obtain rfl := Option.some.inj hnew'
  exact (hshift 1 (hline row hrow hid) _ rfl).mpr
    ⟨⟨10, 11, .refCall, 1, some 0⟩, by decide, rfl, by decide, rfl⟩

/-- Two conditionally compiled twins share an id, and one of them goes: the other moves up by more
than the lines above the first. And of a definition without a stored line no occurrence is left. -/
theorem reindexReplace_sites_lost :
    (∃ s' rep, (callerStore (some 5) ⟨[⟨10, 11, .refCall, 3, none⟩, ⟨10, 11, .refCall, 5, none⟩],
        by decide⟩).reindexReplace lengthEnv (movedFile "go()\n" 1) = .ok (s', rep) ∧
      10 ∈ (callerStore (some 5) ⟨[⟨10, 11, .refCall, 3, none⟩, ⟨10, 11, .refCall, 5, none⟩],
        by decide⟩).preserved lengthEnv (movedFile "go()\n" 1) ∧
      s'.sites.rows = [⟨10, 11, .refCall, 1, none⟩]) ∧
    ∃ s' rep, (callerStore none ⟨[⟨10, 11, .refCall, 1, none⟩], by decide⟩).reindexReplace
        lengthEnv (movedFile "go()\n" 1) = .ok (s', rep) ∧
      10 ∈ (callerStore none ⟨[⟨10, 11, .refCall, 1, none⟩], by decide⟩).preserved lengthEnv
        (movedFile "go()\n" 1) ∧
      s'.sites.rows = [] := by
  refine ⟨⟨_, _, rfl, ?_, ?_⟩, ⟨_, _, rfl, ?_, ?_⟩⟩ <;> decide +kernel

end SqliteStore

/-- The source texts spanned by the nodes with an id, in the order of the parse. -/
def Reparse.spanned (c : Reparse) (x : NodeId) : List String :=
  ((c.content.map fun text => (spannedTexts text (spansOf c.nodes)).filter fun p => p.1 = x).getD
    []).map Prod.snd

theorem Reparse.hashes_eq (env : Env) (c : Reparse) (x : NodeId) :
    c.hashes env x = (c.spanned x).getLast?.map env.sha256 := by
  rw [hashes, bodyHashes, spanned]
  cases c.content with
  | none => rfl
  | some text =>
    rw [Option.bind_some, Option.map_some, Option.getD_some, bodyHashesForSpans,
      collectMap_eq_getLast?, List.filter_map, List.getLast?_map, List.getLast?_map,
      Option.map_map, Option.map_map]
    rfl

namespace SqliteStore

variable {env : Env} {s s' : SqliteStore} {c c' : Reparse} {x : NodeId}

theorem bodyHash_of_evolve {hash : Option String} {rows : List NodeRow} {old : Option NodeRow}
    (hrows : ∀ row ∈ rows, row.bodyHash = hash) (hold : ∀ o, old = some o → o.bodyHash = hash)
    {r : NodeRow} (hr : IndexedTable.evolve parseUpdate old rows = some r) : r.bodyHash = hash := by
  induction rows generalizing old with
  | nil => exact hold r hr
  | cons row rows ih =>
    rw [List.forall_mem_cons] at hrows
    refine ih hrows.2 ?_ hr
    intro o ho
    obtain rfl := Option.some.inj ho
    cases old with
    | none => exact hrows.1
    | some q => exact hrows.1

theorem Reindexed.evolve_own (h : Reindexed env s c s') {r : NodeRow}
    (hr : r ∈ s'.rowsAt c.corpus c.path) :
    IndexedTable.evolve parseUpdate none
      ((c.nodes.filter (fun n => n.id = r.id)).map fun n => NodeRow.ofNode n (c.hashes env n.id)) =
        some r := by
  obtain ⟨hm, hcp⟩ := mem_rowsAt.mp hr
  have hf : s'.nodes.find? r.id = some r := Table.find?_of_mem (t := s'.nodes.toTable) hm
  rw [h.find?_nodes] at hf
  have hold : ∀ o, (if r.id ∈ s.oldIds c then none else s.nodes.find? r.id) = some o →
      ¬ (o.vname.corpus = c.corpus ∧ o.vname.path = c.path) := by
    intro o ho hcp
    split_ifs at ho with hx
    obtain ⟨hom, hoid⟩ := Table.mem_of_find? ho
    exact hx (mem_idsAt.mpr ⟨o, hom, hoid, hcp⟩)
  generalize (if r.id ∈ s.oldIds c then none else s.nodes.find? r.id) = old at hf hold
  cases old with
  | some o =>
    obtain ⟨o', ho', _, hv⟩ := IndexedTable.evolve_eq_some hf
    obtain rfl := Option.some.inj ho'
    have hov : r.vname = o.vname := hv
    exact absurd (hov ▸ hcp) (hold o rfl)
  | none => exact hf

theorem Reindexed.bodyHash (h : Reindexed env s c s') {r : NodeRow}
    (hr : r ∈ s'.rowsAt c.corpus c.path) : r.bodyHash = c.hashes env r.id := by
  refine bodyHash_of_evolve ?_ (by simp) (h.evolve_own hr)
  intro row hrow
  obtain ⟨n, hn, rfl⟩ := List.mem_map.mp hrow
  rw [List.mem_filter, decide_eq_true_eq] at hn
  exact congrArg (c.hashes env) hn.2

/-- A definition that keeps its edges over a second call has, in the two parses, the same text
under its last span. So its texts agree exactly when those of its other spans do. -/
theorem preserved_spanned_iff (hinj : Function.Injective env.sha256) {rep : ReplaceReport}
    (h : s.reindexReplace env c = .ok (s', rep)) (hcorpus : c'.corpus = c.corpus)
    (hpath : c'.path = c.path) (hx : x ∈ s'.preserved env c') :
    (∃ text, (c.spanned x).getLast? = some text ∧ (c'.spanned x).getLast? = some text) ∧
      (c.spanned x = c'.spanned x ↔ (c.spanned x).dropLast = (c'.spanned x).dropLast) := by
  obtain ⟨_, r, hr, hid, hash, hstored, hcur⟩ := mem_hashEqual.mp (preserved_subset_hashEqual hx)
  rw [hcorpus, hpath] at hr
  have hfirst : c.hashes env x = some hash := by
    rw [← hstored, ← hid, (reindexReplace_ok h).bodyHash hr]
  rw [Reparse.hashes_eq] at hfirst hcur
  obtain ⟨text, ht, hth⟩ := Option.map_eq_some_iff.mp hfirst
  obtain ⟨text', ht', hth'⟩ := Option.map_eq_some_iff.mp hcur
  obtain rfl := hinj (hth.trans hth'.symm)
  refine ⟨⟨text, ht, ht'⟩, fun heq => by rw [heq], ?_⟩
  intro hdrop
  have hsplit : ∀ l : List String, l.getLast? = some text → l = l.dropLast ++ [text] := by
    intro l hl
    exact (List.dropLast_append_getLast? text (Option.mem_def.mpr hl)).symm
  rw [hsplit _ ht, hsplit _ ht', hdrop]

/-- A save, and another that changes nothing in the text of the definition. -/
theorem preserved_spanned_moved :
    ∃ s' rep, empty.reindexReplace lengthEnv (movedFile "go()\n" 1) = .ok (s', rep) ∧
      (movedFile "go()\n" 1).spanned 10 =
        (movedFile "\ngo()\n" 2).spanned 10 := by
  obtain ⟨⟨s', rep⟩, h, hp⟩ := exists_ok_and (x := empty.reindexReplace lengthEnv
    (movedFile "go()\n" 1))
    (p := fun q => 10 ∈ q.1.preserved lengthEnv (movedFile "\ngo()\n" 2))
    (by decide +kernel)
  have hinj : Function.Injective lengthEnv.sha256 := Function.injective_id
  have hiff := preserved_spanned_iff hinj h rfl rfl hp
  exact ⟨s', rep, h, hiff.2.mpr (by decide +kernel)⟩

def overloads (content : String) : Reparse where
  corpus := "repo"
  path := "a.ts"
  nodes := [{ parsed "a.ts" "typescript" "fn:run" "function" with line := some 1, endLine := some 1 },
    { parsed "a.ts" "typescript" "fn:run" "function" with line := some 2, endLine := some 2 }]
  edges := []
  newHash := "h"
  content := some content

/-- What a commit left of the overloads: the first of them calls into a library. -/
def overloadStore : SqliteStore where
  __ := SqliteStore.empty
  nodes := ⟨⟨[NodeRow.ofNode { parsed "a.ts" "typescript" "fn:run" "function" with
      line := some 2, endLine := some 2 } (some "{}"),
    NodeRow.ofNode (parsed "lib.ts" "typescript" "fn:go" "function") none], by decide⟩, by decide⟩
  edges := ⟨[⟨10, 11, .refCall, "scip", none⟩], by decide⟩

/-- The first overload changes, and the definition is taken for unchanged: its committed edge
stays. -/
theorem preserved_overload_changed :
    ∃ (s' s'' : SqliteStore) (rep rep' : ReplaceReport),
      overloadStore.reindexReplace lengthEnv (overloads "go()\n{}") =
        .ok (s', rep) ∧
      s'.reindexReplace lengthEnv (overloads "no()\n{}") = .ok (s'', rep') ∧
      10 ∈ s'.preserved lengthEnv (overloads "no()\n{}") ∧
      ⟨10, 11, .refCall, "scip", none⟩ ∈ s''.edges ∧
      (overloads "go()\n{}").spanned 10 ≠
        (overloads "no()\n{}").spanned 10 := by
  refine ⟨_, _, _, _, rfl, rfl, ?_, ?_, ?_⟩ <;> decide +kernel

end SqliteStore

end Travsr.Store
