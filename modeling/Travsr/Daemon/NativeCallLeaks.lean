import Travsr.Daemon.NativeCallIsolation

namespace Travsr.Daemon

open Travsr.Core Travsr.Store Relational

variable {lang pa pb sa sb : String} {s s' t : SqliteStore} {caller a b : NodeRow}
  {u : UnresolvedCall}

/-- Neither the ids nor the vnames of the two nodes are met in the store. -/
structure Fresh (t : SqliteStore) (a b : NodeRow) : Prop where
  ids : a.id ≠ b.id
  vnames : a.vname ≠ b.vname
  nodes : ∀ n, n ∈ t.nodes → (n.id ≠ a.id ∧ n.vname ≠ a.vname) ∧ n.id ≠ b.id ∧ n.vname ≠ b.vname
  edges : ∀ e, e ∈ t.edges → (e.src ≠ a.id ∧ e.dst ≠ a.id) ∧ e.src ≠ b.id ∧ e.dst ≠ b.id

namespace Fresh

variable (h : Fresh t a b)

include h

theorem not_has : ¬ t.nodes.Has a.id := fun ⟨n, hn, hid⟩ => (h.nodes n hn).1.1 hid

theorem not_hasIndex : ¬ t.nodes.HasIndex a.vname := fun ⟨n, hn, hv⟩ => (h.nodes n hn).1.2 hv

theorem not_has_insert : ¬ (t.nodes.insert a h.not_has h.not_hasIndex).Has b.id := by
  rintro ⟨n, hn, hid⟩
  rcases IndexedTable.mem_insert.mp hn with hn | rfl
  · exact (h.nodes n hn).2.1 hid
  · exact h.ids hid

theorem not_hasIndex_insert : ¬ (t.nodes.insert a h.not_has h.not_hasIndex).HasIndex b.vname := by
  rintro ⟨n, hn, hv⟩
  rcases IndexedTable.mem_insert.mp hn with hn | rfl
  · exact (h.nodes n hn).2.2 hv
  · exact h.vnames hv

def grow : SqliteStore :=
  { t with
    nodes := (t.nodes.insert a h.not_has h.not_hasIndex).insert b h.not_has_insert
      h.not_hasIndex_insert
    edges := (t.edges.insertIgnore ⟨a.id, a.id, .depends, "tree-sitter", none⟩).insertIgnore
      ⟨a.id, b.id, .resolvesTo, "tree-sitter", none⟩ }

theorem grow_rows : h.grow.nodes.rows = t.nodes.rows ++ [a, b] := by
  have hrows : h.grow.nodes.rows = t.nodes.rows ++ [a] ++ [b] := rfl
  rw [hrows, List.append_assoc]
  rfl

theorem mem_grow_nodes {n : NodeRow} : n ∈ h.grow.nodes ↔ n ∈ t.nodes ∨ n = a ∨ n = b := by
  have hmem : n ∈ h.grow.nodes.rows ↔ n ∈ t.nodes.rows ∨ n = a ∨ n = b := by
    rw [h.grow_rows, List.mem_append, List.mem_cons, List.mem_singleton]
  exact hmem

theorem mem_grow_edges {e : EdgeRow} : e ∈ h.grow.edges ↔ e ∈ t.edges ∨
    e = ⟨a.id, a.id, .depends, "tree-sitter", none⟩ ∨
      e = ⟨a.id, b.id, .resolvesTo, "tree-sitter", none⟩ := by
  have h1 : ¬ t.edges.Has (EdgeRow.key ⟨a.id, a.id, .depends, "tree-sitter", none⟩) := by
    rintro ⟨x, hx, hk⟩
    exact (h.edges x hx).1.1 (congrArg Prod.fst hk)
  have h2 : ¬ (t.edges.insertIgnore ⟨a.id, a.id, .depends, "tree-sitter", none⟩).Has
      (EdgeRow.key ⟨a.id, b.id, .resolvesTo, "tree-sitter", none⟩) := by
    rintro ⟨x, hx, hk⟩
    rcases Table.mem_insertIgnore.mp hx with hx | ⟨rfl, -⟩
    · exact (h.edges x hx).1.1 (congrArg Prod.fst hk)
    · exact h.ids (congrArg (fun k => k.2.1) hk)
  have hmem : e ∈ h.grow.edges ↔ _ := Table.mem_insertIgnore
  rw [hmem, Table.mem_insertIgnore]
  simp only [h1, h2, not_false_eq_true, and_true, or_assoc]

theorem mem_grow_imports (hfile : b.kind = "file") {p : String × String} :
    p ∈ h.grow.fileImportPairs ↔ p ∈ t.fileImportPairs ∨ p = (a.vname.path, b.vname.path) := by
  rw [SqliteStore.mem_fileImportPairs, SqliteStore.mem_fileImportPairs]
  constructor
  · rintro ⟨e1, h1, e2, h2, hk1, hs, hk2, n1, hn1, hi1, n2, hn2, hi2, hf, rfl⟩
    rw [mem_grow_edges] at h1 h2
    rw [mem_grow_nodes] at hn1 hn2
    rcases h1 with h1 | rfl | rfl
    · rcases h2 with h2 | rfl | rfl
      · left
        refine ⟨e1, h1, e2, h2, hk1, hs, hk2, n1, ?_, hi1, n2, ?_, hi2, hf, rfl⟩
        · rcases hn1 with hn1 | rfl | rfl
          · exact hn1
          · exact absurd hi1.symm (h.edges e1 h1).1.1
          · exact absurd hi1.symm (h.edges e1 h1).2.1
        · rcases hn2 with hn2 | rfl | rfl
          · exact hn2
          · exact absurd hi2.symm (h.edges e2 h2).1.2
          · exact absurd hi2.symm (h.edges e2 h2).2.2
      · cases hk2
      · exact absurd hs.symm (h.edges e1 h1).1.2
    · rcases h2 with h2 | rfl | rfl
      · exact absurd hs (h.edges e2 h2).1.1
      · cases hk2
      · right
        rcases hn1 with hn1 | rfl | rfl
        · exact absurd hi1 (h.nodes n1 hn1).1.1
        · rcases hn2 with hn2 | rfl | rfl
          · exact absurd hi2 (h.nodes n2 hn2).2.1
          · exact absurd hi2 h.ids
          · rfl
        · exact absurd hi1.symm h.ids
    · cases hk1
  · rintro (⟨e1, h1, e2, h2, hk1, hs, hk2, n1, hn1, hi1, n2, hn2, hi2, hf, rfl⟩ | rfl)
    · exact ⟨e1, h.mem_grow_edges.mpr (.inl h1), e2, h.mem_grow_edges.mpr (.inl h2), hk1, hs, hk2,
        n1, h.mem_grow_nodes.mpr (.inl hn1), hi1, n2, h.mem_grow_nodes.mpr (.inl hn2), hi2, hf, rfl⟩
    · exact ⟨_, h.mem_grow_edges.mpr (.inr (.inl rfl)), _, h.mem_grow_edges.mpr (.inr (.inr rfl)),
        rfl, rfl, rfl, a, h.mem_grow_nodes.mpr (.inr (.inl rfl)), rfl, b,
        h.mem_grow_nodes.mpr (.inr (.inr rfl)), rfl, hfile, rfl⟩

end Fresh

theorem exists_bound (ids : List Nat) : ∃ N, ∀ i ∈ ids, i < N := by
  induction ids with
  | nil => exact ⟨0, fun _ h => absurd h List.not_mem_nil⟩
  | cons i ids ih =>
    obtain ⟨N, hN⟩ := ih
    refine ⟨max (i + 1) N, fun j hj => ?_⟩
    rcases List.mem_cons.mp hj with rfl | hj
    · omega
    · have := hN j hj
      omega

theorem foreign_append (lang : String) {n : NodeRow} (h : n.vname.language = lang ++ "x") :
    Foreign lang n := by
  have hlen : (lang ++ "x").toList.length = lang.toList.length + 1 := by
    rw [String.toList_append, List.length_append]
    rfl
  constructor
  · intro hn
    rw [← h, hn] at hlen
    exact absurd hlen (by simp)
  · intro hn
    rw [← h, hn] at hlen
    omega

theorem exists_fresh (t : SqliteStore) (lang pa sa pb sb : String) :
    ∃ a b : NodeRow, Fresh t a b ∧ Foreign lang a ∧ Foreign lang b ∧ b.kind = "file" ∧
      a.vname.path = pa ∧ a.vname.signature = sa ∧ b.vname.path = pb ∧ b.vname.signature = sb := by
  obtain ⟨N, hN⟩ := exists_bound (t.nodes.rows.map NodeRow.id ++
    (t.edges.rows.flatMap fun e => [e.src, e.dst]))
  obtain ⟨M, hM⟩ := exists_bound (t.nodes.rows.map fun n => n.vname.root.toList.length)
  have hnode : ∀ n, n ∈ t.nodes → n.id < N := fun n hn =>
    hN _ (List.mem_append_left _ (List.mem_map.mpr ⟨n, hn, rfl⟩))
  have hroot : ∀ n, n ∈ t.nodes → n.vname.root.toList.length < M := fun n hn =>
    hM _ (List.mem_map.mpr ⟨n, hn, rfl⟩)
  have hedge : ∀ e, e ∈ t.edges → e.src < N ∧ e.dst < N := by
    intro e he
    have hmem : ∀ i ∈ [e.src, e.dst], i < N := fun i hi =>
      hN _ (List.mem_append_right _ (List.mem_flatMap.mpr ⟨e, he, hi⟩))
    exact ⟨hmem _ (by simp), hmem _ (by simp)⟩
  have hlen : ∀ {m : Nat} {v : VName}, v.root = String.ofList (List.replicate m 'x') →
      v.root.toList.length = m := fun h => by rw [h, String.toList_ofList, List.length_replicate]
  refine ⟨⟨N, ⟨"", String.ofList (List.replicate M 'x'), pa, lang ++ "x", sa⟩, "import", "", none,
      none, false, .none, none⟩,
    ⟨N + 1, ⟨"", String.ofList (List.replicate (M + 1) 'x'), pb, lang ++ "x", sb⟩, "file", "", none,
      none, false, .none, none⟩,
    ⟨?_, ?_, ?_, ?_⟩, foreign_append lang rfl, foreign_append lang rfl, rfl, rfl, rfl, rfl, rfl⟩
  · exact (Nat.succ_ne_self N).symm
  · intro hv
    have h1 := hlen (congrArg VName.root hv)
    have h2 := hlen (congrArg VName.root hv.symm)
    rw [String.toList_ofList, List.length_replicate] at h1
    omega
  · intro n hn
    have hid := hnode n hn
    have hr := hroot n hn
    refine ⟨⟨Nat.ne_of_lt hid, ?_⟩, Nat.ne_of_lt (Nat.lt_succ_of_lt hid), ?_⟩
    · intro hv
      have := hlen (congrArg VName.root hv)
      omega
    · intro hv
      have := hlen (congrArg VName.root hv)
      omega
  · intro e he
    obtain ⟨h1, h2⟩ := hedge e he
    exact ⟨⟨Nat.ne_of_lt h1, Nat.ne_of_lt h2⟩, Nat.ne_of_lt (Nat.lt_succ_of_lt h1),
      Nat.ne_of_lt (Nat.lt_succ_of_lt h2)⟩

/-- Two foreign nodes stand in the place of those of a store, the first of them importing the
second. -/
structure Grown (lang : String) (s s' : SqliteStore) (a b : NodeRow) : Prop where
  change : ForeignChange lang s s'
  rows : s'.nodes.rows = keptRows lang s ++ [a, b]
  foreign_a : Foreign lang a
  foreign_b : Foreign lang b
  fresh : ∀ n ∈ keptRows lang s, n.id ≠ a.id
  imports : ∀ p, p ∈ s'.fileImportPairs ↔
    p ∈ (nativePart lang s).fileImportPairs ∨ p = (a.vname.path, b.vname.path)

theorem exists_grown (lang : String) (s : SqliteStore) (pa sa pb sb : String) :
    ∃ s' a b, Grown lang s s' a b ∧ a.vname.path = pa ∧ a.vname.signature = sa ∧
      b.vname.path = pb ∧ b.vname.signature = sb := by
  obtain ⟨a, b, hfresh, hfa, hfb, hfile, hpa, hsa, hpb, hsb⟩ :=
    exists_fresh (nativePart lang s) lang pa sa pb sb
  have hrows : hfresh.grow.nodes.rows = keptRows lang s ++ [a, b] := hfresh.grow_rows
  refine ⟨hfresh.grow, a, b, ⟨⟨?_, ?_, ?_⟩, hrows, hfa, hfb, ?_, fun p =>
    hfresh.mem_grow_imports hfile⟩, hpa, hsa, hpb, hsb⟩
  · have hnil : [a, b].filter (fun n => ¬ Foreign lang n) = [] := by simp [hfa, hfb]
    have hself : (keptRows lang s).filter (fun n => ¬ Foreign lang n) = keptRows lang s :=
      List.filter_eq_self.mpr fun n hn => decide_eq_true (mem_keptRows.mp hn).2
    have hgrown : keptRows lang hfresh.grow =
        hfresh.grow.nodes.rows.filter fun n => ¬ Foreign lang n := rfl
    rw [hgrown, hrows, List.filter_append, hnil, hself, List.append_nil]
  · intro e he hne
    by_contra ht
    exact hne (hfresh.mem_grow_edges.mpr (.inl (Table.mem_deleteWhere.mpr ⟨he, ht⟩)))
  · intro e he hne
    have hin : a ∈ hfresh.grow.nodes.rows := hfresh.mem_grow_nodes.mpr (.inr (.inl rfl))
    rcases hfresh.mem_grow_edges.mp he with he | rfl | rfl
    · exact absurd (Table.mem_deleteWhere.mp he).1 hne
    · exact ⟨a, hin, hfa, .inl rfl⟩
    · exact ⟨a, hin, hfa, .inl rfl⟩
  · exact fun n hn => (hfresh.nodes n hn).1.1

end Travsr.Daemon
