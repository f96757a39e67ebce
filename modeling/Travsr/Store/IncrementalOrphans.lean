import Travsr.Store.Delete

namespace Travsr.Store

open Travsr.Core Relational

namespace SqliteStore

/-- The node is stored once the call has written its nodes. -/
def StoredAfter (s : SqliteStore) (c : Reparse) (x : NodeId) : Prop :=
  (s.Stored x ∧ x ∉ s.oldIds c) ∨ ∃ n ∈ c.nodes, n.id = x

/-- The node is then stored under one of the paths. -/
def HeldAfter (s : SqliteStore) (c : Reparse) (paths : List String) (x : NodeId) : Prop :=
  (s.Held c.corpus paths x ∧ x ∉ s.oldIds c) ∨
    ∃ n ∈ c.nodes, n.id = x ∧ n.vname.corpus = c.corpus ∧ n.vname.path ∈ paths

/-- Every edge of the parse leads to a symbol the call removes, starts from a file that is
swept, or has both its ends stored. -/
def Guarded (s : SqliteStore) (c : Reparse) (paths : List String) : Prop :=
  ∀ e ∈ c.edges, e.dst ∈ s.removedIds c ∨ s.HeldAfter c paths e.src ∨
    (s.StoredAfter c e.src ∧ s.StoredAfter c e.dst)

def GuardedRun (env : Env) (paths : List String) : SqliteStore → List Reparse → Prop
  | _, [] => True
  | s, c :: calls =>
    ((s.reindexReplace env c).isOk → s.Guarded c paths) ∧
      GuardedRun env paths (s.reindexed env c) calls

instance (s : SqliteStore) (c : Reparse) (x : NodeId) : Decidable (s.StoredAfter c x) :=
  inferInstanceAs (Decidable (_ ∨ ∃ n ∈ c.nodes, _))

instance (s : SqliteStore) (c : Reparse) (paths : List String) (x : NodeId) :
    Decidable (s.HeldAfter c paths x) :=
  inferInstanceAs (Decidable (_ ∨ ∃ n ∈ c.nodes, _))

instance (s : SqliteStore) (c : Reparse) (paths : List String) : Decidable (s.Guarded c paths) :=
  inferInstanceAs (Decidable (∀ e ∈ c.edges, _))

variable {env : Env} {s s' : SqliteStore} {c : Reparse} {corpus : String} {paths : List String}

theorem reindexed_of_error (h : (s.reindexReplace env c).isOk = false) : s.reindexed env c = s := by
  unfold reindexed
  split
  next h' => simp [h', Except.isOk, Except.toBool] at h
  next => rfl

theorem reindexed_of_ok (h : (s.reindexReplace env c).isOk) : Reindexed env s c (s.reindexed env c) := by
  unfold reindexed
  split
  next h' => exact reindexReplace_ok h'
  next h' => simp [h', Except.isOk, Except.toBool] at h

theorem Addressed.reindexed {nodes : List Node} (ha : s.Addressed nodes) (hc : c.nodes ⊆ nodes) :
    (s.reindexed env c).Addressed nodes := by
  cases hok : (s.reindexReplace env c).isOk with
  | true => exact (reindexed_of_ok hok).addressed ha hc
  | false => rwa [reindexed_of_error hok]

theorem heldAfter_of_pureBodyEdit (ha : s.Addressed c.nodes) (hp : c.path ∈ paths)
    (he : s.PureBodyEdit c) {x : NodeId} (hx : x ∈ s.oldIds c) : s.HeldAfter c paths x := by
  obtain ⟨n, hn, hpath, hid⟩ := Reparse.mem_newIds.mp (he.2 ▸ hx)
  obtain ⟨r, hr, hrid, hcorpus, _⟩ := mem_idsAt.mp hx
  have hv : r.vname = n.vname := ha.row r hr n hn (hrid.trans hid.symm)
  exact .inr ⟨n, hn, hid, hv ▸ hcorpus, hpath ▸ hp⟩

namespace Reindexed

variable (h : Reindexed env s c s')

include h

theorem held_iff (ha : s.Addressed c.nodes) {x : NodeId} :
    s'.Held c.corpus paths x ↔ s.HeldAfter c paths x := by
  constructor
  · intro ⟨path, hp, hx⟩
    rcases (h.mem_idsAt_iff ha).mp hx with ⟨hs, hold⟩ | ⟨n, hn, hid, hc, hpath⟩
    · exact .inl ⟨⟨path, hp, hs⟩, hold⟩
    · exact .inr ⟨n, hn, hid, hc, hpath ▸ hp⟩
  · intro hx
    rcases hx with ⟨⟨path, hp, hs⟩, hold⟩ | ⟨n, hn, hid, hc, hpath⟩
    · exact ⟨path, hp, (h.mem_idsAt_iff ha).mpr (.inl ⟨hs, hold⟩)⟩
    · exact ⟨n.vname.path, hpath, (h.mem_idsAt_iff ha).mpr (.inr ⟨n, hn, hid, hc, rfl⟩)⟩

theorem anchored_of_anchored {e : EdgeRow} (ha : s.Anchored e) (hd : ¬ s.Dropped env c e)
    (hr : e.dst ∉ s.removedIds c) : s'.Anchored e := by
  have hemit : ∀ x, x ∈ c.newIds → s'.Stored x := by
    intro x hx
    obtain ⟨n, hn, _, hid⟩ := Reparse.mem_newIds.mp hx
    exact h.stored_iff.mpr (.inr ⟨n, hn, hid⟩)
  constructor
  · by_cases hs : e.src ∈ s.oldIds c
    · have he := pureBodyEdit_of_not_dropped hs hd
      exact hemit _ (he.2 ▸ hs)
    · exact h.stored_iff.mpr (.inl ⟨ha.1, hs⟩)
  · by_cases hs : e.dst ∈ s.oldIds c
    · apply hemit
      by_contra hn
      exact hr (Finset.mem_sdiff.mpr ⟨hs, hn⟩)
    · exact h.stored_iff.mpr (.inl ⟨ha.2, hs⟩)

theorem sweepable_iff (ha : s.Addressed c.nodes) (hp : c.path ∈ paths)
    (hs : s.Sweepable c.corpus paths) : s'.Sweepable c.corpus paths ↔ s.Guarded c paths := by
  constructor
  · intro hs' e he
    by_cases hr : e.dst ∈ s.removedIds c
    · exact .inl hr
    right
    by_cases hpres : e.src ∈ s.preserved env c
    · left
      exact heldAfter_of_pureBodyEdit ha hp (pureBodyEdit_of_mem_preserved hpres)
        (preserved_subset_oldIds hpres)
    have hk : ∃ e', e' ∈ s'.edges ∧ e'.src = e.src ∧ e'.dst = e.dst := by
      have hparse : ((c.edges.map EdgeRow.ofParse).find?
          (fun e' => e'.key = (EdgeRow.ofParse e).key)).isSome := by
        rw [List.find?_isSome]
        exact ⟨EdgeRow.ofParse e, List.mem_map_of_mem he, by simp⟩
      have hf : (s'.edges.find? (EdgeRow.ofParse e).key).isSome := by
        have hdst : (EdgeRow.ofParse e).key.2.1 ∉ s.removedIds c := hr
        have hsrc : (EdgeRow.ofParse e).key.1 ∉ s.preserved env c := hpres
        rw [h.find?_edges, if_neg hdst, if_neg hsrc, Option.isSome_or, hparse, Bool.or_true]
      obtain ⟨e', he'⟩ := Option.isSome_iff_exists.mp hf
      obtain ⟨hm, hkey⟩ := Table.mem_of_find? he'
      exact ⟨e', hm, congrArg Prod.fst hkey, congrArg (fun k => k.2.1) hkey⟩
    obtain ⟨e', he', hsrc, hdst⟩ := hk
    rcases hs' e' he' with ⟨h1, h2⟩ | hheld
    · right
      exact ⟨h.stored_iff.mp (hsrc ▸ h1), h.stored_iff.mp (hdst ▸ h2)⟩
    · exact .inl ((h.held_iff ha).mp (hsrc ▸ hheld))
  · intro hg e he
    obtain ⟨hr, hold | ⟨p, hpm, _, hpe⟩⟩ := h.mem_edges he
    · rcases hs e hold.1 with hanch | hheld
      · exact .inl (h.anchored_of_anchored hanch hold.2 hr)
      · right
        rw [h.held_iff ha]
        by_cases ho : e.src ∈ s.oldIds c
        · exact heldAfter_of_pureBodyEdit ha hp (pureBodyEdit_of_not_dropped ho hold.2) ho
        · exact .inl ⟨hheld, ho⟩
    · subst hpe
      rcases hg p hpm with hrem | hheld | ⟨h1, h2⟩
      · exact absurd hrem hr
      · exact .inr ((h.held_iff ha).mpr hheld)
      · exact .inl ⟨h.stored_iff.mpr h1, h.stored_iff.mpr h2⟩

end Reindexed

theorem guardedRun_iff {calls : List Reparse} (hcorpus : ∀ c ∈ calls, c.corpus = corpus)
    (hpaths : ∀ c ∈ calls, c.path ∈ paths) (ha : s.Addressed (calls.flatMap Reparse.nodes))
    (hs : s.Sweepable corpus paths) :
    (∀ k ≤ calls.length, ((calls.take k).foldl (reindexed env) s).Sweepable corpus paths) ↔
      GuardedRun env paths s calls := by
  induction calls generalizing s with
  | nil => simpa [GuardedRun] using hs
  | cons c calls ih =>
    rw [List.forall_mem_cons] at hcorpus hpaths
    rw [List.flatMap_cons] at ha
    have hac : s.Addressed c.nodes := ha.subset (List.subset_append_left _ _)
    have hat : (s.reindexed env c).Addressed (calls.flatMap Reparse.nodes) :=
      (ha.reindexed (List.subset_append_left _ _)).subset (List.subset_append_right _ _)
    have hstep : (s.reindexed env c).Sweepable corpus paths ↔
        ((s.reindexReplace env c).isOk → s.Guarded c paths) := by
      cases hok : (s.reindexReplace env c).isOk with
      | true =>
        have hr := (reindexed_of_ok hok).sweepable_iff hac hpaths.1 (hcorpus.1 ▸ hs)
        rw [hcorpus.1] at hr
        simpa using hr
      | false => simpa [reindexed_of_error hok] using hs
    constructor
    · intro hall
      have h1 := hall 1 (by simp)
      rw [List.take_succ_cons, List.take_zero, List.foldl_cons, List.foldl_nil] at h1
      refine ⟨hstep.mp h1, (ih hcorpus.2 hpaths.2 hat h1).mp ?_⟩
      intro k hk
      have := hall (k + 1) (by simpa using hk)
      rwa [List.take_succ_cons, List.foldl_cons] at this
    · intro ⟨hg, hrun⟩ k hk
      cases k with
      | zero => exact hs
      | succ k =>
        rw [List.take_succ_cons, List.foldl_cons]
        exact (ih hcorpus.2 hpaths.2 hat (hstep.mpr hg)).mpr hrun k (by simpa using hk)

/-- An incremental batch over a store without orphan edges leaves none when its calls are
guarded; and it leaves none wherever it is cut short only then. -/
theorem reindexFiles_noOrphans {calls : List Reparse} (h0 : s.NoOrphans)
    (hcorpus : ∀ c ∈ calls, c.corpus = corpus)
    (ha : s.Addressed (calls.flatMap Reparse.nodes)) :
    (GuardedRun env (calls.map Reparse.path) s calls → (s.reindexFiles env corpus calls).NoOrphans) ∧
      ((∀ k ≤ calls.length,
          (((calls.take k).foldl (reindexed env) s).sweepOrphanEdgesForPaths corpus
            (calls.map Reparse.path)).1.NoOrphans) ↔
        GuardedRun env (calls.map Reparse.path) s calls) := by
  have hs : s.Sweepable corpus (calls.map Reparse.path) := fun e he => .inl (h0 e he)
  have hpaths : ∀ c ∈ calls, c.path ∈ calls.map Reparse.path := fun c hc => List.mem_map_of_mem hc
  have hiff := @guardedRun_iff env _ _ _ _ hcorpus hpaths ha hs
  refine ⟨?_, ?_⟩
  · intro hg
    have := hiff.mpr hg calls.length le_rfl
    rw [List.take_length] at this
    exact noOrphans_sweep.mpr this
  · rw [← hiff]
    exact forall_congr' fun k => imp_congr_right fun _ => noOrphans_sweep

/-- A file that imports another of the same batch, and two that do not exist. -/
def importing : Reparse where
  corpus := "repo"
  path := "a.ts"
  nodes := [parsed "a.ts" "typescript" "file" "file", parsed "a.ts" "typescript" "import:./user" "import"]
  edges := [⟨8, 17, .definesBinding, none, none⟩, ⟨17, 11, .resolvesTo, none, none⟩,
    ⟨17, 12, .resolvesTo, none, none⟩]
  newHash := "h"
  content := none

def imported : Reparse where
  corpus := "repo"
  path := "user.ts"
  nodes := [parsed "user.ts" "typescript" "file" "file"]
  edges := []
  newHash := "h"
  content := none

theorem reindexFiles_noOrphans_import :
    (empty.reindexFiles lengthEnv "repo" [importing, imported]).NoOrphans := by
  have ha : SqliteStore.empty.Addressed ([importing, imported].flatMap Reparse.nodes) :=
    ⟨fun r hr => absurd hr (IndexedTable.not_mem_empty r), by decide⟩
  refine (reindexFiles_noOrphans (by decide) (by decide) ha).1 ?_
  refine ⟨fun _ => ?_, fun _ => ?_, trivial⟩ <;> decide +kernel

def reopening : Reparse where
  corpus := "repo"
  path := "hash.rb"
  nodes := [parsed "hash.rb" "ruby" "file" "file", parsed "hash.rb" "ruby" "method:Hash.deep" "method"]
  edges := [⟨17, 23, .definesBinding, none, none⟩]
  newHash := "h"
  content := none

theorem reopening_orphan :
    SqliteStore.empty.NoOrphans ∧ (empty.reindexReplace lengthEnv reopening).isOk ∧
      ¬ (empty.reindexFiles lengthEnv "repo" [reopening]).NoOrphans := by
  decide +kernel

end SqliteStore

end Travsr.Store
