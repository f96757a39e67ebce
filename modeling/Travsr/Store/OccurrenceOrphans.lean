import Travsr.Lib.Runs
import Travsr.Store.Attribution
import Travsr.Store.Delete
import Travsr.Store.LiveOverlay
import Travsr.Store.Staging

namespace Travsr.Store

open Travsr.Core Relational

namespace SqliteStore

variable {env : Env} {bulk : Bool} {s s' : SqliteStore} {batch : List FileGraph} {c : Reparse}
  {corpus : String} {nodes : List Node} {refs : List ScipRef}

/-- Both ends of every occurrence are stored. -/
def NoOrphanSites (s : SqliteStore) : Prop := ∀ r, r ∈ s.sites → s.Stored r.src ∧ s.Stored r.dst

instance (s : SqliteStore) : Decidable s.NoOrphanSites :=
  inferInstanceAs (Decidable (∀ r ∈ s.sites.rows, _))

/-- Some file of the batch replaces the stored row of the node. -/
def Replaced (s : SqliteStore) (batch : List FileGraph) (x : NodeId) : Prop :=
  ∃ file ∈ batch, x ∈ s.scopeIds file

instance (s : SqliteStore) (batch : List FileGraph) (x : NodeId) : Decidable (s.Replaced batch x) :=
  inferInstanceAs (Decidable (∃ file ∈ batch, _))

/-- A batch loses no occurrence's end: a node it replaces that an occurrence elsewhere leads to is
emitted again, and no later file of the batch deletes it. -/
def KeepsTargets (env : Env) (s : SqliteStore) (batch : List FileGraph) : Prop :=
  ∀ r, r ∈ s.sites → ¬ s.Replaced batch r.src → s.Replaced batch r.dst →
    standingRows env batch r.dst ≠ []

instance (env : Env) (s : SqliteStore) (batch : List FileGraph) :
    Decidable (s.KeepsTargets env batch) :=
  inferInstanceAs (Decidable (∀ r ∈ s.sites.rows, _ → _ → _))

/-- No occurrence from another file leads to a symbol that vanished. -/
def KeepsInbound (s : SqliteStore) (c : Reparse) : Prop :=
  ∀ r, r ∈ s.sites → r.src ∉ s.oldIds c → r.dst ∈ s.oldIds c → ∃ n ∈ c.nodes, n.id = r.dst

instance (s : SqliteStore) (c : Reparse) : Decidable (s.KeepsInbound c) :=
  inferInstanceAs (Decidable (∀ r ∈ s.sites.rows, _ → _ → _))

/-- No occurrence has an end among the rows. -/
def Unreferenced (s : SqliteStore) (p : NodeRow → Prop) [DecidablePred p] : Prop :=
  ∀ r, r ∈ s.sites → r.src ∉ s.idsWhere p ∧ r.dst ∉ s.idsWhere p

instance (s : SqliteStore) (p : NodeRow → Prop) [DecidablePred p] : Decidable (s.Unreferenced p) :=
  inferInstanceAs (Decidable (∀ r ∈ s.sites.rows, _))

/-- No reference to a stored callee falls back to a file node that is refused. -/
def Grounded (env : Env) (s : SqliteStore) (corpus : String) (nodes : List Node)
    (refs : List ScipRef) : Prop :=
  let base := (phaseBNodes s nodes).1
  ∀ ref ∈ timely env corpus (fetchAllFnSpans base corpus) base refs,
    ¬ Unattributed env corpus (fetchAllFnSpans base corpus) (attributedNodes env corpus base refs) ref

instance (env : Env) (s : SqliteStore) (corpus : String) (nodes : List Node)
    (refs : List ScipRef) : Decidable (s.Grounded env corpus nodes refs) :=
  inferInstanceAs (Decidable (∀ ref ∈ timely _ _ _ _ _, _))

theorem noOrphanSites_iff_keys : s.NoOrphanSites ↔
    ∀ k, s.sites.Has k → s.Stored k.1 ∧ s.Stored k.2.1 := by
  constructor
  · intro h k hex
    obtain ⟨r, hr, hk⟩ := hex
    subst hk
    exact h r hr
  · exact fun h r hr => h r.key ⟨r, hr, rfl⟩

theorem deleteNodesWhere_noOrphanSites_iff {p : NodeRow → Prop} [DecidablePred p]
    (h0 : s.NoOrphanSites) : (s.deleteNodesWhere p).NoOrphanSites ↔ s.Unreferenced p := by
  have hst : ∀ x, (s.deleteNodesWhere p).Stored x ↔ s.Stored x ∧ x ∉ s.idsWhere p :=
    fun x => has_deleteWhere
  constructor
  · intro h r hr
    obtain ⟨hsrc, hdst⟩ := h r hr
    exact ⟨((hst _).mp hsrc).2, ((hst _).mp hdst).2⟩
  · intro h r hr
    exact ⟨(hst _).mpr ⟨(h0 r hr).1, (h r hr).1⟩, (hst _).mpr ⟨(h0 r hr).2, (h r hr).2⟩⟩

theorem deleteFile_noOrphanSites (corpus path : String) (h0 : s.NoOrphanSites) :
    (s.deleteFile corpus path).1.NoOrphanSites := by
  intro r hr
  obtain ⟨hr, hn⟩ := Table.mem_deleteWhere.mp hr
  obtain ⟨hsrc, hdst⟩ := not_or.mp hn
  exact ⟨has_deleteWhere.mpr ⟨(h0 r hr).1, hsrc⟩, has_deleteWhere.mpr ⟨(h0 r hr).2, hdst⟩⟩

theorem recordEdgeSites_noOrphanSites {sites : List (NodeId × NodeId × Nat × Option Nat)}
    (hs : ∀ r ∈ sites, s.Stored r.1 ∧ s.Stored r.2.1) (h0 : s.NoOrphanSites) :
    (s.recordEdgeSites sites).NoOrphanSites := by
  rw [noOrphanSites_iff_keys]
  intro k hk
  have hhas := (Table.has_foldl_upsert
    (fun r : NodeId × NodeId × Nat × Option Nat => SiteRow.mk r.1 r.2.1 .refCall r.2.2.1 r.2.2.2)
    (fun r o => { o with col := o.col <|> r.2.2.2 }) (fun _ _ => rfl)).mp hk
  rcases hhas with hold | ⟨r, hr, hrk⟩
  · exact noOrphanSites_iff_keys.mp h0 k hold
  · subst hrk
    exact hs r (List.mem_filter.mp hr).1

theorem reindexReplace_noOrphanSites_iff {rep : ReplaceReport}
    (h : s.reindexReplace env c = .ok (s', rep)) (h0 : s.NoOrphanSites) :
    s'.NoOrphanSites ↔ s.KeepsInbound c := by
  have hw := reindexReplace_ok h
  constructor
  · intro hs r hr hsrc hdst
    have hm : r ∈ s'.sites := by
      rw [hw.sites]
      exact Table.mem_insertAll_of_mem (Table.mem_deleteWhere.mpr ⟨hr, hsrc⟩)
    exact (hw.stored_iff.mp (hs r hm).2).resolve_left fun hx => hx.2 hdst
  · intro hk r hr
    rw [hw.sites] at hr
    rcases Table.mem_insertAll.mp hr with ho | ⟨_, hp⟩
    · obtain ⟨hr, hsrc⟩ := Table.mem_deleteWhere.mp ho
      refine ⟨hw.stored_iff.mpr (.inl ⟨(h0 r hr).1, hsrc⟩), hw.stored_iff.mpr ?_⟩
      by_cases hdst : r.dst ∈ s.oldIds c
      · exact .inr (hk r hr hsrc hdst)
      · exact .inl ⟨(h0 r hr).2, hdst⟩
    · -- a shifted occurrence: its definition is preserved, so the edit removes no symbol
      obtain ⟨o, ho, hshift⟩ := List.mem_filterMap.mp (List.mem_of_find?_eq_some hp)
      obtain ⟨delta, hdelta, hrow⟩ := Option.bind_eq_some_iff.mp hshift
      have hsrc : o.src ∈ s.preserved env c := by
        unfold lineDelta at hdelta
        split_ifs at hdelta with hpres
        exact hpres
      have hends : r.src = o.src ∧ r.dst = o.dst := by
        split_ifs at hrow
        obtain rfl := Option.some.inj hrow
        exact ⟨rfl, rfl⟩
      have hsame := (pureBodyEdit_of_mem_preserved hsrc).2
      have hemitted : ∀ x, x ∈ s.oldIds c → ∃ n ∈ c.nodes, n.id = x := by
        intro x hx
        rw [hsame] at hx
        obtain ⟨n, hn, _, hid⟩ := Reparse.mem_newIds.mp hx
        exact ⟨n, hn, hid⟩
      rw [hends.1, hends.2]
      refine ⟨hw.stored_iff.mpr (.inr (hemitted _ (preserved_subset_oldIds hsrc))),
        hw.stored_iff.mpr ?_⟩
      by_cases hdst : o.dst ∈ s.oldIds c
      · exact .inr (hemitted _ hdst)
      · exact .inl ⟨(h0 o ho).2, hdst⟩

/-- The files of a batch delete the occurrences of the nodes they replace, and no others. -/
theorem mem_sites_foldlM_writeFile {t : SqliteStore}
    (h : batch.foldlM (writeFile env bulk) s = .ok t) {r : SiteRow} {o : NodeRow} (ho : o ∈ s.nodes)
    (hid : o.id = r.src) :
    r ∈ t.sites ↔ r ∈ s.sites ∧ ∀ file ∈ batch, ¬ file.InScope o := by
  induction batch generalizing s o with
  | nil =>
    obtain rfl := Except.ok.inj h
    simp
  | cons file batch ih =>
    rw [List.foldlM_cons] at h
    simp only [bind, Except.bind] at h
    split at h
    · cases h
    next s1 h1 =>
      have hf := writeFile_ok h1
      have hscope : r.src ∈ s.scopeIds file ↔ file.InScope o := by
        rw [← hid]
        exact mem_idsWhere_iff ho
      have hsub : r ∈ t.sites → r ∈ s1.sites := by
        intro hr
        by_contra hn
        refine absurd hr (foldlM_writeFile (P := fun u => r ∉ u.sites) ?_ h hn)
        exact fun u u' f _ hu hnu hm => hnu (hu.mem_sites.mp hm).1
      by_cases hs : file.InScope o
      · refine iff_of_false ?_ (fun hx => hx.2 file List.mem_cons_self hs)
        intro hr
        exact (hf.mem_sites.mp (hsub hr)).2 (hscope.mpr hs)
      · have hfind : s.nodes.find? r.src = some o := hid ▸ Table.find?_of_mem (t := s.nodes.toTable) ho
        have hrow := hf.find?_nodes r.src
        rw [hfind, Option.filter_some, decide_eq_true hs] at hrow
        obtain ⟨o1, ho1, hk1, hv1⟩ := IndexedTable.evolve_some parseUpdate o
          ((file.nodes.filter (fun n => n.id = r.src)).map fun n =>
            NodeRow.ofNode n (file.hashes env n.id))
        have hm1 := (Table.mem_of_find? (hrow.trans ho1)).1
        rw [ih h hm1 (hk1.trans hid), hf.mem_sites, hscope, and_assoc, List.forall_mem_cons]
        simp only [FileGraph.InScope, hv1]

theorem replaced_iff {o : NodeRow} (ho : o ∈ s.nodes) :
    s.Replaced batch o.id ↔ ∃ file ∈ batch, file.InScope o :=
  exists_congr fun _ => and_congr_right fun _ => mem_idsWhere_iff ho

theorem stored_foldlM_writeFile {t : SqliteStore} (ha : s.Addressed (batch.flatMap FileGraph.nodes))
    (h : batch.foldlM (writeFile env bulk) s = .ok t) {x : NodeId} (hx : s.Stored x) :
    t.Stored x ↔ (s.Replaced batch x → standingRows env batch x ≠ []) := by
  obtain ⟨o, ho, hid⟩ := hx
  have hfind : s.nodes.find? x = some o := hid ▸ Table.find?_of_mem (t := s.nodes.toTable) ho
  have hrep := @replaced_iff s batch o ho
  rw [hid] at hrep
  have hst : t.Stored x ↔ t.nodes.find? x ≠ none := by
    rw [Stored, Table.has_iff_find?, Option.isSome_iff_ne_none]
  rw [hst, (foldlM_writeFile_standing ha h).1, ne_eq, IndexedTable.evolve_eq_none, hfind, hrep,
    Option.filter_some]
  by_cases hs : ∀ file ∈ batch, ¬ file.InScope o
  · have hno : ¬ ∃ file ∈ batch, file.InScope o := fun h => h.elim fun f hf => hs f hf.1 hf.2
    simp [hno]
  · have hyes : ∃ file ∈ batch, file.InScope o := by simpa using hs
    rw [decide_eq_false hs]
    simp [hyes]

theorem writeFileGraphsBatch_noOrphanSites_iff {counts : BatchWriteCounts}
    (hstage : s.stagingActive = false) (ha : s.Addressed (batch.flatMap FileGraph.nodes))
    (h : s.writeFileGraphsBatch env batch bulk = .ok (s', counts)) (h0 : s.NoOrphanSites) :
    s'.NoOrphanSites ↔ s.KeepsTargets env batch := by
  obtain ⟨t, ht, hn, hs, _, _⟩ := writeFileGraphsBatch_ok hstage h
  obtain ⟨hpn, _, hps⟩ := prepareBulk_tables bulk s
  have hap : (s.prepareBulk bulk).Addressed (batch.flatMap FileGraph.nodes) :=
    ⟨fun r hr => ha.row r (hpn ▸ hr), ha.node⟩
  have hst : ∀ x, s.Stored x → (s'.Stored x ↔ (s.Replaced batch x → standingRows env batch x ≠ [])) := by
    intro x hx
    have hxp : (s.prepareBulk bulk).Stored x := by rwa [Stored, hpn]
    have hrep : (s.prepareBulk bulk).Replaced batch x ↔ s.Replaced batch x := by
      simp only [Replaced, mem_scopeIds, hpn]
    rw [Stored, hn, ← hrep]
    exact stored_foldlM_writeFile hap ht hxp
  have hsite : ∀ r, s.Stored r.src →
      (r ∈ s'.sites ↔ r ∈ s.sites ∧ ¬ s.Replaced batch r.src) := by
    intro r hex
    obtain ⟨o, ho, hid⟩ := hex
    have hrep := @replaced_iff s batch o ho
    rw [hid] at hrep
    rw [hs, mem_sites_foldlM_writeFile ht (hpn.symm ▸ ho) hid, hps, hrep]
    simp
  have hfrom : ∀ r, r ∈ s'.sites → r ∈ s.sites := by
    intro r hr
    rw [hs] at hr
    by_contra hno
    refine absurd hr (foldlM_writeFile (P := fun u => r ∉ u.sites) ?_ ht (by rwa [hps]))
    exact fun u u' f _ hu hnu hm => hnu (hu.mem_sites.mp hm).1
  constructor
  · intro hno r hr hsrc
    have hm := (hsite r (h0 r hr).1).mpr ⟨hr, hsrc⟩
    exact (hst _ (h0 r hr).2).mp (hno r hm).2
  · intro hk r hm
    have hr := hfrom r hm
    have hsrc := ((hsite r (h0 r hr).1).mp hm).2
    exact ⟨(hst _ (h0 r hr).1).mpr fun hrep => absurd hrep hsrc,
      (hst _ (h0 r hr).2).mpr (hk r hr hsrc)⟩

theorem writeScipAttributedBatch_noOrphanSites_iff (h0 : s.NoOrphanSites) :
    (s.writeScipAttributedBatch env corpus nodes refs).NoOrphanSites ↔
      s.Grounded env corpus nodes refs := by
  obtain ⟨hn, hs, _⟩ := writeScipAttributedBatchKeeping_tables env s corpus nodes refs []
  rw [noOrphanSites_iff_keys]
  unfold Grounded
  rw [writeScipAttributedBatch]
  generalize s.writeScipAttributedBatchKeeping env corpus nodes refs [] = s' at hn hs ⊢
  dsimp only at hn hs ⊢
  set base := (phaseBNodes s nodes).1
  set last := attributedNodes env corpus base refs
  have hgrow : Grown env corpus base last := grown_attributedNodes refs
  have hst : ∀ x, s'.Stored x ↔ last.Has x := fun x => by rw [Stored, hn]
  have hcaller : ∀ ref ∈ refs, last.Has (callerIn env corpus last ref) ↔
      ¬ Unattributed env corpus (fetchAllFnSpans base corpus) last ref := fun _ => has_callerIn_iff
  constructor
  · intro h ref href hun
    obtain ⟨hin, hcallee⟩ := mem_timely href
    have hno : ¬ last.Has (callerIn env corpus last ref) := fun hh => (hcaller ref hin).mp hh hun
    have hne : callerIn env corpus last ref ≠ ref.calleeId := fun heq => hno (heq ▸ hcallee)
    obtain ⟨callee, hfind⟩ := Option.isSome_iff_exists.mp (Table.has_iff_find?.mp hcallee)
    have hrow := siteOf_eq_some.mpr ⟨hne, callee, hfind, rfl⟩
    set r : SiteRow := ⟨callerIn env corpus last ref, ref.calleeId, refKind callee, ref.callerLine,
      ref.callerCol⟩
    have hhas : s'.sites.Has r.key := by
      rw [Table.has_iff_find?, hs, Option.isSome_iff_ne_none, ne_eq, recorded_eq_none, not_and]
      intro _ hnil
      have hr : r ∈ (timely env corpus (fetchAllFnSpans base corpus) base refs).filterMap
          (siteOf env corpus last) := List.mem_filterMap.mpr ⟨ref, href, hrow⟩
      have := List.filter_eq_nil_iff.mp hnil r hr
      simp at this
    exact hno ((hst _).mp (h r.key hhas).1)
  · intro hg k hk
    rw [Table.has_iff_find?, hs, Option.isSome_iff_ne_none, ne_eq, recorded_eq_none, not_and_or] at hk
    rw [hst, hst]
    rcases hk with hold | hnew
    · have hks : s.sites.Has k := by
        rw [Table.has_iff_find?, Option.isSome_iff_ne_none]
        intro hnone
        rw [hnone] at hold
        exact hold rfl
      obtain ⟨hsrc, hdst⟩ := noOrphanSites_iff_keys.mp h0 k hks
      exact ⟨hgrow.has (stored_phaseBNodes hsrc), hgrow.has (stored_phaseBNodes hdst)⟩
    · obtain ⟨r, hr⟩ := List.exists_mem_of_ne_nil _ hnew
      rw [List.mem_filter, decide_eq_true_eq] at hr
      obtain ⟨ref, href, hsite⟩ := List.mem_filterMap.mp hr.1
      obtain ⟨_, callee, hfind, hrow⟩ := siteOf_eq_some.mp hsite
      rw [← hr.2, hrow]
      exact ⟨(hcaller ref (mem_timely href).1).mpr (hg ref href),
        Table.has_iff_find?.mpr (by rw [SiteRow.key, hfind]; rfl)⟩

end SqliteStore

/-- A write of nodes or occurrences with its arguments. -/
inductive SiteWrite where
  | writeFileGraphsBatch (batch : List FileGraph) (bulk : Bool)
  | reindexReplace (c : Reparse)
  | deleteNodesForPath (path : String)
  | deleteFile (corpus path : String)
  | deleteNodesForPathPrefix (pre : String)
  | writeScipAttributedBatch (corpus : String) (nodes : List Node) (refs : List ScipRef)
  | recordEdgeSites (sites : List (NodeId × NodeId × Nat × Option Nat))
  | purgeGraph

namespace SiteWrite

def apply (env : Env) (s : SqliteStore) : SiteWrite → SqliteStore
  | writeFileGraphsBatch batch bulk =>
    ((s.writeFileGraphsBatch env batch bulk).toOption.map Prod.fst).getD s
  | reindexReplace c => s.reindexed env c
  | deleteNodesForPath path => (s.deleteNodesForPath path).1
  | deleteFile corpus path => (s.deleteFile corpus path).1
  | deleteNodesForPathPrefix pre => (s.deleteNodesForPathPrefix pre).1
  | writeScipAttributedBatch corpus nodes refs => s.writeScipAttributedBatch env corpus nodes refs
  | recordEdgeSites sites => s.recordEdgeSites sites
  | purgeGraph => s.purgeGraph.1

/-- The call is one a caller makes: an id is the hash of its vname, and occurrences are recorded
between stored nodes. -/
def Admissible (s : SqliteStore) : SiteWrite → Prop
  | writeFileGraphsBatch batch _ => s.Addressed (batch.flatMap FileGraph.nodes)
  | recordEdgeSites sites => ∀ r ∈ sites, s.Stored r.1 ∧ s.Stored r.2.1
  | _ => True

/-- The state in which a write is made meets the condition: the write leaves no occurrence behind
whose end it removes, and adds none without one. -/
def Condition (env : Env) (s : SqliteStore) : SiteWrite → Prop
  | writeFileGraphsBatch batch bulk =>
    (∃ p, s.writeFileGraphsBatch env batch bulk = .ok p) → s.KeepsTargets env batch
  | reindexReplace c => (∃ p, s.reindexReplace env c = .ok p) → s.KeepsInbound c
  | deleteNodesForPath path => s.Unreferenced fun r => r.vname.path = path
  | deleteNodesForPathPrefix pre => s.Unreferenced (SqliteStore.UnderPrefix pre)
  | writeScipAttributedBatch corpus nodes refs => s.Grounded env corpus nodes refs
  | deleteFile _ _ | recordEdgeSites _ | purgeGraph => True

variable {env : Env} {s : SqliteStore} {w : SiteWrite}

theorem stagingActive_apply (h : s.stagingActive = false) :
    (w.apply env s).stagingActive = false := by
  cases w with
  | writeFileGraphsBatch batch bulk =>
    rw [apply]
    cases hw : s.writeFileGraphsBatch env batch bulk with
    | error e => exact h
    | ok p =>
      simp only [SqliteStore.writeFileGraphsBatch, h, bind, Except.bind, pure, Except.pure,
        Bool.false_eq_true, if_false] at hw
      split at hw
      · cases hw
      next t ht =>
        split at hw
        · cases hw
        next edges he =>
          obtain rfl := Except.ok.inj hw
          have hact : t.stagingActive = false := by
            refine SqliteStore.foldlM_writeFile (P := fun u => u.stagingActive = false) ?_ ht ?_
            · exact fun u u' f _ hu hact => hu.stagingActive.trans hact
            · cases bulk <;> exact h
          exact hact
  | reindexReplace c =>
    rw [apply, SqliteStore.reindexed]
    cases hr : s.reindexReplace env c with
    | error e => exact h
    | ok p => exact (SqliteStore.reindexReplace_ok hr).stagingActive.trans h
  | writeScipAttributedBatch corpus nodes refs =>
    simp only [apply, SqliteStore.writeScipAttributedBatch,
      SqliteStore.writeScipAttributedBatchKeeping]
    split_ifs <;> exact h
  | deleteNodesForPath path => exact h
  | deleteFile corpus path => exact h
  | deleteNodesForPathPrefix pre => exact h
  | recordEdgeSites sites => exact h
  | purgeGraph => exact h

theorem noOrphanSites_apply_iff (hstage : s.stagingActive = false) (hw : w.Admissible s)
    (h0 : s.NoOrphanSites) : (w.apply env s).NoOrphanSites ↔ w.Condition env s := by
  cases w with
  | writeFileGraphsBatch batch bulk =>
    rw [apply, Condition]
    cases hb : s.writeFileGraphsBatch env batch bulk with
    | error e =>
      refine iff_of_true h0 ?_
      intro hok
      obtain ⟨p, hp⟩ := hok
      cases hp
    | ok p =>
      have hiff := SqliteStore.writeFileGraphsBatch_noOrphanSites_iff hstage hw hb h0
      exact ⟨fun h _ => hiff.mp h, fun h => hiff.mpr (h ⟨p, rfl⟩)⟩
  | reindexReplace c =>
    rw [apply, Condition, SqliteStore.reindexed]
    cases hr : s.reindexReplace env c with
    | error e =>
      refine iff_of_true h0 ?_
      intro hok
      obtain ⟨p, hp⟩ := hok
      cases hp
    | ok p =>
      have hiff := SqliteStore.reindexReplace_noOrphanSites_iff hr h0
      exact ⟨fun h _ => hiff.mp h, fun h => hiff.mpr (h ⟨p, rfl⟩)⟩
  | deleteNodesForPath path => exact SqliteStore.deleteNodesWhere_noOrphanSites_iff h0
  | deleteNodesForPathPrefix pre => exact SqliteStore.deleteNodesWhere_noOrphanSites_iff h0
  | deleteFile corpus path =>
    exact iff_of_true (SqliteStore.deleteFile_noOrphanSites corpus path h0) trivial
  | writeScipAttributedBatch corpus nodes refs =>
    exact SqliteStore.writeScipAttributedBatch_noOrphanSites_iff h0
  | recordEdgeSites sites =>
    exact iff_of_true (SqliteStore.recordEdgeSites_noOrphanSites hw h0) trivial
  | purgeGraph =>
    refine iff_of_true ?_ trivial
    intro r hr
    exact absurd hr (Table.not_mem_empty r)

/-- In every state of a run from the empty store both ends of every occurrence are stored exactly
when every write of the run meets its condition. -/
theorem noOrphanSites_iff {ws : List SiteWrite}
    (h : Runs.Every (apply env) (fun s w => w.Admissible s) SqliteStore.empty ws) :
    Runs.Always (apply env) SqliteStore.NoOrphanSites SqliteStore.empty ws ↔
      Runs.Every (apply env) (fun s w => w.Condition env s) SqliteStore.empty ws :=
  Runs.always_iff_every (J := fun s => s.stagingActive = false)
    (fun _ _ => stagingActive_apply) (fun _ _ => noOrphanSites_apply_iff) h rfl (by
      intro r hr
      exact absurd hr (Table.not_mem_empty r))

def calledGraph : FileGraph :=
  ⟨"a.ts", "h", [parsed "a.ts" "typescript" "fn:f" "function"], [], none⟩

def callingGraph : FileGraph :=
  ⟨"b.ts", "h", [parsed "b.ts" "typescript" "fn:go" "function"], [], none⟩

/-- The callee's file is written again as it is and then deleted, its occurrences with it. -/
theorem noOrphanSites_deleteFile :
    Runs.Always (apply lengthEnv) SqliteStore.NoOrphanSites SqliteStore.empty
      [writeFileGraphsBatch [calledGraph, callingGraph] false, recordEdgeSites [(9, 8, 3, none)],
        writeFileGraphsBatch [calledGraph] false, deleteFile "repo" "a.ts"] := by
  refine (noOrphanSites_iff ?_).mpr ?_
  · refine Runs.every_cons.mpr ⟨⟨by decide, by decide⟩, Runs.every_cons.mpr ⟨?_,
      Runs.every_cons.mpr ⟨⟨?_, by decide⟩, Runs.every_cons.mpr ⟨trivial, Runs.every_nil⟩⟩⟩⟩
    · change ∀ r ∈ _, SqliteStore.Stored _ _ ∧ SqliteStore.Stored _ _
      decide +kernel
    · decide +kernel
  · refine Runs.every_cons.mpr ⟨fun _ => ?_, Runs.every_cons.mpr ⟨trivial,
      Runs.every_cons.mpr ⟨fun _ => ?_, Runs.every_cons.mpr ⟨trivial, Runs.every_nil⟩⟩⟩⟩
    · decide +kernel
    · decide +kernel

/-- A delete by path keeps the occurrences of the file it deletes. -/
theorem deleteNodesForPath_orphanSite :
    Runs.Every (apply lengthEnv) (fun s w => w.Admissible s) SqliteStore.empty
        [writeFileGraphsBatch [calledGraph, callingGraph] false, recordEdgeSites [(9, 8, 3, none)],
          deleteNodesForPath "a.ts"] ∧
      ¬ Runs.Always (apply lengthEnv) SqliteStore.NoOrphanSites SqliteStore.empty
        [writeFileGraphsBatch [calledGraph, callingGraph] false, recordEdgeSites [(9, 8, 3, none)],
          deleteNodesForPath "a.ts"] := by
  constructor
  · refine Runs.every_cons.mpr ⟨⟨by decide, by decide⟩, Runs.every_cons.mpr ⟨?_,
      Runs.every_cons.mpr ⟨trivial, Runs.every_nil⟩⟩⟩
    change ∀ r ∈ _, SqliteStore.Stored _ _ ∧ SqliteStore.Stored _ _
    decide +kernel
  · intro h
    have hlast := h [_, _, _] [] rfl
    revert hlast
    decide +kernel

end SiteWrite

end Travsr.Store
