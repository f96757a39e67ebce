import Mathlib.Data.Finset.Insert
import Travsr.Store.Read

namespace Travsr.Retrieval

open Travsr.Core Store

/-- The gate applied to every edge of a traversal: source, destination and, when it is
known, the destination's corpus. -/
structure EdgeFilter where
  allow : NodeId → NodeId → Option String → Bool
  needsCorpus : Bool

/-- `OpenFilter`: the local mode, where nothing is denied. -/
def openFilter : EdgeFilter where
  allow := fun _ _ _ => true
  needsCorpus := false

structure RbacFilter where
  allowedCorpora : Finset String

namespace RbacFilter

/-- `RbacFilter` as an edge filter: an unknown corpus is denied. -/
def toEdgeFilter (f : RbacFilter) : EdgeFilter where
  allow := fun _ _ dstCorpus =>
    match dstCorpus with
    | some c => decide (c ∈ f.allowedCorpora)
    | none => false
  needsCorpus := true

/-- The node is stored, in a corpus the filter allows. -/
def Permits (f : RbacFilter) (r : Reader) (id : NodeId) : Prop :=
  ∃ n, r.getNode id = some n ∧ n.vname.corpus ∈ f.allowedCorpora

theorem allow_iff_permits (f : RbacFilter) (r : Reader) (u v id : NodeId) :
    f.toEdgeFilter.allow u v ((r.getNode id).map (fun n => n.vname.corpus)) = true ↔
      f.Permits r id := by
  unfold Permits
  cases h : r.getNode id with
  | none => simp [toEdgeFilter]
  | some n => simp [toEdgeFilter]

instance (f : RbacFilter) (r : Reader) : DecidablePred (f.Permits r) := fun id =>
  decidable_of_iff _ (f.allow_iff_permits r id id id)

/-- Two stores that a reader confined to the permitted nodes cannot tell apart: the same
permitted nodes and, from each of them, the same rows to permitted nodes in the same order. -/
structure SamePermitted (f : RbacFilter) (r₁ r₂ : Reader) : Prop where
  node : ∀ id n, n.vname.corpus ∈ f.allowedCorpora →
    (r₁.getNode id = some n ↔ r₂.getNode id = some n)
  edgesFrom : ∀ u, f.Permits r₁ u →
    (r₁.iterEdgesFrom u).filter (fun e => f.Permits r₁ e.dst) =
      (r₂.iterEdgesFrom u).filter (fun e => f.Permits r₂ e.dst)
  edgesTo : ∀ v, f.Permits r₁ v →
    (r₁.iterEdgesTo v).filter (fun e => f.Permits r₁ e.src) =
      (r₂.iterEdgesTo v).filter (fun e => f.Permits r₂ e.src)

namespace SamePermitted

variable {f : RbacFilter} {r₁ r₂ : Reader}

theorem permits (h : f.SamePermitted r₁ r₂) (id : NodeId) :
    f.Permits r₁ id ↔ f.Permits r₂ id := by
  constructor
  · rintro ⟨n, hn, hc⟩
    exact ⟨n, (h.node id n hc).mp hn, hc⟩
  · rintro ⟨n, hn, hc⟩
    exact ⟨n, (h.node id n hc).mpr hn, hc⟩

theorem getNode_eq (h : f.SamePermitted r₁ r₂) {id : NodeId} (hp : f.Permits r₁ id) :
    r₁.getNode id = r₂.getNode id := by
  obtain ⟨n, hn, hc⟩ := hp
  rw [hn, (h.node id n hc).mp hn]

end SamePermitted

def PermitsRow (f : RbacFilter) (s : SqliteStore) (e : EdgeRow) : Prop :=
  f.Permits (Reader.scan s) e.src ∧ f.Permits (Reader.scan s) e.dst

instance (f : RbacFilter) (s : SqliteStore) : DecidablePred (f.PermitsRow s) := fun _ =>
  inferInstanceAs (Decidable (_ ∧ _))

theorem samePermitted_scan {f : RbacFilter} {s₁ s₂ : SqliteStore}
    (hnodes : s₁.nodes.rows.filter (fun n => n.vname.corpus ∈ f.allowedCorpora) =
      s₂.nodes.rows.filter (fun n => n.vname.corpus ∈ f.allowedCorpora))
    (hedges : s₁.edges.rows.filter (fun e => f.PermitsRow s₁ e) =
      s₂.edges.rows.filter (fun e => f.PermitsRow s₂ e)) :
    f.SamePermitted (Reader.scan s₁) (Reader.scan s₂) := by
  have hrow : ∀ row : NodeRow, row.vname.corpus ∈ f.allowedCorpora →
      (row ∈ s₁.nodes.rows ↔ row ∈ s₂.nodes.rows) := by
    intro row hc
    have h := congrArg (fun l => row ∈ l) hnodes
    simpa [List.mem_filter, hc] using h
  have hnode : ∀ id n, n.vname.corpus ∈ f.allowedCorpora →
      ((Reader.scan s₁).getNode id = some n ↔ (Reader.scan s₂).getNode id = some n) := by
    intro id n hc
    simp only [Reader.getNode, Reader.scan, Option.map_eq_some_iff,
      Relational.Table.find?_eq_some]
    constructor
    · rintro ⟨row, ⟨hm, hid⟩, rfl⟩
      exact ⟨row, ⟨(hrow row hc).mp hm, hid⟩, rfl⟩
    · rintro ⟨row, ⟨hm, hid⟩, rfl⟩
      exact ⟨row, ⟨(hrow row hc).mpr hm, hid⟩, rfl⟩
  have hpermits : ∀ id, f.Permits (Reader.scan s₁) id ↔ f.Permits (Reader.scan s₂) id := by
    intro id
    constructor
    · rintro ⟨n, hn, hc⟩
      exact ⟨n, (hnode id n hc).mp hn, hc⟩
    · rintro ⟨n, hn, hc⟩
      exact ⟨n, (hnode id n hc).mpr hn, hc⟩
  have hfrom : ∀ (s : SqliteStore) (u : NodeId), f.Permits (Reader.scan s) u →
      (s.edges.rows.filter (fun e => e.src = u)).filter
          (fun e => f.Permits (Reader.scan s) e.dst) =
        (s.edges.rows.filter (fun e => f.PermitsRow s e)).filter (fun e => e.src = u) := by
    intro s u hu
    rw [List.filter_filter, List.filter_filter]
    apply List.filter_congr
    intro e _
    by_cases he : e.src = u
    · subst he
      simp [PermitsRow, hu]
    · simp [he]
  have hto : ∀ (s : SqliteStore) (v : NodeId), f.Permits (Reader.scan s) v →
      (s.edges.rows.filter (fun e => e.dst = v)).filter
          (fun e => f.Permits (Reader.scan s) e.src) =
        (s.edges.rows.filter (fun e => f.PermitsRow s e)).filter (fun e => e.dst = v) := by
    intro s v hv
    rw [List.filter_filter, List.filter_filter]
    apply List.filter_congr
    intro e _
    by_cases he : e.dst = v
    · subst he
      simp [PermitsRow, hv]
    · simp [he]
  refine ⟨hnode, ?_, ?_⟩
  · intro u hu
    simp only [Reader.iterEdgesFrom, Reader.scan, List.filter_map]
    change ((s₁.edges.rows.filter _).filter (fun e => f.Permits (Reader.scan s₁) e.dst)).map _ =
      ((s₂.edges.rows.filter _).filter (fun e => f.Permits (Reader.scan s₂) e.dst)).map _
    rw [hfrom s₁ u hu, hfrom s₂ u ((hpermits u).mp hu), hedges]
  · intro v hv
    simp only [Reader.iterEdgesTo, Reader.scan, List.filter_map]
    change ((s₁.edges.rows.filter _).filter (fun e => f.Permits (Reader.scan s₁) e.src)).map _ =
      ((s₂.edges.rows.filter _).filter (fun e => f.Permits (Reader.scan s₂) e.src)).map _
    rw [hto s₁ v hv, hto s₂ v ((hpermits v).mp hv), hedges]

end RbacFilter

def openStore : SqliteStore where
  __ := SqliteStore.empty
  nodes := ⟨⟨[⟨1, ⟨"a", "", "x.rs", "rust", "fn:x"⟩, "function", "", some 1, some 2, false, .none,
      none⟩,
    ⟨2, ⟨"a", "", "y.rs", "rust", "fn:y"⟩, "function", "", some 1, some 2, false, .none, none⟩],
    by decide⟩, by decide⟩
  edges := ⟨[⟨1, 2, .refCall, "scip", none⟩], by decide⟩

/-- The same, with a third node in another corpus that both functions call. -/
def bridgedStore : SqliteStore where
  __ := openStore
  nodes := ⟨⟨openStore.nodes.rows ++ [⟨3, ⟨"b", "", "z.rs", "rust", "fn:z"⟩, "function", "",
    none, none, false, .none, none⟩], by decide⟩, by decide⟩
  edges := ⟨[⟨1, 3, .refCall, "scip", none⟩, ⟨1, 2, .refCall, "scip", none⟩,
    ⟨3, 2, .refCall, "scip", none⟩], by decide⟩

theorem samePermitted_bridgedStore :
    RbacFilter.SamePermitted ⟨{"a"}⟩ (Reader.scan openStore) (Reader.scan bridgedStore) :=
  RbacFilter.samePermitted_scan (by decide) (by decide)

end Travsr.Retrieval
