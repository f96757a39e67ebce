import Travsr.Daemon.NativeCallTiers

namespace Travsr.Daemon

open Travsr.Core Travsr.Store Relational

variable {u : UnresolvedCall} {path : String} {sure imports : List (String × String)}
  {crates : CrateGraph} {ds : List NodeRow} {d : NodeRow}

/-- A call of another node, and not one from outside `tests/` into it. -/
structure Callable (u : UnresolvedCall) (path : String) (d : NodeRow) : Prop where
  other : u.src ≠ d.id
  tests : underTests d.vname.path = true → underTests path = true

instance (u : UnresolvedCall) (path : String) (d : NodeRow) : Decidable (Callable u path d) :=
  decidable_of_iff (u.src ≠ d.id ∧ (underTests d.vname.path = true → underTests path = true))
    ⟨fun h => ⟨h.1, h.2⟩, fun h => ⟨h.other, h.tests⟩⟩

/-- A bare call can come down to this candidate alone: no other stands in its file, and it stands
in the caller's or none does and every candidate known to be imported stands in its own. -/
def Scopable (path : String) (sure : List (String × String)) (ds : List NodeRow) (d : NodeRow) :
    Prop :=
  (∀ x ∈ ds, x.vname.path = d.vname.path → x = d) ∧
    (d.vname.path ≠ path → ∀ x ∈ ds, x.vname.path ≠ path ∧
      ((path, x.vname.path) ∈ sure → x.vname.path = d.vname.path))

/-- A candidate that a call can be resolved to once files import enough. -/
structure Pickable (u : UnresolvedCall) (path : String) (sure : List (String × String))
    (ds : List NodeRow) (d : NodeRow) : Prop where
  mem : d ∈ ds
  callable : Callable u path d
  sole : u.hintCrate = none → if bareFn u then Scopable path sure ds d else ∀ x ∈ ds, x = d

/-- Several candidates of a bare call, none of them in the caller's file. -/
def Tied (u : UnresolvedCall) (path : String) (ds : List NodeRow) : Prop :=
  u.hintCrate = none ∧ bareFn u = true ∧ 1 < ds.length ∧ ∀ x ∈ ds, x.vname.path ≠ path

theorem tests_of_reachable {p : String} (h : callTargetReachable path p crates = true) :
    underTests p = true → underTests path = true := by
  intro hp
  unfold callTargetReachable at h
  split_ifs at h with ht
  rw [Bool.and_eq_true, Bool.not_eq_true'] at ht
  by_contra hpath
  exact ht ⟨hp, by rwa [Bool.not_eq_true] at hpath⟩

/-- Without a crate graph only `tests/` is out of reach. -/
theorem reachable_noCrates {pbEdges : List Edge} {p : String} :
    callTargetReachable path p (CrateGraph.build [] pbEdges) = true ↔
      (underTests p = true → underTests path = true) := by
  constructor
  · exact tests_of_reachable
  · intro h
    have ht : ¬ (underTests p && !underTests path) = true := by
      rw [Bool.and_eq_true, Bool.not_eq_true']
      rintro ⟨hp, hpath⟩
      rw [h hp] at hpath
      cases hpath
    unfold callTargetReachable
    rw [if_neg ht]
    rfl

theorem mem_reachableFrom : d ∈ reachableFrom u path crates ds ↔
    d ∈ ds ∧ u.src ≠ d.id ∧ callTargetReachable path d.vname.path crates = true := by
  rw [reachableFrom, List.mem_filter, decide_eq_true_eq]

theorem mem_reachableFrom_noCrates {pbEdges : List Edge} :
    d ∈ reachableFrom u path (CrateGraph.build [] pbEdges) ds ↔ d ∈ ds ∧ Callable u path d := by
  rw [mem_reachableFrom, reachable_noCrates]
  exact and_congr_right fun _ => ⟨fun h => ⟨h.1, h.2⟩, fun h => ⟨h.other, h.tests⟩⟩

theorem callable_of_mem_reachableFrom (h : d ∈ reachableFrom u path crates ds) :
    d ∈ ds ∧ Callable u path d := by
  obtain ⟨hmem, hne, hreach⟩ := mem_reachableFrom.mp h
  exact ⟨hmem, hne, tests_of_reachable hreach⟩

theorem scopeBareCall_cases (path : String) (imports : List (String × String))
    (ds : List NodeRow) :
    (∃ x ∈ ds, x.vname.path = path) ∧
        scopeBareCall path imports ds = ds.filter (fun n => n.vname.path = path) ∨
      (∀ x ∈ ds, x.vname.path ≠ path) ∧
        ((∃ x ∈ ds, (path, x.vname.path) ∈ imports) ∧
            scopeBareCall path imports ds = ds.filter (fun n => (path, n.vname.path) ∈ imports) ∨
          (∀ x ∈ ds, (path, x.vname.path) ∉ imports) ∧ scopeBareCall path imports ds = ds) := by
  unfold scopeBareCall
  dsimp only
  by_cases hsame : ∃ x ∈ ds, x.vname.path = path
  · left
    obtain ⟨x, hx, hp⟩ := hsame
    refine ⟨⟨x, hx, hp⟩, if_pos ?_⟩
    rw [Bool.not_eq_true', List.isEmpty_eq_false_iff]
    exact List.ne_nil_of_mem (List.mem_filter.mpr ⟨hx, decide_eq_true hp⟩)
  · right
    have hnone : ∀ x ∈ ds, x.vname.path ≠ path := fun x hx hp => hsame ⟨x, hx, hp⟩
    refine ⟨hnone, ?_⟩
    have hnil : ds.filter (fun n => n.vname.path = path) = [] :=
      List.filter_eq_nil_iff.mpr fun x hx => by simpa using hnone x hx
    rw [hnil, if_neg (by simp)]
    by_cases himp : ∃ x ∈ ds, (path, x.vname.path) ∈ imports
    · left
      obtain ⟨x, hx, hp⟩ := himp
      refine ⟨⟨x, hx, hp⟩, if_pos ?_⟩
      rw [Bool.not_eq_true', List.isEmpty_eq_false_iff]
      exact List.ne_nil_of_mem (List.mem_filter.mpr ⟨hx, decide_eq_true hp⟩)
    · right
      have hnone' : ∀ x ∈ ds, (path, x.vname.path) ∉ imports := fun x hx hp => himp ⟨x, hx, hp⟩
      refine ⟨hnone', if_neg ?_⟩
      rw [Bool.not_eq_true', Bool.not_eq_false, List.isEmpty_iff]
      exact List.filter_eq_nil_iff.mpr fun x hx => by simpa using hnone' x hx

theorem eq_of_filter_length {p : NodeRow → Bool} (h : (ds.filter p).length = 1) {x y : NodeRow}
    (hx : x ∈ ds) (hxp : p x = true) (hy : y ∈ ds) (hyp : p y = true) : x = y := by
  obtain ⟨z, hz⟩ := List.length_eq_one_iff.mp h
  have hx' := List.mem_filter.mpr ⟨hx, hxp⟩
  have hy' := List.mem_filter.mpr ⟨hy, hyp⟩
  rw [hz, List.mem_singleton] at hx' hy'
  rw [hx', hy']

theorem settle_hint {hint : String} (h : u.hintCrate = some hint) :
    settle u path imports crates ds = reachableFrom u path crates ds := by
  unfold settle
  rw [h]
  rfl

theorem settle_free (h : u.hintCrate = none) (hb : ¬ (bareFn u = true ∧ 1 < ds.length)) :
    settle u path imports crates ds =
      if ds.length ≠ 1 then [] else reachableFrom u path crates ds := by
  have hfalse : ¬ (true && bareFn u && decide (1 < ds.length)) = true := by
    simpa using hb
  unfold settle
  rw [h, Option.isNone_none, if_neg hfalse]
  simp only [Bool.true_and, decide_eq_true_eq]

theorem settle_bare (h : u.hintCrate = none) (hb : bareFn u = true) (hlen : 1 < ds.length) :
    settle u path imports crates ds =
      if (scopeBareCall path imports ds).length ≠ 1 then []
      else reachableFrom u path crates (scopeBareCall path imports ds) := by
  have htrue : (true && bareFn u && decide (1 < ds.length)) = true := by
    simp [hb, hlen]
  unfold settle
  rw [h, Option.isNone_none, if_pos htrue]
  simp only [Bool.true_and, decide_eq_true_eq]

theorem mem_settle_free (h : u.hintCrate = none) (hb : ¬ (bareFn u = true ∧ 1 < ds.length)) :
    d ∈ settle u path imports crates ds ↔ ds.length = 1 ∧ d ∈ reachableFrom u path crates ds := by
  rw [settle_free h hb]
  split_ifs with hlen
  · exact ⟨fun h => absurd h List.not_mem_nil, fun h => absurd h.1 hlen⟩
  · exact ⟨fun h => ⟨not_not.mp hlen, h⟩, fun h => h.2⟩

theorem mem_settle_bare (h : u.hintCrate = none) (hb : bareFn u = true) (hlen : 1 < ds.length) :
    d ∈ settle u path imports crates ds ↔ (scopeBareCall path imports ds).length = 1 ∧
      d ∈ reachableFrom u path crates (scopeBareCall path imports ds) := by
  rw [settle_bare h hb hlen]
  split_ifs with hone
  · exact ⟨fun h => absurd h List.not_mem_nil, fun h => absurd h.1 hone⟩
  · exact ⟨fun h => ⟨not_not.mp hone, h⟩, fun h => h.2⟩

theorem eq_of_length_one (h : ds.length = 1) {x y : NodeRow} (hx : x ∈ ds) (hy : y ∈ ds) :
    x = y := by
  obtain ⟨z, rfl⟩ := List.length_eq_one_iff.mp h
  rw [List.mem_singleton.mp hx, List.mem_singleton.mp hy]

theorem scopable_of_scope (hsure : ∀ p ∈ sure, p ∈ imports) (hlen : 1 < ds.length)
    (hone : (scopeBareCall path imports ds).length = 1) (hd : d ∈ scopeBareCall path imports ds) :
    d ∈ ds ∧ Scopable path sure ds d := by
  rcases scopeBareCall_cases path imports ds with ⟨-, hs⟩ | ⟨hnone, ⟨-, hs⟩ | ⟨-, hs⟩⟩
  · rw [hs] at hone hd
    obtain ⟨hmem, hdp⟩ := List.mem_filter.mp hd
    have hdp' : d.vname.path = path := of_decide_eq_true hdp
    refine ⟨hmem, ?_, fun hne => absurd hdp' hne⟩
    intro x hx hxp
    exact eq_of_filter_length hone hx (decide_eq_true (hxp.trans hdp')) hmem hdp
  · rw [hs] at hone hd
    obtain ⟨hmem, hdp⟩ := List.mem_filter.mp hd
    refine ⟨hmem, ?_, fun _ x hx => ⟨hnone x hx, ?_⟩⟩
    · intro x hx hxp
      have hxi : decide ((path, x.vname.path) ∈ imports) = true := by rw [hxp]; exact hdp
      exact eq_of_filter_length hone hx hxi hmem hdp
    · intro hxs
      rw [eq_of_filter_length hone hx (decide_eq_true (hsure _ hxs)) hmem hdp]
  · rw [hs] at hone
    omega

theorem pickable_of_mem_settle (hsure : ∀ p ∈ sure, p ∈ imports)
    (h : d ∈ settle u path imports crates ds) : Pickable u path sure ds d := by
  cases hh : u.hintCrate with
  | some hint =>
    rw [settle_hint hh] at h
    obtain ⟨hmem, hcall⟩ := callable_of_mem_reachableFrom h
    exact ⟨hmem, hcall, fun hno => absurd (hh.symm.trans hno) (by simp)⟩
  | none =>
    by_cases hb : bareFn u = true ∧ 1 < ds.length
    · obtain ⟨hone, hd⟩ := (mem_settle_bare hh hb.1 hb.2).mp h
      obtain ⟨hmem, hcall⟩ := callable_of_mem_reachableFrom hd
      obtain ⟨hmem, hscope⟩ := scopable_of_scope hsure hb.2 hone hmem
      exact ⟨hmem, hcall, fun _ => by rw [if_pos hb.1]; exact hscope⟩
    · obtain ⟨hone, hd⟩ := (mem_settle_free hh hb).mp h
      obtain ⟨hmem, hcall⟩ := callable_of_mem_reachableFrom hd
      have honly : ∀ x ∈ ds, x = d := fun x hx => eq_of_length_one hone hx hmem
      refine ⟨hmem, hcall, fun _ => ?_⟩
      split_ifs
      · refine ⟨fun x hx _ => honly x hx, fun hne x hx => ?_⟩
        rw [honly x hx]
        exact ⟨hne, fun _ => rfl⟩
      · exact honly

theorem eq_singleton {l : List NodeRow} (hnd : l.Nodup) (hd : d ∈ l) (h : ∀ x ∈ l, x = d) :
    l = [d] := by
  cases l with
  | nil => exact absurd hd List.not_mem_nil
  | cons a l =>
    obtain rfl := h a List.mem_cons_self
    cases l with
    | nil => rfl
    | cons b l =>
      obtain rfl := h b (List.mem_cons_of_mem _ List.mem_cons_self)
      exact absurd List.mem_cons_self (List.nodup_cons.mp hnd).1

theorem scope_of_scopable (hnd : ds.Nodup) (hd : d ∈ ds)
    (himp : ∀ x ∈ ds, (path, x.vname.path) ∈ imports ↔
      (path, x.vname.path) ∈ sure ∨ x.vname.path = d.vname.path)
    (h : Scopable path sure ds d) : scopeBareCall path imports ds = [d] := by
  have hdi : (path, d.vname.path) ∈ imports := (himp d hd).mpr (.inr rfl)
  rcases scopeBareCall_cases path imports ds with ⟨⟨y, hy, hyp⟩, hs⟩ | ⟨hnone, ⟨-, hs⟩ | ⟨hno, -⟩⟩
  · rw [hs]
    have hdp : d.vname.path = path := by
      by_contra hne
      exact (h.2 hne y hy).1 hyp
    refine eq_singleton (hnd.filter _) (List.mem_filter.mpr ⟨hd, decide_eq_true hdp⟩) ?_
    intro x hx
    obtain ⟨hx, hxp⟩ := List.mem_filter.mp hx
    exact h.1 x hx ((of_decide_eq_true hxp).trans hdp.symm)
  · rw [hs]
    refine eq_singleton (hnd.filter _) (List.mem_filter.mpr ⟨hd, decide_eq_true hdi⟩) ?_
    intro x hx
    obtain ⟨hx, hxi⟩ := List.mem_filter.mp hx
    apply h.1 x hx
    rcases (himp x hx).mp (of_decide_eq_true hxi) with hxs | hxp
    · exact (h.2 (hnone d hd) x hx).2 hxs
    · exact hxp
  · exact absurd hdi (hno d hd)

/-- Once the file of a pickable candidate is imported and no other beside what was, it is the
target. -/
theorem mem_settle_of_pickable {pbEdges : List Edge} (hnd : ds.Nodup)
    (himp : ∀ x ∈ ds, (path, x.vname.path) ∈ imports ↔
      (path, x.vname.path) ∈ sure ∨ x.vname.path = d.vname.path)
    (h : Pickable u path sure ds d) :
    d ∈ settle u path imports (CrateGraph.build [] pbEdges) ds := by
  obtain ⟨hmem, hcall, hsole⟩ := h
  cases hh : u.hintCrate with
  | some hint =>
    rw [settle_hint hh]
    exact mem_reachableFrom_noCrates.mpr ⟨hmem, hcall⟩
  | none =>
    have hsole := hsole hh
    by_cases hb : bareFn u = true ∧ 1 < ds.length
    · rw [if_pos hb.1] at hsole
      rw [mem_settle_bare hh hb.1 hb.2, scope_of_scopable hnd hmem himp hsole]
      exact ⟨rfl, mem_reachableFrom_noCrates.mpr ⟨List.mem_singleton_self d, hcall⟩⟩
    · have hone : ds.length = 1 := by
        have hpos := List.length_pos_of_mem hmem
        by_cases hbare : bareFn u = true
        · have hle : ¬ 1 < ds.length := fun hlen => hb ⟨hbare, hlen⟩
          omega
        · rw [if_neg hbare] at hsole
          rw [eq_singleton hnd hmem hsole]
          rfl
      exact (mem_settle_free hh hb).mpr ⟨hone, mem_reachableFrom_noCrates.mpr ⟨hmem, hcall⟩⟩

theorem settle_of_two (hh : u.hintCrate = none) (hb : bareFn u = true)
    (hnone : ∀ x ∈ ds, x.vname.path ≠ path) {x y : NodeRow} (hx : x ∈ ds) (hy : y ∈ ds)
    (hxy : x ≠ y) (hxi : (path, x.vname.path) ∈ imports) (hyi : (path, y.vname.path) ∈ imports) :
    settle u path imports crates ds = [] := by
  have hlen : 1 < ds.length := by
    by_contra hle
    have hpos := List.length_pos_of_mem hx
    exact hxy (eq_of_length_one (by omega) hx hy)
  rw [settle_bare hh hb hlen]
  apply if_pos
  intro hone
  rcases scopeBareCall_cases path imports ds with ⟨⟨z, hz, hzp⟩, -⟩ | ⟨-, ⟨-, hs⟩ | ⟨hno, -⟩⟩
  · exact hnone z hz hzp
  · rw [hs] at hone
    exact hxy (eq_of_filter_length hone hx (decide_eq_true hxi) hy (decide_eq_true hyi))
  · exact hno x hx hxi

/-- A tie with a pickable candidate comes out one way as things are and the other way with one more
file imported. -/
theorem settle_of_tied {pbEdges : List Edge} (hnd : ds.Nodup) (ht : Tied u path ds)
    (h : Pickable u path sure ds d) :
    ∃ x ∈ ds, ∀ imports imports' : List (String × String),
      (∀ y ∈ ds, (path, y.vname.path) ∈ imports ↔ (path, y.vname.path) ∈ sure) →
      (∀ y ∈ ds, (path, y.vname.path) ∈ imports' ↔
        (path, y.vname.path) ∈ sure ∨ y.vname.path = x.vname.path) →
      (d ∈ settle u path imports (CrateGraph.build [] pbEdges) ds ↔
        d ∉ settle u path imports' (CrateGraph.build [] pbEdges) ds) := by
  obtain ⟨hh, hb, hlen, hnone⟩ := ht
  have hscope : Scopable path sure ds d := by
    have := h.sole hh
    rwa [if_pos hb] at this
  have hsure := fun y hy => (hscope.2 (hnone d h.mem) y hy).2
  by_cases hd : (path, d.vname.path) ∈ sure
  · obtain ⟨x, hx, hxd⟩ : ∃ x ∈ ds, x ≠ d := by
      by_contra hno
      rw [eq_singleton hnd h.mem fun x hx => not_not.mp fun hne => hno ⟨x, hx, hne⟩] at hlen
      exact absurd hlen (by simp)
    refine ⟨x, hx, fun imports imports' himp himp' => ?_⟩
    have hin : d ∈ settle u path imports (CrateGraph.build [] pbEdges) ds := by
      refine mem_settle_of_pickable hnd (fun y hy => ?_) h
      rw [himp y hy]
      exact ⟨.inl, fun hor => hor.elim id fun hp => by rw [hp]; exact hd⟩
    have hout : settle u path imports' (CrateGraph.build [] pbEdges) ds = [] :=
      settle_of_two hh hb hnone hx h.mem hxd ((himp' x hx).mpr (.inr rfl))
        ((himp' d h.mem).mpr (.inl hd))
    rw [hout]
    exact ⟨fun _ => List.not_mem_nil, fun _ => hin⟩
  · refine ⟨d, h.mem, fun imports imports' himp himp' => ?_⟩
    have hin : d ∈ settle u path imports' (CrateGraph.build [] pbEdges) ds :=
      mem_settle_of_pickable hnd himp' h
    have hout : d ∉ settle u path imports (CrateGraph.build [] pbEdges) ds := by
      rw [mem_settle_bare hh hb hlen]
      rintro ⟨hone, -⟩
      rcases scopeBareCall_cases path imports ds with ⟨⟨z, hz, hzp⟩, -⟩ | ⟨-, ⟨⟨z, hz, hzi⟩, -⟩ | ⟨-, hs⟩⟩
      · exact hnone z hz hzp
      · have hzs := (himp z hz).mp hzi
        rw [hsure z hz hzs] at hzs
        exact hd hzs
      · rw [hs] at hone
        omega
    exact ⟨fun h => absurd h hout, fun h => absurd hin h⟩

theorem settle_of_not_tied (h : ¬ Tied u path ds) (imports imports' : List (String × String)) :
    settle u path imports crates ds = settle u path imports' crates ds := by
  cases hh : u.hintCrate with
  | some hint => rw [settle_hint hh, settle_hint hh]
  | none =>
    by_cases hb : bareFn u = true ∧ 1 < ds.length
    · have hsame : ∃ x ∈ ds, x.vname.path = path := by
        by_contra hno
        exact h ⟨hh, hb.1, hb.2, fun x hx hp => hno ⟨x, hx, hp⟩⟩
      have hscope : ∀ imports : List (String × String), scopeBareCall path imports ds =
          ds.filter (fun n => n.vname.path = path) := by
        intro imports
        rcases scopeBareCall_cases path imports ds with ⟨-, hs⟩ | ⟨hnone, -⟩
        · exact hs
        · obtain ⟨x, hx, hp⟩ := hsame
          exact absurd hp (hnone x hx)
      rw [settle_bare hh hb.1 hb.2, settle_bare hh hb.1 hb.2, hscope, hscope]
    · rw [settle_free hh hb, settle_free hh hb]

end Travsr.Daemon
