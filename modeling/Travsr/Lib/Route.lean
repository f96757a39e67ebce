import Mathlib.Algebra.Order.Monoid.Defs
import Mathlib.Algebra.Order.Monoid.Unbundled.Basic
import Mathlib.Data.List.Nodup
import Mathlib.Tactic.GCongr
import Travsr.Lib.Bfs

/-! Routes along edges that carry a cost. -/

variable {α β K : Type*} [AddCommMonoid K]

/-- A route from one vertex to another: the vertices on it and what its edges cost together. -/
inductive Route (E : α → α → K → Prop) : α → α → List α → K → Prop
  | nil (s : α) : Route E s s [s] 0
  | cons {s m t : α} {c cost : K} {route : List α} (hop : E s m c)
      (rest : Route E m t route cost) : Route E s t (s :: route) (c + cost)

namespace Route

variable {E E' : α → α → K → Prop} {s t : α} {route : List α} {cost : K}

theorem mono (h : Route E s t route cost) (hE : ∀ a b c, E a b c → E' a b c) :
    Route E' s t route cost := by
  induction h with
  | nil s => exact .nil s
  | cons hop _ ih => exact .cons (hE _ _ _ hop) ih

theorem exists_cons (h : Route E s t route cost) : ∃ rest, route = s :: rest := by
  cases h with
  | nil s => exact ⟨[], rfl⟩
  | cons hop rest => exact ⟨_, rfl⟩

theorem rehop {rel : K → K → Prop} (hzero : rel 0 0)
    (hadd : ∀ a b c d, rel a b → rel c d → rel (a + c) (b + d)) (h : Route E s t route cost)
    (hE : ∀ j u v c, route[j]? = some u → route[j + 1]? = some v → E u v c →
      ∃ c', E' u v c' ∧ rel c' c) :
    ∃ cost', Route E' s t route cost' ∧ rel cost' cost := by
  induction h with
  | nil s => exact ⟨0, .nil s, hzero⟩
  | @cons s m t c cost route hop rest ih =>
    obtain ⟨tail, rfl⟩ := rest.exists_cons
    obtain ⟨c', hc', hrel⟩ := hE 0 s m c rfl rfl hop
    obtain ⟨cost', h', hrest⟩ := ih fun j u v c hu hv => hE (j + 1) u v c hu hv
    exact ⟨c' + cost', .cons hc' h', hadd _ _ _ _ hrel hrest⟩

theorem exists_edge (h : Route E s t route cost) {j : Nat} {u v : α} (hu : route[j]? = some u)
    (hv : route[j + 1]? = some v) : ∃ c, E u v c := by
  induction h generalizing j with
  | nil s =>
    rw [List.getElem?_eq_none (by simp)] at hv
    cases hv
  | @cons s m t c cost route hop rest ih =>
    obtain ⟨tail, rfl⟩ := rest.exists_cons
    cases j with
    | zero =>
      obtain rfl := Option.some.inj hu
      obtain rfl := Option.some.inj hv
      exact ⟨c, hop⟩
    | succ j => exact ih hu hv

theorem getElem?_last (h : Route E s t route cost) : route[route.length - 1]? = some t := by
  induction h with
  | nil s => rfl
  | @cons s m t c cost route hop rest ih =>
    obtain ⟨tail, rfl⟩ := rest.exists_cons
    exact ih

theorem within {succ : α → List α} (h : Route E s t route cost)
    (hE : ∀ a b c, E a b c → b ∈ succ a) {j : Nat} {v : α} (hv : route[j]? = some v) :
    Bfs.Within succ s j v := by
  induction j generalizing v with
  | zero =>
    obtain ⟨rest, rfl⟩ := h.exists_cons
    exact (Option.some.inj hv).symm
  | succ j ih =>
    obtain ⟨hlt, _⟩ := List.getElem?_eq_some_iff.mp hv
    have hu : route[j]? = some route[j] := List.getElem?_eq_getElem (Nat.lt_of_succ_lt hlt)
    obtain ⟨c, hc⟩ := h.exists_edge hu hv
    exact (ih hu).step (hE _ _ _ hc)

theorem within_back {pred : α → List α} (h : Route E s t route cost)
    (hE : ∀ a b c, E a b c → a ∈ pred b) {j k : Nat} {v : α} (hv : route[j]? = some v)
    (hk : route.length = j + 1 + k) : Bfs.Within pred t k v := by
  induction k generalizing j v with
  | zero =>
    have hlast := h.getElem?_last
    rw [show route.length - 1 = j by omega, hv] at hlast
    exact Option.some.inj hlast
  | succ k ih =>
    have hw : route[j + 1]? = some route[j + 1] := List.getElem?_eq_getElem (by omega)
    obtain ⟨c, hc⟩ := h.exists_edge hv hw
    exact (ih hw (by omega)).step (hE _ _ _ hc)

section Order

variable [LinearOrder K] [IsOrderedCancelAddMonoid K]

omit [IsOrderedCancelAddMonoid K] in
theorem potential_le [IsOrderedAddMonoid K] {pot : α → K} (hpot : ∀ a b c, E a b c → pot a ≤ c + pot b)
    (h : Route E s t route cost) : pot s ≤ cost + pot t := by
  induction h with
  | nil s => rw [zero_add]
  | @cons s m t c cost route hop rest ih =>
    calc pot s ≤ c + pot m := hpot _ _ _ hop
      _ ≤ c + (cost + pot t) := by gcongr
      _ = c + cost + pot t := (add_assoc _ _ _).symm

theorem exists_suffix (hE : ∀ a b c, E a b c → 0 < c) (h : Route E s t route cost) {v : α}
    (hv : v ∈ route) : ∃ route' cost', Route E v t route' cost' ∧ cost' ≤ cost := by
  induction h with
  | nil s =>
    obtain rfl := List.mem_singleton.mp hv
    exact ⟨_, _, .nil v, le_rfl⟩
  | @cons s m t c cost route hop rest ih =>
    rcases List.mem_cons.mp hv with rfl | hv
    · exact ⟨_, _, .cons hop rest, le_rfl⟩
    · obtain ⟨route', cost', h', hle⟩ := ih hv
      exact ⟨route', cost', h', hle.trans (le_add_of_nonneg_left (hE _ _ _ hop).le)⟩

theorem nodup_of_least (hE : ∀ a b c, E a b c → 0 < c) (h : Route E s t route cost)
    (hleast : ∀ route' cost', Route E s t route' cost' → cost ≤ cost') : route.Nodup := by
  induction h with
  | nil s => exact List.nodup_singleton s
  | @cons s m t c cost route hop rest ih =>
    refine List.nodup_cons.mpr ⟨fun hs => ?_, ih fun route' cost' h' => ?_⟩
    · obtain ⟨route', cost', h', hle⟩ := rest.exists_suffix hE hs
      have hlt : cost < c + cost := lt_add_of_pos_left cost (hE _ _ _ hop)
      exact absurd (hleast _ _ h') (not_le.mpr (hle.trans_lt hlt))
    · exact le_of_add_le_add_left (hleast _ _ (.cons hop h'))

end Order

end Route
