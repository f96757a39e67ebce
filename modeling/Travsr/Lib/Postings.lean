import Mathlib.Algebra.BigOperators.Group.Multiset.Basic
import Mathlib.Algebra.Order.Sub.Basic
import Mathlib.Data.Multiset.Filter
import Travsr.Lib.Table

namespace Relational.Table

variable {ρ κ : Type} {key : ρ → κ} [DecidableEq κ]

theorem find?_updateWhere (t : Table ρ key) (p : ρ → Prop) [DecidablePred p] (f : ρ → ρ)
    (hf : ∀ r, key (f r) = key r) (k : κ) :
    (t.updateWhere p f hf).find? k = (t.find? k).map fun r => if p r then f r else r := by
  apply Option.ext
  intro x
  rw [find?_eq_some, mem_updateWhere, Option.map_eq_some_iff]
  constructor
  · intro ⟨hx, hk⟩
    rcases hx with ⟨hx, hp⟩ | ⟨r, hr, hp, hxr⟩
    · exact ⟨x, find?_eq_some.mpr ⟨hx, hk⟩, if_neg hp⟩
    · subst hxr
      exact ⟨r, find?_eq_some.mpr ⟨hr, (hf r).symm.trans hk⟩, if_pos hp⟩
  · intro ⟨r, hr, hxr⟩
    obtain ⟨hm, hk⟩ := find?_eq_some.mp hr
    subst hxr
    by_cases hp : p r
    · rw [if_pos hp]
      exact ⟨.inr ⟨r, hm, hp, rfl⟩, (hf r).trans hk⟩
    · rw [if_neg hp]
      exact ⟨.inl ⟨hm, hp⟩, hk⟩

theorem coe_rows_upsert [DecidableEq ρ] (t : Table ρ key) (r : ρ) (f : ρ → ρ)
    (hf : ∀ x, key (f x) = key x) (hr : ∀ o, key o = key r → f o = r) :
    ((t.upsert r f hf).rows : Multiset ρ) =
      r ::ₘ (t.find? (key r)).elim (t.rows : Multiset ρ) (fun o => (t.rows : Multiset ρ).erase o) := by
  cases ho : t.find? (key r) with
  | none =>
    have hn := find?_eq_none.mp ho
    rw [upsert, if_neg hn, insertIgnore, dif_neg hn, Option.elim_none, Multiset.cons_coe,
      Multiset.coe_eq_coe]
    exact List.perm_append_singleton r t.rows
  | some o =>
    obtain ⟨hm, hk⟩ := mem_of_find? ho
    rw [upsert, if_pos ⟨o, hm, hk⟩, Option.elim_some, updateWhere, ← Multiset.map_coe]
    have hcons : (t.rows : Multiset ρ) = o ::ₘ (t.rows : Multiset ρ).erase o :=
      (Multiset.cons_erase (Multiset.mem_coe.mpr hm)).symm
    have hnodup : (t.rows : Multiset ρ).Nodup := Multiset.coe_nodup.mpr t.nodup_rows
    rw [hcons, Multiset.map_cons, if_pos hk, hr o hk, Multiset.erase_cons_head]
    congr 1
    conv_rhs => rw [← Multiset.map_id ((t.rows : Multiset ρ).erase o)]
    apply Multiset.map_congr rfl
    intro x hx
    rw [hnodup.mem_erase_iff] at hx
    apply if_neg
    intro hxr
    exact hx.1 (eq_of_key (t := t) hx.2 hm (hxr.trans hk.symm))

end Relational.Table

namespace Postings

open Relational Table

variable {ρ κ : Type} {key : ρ → κ}

/-- A contentless index with its memory: postings that can be taken out only as they were put in,
and a table that remembers them. There is a posting for each remembered row but those whose keys
are deferred. -/
def Faithful (deferred : κ → Prop) [DecidablePred deferred] (m : Multiset ρ) (t : Table ρ key) :
    Prop :=
  m = (t.rows : Multiset ρ).filter fun r => ¬ deferred (key r)

variable {m : Multiset ρ} {t : Table ρ key} {deferred : κ → Prop} [DecidablePred deferred]

theorem faithful_none : Faithful (fun _ => False) m t ↔ m = (t.rows : Multiset ρ) := by
  simp [Faithful]

theorem Faithful.flush (h : Faithful deferred m t) :
    Faithful (fun _ => False)
      (m + ((t.rows.filter fun r => deferred (key r) : List ρ) : Multiset ρ)) t := by
  rw [faithful_none]
  rw [Faithful] at h
  rw [h, ← Multiset.filter_coe, add_comm, Multiset.filter_add_not]

variable [DecidableEq ρ]

theorem Faithful.retract (h : Faithful deferred m t) (p : ρ → Prop) [DecidablePred p] :
    Faithful deferred (m - ((t.rows.filter fun r => p r : List ρ) : Multiset ρ))
      (t.deleteWhere p) := by
  rw [Faithful] at h ⊢
  ext r
  rw [h, deleteWhere, ← Multiset.filter_coe, ← Multiset.filter_coe, Multiset.count_sub]
  simp only [Multiset.count_filter]
  by_cases hp : p r <;> by_cases hd : deferred (key r) <;> simp [hp, hd]

variable [DecidableEq κ]

theorem Faithful.put (h : Faithful (fun _ => False) m t) {r : ρ} {f : ρ → ρ}
    {hf : ∀ x, key (f x) = key x} (hr : ∀ o, key o = key r → f o = r) :
    Faithful (fun _ => False) (r ::ₘ (t.find? (key r)).elim m m.erase) (t.upsert r f hf) := by
  rw [faithful_none] at h ⊢
  rw [coe_rows_upsert t r f hf hr, h]

theorem Faithful.defer (h : Faithful deferred m t) {r : ρ} {f : ρ → ρ}
    {hf : ∀ x, key (f x) = key x} (hr : ∀ o, key o = key r → f o = r)
    (hk : deferred (key r) ∨ ¬ t.Has (key r)) {deferred' : κ → Prop} [DecidablePred deferred']
    (hd : ∀ k, deferred' k ↔ k = key r ∨ deferred k) :
    Faithful deferred' m (t.upsert r f hf) := by
  rw [Faithful] at h ⊢
  rw [coe_rows_upsert t r f hf hr, Multiset.filter_cons_of_neg _ (by simp [hd]), h]
  cases ho : t.find? (key r) with
  | none =>
    rw [Option.elim_none]
    apply Multiset.filter_congr
    intro x hx
    rw [hd]
    have hne : key x ≠ key r := fun hxr => find?_eq_none.mp ho ⟨x, hx, hxr⟩
    simp [hne]
  | some o =>
    obtain ⟨hm, hok⟩ := mem_of_find? ho
    have hdef : deferred (key r) := hk.resolve_right fun hn => hn ⟨o, hm, hok⟩
    rw [Option.elim_some]
    conv_lhs => rw [← Multiset.cons_erase (Multiset.mem_coe.mpr hm)]
    rw [Multiset.filter_cons_of_neg _ (by simp [hok, hdef])]
    apply Multiset.filter_congr
    intro x _
    rw [hd]
    constructor
    · intro hx hor
      rcases hor with hxr | hx'
      · exact hx (hxr ▸ hdef)
      · exact hx hx'
    · intro hx hx'
      exact hx (.inr hx')

end Postings
