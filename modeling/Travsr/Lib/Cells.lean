import Mathlib.Data.List.Nodup
import Mathlib.Logic.Function.Basic

namespace Cells

variable {α : Type*}

theorem idxOf?_eq_some [DecidableEq α] {l : List α} (h : l.Nodup) {a : α} {i : Nat} :
    l.idxOf? a = some i ↔ l[i]? = some a := by
  rw [List.idxOf?_eq_some_iff]
  constructor
  · rintro ⟨hi, he, _⟩
    rw [List.getElem?_eq_getElem hi, he]
  · intro he
    obtain ⟨hi, hget⟩ := List.getElem?_eq_some_iff.mp he
    refine ⟨hi, hget, fun j hj he => ?_⟩
    have hsame : l[j] = l[i] := he.trans hget.symm
    exact absurd ((List.Nodup.getElem_inj_iff h).mp hsame) (Nat.ne_of_lt hj)

/-- `v[i] = x`, `none` where the index is out of range. -/
def write (v : Array α) (i : Nat) (x : α) : Option (Array α) :=
  if h : i < v.size then some (v.set i x) else none

/-- The vector holds the first `n` values of the function. -/
structure Holds (v : Array α) (n : Nat) (f : Nat → α) : Prop where
  size : v.size = n
  read : ∀ i < n, v[i]? = some (f i)

namespace Holds

variable {v : Array α} {n i : Nat} {f g : Nat → α}

theorem write (h : Holds v n f) (hi : i < n) (x : α) :
    ∃ w, Cells.write v i x = some w ∧ Holds w n (Function.update f i x) := by
  have hsize : i < v.size := h.size ▸ hi
  refine ⟨v.set i x, dif_pos hsize, by rw [Array.size_set, h.size], fun j hj => ?_⟩
  rw [Array.getElem?_set, Function.update_apply]
  by_cases hji : i = j
  · rw [if_pos hji, if_pos hji.symm]
  · rw [if_neg hji, if_neg (Ne.symm hji), h.read j hj]

theorem congr (h : Holds v n f) (hfg : ∀ i < n, f i = g i) : Holds v n g :=
  ⟨h.size, fun i hi => (h.read i hi).trans (congrArg some (hfg i hi))⟩

theorem modify (h : Holds v n f) (i : Nat) (g : α → α) :
    Holds (v.modify i g) n fun j => if j = i then g (f j) else f j := by
  refine ⟨by rw [Array.size_modify, h.size], fun j hj => ?_⟩
  rw [Array.getElem?_modify, h.read j hj]
  by_cases hij : i = j
  · rw [if_pos hij, if_pos hij.symm]
    rfl
  · rw [if_neg hij, if_neg (Ne.symm hij)]

theorem replicate (n : Nat) (x : α) : Holds (Array.replicate n x) n fun _ => x :=
  ⟨Array.size_replicate, fun i hi => by rw [Array.getElem?_replicate, if_pos hi]⟩

end Holds

end Cells
