import Mathlib.Data.List.Basic
import Mathlib.Data.List.Induction

/-! A bounded queue that keeps its first entries: past the bound each new entry takes the place of
the oldest one behind them. -/

namespace PinnedRing

variable {α : Type} {bound head : Nat}

structure Ring (α : Type) where
  lines : List α
  elided : Nat

def empty : Ring α := ⟨[], 0⟩

/-- At the bound the entry behind the first `head` goes. -/
def push (bound head : Nat) (r : Ring α) (a : α) : Ring α :=
  if r.lines.length = bound then ⟨r.lines.eraseIdx head ++ [a], r.elided + 1⟩
  else ⟨r.lines ++ [a], r.elided⟩

/-- The first `head` entries and the last of `bound`, all of them when there are no more. -/
def ends (bound head : Nat) (as : List α) : List α :=
  if as.length ≤ bound then as else as.take head ++ as.drop (as.length - (bound - head))

theorem length_ends (hle : head ≤ bound) (as : List α) :
    (ends bound head as).length = min bound as.length := by
  rw [ends]
  split
  · omega
  · rw [List.length_append, List.length_take, List.length_drop]
    omega

theorem ends_of_le (hle : head ≤ bound) {as : List α} (h : bound ≤ as.length) :
    ends bound head as = as.take head ++ as.drop (as.length - (bound - head)) := by
  rw [ends]
  split
  · have : as.length - (bound - head) = head := by omega
    rw [this, List.take_append_drop]
  · rfl

theorem ends_concat (hlt : head < bound) (as : List α) (a : α) :
    ends bound head (as ++ [a]) =
      if as.length < bound then ends bound head as ++ [a]
      else (ends bound head as).eraseIdx head ++ [a] := by
  split
  · have hlen : (as ++ [a]).length ≤ bound := by
      rw [List.length_append, List.length_singleton]
      omega
    have hlen' : as.length ≤ bound := by omega
    rw [ends, ends, if_pos hlen, if_pos hlen']
  · have hlen : bound ≤ (as ++ [a]).length := by
      rw [List.length_append, List.length_singleton]
      omega
    have htake : (as.take head).length = head := by
      rw [List.length_take]
      omega
    have hstart : (as ++ [a]).length - (bound - head) = as.length - (bound - head) + 1 := by
      rw [List.length_append, List.length_singleton]
      omega
    rw [ends_of_le (Nat.le_of_lt hlt) hlen, ends_of_le (Nat.le_of_lt hlt) (by omega),
      List.eraseIdx_append_of_length_le (by omega), htake, Nat.sub_self, List.eraseIdx_zero,
      List.tail_drop, hstart, List.take_append_of_le_length (by omega),
      List.drop_append_of_le_length (by omega), List.append_assoc]

theorem foldl_push (hlt : head < bound) (as : List α) :
    as.foldl (push bound head) empty = ⟨ends bound head as, as.length - bound⟩ := by
  induction as using List.reverseRecOn with
  | nil => simp [empty, ends]
  | append_singleton as a ih =>
    rw [List.foldl_append, ih, List.foldl_cons, List.foldl_nil, push, ends_concat hlt]
    simp only [length_ends (Nat.le_of_lt hlt), List.length_append, List.length_singleton]
    by_cases h : as.length < bound
    · rw [if_neg (by omega), if_pos h]
      congr 1
      omega
    · rw [if_pos (by omega), if_neg h]
      congr 1
      omega

theorem ends_map {β : Type} (f : α → β) (as : List α) :
    ends bound head (as.map f) = (ends bound head as).map f := by
  simp only [ends, List.length_map]
  split
  · rfl
  · rw [List.map_append, List.map_take, List.map_drop]

end PinnedRing
