import Mathlib.Data.List.Basic

/-! Walks over a stack of names: a move stays, goes up a level, or goes down to a name. -/

namespace StackWalk

inductive Move (α : Type*) where
  | stay
  | up
  | down (a : α)

variable {α : Type*}

def step (parts : List α) : Move α → Option (List α)
  | .stay => some parts
  | .up => if parts.isEmpty then none else some parts.dropLast
  | .down a => some (parts ++ [a])

def walk (parts : List α) (moves : List (Move α)) : Option (List α) := moves.foldlM step parts

/-- What is left when each name cancels with the way up behind it: levels up, then names. -/
def reduce : List (Move α) → Nat × List α
  | [] => (0, [])
  | .stay :: moves => reduce moves
  | .up :: moves => ((reduce moves).1 + 1, (reduce moves).2)
  | .down a :: moves =>
    if (reduce moves).1 = 0 then (0, a :: (reduce moves).2)
    else ((reduce moves).1 - 1, (reduce moves).2)

theorem walk_nil (parts : List α) : walk parts [] = some parts := rfl

theorem walk_cons (parts : List α) (m : Move α) (moves : List (Move α)) :
    walk parts (m :: moves) = (step parts m).bind fun rest => walk rest moves := rfl

theorem walk_append (parts : List α) (moves more : List (Move α)) :
    walk parts (moves ++ more) = (walk parts moves).bind fun rest => walk rest more := by
  rw [walk, List.foldlM_append]
  rfl

/-- A walk takes as many names off the stack as it goes up in the end, and adds those left. -/
theorem walk_eq (parts : List α) (moves : List (Move α)) :
    walk parts moves =
      if (reduce moves).1 ≤ parts.length then
        some (parts.take (parts.length - (reduce moves).1) ++ (reduce moves).2)
      else none := by
  induction moves generalizing parts with
  | nil => simp [walk_nil, reduce]
  | cons m moves ih =>
    rw [walk_cons]
    cases m with
    | stay => rw [step, Option.bind_some, ih, reduce]
    | up =>
      rw [step, reduce]
      rcases List.eq_nil_or_concat parts with rfl | ⟨init, a, rfl⟩
      · simp
      · have hne : (init.concat a).isEmpty = false := by simp
        rw [hne, if_neg (by simp), Option.bind_some, ih]
        simp only [List.concat_eq_append, List.dropLast_concat, List.length_append,
          List.length_singleton]
        by_cases hle : (reduce moves).1 ≤ init.length
        · rw [if_pos hle, if_pos (by omega)]
          have htake : (init ++ [a]).take (init.length + 1 - ((reduce moves).1 + 1)) =
              init.take (init.length - (reduce moves).1) := by
            rw [Nat.add_sub_add_right, List.take_append_of_le_length (by omega)]
          rw [htake]
        · rw [if_neg hle, if_neg (by omega)]
    | down a =>
      rw [step, Option.bind_some, ih, reduce]
      simp only [List.length_append, List.length_singleton]
      by_cases hzero : (reduce moves).1 = 0
      · have hall : (parts ++ [a]).take (parts.length + 1 - 0) = parts ++ [a] :=
          List.take_of_length_le (by simp)
        rw [if_pos hzero, if_pos (by omega), hzero, if_pos (by omega), hall]
        simp
      · rw [if_neg hzero]
        by_cases hle : (reduce moves).1 - 1 ≤ parts.length
        · rw [if_pos (by omega), if_pos hle]
          have htake : (parts ++ [a]).take (parts.length + 1 - (reduce moves).1) =
              parts.take (parts.length - ((reduce moves).1 - 1)) := by
            rw [List.take_append_of_le_length (by omega)]
            congr 1
            omega
          rw [htake]
        · rw [if_neg (by omega), if_neg hle]

theorem walk_empty (moves : List (Move α)) :
    walk [] moves = if (reduce moves).1 = 0 then some (reduce moves).2 else none := by
  rw [walk_eq]
  simp

theorem reduce_down (parts : List α) : reduce (parts.map Move.down) = (0, parts) := by
  induction parts with
  | nil => rfl
  | cons a parts ih => simp [reduce, ih]

theorem reduce_concat_down (moves : List (Move α)) (a : α) :
    reduce (moves ++ [.down a]) = ((reduce moves).1, (reduce moves).2 ++ [a]) := by
  induction moves with
  | nil => rfl
  | cons m moves ih =>
    cases m with
    | stay => rw [List.cons_append, reduce, reduce, ih]
    | up => rw [List.cons_append, reduce, reduce, ih]
    | down b =>
      rw [List.cons_append, reduce, reduce, ih]
      split_ifs <;> rfl

theorem reduce_append_of_levels (moves : List (Move α)) {more : List (Move α)}
    (h : (reduce more).1 = 0) :
    reduce (moves ++ more) = ((reduce moves).1, (reduce moves).2 ++ (reduce more).2) := by
  induction moves with
  | nil => exact Prod.ext h rfl
  | cons m moves ih =>
    cases m with
    | stay => rw [List.cons_append, reduce, reduce, ih]
    | up => rw [List.cons_append, reduce, reduce, ih]
    | down b =>
      rw [List.cons_append, reduce, reduce, ih]
      split_ifs <;> rfl

theorem down_mem_of_mem_reduce {a : α} {moves : List (Move α)} (h : a ∈ (reduce moves).2) :
    Move.down a ∈ moves := by
  induction moves with
  | nil => simp [reduce] at h
  | cons m moves ih =>
    cases m with
    | stay => exact List.mem_cons_of_mem _ (ih h)
    | up => exact List.mem_cons_of_mem _ (ih h)
    | down b =>
      rw [reduce] at h
      split_ifs at h
      · rcases List.mem_cons.mp h with rfl | hrest
        · exact List.mem_cons_self ..
        · exact List.mem_cons_of_mem _ (ih hrest)
      · exact List.mem_cons_of_mem _ (ih h)

theorem reduce_length_le (moves : List (Move α)) : (reduce moves).2.length ≤ moves.length := by
  induction moves with
  | nil => simp [reduce]
  | cons m moves ih =>
    cases m with
    | stay => rw [reduce, List.length_cons]; omega
    | up =>
      show (reduce moves).2.length ≤ moves.length + 1
      omega
    | down a =>
      rw [reduce, List.length_cons]
      split_ifs
      · rw [List.length_cons]; omega
      · show (reduce moves).2.length ≤ moves.length + 1
        omega

theorem exists_eq_map_of_reduce_length {moves : List (Move α)}
    (h : (reduce moves).2.length = moves.length) : ∃ parts : List α, moves = parts.map Move.down := by
  induction moves with
  | nil => exact ⟨[], rfl⟩
  | cons m moves ih =>
    have hle := reduce_length_le moves
    cases m with
    | stay => rw [reduce, List.length_cons] at h; omega
    | up =>
      have hlen : (reduce moves).2.length = moves.length + 1 := h
      omega
    | down a =>
      rw [reduce, List.length_cons] at h
      split_ifs at h
      · rw [List.length_cons] at h
        obtain ⟨parts, rfl⟩ := ih (by omega)
        exact ⟨a :: parts, rfl⟩
      · have hlen : (reduce moves).2.length = moves.length + 1 := h
        omega

end StackWalk
