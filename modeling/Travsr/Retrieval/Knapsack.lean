import Mathlib.Algebra.BigOperators.Fin
import Mathlib.Data.List.GetD
import Mathlib.Data.Rat.Floor
import Travsr.Lib.ZeroOne
import Travsr.Retrieval.Pcst

namespace Travsr.Retrieval

open Travsr.Core

/-- An `f32`: NaN, an infinity, or a finite number. -/
inductive F32
  | nan
  | infinite (negative : Bool)
  | finite (x : ℚ)
  deriving DecidableEq

namespace F32

/-- `f32::round`: ties away from zero. -/
def round : F32 → F32
  | finite x => finite (if 0 ≤ x then ⌊x + 1 / 2⌋ else -⌊-x + 1 / 2⌋)
  | x => x

def u32Max : Nat := 2 ^ 32 - 1

/-- `as u32`: saturating, zero for NaN. -/
def toU32 : F32 → Nat
  | nan => 0
  | infinite negative => if negative then 0 else u32Max
  | finite x => min ⌊x⌋.toNat u32Max

/-- `a.partial_cmp(&b) == Some(Less)`. -/
def lt : F32 → F32 → Bool
  | nan, _ => false
  | _, nan => false
  | finite x, finite y => x < y
  | infinite negative, finite _ => negative
  | finite _, infinite negative => !negative
  | infinite a, infinite b => a && !b

/-- A product or quotient by a positive finite number, rounded to the nearest `f32`. -/
def scaled (nearest : ℚ → F32) (score : F32) (factor : ℚ) : F32 :=
  match score with
  | finite x => nearest (x * factor)
  | x => x

end F32

namespace Knapsack

def dpCellLimit : Nat := 1000000

def scoreScale : ℚ := 1000000

def maxContextBudget : Nat := 32000

/-- `usize::saturating_mul`. -/
def saturatingMul (a b : Nat) : Nat := min (a * b) (2 ^ 64 - 1)

/-- `u32::saturating_add`. -/
def saturatingAdd (a b : Nat) : Nat := min (a + b) F32.u32Max

def scaledValue (nearest : ℚ → F32) (score : F32) : Nat :=
  max (F32.scaled nearest score scoreScale).round.toU32 1

/-- One cell of the flat table; `i` counts the rows above it. -/
def fillCell (cols cost val i : Nat) (dp : Array Nat) (w : Nat) : Array Nat :=
  let skip := dp.getD (i * cols + w) 0
  let take :=
    if cost ≤ w then saturatingAdd (dp.getD (i * cols + (w - cost)) 0) val else 0
  dp.setIfInBounds ((i + 1) * cols + w) (max skip take)

def fillRow (cols : Nat) (costs vals : List Nat) (dp : Array Nat) (i : Nat) : Array Nat :=
  (List.range cols).foldl (fillCell cols (costs.getD i 0) (vals.getD i 0) i) dp

/-- `dp[i * cols + w]`: the best score of the first `i` items with capacity `w`. -/
def fillTable (cols : Nat) (costs vals : List Nat) (n : Nat) : Array Nat :=
  (List.range n).foldl (fillRow cols costs vals) (Array.replicate ((n + 1) * cols) 0)

/-- One step of the backtrack, on the items selected so far and the capacity left. -/
def backtrackStep (cols : Nat) (costs : List Nat) (dp : Array Nat) (st : List Nat × Nat)
    (i : Nat) : List Nat × Nat :=
  if dp.getD ((i + 1) * cols + st.2) 0 ≠ dp.getD (i * cols + st.2) 0 then
    (st.1 ++ [i], st.2 - costs.getD i 0)
  else st

def backtrack (cols : Nat) (costs : List Nat) (dp : Array Nat) (n tokenBudget : Nat) :
    List Nat :=
  ((List.range n).reverse.foldl (backtrackStep cols costs dp) ([], tokenBudget)).1

def selected (nearest : ℚ → F32) (items : List (Node × F32)) (tokenBudget : Nat) : List Nat :=
  let cols := tokenBudget + 1
  let costs := items.map fun p => tokenCost p.1
  let vals := items.map fun p => scaledValue nearest p.2
  let dp := fillTable cols costs vals items.length
  (backtrack cols costs dp items.length tokenBudget).insertionSort
    fun a b => vals.getD b 0 ≤ vals.getD a 0

/-- A position with its value/cost ratio and its cost. -/
structure Ratio where
  idx : Nat
  ratio : F32
  cost : Nat

def greedyStep (items : List (Node × F32)) (st : Nat × List Node) (entry : Ratio) :
    Nat × List Node :=
  if entry.cost ≤ st.1 then
    (st.1 - entry.cost, st.2 ++ (items[entry.idx]?.map Prod.fst).toList)
  else st

def knapsackGreedy (nearest : ℚ → F32) (items : List (Node × F32)) (tokenBudget : Nat) :
    List Node :=
  let indexed := items.zipIdx.map fun e =>
    let cost := tokenCost e.1.1
    let ratio := if 0 < cost then F32.scaled nearest e.1.2 (1 / cost) else e.1.2
    (⟨e.2, ratio, cost⟩ : Ratio)
  ((indexed.insertionSort fun a b => ¬ F32.lt a.ratio b.ratio).foldl (greedyStep items)
    (tokenBudget, [])).2

def knapsack (nearest : ℚ → F32) (items : List (Node × F32)) (tokenBudget : Nat) : List Node :=
  if maxContextBudget < tokenBudget then []
  else if items.isEmpty ∨ tokenBudget = 0 then []
  else if dpCellLimit < saturatingMul items.length tokenBudget then
    knapsackGreedy nearest items tokenBudget
  else
    (selected nearest items tokenBudget).filterMap fun idx => items[idx]?.map Prod.fst

/-! ### The table and the backtrack -/

section

open ZeroOne

variable {costs vals : List Nat} {cols n i k w : Nat} {dp : Array Nat}

abbrev cellOf (costs vals : List Nat) : Nat → Nat → Nat :=
  bestUpTo (fun i => costs.getD i 0) (fun i => vals.getD i 0) F32.u32Max

/-- The rows up to the `i`-th are filled, and the next one in its first `k` columns. -/
structure Filled (costs vals : List Nat) (cols n i k : Nat) (dp : Array Nat) : Prop where
  size : dp.size = (n + 1) * cols
  done : ∀ j ≤ i, ∀ w < cols, dp.getD (j * cols + w) 0 = cellOf costs vals j w
  partly : ∀ w < k, dp.getD ((i + 1) * cols + w) 0 = cellOf costs vals (i + 1) w

theorem cell_lt {j : Nat} (hj : j ≤ i) (hw : w < cols) : j * cols + w < (i + 1) * cols := by
  have hrow := Nat.mul_le_mul_right cols hj
  rw [Nat.add_mul]
  omega

theorem getD_set {a x j : Nat} (h : a < dp.size) :
    (dp.setIfInBounds a x).getD j 0 = if j = a then x else dp.getD j 0 := by
  by_cases hj : j = a
  · subst hj
    simp [Array.getD_eq_getD_getElem?, h]
  · simp [Array.getD_eq_getD_getElem?, hj, Ne.symm hj]

theorem filled_fillCell (h : Filled costs vals cols n i k dp) (hi : i < n) (hk : k < cols) :
    Filled costs vals cols n i (k + 1)
      (fillCell cols (costs.getD i 0) (vals.getD i 0) i dp k) := by
  have hin : (i + 1) * cols + k < dp.size := by
    rw [h.size]
    exact cell_lt (show i + 1 ≤ n by omega) hk
  have hvalue : max (dp.getD (i * cols + k) 0)
      (if costs.getD i 0 ≤ k then
        saturatingAdd (dp.getD (i * cols + (k - costs.getD i 0)) 0) (vals.getD i 0)
      else 0) = cellOf costs vals (i + 1) k := by
    rw [h.done i le_rfl k hk, h.done i le_rfl (k - costs.getD i 0) (by omega)]
    rfl
  refine ⟨?_, ?_, ?_⟩
  · rw [fillCell, Array.size_setIfInBounds]
    exact h.size
  · intro j hj w hw
    have hbefore := cell_lt hj hw
    rw [fillCell, getD_set hin, if_neg (by omega)]
    exact h.done j hj w hw
  · intro w hw
    rw [fillCell, getD_set hin]
    by_cases hwk : w = k
    · rw [if_pos (by rw [hwk]), hvalue, hwk]
    · rw [if_neg (by omega)]
      exact h.partly w (by omega)

theorem filled_fillRow (h : Filled costs vals cols n i 0 dp) (hi : i < n) :
    Filled costs vals cols n (i + 1) 0 (fillRow cols costs vals dp i) := by
  have hcells : ∀ k ≤ cols, Filled costs vals cols n i k
      ((List.range k).foldl (fillCell cols (costs.getD i 0) (vals.getD i 0) i) dp) := by
    intro k hk
    induction k with
    | zero => exact h
    | succ k ih =>
      rw [List.range_succ, List.foldl_append]
      exact filled_fillCell (ih (by omega)) hi (by omega)
  have hrow := hcells cols le_rfl
  refine ⟨hrow.size, ?_, fun w hw => absurd hw (Nat.not_lt_zero w)⟩
  intro j hj w hw
  by_cases hlast : j = i + 1
  · rw [hlast]
    exact hrow.partly w hw
  · exact hrow.done j (by omega) w hw

theorem filled_fillTable : Filled costs vals cols n n 0 (fillTable cols costs vals n) := by
  have hrows : ∀ i ≤ n, Filled costs vals cols n i 0
      ((List.range i).foldl (fillRow cols costs vals)
        (Array.replicate ((n + 1) * cols) 0)) := by
    intro i hi
    induction i with
    | zero =>
      refine ⟨Array.size_replicate, ?_, fun w hw => absurd hw (Nat.not_lt_zero w)⟩
      intro j hj w _
      have hzero : j = 0 := by omega
      subst hzero
      rw [List.range_zero, List.foldl_nil, Array.getD_eq_getD_getElem?, Array.getElem?_replicate]
      split_ifs
      · rfl
      · rfl
    | succ i ih =>
      rw [List.range_succ, List.foldl_append]
      exact filled_fillRow (ih (by omega)) (by omega)
  exact hrows n le_rfl

theorem backtrack_eq_readBack (h : Filled costs vals cols n n 0 dp) {tokenBudget : Nat}
    (hcols : tokenBudget < cols) :
    backtrack cols costs dp n tokenBudget =
      readBack (fun i => costs.getD i 0) (cellOf costs vals) n tokenBudget := by
  have hsteps : ∀ m ≤ n, ∀ acc : List Nat, ∀ w < cols,
      ((List.range m).reverse.foldl (backtrackStep cols costs dp) (acc, w)).1 =
        acc ++ readBack (fun i => costs.getD i 0) (cellOf costs vals) m w := by
    intro m
    induction m with
    | zero => simp [readBack]
    | succ m ih =>
      intro hm acc w hw
      rw [List.range_succ, List.reverse_append, List.reverse_singleton, List.singleton_append,
        List.foldl_cons, backtrackStep, h.done (m + 1) hm w hw, h.done m (by omega) w hw, readBack]
      by_cases heq : cellOf costs vals (m + 1) w = cellOf costs vals m w
      · rw [if_neg (not_not.mpr heq), if_pos heq]
        exact ih (by omega) acc w hw
      · rw [if_pos heq, if_neg heq, ih (by omega) _ _ (by omega), List.append_assoc]
        rfl
  exact (hsteps n le_rfl [] tokenBudget hcols).trans (List.nil_append _)

end

/-! ### What is selected -/

section

variable {nearest : ℚ → F32} {items : List (Node × F32)} {tokenBudget : Nat}

theorem sum_getD (xs : List Nat) : ∑ j ∈ Finset.range xs.length, xs.getD j 0 = xs.sum := by
  rw [Finset.sum_range, ← Fin.sum_univ_getElem]
  exact Finset.sum_congr rfl fun i _ => List.getD_eq_getElem xs 0 i.isLt

theorem getD_map (f : Node × F32 → Nat) (i : Fin items.length) :
    (items.map f).getD i 0 = f items[i] := by
  rw [List.getD_eq_getElem _ _ (by rw [List.length_map]; exact i.isLt), List.getElem_map]
  rfl

theorem selected_perm (nearest : ℚ → F32) (items : List (Node × F32)) (tokenBudget : Nat) :
    (selected nearest items tokenBudget).Perm
      (ZeroOne.readBack (fun i => (items.map fun p => tokenCost p.1).getD i 0)
        (cellOf (items.map fun p => tokenCost p.1)
          (items.map fun p => scaledValue nearest p.2)) items.length tokenBudget) := by
  rw [← backtrack_eq_readBack filled_fillTable (Nat.lt_succ_self tokenBudget)]
  exact List.perm_insertionSort _ _

/-- The exact algorithm takes distinct positions within the budget, and no choice of positions
within the budget is worth more. -/
theorem knapsack_optimal (nearest : ℚ → F32) (items : List (Node × F32)) (tokenBudget : Nat)
    (hpos : 0 < tokenBudget) (hmax : tokenBudget ≤ maxContextBudget)
    (hcells : items.length * tokenBudget ≤ dpCellLimit)
    (hsum : (items.map fun p => scaledValue nearest p.2).sum ≤ F32.u32Max) :
    ∃ positions : List (Fin items.length), positions.Nodup ∧
      knapsack nearest items tokenBudget = positions.map (fun i => items[i].1) ∧
      (positions.map fun i => tokenCost items[i].1).sum ≤ tokenBudget ∧
      IsGreatest
        {v | ∃ S : Finset (Fin items.length), ∑ i ∈ S, tokenCost items[i].1 ≤ tokenBudget ∧
          ∑ i ∈ S, scaledValue nearest items[i].2 = v}
        (positions.map fun i => scaledValue nearest items[i].2).sum := by
  have hvals := hsum
  rw [← sum_getD, List.length_map] at hvals
  have hback := selected_perm nearest items tokenBudget
  have hperm : (selected nearest items tokenBudget).Perm
      (ZeroOne.picked (fun i => (items.map fun p => tokenCost p.1).getD i 0)
        (fun i => (items.map fun p => scaledValue nearest p.2).getD i 0) items.length
        tokenBudget) := by
    refine hback.trans (List.Perm.of_eq ?_)
    rw [← ZeroOne.readBack_best]
    refine ZeroOne.readBack_congr fun j hj v _ => ZeroOne.bestUpTo_eq_best ?_ v
    exact (Finset.sum_le_sum_of_subset (Finset.range_mono hj)).trans hvals
  have hlt : ∀ i ∈ selected nearest items tokenBudget, i < items.length :=
    fun i hi => ZeroOne.picked_lt (hperm.mem_iff.mp hi)
  have hpositions : ∃ positions : List (Fin items.length),
      positions.map Fin.val = selected nearest items tokenBudget :=
    ⟨(selected nearest items tokenBudget).pmap Fin.mk hlt, by
      rw [List.map_pmap, List.pmap_eq_map, List.map_id']⟩
  obtain ⟨positions, hpositions⟩ := hpositions
  have hnodup : positions.Nodup := by
    refine List.Nodup.of_map Fin.val ?_
    rw [hpositions]
    exact hperm.nodup_iff.mpr (ZeroOne.picked_nodup _ _)
  -- a sum over the selected positions is one over the backtrack's
  have hsums : ∀ f : Node × F32 → Nat, (positions.map fun i => f items[i]).sum =
      ((ZeroOne.picked (fun i => (items.map fun p => tokenCost p.1).getD i 0)
        (fun i => (items.map fun p => scaledValue nearest p.2).getD i 0) items.length
        tokenBudget).map fun i => (items.map f).getD i 0).sum := by
    intro f
    rw [← (hperm.map _).sum_eq, ← hpositions, List.map_map]
    exact congrArg List.sum (List.map_congr_left fun i _ => (getD_map f i).symm)
  have hcost := @ZeroOne.picked_cost (fun i => (items.map fun p => tokenCost p.1).getD i 0)
    (fun i => (items.map fun p => scaledValue nearest p.2).getD i 0) items.length tokenBudget
  rw [← hsums fun p => tokenCost p.1] at hcost
  refine ⟨positions, hnodup, ?_, hcost, ?_, ?_⟩
  · rw [knapsack, if_neg (Nat.not_lt.mpr hmax)]
    by_cases hempty : items = []
    · rw [if_pos (Or.inl (by rw [hempty]; rfl))]
      cases positions with
      | nil => rfl
      | cons i _ => exact absurd i.isLt (by simp [hempty])
    · have hwork : ¬ (items.isEmpty ∨ tokenBudget = 0) := by
        rw [List.isEmpty_iff]
        exact not_or.mpr ⟨hempty, by omega⟩
      have hexact : ¬ dpCellLimit < saturatingMul items.length tokenBudget :=
        Nat.not_lt.mpr ((Nat.min_le_left _ _).trans hcells)
      rw [if_neg hwork, if_neg hexact, ← hpositions, List.filterMap_map, ← List.filterMap_eq_map]
      refine List.filterMap_congr fun i _ => ?_
      simp
  · exact ⟨positions.toFinset, by rw [List.sum_toFinset _ hnodup]; exact hcost,
      List.sum_toFinset _ hnodup⟩
  · intro v hv
    obtain ⟨S, hS, rfl⟩ := hv
    have hmap : ∀ f : Node × F32 → Nat,
        ∑ i ∈ S.map Fin.valEmbedding, (items.map f).getD i 0 = ∑ i ∈ S, f items[i] := by
      intro f
      rw [Finset.sum_map]
      exact Finset.sum_congr rfl fun i _ => getD_map f i
    have hsub : S.map Fin.valEmbedding ⊆ Finset.range items.length := by
      intro j hj
      obtain ⟨i, _, rfl⟩ := Finset.mem_map.mp hj
      exact Finset.mem_range.mpr i.isLt
    rw [hsums fun p => scaledValue nearest p.2, ZeroOne.picked_value,
      ← hmap fun p => scaledValue nearest p.2]
    refine ZeroOne.sum_le_best hsub ?_
    rw [hmap fun p => tokenCost p.1]
    exact hS

end

def rivals : List (Node × F32) :=
  [(⟨1, ⟨"a", "", "a.rs", "rust", "fn:x"⟩, "function", "", none, none, .none⟩,
      .finite (1 / 4)),
    (⟨2, ⟨"a", "", "a.rs", "rust", "fn:y"⟩, "function", "", none, none, .none⟩,
      .finite (1 / 2))]

theorem knapsack_optimal_rivals :
    ∃ positions : List (Fin rivals.length), positions.Nodup ∧
      knapsack F32.finite rivals 5 = positions.map (fun i => rivals[i].1) ∧
      (positions.map fun i => tokenCost rivals[i].1).sum ≤ 5 ∧
      IsGreatest
        {v | ∃ S : Finset (Fin rivals.length), ∑ i ∈ S, tokenCost rivals[i].1 ≤ 5 ∧
          ∑ i ∈ S, scaledValue F32.finite rivals[i].2 = v}
        (positions.map fun i => scaledValue F32.finite rivals[i].2).sum :=
  knapsack_optimal F32.finite rivals 5 (by decide) (by decide) (by decide) (by decide +kernel)

end Knapsack

end Travsr.Retrieval
