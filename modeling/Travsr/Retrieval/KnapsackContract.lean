import Mathlib.Data.Prod.Lex
import Travsr.Lib.FirstFit
import Travsr.Retrieval.Knapsack

namespace Travsr.Retrieval

open Travsr.Core

namespace F32

def place : F32 → WithBot (WithTop ℚ)
  | nan => 0
  | infinite negative => if negative then ⊥ else ((⊤ : WithTop ℚ) : WithBot (WithTop ℚ))
  | finite x => ((x : WithTop ℚ) : WithBot (WithTop ℚ))

theorem lt_iff_place {a b : F32} (ha : a ≠ nan) (hb : b ≠ nan) :
    lt a b = true ↔ a.place < b.place := by
  cases a with
  | nan => exact absurd rfl ha
  | infinite p =>
    cases b with
    | nan => exact absurd rfl hb
    | infinite q => cases p <;> cases q <;> simp [lt, place]
    | finite y => cases p <;> simp [lt, place]
  | finite x =>
    cases b with
    | nan => exact absurd rfl hb
    | infinite q =>
      cases q with
      | true => simp [lt, place]
      | false =>
        have htop : (finite x).place < (infinite false).place :=
          WithBot.coe_lt_coe.mpr (WithTop.coe_lt_top x)
        simp [lt, htop]
    | finite y => simp [lt, place]

end F32

namespace Knapsack

variable {nearest : ℚ → F32} {items : List (Node × F32)} {tokenBudget : Nat}

/-- The fallback runs. -/
def Falls (items : List (Node × F32)) (tokenBudget : Nat) : Prop :=
  tokenBudget ≤ maxContextBudget ∧ dpCellLimit < saturatingMul items.length tokenBudget

instance : Decidable (Falls items tokenBudget) := inferInstanceAs (Decidable (_ ∧ _))

def costAt (items : List (Node × F32)) (i : Nat) : Nat :=
  (items.map fun p => tokenCost p.1).getD i 0

def valueAt (nearest : ℚ → F32) (items : List (Node × F32)) (i : Nat) : Nat :=
  (items.map fun p => scaledValue nearest p.2).getD i 0

def scoreAt (items : List (Node × F32)) (i : Nat) : F32 := (items.map Prod.snd).getD i .nan

def ratioAt (nearest : ℚ → F32) (items : List (Node × F32)) (i : Nat) : F32 :=
  F32.scaled nearest (scoreAt items i) (1 / costAt items i)

def ratioOrder (nearest : ℚ → F32) (items : List (Node × F32)) : List Nat :=
  (List.range items.length).insertionSort fun a b =>
    ¬ F32.lt (ratioAt nearest items a) (ratioAt nearest items b)

def positions (nearest : ℚ → F32) (items : List (Node × F32)) (tokenBudget : Nat) : List Nat :=
  if maxContextBudget < tokenBudget ∨ items.isEmpty ∨ tokenBudget = 0 then []
  else if Falls items tokenBudget then
    FirstFit.taken (costAt items) (ratioOrder nearest items) tokenBudget
  else selected nearest items tokenBudget

/-- What both paths promise. -/
structure Contract (nearest : ℚ → F32) (items : List (Node × F32)) (tokenBudget : Nat)
    (ps : List Nat) : Prop where
  nodup : ps.Nodup
  inRange : ∀ i ∈ ps, i < items.length
  nodes : knapsack nearest items tokenBudget = ps.filterMap fun i => items[i]?.map Prod.fst
  withinBudget : (ps.map (costAt items)).sum ≤ min tokenBudget maxContextBudget
  ordered : ps.Pairwise fun a b => ¬ F32.lt (scoreAt items a) (scoreAt items b)
  maximal : Falls items tokenBudget → ∀ i < items.length, i ∉ ps →
    tokenBudget - (ps.map (costAt items)).sum < costAt items i

/-- The positions that enter the answer: the first that fit, by ratio, or the most valuable
choice. -/
def Chosen (nearest : ℚ → F32) (items : List (Node × F32)) (tokenBudget i : Nat) : Prop :=
  tokenBudget ≤ maxContextBudget ∧
    if Falls items tokenBudget then
      i ∈ FirstFit.taken (costAt items) (ratioOrder nearest items) tokenBudget
    else
      i ∈ ZeroOne.readBack (costAt items) (ZeroOne.bestUpTo (costAt items)
        (valueAt nearest items) F32.u32Max) items.length tokenBudget

/-- The sort of the path puts the first position before the second. -/
def Ahead (nearest : ℚ → F32) (items : List (Node × F32)) (tokenBudget a b : Nat) : Prop :=
  if Falls items tokenBudget then
    F32.lt (ratioAt nearest items b) (ratioAt nearest items a) ∨
      ¬ F32.lt (ratioAt nearest items a) (ratioAt nearest items b) ∧ a < b
  else
    valueAt nearest items b < valueAt nearest items a ∨
      valueAt nearest items a = valueAt nearest items b ∧ b < a

theorem costAt_pos {i : Nat} (h : i < items.length) : 0 < costAt items i := by
  rw [costAt, List.getD_eq_getElem _ _ (by rw [List.length_map]; exact h), List.getElem_map,
    tokenCost]
  omega

/-! ### The fallback -/

theorem entries_eq : (items.zipIdx.map fun e =>
      let cost := tokenCost e.1.1
      let ratio := if 0 < cost then F32.scaled nearest e.1.2 (1 / cost) else e.1.2
      (⟨e.2, ratio, cost⟩ : Ratio)) =
    (List.range items.length).map fun i => ⟨i, ratioAt nearest items i, costAt items i⟩ := by
  refine List.ext_getElem (by simp) fun i hi _ => ?_
  have hlt : i < items.length := by simpa using hi
  have hpos := costAt_pos hlt
  have hcost : costAt items i = tokenCost items[i].1 := by
    rw [costAt, List.getD_eq_getElem _ _ (by rw [List.length_map]; exact hlt), List.getElem_map]
  have hscore : scoreAt items i = items[i].2 := by
    rw [scoreAt, List.getD_eq_getElem _ _ (by rw [List.length_map]; exact hlt), List.getElem_map]
  rw [hcost] at hpos
  simp [ratioAt, hcost, hscore, hpos]

theorem foldl_greedyStep (entries : List Ratio) (w : Nat) (acc : List Node) :
    (entries.foldl (greedyStep items) (w, acc)).2 =
      acc ++ (FirstFit.taken Ratio.cost entries w).filterMap
        fun e => items[e.idx]?.map Prod.fst := by
  induction entries generalizing w acc with
  | nil => simp [FirstFit.taken]
  | cons e entries ih =>
    rw [List.foldl_cons, greedyStep, FirstFit.taken]
    split_ifs with hle
    · rw [ih, List.append_assoc]
      cases hat : items[e.idx]? with
      | none => simp [hat]
      | some p => simp [hat]
    · exact ih w acc

theorem taken_map (f : Nat → Ratio) (order : List Nat) (w : Nat) :
    FirstFit.taken Ratio.cost (order.map f) w =
      (FirstFit.taken (fun i => (f i).cost) order w).map f := by
  induction order generalizing w with
  | nil => rfl
  | cons i order ih =>
    rw [List.map_cons, FirstFit.taken, FirstFit.taken]
    split_ifs with hle
    · rw [ih, List.map_cons]
    · exact ih w

theorem knapsackGreedy_eq (nearest : ℚ → F32) (items : List (Node × F32)) (tokenBudget : Nat) :
    knapsackGreedy nearest items tokenBudget =
      (FirstFit.taken (costAt items) (ratioOrder nearest items) tokenBudget).filterMap
        fun i => items[i]?.map Prod.fst := by
  have hsort : ((List.range items.length).map fun i =>
        (⟨i, ratioAt nearest items i, costAt items i⟩ : Ratio)).insertionSort
        (fun a b => ¬ F32.lt a.ratio b.ratio) =
      (ratioOrder nearest items).map fun i => ⟨i, ratioAt nearest items i, costAt items i⟩ :=
    (List.map_insertionSort _ _ (fun i => (⟨i, ratioAt nearest items i, costAt items i⟩ : Ratio)) _
      fun _ _ _ _ => Iff.rfl).symm
  rw [knapsackGreedy, entries_eq, hsort, foldl_greedyStep, List.nil_append, taken_map,
    List.filterMap_map]
  rfl

theorem mem_ratioOrder {i : Nat} : i ∈ ratioOrder nearest items ↔ i < items.length :=
  (List.perm_insertionSort _ _).mem_iff.trans List.mem_range

theorem ratioOrder_nodup : (ratioOrder nearest items).Nodup :=
  (List.perm_insertionSort _ _).nodup_iff.mpr List.nodup_range

theorem pair_range {a b n : Nat} (ha : a < n) (hb : b < n) :
    [a, b].Sublist (List.range n) ↔ a < b := by
  apply Iff.intro
  · intro h
    have hpair := (List.pairwise_lt_range (n := n)).sublist h
    exact (List.pairwise_cons.mp hpair).1 b List.mem_cons_self
  · intro h
    refine (StableSort.pair_or_pair (List.mem_range.mpr ha) (List.mem_range.mpr hb)
      (Nat.ne_of_lt h)).resolve_right fun h' => ?_
    have hpair := (List.pairwise_lt_range (n := n)).sublist h'
    have hlt := (List.pairwise_cons.mp hpair).1 a List.mem_cons_self
    omega

/-- Among numbers the ratios are in an order, and equal ones stay in the order of the items. -/
theorem pair_ratioOrder_iff {a b : Nat} (hnum : ∀ i < items.length, ratioAt nearest items i ≠ .nan)
    (ha : a < items.length) (hb : b < items.length) :
    [a, b].Sublist (ratioOrder nearest items) ↔
      F32.lt (ratioAt nearest items b) (ratioAt nearest items a) ∨
        ¬ F32.lt (ratioAt nearest items a) (ratioAt nearest items b) ∧ a < b := by
  let r : Nat → Nat → Prop := fun a b =>
    (ratioAt nearest items b).place ≤ (ratioAt nearest items a).place
  have hlt : ∀ a < items.length, ∀ b < items.length,
      (¬ F32.lt (ratioAt nearest items a) (ratioAt nearest items b) = true ↔ r a b) := by
    intro a ha b hb
    rw [F32.lt_iff_place (hnum a ha) (hnum b hb), not_lt]
  have : DecidableRel r := fun _ _ => Classical.dec _
  have : Std.Total r := ⟨fun _ _ => le_total _ _⟩
  have : IsTrans Nat r := ⟨fun _ _ _ hab hbc => le_trans hbc hab⟩
  have hsort : ratioOrder nearest items = (List.range items.length).insertionSort r := by
    have hmap := List.map_insertionSort
      (fun a b => ¬ F32.lt (ratioAt nearest items a) (ratioAt nearest items b)) r id
      (List.range items.length) fun a ha b hb =>
        hlt a (List.mem_range.mp ha) b (List.mem_range.mp hb)
    simpa [ratioOrder] using hmap
  rw [hsort, StableSort.pair_insertionSort_iff r List.nodup_range (List.mem_range.mpr ha)
    (List.mem_range.mpr hb), pair_range ha hb, ← hlt a ha b hb, ← hlt b hb a ha, not_not]

/-! ### Both paths -/

theorem selected_eq (nearest : ℚ → F32) (items : List (Node × F32)) (tokenBudget : Nat) :
    selected nearest items tokenBudget =
      (ZeroOne.readBack (costAt items) (ZeroOne.bestUpTo (costAt items)
        (valueAt nearest items) F32.u32Max) items.length tokenBudget).insertionSort
          fun a b => valueAt nearest items b ≤ valueAt nearest items a := by
  rw [selected, backtrack_eq_readBack filled_fillTable (Nat.lt_succ_self tokenBudget)]
  rfl

theorem mem_positions_iff {i : Nat} :
    i ∈ positions nearest items tokenBudget ↔ Chosen nearest items tokenBudget i := by
  rw [positions, Chosen]
  split_ifs with hnone hfalls hfalls
  · refine iff_of_false List.not_mem_nil fun h => ?_
    have hmem := mem_ratioOrder.mp ((FirstFit.taken_sublist _ _).subset h.2)
    have hlen := hfalls.2
    rcases hnone with hmax | hempty | hzero
    · omega
    · rw [List.isEmpty_iff.mp hempty] at hmem
      exact Nat.not_lt_zero i hmem
    · rw [hzero, saturatingMul, Nat.mul_zero, Nat.zero_min] at hlen
      exact Nat.not_lt_zero _ hlen
  · refine iff_of_false List.not_mem_nil fun h => ?_
    have hlt := ZeroOne.readBack_lt h.2
    rcases hnone with hmax | hempty | hzero
    · omega
    · rw [List.isEmpty_iff.mp hempty] at hlt
      exact Nat.not_lt_zero i hlt
    · have hcost : ((ZeroOne.readBack (costAt items) (ZeroOne.bestUpTo (costAt items)
          (valueAt nearest items) F32.u32Max) items.length tokenBudget).map (costAt items)).sum ≤
          tokenBudget :=
        ZeroOne.readBack_cost (fun _ _ h => ZeroOne.cost_le_of_bestUpTo_ne h) _ _
      have hle := List.single_le_sum (fun _ _ => Nat.zero_le _) _
        (List.mem_map_of_mem (f := costAt items) h.2)
      have hpos := costAt_pos hlt
      omega
  · exact ⟨fun h => ⟨hfalls.1, h⟩, And.right⟩
  · have hmax : tokenBudget ≤ maxContextBudget := Nat.not_lt.mp fun h => hnone (Or.inl h)
    rw [selected_eq, (List.perm_insertionSort _ _).mem_iff]
    exact ⟨fun h => ⟨hmax, h⟩, And.right⟩

theorem chosen_lt {i : Nat} (h : Chosen nearest items tokenBudget i) : i < items.length := by
  have hin := h.2
  split_ifs at hin with hfalls
  · exact mem_ratioOrder.mp ((FirstFit.taken_sublist _ _).subset hin)
  · exact ZeroOne.readBack_lt hin

theorem positions_nodup : (positions nearest items tokenBudget).Nodup := by
  rw [positions]
  split_ifs
  · exact List.nodup_nil
  · exact ratioOrder_nodup.sublist (FirstFit.taken_sublist _ _)
  · rw [selected_eq]
    exact (List.perm_insertionSort _ _).nodup_iff.mpr (ZeroOne.readBack_nodup _ _)

theorem nodes_positions : knapsack nearest items tokenBudget =
    (positions nearest items tokenBudget).filterMap fun i => items[i]?.map Prod.fst := by
  rw [knapsack, positions]
  by_cases hmax : maxContextBudget < tokenBudget
  · rw [if_pos hmax, if_pos (Or.inl hmax)]
    rfl
  · by_cases hempty : items.isEmpty ∨ tokenBudget = 0
    · rw [if_neg hmax, if_pos hempty, if_pos (Or.inr hempty)]
      rfl
    · have hnone : ¬ (maxContextBudget < tokenBudget ∨ items.isEmpty ∨ tokenBudget = 0) :=
        not_or.mpr ⟨hmax, hempty⟩
      rw [if_neg hmax, if_neg hempty, if_neg hnone]
      by_cases hcells : dpCellLimit < saturatingMul items.length tokenBudget
      · rw [if_pos hcells, if_pos ⟨Nat.not_lt.mp hmax, hcells⟩, knapsackGreedy_eq]
      · rw [if_neg hcells, if_neg fun h : Falls items tokenBudget => hcells h.2]

theorem withinBudget_positions :
    ((positions nearest items tokenBudget).map (costAt items)).sum ≤
      min tokenBudget maxContextBudget := by
  rw [positions]
  split_ifs with hnone hfalls
  · exact Nat.zero_le _
  · rw [Nat.min_eq_left hfalls.1]
    exact FirstFit.taken_cost _ _
  · have hmax : tokenBudget ≤ maxContextBudget := Nat.not_lt.mp fun h => hnone (Or.inl h)
    rw [Nat.min_eq_left hmax, selected_eq, ((List.perm_insertionSort _ _).map _).sum_eq]
    exact ZeroOne.readBack_cost (fun _ _ h => ZeroOne.cost_le_of_bestUpTo_ne h) _ _

theorem maximal_positions (h : Falls items tokenBudget) {i : Nat} (hi : i < items.length)
    (hnot : i ∉ positions nearest items tokenBudget) :
    tokenBudget - ((positions nearest items tokenBudget).map (costAt items)).sum <
      costAt items i := by
  have hnone : ¬ (maxContextBudget < tokenBudget ∨ items.isEmpty ∨ tokenBudget = 0) := by
    rintro (hmax | hempty | hzero)
    · exact absurd h.1 (Nat.not_le.mpr hmax)
    · rw [List.isEmpty_iff.mp hempty] at hi
      exact Nat.not_lt_zero i hi
    · have hlen := h.2
      rw [hzero, saturatingMul, Nat.mul_zero, Nat.zero_min] at hlen
      exact Nat.not_lt_zero _ hlen
  rw [positions, if_neg hnone, if_pos h] at hnot ⊢
  exact FirstFit.lt_cost_of_not_taken (mem_ratioOrder.mpr hi) hnot

theorem pair_positions_iff {a b : Nat}
    (hnum : Falls items tokenBudget → ∀ i < items.length, ratioAt nearest items i ≠ .nan)
    (ha : Chosen nearest items tokenBudget a) (hb : Chosen nearest items tokenBudget b)
    (hne : a ≠ b) :
    [a, b].Sublist (positions nearest items tokenBudget) ↔
      Ahead nearest items tokenBudget a b := by
  have hpa := mem_positions_iff.mpr ha
  have hpb := mem_positions_iff.mpr hb
  have hlta := chosen_lt ha
  have hltb := chosen_lt hb
  rw [positions] at hpa hpb ⊢
  rw [Ahead]
  split_ifs at hpa hpb ⊢ with hnone hfalls hfalls
  · exact absurd hpa List.not_mem_nil
  · exact absurd hpa List.not_mem_nil
  · rw [← pair_ratioOrder_iff (hnum hfalls) hlta hltb]
    refine ⟨fun h => h.trans (FirstFit.taken_sublist _ _), fun h => ?_⟩
    refine (StableSort.pair_or_pair hpa hpb hne).resolve_right fun h' => ?_
    exact StableSort.not_pair_of_pair ratioOrder_nodup h (h'.trans (FirstFit.taken_sublist _ _))
  · rw [selected_eq] at hpa hpb ⊢
    have hma := (List.perm_insertionSort _ _).mem_iff.mp hpa
    have hmb := (List.perm_insertionSort _ _).mem_iff.mp hpb
    have hdown : (ZeroOne.readBack (costAt items) (ZeroOne.bestUpTo (costAt items)
        (valueAt nearest items) F32.u32Max) items.length tokenBudget).Pairwise fun a b => b < a :=
      ZeroOne.readBack_pairwise _ _
    have hpair : [a, b].Sublist (ZeroOne.readBack (costAt items) (ZeroOne.bestUpTo (costAt items)
        (valueAt nearest items) F32.u32Max) items.length tokenBudget) ↔ b < a := by
      apply Iff.intro
      · intro h
        exact (List.pairwise_cons.mp (hdown.sublist h)).1 b List.mem_cons_self
      · intro h
        refine (StableSort.pair_or_pair hma hmb hne).resolve_right fun h' => ?_
        have hlt := (List.pairwise_cons.mp (hdown.sublist h')).1 a List.mem_cons_self
        omega
    have : Std.Total fun a b => valueAt nearest items b ≤ valueAt nearest items a :=
      ⟨fun _ _ => le_total _ _⟩
    have : IsTrans Nat fun a b => valueAt nearest items b ≤ valueAt nearest items a :=
      ⟨fun _ _ _ hab hbc => le_trans hbc hab⟩
    rw [StableSort.pair_insertionSort_iff _ (ZeroOne.readBack_nodup _ _) hma hmb, hpair]
    omega

/-- Both paths answer distinct positions within the budget, and the fallback leaves out nothing
that still fits; the answer is in the order of the scores exactly where the sort of the path puts
no chosen item before one of a higher score. -/
theorem contract_iff (nearest : ℚ → F32) (items : List (Node × F32)) (tokenBudget : Nat)
    (hnum : Falls items tokenBudget → ∀ i < items.length, ratioAt nearest items i ≠ .nan) :
    Contract nearest items tokenBudget (positions nearest items tokenBudget) ↔
      ∀ a b, Chosen nearest items tokenBudget a → Chosen nearest items tokenBudget b →
        F32.lt (scoreAt items a) (scoreAt items b) → ¬ Ahead nearest items tokenBudget a b := by
  have hirrefl : ∀ x : F32, F32.lt x x = false := by
    intro x
    cases x with
    | nan => rfl
    | infinite negative => cases negative <;> rfl
    | finite x => simp [F32.lt]
  apply Iff.intro
  · intro h a b ha hb hlt hahead
    have hne : a ≠ b := fun heq => by simp [heq, hirrefl] at hlt
    have hpair := h.ordered.sublist ((pair_positions_iff hnum ha hb hne).mpr hahead)
    exact (List.pairwise_cons.mp hpair).1 b List.mem_cons_self hlt
  · intro h
    refine ⟨positions_nodup, fun i hi => chosen_lt (mem_positions_iff.mp hi), nodes_positions,
      withinBudget_positions, ?_, fun hfalls i hi hnot => maximal_positions hfalls hi hnot⟩
    rw [List.pairwise_iff_forall_sublist]
    intro a b hab hlt
    have ha := mem_positions_iff.mp (hab.subset List.mem_cons_self)
    have hb := mem_positions_iff.mp (hab.subset (List.mem_cons_of_mem a List.mem_cons_self))
    have hne : a ≠ b := fun heq => by simp [heq, hirrefl] at hlt
    exact h a b ha hb hlt ((pair_positions_iff hnum ha hb hne).mp hab)

/-- A costly function of a high score before cheap ones of a lower score, enough of them for the
fallback. -/
def crowd : List (Node × F32) :=
  (⟨1, ⟨"a", "", "src/context/assembly.rs", "rust", "fn:assemble_context"⟩, "function", "", none,
    none, .none⟩, .finite (9 / 10)) ::
  List.replicate 31
    (⟨2, ⟨"a", "", "a.rs", "rust", "fn:x"⟩, "function", "", none, none, .none⟩, .finite (1 / 2))

theorem crowd_ascends :
    ¬ Contract F32.finite crowd 32000 (positions F32.finite crowd 32000) :=
  fun h => absurd h.ordered (by decide +kernel)

theorem contract_iff_crowd :
    (∀ i < crowd.length, ratioAt F32.finite crowd i ≠ .nan) ∧
      (Contract F32.finite crowd 32000 (positions F32.finite crowd 32000) ↔
        ∀ a b, Chosen F32.finite crowd 32000 a → Chosen F32.finite crowd 32000 b →
          F32.lt (scoreAt crowd a) (scoreAt crowd b) → ¬ Ahead F32.finite crowd 32000 a b) := by
  have hnum : ∀ i < crowd.length, ratioAt F32.finite crowd i ≠ .nan := by decide +kernel
  exact ⟨hnum, contract_iff F32.finite crowd 32000 fun _ => hnum⟩

/-- The exact path too: two scores of one integer value come in the order of the later position. -/
example : (positions F32.finite [(⟨1, ⟨"a", "", "a.rs", "rust", "fn:x"⟩, "function", "", none,
    none, .none⟩, .finite (3 / 10000000)), (⟨2, ⟨"a", "", "a.rs", "rust", "fn:y"⟩, "function", "",
    none, none, .none⟩, .finite (1 / 10000000))] 100) = [1, 0] := by
  decide +kernel

end Knapsack

end Travsr.Retrieval
