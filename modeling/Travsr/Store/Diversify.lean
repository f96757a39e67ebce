import Mathlib.Data.List.FinRange
import Mathlib.Data.List.TakeWhile
import Mathlib.Data.Rat.Floor
import Mathlib.Tactic.Linarith
import Travsr.Core.Types
import Travsr.Lib.RoundRobin

namespace Travsr.Store

open Travsr.Core

/-- `diversify_band`: the kinds take turns, each in its own order. -/
def diversifyBand (band : List (Node × ℚ)) : List (Node × ℚ) :=
  RoundRobin.interleave (fun e => e.1.kind) band

def bandLen (epsilon : ℚ) (leader : Node × ℚ × ℚ) (fused : List (Node × ℚ × ℚ)) : Nat :=
  max (fused.takeWhile fun e => leader.2.1 * (1 - epsilon) ≤ e.2.1).length 1

def bandStep (epsilon : ℚ) (st : List (Node × ℚ × ℚ) × List (Node × ℚ)) :
    Option (List (Node × ℚ × ℚ) × List (Node × ℚ)) :=
  st.1.head?.map fun leader =>
    let len := bandLen epsilon leader st.1
    (st.1.drop len, st.2 ++ diversifyBand ((st.1.take len).map fun e => (e.1, e.2.2)))

/-- `diversify_topk` on nodes with their fused and their natural score, under the band width read
from the environment. -/
def diversifyTopk (epsilon : ℚ) (fused : List (Node × ℚ × ℚ)) : List (Node × ℚ) :=
  if fused.length ≤ 2 then fused.map fun e => (e.1, e.2.2)
  else (Loop.iterate (bandStep epsilon) fused.length (fused, [])).2

variable {epsilon : ℚ} {fused : List (Node × ℚ × ℚ)}

def kindAt (fused : List (Node × ℚ × ℚ)) (i : Fin fused.length) : String := (fused.get i).1.kind

def scoreAt (fused : List (Node × ℚ × ℚ)) (i : Fin fused.length) : ℚ := (fused.get i).2.1

def entryAt (fused : List (Node × ℚ × ℚ)) (i : Fin fused.length) : Node × ℚ :=
  ((fused.get i).1, (fused.get i).2.2)

/-- What may stand before what: nodes of a kind in their order, and none before a node that is
ahead by more than the band's width. -/
def Kept (epsilon : ℚ) (fused : List (Node × ℚ × ℚ)) (i j : Fin fused.length) : Prop :=
  (kindAt fused i = kindAt fused j → i < j) ∧
    ¬ scoreAt fused i < scoreAt fused j * (1 - epsilon)

/-- The scores descend and are positive. -/
structure Ranked (fused : List (Node × ℚ × ℚ)) : Prop where
  sorted : fused.Pairwise fun a b => b.2.1 ≤ a.2.1
  positive : ∀ e ∈ fused, 0 < e.2.1

theorem Ranked.le {i j : Fin fused.length} (h : Ranked fused) (hij : i ≤ j) :
    scoreAt fused j ≤ scoreAt fused i := by
  by_cases heq : i = j
  · rw [heq]
  · exact List.pairwise_iff_getElem.mp h.sorted i j i.isLt j.isLt
      (Nat.lt_of_le_of_ne hij fun h => heq (Fin.ext h))

theorem Ranked.floor_le (h : Ranked fused) (hε : 0 ≤ epsilon) (i : Fin fused.length) :
    scoreAt fused i * (1 - epsilon) ≤ scoreAt fused i := by
  have hpos : 0 < scoreAt fused i := h.positive _ (List.get_mem fused i)
  have hmul := mul_nonneg hpos.le hε
  linarith

theorem Ranked.kept {i j : Fin fused.length} (h : Ranked fused) (hε : 0 ≤ epsilon) (hij : i < j) :
    Kept epsilon fused i j :=
  ⟨fun _ => hij, not_lt.mpr ((h.floor_le hε j).trans (h.le hij.le))⟩

/-! ### One band -/

section

variable {i : Fin fused.length} {idx : List (Fin fused.length)}

def lenAt (epsilon : ℚ) (fused : List (Node × ℚ × ℚ)) (i : Fin fused.length)
    (idx : List (Fin fused.length)) : Nat :=
  bandLen epsilon (fused.get i) ((i :: idx).map fused.get)

theorem lenAt_pos : 1 ≤ lenAt epsilon fused i idx := Nat.le_max_right _ _

theorem floor_le_of_mem_band {j : Fin fused.length} (h : Ranked fused) (hε : 0 ≤ epsilon)
    (hj : j ∈ (i :: idx).take (lenAt epsilon fused i idx)) :
    scoreAt fused i * (1 - epsilon) ≤ scoreAt fused j := by
  let within : Node × ℚ × ℚ → Bool := fun e => scoreAt fused i * (1 - epsilon) ≤ e.2.1
  have hleader : within (fused.get i) = true := decide_eq_true (h.floor_le hε i)
  have hlen : lenAt epsilon fused i idx =
      (((i :: idx).map fused.get).takeWhile within).length := by
    refine Nat.max_eq_left ?_
    show 1 ≤ (((i :: idx).map fused.get).takeWhile within).length
    rw [List.map_cons, List.takeWhile_cons_of_pos hleader]
    exact Nat.le_add_left 1 _
  have hband : fused.get j ∈ ((i :: idx).map fused.get).takeWhile within := by
    rw [List.prefix_iff_eq_take.mp (List.takeWhile_prefix (l := (i :: idx).map fused.get) within),
      ← hlen, ← List.map_take]
    exact List.mem_map_of_mem hj
  have hwithin : within (fused.get j) = true := List.mem_takeWhile_imp hband
  exact of_decide_eq_true hwithin

theorem kept_band (h : Ranked fused) (hε : 0 ≤ epsilon) (hε1 : epsilon ≤ 1)
    (hidx : (i :: idx).Pairwise (· < ·)) :
    (RoundRobin.interleave (kindAt fused)
      ((i :: idx).take (lenAt epsilon fused i idx))).Pairwise (Kept epsilon fused) := by
  have hkinds := @RoundRobin.pairwise_interleave _ _ (kindAt fused) _ _ _
    (hidx.sublist (List.take_sublist (lenAt epsilon fused i idx) (i :: idx)))
  have hperm := RoundRobin.interleave_perm (kindAt fused)
    ((i :: idx).take (lenAt epsilon fused i idx))
  refine hkinds.imp_of_mem fun {a b} ha hb hab => ⟨hab, not_lt.mpr ?_⟩
  have hfloor : scoreAt fused i * (1 - epsilon) ≤ scoreAt fused a :=
    floor_le_of_mem_band h hε (hperm.mem_iff.mp ha)
  have hlead : i ≤ b := by
    cases List.mem_cons.mp (List.mem_of_mem_take (hperm.mem_iff.mp hb)) with
    | inl heq => exact le_of_eq heq.symm
    | inr hmem => exact ((List.pairwise_cons.mp hidx).1 b hmem).le
  calc scoreAt fused b * (1 - epsilon) ≤ scoreAt fused i * (1 - epsilon) :=
        mul_le_mul_of_nonneg_right (h.le hlead) (by linarith)
    _ ≤ scoreAt fused a := hfloor

theorem bandStep_map (out : List (Node × ℚ)) :
    bandStep epsilon ((i :: idx).map fused.get, out) =
      some (((i :: idx).drop (lenAt epsilon fused i idx)).map fused.get,
        out ++ (RoundRobin.interleave (kindAt fused)
          ((i :: idx).take (lenAt epsilon fused i idx))).map (entryAt fused)) := by
  have hband : diversifyBand ((((i :: idx).map fused.get).take (lenAt epsilon fused i idx)).map
      fun e => (e.1, e.2.2)) =
      (RoundRobin.interleave (kindAt fused)
        ((i :: idx).take (lenAt epsilon fused i idx))).map (entryAt fused) := by
    rw [diversifyBand, ← List.map_take, List.map_map]
    exact RoundRobin.interleave_map (fun e : Node × ℚ => e.1.kind) (entryAt fused) _
  rw [← hband, List.map_drop]
  rfl

end

/-! ### All bands -/

theorem bands_spec (h : Ranked fused) (hε : 0 ≤ epsilon) (hε1 : epsilon ≤ 1) (fuel : Nat) :
    ∀ (idx : List (Fin fused.length)) (out : List (Node × ℚ)),
      idx.length ≤ fuel → idx.Pairwise (· < ·) →
        ∃ order : List (Fin fused.length), order.Perm idx ∧ order.head? = idx.head? ∧
          order.Pairwise (Kept epsilon fused) ∧
          (Loop.iterate (bandStep epsilon) fuel (idx.map fused.get, out)).2 =
            out ++ order.map (entryAt fused) := by
  induction fuel with
  | zero =>
    intro idx out hlen _
    have hnil : idx = [] := List.length_eq_zero_iff.mp (Nat.le_zero.mp hlen)
    subst hnil
    exact ⟨[], List.Perm.nil, rfl, List.Pairwise.nil, (List.append_nil out).symm⟩
  | succ fuel ih =>
    intro idx out hlen hidx
    cases idx with
    | nil => exact ⟨[], List.Perm.nil, rfl, List.Pairwise.nil, (List.append_nil out).symm⟩
    | cons i idx =>
      have hpos := @lenAt_pos epsilon fused i idx
      have hstep := @bandStep_map epsilon fused i idx out
      have hkeptBand := @kept_band epsilon fused i idx h hε hε1 hidx
      generalize lenAt epsilon fused i idx = len at hpos hstep hkeptBand
      have hband := RoundRobin.interleave_perm (kindAt fused) ((i :: idx).take len)
      have hhead := RoundRobin.head?_interleave (kindAt fused) ((i :: idx).take len)
      generalize RoundRobin.interleave (kindAt fused) ((i :: idx).take len) = band
        at hstep hkeptBand hband hhead
      have hdrop : ((i :: idx).drop len).length ≤ fuel := by
        rw [List.length_drop]
        omega
      obtain ⟨order, hperm, _, hkept, hloop⟩ := ih ((i :: idx).drop len)
        (out ++ band.map (entryAt fused)) hdrop (hidx.sublist (List.drop_sublist _ _))
      refine ⟨band ++ order, ?_, ?_, ?_, ?_⟩
      · have hall := hband.append hperm
        rwa [List.take_append_drop] at hall
      · obtain ⟨m, rfl⟩ : ∃ m, len = m + 1 := ⟨len - 1, by omega⟩
        rw [List.head?_append, hhead]
        rfl
      · refine List.pairwise_append.mpr ⟨hkeptBand, hkept, ?_⟩
        intro a ha b hb
        have hcross := hidx
        rw [← List.take_append_drop len (i :: idx), List.pairwise_append] at hcross
        exact h.kept hε (hcross.2.2 a (hband.mem_iff.mp ha) b (hperm.mem_iff.mp hb))
      · rw [Loop.iterate_succ_of_some hstep, hloop, List.map_append, List.append_assoc]

/-- Near ties are reordered and nothing else: no node is lost or comes twice, the nodes of a kind
keep their order, the best node stays first, and a node that is ahead by more than the width of a
band stays ahead. -/
theorem diversifyTopk_spec (epsilon : ℚ) (fused : List (Node × ℚ × ℚ)) (h : Ranked fused)
    (hε : 0 ≤ epsilon) (hε1 : epsilon < 1) :
    ∃ order : List (Fin fused.length), order.Perm (List.finRange fused.length) ∧
      diversifyTopk epsilon fused = order.map (entryAt fused) ∧
      order.head? = (List.finRange fused.length).head? ∧
      order.Pairwise (Kept epsilon fused) := by
  have hsorted : (List.finRange fused.length).Pairwise (· < ·) := List.pairwise_lt_finRange _
  have hall : (List.finRange fused.length).map fused.get = fused := List.map_get_finRange fused
  rw [diversifyTopk]
  split_ifs with hshort
  · refine ⟨List.finRange fused.length, List.Perm.refl _, ?_, rfl,
      hsorted.imp fun hij => h.kept hε hij⟩
    have hentries := congrArg (List.map fun e : Node × ℚ × ℚ => (e.1, e.2.2)) hall
    rw [List.map_map] at hentries
    exact hentries.symm
  · obtain ⟨order, hperm, hhead, hkept, hloop⟩ := bands_spec h hε hε1.le fused.length
      (List.finRange fused.length) [] (by rw [List.length_finRange]) hsorted
    rw [hall] at hloop
    exact ⟨order, hperm, hloop, hhead, hkept⟩

/-- Three functions and a file, the last two too far behind for the first band. -/
def ranking : List (Node × ℚ × ℚ) :=
  [(⟨1, ⟨"a", "", "a.rs", "rust", "fn:x"⟩, "function", "", none, none, .none⟩, 1, 7),
    (⟨2, ⟨"a", "", "b.rs", "rust", "fn:y"⟩, "function", "", none, none, .none⟩, 99 / 100, 6),
    (⟨3, ⟨"a", "", "c.json", "json", "file"⟩, "file", "", none, none, .none⟩, 98 / 100, 5),
    (⟨4, ⟨"a", "", "d.rs", "rust", "fn:z"⟩, "function", "", none, none, .none⟩, 1 / 2, 4)]

theorem diversifyTopk_spec_ranking :
    (diversifyTopk (1 / 20) ranking).map (fun e => e.1.id) = [1, 3, 2, 4] ∧
      ∃ order : List (Fin ranking.length), order.Perm (List.finRange ranking.length) ∧
        diversifyTopk (1 / 20) ranking = order.map (entryAt ranking) ∧
        order.head? = (List.finRange ranking.length).head? ∧
        order.Pairwise (Kept (1 / 20) ranking) :=
  ⟨by decide +kernel, diversifyTopk_spec (1 / 20) ranking ⟨by decide +kernel, by decide +kernel⟩
    (by decide +kernel) (by decide +kernel)⟩

end Travsr.Store
