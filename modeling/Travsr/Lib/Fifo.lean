import Mathlib.Algebra.GroupWithZero.Nat
import Mathlib.Algebra.Order.BigOperators.Group.List
import Mathlib.Algebra.Order.Group.Nat
import Mathlib.Data.List.Nodup
import Mathlib.Logic.Relation
import Travsr.Lib.Loop

/-! Loops over a queue: each step takes the head and appends entries one level deeper. -/

namespace Fifo

open Loop

variable {σ β : Type*} {step : σ → Option σ} {queue : σ → List β} {depth : β → Nat} {s t u : σ}

def Leads (step : σ → Option σ) : σ → σ → Prop := Relation.ReflTransGen fun s t => step s = some t

theorem leads_iterate (step : σ → Option σ) (fuel : Nat) (s : σ) :
    Leads step s (iterate step fuel s) :=
  iterate_invariant (P := Leads step s) (fun _ _ h hst => h.tail hst) fuel s .refl

theorem Leads.invariant {P : σ → Prop} (h : Leads step s t)
    (hstep : ∀ u v, Leads step s u → P u → step u = some v → P v) (hs : P s) : P t := by
  induction h with
  | refl => exact hs
  | tail hu hv ih => exact hstep _ _ hu ih hv

theorem Leads.to_end (ht : Leads step s t) (hu : Leads step s u) (hend : step u = none) :
    Leads step t u := by
  have hdet : Relator.RightUnique fun s t => step s = some t := by
    intro a b c hb hc
    exact Option.some.inj (hb.symm.trans hc)
  rcases Relation.ReflTransGen.total_of_right_unique hdet ht hu with h | h
  · exact h
  · rcases Relation.ReflTransGen.cases_head h with heq | ⟨v, hv, -⟩
    · rw [heq]
      exact .refl
    · rw [hend] at hv
      cases hv

/-- The loop ends on an empty queue; a step takes the head and queues entries one deeper. -/
structure Drains (step : σ → Option σ) (queue : σ → List β) (depth : β → Nat) : Prop where
  stop : ∀ s, queue s = [] → step s = none
  next : ∀ s a rest, queue s = a :: rest → ∃ t added, step s = some t ∧
    queue t = rest ++ added ∧ ∀ b ∈ added, depth b = depth a + 1

variable (hd : Drains step queue depth)

include hd

theorem Drains.queue_of_step (h : step s = some t) :
    ∃ a rest added, queue s = a :: rest ∧ queue t = rest ++ added ∧
      ∀ b ∈ added, depth b = depth a + 1 := by
  cases hq : queue s with
  | nil =>
    rw [hd.stop s hq] at h
    cases h
  | cons a rest =>
    obtain ⟨t', added, ht, hq', hdepth⟩ := hd.next s a rest hq
    rw [h] at ht
    exact ⟨a, rest, added, rfl, Option.some.inj ht ▸ hq', hdepth⟩

theorem Drains.queue_of_end (h : step s = none) : queue s = [] := by
  cases hq : queue s with
  | nil => rfl
  | cons a rest =>
    obtain ⟨t, -, ht, -⟩ := hd.next s a rest hq
    rw [h] at ht
    cases ht

theorem Drains.comes (h : Leads step s t) {b : β} (hb : b ∈ queue t) :
    ∃ v rest, Leads step t v ∧ Leads step s v ∧ queue v = b :: rest := by
  obtain ⟨before, after, hq⟩ := List.append_of_mem hb
  induction before generalizing t after with
  | nil => exact ⟨t, after, .refl, h, hq⟩
  | cons a before ih =>
    obtain ⟨t', added, ht, hq', -⟩ := hd.next t a (before ++ b :: after) hq
    have hstep : Leads step t t' := .single ht
    have hqueue : queue t' = before ++ b :: (after ++ added) := by
      rw [hq', List.append_assoc, List.cons_append]
    have hmem : b ∈ queue t' := by
      rw [hqueue]
      exact List.mem_append_right _ List.mem_cons_self
    obtain ⟨v, rest, htv, hsv, hv⟩ := ih (h.tail ht) hmem (after ++ added) hqueue
    exact ⟨v, rest, hstep.trans htv, hsv, hv⟩

def Sorted (queue : σ → List β) (depth : β → Nat) (s : σ) : Prop :=
  (queue s).Pairwise (fun a b => depth a ≤ depth b) ∧
    ∀ a ∈ (queue s).head?, ∀ b ∈ queue s, depth b ≤ depth a + 1

theorem Drains.sorted_step (hs : Sorted queue depth s) (h : step s = some t) :
    Sorted queue depth t := by
  obtain ⟨a, rest, added, hq, hq', hdepth⟩ := hd.queue_of_step h
  have hhead : a ∈ (queue s).head? := by
    rw [hq]
    rfl
  have hspan := hs.2 a hhead
  have hsorted := hs.1
  rw [hq, List.pairwise_cons] at hsorted
  have hrest : ∀ b ∈ rest, depth b ≤ depth a + 1 := fun b hb =>
    hspan b (hq ▸ List.mem_cons_of_mem a hb)
  refine ⟨?_, ?_⟩
  · rw [hq', List.pairwise_append]
    refine ⟨hsorted.2, List.pairwise_of_forall_mem_list fun b hb c hc => ?_, fun b hb c hc => ?_⟩
    · rw [hdepth b hb, hdepth c hc]
    · rw [hdepth c hc]
      exact hrest b hb
  · intro c hc b hb
    rw [hq'] at hc hb
    have hb' : depth b ≤ depth a + 1 := by
      rcases List.mem_append.mp hb with hb | hb
      · exact hrest b hb
      · exact (hdepth b hb).le
    have hc' : depth a ≤ depth c := by
      rcases List.mem_append.mp (List.mem_of_mem_head? hc) with hc | hc
      · exact hsorted.1 c hc
      · have := hdepth c hc
        omega
    omega

theorem Drains.sorted (hs : Sorted queue depth s) (h : Leads step s t) : Sorted queue depth t :=
  h.invariant (fun _ _ _ hu huv => hd.sorted_step hu huv) hs

theorem Drains.depth_mono (hs : Sorted queue depth s) (h : Leads step s t) {a b : β}
    {rest rest' : List β} (ha : queue s = a :: rest) (hb : queue t = b :: rest') :
    depth a ≤ depth b := by
  have hinv : ∀ c ∈ queue t, depth a ≤ depth c := by
    refine h.invariant (P := fun v => ∀ c ∈ queue v, depth a ≤ depth c) ?_ ?_
    · intro v w _ hv hvw c hc
      obtain ⟨d, tail, added, hq, hq', hdepth⟩ := hd.queue_of_step hvw
      rw [hq'] at hc
      rcases List.mem_append.mp hc with hc | hc
      · exact hv c (hq ▸ List.mem_cons_of_mem d hc)
      · have := hv d (hq ▸ List.mem_cons_self)
        have := hdepth c hc
        omega
    · intro c hc
      have hsorted := hs.1
      rw [ha, List.pairwise_cons] at hsorted
      rw [ha] at hc
      rcases List.mem_cons.mp hc with rfl | hc
      · exact le_rfl
      · exact hsorted.1 c hc
  exact hinv b (hb ▸ List.mem_cons_self)

end Fifo

/-! A queue of entries with costs whose total keeps to a budget: room for an entry is made from the
front, and an entry under a key that is queued takes that one's place. -/

namespace FifoBudget

variable {ε κ : Type} [DecidableEq κ] (key : ε → κ) (cost : ε → Nat) (budget : Nat)

def total (q : List ε) : Nat := (q.map cost).sum

def weigh (k : κ) (q : List ε) : Nat := total cost (q.filter fun e => key e ≠ k)

/-- Drops from the front until the rest leaves room; what stands under `k` weighs nothing. -/
def drain (k : κ) (extra : Nat) : List ε → List ε
  | [] => []
  | e :: q => if budget < weigh key cost k (e :: q) + extra then drain k extra q else e :: q

def place (e : ε) (q : List ε) : List ε :=
  if ∃ x ∈ q, key x = key e then q.map fun x => if key x = key e then e else x else q ++ [e]

def enter (q : List ε) (e : ε) : List ε :=
  if budget < cost e then q else place key e (drain key cost budget (key e) (cost e) q)

variable {key cost budget} {k : κ} {extra : Nat} {q : List ε} {e : ε}

@[simp] theorem weigh_nil : weigh key cost k [] = 0 := rfl

theorem weigh_cons_self (h : key e = k) : weigh key cost k (e :: q) = weigh key cost k q := by
  rw [weigh, List.filter_cons_of_neg (by simpa using h)]
  rfl

theorem weigh_le_of_sublist {q' : List ε} (h : q'.Sublist q) :
    weigh key cost k q' ≤ weigh key cost k q := by
  exact ((h.filter _).map cost).sum_le_sum fun _ _ => Nat.zero_le _

/-! ### Making room -/

theorem drain_suffix (q : List ε) : drain key cost budget k extra q <:+ q := by
  induction q with
  | nil => exact List.suffix_rfl
  | cons e q ih =>
    rw [drain]
    split
    · exact ih.trans (List.suffix_cons e q)
    · exact List.suffix_rfl

theorem weigh_drain (hfit : extra ≤ budget) (q : List ε) :
    weigh key cost k (drain key cost budget k extra q) + extra ≤ budget := by
  induction q with
  | nil => simpa [drain] using hfit
  | cons e q ih =>
    rw [drain]
    split
    · exact ih
    · omega

theorem mem_drain {rank : ε → Nat} (sorted : q.Pairwise fun a b => rank a < rank b)
    (he : e ∈ q) :
    e ∈ drain key cost budget k extra q ↔
      weigh key cost k (q.filter fun x => rank e ≤ rank x) + extra ≤ budget := by
  induction q with
  | nil => simp at he
  | cons a q ih =>
    obtain ⟨ha, hq⟩ := List.pairwise_cons.mp sorted
    rw [drain]
    split
    · case isTrue hfull =>
      rcases List.mem_cons.mp he with rfl | he
      · -- everything from the front on is the whole queue
        have hall : (e :: q).filter (fun x => rank e ≤ rank x) = e :: q := by
          rw [List.filter_eq_self]
          intro x hx
          rcases List.mem_cons.mp hx with rfl | hx
          · simp
          · simpa using Nat.le_of_lt (ha x hx)
        have hout : e ∉ drain key cost budget k extra q := by
          intro h
          exact Nat.lt_irrefl _ (ha e ((drain_suffix q).subset h))
        rw [hall]
        constructor
        · exact fun h => absurd h hout
        · omega
      · have hlt := ha e he
        rw [ih hq he, List.filter_cons_of_neg (by simpa using hlt)]
    · case isFalse hroom =>
      have hle : weigh key cost k ((a :: q).filter fun x => rank e ≤ rank x) ≤ _ :=
        weigh_le_of_sublist List.filter_sublist
      simp only [he, true_iff]
      omega

/-! ### Taking a place -/

theorem map_key_place (e : ε) (q : List ε) :
    (place key e q).map key = if key e ∈ q.map key then q.map key else q.map key ++ [key e] := by
  have hiff : (∃ x ∈ q, key x = key e) ↔ key e ∈ q.map key := by simp
  simp only [place, hiff]
  split
  · rw [List.map_map]
    apply List.map_congr_left
    intro x _
    simp only [Function.comp_apply]
    split
    · exact (‹key x = key e›).symm
    · rfl
  · simp

theorem filter_of_not_mem (h : k ∉ q.map key) : (q.filter fun x => key x ≠ k) = q := by
  rw [List.filter_eq_self]
  intro x hx
  simpa using fun hk => h (List.mem_map.mpr ⟨x, hx, hk⟩)

theorem place_perm (e : ε) (nodup : (q.map key).Nodup) :
    (place key e q).Perm (q.filter (fun x => key x ≠ key e) ++ [e]) := by
  have hiff : (∃ x ∈ q, key x = key e) ↔ key e ∈ q.map key := by simp
  simp only [place, hiff]
  split
  · case isTrue h =>
    induction q with
    | nil => simp at h
    | cons a q ih =>
      obtain ⟨ha, hq⟩ := List.nodup_cons.mp nodup
      by_cases hae : key a = key e
      · -- the rest holds no entry under the key
        rw [hae] at ha
        have hsame : (q.map fun x => if key x = key e then e else x) = q := by
          conv_rhs => rw [← List.map_id q]
          apply List.map_congr_left
          intro x hx
          exact if_neg fun hxe => ha (List.mem_map.mpr ⟨x, hx, hxe⟩)
        rw [List.map_cons, if_pos hae, hsame, List.filter_cons_of_neg (by simpa using hae),
          filter_of_not_mem ha]
        exact (List.perm_append_singleton e q).symm
      · have htail : key e ∈ q.map key := (List.mem_cons.mp h).resolve_left (Ne.symm hae)
        rw [List.map_cons, if_neg hae, List.filter_cons_of_pos (by simpa using hae)]
        exact (ih hq (by simp) htail).cons a
  · case isFalse h => rw [filter_of_not_mem h]

theorem mem_place (nodup : (q.map key).Nodup) {x : ε} :
    x ∈ place key e q ↔ x = e ∨ (x ∈ q ∧ key x ≠ key e) := by
  rw [(place_perm e nodup).mem_iff]
  simp [or_comm]

theorem total_place (nodup : (q.map key).Nodup) :
    total cost (place key e q) = weigh key cost (key e) q + cost e := by
  rw [total, ((place_perm e nodup).map cost).sum_eq]
  simp [weigh, total]

end FifoBudget
