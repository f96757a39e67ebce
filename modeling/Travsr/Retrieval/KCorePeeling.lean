import Travsr.Lib.Buckets
import Travsr.Lib.Peeling
import Travsr.Retrieval.KCore

namespace Travsr.Retrieval.KCore

open Travsr.Core Store Relational Ppr Cells Buckets

variable {n top : Nat} {deg bin order pos : Nat → Nat}

/-! ### The counting sort -/

theorem foldlM_countNode {l : List Nat} {v : Array Nat} {f : Nat → Nat} (hl : ∀ d ∈ l, d < n)
    (h : Holds v n f) :
    ∃ w, l.foldlM countNode v = some w ∧ Holds w n fun d => f d + l.count d := by
  induction l generalizing v f with
  | nil => exact ⟨v, rfl, h.congr fun d _ => by simp⟩
  | cons d l ih =>
    obtain ⟨hd, hl⟩ := List.forall_mem_cons.mp hl
    obtain ⟨w, hw, hh⟩ := h.write hd (f d + 1)
    obtain ⟨w', hw', hh'⟩ := ih hl hh
    refine ⟨w', ?_, hh'.congr fun e _ => ?_⟩
    · rw [List.foldlM_cons, countNode, h.read d hd]
      show (Cells.write v d (f d + 1)).bind _ = _
      rw [hw]
      exact hw'
    · rw [Function.update_apply, List.count_cons]
      by_cases he : e = d
      · subst he
        simp
        omega
      · rw [if_neg he]
        simp [Ne.symm he]

theorem foldl_start (l : List Nat) (acc : Array Nat) (start : Nat) :
    (l.foldl (fun st cnt => (st.1.push st.2, st.2 + cnt)) (acc, start)).1.toList =
      acc.toList ++ (List.range l.length).map fun j => start + (l.take j).sum := by
  induction l generalizing acc start with
  | nil => simp
  | cons cnt l ih =>
    rw [List.foldl_cons, ih, List.length_cons, List.range_succ_eq_map]
    simp [Function.comp_def, Nat.add_assoc]

theorem startBins_holds {v : Array Nat} {f : Nat → Nat} (h : Holds v n f) :
    Holds (startBins v) n fun e => ((List.range e).map f).sum := by
  have hlist : v.toList = (List.range n).map f := by
    refine List.ext_getElem? fun i => ?_
    rw [Array.getElem?_toList]
    by_cases hi : i < n
    · rw [h.read i hi, List.getElem?_map, List.getElem?_range hi]
      rfl
    · rw [Array.getElem?_eq_none (by rw [h.size]; omega),
        List.getElem?_eq_none (by simpa using Nat.le_of_not_lt hi)]
  have hout : (startBins v).toList = (List.range n).map fun e => ((List.range e).map f).sum := by
    rw [startBins, ← Array.foldl_toList, foldl_start, hlist]
    simp only [List.nil_append, List.length_map, List.length_range, Nat.zero_add]
    refine List.map_congr_left fun e he => ?_
    rw [← List.map_take, List.take_range, Nat.min_eq_left (List.mem_range.mp he).le]
  refine ⟨?_, fun i hi => ?_⟩
  · rw [← Array.length_toList, hout, List.length_map, List.length_range]
  · rw [← Array.getElem?_toList, hout, List.getElem?_map, List.getElem?_range hi]
    rfl

theorem count_map_range (n d : Nat) (deg : Nat → Nat) :
    ((List.range n).map deg).count d = count n deg (· = d) := by
  induction n with
  | zero => rfl
  | succ n ih =>
    rw [List.range_succ, List.map_append, List.count_append, ih, count_succ]
    simp [List.count_singleton]

theorem sum_count (n e : Nat) (deg : Nat → Nat) :
    ((List.range e).map fun d => count n deg (· = d)).sum = count n deg (· < e) := by
  induction e with
  | zero => simp [count]
  | succ e ih =>
    rw [List.range_succ, List.map_append, List.sum_append, ih, count_lt_succ]
    simp

/-- The placement loop after `m` nodes. -/
structure PlacedTo (n top : Nat) (deg : Nat → Nat) (m : Nat) (st : Placed) (order : Nat → Nat) :
    Prop where
  at_rank : ∀ v < m, order (rank n deg v) = v
  pos : Holds st.pos n fun v => if v < m then rank n deg v else 0
  order : Holds st.order n order
  cur : Holds st.binCur (top + 1) fun d => count n deg (· < d) + count m deg (· = d)

theorem place_spec {degree : Array Nat} {m : Nat} {st : Placed} (hdeg : Holds degree n deg)
    (htop : ∀ v < n, deg v ≤ top) (hm : m < n) (h : PlacedTo n top deg m st order) :
    ∃ st', place degree st m = some st' ∧
      PlacedTo n top deg (m + 1) st' (Function.update order (rank n deg m) m) := by
  have hd : deg m < top + 1 := Nat.lt_succ_of_le (htop m hm)
  have hrank : rank n deg m < n := rank_lt hm
  obtain ⟨p, hp, hpos⟩ := h.pos.write hm (rank n deg m)
  obtain ⟨o, ho, horder⟩ := h.order.write hrank m
  obtain ⟨c, hc, hcur⟩ := h.cur.write hd (rank n deg m + 1)
  refine ⟨⟨p, o, c⟩, ?_, ?_, ?_, horder, ?_⟩
  · have hread : st.binCur[deg m]? = some (rank n deg m) := h.cur.read _ hd
    simp only [place, hdeg.read m hm, hread, bind, Option.bind_some, hp, ho, hc]
    rfl
  · intro v hv
    rw [Function.update_apply]
    rcases Nat.lt_succ_iff_lt_or_eq.mp hv with hlt | rfl
    · have hne : rank n deg v ≠ rank n deg m := fun he =>
        hlt.ne (rank_inj (hlt.trans hm) hm he)
      rw [if_neg hne, h.at_rank v hlt]
    · rw [if_pos rfl]
  · refine hpos.congr fun v _ => ?_
    rw [Function.update_apply]
    by_cases hvm : v = m
    · rw [if_pos hvm, if_pos (by omega), hvm]
    · rw [if_neg hvm]
      exact if_congr (by omega) rfl rfl
  · refine hcur.congr fun d _ => ?_
    rw [Function.update_apply, count_succ]
    by_cases hdm : d = deg m
    · rw [if_pos hdm, if_pos hdm.symm, hdm, rank]
      rfl
    · rw [if_neg hdm, if_neg (Ne.symm hdm)]
      rfl

theorem foldlM_place {degree : Array Nat} {st : Placed} (hdeg : Holds degree n deg)
    (htop : ∀ v < n, deg v ≤ top) (h : PlacedTo n top deg 0 st order) {m : Nat} (hm : m ≤ n) :
    ∃ st' order', (List.range m).foldlM (place degree) st = some st' ∧
      PlacedTo n top deg m st' order' := by
  induction m with
  | zero => exact ⟨st, order, rfl, h⟩
  | succ m ih =>
    obtain ⟨t, o, ht, hpt⟩ := ih (by omega)
    obtain ⟨t', ht', hpt'⟩ := place_spec hdeg htop (show m < n from hm) hpt
    refine ⟨t', _, ?_, hpt'⟩
    rw [List.range_succ, List.foldlM_append, ht]
    show (place degree t m).bind _ = _
    rw [ht']
    rfl

/-- The arrays of the loop, as functions on the indices in range, and their invariant. -/
structure Sorted (n top : Nat) (st : Arrays) (deg bin order pos : Nat → Nat) : Prop
    extends Bucketed n top deg bin order pos where
  degree : Holds st.degree n deg
  bins : Holds st.bin (top + 1) bin
  ordered : Holds st.order n order
  positions : Holds st.pos n pos

theorem le_foldl_max {l : List Nat} {a d : Nat} (h : d = a ∨ d ∈ l) : d ≤ l.foldl max a := by
  induction l generalizing a d with
  | nil => exact (h.resolve_right List.not_mem_nil).le
  | cons b l ih =>
    rw [List.foldl_cons]
    rcases h with rfl | h
    · exact (le_max_left _ _).trans (ih (Or.inl rfl))
    · rcases List.mem_cons.mp h with rfl | h
      · exact (le_max_right _ _).trans (ih (Or.inl rfl))
      · exact ih (Or.inr h)

theorem bucketSort_spec {degree : Array Nat} (h : Holds degree n deg) :
    ∃ st top bin order pos, bucketSort degree = some st ∧ Sorted n top st deg bin order pos := by
  let top := degree.foldl max 0
  have hlist : degree.toList = (List.range n).map deg := by
    refine List.ext_getElem? fun i => ?_
    rw [Array.getElem?_toList]
    by_cases hi : i < n
    · rw [h.read i hi, List.getElem?_map, List.getElem?_range hi]
      rfl
    · rw [Array.getElem?_eq_none (by rw [h.size]; omega),
        List.getElem?_eq_none (by simpa using Nat.le_of_not_lt hi)]
  have htop : ∀ v < n, deg v ≤ top := by
    intro v hv
    show deg v ≤ degree.foldl max 0
    rw [← Array.foldl_toList, hlist]
    exact le_foldl_max (Or.inr (List.mem_map_of_mem (List.mem_range.mpr hv)))
  obtain ⟨counts, hcounts, hc⟩ := @foldlM_countNode (top + 1) degree.toList
    (Array.replicate (top + 1) 0) (fun _ => 0)
    (by
      rw [hlist]
      intro d hd
      obtain ⟨v, hv, rfl⟩ := List.mem_map.mp hd
      exact Nat.lt_succ_of_le (htop v (List.mem_range.mp hv)))
    (Holds.replicate _ 0)
  have hbin : Holds (startBins counts) (top + 1) fun e => count n deg (· < e) := by
    refine (startBins_holds hc).congr fun e _ => ?_
    rw [← sum_count]
    refine congrArg List.sum (List.map_congr_left fun d _ => ?_)
    rw [Nat.zero_add, hlist, count_map_range]
  have hinit : PlacedTo n top deg 0
      ⟨Array.replicate n 0, Array.replicate n 0, startBins counts⟩ fun _ => 0 :=
    ⟨fun v hv => absurd hv (Nat.not_lt_zero v), (Holds.replicate n 0).congr fun _ _ => rfl,
      Holds.replicate n 0, hbin.congr fun d _ => by simp [count]⟩
  obtain ⟨st, order, hst, hp⟩ := foldlM_place h htop hinit le_rfl
  have hpos : Holds st.pos n (rank n deg) := hp.pos.congr fun v hv => if_pos hv
  refine ⟨⟨degree, startBins counts, st.order, st.pos⟩, top, _, order, rank n deg, ?_,
    bucketed_rank htop (fun _ _ => rfl) hp.at_rank, h, hbin, hp.order, hpos⟩
  rw [bucketSort, ← Array.foldlM_toList, hcounts, h.size]
  show ((List.range n).foldlM (place degree)
    ⟨Array.replicate n 0, Array.replicate n 0, startBins counts⟩).bind _ = _
  rw [hst]
  rfl

/-! ### The peeling loop -/

variable {st : Arrays} {i v u : Nat}

theorem demote_spec (h : Sorted n top st deg bin order pos) (hu : u < n) (hpos : 0 < deg u) :
    ∃ st', demote st u = some st' ∧
      Sorted n top st' (Function.update deg u (deg u - 1))
        (Function.update bin (deg u) (bin (deg u) + 1))
        (Function.update (Function.update order (pos u) (order (bin (deg u)))) (bin (deg u)) u)
        (Function.update (Function.update pos (order (bin (deg u))) (pos u)) u (bin (deg u))) := by
  have hdu : deg u < top + 1 := Nat.lt_succ_of_le (h.key_le u hu)
  have hpu : pos u < n := h.pos_lt u hu
  have hbs : bin (deg u) < n := (h.bin_le_pos hu).trans_lt hpu
  have hw : order (bin (deg u)) < n := h.order_lt _ hbs
  obtain ⟨o, ho, horder⟩ := h.ordered.write hpu (order (bin (deg u)))
  obtain ⟨p, hp, hposs⟩ := h.positions.write hw (pos u)
  obtain ⟨o', ho', horder'⟩ := horder.write hbs u
  obtain ⟨p', hp', hposs'⟩ := hposs.write hu (bin (deg u))
  obtain ⟨b, hb, hbin⟩ := h.bins.write hdu (bin (deg u) + 1)
  obtain ⟨d, hd, hdeg⟩ := h.degree.write hu (deg u - 1)
  refine ⟨⟨d, b, o', p'⟩, ?_, h.lower hu hpos, hdeg, hbin, horder', hposs'⟩
  simp only [demote, h.degree.read u hu, h.positions.read u hu, h.bins.read _ hdu,
    h.ordered.read _ hbs, bind, Option.bind_some, ho, hp, ho', hp', hb, if_neg hpos.ne', hd]
  rfl

/-- What the visit of one neighbour does to the degrees; the positions up to `i` stay. -/
theorem visitNeighbour_spec (h : Sorted n top st deg bin order pos) (hi : i < n) (hu : u < n) :
    ∃ st' deg' bin' order' pos', visitNeighbour i (order i) st u = some st' ∧
      Sorted n top st' deg' bin' order' pos' ∧ (∀ p ≤ i, order' p = order p) ∧
      deg' = if i < pos u ∧ deg (order i) < deg u then Function.update deg u (deg u - 1)
        else deg := by
  have hread := h.positions.read u hu
  have hdu := h.degree.read u hu
  have hdv := h.degree.read (order i) (h.order_lt i hi)
  by_cases hpu : pos u ≤ i
  · refine ⟨st, deg, bin, order, pos, ?_, h, fun _ _ => rfl, ?_⟩
    · simp only [visitNeighbour, hread, bind, Option.bind_some, if_pos hpu]
      rfl
    · rw [if_neg fun hc => absurd hc.1 (by omega)]
  · by_cases hlt : deg (order i) < deg u
    · obtain ⟨st', hst, hs⟩ := demote_spec h hu (by omega)
      refine ⟨st', _, _, _, _, ?_, hs, fun p hp => ?_, ?_⟩
      · simp only [visitNeighbour, hread, hdu, hdv, bind, Option.bind_some, if_neg hpu, if_pos hlt]
        exact hst
      · exact h.lower_order hu (hp.trans_lt (h.lt_bin_of_key_lt hu hi hlt))
      · rw [if_pos ⟨not_le.mp hpu, hlt⟩]
    · refine ⟨st, deg, bin, order, pos, ?_, h, fun _ _ => rfl, ?_⟩
      · simp only [visitNeighbour, hread, hdu, hdv, bind, Option.bind_some, if_neg hpu, if_neg hlt]
        rfl
      · rw [if_neg fun hc => hlt hc.2]

/-- An element at or before `i` stays where it is while these positions stay. -/
theorem lt_pos_congr {order' pos' deg' bin' : Nat → Nat} (h : Bucketed n top deg bin order pos)
    (h' : Bucketed n top deg' bin' order' pos') (hi : i < n) (heq : ∀ p ≤ i, order' p = order p)
    (hu : u < n) : i < pos' u ↔ i < pos u := by
  rw [← not_le, ← not_le, not_iff_not]
  constructor
  · intro hle
    have hp : order (pos' u) = u := by rw [← heq _ hle, h'.order_pos u hu]
    rwa [← hp, h.pos_order _ (hle.trans_lt hi)]
  · intro hle
    have hp : order' (pos u) = u := by rw [heq _ hle, h.order_pos u hu]
    rwa [← hp, h'.pos_order _ (hle.trans_lt hi)]

/-- The visit of the neighbours, in any order: those not yet removed and above the degree of the
node lose one. -/
theorem foldlM_visitNeighbour {around : List Nat} (h : Sorted n top st deg bin order pos)
    (hi : i < n) (hnodup : around.Nodup) (haround : ∀ u ∈ around, u < n) :
    ∃ st' deg' bin' order' pos', around.foldlM (visitNeighbour i (order i)) st = some st' ∧
      Sorted n top st' deg' bin' order' pos' ∧ (∀ p ≤ i, order' p = order p) ∧
      ∀ u < n, deg' u =
        if u ∈ around ∧ i < pos u ∧ deg (order i) < deg u then deg u - 1 else deg u := by
  induction around generalizing st deg bin order pos with
  | nil => exact ⟨st, deg, bin, order, pos, rfl, h, fun _ _ => rfl, fun u _ => by simp⟩
  | cons u around ih =>
    obtain ⟨hu, haround⟩ := List.forall_mem_cons.mp haround
    obtain ⟨hnew, hnodup⟩ := List.nodup_cons.mp hnodup
    obtain ⟨t, d, b, o, p, ht, hs, hkeep, hd⟩ := visitNeighbour_spec h hi hu
    obtain ⟨st', deg', bin', order', pos', hst, hs', hkeep', hd'⟩ := ih hs hnodup haround
    refine ⟨st', deg', bin', order', pos', ?_, hs', fun q hq => (hkeep' q hq).trans (hkeep q hq), ?_⟩
    · rw [List.foldlM_cons, ht]
      rw [hkeep i le_rfl] at hst
      exact hst
    · have hfix : d (order i) = deg (order i) := by
        rw [hd]
        split_ifs with hc
        · rw [Function.update_apply, if_neg]
          exact fun he => absurd hc.2 (he ▸ lt_irrefl _)
        · rfl
      intro w hw
      rw [hd' w hw, hkeep i le_rfl, hfix]
      simp only [lt_pos_congr h.toBucketed hs.toBucketed hi hkeep hw, List.mem_cons]
      by_cases hwu : w = u
      · subst hwu
        rw [if_neg fun hc => hnew hc.1, hd]
        split_ifs with h1 h2 h2
        · rw [Function.update_self]
        · exact absurd ⟨Or.inl rfl, h1⟩ h2
        · exact absurd h2.2 h1
        · rfl
      · have hdw : d w = deg w := by
          rw [hd]
          split_ifs
          · rw [Function.update_of_ne hwu]
          · rfl
        rw [hdw]
        simp only [hwu, false_or]

/-- The neighbour sets: `near` in range, mutual, without the node itself. -/
structure Neighbourly (n : Nat) (neighbours : Array (List Nat)) (near : Nat → List Nat) : Prop where
  holds : Holds neighbours n near
  nodup : ∀ v < n, (near v).Nodup
  lt : ∀ v < n, ∀ u ∈ near v, u < n
  symm : ∀ v < n, ∀ u < n, u ∈ near v ↔ v ∈ near u
  irrefl : ∀ v < n, v ∉ near v

def Near (near : Nat → List Nat) (a b : Nat) : Prop := b ∈ near a

instance (near : Nat → List Nat) : DecidableRel (Near near) := fun a b =>
  inferInstanceAs (Decidable (b ∈ near a))

/-- Before the removal at position `i`: a node that is left has the degree it has among these, or
the level where that is higher. -/
structure PeeledTo (n : Nat) (near : Nat → List Nat) (i : Nat) (deg order shell : Nat → Nat) :
    Prop where
  peeled : Peeling.Peeled (Near near) (Finset.range n) order shell i
  degree : ∀ u ∈ Peeling.pending (Finset.range n) order i,
    deg u = max (Peeling.degreeIn (Near near) (Peeling.pending (Finset.range n) order i) u)
      (Peeling.level order shell i)

variable {near : Nat → List Nat} {neighbours : Array (List Nat)} {shell : Nat → Nat}

theorem mem_pending_iff (h : Bucketed n top deg bin order pos) (hi : i ≤ n) :
    u ∈ Peeling.pending (Finset.range n) order i ↔ u < n ∧ i ≤ pos u := by
  rw [Peeling.mem_pending, Finset.mem_range]
  refine and_congr_right fun hu => ⟨fun hne => ?_, fun hle p hp he => ?_⟩
  · by_contra hlt
    exact hne (pos u) (not_le.mp hlt) (h.order_pos u hu)
  · rw [← he, h.pos_order p (hp.trans_le hi)] at hle
    omega

/-- The removal of the node at position `i` is one of the peeling. -/
theorem PeeledTo.removes (hp : PeeledTo n near i deg order shell)
    (h : Bucketed n top deg bin order pos) (hi : i < n) :
    Peeling.Removes (Near near) (Finset.range n) order
      (Function.update shell (order i) (deg (order i))) i := by
  have hlevel : Peeling.level order (Function.update shell (order i) (deg (order i))) i =
      Peeling.level order shell i := by
    refine Peeling.level_congr fun p hpi => ?_
    rw [Function.update_of_ne]
    exact fun he => hpi.ne (h.order_inj (hpi.trans hi) hi he)
  have hmem : order i ∈ Peeling.pending (Finset.range n) order i :=
    (mem_pending_iff h hi.le).mpr ⟨h.order_lt i hi, (h.pos_order i hi).ge⟩
  refine ⟨hmem, ?_, fun u hu => ?_⟩
  · rw [Function.update_self, hlevel]
    exact hp.degree _ hmem
  · obtain ⟨hun, hle⟩ := (mem_pending_iff h hi.le).mp hu
    rw [Function.update_self, hlevel, ← hp.degree u hu]
    have hmono := h.key_mono hle (h.pos_lt u hun)
    rwa [h.order_pos u hun] at hmono

theorem peelNode_spec {iter : HashOrder} {shells : Array Nat} (hn : Neighbourly n neighbours near)
    (h : Sorted n top st deg bin order pos) (hs : Holds shells n shell) (hi : i < n)
    (hp : PeeledTo n near i deg order shell) :
    ∃ st' shells' deg' bin' order' pos' shell',
      peelNode iter neighbours (st, shells) i = some (st', shells') ∧
      Sorted n top st' deg' bin' order' pos' ∧ Holds shells' n shell' ∧
      PeeledTo n near (i + 1) deg' order' shell' := by
  have hv : order i < n := h.order_lt i hi
  have hperm := iter.perm (order i) (near (order i))
  obtain ⟨shells', hw, hs'⟩ := hs.write hv (deg (order i))
  obtain ⟨st', deg', bin', order', pos', hst, hsort, hkeep, hdeg⟩ := foldlM_visitNeighbour h hi
    (hperm.nodup_iff.mpr (hn.nodup _ hv)) (fun u hu => hn.lt _ hv u (hperm.mem_iff.mp hu))
  refine ⟨st', shells', deg', bin', order', pos', _, ?_, hsort, hs', ?_⟩
  · have hread := hn.holds.read _ hv
    simp only [peelNode, h.ordered.read i hi, h.degree.read _ hv, hread, bind, Option.bind_some, hw,
      hst]
    rfl
  · have hremove := hp.removes h.toBucketed hi
    have hbefore : Peeling.Peeled (Near near) (Finset.range n) order
        (Function.update shell (order i) (deg (order i))) i :=
      hp.peeled.congr (fun _ _ => rfl) fun p hpi => (Function.update_of_ne
        (fun he => hpi.ne (h.order_inj (hpi.trans hi) hi he)) _ _).symm
    have hpend : Peeling.pending (Finset.range n) order' (i + 1) =
        (Peeling.pending (Finset.range n) order i).erase (order i) := by
      rw [← Peeling.pending_succ]
      exact Peeling.pending_congr fun p hpi => hkeep p (Nat.lt_succ_iff.mp hpi)
    refine ⟨(hbefore.succ hremove).congr (fun p hpi => (hkeep p (Nat.lt_succ_iff.mp hpi)).symm)
      fun _ _ => rfl, fun u hu => ?_⟩
    rw [hpend] at hu ⊢
    obtain ⟨hne, hu⟩ := Finset.mem_erase.mp hu
    obtain ⟨hun, hle⟩ := (mem_pending_iff h.toBucketed hi.le).mp hu
    have hafter : i < pos u := by
      refine lt_of_le_of_ne hle fun he => hne ?_
      rw [he, h.order_pos u hun]
    -- the node at `i` has the least degree of those left
    have hleast : deg (order i) ≤ deg u := by
      have hmono := h.key_mono hle (h.pos_lt u hun)
      rwa [h.order_pos u hun] at hmono
    have hlevel : Peeling.level order shell i ≤ deg (order i) := by
      rw [hp.degree _ hremove.mem]
      exact le_max_right _ _
    have hold := hp.degree u hu
    rw [hdeg u hun, show Peeling.level order' (Function.update shell (order i) (deg (order i)))
      (i + 1) = deg (order i) by
        show Function.update shell (order i) (deg (order i)) (order' i) = deg (order i)
        rw [hkeep i le_rfl, Function.update_self]]
    have hmem : u ∈ iter.arrange (order i) (near (order i)) ↔ Near near u (order i) :=
      hperm.mem_iff.trans (hn.symm _ hv u hun)
    by_cases hadj : Near near u (order i)
    · have herase := Peeling.degreeIn_erase_of_adj hremove.mem hadj
      by_cases hlt : deg (order i) < deg u
      · rw [if_pos ⟨hmem.mpr hadj, hafter, hlt⟩]
        omega
      · rw [if_neg fun hc => hlt hc.2.2]
        omega
    · have herase := @Peeling.degreeIn_erase_of_not_adj _ _ _ _
        (Peeling.pending (Finset.range n) order i) (order i) u hadj
      rw [if_neg fun hc => hadj (hmem.mp hc.1), herase]
      omega

theorem foldlM_peelNode {iter : HashOrder} {shells : Array Nat} (hn : Neighbourly n neighbours near)
    (h : Sorted n top st deg bin order pos) (hs : Holds shells n shell)
    (hp : PeeledTo n near 0 deg order shell) {m : Nat} (hm : m ≤ n) :
    ∃ st' shells' deg' bin' order' pos' shell',
      (List.range m).foldlM (peelNode iter neighbours) (st, shells) = some (st', shells') ∧
      Sorted n top st' deg' bin' order' pos' ∧ Holds shells' n shell' ∧
      PeeledTo n near m deg' order' shell' := by
  induction m with
  | zero => exact ⟨st, shells, deg, bin, order, pos, shell, rfl, h, hs, hp⟩
  | succ m ih =>
    obtain ⟨t, ss, d, b, o, p, f, ht, hsort, hss, hpt⟩ := ih (by omega)
    obtain ⟨t', ss', d', b', o', p', f', ht', hsort', hss', hpt'⟩ :=
      @peelNode_spec _ _ _ _ _ _ _ _ _ _ _ iter _ hn hsort hss (show m < n from hm) hpt
    refine ⟨t', ss', d', b', o', p', f', ?_, hsort', hss', hpt'⟩
    rw [List.range_succ, List.foldlM_append, ht]
    show (peelNode iter neighbours (t, ss) m).bind _ = _
    rw [ht']
    rfl

/-- Whatever order the neighbour sets are iterated in, no index is out of range, no degree
underflows, and every node gets its coreness. -/
theorem peel_spec (iter : HashOrder) (hn : Neighbourly n neighbours near) :
    ∃ shells shell, peel iter neighbours = some shells ∧ Holds shells n shell ∧
      ∀ v < n, Peeling.IsCoreness (Near near) (Finset.range n) v (shell v) := by
  have hdegree : Holds (neighbours.map List.length) n fun v => (near v).length := by
    refine ⟨by rw [Array.size_map, hn.holds.size], fun v hv => ?_⟩
    rw [Array.getElem?_map, hn.holds.read v hv]
    rfl
  obtain ⟨st, top, bin, order, pos, hst, hsort⟩ := bucketSort_spec hdegree
  have hstart : PeeledTo n near 0 (fun v => (near v).length) order fun _ => 0 := by
    refine ⟨fun j hj => absurd hj (Nat.not_lt_zero j), fun u hu => ?_⟩
    have hun : u < n := ((mem_pending_iff hsort.toBucketed (Nat.zero_le n)).mp hu).1
    have hall : Peeling.pending (Finset.range n) order 0 = Finset.range n :=
      Finset.filter_true_of_mem fun v _ p hp => absurd hp (Nat.not_lt_zero p)
    have hset : (Finset.range n).filter (Near near u) = (near u).toFinset := by
      ext w
      rw [Finset.mem_filter, Finset.mem_range, List.mem_toFinset]
      exact ⟨And.right, fun hw => ⟨hn.lt u hun w hw, hw⟩⟩
    rw [hall, Peeling.degreeIn, hset, List.toFinset_card_of_nodup (hn.nodup u hun)]
    exact (Nat.max_zero _).symm
  obtain ⟨st', shells, deg, bin', order', pos', shell, hpeel, hsort', hshells, hdone⟩ :=
    @foldlM_peelNode _ _ _ _ _ _ _ _ _ _ iter _ hn hsort (Holds.replicate n 0) hstart n le_rfl
  refine ⟨shells, shell, ?_, hshells, fun v hv => ?_⟩
  · simp only [peel, hst, hn.holds.size, bind, Option.bind_some, hpeel]
    rfl
  · refine hdone.peeled.isCoreness (fun u hu => ?_) (Finset.mem_range.mpr hv)
    have hun := Finset.mem_range.mp hu
    exact ⟨pos' u, hsort'.pos_lt u hun, hsort'.order_pos u hun⟩

/-! ### The graph of the store -/

def Joins (nodeIds : List NodeId) (e : EdgeRow) (a b : Nat) : Prop :=
  a ≠ b ∧ (idToIdx nodeIds e.src = some a ∧ idToIdx nodeIds e.dst = some b ∨
    idToIdx nodeIds e.src = some b ∧ idToIdx nodeIds e.dst = some a)

theorem idToIdx_eq_some {nodeIds : List NodeId} (h : nodeIds.Nodup) {id : NodeId} {a : Nat} :
    idToIdx nodeIds id = some a ↔ nodeIds[a]? = some id := idxOf?_eq_some h

theorem link_spec {nodeIds : List NodeId} {v : Array (List Nat)} {f : Nat → List Nat}
    (h : Holds v n f) (hf : ∀ a, (f a).Nodup) (e : EdgeRow) :
    ∃ g, Holds (link nodeIds v e) n g ∧ (∀ a, (g a).Nodup) ∧
      ∀ a b, b ∈ g a ↔ b ∈ f a ∨ Joins nodeIds e a b := by
  have hnone : (∀ a b, ¬ Joins nodeIds e a b) → ∃ g, Holds v n g ∧ (∀ a, (g a).Nodup) ∧
      ∀ a b, b ∈ g a ↔ b ∈ f a ∨ Joins nodeIds e a b := fun hno =>
    ⟨f, h, hf, fun a b => (or_iff_left (hno a b)).symm⟩
  rw [link]
  cases hs : idToIdx nodeIds e.src with
  | none => exact hnone fun a b hj => by simp [Joins, hs] at hj
  | some si =>
    cases hd : idToIdx nodeIds e.dst with
    | none => exact hnone fun a b hj => by simp [Joins, hd] at hj
    | some di =>
      dsimp only
      split_ifs with hne
      · refine ⟨_, ((h.modify si (List.insert di)).modify di (List.insert si)), fun a => ?_,
          fun a b => ?_⟩
        · split_ifs
          · exact (hf a).insert.insert
          · exact (hf a).insert
          · exact (hf a).insert
          · exact hf a
        · simp only [Joins, hs, hd, Option.some_inj]
          split_ifs with h1 h2 h2
          · exact absurd (h2.symm.trans h1) hne
          · rw [List.mem_insert_iff]
            subst h1
            grind
          · rw [List.mem_insert_iff]
            subst h2
            grind
          · grind
      · refine hnone fun a b hj => ?_
        obtain ⟨hab, hj⟩ := hj
        simp only [hs, hd, Option.some_inj] at hj
        grind

theorem neighbourSets_spec {nodeIds : List NodeId} (allEdges : List EdgeRow) :
    ∃ near, Holds (neighbourSets nodeIds allEdges) nodeIds.length near ∧ (∀ a, (near a).Nodup) ∧
      ∀ a b, b ∈ near a ↔ ∃ e ∈ allEdges, Joins nodeIds e a b := by
  rw [neighbourSets]
  have hgen : ∀ (edges : List EdgeRow) v f, Holds v nodeIds.length f → (∀ a, (f a).Nodup) →
      ∃ g, Holds (edges.foldl (link nodeIds) v) nodeIds.length g ∧ (∀ a, (g a).Nodup) ∧
        ∀ a b, b ∈ g a ↔ b ∈ f a ∨ ∃ e ∈ edges, Joins nodeIds e a b := by
    intro edges
    induction edges with
    | nil => exact fun v f h hf => ⟨f, h, hf, fun a b => by simp⟩
    | cons e edges ih =>
      intro v f h hf
      obtain ⟨g, hg, hgn, hgm⟩ := @link_spec _ nodeIds v f h hf e
      obtain ⟨g', hg', hgn', hgm'⟩ := ih _ g hg hgn
      refine ⟨g', hg', hgn', fun a b => ?_⟩
      rw [hgm', hgm, List.exists_mem_cons_iff, or_assoc]
  obtain ⟨g, hg, hgn, hgm⟩ := hgen allEdges _ _ (Holds.replicate nodeIds.length []) fun _ =>
    List.nodup_nil
  exact ⟨g, hg, hgn, fun a b => by simpa using hgm a b⟩

/-- Two stored nodes that some edge joins, in either direction and of any kind. -/
def Linked (s : SqliteStore) (a b : NodeId) : Prop :=
  a ≠ b ∧ s.Stored a ∧ s.Stored b ∧
    ∃ e ∈ s.edges.rows, e.src = a ∧ e.dst = b ∨ e.src = b ∧ e.dst = a

instance (s : SqliteStore) : DecidableRel (Linked s) := fun _ _ =>
  inferInstanceAs (Decidable (_ ∧ _ ∧ _ ∧ _))

def storedIds (s : SqliteStore) : Finset NodeId := (s.nodes.rows.map NodeRow.id).toFinset

theorem mem_storedIds {s : SqliteStore} {id : NodeId} : id ∈ storedIds s ↔ s.Stored id := by
  rw [storedIds, List.mem_toFinset, List.mem_map]
  exact Iff.rfl

theorem get_foldl_insert {α : Type} {pairs : List (NodeId × α)} (h : (pairs.map Prod.fst).Nodup)
    {m : Map α} (hm : ∀ p ∈ pairs, ¬ m.Has p.1) {id : NodeId} {x : α} :
    (pairs.foldl (fun m p => Map.insert m p.1 p.2) m).get id = some x ↔
      m.get id = some x ∨ (id, x) ∈ pairs := by
  induction pairs generalizing m with
  | nil => simp
  | cons p pairs ih =>
    obtain ⟨hp, h⟩ := List.nodup_cons.mp h
    obtain ⟨hfresh, hm⟩ := List.forall_mem_cons.mp hm
    have hget : ∀ j, (Map.insert m p.1 p.2).get j = if p.1 = j then some p.2 else m.get j := by
      intro j
      rw [Map.get, Map.insert, Table.find?_upsert]
      by_cases hj : p.1 = j
      · rw [if_pos hj, if_pos hj, Table.find?_eq_none.mpr (hj ▸ hfresh)]
        rfl
      · rw [if_neg hj, if_neg hj]
        rfl
    rw [List.foldl_cons, ih h, hget, List.mem_cons]
    · by_cases hj : p.1 = id
      · have hnone : m.get id = none := by
          rw [Map.get, Table.find?_eq_none.mpr (hj ▸ hfresh)]
          rfl
        rw [if_pos hj, hnone, ← hj]
        constructor
        · rintro (hx | hx)
          · exact Or.inr (Or.inl (Prod.ext rfl (Option.some.inj hx).symm))
          · exact Or.inr (Or.inr hx)
        · rintro (hx | hx | hx)
          · cases hx
          · exact Or.inl (congrArg (fun q => some q.2) hx).symm
          · exact Or.inr hx
      · have hne : (id, x) ≠ p := fun he => hj (he ▸ rfl)
        rw [if_neg hj]
        simp [hne]
    · intro q hq hhas
      rw [Map.insert, Table.has_upsert] at hhas
      rcases hhas with hhas | he
      · exact hm q hq hhas
      · exact hp (he ▸ List.mem_map_of_mem hq)

/-- The graph on the positions is the graph of the store. -/
structure Renames (s : SqliteStore) (nodeIds : List NodeId) (near : Nat → List Nat)
    (name : Nat → NodeId) : Prop where
  get : ∀ a < nodeIds.length, nodeIds[a]? = some (name a)
  inj : Set.InjOn name (Finset.range nodeIds.length)
  image : (Finset.range nodeIds.length).image name = storedIds s
  linked : ∀ a ∈ Finset.range nodeIds.length, ∀ b ∈ Finset.range nodeIds.length,
    Linked s (name a) (name b) ↔ Near near a b

theorem neighbourSets_store (s : SqliteStore) :
    ∃ near, Neighbourly (s.nodes.rows.map NodeRow.id).length
        (neighbourSets (s.nodes.rows.map NodeRow.id) s.edges.rows) near ∧
      Renames s (s.nodes.rows.map NodeRow.id) near
        fun a => (s.nodes.rows.map NodeRow.id).getD a 0 := by
  let nodeIds := s.nodes.rows.map NodeRow.id
  have hnodup : nodeIds.Nodup := s.nodes.nodup
  obtain ⟨near, hholds, hnd, hnear⟩ := @neighbourSets_spec nodeIds s.edges.rows
  have hidx : ∀ {a b : Nat} {e : EdgeRow}, Joins nodeIds e a b ↔ a ≠ b ∧
      (nodeIds[a]? = some e.src ∧ nodeIds[b]? = some e.dst ∨
        nodeIds[b]? = some e.src ∧ nodeIds[a]? = some e.dst) := by
    intro a b e
    rw [Joins, idToIdx_eq_some hnodup, idToIdx_eq_some hnodup, idToIdx_eq_some hnodup,
      idToIdx_eq_some hnodup]
  have hjoins : ∀ {a b : Nat} {e : EdgeRow}, Joins nodeIds e a b → Joins nodeIds e b a :=
    fun hj => ⟨hj.1.symm, hj.2.symm⟩
  have hget : ∀ a < nodeIds.length, nodeIds[a]? = some (nodeIds.getD a 0) := by
    intro a ha
    rw [List.getD_eq_getElem?_getD, List.getElem?_eq_getElem ha]
    rfl
  have hinj : ∀ a < nodeIds.length, ∀ b < nodeIds.length,
      nodeIds.getD a 0 = nodeIds.getD b 0 → a = b := by
    intro a ha b hb he
    refine (List.getElem?_inj ha hnodup).mp ?_
    rw [hget a ha, hget b hb, he]
  have hmem : ∀ a < nodeIds.length, nodeIds.getD a 0 ∈ storedIds s := fun a ha =>
    List.mem_toFinset.mpr (List.mem_of_getElem? (hget a ha))
  refine ⟨near, ⟨hholds, fun v _ => hnd v, ?_, ?_, ?_⟩, hget, ?_, ?_, ?_⟩
  · intro v _ u hu
    obtain ⟨e, _, hj⟩ := (hnear v u).mp hu
    rcases (hidx.mp hj).2 with ⟨_, hb⟩ | ⟨hb, _⟩
    · exact (List.getElem?_eq_some_iff.mp hb).1
    · exact (List.getElem?_eq_some_iff.mp hb).1
  · intro v _ u _
    rw [hnear, hnear]
    exact exists_congr fun e => and_congr_right fun _ => ⟨hjoins, hjoins⟩
  · intro v _ hv
    obtain ⟨e, _, hj⟩ := (hnear v v).mp hv
    exact hj.1 rfl
  · intro a ha b hb he
    exact hinj a (Finset.mem_range.mp ha) b (Finset.mem_range.mp hb) he
  · ext id
    rw [Finset.mem_image]
    constructor
    · rintro ⟨a, ha, rfl⟩
      exact hmem a (Finset.mem_range.mp ha)
    · intro hid
      obtain ⟨a, ha, he⟩ := List.getElem_of_mem (List.mem_toFinset.mp hid)
      refine ⟨a, Finset.mem_range.mpr ha, Option.some.inj ?_⟩
      rw [← hget a ha, List.getElem?_eq_getElem ha]
      exact congrArg some he
  · intro a ha b hb
    have ha := Finset.mem_range.mp ha
    have hb := Finset.mem_range.mp hb
    have hne : nodeIds.getD a 0 ≠ nodeIds.getD b 0 ↔ a ≠ b :=
      not_congr ⟨hinj a ha b hb, fun he => he ▸ rfl⟩
    show Linked s (nodeIds.getD a 0) (nodeIds.getD b 0) ↔ b ∈ near a
    rw [hnear, Linked, hne, and_iff_right (mem_storedIds.mp (hmem a ha)),
      and_iff_right (mem_storedIds.mp (hmem b hb))]
    simp only [hidx, hget a ha, hget b hb, Option.some_inj]
    grind

/-- The raw shell of a node is its coreness in the graph of the stored edges. -/
theorem rawShells_isCoreness (iter : HashOrder) (s : SqliteStore) :
    ∃ shells, rawShells iter s = some shells ∧ ∀ id k,
      shells.get id = some k ↔ s.Stored id ∧ Peeling.IsCoreness (Linked s) (storedIds s) id k := by
  obtain ⟨near, hneigh, hname⟩ := neighbourSets_store s
  by_cases hempty : (s.nodes.rows.map NodeRow.id).isEmpty = true
  · refine ⟨Table.empty, if_pos hempty, fun id k => iff_of_false (fun h => ?_) fun h => ?_⟩
    · cases h
    · have hmem := mem_storedIds.mpr h.1
      rw [storedIds, List.isEmpty_iff.mp hempty] at hmem
      exact absurd hmem (Finset.notMem_empty id)
  · obtain ⟨shells, shell, hpeel, hholds, hcore⟩ := peel_spec iter hneigh
    refine ⟨((s.nodes.rows.map NodeRow.id).zip shells.toList).foldl
      (fun m p => Map.insert m p.1 p.2) Table.empty, ?_, fun id k => ?_⟩
    · rw [rawShells, if_neg hempty, hpeel]
      rfl
    · have hkeys : (((s.nodes.rows.map NodeRow.id).zip shells.toList).map Prod.fst).Nodup := by
        rw [List.map_fst_zip]
        · exact s.nodes.nodup
        · exact hholds.size.ge
      have hnone : Map.get (Table.empty : Map Nat) id ≠ some k := by
        intro h
        cases h
      have hfresh : ∀ p ∈ (s.nodes.rows.map NodeRow.id).zip shells.toList,
          ¬ (Table.empty : Map Nat).Has p.1 := fun p _ hp => by
        obtain ⟨r, hr, _⟩ := hp
        exact absurd hr List.not_mem_nil
      -- the pairs of the map: a position's node with its shell
      have hpair : (id, k) ∈ (s.nodes.rows.map NodeRow.id).zip shells.toList ↔
          ∃ a < (s.nodes.rows.map NodeRow.id).length,
            (s.nodes.rows.map NodeRow.id).getD a 0 = id ∧ shell a = k := by
        rw [List.mem_iff_getElem?]
        refine exists_congr fun a => ?_
        have hread : shells.toList[a]? = shells[a]? := Array.getElem?_toList
        rw [List.getElem?_zip_eq_some, hread]
        constructor
        · intro h
          obtain ⟨ha, _⟩ := List.getElem?_eq_some_iff.mp h.1
          rw [hname.get a ha, hholds.read a ha, Option.some_inj, Option.some_inj] at h
          exact ⟨ha, h⟩
        · intro h
          rw [hname.get a h.1, hholds.read a h.1, h.2.1, h.2.2]
          exact ⟨rfl, rfl⟩
      rw [get_foldl_insert hkeys hfresh, or_iff_right hnone, hpair]
      have hdepths : ∀ a < (s.nodes.rows.map NodeRow.id).length,
          Peeling.coreDepths (Linked s) (storedIds s) ((s.nodes.rows.map NodeRow.id).getD a 0) =
            Peeling.coreDepths (Near near)
              (Finset.range (s.nodes.rows.map NodeRow.id).length) a := by
        intro a ha
        rw [← hname.image]
        exact Peeling.coreDepths_image hname.inj hname.linked (Finset.mem_range.mpr ha)
      constructor
      · rintro ⟨a, ha, rfl, rfl⟩
        refine ⟨mem_storedIds.mp ?_, ?_⟩
        · rw [← hname.image]
          exact Finset.mem_image_of_mem _ (Finset.mem_range.mpr ha)
        · rw [Peeling.IsCoreness, hdepths a ha]
          exact hcore a ha
      · rintro ⟨hid, hk⟩
        have himage := mem_storedIds.mpr hid
        rw [← hname.image] at himage
        obtain ⟨a, ha, rfl⟩ := Finset.mem_image.mp himage
        have ha := Finset.mem_range.mp ha
        rw [Peeling.IsCoreness, hdepths a ha] at hk
        exact ⟨a, ha, rfl, (hcore a ha).unique hk⟩

end Travsr.Retrieval.KCore
