import Mathlib.Data.List.Perm.Basic
import Mathlib.Data.List.Pairwise
import Travsr.Lib.Loop

namespace RoundRobin

variable {α β κ : Type*}

def fronts (qs : List (κ × List α)) : List α := qs.filterMap fun q => q.2.head?

def rests (qs : List (κ × List α)) : List (κ × List α) := qs.map fun q => (q.1, q.2.tail)

def waiting (qs : List (κ × List α)) : List α := qs.flatMap Prod.snd

def roundStep (st : List α × List (κ × List α)) : Option (List α × List (κ × List α)) :=
  if (fronts st.2).isEmpty then none else some (st.1 ++ fronts st.2, rests st.2)

def drain (qs : List (κ × List α)) : List α :=
  (Loop.iterate roundStep (waiting qs).length ([], qs)).1

variable {key : α → κ} {qs : List (κ × List α)} {l : List α} {a : α} {k : κ}

@[simp] theorem fronts_cons (q : κ × List α) (qs : List (κ × List α)) :
    fronts (q :: qs) = q.2.head?.toList ++ fronts qs := by
  cases h : q.2.head? <;> simp [fronts, h]

@[simp] theorem rests_cons (q : κ × List α) (qs : List (κ × List α)) :
    rests (q :: qs) = (q.1, q.2.tail) :: rests qs := rfl

@[simp] theorem waiting_cons (q : κ × List α) (qs : List (κ × List α)) :
    waiting (q :: qs) = q.2 ++ waiting qs := rfl

theorem roundStep_eq_some {st st' : List α × List (κ × List α)} :
    roundStep st = some st' ↔
      fronts st.2 ≠ [] ∧ st' = (st.1 ++ fronts st.2, rests st.2) := by
  rw [roundStep]
  split_ifs with h
  · simp [List.isEmpty_iff.mp h]
  · have hne : fronts st.2 ≠ [] := fun heq => h (by simp [heq])
    simp [hne, eq_comm]

theorem length_round (qs : List (κ × List α)) :
    (fronts qs).length + (waiting (rests qs)).length = (waiting qs).length := by
  induction qs with
  | nil => rfl
  | cons q qs ih =>
    rw [fronts_cons, rests_cons, waiting_cons, waiting_cons, List.length_append,
      List.length_append, List.length_append]
    have hsplit : q.2.head?.toList.length + q.2.tail.length = q.2.length := by
      cases q.2 with
      | nil => rfl
      | cons a l => exact Nat.add_comm 1 l.length
    dsimp only at *
    omega

theorem roundStep_decreases :
    Loop.Decreases (@roundStep α κ) fun st => (waiting st.2).length := by
  intro st st' h
  obtain ⟨hne, rfl⟩ := roundStep_eq_some.mp h
  have hlen := length_round st.2
  have hpos := List.length_pos_iff.mpr hne
  show (waiting (rests st.2)).length < (waiting st.2).length
  omega

theorem waiting_eq_nil_of_fronts (h : fronts qs = []) : waiting qs = [] := by
  induction qs with
  | nil => rfl
  | cons q qs ih =>
    rw [fronts_cons] at h
    obtain ⟨hhead, hrest⟩ := List.append_eq_nil_iff.mp h
    rw [waiting_cons, ih hrest, List.append_nil]
    cases hq : q.2 with
    | nil => rfl
    | cons a l => simp [hq] at hhead

theorem fronts_drained (qs : List (κ × List α)) :
    fronts (Loop.iterate roundStep (waiting qs).length ([], qs)).2 = [] := by
  have hnone := Loop.iterate_halts roundStep_decreases (waiting qs).length
    (([], qs) : List α × List (κ × List α)) le_rfl
  by_contra hne
  have hsome := roundStep_eq_some.mpr ⟨hne, rfl⟩
  rw [hnone] at hsome
  cases hsome

/-! ### Each queue has its own key -/

structure Keyed (key : α → κ) (qs : List (κ × List α)) : Prop where
  nodup : (qs.map Prod.fst).Nodup
  own : ∀ q ∈ qs, ∀ a ∈ q.2, key a = q.1

theorem keyed_nil : Keyed key ([] : List (κ × List α)) :=
  ⟨List.nodup_nil, fun _ hq => absurd hq List.not_mem_nil⟩

theorem Keyed.tail {q : κ × List α} (h : Keyed key (q :: qs)) : Keyed key qs :=
  ⟨(List.nodup_cons.mp h.nodup).2, fun p hp => h.own p (List.mem_cons_of_mem q hp)⟩

theorem Keyed.head {q : κ × List α} (h : Keyed key (q :: qs)) : ∀ a ∈ q.2, key a = q.1 :=
  h.own q List.mem_cons_self

theorem Keyed.apart {q : κ × List α} (h : Keyed key (q :: qs)) : ∀ a ∈ waiting qs, key a ≠ q.1 := by
  intro a ha heq
  obtain ⟨p, hp, hap⟩ := List.mem_flatMap.mp ha
  have hkey : p.1 = q.1 := (h.tail.own p hp a hap).symm.trans heq
  exact (List.nodup_cons.mp h.nodup).1 (hkey ▸ List.mem_map_of_mem hp)

theorem Keyed.rests (h : Keyed key qs) : Keyed key (rests qs) := by
  refine ⟨?_, ?_⟩
  · have hfst : (RoundRobin.rests qs).map Prod.fst = qs.map Prod.fst := by
      rw [RoundRobin.rests, List.map_map]
      rfl
    rw [hfst]
    exact h.nodup
  · intro p hp a ha
    obtain ⟨q, hq, rfl⟩ := List.mem_map.mp hp
    exact h.own q hq a (List.mem_of_mem_tail ha)

/-! ### The queues of renamed elements -/

def renamed (f : β → α) (qs : List (κ × List β)) : List (κ × List α) := qs.map fun q => (q.1, q.2.map f)

theorem fronts_renamed (f : β → α) (qs : List (κ × List β)) :
    fronts (renamed f qs) = (fronts qs).map f := by
  rw [fronts, fronts, renamed, List.filterMap_map, List.map_filterMap]
  refine List.filterMap_congr fun q _ => ?_
  simp

theorem rests_renamed (f : β → α) (qs : List (κ × List β)) : rests (renamed f qs) = renamed f (rests qs) := by
  rw [rests, rests, renamed, renamed, List.map_map, List.map_map]
  refine List.map_congr_left fun q _ => ?_
  simp

theorem waiting_renamed (f : β → α) (qs : List (κ × List β)) :
    waiting (renamed f qs) = (waiting qs).map f := by
  rw [waiting, waiting, renamed, List.flatMap_map, List.map_flatMap]

theorem drain_renamed (f : β → α) (qs : List (κ × List β)) : drain (renamed f qs) = (drain qs).map f := by
  have hloop : ∀ (n : Nat) (out : List β) (qs : List (κ × List β)),
      (Loop.iterate roundStep n (out.map f, renamed f qs)).1 =
        ((Loop.iterate roundStep n (out, qs)).1).map f := by
    intro n
    induction n with
    | zero => exact fun out qs => rfl
    | succ n ih =>
      intro out qs
      by_cases hnil : fronts qs = []
      · have hnone : roundStep (out, qs) = none := by simp [roundStep, hnil]
        have hnone' : roundStep (out.map f, renamed f qs) = none := by
          simp [roundStep, fronts_renamed, hnil]
        rw [Loop.iterate_of_none hnone, Loop.iterate_of_none hnone']
      · have hsome : roundStep (out, qs) = some (out ++ fronts qs, rests qs) :=
          roundStep_eq_some.mpr ⟨hnil, rfl⟩
        have hsome' : roundStep (out.map f, renamed f qs) =
            some ((out ++ fronts qs).map f, renamed f (rests qs)) := by
          rw [roundStep_eq_some, fronts_renamed, rests_renamed, List.map_append]
          exact ⟨by simpa using hnil, rfl⟩
        rw [Loop.iterate_succ_of_some hsome, Loop.iterate_succ_of_some hsome']
        exact ih _ _
  rw [drain, waiting_renamed, List.length_map]
  exact hloop _ [] qs

section

variable [DecidableEq κ]

def push (key : α → κ) (a : α) : List (κ × List α) → List (κ × List α)
  | [] => [(key a, [a])]
  | (k, q) :: qs => if k = key a then (k, q ++ [a]) :: qs else (k, q) :: push key a qs

def queues (key : α → κ) (l : List α) : List (κ × List α) :=
  l.foldl (fun qs a => push key a qs) []

def interleave (key : α → κ) (l : List α) : List α :=
  if l.length ≤ 1 then l
  else if (queues key l).length ≤ 1 then waiting (queues key l)
  else drain (queues key l)

theorem mem_fst_push : k ∈ (push key a qs).map Prod.fst ↔ k ∈ qs.map Prod.fst ∨ k = key a := by
  induction qs with
  | nil => simp [push]
  | cons q qs ih =>
    rw [push]
    split_ifs with heq
    · simp only [List.map_cons, List.mem_cons, heq]
      tauto
    · simp only [List.map_cons, List.mem_cons, ih]
      tauto

theorem Keyed.push (h : Keyed key qs) (a : α) : Keyed key (push key a qs) := by
  induction qs with
  | nil => exact ⟨List.nodup_singleton _, by simp [RoundRobin.push]⟩
  | cons q qs ih =>
    have hnodup := List.nodup_cons.mp h.nodup
    rw [RoundRobin.push]
    split_ifs with heq
    · refine ⟨h.nodup, ?_⟩
      intro p hp b hb
      cases List.mem_cons.mp hp with
      | inl hpq =>
        rw [hpq] at hb ⊢
        cases List.mem_append.mp hb with
        | inl hq => exact h.head b hq
        | inr ha => rw [List.mem_singleton.mp ha, heq]
      | inr hp => exact h.tail.own p hp b hb
    · have hrest := ih h.tail
      refine ⟨List.nodup_cons.mpr ⟨fun hmem => ?_, hrest.nodup⟩, ?_⟩
      · exact (mem_fst_push.mp hmem).elim hnodup.1 heq
      · intro p hp b hb
        cases List.mem_cons.mp hp with
        | inl hpq =>
          rw [hpq] at hb ⊢
          exact h.head b hb
        | inr hp => exact hrest.own p hp b hb

theorem foldl_push_keyed (h : Keyed key qs) (l : List α) :
    Keyed key (l.foldl (fun qs a => push key a qs) qs) := by
  induction l generalizing qs with
  | nil => exact h
  | cons a l ih => exact ih (h.push a)

theorem keyed_queues (l : List α) : Keyed key (queues key l) := foldl_push_keyed keyed_nil l

/-! ### The elements of one key -/

theorem filter_eq_nil_of_ne (h : ∀ a ∈ l, key a ≠ k) : l.filter (key · = k) = [] := by
  simpa [List.filter_eq_nil_iff] using h

theorem filter_waiting_push (h : Keyed key qs) (a : α) (k : κ) :
    (waiting (push key a qs)).filter (key · = k) =
      (waiting qs).filter (key · = k) ++ [a].filter (key · = k) := by
  induction qs with
  | nil => simp [push, waiting]
  | cons q qs ih =>
    rw [push]
    split_ifs with heq
    · by_cases hk : key a = k
      · have hapart : (waiting qs).filter (key · = k) = [] :=
          filter_eq_nil_of_ne fun b hb hbk => h.apart b hb (hbk.trans (hk.symm.trans heq.symm))
        simp [List.filter_append, hk, hapart]
      · simp [List.filter_append, hk]
    · rw [waiting_cons, List.filter_append, ih h.tail, waiting_cons, List.filter_append,
        List.append_assoc]

theorem filter_waiting_queues (l : List α) (k : κ) :
    (waiting (queues key l)).filter (key · = k) = l.filter (key · = k) := by
  have hfold : ∀ (l : List α) (qs : List (κ × List α)), Keyed key qs →
      (waiting (l.foldl (fun qs a => push key a qs) qs)).filter (key · = k) =
        (waiting qs).filter (key · = k) ++ l.filter (key · = k) := by
    intro l
    induction l with
    | nil => exact fun qs _ => (List.append_nil _).symm
    | cons a l ih =>
      intro qs h
      rw [List.foldl_cons, ih _ (h.push a), filter_waiting_push h, List.append_assoc,
        ← List.filter_append]
      rfl
  exact hfold l [] keyed_nil

theorem filter_round (h : Keyed key qs) (k : κ) :
    (fronts qs).filter (key · = k) ++ (waiting (rests qs)).filter (key · = k) =
      (waiting qs).filter (key · = k) := by
  induction qs with
  | nil => rfl
  | cons q qs ih =>
    have hsplit : q.2.head?.toList ++ q.2.tail = q.2 := by
      cases q.2 with
      | nil => rfl
      | cons a l => rfl
    rw [fronts_cons, rests_cons, waiting_cons, waiting_cons, List.filter_append,
      List.filter_append, List.filter_append]
    by_cases hk : q.1 = k
    · have hfronts : (fronts qs).filter (key · = k) = [] := by
        refine filter_eq_nil_of_ne fun a ha hak => ?_
        obtain ⟨p, hp, hap⟩ := List.mem_filterMap.mp ha
        exact h.apart a (List.mem_flatMap.mpr ⟨p, hp, List.mem_of_head? hap⟩) (hak.trans hk.symm)
      have hrest := ih h.tail
      rw [hfronts, List.nil_append] at hrest
      rw [hfronts, List.append_nil, hrest, ← List.append_assoc, ← List.filter_append, hsplit]
    · have hnone : ∀ l : List α, l ⊆ q.2 → l.filter (key · = k) = [] := fun l hl =>
        filter_eq_nil_of_ne fun a ha hak => hk ((h.head a (hl ha)).symm.trans hak)
      have hhead : q.2.head?.toList ⊆ q.2 := fun a ha =>
        List.mem_of_head? (Option.mem_toList.mp ha)
      rw [hnone _ hhead, hnone _ (List.tail_subset _), hnone _ (List.Subset.refl _),
        List.nil_append, List.nil_append, List.nil_append]
      exact ih h.tail

theorem filter_drain (h : Keyed key qs) (k : κ) :
    (drain qs).filter (key · = k) = (waiting qs).filter (key · = k) := by
  have hkept := Loop.iterate_invariant
    (P := fun st : List α × List (κ × List α) => Keyed key st.2 ∧
      st.1.filter (key · = k) ++ (waiting st.2).filter (key · = k) =
        (waiting qs).filter (key · = k))
    (fun st st' hst hstep => by
      obtain ⟨_, rfl⟩ := roundStep_eq_some.mp hstep
      refine ⟨hst.1.rests, ?_⟩
      rw [List.filter_append, List.append_assoc, filter_round hst.1]
      exact hst.2)
    (waiting qs).length ([], qs) ⟨h, rfl⟩
  have hempty := waiting_eq_nil_of_fronts (fronts_drained qs)
  have hsame := hkept.2
  rw [hempty, List.filter_nil, List.append_nil] at hsame
  exact hsame

theorem filter_interleave (key : α → κ) (l : List α) (k : κ) :
    (interleave key l).filter (key · = k) = l.filter (key · = k) := by
  rw [interleave]
  split_ifs
  · rfl
  · exact filter_waiting_queues l k
  · rw [filter_drain (keyed_queues l), filter_waiting_queues]

theorem interleave_perm (key : α → κ) (l : List α) : (interleave key l).Perm l := by
  classical
  rw [List.perm_iff_count]
  intro a
  have hcount : ∀ l : List α, l.count a = (l.filter (key · = key a)).count a := by
    intro l
    rw [List.count_filter]
    simp
  rw [hcount, filter_interleave, ← hcount]

theorem pairwise_interleave {R : α → α → Prop} (h : l.Pairwise R) :
    (interleave key l).Pairwise fun a b => key a = key b → R a b := by
  rw [List.pairwise_iff_forall_sublist]
  intro a b hab hkey
  have hfilter := hab.filter (key · = key b)
  rw [filter_interleave] at hfilter
  have hpair : [a, b].Sublist l := by
    simpa [hkey] using hfilter.trans List.filter_sublist
  exact (List.pairwise_cons.mp (h.sublist hpair)).1 b List.mem_cons_self

/-! ### The first element -/

theorem queues_cons (a : α) (l : List α) :
    ∃ q qs, queues key (a :: l) = (key a, a :: q) :: qs := by
  have hfold : ∀ (l : List α) (q : List α) (qs : List (κ × List α)),
      ∃ q' qs', l.foldl (fun qs a => push key a qs) ((key a, a :: q) :: qs) =
        (key a, a :: q') :: qs' := by
    intro l
    induction l with
    | nil => exact fun q qs => ⟨q, qs, rfl⟩
    | cons b l ih =>
      intro q qs
      rw [List.foldl_cons, push]
      split_ifs with heq
      · exact ih (q ++ [b]) qs
      · exact ih q (push key b qs)
  exact hfold l [] []

theorem head?_interleave (key : α → κ) (l : List α) : (interleave key l).head? = l.head? := by
  rw [interleave]
  split_ifs with hshort hone
  · rfl
  · cases l with
    | nil => rfl
    | cons a l =>
      obtain ⟨q, qs, hqs⟩ : ∃ q qs, queues key (a :: l) = (key a, a :: q) :: qs := queues_cons a l
      rw [hqs]
      rfl
  · cases l with
    | nil => exact absurd (Nat.zero_le 1) hshort
    | cons a l =>
      obtain ⟨q, qs, hqs⟩ : ∃ q qs, queues key (a :: l) = (key a, a :: q) :: qs := queues_cons a l
      rw [hqs, drain]
      have hkept := Loop.iterate_invariant
        (P := fun st : List α × List (κ × List α) => st.1.head? = some a ∨
          st.1 = [] ∧ ∃ k q qs, st.2 = (k, a :: q) :: qs)
        (fun st st' hst hstep => by
          obtain ⟨_, rfl⟩ := roundStep_eq_some.mp hstep
          refine Or.inl ?_
          rcases hst with hhead | ⟨hnil, k, q, qs, hst⟩
          · rw [List.head?_append, hhead]
            rfl
          · rw [hnil, hst]
            rfl)
        (waiting ((key a, a :: q) :: qs)).length ([], (key a, a :: q) :: qs)
        (Or.inr ⟨rfl, key a, q, qs, rfl⟩)
      rcases hkept with hhead | ⟨_, k, q', qs', hqs'⟩
      · exact hhead
      · have hdrained := fronts_drained ((key a, a :: q) :: qs)
        rw [hqs', fronts_cons] at hdrained
        exact absurd hdrained (by simp)

/-! ### Renamed elements -/

theorem push_renamed (f : β → α) (b : β) (qs : List (κ × List β)) :
    push key (f b) (renamed f qs) = renamed f (push (key ∘ f) b qs) := by
  induction qs with
  | nil => rfl
  | cons q qs ih =>
    have hcons : ∀ (q : κ × List β) (qs : List (κ × List β)),
        renamed f (q :: qs) = (q.1, q.2.map f) :: renamed f qs := fun _ _ => rfl
    rw [hcons, push, push]
    by_cases heq : q.1 = key (f b)
    · rw [if_pos heq, if_pos (show q.1 = (key ∘ f) b from heq), hcons, List.map_append]
      rfl
    · rw [if_neg heq, if_neg (show ¬ q.1 = (key ∘ f) b from heq), hcons, ih]

theorem queues_map (f : β → α) (l : List β) : queues key (l.map f) = renamed f (queues (key ∘ f) l) := by
  have hfold : ∀ (l : List β) (qs : List (κ × List β)),
      (l.map f).foldl (fun qs a => push key a qs) (renamed f qs) =
        renamed f (l.foldl (fun qs b => push (key ∘ f) b qs) qs) := by
    intro l
    induction l with
    | nil => exact fun qs => rfl
    | cons b l ih =>
      intro qs
      rw [List.map_cons, List.foldl_cons, List.foldl_cons, push_renamed]
      exact ih _
  exact hfold l []

theorem interleave_map (key : α → κ) (f : β → α) (l : List β) :
    interleave key (l.map f) = (interleave (key ∘ f) l).map f := by
  have hlen : (renamed f (queues (key ∘ f) l)).length = (queues (key ∘ f) l).length :=
    List.length_map _
  rw [interleave, interleave, queues_map, List.length_map, hlen, waiting_renamed, drain_renamed]
  split_ifs <;> rfl

end

end RoundRobin
