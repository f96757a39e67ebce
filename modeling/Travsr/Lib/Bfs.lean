import Mathlib.Logic.Function.Basic
import Mathlib.Order.Basic
import Travsr.Lib.Loop

/-! Breadth-first search with a depth limit over a first-in first-out worklist. -/

namespace Bfs

open Loop

variable {α : Type*} {succ : α → List α} {limit : Nat} {start : α}

/-- Reached from the start in at most `k` steps. -/
def Within (succ : α → List α) (start : α) : Nat → α → Prop
  | 0, x => x = start
  | k + 1, x => Within succ start k x ∨ ∃ y, Within succ start k y ∧ x ∈ succ y

theorem Within.mono {k k' : Nat} {x : α} (h : Within succ start k x) (hk : k ≤ k') :
    Within succ start k' x := by
  induction hk with
  | refl => exact h
  | step _ ih => exact .inl ih

theorem within_start (k : Nat) : Within succ start k start := by
  induction k with
  | zero => rfl
  | succ k ih => exact .inl ih

theorem Within.step {k : Nat} {x y : α} (h : Within succ start k y) (hx : x ∈ succ y) :
    Within succ start (k + 1) x := .inr ⟨y, h, hx⟩

def Waits (w : Worklist α) (x : α) : Prop := x ∈ w.queue.map Prod.fst

def Popped (w : Worklist α) (x : α) : Prop := x ∈ w.visited ∧ ¬ Waits w x

/-- A worklist of the search: every visited element has the level it was queued at, the queue is
sorted by level and spans two levels, and what was popped below the limit has its successors. -/
structure Levels (succ : α → List α) (limit : Nat) (start : α) (w : Worklist α) (level : α → Nat) :
    Prop where
  start_mem : start ∈ w.visited
  start_level : level start = 0
  within : ∀ x ∈ w.visited, Within succ start (level x) x
  le_limit : ∀ x ∈ w.visited, level x ≤ limit
  queued : ∀ q ∈ w.queue, q.1 ∈ w.visited ∧ level q.1 = q.2
  nodup : (w.queue.map Prod.fst).Nodup
  sorted : w.queue.Pairwise fun a b => a.2 ≤ b.2
  near : ∀ q ∈ w.queue, ∀ x ∈ w.visited, level x ≤ q.2 + 1
  done : ∀ x ∈ w.visited, Waits w x ∨
    (level x < limit → ∀ y ∈ succ x, y ∈ w.visited ∧ level y ≤ level x + 1)

theorem levels_start (succ : α → List α) (limit : Nat) (start : α) :
    Levels succ limit start (Worklist.start start) fun _ => 0 := by
  have hvisited : ∀ x ∈ (Worklist.start start).visited, x = start := fun x hx =>
    Finset.mem_singleton.mp hx
  have hqueue : ∀ q ∈ (Worklist.start start).queue, q = (start, 0) := fun q hq =>
    List.mem_singleton.mp hq
  refine ⟨Finset.mem_singleton_self _, rfl, hvisited, fun _ _ => Nat.zero_le _, fun q hq => ?_,
    List.nodup_singleton _, List.pairwise_singleton _ _, fun _ _ _ _ => Nat.zero_le _,
    fun x hx => ?_⟩
  · rw [hqueue q hq]
    exact ⟨Finset.mem_singleton_self _, rfl⟩
  · rw [hvisited x hx]
    exact .inl List.mem_cons_self

/-- While `x`, popped at `depth`, is expanded: `seen` are the successors already pushed. -/
structure Opened (succ : α → List α) (limit : Nat) (start x : α) (depth : Nat) (seen : List α)
    (w : Worklist α) (level : α → Nat) : Prop where
  start_mem : start ∈ w.visited
  start_level : level start = 0
  within : ∀ z ∈ w.visited, Within succ start (level z) z
  le_limit : ∀ z ∈ w.visited, level z ≤ limit
  queued : ∀ q ∈ w.queue, q.1 ∈ w.visited ∧ level q.1 = q.2
  nodup : (w.queue.map Prod.fst).Nodup
  sorted : w.queue.Pairwise fun a b => a.2 ≤ b.2
  low : ∀ q ∈ w.queue, depth ≤ q.2
  high : ∀ z ∈ w.visited, level z ≤ depth + 1
  popped_mem : x ∈ w.visited
  popped_level : level x = depth
  popped : ¬ Waits w x
  pushed : ∀ y ∈ seen, y ∈ w.visited
  done : ∀ z ∈ w.visited, z = x ∨ Waits w z ∨
    (level z < limit → ∀ y ∈ succ z, y ∈ w.visited ∧ level y ≤ level z + 1)

variable {w : Worklist α} {level : α → Nat} {x : α} {depth : Nat} {rest : List (α × Nat)}

theorem Levels.open (h : Levels succ limit start w level) (hq : w.queue = (x, depth) :: rest) :
    Opened succ limit start x depth [] { w with queue := rest } level := by
  have hhead : (x, depth) ∈ w.queue := by
    rw [hq]
    exact List.mem_cons_self
  have htail : ∀ q ∈ rest, q ∈ w.queue := fun q hr => by
    rw [hq]
    exact List.mem_cons_of_mem _ hr
  have hsorted := h.sorted
  have hnodup := h.nodup
  rw [hq] at hsorted hnodup
  obtain ⟨hlow, hsorted⟩ := List.pairwise_cons.mp hsorted
  rw [List.map_cons, List.nodup_cons] at hnodup
  refine ⟨h.start_mem, h.start_level, h.within, h.le_limit, fun q hr => h.queued q (htail q hr),
    hnodup.2, hsorted, hlow, h.near _ hhead, (h.queued _ hhead).1, (h.queued _ hhead).2, hnodup.1,
    fun y hy => absurd hy List.not_mem_nil, fun z hz => ?_⟩
  rcases h.done z hz with hw | hd
  · rw [Waits, hq, List.map_cons, List.mem_cons] at hw
    exact hw.imp_right Or.inl
  · exact .inr (.inr hd)

theorem Opened.close {seen : List α} (h : Opened succ limit start x depth seen w level)
    (hseen : depth < limit → ∀ y ∈ succ x, y ∈ seen) : Levels succ limit start w level := by
  refine ⟨h.start_mem, h.start_level, h.within, h.le_limit, h.queued, h.nodup, h.sorted,
    fun q hq z hz => (h.high z hz).trans (Nat.succ_le_succ (h.low q hq)), fun z hz => ?_⟩
  rcases h.done z hz with rfl | hw | hdone
  · refine .inr fun hlt y hy => ?_
    rw [h.popped_level] at hlt ⊢
    have hv := h.pushed y (hseen hlt y hy)
    exact ⟨hv, h.high y hv⟩
  · exact .inl hw
  · exact .inr hdone

theorem popped_of_empty (hq : w.queue = []) (x : α) : Popped w x ↔ x ∈ w.visited := by
  refine and_iff_left ?_
  rw [Waits, hq]
  exact List.not_mem_nil

theorem Levels.popped_tail (h : Levels succ limit start w level)
    (hq : w.queue = (x, depth) :: rest) (z : α) :
    Popped { w with queue := rest } z ↔ Popped w z ∨ z = x := by
  have hnodup := h.nodup
  have hx : x ∈ w.visited := (h.queued (x, depth) (by rw [hq]; exact List.mem_cons_self)).1
  rw [hq, List.map_cons, List.nodup_cons] at hnodup
  simp only [Popped, Waits, hq, List.map_cons, List.mem_cons]
  constructor
  · rintro ⟨hz, hw⟩
    by_cases hzx : z = x
    · exact .inr hzx
    · exact .inl ⟨hz, fun hor => hor.elim hzx hw⟩
  · rintro (⟨hz, hw⟩ | rfl)
    · exact ⟨hz, fun hm => hw (.inr hm)⟩
    · exact ⟨hx, hnodup.1⟩

theorem Levels.visited_iff (h : Levels succ limit start w level) (hq : w.queue = []) (x : α) :
    x ∈ w.visited ↔ Within succ start limit x := by
  constructor
  · exact fun hx => (h.within x hx).mono (h.le_limit x hx)
  · have hreach : ∀ k x, k ≤ limit → Within succ start k x → x ∈ w.visited ∧ level x ≤ k := by
      intro k
      induction k with
      | zero =>
        rintro x _ rfl
        exact ⟨h.start_mem, h.start_level.le⟩
      | succ k ih =>
        intro x hk hx
        rcases hx with hx | ⟨y, hy, hxy⟩
        · obtain ⟨hv, hl⟩ := ih x (by omega) hx
          exact ⟨hv, hl.trans (Nat.le_succ k)⟩
        · obtain ⟨hv, hl⟩ := ih y (by omega) hy
          rcases h.done y hv with hw | hdone
          · rw [Waits, hq] at hw
            exact absurd hw List.not_mem_nil
          · obtain ⟨hxv, hxl⟩ := hdone (by omega) x hxy
            exact ⟨hxv, by omega⟩
    exact fun hx => (hreach limit x le_rfl hx).1

variable [DecidableEq α]

def expand (succ : α → List α) (limit : Nat) (x : α) (depth : Nat) (w : Worklist α) : Worklist α :=
  if depth < limit then (succ x).foldl (fun w y => w.push y (depth + 1)) w else w

theorem popped_push (w : Worklist α) (y : α) (depth : Nat) (x : α) :
    Popped (w.push y depth) x ↔ Popped w x := by
  unfold Worklist.push
  split_ifs with hmem
  · exact Iff.rfl
  · simp only [Popped, Waits, List.map_append, List.map_cons, List.map_nil, List.mem_append,
      List.mem_singleton, Finset.mem_insert]
    constructor
    · rintro ⟨hx, hw⟩
      exact ⟨hx.resolve_left fun he => hw (.inr he), fun hm => hw (.inl hm)⟩
    · rintro ⟨hx, hw⟩
      refine ⟨.inr hx, fun hor => hor.elim hw fun he => hmem (he ▸ hx)⟩

theorem popped_expand (w : Worklist α) (y : α) (depth : Nat) (x : α) :
    Popped (expand succ limit y depth w) x ↔ Popped w x := by
  unfold expand
  split_ifs
  · induction succ y generalizing w with
    | nil => exact Iff.rfl
    | cons z zs ih =>
      rw [List.foldl_cons, ih]
      exact popped_push w z _ x
  · exact Iff.rfl

theorem Opened.push {seen : List α} {y : α}
    (h : Opened succ limit start x depth seen w level) (hd : depth < limit) (hy : y ∈ succ x) :
    ∃ level', Opened succ limit start x depth (seen ++ [y]) (w.push y (depth + 1)) level' ∧
      ∀ z ∈ w.visited, level' z = level z := by
  unfold Worklist.push
  split_ifs with hmem
  · refine ⟨level, { h with pushed := fun z hz => ?_ }, fun _ _ => rfl⟩
    rcases List.mem_append.mp hz with hz | hz
    · exact h.pushed z hz
    · rw [List.mem_singleton.mp hz]
      exact hmem
  · have hold : ∀ z ∈ w.visited, Function.update level y (depth + 1) z = level z := fun z hz =>
      Function.update_of_ne (fun he : z = y => hmem (he ▸ hz)) _ _
    have hnew : Function.update level y (depth + 1) y = depth + 1 := Function.update_self ..
    have hqueue : ∀ q ∈ w.queue ++ [(y, depth + 1)], q ∈ w.queue ∨ q = (y, depth + 1) :=
      fun q hq => (List.mem_append.mp hq).imp_right List.mem_singleton.mp
    have hwaits : ∀ z, Waits ⟨insert y w.visited, w.queue ++ [(y, depth + 1)]⟩ z ↔
        Waits w z ∨ z = y := by
      intro z
      simp [Waits]
    refine ⟨Function.update level y (depth + 1), ⟨Finset.mem_insert_of_mem h.start_mem,
      (hold _ h.start_mem).trans h.start_level, ?_, ?_, ?_, ?_, ?_, ?_, ?_,
      Finset.mem_insert_of_mem h.popped_mem, (hold _ h.popped_mem).trans h.popped_level, ?_, ?_, ?_⟩,
      hold⟩
    · intro z hz
      rcases Finset.mem_insert.mp hz with rfl | hz
      · rw [hnew, ← h.popped_level]
        exact (h.within x h.popped_mem).step hy
      · rw [hold z hz]
        exact h.within z hz
    · intro z hz
      rcases Finset.mem_insert.mp hz with rfl | hz
      · rw [hnew]
        exact hd
      · rw [hold z hz]
        exact h.le_limit z hz
    · intro q hq
      rcases hqueue q hq with hq | rfl
      · obtain ⟨hv, hl⟩ := h.queued q hq
        exact ⟨Finset.mem_insert_of_mem hv, (hold _ hv).trans hl⟩
      · exact ⟨Finset.mem_insert_self _ _, hnew⟩
    · rw [List.map_append, List.nodup_append]
      refine ⟨h.nodup, List.nodup_singleton _, fun a ha b hb hab => hmem ?_⟩
      obtain ⟨q, hq, hqa⟩ := List.mem_map.mp ha
      have hby : b = y := List.mem_singleton.mp hb
      rw [← hby, ← hab, ← hqa]
      exact (h.queued q hq).1
    · refine List.pairwise_append.mpr ⟨h.sorted, List.pairwise_singleton _ _, fun a ha b hb => ?_⟩
      rw [List.mem_singleton.mp hb, ← (h.queued a ha).2]
      exact h.high _ (h.queued a ha).1
    · intro q hq
      rcases hqueue q hq with hq | rfl
      · exact h.low q hq
      · exact Nat.le_succ depth
    · intro z hz
      rcases Finset.mem_insert.mp hz with rfl | hz
      · exact hnew.le
      · rw [hold z hz]
        exact h.high z hz
    · rw [hwaits]
      rintro (hw | rfl)
      · exact h.popped hw
      · exact hmem h.popped_mem
    · intro z hz
      rcases List.mem_append.mp hz with hz | hz
      · exact Finset.mem_insert_of_mem (h.pushed z hz)
      · rw [List.mem_singleton.mp hz]
        exact Finset.mem_insert_self _ _
    · intro z hz
      rw [hwaits]
      rcases Finset.mem_insert.mp hz with rfl | hz
      · exact .inr (.inl (.inr rfl))
      · rcases h.done z hz with he | hw | hdone
        · exact .inl he
        · exact .inr (.inl (.inl hw))
        · refine .inr (.inr fun hlt u hu => ?_)
          rw [hold z hz] at hlt ⊢
          obtain ⟨hv, hl⟩ := hdone hlt u hu
          exact ⟨Finset.mem_insert_of_mem hv, (hold u hv).trans_le hl⟩

theorem Opened.foldl_push {seen ys : List α} (h : Opened succ limit start x depth seen w level)
    (hd : depth < limit) (hys : ∀ y ∈ ys, y ∈ succ x) :
    ∃ level', Opened succ limit start x depth (seen ++ ys)
        (ys.foldl (fun w y => w.push y (depth + 1)) w) level' ∧
      ∀ z ∈ w.visited, level' z = level z := by
  induction ys generalizing seen w level with
  | nil =>
    rw [List.append_nil]
    exact ⟨level, h, fun _ _ => rfl⟩
  | cons y ys ih =>
    obtain ⟨hy, hys⟩ := List.forall_mem_cons.mp hys
    obtain ⟨level', h', hl'⟩ := h.push hd hy
    obtain ⟨level'', h'', hl''⟩ := ih h' hys
    rw [List.append_assoc] at h''
    refine ⟨level'', h'', fun z hz => (hl'' z ?_).trans (hl' z hz)⟩
    unfold Worklist.push
    split_ifs
    · exact hz
    · exact Finset.mem_insert_of_mem hz

theorem Levels.pop (h : Levels succ limit start w level) (hq : w.queue = (x, depth) :: rest) :
    ∃ level', Levels succ limit start (expand succ limit x depth { w with queue := rest }) level' ∧
      ∀ z ∈ w.visited, level' z = level z := by
  have ho := h.open hq
  unfold expand
  split_ifs with hd
  · obtain ⟨level', h', hl'⟩ := ho.foldl_push hd fun y hy => hy
    exact ⟨level', h'.close fun _ y hy => hy, hl'⟩
  · exact ⟨level, ho.close fun hlt => absurd hlt hd, fun _ _ => rfl⟩

/-! ### The order of the search -/

def pops (succ : α → List α) (limit : Nat) : Nat → Worklist α → List α
  | 0, _ => []
  | n + 1, w =>
    match w.queue with
    | [] => []
    | (x, depth) :: rest => x :: pops succ limit n (expand succ limit x depth { w with queue := rest })

theorem pops_of_empty (hq : w.queue = []) (n : Nat) : pops succ limit n w = [] := by
  cases n with
  | zero => rfl
  | succ n => rw [pops, hq]

theorem pops_succ (hq : w.queue = (x, depth) :: rest) (n : Nat) :
    pops succ limit (n + 1) w =
      x :: pops succ limit n (expand succ limit x depth { w with queue := rest }) := by
  rw [pops, hq]

theorem Levels.nodup_pops (h : Levels succ limit start w level) (n : Nat) :
    (pops succ limit n w).Nodup ∧ ∀ z ∈ pops succ limit n w, ¬ Popped w z := by
  induction n generalizing w level with
  | zero => exact ⟨List.nodup_nil, fun z hz => absurd hz List.not_mem_nil⟩
  | succ n ih =>
    cases hq : w.queue with
    | nil =>
      rw [pops_of_empty hq]
      exact ⟨List.nodup_nil, fun z hz => absurd hz List.not_mem_nil⟩
    | cons head rest =>
      obtain ⟨x, depth⟩ := head
      obtain ⟨level', h', _⟩ := h.pop hq
      obtain ⟨hnodup, hfresh⟩ := ih h'
      have hpopped : ∀ z, Popped (expand succ limit x depth { w with queue := rest }) z ↔
          Popped w z ∨ z = x := fun z =>
        (popped_expand _ _ _ z).trans (h.popped_tail hq z)
      rw [pops_succ hq]
      refine ⟨List.nodup_cons.mpr ⟨fun hx => ?_, hnodup⟩, fun z hz => ?_⟩
      · exact hfresh x hx ((hpopped x).mpr (.inr rfl))
      · rcases List.mem_cons.mp hz with rfl | hz
        · intro hpop
          refine hpop.2 ?_
          rw [Waits, hq]
          exact List.mem_cons_self
        · exact fun hpop => hfresh z hz ((hpopped z).mpr (.inl hpop))

end Bfs
