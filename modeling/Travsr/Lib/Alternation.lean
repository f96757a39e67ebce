import Mathlib.Data.Finset.Card
import Mathlib.Data.List.Nodup

/-! A search over two kinds of steps. Near steps lead from an element to others; far steps lead from
an element's label. All near steps are drained before a pass takes the far steps of every label met
since the last pass, label by label. -/

namespace Alternation

variable {α κ : Type} {near : α → α → Prop} {label : α → Option κ} {far : κ → α → Prop}
  {seeds : List α}

/-! ### Walks -/

def nearKey : List Nat → List Nat
  | [] => []
  | b :: k => (b + 1) :: k

/-- A walk from a seed, with its near steps since the last far step, between the last two, and so
on. -/
inductive Walk (near : α → α → Prop) (label : α → Option κ) (far : κ → α → Prop)
    (seeds : List α) : List Nat → α → Prop where
  | seed {x : α} : x ∈ seeds → Walk near label far seeds [0] x
  | near {k : List Nat} {x y : α} : Walk near label far seeds k x → near x y →
      Walk near label far seeds (nearKey k) y
  | far {k : List Nat} {x y : α} {f : κ} : Walk near label far seeds k x → label x = some f →
      far f y → Walk near label far seeds (0 :: k) y

theorem Walk.of_seeds {seeds' : List α} (hseeds : ∀ x ∈ seeds, x ∈ seeds') {k : List Nat} {x : α}
    (h : Walk near label far seeds k x) : Walk near label far seeds' k x := by
  induction h with
  | seed hx => exact .seed (hseeds _ hx)
  | near _ hstep ih => exact ih.near hstep
  | far _ hlabel hstep ih => exact ih.far hlabel hstep

def LexLe : List Nat → List Nat → Prop
  | [], _ => True
  | _ :: _, [] => False
  | a :: k, b :: k' => a < b ∨ (a = b ∧ LexLe k k')

theorem LexLe.refl (k : List Nat) : LexLe k k := by
  induction k with
  | nil => trivial
  | cons a k ih => exact .inr ⟨rfl, ih⟩

theorem LexLe.trans {k k' k'' : List Nat} (h : LexLe k k') (h' : LexLe k' k'') : LexLe k k'' := by
  induction k generalizing k' k'' with
  | nil => trivial
  | cons a k ih =>
    cases k' with
    | nil => exact h.elim
    | cons b k' =>
      cases k'' with
      | nil => exact h'.elim
      | cons c k'' =>
        rcases h with h | ⟨rfl, h⟩
        · exact h'.elim (fun h' => .inl (h.trans h')) fun h' => .inl (h'.1 ▸ h)
        · exact h'.imp id fun h' => ⟨h'.1, ih h h'.2⟩

/-- Fewer far steps, or as many and no more near steps where the two first differ. -/
def Le (k k' : List Nat) : Prop := k.length < k'.length ∨ (k.length = k'.length ∧ LexLe k k')

theorem Le.refl (k : List Nat) : Le k k := .inr ⟨rfl, .refl k⟩

theorem Le.trans {k k' k'' : List Nat} (h : Le k k') (h' : Le k' k'') : Le k k'' := by
  rcases h with h | ⟨h, hle⟩ <;> rcases h' with h' | ⟨h', hle'⟩
  · exact .inl (h.trans h')
  · exact .inl (h' ▸ h)
  · exact .inl (h ▸ h')
  · exact .inr ⟨h.trans h', hle.trans hle'⟩

theorem Le.length {k k' : List Nat} (h : Le k k') : k.length ≤ k'.length :=
  h.elim Nat.le_of_lt fun h => h.1.le

theorem length_nearKey (k : List Nat) : (nearKey k).length = k.length := by
  cases k <;> rfl

theorem Le.nearKey {k k' : List Nat} (h : Le k k') : Le (Alternation.nearKey k) (Alternation.nearKey k') := by
  rcases h with h | ⟨h, hle⟩
  · left
    rw [length_nearKey, length_nearKey]
    exact h
  · right
    refine ⟨by rw [length_nearKey, length_nearKey, h], ?_⟩
    cases k with
    | nil =>
      cases k' with
      | nil => exact hle
      | cons b t => cases h
    | cons a s =>
      cases k' with
      | nil => cases h
      | cons b t =>
        exact hle.imp Nat.succ_lt_succ fun hle => ⟨congrArg Nat.succ hle.1, hle.2⟩

theorem Le.farKey {k k' : List Nat} (h : Le k k') : Le (0 :: k) (0 :: k') := by
  rcases h with h | ⟨h, hle⟩
  · exact .inl (Nat.succ_lt_succ h)
  · exact .inr ⟨congrArg Nat.succ h, (.inr ⟨rfl, hle⟩)⟩

theorem le_nearKey (k : List Nat) : Le k (nearKey k) := by
  right
  refine ⟨(length_nearKey k).symm, ?_⟩
  cases k with
  | nil => trivial
  | cons b t => exact .inl (Nat.lt_succ_self b)

theorem le_farKey (k : List Nat) : Le k (0 :: k) := .inl (Nat.lt_succ_self _)

theorem Walk.length_pos {k : List Nat} {x : α} (h : Walk near label far seeds k x) :
    0 < k.length := by
  induction h with
  | seed _ => exact Nat.zero_lt_one
  | near _ _ ih => rwa [length_nearKey]
  | far _ _ _ _ => exact Nat.succ_pos _

theorem Le.far_near {k k' : List Nat} (hpos : 0 < k'.length) (h : k.length + 1 ≤ k'.length) :
    Le (0 :: k) (Alternation.nearKey k') := by
  cases k' with
  | nil => exact absurd hpos (Nat.lt_irrefl 0)
  | cons b t =>
    rcases Nat.lt_or_eq_of_le h with h | h
    · exact .inl h
    · exact .inr ⟨h, (.inl (Nat.succ_pos b))⟩

def Before (near : α → α → Prop) (label : α → Option κ) (far : κ → α → Prop) (seeds : List α)
    (x y : α) : Prop :=
  ∀ k, Walk near label far seeds k y → ∃ k', Walk near label far seeds k' x ∧ Le k' k

theorem Walk.exit {V : List α} (hseeds : ∀ x ∈ seeds, x ∈ V) {k : List Nat} {y : α}
    (h : Walk near label far seeds k y) (hy : y ∉ V) :
    ∃ w ∈ V, ∃ z, z ∉ V ∧ ∃ k', Walk near label far seeds k' w ∧
      ((near w z ∧ Le (nearKey k') k) ∨ ∃ f, label w = some f ∧ far f z ∧ Le (0 :: k') k) := by
  induction h with
  | seed hx => exact absurd (hseeds _ hx) hy
  | @near k x y hx hstep ih =>
    by_cases hxV : x ∈ V
    · exact ⟨x, hxV, y, hy, k, hx, .inl ⟨hstep, .refl _⟩⟩
    · obtain ⟨w, hw, z, hz, k', hwalk, hexit⟩ := ih hxV
      have hle := le_nearKey k
      exact ⟨w, hw, z, hz, k', hwalk,
        hexit.imp (fun h => ⟨h.1, h.2.trans hle⟩) fun ⟨f, hf, hfar, h⟩ => ⟨f, hf, hfar, h.trans hle⟩⟩
  | @far k x y f hx hlabel hstep ih =>
    by_cases hxV : x ∈ V
    · exact ⟨x, hxV, y, hy, k, hx, .inr ⟨f, hlabel, hstep, .refl _⟩⟩
    · obtain ⟨w, hw, z, hz, k', hwalk, hexit⟩ := ih hxV
      have hle := le_farKey k
      exact ⟨w, hw, z, hz, k', hwalk,
        hexit.imp (fun h => ⟨h.1, h.2.trans hle⟩) fun ⟨f, hf, hfar, h⟩ => ⟨f, hf, hfar, h.trans hle⟩⟩

/-! ### The search -/

/-- The search's books: what is met in the order it was met, what waits, and the labels whose far
steps are taken. -/
structure Ledger (α κ : Type) where
  visited : List α
  queue : List α
  done : List κ

/-- What a pass over labels adds to the elements met before it, label by label. -/
inductive Gathered (far : κ → α → Prop) : List α → List κ → List α → Prop where
  | nil {V : List α} : Gathered far V [] []
  | cons {V group added : List α} {f : κ} {todo : List κ} : group.Nodup →
      (∀ y ∈ group, y ∉ V ∧ far f y) → (∀ y, far f y → y ∈ V ++ group) →
      Gathered far (V ++ group) todo added → Gathered far V (f :: todo) (group ++ added)

theorem Gathered.new {V added : List α} {todo : List κ} (h : Gathered far V todo added) :
    ∀ y ∈ added, y ∉ V ∧ ∃ f ∈ todo, far f y := by
  induction h with
  | nil => exact fun y hy => (List.not_mem_nil hy).elim
  | @cons V group added f todo _ hnew _ _ ih =>
    intro y hy
    rcases List.mem_append.mp hy with hy | hy
    · exact ⟨(hnew y hy).1, f, List.mem_cons_self, (hnew y hy).2⟩
    · obtain ⟨hyV, g, hg, hgy⟩ := ih y hy
      exact ⟨fun hyV' => hyV (List.mem_append_left _ hyV'), g, List.mem_cons_of_mem f hg, hgy⟩

theorem Gathered.nodup {V added : List α} {todo : List κ} (h : Gathered far V todo added) :
    added.Nodup := by
  induction h with
  | nil => exact List.nodup_nil
  | cons hnodup _ _ hrest ih =>
    exact List.nodup_append.mpr ⟨hnodup, ih, fun a ha b hb hab =>
      (hrest.new b hb).1 (List.mem_append_right _ (hab ▸ ha))⟩

theorem Gathered.all {V added : List α} {todo : List κ} (h : Gathered far V todo added) :
    ∀ f ∈ todo, ∀ y, far f y → y ∈ V ++ added := by
  induction h with
  | nil => exact fun f hf => (List.not_mem_nil hf).elim
  | @cons V group added f todo _ _ hall _ ih =>
    intro g hg y hy
    rw [← List.append_assoc]
    rcases List.mem_cons.mp hg with rfl | hg
    · exact List.mem_append_left _ (hall y hy)
    · exact ih g hg y hy

/-- The first label has an element that is met before every element of the second. -/
def LabelBefore (label : α → Option κ) (visited : List α) (f f' : κ) : Prop :=
  ∃ x ∈ visited, label x = some f ∧ ∀ x' ∈ visited, label x' = some f' → [x, x'].Sublist visited

/-- One turn of the search. -/
inductive Turn (near : α → α → Prop) (label : α → Option κ) (far : κ → α → Prop) :
    Ledger α κ → Ledger α κ → Prop where
  | drain {visited rest fresh : List α} {done : List κ} {x : α} : fresh.Nodup →
      (∀ y, y ∈ fresh ↔ near x y ∧ y ∉ visited) →
      Turn near label far ⟨visited, x :: rest, done⟩ ⟨visited ++ fresh, rest ++ fresh, done⟩
  | pass {visited added : List α} {done done' todo : List κ} : todo ≠ [] →
      (∀ f, f ∈ todo ↔ (∃ x ∈ visited, label x = some f) ∧ f ∉ done) →
      todo.Pairwise (LabelBefore label visited) → Gathered far visited todo added →
      (∀ f, f ∈ done' ↔ f ∈ done ∨ f ∈ todo) →
      Turn near label far ⟨visited, [], done⟩ ⟨visited ++ added, added, done'⟩

/-- What holds of the books when what waits took so many rounds. -/
structure Kept (near : α → α → Prop) (label : α → Option κ) (far : κ → α → Prop) (seeds : List α)
    (i : Nat) (l : Ledger α κ) : Prop where
  split : ∃ popped, l.visited = popped ++ l.queue ∧
    ∀ x ∈ popped, ∀ y, near x y → y ∈ l.visited
  nodup : l.visited.Nodup
  seeds_met : ∀ x ∈ seeds, x ∈ l.visited
  walked : ∀ x ∈ l.visited, ∃ k, Walk near label far seeds k x
  done_far : ∀ f ∈ l.done, ∀ y, far f y → y ∈ l.visited
  waiting : ∀ x ∈ l.queue, ∃ k, Walk near label far seeds k x ∧ k.length = i
  waiting_low : ∀ x ∈ l.queue, ∀ k, Walk near label far seeds k x → i ≤ k.length
  undone : ∀ x ∈ l.visited, ∀ f, label x = some f → f ∉ l.done →
    ∀ k, Walk near label far seeds k x → i ≤ k.length
  fresh : ∀ f, f ∉ l.done → (∃ x ∈ l.visited, label x = some f) →
    ∃ x ∈ l.visited, label x = some f ∧ ∃ k, Walk near label far seeds k x ∧ k.length = i
  sorted : l.visited.Pairwise (Before near label far seeds)
  ahead : ∀ x ∈ l.visited, ∀ y, y ∉ l.visited → Before near label far seeds x y

theorem le_seedKey {k : List Nat} {x : α} (h : Walk near label far seeds k x) : Le [0] k := by
  have hpos := h.length_pos
  cases k with
  | nil => exact absurd hpos (Nat.lt_irrefl 0)
  | cons b t =>
    cases t with
    | nil =>
      refine .inr ⟨rfl, ?_⟩
      rcases Nat.eq_zero_or_pos b with h0 | h0
      · exact .inr ⟨h0.symm, trivial⟩
      · exact .inl h0
    | cons c t => exact .inl (Nat.succ_lt_succ (Nat.succ_pos _))

theorem kept_start {met : List α} (hnodup : met.Nodup) (hmet : ∀ x, x ∈ met ↔ x ∈ seeds) :
    Kept near label far seeds 1 ⟨met, met, []⟩ := by
  have hbefore : ∀ x ∈ met, ∀ y, Before near label far seeds x y := fun x hx y k hk =>
    ⟨[0], .seed ((hmet x).mp hx), le_seedKey hk⟩
  refine ⟨⟨[], rfl, fun x hx => (List.not_mem_nil hx).elim⟩, hnodup, fun x hx => (hmet x).mpr hx,
    fun x hx => ⟨[0], .seed ((hmet x).mp hx)⟩, fun f hf => (List.not_mem_nil hf).elim,
    fun x hx => ⟨[0], .seed ((hmet x).mp hx), rfl⟩, fun _ _ _ hk => hk.length_pos,
    fun _ _ _ _ _ _ hk => hk.length_pos, ?_, ?_, fun x hx y _ => hbefore x hx y⟩
  · rintro f - ⟨x, hx, hf⟩
    exact ⟨x, hx, hf, [0], .seed ((hmet x).mp hx), rfl⟩
  · exact List.pairwise_of_forall_mem_list fun x hx y _ => hbefore x hx y

theorem Kept.drain_before {i : Nat} {visited rest : List α} {done : List κ} {x : α}
    (h : Kept near label far seeds i ⟨visited, x :: rest, done⟩) {y y' : α} (hxy : near x y)
    (hy' : y' ∉ visited) : Before near label far seeds y y' := by
  intro k hwalk
  obtain ⟨popped, hsplit, hclosed⟩ := h.split
  dsimp only at hsplit
  obtain ⟨w, hw, z, hz, k', hww, ⟨hnear, hle⟩ | ⟨f, hf, hfar, hle⟩⟩ := hwalk.exit h.seeds_met hy'
  · have hwq : w ∈ x :: rest := by
      have hw : w ∈ popped ++ x :: rest := hsplit ▸ hw
      exact (List.mem_append.mp hw).resolve_left fun hp => hz (hclosed w hp z hnear)
    have hxw : ∃ c, Walk near label far seeds c x ∧ Le c k' := by
      rcases List.mem_cons.mp hwq with rfl | hwr
      · exact ⟨k', hww, .refl _⟩
      · have hsorted := h.sorted
        rw [hsplit, List.pairwise_append, List.pairwise_cons] at hsorted
        exact hsorted.2.1.1 w hwr k' hww
    obtain ⟨c, hc, hle'⟩ := hxw
    exact ⟨nearKey c, hc.near hxy, hle'.nearKey.trans hle⟩
  · have hfd : f ∉ done := fun hd => hz (h.done_far f hd z hfar)
    have hi := h.undone w hw f hf hfd k' hww
    obtain ⟨c, hc, hlen⟩ := h.waiting x List.mem_cons_self
    refine ⟨nearKey c, hc.near hxy, Le.trans (.inl ?_) hle⟩
    rw [length_nearKey, List.length_cons]
    omega

theorem Kept.low {i : Nat} {l : Ledger α κ} (h : Kept near label far seeds i l) {y : α}
    (hy : y ∉ l.visited) {k : List Nat} (hwalk : Walk near label far seeds k y) : i ≤ k.length := by
  obtain ⟨popped, hsplit, hclosed⟩ := h.split
  obtain ⟨w, hw, z, hz, k', hww, ⟨hnear, hle⟩ | ⟨f, hf, hfar, hle⟩⟩ := hwalk.exit h.seeds_met hy
  · have hwq : w ∈ l.queue := by
      rw [hsplit] at hw
      exact (List.mem_append.mp hw).resolve_left fun hp => hz (hclosed w hp z hnear)
    have hi := h.waiting_low w hwq k' hww
    have hlen := hle.length
    rw [length_nearKey] at hlen
    omega
  · have hfd : f ∉ l.done := fun hd => hz (h.done_far f hd z hfar)
    have hi := h.undone w hw f hf hfd k' hww
    have hlen := hle.length
    rw [List.length_cons] at hlen
    omega

/-- With nothing waiting, whatever is not met yet is left to by a far step of a label that is not
done. -/
theorem Kept.far_exit {i : Nat} {visited : List α} {done : List κ}
    (h : Kept near label far seeds i ⟨visited, [], done⟩) {y : α} (hy : y ∉ visited) {k : List Nat}
    (hwalk : Walk near label far seeds k y) : i + 1 ≤ k.length := by
  obtain ⟨popped, hsplit, hclosed⟩ := h.split
  dsimp only at hsplit
  obtain ⟨w, hw, z, hz, k', hww, ⟨hnear, -⟩ | ⟨f, hf, hfar, hle⟩⟩ := hwalk.exit h.seeds_met hy
  · have hw : w ∈ popped := by
      rw [hsplit, List.append_nil] at hw
      exact hw
    exact absurd (hclosed w hw z hnear) hz
  · have hfd : f ∉ done := fun hd => hz (h.done_far f hd z hfar)
    have hi := h.undone w hw f hf hfd k' hww
    have hlen := hle.length
    rw [List.length_cons] at hlen
    omega

theorem Kept.drain {i : Nat} {visited rest fresh : List α} {done : List κ} {x : α}
    (h : Kept near label far seeds i ⟨visited, x :: rest, done⟩) (hnodup : fresh.Nodup)
    (hfresh : ∀ y, y ∈ fresh ↔ near x y ∧ y ∉ visited) :
    Kept near label far seeds i ⟨visited ++ fresh, rest ++ fresh, done⟩ := by
  obtain ⟨popped, hsplit, hclosed⟩ := h.split
  dsimp only at hsplit
  have hold : ∀ {z}, z ∈ visited → z ∈ visited ++ fresh := fun hz => List.mem_append_left _ hz
  have hstep : ∀ y ∈ fresh, ∃ k, Walk near label far seeds k y ∧ k.length = i := by
    intro y hy
    obtain ⟨k, hk, hlen⟩ := h.waiting x List.mem_cons_self
    exact ⟨nearKey k, hk.near ((hfresh y).mp hy).1, (length_nearKey k).trans hlen⟩
  refine ⟨⟨popped ++ [x], ?_, ?_⟩, ?_, fun s hs => hold (h.seeds_met s hs), ?_,
    fun f hf y hy => hold (h.done_far f hf y hy), ?_, ?_, ?_, ?_, ?_, ?_⟩
  · dsimp only
    rw [hsplit, List.append_assoc, List.append_assoc, List.cons_append, List.singleton_append]
  · intro z hz y hy
    dsimp only
    rcases List.mem_append.mp hz with hz | hz
    · exact hold (hclosed z hz y hy)
    · rw [List.mem_singleton.mp hz] at hy
      by_cases hyv : y ∈ visited
      · exact hold hyv
      · exact List.mem_append_right _ ((hfresh y).mpr ⟨hy, hyv⟩)
  · refine List.nodup_append.mpr ⟨h.nodup, hnodup, fun a ha b hb hab => ?_⟩
    exact ((hfresh b).mp hb).2 (hab ▸ ha)
  · intro z hz
    rcases List.mem_append.mp hz with hz | hz
    · exact h.walked z hz
    · obtain ⟨k, hk, -⟩ := hstep z hz
      exact ⟨k, hk⟩
  · intro z hz
    rcases List.mem_append.mp hz with hz | hz
    · exact h.waiting z (List.mem_cons_of_mem x hz)
    · exact hstep z hz
  · intro z hz k hwalk
    rcases List.mem_append.mp hz with hz | hz
    · exact h.waiting_low z (List.mem_cons_of_mem x hz) k hwalk
    · exact h.low ((hfresh z).mp hz).2 hwalk
  · intro z hz f hzf hfd k hwalk
    rcases List.mem_append.mp hz with hz | hz
    · exact h.undone z hz f hzf hfd k hwalk
    · exact h.low ((hfresh z).mp hz).2 hwalk
  · rintro f hfd ⟨z, hz, hzf⟩
    rcases List.mem_append.mp hz with hz | hz
    · obtain ⟨u, hu, huf, hk⟩ := h.fresh f hfd ⟨z, hz, hzf⟩
      exact ⟨u, hold hu, huf, hk⟩
    · exact ⟨z, List.mem_append_right _ hz, hzf, hstep z hz⟩
  · refine List.pairwise_append.mpr ⟨h.sorted, ?_, fun a ha b hb => ?_⟩
    · exact List.pairwise_of_forall_mem_list fun a ha b hb =>
        h.drain_before ((hfresh a).mp ha).1 ((hfresh b).mp hb).2
    · exact h.ahead a ha b ((hfresh b).mp hb).2
  · intro z hz y hy
    have hyv : y ∉ visited := fun hv => hy (hold hv)
    rcases List.mem_append.mp hz with hz | hz
    · exact h.ahead z hz y hyv
    · exact h.drain_before ((hfresh z).mp hz).1 hyv

/-! ### A pass -/

section pass

variable {i : Nat} {visited : List α} {done todo : List κ}
  (h : Kept near label far seeds i ⟨visited, [], done⟩)
  (htodo : ∀ f, f ∈ todo ↔ (∃ x ∈ visited, label x = some f) ∧ f ∉ done)
  (horder : todo.Pairwise (LabelBefore label visited))

include h htodo horder

/-- What a label's far steps add is as near as anything that none of the labels before leads to. -/
theorem Kept.far_before {pre rest : List κ} {f : κ} (hsplit : todo = pre ++ f :: rest)
    {V : List α} (hV : ∀ x ∈ visited, x ∈ V) (hpre : ∀ g ∈ pre, ∀ y, far g y → y ∈ V) {y y' : α}
    (hy : far f y) (hy' : y' ∉ V) : Before near label far seeds y y' := by
  intro k hwalk
  have hclosed : ∀ x ∈ visited, ∀ y, near x y → y ∈ visited := by
    obtain ⟨popped, hpopped, hclosed⟩ := h.split
    dsimp only at hpopped
    rw [List.append_nil] at hpopped
    exact fun x hx => hclosed x (hpopped ▸ hx)
  have hf : f ∈ todo := hsplit ▸ List.mem_append_right _ List.mem_cons_self
  obtain ⟨⟨x₀, hx₀, hx₀f⟩, hfd⟩ := (htodo f).mp hf
  obtain ⟨u, -, huf, c, hc, hclen⟩ := h.fresh f hfd ⟨x₀, hx₀, hx₀f⟩
  obtain ⟨w, hw, z, hz, k', hww, ⟨hnear, hle⟩ | ⟨g, hg, hfar, hle⟩⟩ :=
    hwalk.exit (fun x hx => hV x (h.seeds_met x hx)) hy'
  · have hwv : w ∉ visited := fun hwv => hz (hV z (hclosed w hwv z hnear))
    have hlen := h.far_exit hwv hww
    exact ⟨0 :: c, hc.far huf hy, (Le.far_near hww.length_pos (hclen ▸ hlen)).trans hle⟩
  · by_cases hwv : w ∈ visited
    · have hgd : g ∉ done := fun hd => hz (hV z (h.done_far g hd z hfar))
      have hgt : g ∈ pre ++ f :: rest := hsplit ▸ (htodo g).mpr ⟨⟨w, hwv, hg⟩, hgd⟩
      have hgr : g ∈ f :: rest :=
        (List.mem_append.mp hgt).resolve_left fun hgp => hz (hpre g hgp z hfar)
      rcases List.mem_cons.mp hgr with rfl | hgr
      · exact ⟨0 :: k', hww.far hg hy, hle⟩
      · rw [hsplit, List.pairwise_append, List.pairwise_cons] at horder
        obtain ⟨x, -, hxf, hfirst⟩ := horder.2.1.1 g hgr
        have hbefore := List.pairwise_iff_forall_sublist.mp h.sorted (hfirst w hwv hg)
        obtain ⟨c', hc', hle'⟩ := hbefore k' hww
        exact ⟨0 :: c', hc'.far hxf hy, hle'.farKey.trans hle⟩
    · have hlen := h.far_exit hwv hww
      refine ⟨0 :: c, hc.far huf hy, Le.trans (.inl ?_) hle⟩
      rw [List.length_cons, List.length_cons]
      omega

theorem Kept.gather {pre rest : List κ} {V added : List α} (hsplit : todo = pre ++ rest)
    (hV : ∀ x ∈ visited, x ∈ V) (hpre : ∀ g ∈ pre, ∀ y, far g y → y ∈ V)
    (hg : Gathered far V rest added) :
    added.Pairwise (Before near label far seeds) ∧
      ∀ y ∈ added, ∀ y', y' ∉ V ++ added → Before near label far seeds y y' := by
  induction hg generalizing pre with
  | nil => exact ⟨.nil, fun y hy => (List.not_mem_nil hy).elim⟩
  | @cons V group added f rest _ hnew hall hrest ih =>
    have hpre' : ∀ g ∈ pre ++ [f], ∀ y, far g y → y ∈ V ++ group := by
      intro g hg y hy
      rcases List.mem_append.mp hg with hg | hg
      · exact List.mem_append_left _ (hpre g hg y hy)
      · exact hall y (List.mem_singleton.mp hg ▸ hy)
    obtain ⟨hsorted, hahead⟩ := ih (by rw [hsplit]; simp)
      (fun x hx => List.mem_append_left _ (hV x hx)) hpre'
    have hbefore : ∀ y ∈ group, ∀ y', y' ∉ V → Before near label far seeds y y' :=
      fun y hy y' hy' => h.far_before htodo horder hsplit hV hpre (hnew y hy).2 hy'
    refine ⟨List.pairwise_append.mpr ⟨?_, hsorted, fun a ha b hb => ?_⟩, fun y hy y' hy' => ?_⟩
    · exact List.pairwise_of_forall_mem_list fun a ha b hb => hbefore a ha b (hnew b hb).1
    · exact hbefore a ha b fun hbV => (hrest.new b hb).1 (List.mem_append_left _ hbV)
    · rcases List.mem_append.mp hy with hy | hy
      · exact hbefore y hy y' fun hyV => hy' (List.mem_append_left _ hyV)
      · refine hahead y hy y' ?_
        rwa [List.append_assoc]

theorem Kept.pass {added : List α} {done' : List κ} (hg : Gathered far visited todo added)
    (hdone : ∀ f, f ∈ done' ↔ f ∈ done ∨ f ∈ todo) :
    Kept near label far seeds (i + 1) ⟨visited ++ added, added, done'⟩ := by
  obtain ⟨hsorted, hahead⟩ := h.gather htodo horder (List.nil_append todo).symm
    (fun x hx => hx) (fun g hg => (List.not_mem_nil hg).elim) hg
  have hnew := hg.new
  have hold : ∀ {z}, z ∈ visited → z ∈ visited ++ added := fun hz => List.mem_append_left _ hz
  have hclosed : ∀ x ∈ visited, ∀ y, near x y → y ∈ visited := by
    obtain ⟨popped, hpopped, hclosed⟩ := h.split
    dsimp only at hpopped
    rw [List.append_nil] at hpopped
    exact fun x hx => hclosed x (hpopped ▸ hx)
  have hstep : ∀ y ∈ added, ∃ k, Walk near label far seeds k y ∧ k.length = i + 1 := by
    intro y hy
    obtain ⟨-, f, hf, hfy⟩ := hnew y hy
    obtain ⟨hmet, hfd⟩ := (htodo f).mp hf
    obtain ⟨x, -, hxf, k, hk, hlen⟩ := h.fresh f hfd hmet
    exact ⟨0 :: k, hk.far hxf hfy, congrArg Nat.succ hlen⟩
  have hlow : ∀ y ∈ added, ∀ k, Walk near label far seeds k y → i + 1 ≤ k.length :=
    fun y hy k hk => h.far_exit (hnew y hy).1 hk
  have hundone : ∀ z ∈ visited, ∀ f, label z = some f → f ∈ done' := by
    intro z hz f hzf
    by_cases hfd : f ∈ done
    · exact (hdone f).mpr (.inl hfd)
    · exact (hdone f).mpr (.inr ((htodo f).mpr ⟨⟨z, hz, hzf⟩, hfd⟩))
  refine ⟨⟨visited, rfl, fun x hx y hy => hold (hclosed x hx y hy)⟩, ?_,
    fun s hs => hold (h.seeds_met s hs), ?_, ?_, hstep, hlow, ?_, ?_, ?_, ?_⟩
  · exact List.nodup_append.mpr ⟨h.nodup, hg.nodup, fun a ha b hb hab =>
      (hnew b hb).1 (hab ▸ ha)⟩
  · intro z hz
    rcases List.mem_append.mp hz with hz | hz
    · exact h.walked z hz
    · obtain ⟨k, hk, -⟩ := hstep z hz
      exact ⟨k, hk⟩
  · intro f hf y hy
    rcases (hdone f).mp hf with hfd | hft
    · exact hold (h.done_far f hfd y hy)
    · exact hg.all f hft y hy
  · intro z hz f hzf hfd k hwalk
    rcases List.mem_append.mp hz with hz | hz
    · exact absurd (hundone z hz f hzf) hfd
    · exact hlow z hz k hwalk
  · rintro f hfd ⟨z, hz, hzf⟩
    rcases List.mem_append.mp hz with hz | hz
    · exact absurd (hundone z hz f hzf) hfd
    · exact ⟨z, List.mem_append_right _ hz, hzf, hstep z hz⟩
  · exact List.pairwise_append.mpr ⟨h.sorted, hsorted,
      fun a ha b hb => h.ahead a ha b (hnew b hb).1⟩
  · intro z hz y hy
    rcases List.mem_append.mp hz with hz | hz
    · exact h.ahead z hz y fun hv => hy (hold hv)
    · exact hahead z hz y hy

end pass

theorem Kept.turn {i : Nat} {l l' : Ledger α κ} (h : Kept near label far seeds i l)
    (ht : Turn near label far l l') : ∃ j, Kept near label far seeds j l' := by
  cases ht with
  | drain hnodup hfresh => exact ⟨i, h.drain hnodup hfresh⟩
  | pass _ htodo horder hg hdone => exact ⟨i + 1, h.pass htodo horder hg hdone⟩

theorem Kept.complete {i : Nat} {visited : List α} {done : List κ}
    (h : Kept near label far seeds i ⟨visited, [], done⟩)
    (hall : ∀ x ∈ visited, ∀ f, label x = some f → f ∈ done) (y : α) :
    y ∈ visited ↔ ∃ k, Walk near label far seeds k y := by
  refine ⟨h.walked y, fun ⟨k, hwalk⟩ => ?_⟩
  by_contra hy
  obtain ⟨popped, hsplit, hclosed⟩ := h.split
  dsimp only at hsplit
  obtain ⟨w, hw, z, hz, -, -, ⟨hnear, -⟩ | ⟨f, hf, hfar, -⟩⟩ := hwalk.exit h.seeds_met hy
  · have hw : w ∈ popped := by
      rw [hsplit, List.append_nil] at hw
      exact hw
    exact hz (hclosed w hw z hnear)
  · exact hz (h.done_far f (hall w hw f hf) z hfar)

/-! ### The labels in the order they are met -/

/-- Every walk to an element of the second label is matched by one to an element of the first. -/
def NoLater (near : α → α → Prop) (label : α → Option κ) (far : κ → α → Prop) (seeds : List α)
    (f g : κ) : Prop :=
  ∀ k y, Walk near label far seeds k y → label y = some g →
    ∃ k' x, Walk near label far seeds k' x ∧ label x = some f ∧ Le k' k

theorem NoLater.of_seeds {seeds' : List α} (hseeds : ∀ x, x ∈ seeds ↔ x ∈ seeds') {f g : κ}
    (h : NoLater near label far seeds f g) : NoLater near label far seeds' f g := by
  intro k y hy hlabel
  obtain ⟨k', x, hx, hxlabel, hle⟩ := h k y (hy.of_seeds fun x => (hseeds x).mpr) hlabel
  exact ⟨k', x, hx.of_seeds fun x => (hseeds x).mp, hxlabel, hle⟩

theorem NoLater.refl (f : κ) : NoLater near label far seeds f f :=
  fun k x hx hlabel => ⟨k, x, hx, hlabel, .refl k⟩

theorem Kept.noLater {i : Nat} {l : Ledger α κ} (h : Kept near label far seeds i l)
    (hall : ∀ k y, Walk near label far seeds k y → y ∈ l.visited) {f g : κ}
    (hfg : LabelBefore label l.visited f g) : NoLater near label far seeds f g := by
  obtain ⟨x, hx, hxf, hfirst⟩ := hfg
  intro k y hy hyg
  have hbefore := List.pairwise_iff_forall_sublist.mp h.sorted (hfirst y (hall k y hy) hyg)
  obtain ⟨k', hk', hle⟩ := hbefore k hy
  exact ⟨k', x, hk', hxf, hle⟩

/-! ### The search ends -/

section finite

variable [DecidableEq α] [DecidableEq κ]

def potential (U : Finset α) (P : Finset κ) (l : Ledger α κ) : Nat :=
  l.queue.length + (U \ l.visited.toFinset).card + (P \ l.done.toFinset).card

theorem card_sdiff_append {U : Finset α} {visited fresh : List α} (hnodup : fresh.Nodup)
    (hnew : ∀ y ∈ fresh, y ∉ visited) (hU : ∀ y ∈ fresh, y ∈ U) :
    (U \ (visited ++ fresh).toFinset).card + fresh.length = (U \ visited.toFinset).card := by
  have hsub : fresh.toFinset ⊆ U \ visited.toFinset := by
    intro y hy
    rw [List.mem_toFinset] at hy
    rw [Finset.mem_sdiff, List.mem_toFinset]
    exact ⟨hU y hy, hnew y hy⟩
  have hcard := Finset.card_sdiff_add_card_eq_card hsub
  rw [List.toFinset_card_of_nodup hnodup, sdiff_sdiff] at hcard
  rw [List.toFinset_append]
  exact hcard

theorem Turn.potential_lt {U : Finset α} {P : Finset κ} {l l' : Ledger α κ}
    (ht : Turn near label far l l') (hnear : ∀ x y, near x y → y ∈ U)
    (hfar : ∀ f y, far f y → y ∈ U) (hlabel : ∀ x f, label x = some f → f ∈ P) :
    potential U P l' < potential U P l := by
  cases ht with
  | @drain visited rest fresh done x hnodup hfresh =>
    have hcard := card_sdiff_append hnodup (fun y hy => ((hfresh y).mp hy).2)
      fun y hy => hnear x y ((hfresh y).mp hy).1
    simp only [potential, List.length_append, List.length_cons]
    omega
  | @pass visited added done done' todo hne htodo _ hg hdone =>
    have hcard := card_sdiff_append (U := U) hg.nodup (fun y hy => (hg.new y hy).1) fun y hy => by
      obtain ⟨-, f, -, hfy⟩ := hg.new y hy
      exact hfar f y hfy
    have hlt : (P \ done'.toFinset).card < (P \ done.toFinset).card := by
      obtain ⟨f, hf⟩ := List.exists_mem_of_ne_nil todo hne
      obtain ⟨⟨x, -, hxf⟩, hfd⟩ := (htodo f).mp hf
      have hf' : f ∈ done' := (hdone f).mpr (.inr hf)
      apply Finset.card_lt_card
      rw [Finset.ssubset_iff_of_subset]
      · exact ⟨f, by simp [hlabel x f hxf, hfd], by simp [hf']⟩
      · apply Finset.sdiff_subset_sdiff le_rfl
        intro g hg
        rw [List.mem_toFinset] at hg ⊢
        exact (hdone g).mpr (.inl hg)
    simp only [potential, List.length_nil]
    omega

end finite

end Alternation
