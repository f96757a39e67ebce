import Mathlib.Data.List.Basic
import Mathlib.Data.List.Chain

/-! Spans of numbers, each with its first and its last, that tile a range: none is empty, and each
begins right after the one before it. -/

def Tiles : List (Nat × Nat) → Nat → Nat → Prop
  | [], a, b => a = b + 1
  | p :: l, a, b => p.1 = a ∧ a ≤ p.2 ∧ Tiles l (p.2 + 1) b

namespace Tiles

variable {l l' : List (Nat × Nat)} {a b m : Nat}

theorem single (h : a ≤ b) : Tiles [(a, b)] a b := ⟨rfl, h, rfl⟩

theorem le (h : Tiles l a b) : a ≤ b + 1 := by
  induction l generalizing a with
  | nil => exact Nat.le_of_eq h
  | cons p l ih =>
    have := ih h.2.2
    have := h.2.1
    omega

theorem append (h : Tiles l a m) (h' : Tiles l' (m + 1) b) : Tiles (l ++ l') a b := by
  induction l generalizing a with
  | nil =>
    have ha : a = m + 1 := h
    rw [ha]
    exact h'
  | cons p l ih => exact ⟨h.1, h.2.1, ih h.2.2⟩

theorem bounds (h : Tiles l a b) : ∀ p ∈ l, a ≤ p.1 ∧ p.1 ≤ p.2 ∧ p.2 ≤ b := by
  induction l generalizing a with
  | nil => exact fun p hp => (List.not_mem_nil hp).elim
  | cons q l ih =>
    obtain ⟨hq, hle, hl⟩ := h
    intro p hp
    have hend := hl.le
    rcases List.mem_cons.mp hp with rfl | hp
    · omega
    · have := ih hl p hp
      omega

theorem cover (h : Tiles l a b) {x : Nat} (ha : a ≤ x) (hb : x ≤ b) :
    ∃ p ∈ l, p.1 ≤ x ∧ x ≤ p.2 := by
  induction l generalizing a with
  | nil =>
    have hab : a = b + 1 := h
    omega
  | cons q l ih =>
    obtain ⟨hq, hle, hl⟩ := h
    by_cases hx : x ≤ q.2
    · exact ⟨q, List.mem_cons_self, hq ▸ ha, hx⟩
    · obtain ⟨p, hp, hpx⟩ := ih hl (by omega)
      exact ⟨p, List.mem_cons_of_mem _ hp, hpx⟩

theorem pairwise_lt (h : Tiles l a b) : l.Pairwise fun p q => p.2 < q.1 := by
  induction l generalizing a with
  | nil => exact .nil
  | cons q l ih =>
    obtain ⟨-, -, hl⟩ := h
    exact List.pairwise_cons.mpr ⟨fun p hp => (hl.bounds p hp).1, ih hl⟩

theorem isChain (h : Tiles l a b) : l.IsChain fun p q => q.1 = p.2 + 1 := by
  induction l generalizing a with
  | nil => exact .nil
  | cons q l ih =>
    obtain ⟨-, -, hl⟩ := h
    cases l with
    | nil => exact .singleton q
    | cons p l => exact .cons_cons hl.1 (ih hl)

theorem snd_getLast (h : Tiles l a b) (hne : l ≠ []) : (l.getLast hne).2 = b := by
  induction l generalizing a with
  | nil => exact absurd rfl hne
  | cons q l ih =>
    obtain ⟨-, -, hl⟩ := h
    cases l with
    | nil =>
      have hl : q.2 + 1 = b + 1 := hl
      rw [List.getLast_singleton]
      omega
    | cons p l =>
      rw [List.getLast_cons (List.cons_ne_nil p l)]
      exact ih hl _

theorem grow {p : Nat × Nat} (h : Tiles (l ++ [p]) a b) {c : Nat} (hc : b ≤ c) :
    Tiles (l ++ [(p.1, c)]) a c := by
  induction l generalizing a with
  | nil =>
    obtain ⟨hp, hle, hend⟩ := h
    have hend : p.2 + 1 = b + 1 := hend
    exact ⟨hp, by dsimp only; omega, rfl⟩
  | cons q l ih => exact ⟨h.1, h.2.1, ih h.2.2⟩

/-! ### The spans between given starts -/

/-- The spans that begin at the given numbers, the last one ending at `b`. -/
def ofStarts (b : Nat) : List Nat → List (Nat × Nat)
  | [] => []
  | [x] => [(x, b)]
  | x :: y :: l => (x, y - 1) :: ofStarts b (y :: l)

variable {x y c : Nat} {starts : List Nat}

theorem ofStarts_concat (l : List Nat) (x : Nat) :
    ofStarts b (l ++ [x]) = ofStarts (x - 1) l ++ [(x, b)] := by
  induction l with
  | nil => rfl
  | cons y l ih =>
    cases l with
    | nil => rfl
    | cons z l =>
      change (y, z - 1) :: ofStarts b (z :: l ++ [x]) = _
      rw [ih]
      rfl

/-- The spans of strictly increasing starts tile what lies between the first of them and the end. -/
theorem ofStarts_tiles (h : (x :: starts).Pairwise (· < ·)) (hb : ∀ y ∈ x :: starts, y ≤ b) :
    Tiles (ofStarts b (x :: starts)) x b := by
  induction starts generalizing x with
  | nil => exact single (hb x List.mem_cons_self)
  | cons y l ih =>
    obtain ⟨hx, hl⟩ := List.pairwise_cons.mp h
    have hxy := hx y List.mem_cons_self
    have hrest := ih hl (List.forall_mem_cons.mp hb).2
    refine ⟨rfl, Nat.le_sub_one_of_lt hxy, ?_⟩
    rwa [Nat.sub_add_cancel (Nat.one_le_of_lt hxy)]

theorem fst_mem_of_mem_ofStarts {p : Nat × Nat} (h : p ∈ ofStarts b starts) : p.1 ∈ starts := by
  induction starts with
  | nil => exact (List.not_mem_nil h).elim
  | cons y l ih =>
    cases l with
    | nil =>
      rw [ofStarts, List.mem_singleton] at h
      rw [h]
      exact List.mem_cons_self
    | cons z l =>
      rcases List.mem_cons.mp h with rfl | h
      · exact List.mem_cons_self
      · exact List.mem_cons_of_mem _ (ih h)

theorem forall_ofStarts_grow {P : Nat × Nat → Prop} (h : ∀ p ∈ ofStarts b starts, P p)
    (hgrow : ∀ x ∈ starts, P (x, b) → P (x, c)) : ∀ p ∈ ofStarts c starts, P p := by
  rcases List.eq_nil_or_concat starts with rfl | ⟨l, x, rfl⟩
  · exact h
  · rw [List.concat_eq_append] at h hgrow ⊢
    rw [ofStarts_concat] at h ⊢
    obtain ⟨hl, hx⟩ := List.forall_mem_append.mp h
    refine List.forall_mem_append.mpr ⟨hl, List.forall_mem_singleton.mpr ?_⟩
    exact hgrow x (List.mem_append_right _ List.mem_cons_self) (List.forall_mem_singleton.mp hx)

theorem forall_ofStarts_front {P : Nat × Nat → Prop} (h : ∀ p ∈ ofStarts b (x :: starts), P p)
    (hfront : ∀ e, P (x, e) → P (y, e)) : ∀ p ∈ ofStarts b (y :: starts), P p := by
  cases starts with
  | nil => exact List.forall_mem_singleton.mpr (hfront b (List.forall_mem_singleton.mp h))
  | cons z l =>
    obtain ⟨hx, hl⟩ := List.forall_mem_cons.mp h
    exact List.forall_mem_cons.mpr ⟨hfront _ hx, hl⟩

end Tiles

/-! ### Spans with gaps -/

/-- The spans stand in order in a range, and the numbers between them are gaps. -/
def Spaced (gap : Nat → Prop) : List (Nat × Nat) → Nat → Nat → Prop
  | [], a, b => ∀ k, a ≤ k → k ≤ b → gap k
  | p :: l, a, b =>
    a ≤ p.1 ∧ p.1 ≤ p.2 ∧ p.2 ≤ b ∧ (∀ k, a ≤ k → k < p.1 → gap k) ∧ Spaced gap l (p.2 + 1) b

namespace Spaced

variable {gap : Nat → Prop} {l : List (Nat × Nat)} {a b c : Nat}

theorem extend (h : Spaced gap l a b) (hbc : b ≤ c) (hgap : ∀ k, b < k → k ≤ c → gap k) :
    Spaced gap l a c := by
  induction l generalizing a with
  | nil =>
    intro k hk hkc
    rcases Nat.lt_or_ge b k with hlt | hle
    · exact hgap k hlt hkc
    · exact h k hk hle
  | cons p l ih =>
    obtain ⟨ha, hp, hb, hgaps, hl⟩ := h
    exact ⟨ha, hp, hb.trans hbc, hgaps, ih hl⟩

theorem push (h : Spaced gap l a b) (ha : a ≤ b + 1) (hc : b + 1 ≤ c) :
    Spaced gap (l ++ [(b + 1, c)]) a c := by
  induction l generalizing a with
  | nil =>
    refine ⟨ha, hc, le_rfl, fun k hk hkb => h k hk (Nat.le_of_lt_succ hkb), fun k hk hkc => ?_⟩
    exact absurd hkc (by omega)
  | cons p l ih =>
    obtain ⟨hap, hp, hb, hgaps, hl⟩ := h
    exact ⟨hap, hp, by omega, hgaps, ih hl (by omega)⟩

theorem bounds (h : Spaced gap l a b) : ∀ p ∈ l, a ≤ p.1 ∧ p.1 ≤ p.2 ∧ p.2 ≤ b := by
  induction l generalizing a with
  | nil => exact fun p hp => (List.not_mem_nil hp).elim
  | cons q l ih =>
    obtain ⟨ha, hq, hb, -, hl⟩ := h
    refine List.forall_mem_cons.mpr ⟨⟨ha, hq, hb⟩, fun p hp => ?_⟩
    have := ih hl p hp
    omega

end Spaced
