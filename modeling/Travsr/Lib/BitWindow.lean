import Mathlib.Data.List.Basic

/-! A word whose low bits say how the last events went, the newest event in the lowest bit. -/

namespace BitWindow

variable {n : Nat}

/-- Bit `i` tells of the `i`-th newest event, and the bits above are clear. -/
def Shows (x : BitVec n) (events : List Bool) : Prop := ∀ i, x.getLsbD i = events.getD i false

theorem shows_zero : Shows (0#n) [] := by
  intro i
  simp

theorem cpopNatRec_of_shows {x : BitVec n} {events : List Bool} (h : Shows x events) (k acc : Nat) :
    x.cpopNatRec k acc = acc + (events.take k).count true := by
  induction k generalizing acc with
  | zero => simp
  | succ k ih =>
    have hbit : ((events.take (k + 1)).count true) =
        (events.take k).count true + (x.getLsbD k).toNat := by
      rw [List.take_add_one, List.count_append, h k, List.getD_eq_getElem?_getD]
      cases events[k]? with
      | none => simp
      | some b => cases b <;> simp
    rw [BitVec.cpopNatRec_succ, ih, hbit]
    omega

theorem toNat_cpop {x : BitVec n} {events : List Bool} (h : Shows x events)
    (hlen : events.length ≤ n) : x.cpop.toNat = events.count true := by
  have hcount := cpopNatRec_of_shows h n 0
  rw [List.take_of_length_le hlen, Nat.zero_add] at hcount
  have hle : events.count true ≤ n := Nat.le_trans List.count_le_length hlen
  have hlt : events.count true < 2 ^ n := Nat.lt_of_le_of_lt hle Nat.lt_two_pow_self
  rw [BitVec.cpop, hcount, BitVec.toNat_ofNat, Nat.mod_eq_of_lt hlt]

/-- The low `m` bits. -/
def mask (n m : Nat) : BitVec n := 1#n <<< m - 1#n

theorem getLsbD_mask {m : Nat} (h : m < n) (i : Nat) : (mask n m).getLsbD i = decide (i < m) := by
  have hone : 1 < 2 ^ n := Nat.one_lt_two_pow (by omega)
  have hlt : 2 ^ m < 2 ^ n := Nat.pow_lt_pow_right (by omega) h
  have hpos : 0 < 2 ^ m := Nat.two_pow_pos m
  have hnat : (mask n m).toNat = 2 ^ m - 1 := by
    simp only [mask, BitVec.toNat_sub, BitVec.toNat_shiftLeft, BitVec.toNat_ofNat,
      Nat.shiftLeft_eq, Nat.mod_eq_of_lt hone, Nat.one_mul, Nat.mod_eq_of_lt hlt]
    have hsum : 2 ^ n - 1 + 2 ^ m = 2 ^ n + (2 ^ m - 1) := by omega
    rw [hsum, Nat.add_mod_left, Nat.mod_eq_of_lt (by omega)]
  rw [← BitVec.testBit_toNat, hnat, Nat.testBit_two_pow_sub_one]

theorem getLsbD_bit (h : 0 < n) (b : Bool) (i : Nat) :
    (BitVec.ofNat n b.toNat).getLsbD i = (decide (i = 0) && b) := by
  cases b with
  | false => simp
  | true =>
    rw [Bool.toNat_true, BitVec.getLsbD_one]
    simp [h]

/-- A new event goes into the word as its lowest bit, and the oldest of `m` leaves it. -/
theorem shows_push {x : BitVec n} {events : List Bool} (h : Shows x events) {m : Nat} (hm : m < n)
    (b : Bool) :
    Shows ((x <<< 1 ||| BitVec.ofNat n b.toNat) &&& mask n m) ((b :: events).take m) := by
  intro i
  rw [BitVec.getLsbD_and, BitVec.getLsbD_or, BitVec.getLsbD_shiftLeft, getLsbD_mask hm,
    getLsbD_bit (by omega), List.getD_eq_getElem?_getD, List.getElem?_take]
  by_cases hi : i < m
  · cases i with
    | zero => simp [hi]
    | succ i =>
      have hbit := h i
      rw [List.getD_eq_getElem?_getD] at hbit
      have hlt : i + 1 < n := by omega
      simp [hi, hlt, hbit]
  · simp [hi]

end BitWindow
