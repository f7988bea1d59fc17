import Mathlib.Data.Nat.Bitwise
import Mathlib.Tactic.Common

/-!
# Free-running cursors

A ring's two cursors count up for ever and are kept modulo `2 ^ w`; a cursor's
slot is its low bits. As long as the true counts are within the capacity of
each other, nothing is lost by keeping only the residues: their difference is
the true distance, they are equal only where the counts are, and two counts
that are live together have different slots.
-/

namespace Sinew.Lib.Cursors

variable {w j a b : Nat}

theorem sub_mod_eq (hle : b ≤ a) (hlt : a - b < 2 ^ w) :
    (a % 2 ^ w + 2 ^ w - b % 2 ^ w) % 2 ^ w = a - b := by
  have hw := Nat.two_pow_pos w
  obtain ⟨d, rfl⟩ : ∃ d, a = b + d := ⟨a - b, by omega⟩
  rw [Nat.add_sub_cancel_left] at hlt ⊢
  have hb := Nat.mod_lt b hw
  rw [Nat.add_mod b d, Nat.mod_eq_of_lt hlt]
  rcases Nat.lt_or_ge (b % 2 ^ w + d) (2 ^ w) with h | h
  · rw [Nat.mod_eq_of_lt h,
      show b % 2 ^ w + d + 2 ^ w - b % 2 ^ w = d + 2 ^ w by omega,
      Nat.add_mod_right, Nat.mod_eq_of_lt hlt]
  · rw [Nat.mod_eq_sub_mod h, Nat.mod_eq_of_lt (a := b % 2 ^ w + d - 2 ^ w) (by omega),
      show b % 2 ^ w + d - 2 ^ w + 2 ^ w - b % 2 ^ w = d by omega,
      Nat.mod_eq_of_lt hlt]

theorem mod_eq_mod_iff (hle : b ≤ a) (hlt : a - b < 2 ^ w) :
    b % 2 ^ w = a % 2 ^ w ↔ b = a := by
  constructor
  · intro h
    have hd := sub_mod_eq hle hlt
    rw [h, Nat.add_sub_cancel_left, Nat.mod_self] at hd
    omega
  · intro h
    rw [h]

/-- The residues are in the order of the counts unless one count has come round
once more than the other. -/
theorem div_eq_div_iff (hle : b ≤ a) (hlt : a - b < 2 ^ w) :
    a / 2 ^ w = b / 2 ^ w ↔ b % 2 ^ w ≤ a % 2 ^ w := by
  have ha := Nat.div_add_mod a (2 ^ w)
  have hb := Nat.div_add_mod b (2 ^ w)
  constructor
  · intro h
    rw [h] at ha
    omega
  · intro h
    refine Nat.le_antisymm (Nat.le_of_not_lt fun hq => ?_) (Nat.div_le_div_right hle)
    have hmul := Nat.mul_le_mul_left (2 ^ w) (Nat.succ_le_of_lt hq)
    rw [Nat.mul_succ] at hmul
    omega

/-- Where they are, subtracting them needs no modulus. -/
theorem mod_sub_mod (hle : b ≤ a) (hlt : a - b < 2 ^ w) (h : b % 2 ^ w ≤ a % 2 ^ w) :
    a % 2 ^ w - b % 2 ^ w = a - b := by
  have hsub := sub_mod_eq hle hlt
  have ha := Nat.mod_lt a (Nat.two_pow_pos w)
  rwa [show a % 2 ^ w + 2 ^ w - b % 2 ^ w = a % 2 ^ w - b % 2 ^ w + 2 ^ w by omega,
    Nat.add_mod_right, Nat.mod_eq_of_lt (by omega)] at hsub

theorem succ_mod (n : Nat) : (n % 2 ^ w + 1) % 2 ^ w = (n + 1) % 2 ^ w := by
  rw [Nat.mod_add_mod]

theorem mask_mod (hj : j ≤ w) (n : Nat) :
    (n % 2 ^ w) &&& (2 ^ j - 1) = n % 2 ^ j := by
  rw [Nat.and_two_pow_sub_one_eq_mod, Nat.mod_mod_of_dvd _ (Nat.pow_dvd_pow 2 hj)]

theorem mod_ne_of_lt {n : Nat} (hlt : b < a) (hlap : a < b + n) : b % n ≠ a % n := by
  obtain ⟨d, rfl⟩ : ∃ d, a = b + d := ⟨a - b, by omega⟩
  intro h
  have hd : (b + d - b) % n = 0 := Nat.sub_mod_eq_zero_of_mod_eq h.symm
  rw [Nat.add_sub_cancel_left, Nat.mod_eq_of_lt (by omega)] at hd
  omega

theorem slot_disjoint {i k size stride base : Nat} (hne : i ≠ k) (hle : size ≤ stride) :
    base + i * stride + size ≤ base + k * stride ∨
      base + k * stride + size ≤ base + i * stride := by
  rcases Nat.lt_or_gt_of_ne hne with h | h
  · left
    have := Nat.mul_le_mul_right stride (Nat.succ_le_of_lt h)
    rw [Nat.succ_mul] at this
    omega
  · right
    have := Nat.mul_le_mul_right stride (Nat.succ_le_of_lt h)
    rw [Nat.succ_mul] at this
    omega

end Sinew.Lib.Cursors
