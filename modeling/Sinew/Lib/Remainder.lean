import Mathlib.Algebra.CharP.Two
import Mathlib.Algebra.Field.ZMod
import Mathlib.Algebra.Polynomial.Div
import Mathlib.Tactic.LinearCombination
import Sinew.Lib.Lfsr

/-!
# Feedback registers compute remainders

A register word stands for a polynomial over the field of two elements, its low
end for the highest power, and a message for one whose first bit has the
highest power. Clocking the register multiplies by `X` and takes the divisor
away when the product has reached its degree, so feeding a message is long
division: what is left in the register is the remainder of the message, moved
up by the width of the register, plus the word it started from, moved up by the
length of the message.
-/

namespace Sinew.Lib.Lfsr

open Polynomial

variable {n : Nat}

/-- A register word as a polynomial. -/
noncomputable def residue (r : BitVec n) : (ZMod 2)[X] :=
  ∑ i ∈ Finset.range n, if r.getLsbD i then X ^ (n - 1 - i) else 0

/-- The divisor that a feedback word stands for. -/
noncomputable def divisor (poly : BitVec n) : (ZMod 2)[X] := X ^ n + residue poly

/-- A message as a polynomial. -/
noncomputable def message : List Bool → (ZMod 2)[X]
  | [] => 0
  | b :: bs => (if b then X ^ bs.length else 0) + message bs

theorem add_self (p : (ZMod 2)[X]) : p + p = 0 := CharTwo.add_self_eq_zero p

theorem residue_xor (a b : BitVec n) : residue (a ^^^ b) = residue a + residue b := by
  rw [residue, residue, residue, ← Finset.sum_add_distrib]
  refine Finset.sum_congr rfl fun i _ => ?_
  rw [BitVec.getLsbD_xor]
  cases a.getLsbD i <;> cases b.getLsbD i <;> simp [add_self]

theorem residue_bit (hn : 0 < n) (b : Bool) :
    residue (bit b : BitVec n) = if b then X ^ (n - 1) else 0 := by
  cases b with
  | false => simp [residue, bit]
  | true =>
      rw [residue, Finset.sum_eq_single_of_mem 0 (Finset.mem_range.mpr hn)]
      · simp [bit, hn]
      · intro i _ hi
        simp [bit, hi]

/-- Moving a word down one place multiplies by `X`, but for the bit that falls out. -/
theorem X_mul_residue (r : BitVec n) :
    X * residue r = residue (r >>> 1) + if r.getLsbD 0 then X ^ n else 0 := by
  cases n with
  | zero => simp [residue]
  | succ n =>
      rw [residue, Finset.mul_sum, Finset.sum_range_succ', residue, Finset.sum_range_succ]
      have hlast : (r >>> 1).getLsbD n = false := by
        rw [BitVec.getLsbD_ushiftRight]
        exact BitVec.getLsbD_of_ge _ _ (by omega)
      rw [hlast]
      simp only [Bool.false_eq_true, if_false, add_zero]
      refine congrArg₂ (· + ·) (Finset.sum_congr rfl fun i hi => ?_) ?_
      · have hlt := Finset.mem_range.mp hi
        have hpow : n + 1 - 1 - i = n + 1 - 1 - (i + 1) + 1 := by omega
        rw [BitVec.getLsbD_ushiftRight, Nat.add_comm 1 i, mul_ite, mul_zero, hpow, pow_succ']
      · rw [mul_ite, mul_zero, ← pow_succ']
        rfl

theorem residue_step (poly r : BitVec n) :
    residue (step poly r) = X * residue r + if r.getLsbD 0 then divisor poly else 0 := by
  rw [X_mul_residue, step, divisor]
  split
  · rw [residue_xor, add_assoc, ← add_assoc (X ^ n), add_self, zero_add]
  · rw [add_zero, add_zero]

theorem coeff_residue (r : BitVec n) {k : Nat} (hk : k < n) :
    (residue r).coeff (n - 1 - k) = if r.getLsbD k then 1 else 0 := by
  rw [residue, finsetSum_coeff, Finset.sum_eq_single_of_mem k (Finset.mem_range.mpr hk)]
  · split <;> simp
  · intro i hi hne
    have hlt := Finset.mem_range.mp hi
    split
    · rw [coeff_X_pow, if_neg (by omega)]
    · exact coeff_zero _

theorem residue_inj {a b : BitVec n} (h : residue a = residue b) : a = b := by
  apply BitVec.eq_of_getLsbD_eq
  intro k hk
  have hcoeff := congrArg (coeff · (n - 1 - k)) h
  simp only [coeff_residue _ hk] at hcoeff
  cases ha : a.getLsbD k <;> cases hb : b.getLsbD k <;> simp [ha, hb] at hcoeff ⊢

theorem degree_residue_lt (r : BitVec n) : (residue r).degree < n := by
  rw [degree_lt_iff_coeff_zero]
  intro k hk
  rw [residue, finsetSum_coeff]
  refine Finset.sum_eq_zero fun i hi => ?_
  have hlt := Finset.mem_range.mp hi
  split
  · rw [coeff_X_pow, if_neg (by omega)]
  · exact coeff_zero k

theorem divisor_monic (poly : BitVec n) : (divisor poly).Monic :=
  monic_X_pow_add (degree_residue_lt poly)

theorem degree_divisor (poly : BitVec n) : (divisor poly).degree = n := by
  rw [divisor, degree_add_eq_left_of_degree_lt]
  · exact degree_X_pow n
  · rw [degree_X_pow]
    exact degree_residue_lt poly

/-- Long division, with the quotient written out. -/
theorem exists_quotient (hn : 0 < n) (poly : BitVec n) (bs : List Bool) (r : BitVec n) :
    ∃ q, residue (feed poly r bs) + divisor poly * q =
      X ^ bs.length * residue r + X ^ n * message bs := by
  induction bs generalizing r with
  | nil => exact ⟨0, by simp [feed, message]⟩
  | cons b bs ih =>
      obtain ⟨q, hq⟩ := ih (step poly (r ^^^ bit b))
      have htop : X ^ bs.length * (X * if b then X ^ (n - 1) else 0) =
          (X ^ n * if b then X ^ bs.length else 0 : (ZMod 2)[X]) := by
        cases b with
        | false => simp
        | true =>
            rw [if_pos rfl, if_pos rfl, ← pow_succ', Nat.sub_add_cancel hn, mul_comm]
      rw [residue_step, residue_xor, residue_bit hn] at hq
      rw [feed, message, List.length_cons, pow_succ]
      -- The divisor goes once into what the clock has moved up, or not at all.
      by_cases hout : (r ^^^ bit b).getLsbD 0
      · rw [if_pos hout] at hq
        refine ⟨q + X ^ bs.length, ?_⟩
        linear_combination hq + htop + add_self (X ^ bs.length * divisor poly)
      · rw [if_neg hout] at hq
        refine ⟨q, ?_⟩
        linear_combination hq + htop

theorem residue_feed (hn : 0 < n) (poly : BitVec n) (bs : List Bool) (r : BitVec n) :
    residue (feed poly r bs) =
      (X ^ bs.length * residue r + X ^ n * message bs) %ₘ divisor poly := by
  obtain ⟨q, hq⟩ := exists_quotient hn poly bs r
  refine ((div_modByMonic_unique q _ (divisor_monic poly) ⟨hq, ?_⟩).2).symm
  rw [degree_divisor]
  exact degree_residue_lt _

theorem feed_eq_feed_iff (hn : 0 < n) (poly : BitVec n) (bs bs' : List Bool)
    (r r' : BitVec n) :
    feed poly r bs = feed poly r' bs' ↔
      divisor poly ∣ X ^ bs.length * residue r + X ^ n * message bs +
        (X ^ bs'.length * residue r' + X ^ n * message bs') := by
  obtain ⟨q, hq⟩ := exists_quotient hn poly bs r
  obtain ⟨q', hq'⟩ := exists_quotient hn poly bs' r'
  -- But for multiples of the divisor, what is divided is the sum of the two remainders.
  have hsum : X ^ bs.length * residue r + X ^ n * message bs +
      (X ^ bs'.length * residue r' + X ^ n * message bs') =
        residue (feed poly r bs ^^^ feed poly r' bs') + divisor poly * (q + q') := by
    rw [← hq, ← hq', residue_xor]
    ring
  rw [hsum, dvd_add_left (dvd_mul_right _ _)]
  constructor
  · intro h
    rw [h, residue_xor, add_self]
    exact dvd_zero _
  · intro h
    have hlt : (residue (feed poly r bs ^^^ feed poly r' bs')).degree <
        (divisor poly).degree := by
      rw [degree_divisor]
      exact degree_residue_lt _
    have hzero : residue (feed poly r bs ^^^ feed poly r' bs') = 0 := by
      by_contra hne
      exact (divisor_monic poly).not_dvd_of_degree_lt hne hlt h
    rw [residue_xor] at hzero
    refine residue_inj ?_
    rw [← sub_eq_zero, sub_eq_add_neg, CharTwo.neg_eq, hzero]

theorem feed_eq_self_iff (hn : 0 < n) (poly : BitVec n) (bs : List Bool) (r : BitVec n) :
    feed poly r bs = r ↔
      divisor poly ∣ X ^ n * message bs + (X ^ bs.length + 1) * residue r := by
  have hsum : X ^ n * message bs + (X ^ bs.length + 1) * residue r =
      X ^ bs.length * residue r + X ^ n * message bs +
        (X ^ ([] : List Bool).length * residue r + X ^ n * message []) := by
    rw [List.length_nil, message, pow_zero]
    ring
  rw [hsum, ← feed_eq_feed_iff hn poly bs [] r r, feed_nil]

end Sinew.Lib.Lfsr
