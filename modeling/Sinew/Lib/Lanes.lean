import Mathlib.Tactic.IntervalCases
import Sinew.Lib.Bytes

/-!
# The bytes of a word, moved by masks and shifts

A mask cuts one byte out of a word and a shift takes it to another place: what is
left is that byte alone, bit for bit (`getLsbD_lane_down`, `getLsbD_lane_up`). A
word put together of such lanes is read bit by bit, and two integers whose bits
are each other's with the bytes turned round have each other's bytes in the
opposite order (`leBytes_eq_reverse`).
-/

namespace Sinew.Lib

variable {n : Nat}

theorem getLsbD_mask {s : Nat} (hs : s + 8 ≤ n) (i : Nat) :
    (255#n <<< s).getLsbD i = decide (s ≤ i ∧ i < s + 8) := by
  have hones : ∀ j, (255 : Nat).testBit j = decide (j < 8) := by
    intro j
    rw [show (255 : Nat) = 2 ^ 8 - 1 by rfl, Nat.testBit_two_pow_sub_one]
  rw [BitVec.getLsbD_shiftLeft, BitVec.getLsbD_ofNat, hones]
  grind

/-- The byte at `s`, taken down to `t`. -/
theorem getLsbD_lane_down {s d : Nat} (t : Nat) (hs : s + 8 ≤ n) (hst : s = t + d)
    (v : BitVec n) (i : Nat) :
    ((v &&& 255#n <<< s) >>> d).getLsbD i =
      (decide (t ≤ i ∧ i < t + 8) && v.getLsbD (i - t + s)) := by
  rw [BitVec.getLsbD_ushiftRight, BitVec.getLsbD_and, getLsbD_mask hs, Bool.and_comm]
  by_cases hi : t ≤ i ∧ i < t + 8
  · rw [decide_eq_true hi, decide_eq_true (by omega), show d + i = i - t + s by omega]
  · rw [decide_eq_false hi, decide_eq_false (by omega), Bool.false_and, Bool.false_and]

theorem getLsbD_lane_up {s d : Nat} (t : Nat) (ht : t + 8 ≤ n) (hst : t = s + d)
    (v : BitVec n) (i : Nat) :
    ((v &&& 255#n <<< s) <<< d).getLsbD i =
      (decide (t ≤ i ∧ i < t + 8) && v.getLsbD (i - t + s)) := by
  rw [BitVec.getLsbD_shiftLeft, BitVec.getLsbD_and, getLsbD_mask (by omega)]
  by_cases hi : t ≤ i ∧ i < t + 8
  · rw [decide_eq_true hi, decide_eq_true (by omega : i < n),
      decide_eq_false (by omega : ¬ i < d),
      decide_eq_true (by omega : s ≤ i - d ∧ i - d < s + 8),
      show i - d = i - t + s by omega]
    simp
  · rw [decide_eq_false hi, Bool.false_and]
    by_cases hd : i < d
    · simp [hd]
    · rw [decide_eq_false (by omega : ¬ (s ≤ i - d ∧ i - d < s + 8)), Bool.and_false,
        Bool.and_false]

theorem leBytes_getElem {w k : Nat} (v : Nat) (hk : k < (leBytes w v).length) :
    (leBytes w v)[k] = UInt8.ofNat (v / 256 ^ k) := by
  induction w generalizing v k with
  | zero => simp at hk
  | succ w ih =>
      cases k with
      | zero => simp [leBytes]
      | succ k =>
          have htail := ih (v / 256) (by simpa [leBytes] using hk)
          rw [Nat.div_div_eq_div_mul, ← Nat.pow_succ'] at htail
          simpa [leBytes] using htail

theorem getLsbD_leBytes {w k j : Nat} (v : Nat) (hk : k < (leBytes w v).length) (hj : j < 8) :
    (leBytes w v)[k].toBitVec.getLsbD j = v.testBit (8 * k + j) := by
  have hpow : (256 : Nat) ^ k = 2 ^ (8 * k) := by rw [pow_mul]; norm_num
  rw [leBytes_getElem v hk, UInt8.toBitVec_ofNat', BitVec.getLsbD_ofNat, decide_eq_true hj,
    Bool.true_and, hpow, Nat.testBit_div_two_pow, Nat.add_comm]

theorem exists_lane {w i : Nat} (hi : i < 8 * w) : ∃ k j, i = 8 * k + j ∧ k < w ∧ j < 8 :=
  ⟨i / 8, i % 8, by omega, by omega, by omega⟩

/-- The bit of a word of `w` bytes that bit `i` becomes when the bytes are turned round. -/
def turned (w i : Nat) : Nat := 8 * (w - 1 - i / 8) + i % 8

theorem leBytes_eq_reverse {w x y : Nat}
    (h : ∀ i < 8 * w, y.testBit i = x.testBit (turned w i)) :
    leBytes w y = (leBytes w x).reverse := by
  refine List.ext_getElem (by simp) fun k h1 h2 => ?_
  have hk : k < w := by simpa using h1
  rw [List.getElem_reverse]
  apply UInt8.toBitVec_inj.mp
  apply BitVec.eq_of_getLsbD_eq
  intro j hj
  rw [getLsbD_leBytes y h1 hj, getLsbD_leBytes x _ hj, h _ (by omega), turned, leBytes_length]
  congr 1
  omega

end Sinew.Lib
