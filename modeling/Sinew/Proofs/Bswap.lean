import Sinew.Lib.Lanes
import Sinew.Model.Portable

/-!
# Every build swaps bytes alike

The masks and shifts of `endian.hpp` turn the bytes of an integer round, which is
what the compilers' builtins do. So what is proved of the portable path with the
builtins holds in every build, on hosts of either byte order.
-/

namespace Sinew

open Lib

theorem bswap16Shifts_bits (val : UInt16) {i : Nat} (hi : i < 16) :
    (bswap16Shifts val).toBitVec.getLsbD i = val.toBitVec.getLsbD (turned 2 i) := by
  obtain ⟨k, j, rfl, hk, hj⟩ := exists_lane (w := 2) hi
  simp only [bswap16Shifts, UInt32.toBitVec_toUInt16, UInt32.toBitVec_or,
    UInt32.toBitVec_shiftLeft, UInt32.toBitVec_shiftRight, UInt16.toBitVec_toUInt32, turned]
  interval_cases k
  · simp
    grind
  · simp
    grind

theorem bswap32Shifts_bits (val : UInt32) {i : Nat} (hi : i < 32) :
    (bswap32Shifts val).toBitVec.getLsbD i = val.toBitVec.getLsbD (turned 4 i) := by
  obtain ⟨k, j, rfl, hk, hj⟩ := exists_lane (w := 4) hi
  have hval : (bswap32Shifts val).toBitVec =
      ((val.toBitVec &&& 255#32 <<< 24) >>> 24) ||| ((val.toBitVec &&& 255#32 <<< 16) >>> 8) |||
        ((val.toBitVec &&& 255#32 <<< 8) <<< 8) |||
        ((val.toBitVec &&& 255#32 <<< 0) <<< 24) := rfl
  rw [hval, BitVec.getLsbD_or, BitVec.getLsbD_or, BitVec.getLsbD_or,
    getLsbD_lane_down 0 (by omega) (by omega),
    getLsbD_lane_down 8 (by omega) (by omega),
    getLsbD_lane_up 16 (by omega) (by omega),
    getLsbD_lane_up 24 (by omega) (by omega), turned]
  -- Of the lanes, only the one that byte `k` came by has anything at its bits.
  interval_cases k <;> grind

theorem bswap64Shifts_bits (val : UInt64) {i : Nat} (hi : i < 64) :
    (bswap64Shifts val).toBitVec.getLsbD i = val.toBitVec.getLsbD (turned 8 i) := by
  obtain ⟨k, j, rfl, hk, hj⟩ := exists_lane (w := 8) hi
  have hval : (bswap64Shifts val).toBitVec =
      ((val.toBitVec &&& 255#64 <<< 56) >>> 56) |||
        ((val.toBitVec &&& 255#64 <<< 48) >>> 40) |||
        ((val.toBitVec &&& 255#64 <<< 40) >>> 24) |||
        ((val.toBitVec &&& 255#64 <<< 32) >>> 8) |||
        ((val.toBitVec &&& 255#64 <<< 24) <<< 8) |||
        ((val.toBitVec &&& 255#64 <<< 16) <<< 24) |||
        ((val.toBitVec &&& 255#64 <<< 8) <<< 40) |||
        ((val.toBitVec &&& 255#64 <<< 0) <<< 56) := rfl
  rw [hval]
  simp only [BitVec.getLsbD_or]
  rw [getLsbD_lane_down 0 (by omega) (by omega),
    getLsbD_lane_down 8 (by omega) (by omega),
    getLsbD_lane_down 16 (by omega) (by omega),
    getLsbD_lane_down 24 (by omega) (by omega),
    getLsbD_lane_up 32 (by omega) (by omega),
    getLsbD_lane_up 40 (by omega) (by omega),
    getLsbD_lane_up 48 (by omega) (by omega),
    getLsbD_lane_up 56 (by omega) (by omega), turned]
  interval_cases k <;> grind

/-- The bytes of a value, turned round in an integer that has the byte order of the host. -/
theorem bytes_turned (host : Endian) {w y : Nat} {bytes : List UInt8} (hlen : bytes.length = w)
    (h : ∀ i < 8 * w, y.testBit i = (host.word bytes).testBit (turned w i)) :
    host.bytes w y = bytes.reverse := by
  have hle := leBytes_eq_reverse h
  have hback := host.bytes_word bytes
  rw [hlen] at hback
  cases host with
  | little =>
      rw [Endian.bytes] at hback ⊢
      rw [hle, hback]
  | big =>
      rw [Endian.bytes] at hback ⊢
      rw [hle, List.reverse_reverse]
      exact List.reverse_eq_iff.mp hback

theorem word_turned {w x y : Nat} (hy : y < 256 ^ w)
    (h : ∀ i < 8 * w, y.testBit i = x.testBit (turned w i)) :
    Endian.big.word (Endian.little.bytes w x) = y := by
  rw [Endian.bytes, Endian.word, ← leBytes_eq_reverse h, ofLeBytes_leBytes hy]

theorem testBit_word (host : Endian) {bytes : List UInt8} {w : Nat} (hlen : bytes.length = w)
    (i : Nat) :
    (BitVec.ofNat (8 * w) (host.word bytes)).getLsbD i = (host.word bytes).testBit i := by
  have hlt := host.word_lt bytes
  rw [hlen, show (256 : Nat) = 2 ^ 8 by rfl, ← pow_mul] at hlt
  rw [← BitVec.testBit_toNat, BitVec.toNat_ofNat, Nat.mod_eq_of_lt hlt]

theorem byteSwapShifts_eq (host : Endian) (bytes : List UInt8) :
    byteSwapShifts host bytes = byteSwap bytes := by
  unfold byteSwapShifts byteSwap
  by_cases h2 : bytes.length = 2
  · rw [if_pos h2, if_pos (.inl h2)]
    refine bytes_turned host h2 fun i hi => ?_
    exact (bswap16Shifts_bits _ hi).trans (testBit_word host h2 _)
  rw [if_neg h2]
  by_cases h4 : bytes.length = 4
  · rw [if_pos h4, if_pos (.inr (.inl h4))]
    refine bytes_turned host h4 fun i hi => ?_
    exact (bswap32Shifts_bits _ hi).trans (testBit_word host h4 _)
  rw [if_neg h4]
  by_cases h8 : bytes.length = 8
  · rw [if_pos h8, if_pos (.inr (.inr h8))]
    refine bytes_turned host h8 fun i hi => ?_
    exact (bswap64Shifts_bits _ hi).trans (testBit_word host h8 _)
  · rw [if_neg h8, if_neg (by omega)]

/-- **Byte swaps**: for every value, what the masks and shifts compute is what the
builtins do, in the conversion of a header field and in that of a payload field. -/
theorem byte_swaps_agree :
    (∀ val, bswap16Shifts val = bswap16 val) ∧ (∀ val, bswap32Shifts val = bswap32 val) ∧
      ∀ host bytes, byteSwapShifts host bytes = byteSwap bytes := by
  refine ⟨fun val => ?_, fun val => ?_, byteSwapShifts_eq⟩
  · have hword : Endian.big.word (Endian.little.bytes 2 val.toNat) = (bswap16Shifts val).toNat :=
      word_turned (bswap16Shifts val).toNat_lt fun i hi => bswap16Shifts_bits val hi
    rw [bswap16, hword, UInt16.ofNat_toNat]
  · have hword : Endian.big.word (Endian.little.bytes 4 val.toNat) = (bswap32Shifts val).toNat :=
      word_turned (bswap32Shifts val).toNat_lt fun i hi => bswap32Shifts_bits val hi
    rw [bswap32, hword, UInt32.ofNat_toNat]

end Sinew
