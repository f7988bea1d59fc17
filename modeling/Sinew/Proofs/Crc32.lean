import Sinew.Lib.Lfsr
import Sinew.Model.Wire

/-!
# The checksum is a feedback register

The table-driven loop does to its 32-bit word what eight clocks of a feedback
register do for every byte: the table holds eight clocks of each octet, and a
word whose low octet is clear only moves down through eight of them. So a run
of `crc32` over a string is the register fed with the string's bits, and what
`Lfsr` says about bursts is a statement about checksums.
-/

namespace Sinew

open Lib

/-- The reflected polynomial of the generator, as a feedback word. -/
def crc32Poly : BitVec 32 := 0xEDB88320#32

theorem crc32Poly_msb : crc32Poly.msb = true := by decide

theorem crc32Bit_toBitVec (crc : UInt32) :
    (crc32Bit crc).toBitVec = Lfsr.step crc32Poly crc.toBitVec := by
  have hlow : (crc &&& 1 ≠ 0) ↔ crc.toBitVec.getLsbD 0 = true := by
    rw [ne_eq, ← UInt32.toBitVec_inj, UInt32.toBitVec_and]
    rw [show (1 : UInt32).toBitVec = 1#32 from rfl,
      BitVec.and_one_eq_setWidth_ofBool_getLsbD]
    cases crc.toBitVec.getLsbD 0 <;> decide
  unfold crc32Bit Lfsr.step
  simp only [hlow]
  split
  · rw [UInt32.toBitVec_xor, BitVec.xor_comm]
    rfl
  · rfl

theorem iterate_crc32Bit_toBitVec (k : Nat) (crc : UInt32) :
    (crc32Bit^[k] crc).toBitVec = (Lfsr.step crc32Poly)^[k] crc.toBitVec := by
  induction k generalizing crc with
  | zero => rfl
  | succ k ih =>
      rw [Function.iterate_succ_apply, ih, crc32Bit_toBitVec,
        Function.iterate_succ_apply]

theorem crc32Table_get (i : Fin 256) :
    crc32Table.get i = crc32Bit^[8] (UInt32.ofNat i) := by
  have hget : ∀ table : Vector UInt32 256, table.get i = table[i.val] :=
    fun _ => rfl
  rw [hget, crc32Table, generateCrc32Table, Vector.getElem_ofFn]

/-- Eight clocks of a word: those of its low octet, and the rest of it moved
down eight places. -/
theorem iterate_step_eight (poly x : BitVec 32) :
    (Lfsr.step poly)^[8] x =
      (x >>> 8) ^^^ (Lfsr.step poly)^[8] ((x.setWidth 8).setWidth 32) := by
  have hsplit : x = (x >>> 8 <<< 8) ^^^ (x.setWidth 8).setWidth 32 := by
    apply BitVec.eq_of_getLsbD_eq
    intro i hi
    rw [BitVec.getLsbD_xor, BitVec.getLsbD_shiftLeft, BitVec.getLsbD_ushiftRight,
      BitVec.getLsbD_setWidth, BitVec.getLsbD_setWidth]
    by_cases h : i < 8
    · simp [h, hi]
    · simp [h, hi, Nat.add_sub_cancel' (Nat.le_of_not_lt h)]
  have hhigh : (Lfsr.step poly)^[8] (x >>> 8 <<< 8) = x >>> 8 := by
    rw [Lfsr.iterate_step_shiftRight]
    · apply BitVec.eq_of_getLsbD_eq
      intro i hi
      rw [BitVec.getLsbD_ushiftRight, BitVec.getLsbD_shiftLeft]
      by_cases h : 8 + i < 32
      · simp [h]
      · simp [h, BitVec.getLsbD_of_ge x (8 + i) (by omega)]
    · intro i hi
      rw [BitVec.getLsbD_shiftLeft]
      simp [hi]
  conv => lhs; rw [hsplit]
  rw [Lfsr.iterate_step_xor, hhigh]

theorem word_byteBits (b : UInt8) :
    (Lfsr.word (byteBits b) : BitVec 32) = b.toBitVec.setWidth 32 := by
  apply BitVec.eq_of_getLsbD_eq
  intro i hi
  rw [Lfsr.getLsbD_word, BitVec.getLsbD_setWidth, byteBits,
    List.getD_eq_getElem?_getD, List.getElem?_map]
  rcases Nat.lt_or_ge i 8 with h | h
  · simp [h]
  · simp [h]

/-- One turn of the loop feeds the register the eight bits of the byte. -/
theorem crc32Step_toBitVec (crc : UInt32) (b : UInt8) :
    (crc32Step crc b).toBitVec =
      Lfsr.feed crc32Poly crc.toBitVec (byteBits b) := by
  have hindex : (UInt32.ofNat (crc ^^^ b.toUInt32).toUInt8.toNat).toBitVec =
      ((crc.toBitVec ^^^ b.toBitVec.setWidth 32).setWidth 8).setWidth 32 := by
    apply BitVec.eq_of_toNat_eq
    simp
  have hbyte : (b.toBitVec.setWidth 32) >>> 8 = 0#32 := by
    apply BitVec.eq_of_toNat_eq
    have := b.toNat_lt
    simp [Nat.shiftRight_eq_div_pow]
    omega
  rw [Lfsr.feed_eq_iterate _ _ _ (by simp), byteBits_length, word_byteBits,
    iterate_step_eight, BitVec.ushiftRight_xor_distrib, hbyte, BitVec.xor_zero]
  simp only [crc32Step, crc32Table_get, UInt32.toBitVec_xor,
    iterate_crc32Bit_toBitVec, hindex]
  rfl

theorem foldl_crc32Step_toBitVec (bytes : List UInt8) (crc : UInt32) :
    (bytes.foldl crc32Step crc).toBitVec =
      Lfsr.feed crc32Poly crc.toBitVec (bits bytes) := by
  induction bytes generalizing crc with
  | nil => rfl
  | cons b bs ih =>
      rw [List.foldl_cons, ih, bits_cons, Lfsr.feed_append, crc32Step_toBitVec]

/-- Two bit strings agree outside some `k` consecutive places. -/
def Burst (k : Nat) (xs ys : List Bool) : Prop :=
  ∃ s, ∀ i, xs[i]? ≠ ys[i]? → s ≤ i ∧ i < s + k

theorem Burst.drop {k : Nat} {xs ys : List Bool} (h : Burst k xs ys) (d : Nat) :
    Burst k (xs.drop d) (ys.drop d) := by
  obtain ⟨s, hs⟩ := h
  -- The window may begin before the cut; it then ends no later for that.
  refine ⟨s - d, fun i hi => ?_⟩
  rw [List.getElem?_drop, List.getElem?_drop] at hi
  have := hs (d + i) hi
  omega

/-- Two different strings of one length whose bits differ only inside 32
consecutive places have different checksums. -/
theorem crc32_ne_of_burst {xs ys : List UInt8} (hlen : xs.length = ys.length)
    (hne : xs ≠ ys) (hb : Burst 32 (bits xs) (bits ys)) :
    crc32 xs ≠ crc32 ys := by
  obtain ⟨s, hs⟩ := hb
  have hx : xs ≠ [] := by
    rintro rfl
    exact hne (List.eq_nil_of_length_eq_zero hlen.symm).symm
  have hy : ys ≠ [] := by
    rintro rfl
    exact hx (List.eq_nil_of_length_eq_zero hlen)
  have hfeed := Lfsr.feed_ne_of_burst (r := (0xFFFFFFFF : UInt32).toBitVec)
    crc32Poly_msb (by simp [hlen]) (fun h => hne (bits_inj hlen h)) s hs
  rw [← foldl_crc32Step_toBitVec, ← foldl_crc32Step_toBitVec] at hfeed
  intro heq
  rw [crc32, crc32, crc32From, crc32From, if_neg hx, if_neg hy] at heq
  refine hfeed (congrArg UInt32.toBitVec ?_)
  simpa using congrArg (· ^^^ (0xFFFFFFFF : UInt32)) heq

end Sinew
