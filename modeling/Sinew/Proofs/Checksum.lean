import Sinew.Lib.Remainder
import Sinew.Proofs.Crc32

/-!
# What the checksum is

The table-driven loop computes the checksum of IEEE 802.3, one bit at a time or
as the remainder of a division; two strings that differ in one short burst have
different checksums. And a checksum may be taken piece by piece through the
third parameter, as long as no piece is empty: for an empty piece `crc32`
answers zero, whatever register it was handed, and the pieces before it are
forgotten unless they happen to leave the register where it started.
-/

namespace Sinew

open Lib Polynomial

/-- One bit of CRC-32/IEEE 802.3: the bit is added at the low end of the register,
which then moves down by one place. -/
def ieeeClock (register : UInt32) (bit : Bool) : UInt32 :=
  let register := if bit then register ^^^ 1 else register
  if register &&& 1 ≠ 0 then (register >>> 1) ^^^ 0xEDB88320 else register >>> 1

/-- CRC-32/IEEE 802.3 bit by bit, the low bit of each byte first. -/
def crc32Bitwise (bytes : List UInt8) : UInt32 :=
  ~~~ (bits bytes).foldl ieeeClock 0xFFFFFFFF

/-- The generator polynomial of IEEE 802.3. -/
noncomputable def ieeeGenerator : (ZMod 2)[X] :=
  X ^ 32 + X ^ 26 + X ^ 23 + X ^ 22 + X ^ 16 + X ^ 12 + X ^ 11 + X ^ 10 + X ^ 8 + X ^ 7 +
    X ^ 5 + X ^ 4 + X ^ 2 + X + 1

/-- A register of ones. -/
noncomputable def ones : (ZMod 2)[X] := ∑ i ∈ Finset.range 32, X ^ i

theorem divisor_crc32Poly : Lfsr.divisor crc32Poly = ieeeGenerator := by
  simp only [Lfsr.divisor, Lfsr.residue, crc32Poly, ieeeGenerator, Finset.sum_range_succ,
    Finset.sum_range_zero]
  simp
  ring

theorem residue_ones : Lfsr.residue (0xFFFFFFFF : UInt32).toBitVec = ones := by
  rw [Lfsr.residue, ones, ← Finset.sum_range_reflect]
  refine Finset.sum_congr rfl fun i hi => ?_
  have hlt := Finset.mem_range.mp hi
  have hbit : (BitVec.allOnes 32).getLsbD (32 - 1 - i) = true := by
    rw [BitVec.getLsbD_allOnes]
    exact decide_eq_true (by omega)
  have hpow : 32 - 1 - (32 - 1 - i) = i := by omega
  exact (if_pos hbit).trans (by rw [hpow])

theorem ieeeClock_toBitVec (register : UInt32) (bit : Bool) :
    (ieeeClock register bit).toBitVec =
      Lfsr.step crc32Poly (register.toBitVec ^^^ Lfsr.bit bit) := by
  have hclock : ∀ r : UInt32,
      (if r &&& 1 ≠ 0 then (r >>> 1) ^^^ 0xEDB88320 else r >>> 1) = crc32Bit r := by
    intro r
    rw [crc32Bit, UInt32.xor_comm]
  rw [ieeeClock, hclock, crc32Bit_toBitVec]
  cases bit with
  | false => simp [Lfsr.bit]
  | true => rfl

theorem foldl_ieeeClock_toBitVec (bs : List Bool) (register : UInt32) :
    (bs.foldl ieeeClock register).toBitVec =
      Lfsr.feed crc32Poly register.toBitVec bs := by
  induction bs generalizing register with
  | nil => rfl
  | cons b bs ih => rw [List.foldl_cons, ih, ieeeClock_toBitVec, Lfsr.feed]

theorem foldl_crc32Step (bytes : List UInt8) (crc : UInt32) :
    bytes.foldl crc32Step crc = (bits bytes).foldl ieeeClock crc := by
  apply UInt32.toBitVec_inj.mp
  rw [foldl_crc32Step_toBitVec, foldl_ieeeClock_toBitVec]

theorem crc32_eq (bytes : List UInt8) :
    crc32 bytes = bytes.foldl crc32Step 0xFFFFFFFF ^^^ 0xFFFFFFFF := by
  rw [crc32, crc32From]
  split
  · next h =>
      subst h
      rfl
  · rfl

theorem crc32_eq_not (bytes : List UInt8) :
    crc32 bytes = ~~~ bytes.foldl crc32Step 0xFFFFFFFF := by
  have hneg : ∀ x : UInt32, x ^^^ 0xFFFFFFFF = ~~~ x := fun x => UInt32.xor_neg_one
  rw [crc32_eq, hneg]

theorem crc32_eq_bitwise (bytes : List UInt8) : crc32 bytes = crc32Bitwise bytes := by
  rw [crc32_eq_not, foldl_crc32Step, crc32Bitwise]

/-- **The checksum is CRC-32/IEEE 802.3**, bit by bit and as a remainder. -/
theorem crc32_is_ieee (bytes : List UInt8) :
    crc32 bytes = crc32Bitwise bytes ∧
      Lfsr.residue (~~~ crc32 bytes).toBitVec =
        (X ^ (8 * bytes.length) * ones + X ^ 32 * Lfsr.message (bits bytes)) %ₘ
          ieeeGenerator := by
  refine ⟨crc32_eq_bitwise bytes, ?_⟩
  rw [crc32_eq_not, UInt32.not_not, foldl_crc32Step_toBitVec,
    Lfsr.residue_feed (by decide), bits_length, residue_ones, divisor_crc32Poly]

theorem crc32_eq_iff (xs ys : List UInt8) :
    crc32 xs = crc32 ys ↔
      ieeeGenerator ∣
        X ^ (8 * xs.length) * ones + X ^ 32 * Lfsr.message (bits xs) +
          (X ^ (8 * ys.length) * ones + X ^ 32 * Lfsr.message (bits ys)) := by
  have hfeed := Lfsr.feed_eq_feed_iff (by decide) crc32Poly (bits xs) (bits ys)
    (0xFFFFFFFF : UInt32).toBitVec (0xFFFFFFFF : UInt32).toBitVec
  rw [bits_length, bits_length, residue_ones, divisor_crc32Poly] at hfeed
  rw [crc32_eq, crc32_eq, UInt32.xor_left_inj, ← UInt32.toBitVec_inj,
    foldl_crc32Step_toBitVec, foldl_crc32Step_toBitVec, hfeed]

/-! ## Bursts -/

theorem burst_of_replaced {pre post a b : List UInt8} (ha : a.length = 4)
    (hb : b.length = 4) :
    Burst 32 (bits (pre ++ a ++ post)) (bits (pre ++ b ++ post)) := by
  refine ⟨8 * pre.length, fun i hi => ?_⟩
  simp only [bits_append] at hi
  by_contra hout
  refine hi ?_
  rcases Nat.lt_or_ge i (8 * pre.length) with hlt | hge
  · rw [List.append_assoc, List.append_assoc,
      List.getElem?_append_left (by rw [bits_length]; exact hlt),
      List.getElem?_append_left (by rw [bits_length]; exact hlt)]
  · have hpast : 8 * pre.length + 32 ≤ i := by omega
    have hlen : ∀ c : List UInt8, c.length = 4 →
        (bits pre ++ bits c).length = 8 * pre.length + 32 := by
      intro c hc
      rw [List.length_append, bits_length, bits_length, hc]
    rw [List.getElem?_append_right (by rw [hlen a ha]; exact hpast),
      List.getElem?_append_right (by rw [hlen b hb]; exact hpast), hlen a ha, hlen b hb]

/-- **Bursts are detected**: strings of one length that differ, but only in bits
within 32 of each other, have different checksums; so have any two strings of
four bytes, and any two that differ in four consecutive bytes only. -/
theorem crc32_detects_bursts :
    (∀ xs ys : List UInt8, xs.length = ys.length → xs ≠ ys →
      Burst 32 (bits xs) (bits ys) → crc32 xs ≠ crc32 ys) ∧
    (∀ xs ys : List UInt8, xs.length = 4 → ys.length = 4 →
      crc32 xs = crc32 ys → xs = ys) ∧
    ∀ pre a b post : List UInt8, a.length = 4 → b.length = 4 → a ≠ b →
      crc32 (pre ++ a ++ post) ≠ crc32 (pre ++ b ++ post) := by
  have hreplaced : ∀ pre a b post : List UInt8, a.length = 4 → b.length = 4 → a ≠ b →
      crc32 (pre ++ a ++ post) ≠ crc32 (pre ++ b ++ post) := by
    intro pre a b post ha hb hne
    refine crc32_ne_of_burst ?_ (fun h => hne ?_) (burst_of_replaced ha hb)
    · simp [ha, hb]
    · simpa using h
  refine ⟨fun xs ys hlen hne hburst => crc32_ne_of_burst hlen hne hburst, ?_, hreplaced⟩
  intro xs ys hx hy heq
  by_contra hne
  have h := hreplaced [] xs ys [] hx hy hne
  simp only [List.nil_append, List.append_nil] at h
  exact h heq

/-- One bit of the string of the standard check value is flipped. -/
theorem crc32_detects_bursts_check :
    crc32 [0x31, 0x32, 0x33, 0x34, 0x35, 0x36, 0x37, 0x38, 0x39] ≠
      crc32 [0x31, 0x32, 0x33, 0x34, 0x35, 0x37, 0x37, 0x38, 0x39] :=
  crc32_detects_bursts.2.2 [0x31, 0x32] [0x33, 0x34, 0x35, 0x36] [0x33, 0x34, 0x35, 0x37]
    [0x37, 0x38, 0x39] rfl rfl (by decide)

/-- Checksums of consecutive chunks, each from the register that the one before
left: `initial` is the previous result, complemented back. -/
def crc32Chained (chunks : List (List UInt8)) : UInt32 :=
  chunks.foldl (fun previous chunk => crc32From (previous ^^^ 0xFFFFFFFF) chunk) 0

/-- A string that takes a register of ones back to ones: the generator divides
what the string and the register add up to. -/
def Restoring (bytes : List UInt8) : Prop :=
  ieeeGenerator ∣
    X ^ 32 * Lfsr.message (bits bytes) + (X ^ (8 * bytes.length) + 1) * ones

theorem restoring_iff (bytes : List UInt8) :
    Restoring bytes ↔ bytes.foldl crc32Step 0xFFFFFFFF = 0xFFFFFFFF := by
  have hfeed := Lfsr.feed_eq_self_iff (by decide) crc32Poly (bits bytes)
    (0xFFFFFFFF : UInt32).toBitVec
  rw [divisor_crc32Poly, residue_ones, bits_length] at hfeed
  rw [Restoring, ← hfeed, ← foldl_crc32Step_toBitVec, UInt32.toBitVec_inj]

/-- The register is never lost: equal after a string, it was equal before. -/
theorem foldl_crc32Step_inj (bytes : List UInt8) {r s : UInt32}
    (h : bytes.foldl crc32Step r = bytes.foldl crc32Step s) : r = s := by
  have hfeed := congrArg UInt32.toBitVec h
  rw [foldl_crc32Step_toBitVec, foldl_crc32Step_toBitVec] at hfeed
  exact UInt32.toBitVec_inj.mp (Lfsr.feed_inj crc32Poly_msb hfeed)

theorem foldl_chunks {chunks : List (List UInt8)} (hne : [] ∉ chunks) (previous : UInt32) :
    chunks.foldl (fun previous chunk => crc32From (previous ^^^ 0xFFFFFFFF) chunk) previous =
      chunks.flatten.foldl crc32Step (previous ^^^ 0xFFFFFFFF) ^^^ 0xFFFFFFFF := by
  induction chunks generalizing previous with
  | nil =>
      rw [List.foldl_nil, List.flatten_nil, List.foldl_nil, UInt32.xor_assoc,
        UInt32.xor_self, UInt32.xor_zero]
  | cons chunk chunks ih =>
      obtain ⟨hchunk, hchunks⟩ := not_or.mp (List.mem_cons.not.mp hne)
      rw [List.foldl_cons, ih hchunks, crc32From, if_neg (Ne.symm hchunk),
        List.flatten_cons, List.foldl_append, UInt32.xor_assoc _ _ (0xFFFFFFFF : UInt32),
        UInt32.xor_self, UInt32.xor_zero]

theorem crc32Chained_nonempty {chunks : List (List UInt8)} (hne : [] ∉ chunks) :
    crc32Chained chunks = crc32 chunks.flatten := by
  rw [crc32Chained, foldl_chunks hne, crc32_eq]
  rfl

/-- An empty chunk makes the chain start again. -/
theorem crc32Chained_empty (front : List (List UInt8)) {back : List (List UInt8)}
    (hne : [] ∉ back) : crc32Chained (front ++ [] :: back) = crc32 back.flatten := by
  rw [crc32Chained, List.foldl_append, List.foldl_cons, ← crc32Chained_nonempty hne]
  rfl

theorem crc32Chained_empty_iff (front : List (List UInt8)) {back : List (List UInt8)}
    (hne : [] ∉ back) :
    crc32Chained (front ++ [] :: back) = crc32 (front ++ [] :: back).flatten ↔
      Restoring front.flatten := by
  rw [crc32Chained_empty front hne, crc32_eq, crc32_eq, UInt32.xor_left_inj,
    List.flatten_append, List.flatten_cons, List.nil_append, List.foldl_append,
    restoring_iff]
  exact ⟨fun h => (foldl_crc32Step_inj _ h).symm, fun h => by rw [h]⟩

theorem exists_last_empty {chunks : List (List UInt8)} (hmem : [] ∈ chunks) :
    ∃ front back, chunks = front ++ [] :: back ∧ [] ∉ back := by
  obtain ⟨back, front, hrev, hne⟩ :=
    List.eq_append_cons_of_mem (List.mem_reverse.mpr hmem)
  refine ⟨front.reverse, back.reverse, ?_, fun h => hne (List.mem_reverse.mp h)⟩
  rw [← List.reverse_reverse chunks, hrev]
  simp

/-- **Piece by piece**: the chain of checksums is the checksum of the whole exactly
when what comes before the last empty chunk, if there is one, restores the
register. -/
theorem crc32_chained_iff (chunks : List (List UInt8)) :
    crc32Chained chunks = crc32 chunks.flatten ↔
      ∀ front back, chunks = front ++ [] :: back → [] ∉ back →
        Restoring front.flatten := by
  constructor
  · intro heq front back hchunks hne
    subst hchunks
    exact (crc32Chained_empty_iff front hne).mp heq
  · intro hrestoring
    by_cases hmem : [] ∈ chunks
    · obtain ⟨front, back, hchunks, hne⟩ := exists_last_empty hmem
      have hfront := hrestoring front back hchunks hne
      subst hchunks
      exact (crc32Chained_empty_iff front hne).mpr hfront
    · exact crc32Chained_nonempty hmem

theorem crc32_chained_forgets :
    crc32Chained [[0x61], []] = 0 ∧ crc32 [0x61] = 0xE8B7BE43 ∧
      ¬ ∀ chunks, crc32Chained chunks = crc32 chunks.flatten := by
  have hchain : crc32Chained [[0x61], []] = 0 := rfl
  have hwhole : crc32 [0x61] = 0xE8B7BE43 := by decide +kernel
  refine ⟨hchain, hwhole, fun hall => ?_⟩
  have h := hall [[0x61], []]
  rw [hchain, show [[0x61], []].flatten = [(0x61 : UInt8)] from rfl, hwhole] at h
  exact absurd h (by decide)

end Sinew
