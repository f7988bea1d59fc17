import Mathlib.Tactic.NormNum.GCD
import Mathlib.Tactic.NormNum.Prime
import Sinew.Lib.Period
import Sinew.Proofs.Checksum
import Sinew.Proofs.Corruption

/-!
# Which two flipped bits the checksum misses

The generator of IEEE 802.3 is primitive: fed with zeros, the register goes
through all of its `2 ^ 32 - 1` words other than zero before it repeats. So the
checksums of two strings that differ in two bits only are the same exactly when
the bits are a multiple of that many places apart, which needs half a gigabyte
between them; and zero bytes at the end change the checksum unless they are as
many, or the register had run empty.

Both readers compare checksums, so of a packet that was finalised with one they
let two flipped bits of the payload through in that case, and in the case that
the stored checksum is the zero of an unchecked packet.
-/

namespace Sinew

open Lib Lfsr

theorem prime_mem_factors {p : Nat} (hp : p.Prime) (hdvd : p ∣ 2 ^ 32 - 1) :
    p ∈ [3, 5, 17, 257, 65537] := by
  have hfactors : 2 ^ 32 - 1 = 3 * 5 * 17 * 257 * 65537 := by norm_num
  rw [hfactors] at hdvd
  have hself : ∀ {q : Nat}, q.Prime → p ∣ q → p = q :=
    fun hq h => (Nat.prime_dvd_prime_iff_eq hp hq).mp h
  rcases hp.dvd_mul.mp hdvd with hdvd | h
  · rcases hp.dvd_mul.mp hdvd with hdvd | h
    · rcases hp.dvd_mul.mp hdvd with hdvd | h
      · rcases hp.dvd_mul.mp hdvd with h | h
        · simp [hself (by norm_num) h]
        · simp [hself (by norm_num) h]
      · simp [hself (by norm_num) h]
    · simp [hself (by norm_num) h]
  · simp [hself (by norm_num) h]

-- Squaring is evaluated from the inside, and goes as deep as 32 products do.
set_option maxRecDepth 2000 in
theorem crc32Poly_primitive : Primitive crc32Poly where
  msb := crc32Poly_msb
  period := by
    refine minimalPeriod_eq_of_div_prime ?_ fun p hp hdvd hper => ?_
    · have hround : power crc32Poly 32 (2 ^ 32 - 1) = unit := by decide +kernel
      rwa [power_eq crc32Poly (by decide)] at hround
    · have hshort : ∀ p ∈ [3, 5, 17, 257, 65537],
          power crc32Poly 32 ((2 ^ 32 - 1) / p) ≠ unit := by decide +kernel
      have hle : (2 ^ 32 - 1) / p ≤ 2 ^ 32 - 1 := Nat.div_le_self _ _
      refine hshort p (prime_mem_factors hp hdvd) ?_
      rw [power_eq crc32Poly (by omega)]
      exact hper

theorem foldl_two_bits_iff {xs ys : List UInt8} {p q : Nat} (hlen : xs.length = ys.length)
    (hpq : p < q) (hdiff : DifferAt p q (bits xs) (bits ys)) (register : UInt32) :
    xs.foldl crc32Step register = ys.foldl crc32Step register ↔ 2 ^ 32 - 1 ∣ q - p := by
  rw [← UInt32.toBitVec_inj, foldl_crc32Step_toBitVec, foldl_crc32Step_toBitVec]
  exact crc32Poly_primitive.feed_eq_iff (by simp [hlen]) hpq hdiff

/-- **Two bits**: from any register, strings of one length that differ in two bits
only have the same checksum exactly when those are a multiple of `2 ^ 32 - 1`
places apart. -/
theorem crc32_two_bits_iff (initial : UInt32) {xs ys : List UInt8} {p q : Nat}
    (hlen : xs.length = ys.length) (hpq : p < q)
    (hdiff : DifferAt p q (bits xs) (bits ys)) :
    crc32From initial xs = crc32From initial ys ↔ 2 ^ 32 - 1 ∣ q - p := by
  have hne : xs ≠ ys := fun h => (hdiff p).mpr (.inl rfl) (by rw [h])
  have hx : xs ≠ [] := by
    rintro rfl
    exact hne (List.eq_nil_of_length_eq_zero hlen.symm).symm
  have hy : ys ≠ [] := by
    rintro rfl
    exact hx (List.eq_nil_of_length_eq_zero hlen)
  rw [crc32From, crc32From, if_neg hx, if_neg hy, UInt32.xor_left_inj]
  exact foldl_two_bits_iff hlen hpq hdiff initial

theorem crc32_two_bits_iff_byte : crc32 [0x00] ≠ crc32 [0x81] := by
  have hlen : [(0x00 : UInt8)].length = [(0x81 : UInt8)].length := rfl
  have hflips : DifferAt 0 7 (bits [0x00]) (bits [0x81]) :=
    DifferAt.of_lt 8 (by decide) (by decide) (by decide)
  intro h
  have hdvd := (crc32_two_bits_iff 0xFFFFFFFF hlen (by norm_num) hflips).mp h
  norm_num at hdvd

theorem bits_replicate_zero (m : Nat) :
    bits (List.replicate m 0) = List.replicate (8 * m) false := by
  induction m with
  | zero => rfl
  | succ m ih =>
      rw [List.replicate_succ, bits_cons, ih, show 8 * (m + 1) = 8 + 8 * m by omega,
        List.replicate_add]
      rfl

/-- **Trailing zeros**: zero bytes at the end leave the checksum alone exactly
when the register has run empty, or comes round in as many clocks. -/
theorem crc32_zeros_iff (bytes : List UInt8) (m : Nat) :
    crc32 (bytes ++ List.replicate m 0) = crc32 bytes ↔
      crc32 bytes = 0xFFFFFFFF ∨ 2 ^ 32 - 1 ∣ m := by
  have hcoprime : (2 ^ 32 - 1 : Nat).Coprime 8 := by norm_num
  have hempty : crc32 bytes = 0xFFFFFFFF ↔
      (bytes.foldl crc32Step 0xFFFFFFFF).toBitVec = 0#32 := by
    rw [crc32_eq_not]
    constructor
    · intro h
      have hnot := congrArg (fun crc => (~~~ crc).toBitVec) h
      simpa using hnot
    · intro h
      rw [show bytes.foldl crc32Step 0xFFFFFFFF = 0 from UInt32.toBitVec_inj.mp h]
      rfl
  rw [hempty, crc32_eq, crc32_eq, UInt32.xor_left_inj, List.foldl_append,
    ← UInt32.toBitVec_inj, foldl_crc32Step_toBitVec (List.replicate m 0),
    bits_replicate_zero, feed_replicate_false]
  by_cases hzero : (bytes.foldl crc32Step 0xFFFFFFFF).toBitVec = 0#32
  · rw [hzero]
    exact iff_of_true (Function.iterate_fixed (step_zero _) _) (.inl rfl)
  · rw [crc32Poly_primitive.iterate_eq_self_iff hzero, hcoprime.dvd_mul_left]
    exact (or_iff_right hzero).symm

/-! ## Packets -/

theorem differAt_payload {header header' payload payload' : List UInt8} {p q : Nat}
    (hlen : header.length = 16) (hlen' : header'.length = 16)
    (h : DifferAt (8 * 16 + p) (8 * 16 + q) (bits (header ++ payload))
      (bits (header' ++ payload'))) :
    header = header' ∧ DifferAt p q (bits payload) (bits payload') := by
  have hheader : header = header' := by
    refine List.ext_getElem? fun k => ?_
    by_contra hne
    have hk : k < 16 := by
      by_contra hge
      refine hne ?_
      rw [List.getElem?_eq_none (by omega), List.getElem?_eq_none (by omega)]
    have hne' : (header ++ payload)[k]? ≠ (header' ++ payload')[k]? := by
      rwa [List.getElem?_append_left (by omega), List.getElem?_append_left (by omega)]
    obtain ⟨j, hj, hbit⟩ := exists_bit_ne hne'
    have hat := (h _).mp hbit
    omega
  subst hheader
  rw [bits_append, bits_append, ← hlen, ← bits_length] at h
  exact ⟨rfl, (differAt_append _).mp h⟩

section Packets

variable {T : MsgType} {payload : List UInt8} {host : Endian} {f : Nat → UInt8}
  {a i j size : Nat}

/-- A packet that stores some checksum is accepted if that is its payload's, or
zero, unless the header has no room for its length. -/
theorem carries_stored_iff {crc : UInt32} (hsize : Header.size + T.size ≤ size)
    (hf : slice f a (16 + T.size) = packet host T crc payload) :
    Carries host T a f size true ↔ T.size < 2 ^ 32 ∧ (crc = 0 ∨ crc = crc32 payload) := by
  constructor
  · intro hc
    obtain ⟨hof, hpay⟩ := packet_parts hf
    have hstored : (Header.ofMem host f a).crc = crc := by rw [hof]; rfl
    have hroom : T.size < 2 ^ 32 := hc.payloadLen ▸ UInt32.toNat_lt _
    refine ⟨hroom, ?_⟩
    by_cases hzero : crc = 0
    · exact .inl hzero
    · have hsame := hc.crc rfl (by rwa [hstored])
      rw [hstored, hpay] at hsame
      exact .inr hsame.symm
  · rintro ⟨hroom, hcrc⟩
    exact (carries_packet hroom hf hcrc).mpr ⟨hsize, rfl, rfl, rfl⟩

theorem carries_two_bits_iff (hlen : payload.length = T.size)
    (hsize : Header.size + T.size ≤ size) (hij : i < j)
    (hdiff : DifferAt (8 * 16 + i) (8 * 16 + j)
      (bits (packet host T (crc32 payload) payload)) (bits (slice f a (16 + T.size)))) :
    Carries host T a f size true ↔
      T.size < 2 ^ 32 ∧ (crc32 payload = 0 ∨ 2 ^ 32 - 1 ∣ j - i) := by
  rw [slice_add, packet] at hdiff
  obtain ⟨hhdr, hpay⟩ := differAt_payload (Header.encode_length _ _) (slice_length _ _ _) hdiff
  have hf : slice f a (16 + T.size) =
      packet host T (crc32 payload) (slice f (a + 16) T.size) := by
    rw [slice_add, packet, hhdr]
  have hlen' : payload.length = (slice f (a + 16) T.size).length := by
    rw [hlen, slice_length]
  have hsame : crc32 payload = crc32 (slice f (a + 16) T.size) ↔ 2 ^ 32 - 1 ∣ j - i := by
    rw [crc32_eq, crc32_eq, UInt32.xor_left_inj, foldl_two_bits_iff hlen' hij hpay]
  rw [carries_stored_iff hsize hf, hsame]

end Packets

/-- **Two flipped bits**: a packet finalised with a checksum and then changed in
two bits of its payload gets past a reader of the format it was written in exactly
when its checksum is zero or the bits are a multiple of `2 ^ 32 - 1` apart, and
the header had room for its length. -/
theorem two_flips_unnoticed_iff (T : MsgType) {cap size : Nat}
    (hcap : Header.size + T.size ≤ cap) (hsize : Header.size + T.size ≤ size)
    {source : List UInt8} (hlen : source.length = T.size) {i j : Nat} (hij : i < j)
    (p q : Ptr) (m m' : Mem) :
    (∀ host, (p.addr + Header.size) % T.align = 0 → (q.addr + Header.size) % T.align = 0 →
      DifferAt (8 * 16 + i) (8 * 16 + j)
        (bits (slice ((writeInPlace host T (some p) cap source true).run
          Mem.machine m).2.byte p.off (16 + T.size)))
        (bits (slice m'.byte q.off (16 + T.size))) →
      (((validate host T (some q) size true).run Mem.machine m').1 = .ok ↔
        T.size < 2 ^ 32 ∧ (crc32 source = 0 ∨ 2 ^ 32 - 1 ∣ j - i))) ∧
    (∀ host host' shape dest, shape.Laid → shape.size = T.size →
      DifferAt (8 * 16 + i) (8 * 16 + j)
        (bits (slice ((portableEncode host T shape (some p) cap source true).run
          Mem.machine m).2.byte p.off (16 + T.size)))
        (bits (slice m'.byte q.off (16 + T.size))) →
      (((portableDecode host' T shape (some q) size dest true).run
          Mem.machine m').1 = .ok ↔
        T.size < 2 ^ 32 ∧
          (crc32 (shape.converted host source) = 0 ∨ 2 ^ 32 - 1 ∣ j - i))) := by
  constructor
  · intro host hp hq hdiff
    rw [run_writeInPlace hcap hp hlen, Mem.write_byte, slice_patch_eq (by simp [hlen])] at hdiff
    rw [run_validate, validateMem_eq_ok, and_iff_left hq]
    exact carries_two_bits_iff hlen hsize hij hdiff
  · intro host host' shape dest hlaid hsh hdiff
    have hconv : (shape.converted host source).length = T.size := by simp [hlen]
    rw [run_portableEncode (fun _ => ⟨hlaid, hsh⟩) hcap hlen, Mem.write_byte,
      slice_patch_eq (by simp [hconv])] at hdiff
    rw [run_portableDecode fun _ => ⟨hlaid, hsh⟩, decodeMem_eq_ok]
    exact carries_two_bits_iff hconv hsize hij hdiff

/-- A ping numbered 7 does not arrive as one numbered 262, two flips away. -/
theorem two_flips_unnoticed_iff_ping :
    let m := zeroMem.write 0 (packet .little pingMsg (crc32 [7, 0, 0, 0]) [6, 1, 0, 0])
    ((validate .little pingMsg (some ⟨0x1000, 0⟩) 20 true).run Mem.machine m).1 ≠ .ok ∧
    ((portableDecode .little pingMsg (.scalar 4) (some ⟨0x1000, 0⟩) 20 ⟨0x2000, 100⟩
      true).run Mem.machine m).1 ≠ .ok := by
  intro m
  have hflips : DifferAt 0 8 (bits [7, 0, 0, 0]) (bits [6, 1, 0, 0]) :=
    DifferAt.of_lt 32 (by decide) (by decide) (by decide)
  have hread : slice m.byte 0 20 =
      packet .little pingMsg (crc32 [7, 0, 0, 0]) [6, 1, 0, 0] := slice_patch_eq rfl
  have hdiff : DifferAt (8 * 16 + 0) (8 * 16 + 8)
      (bits (packet .little pingMsg (crc32 [7, 0, 0, 0]) [7, 0, 0, 0]))
      (bits (slice m.byte 0 20)) := by
    rw [hread, packet, packet, bits_append, bits_append]
    exact (differAt_append _).mpr hflips
  have hnot : ¬ (pingMsg.size < 2 ^ 32 ∧
      (crc32 [7, 0, 0, 0] = 0 ∨ 2 ^ 32 - 1 ∣ 8 - 0)) :=
    fun h => not_or.mpr ⟨by decide +kernel, by norm_num⟩ h.2
  have hfits : Header.size + pingMsg.size ≤ 20 := by decide
  have hlen : [7, 0, 0, (0 : UInt8)].length = pingMsg.size := rfl
  have hij : 0 < 8 := by norm_num
  have hboth := two_flips_unnoticed_iff pingMsg hfits hfits hlen hij
    ⟨0x1000, 0⟩ ⟨0x1000, 0⟩ zeroMem m
  constructor
  · refine (hboth.1 .little (by decide) (by decide) ?_).not.mpr hnot
    rw [run_writeInPlace hfits (by decide) hlen, Mem.write_byte,
      slice_patch_eq (by simp [hlen])]
    exact hdiff
  · refine (hboth.2 .little .little (.scalar 4) ⟨0x2000, 100⟩ ?_ rfl ?_).not.mpr hnot
    · trivial
    · rw [run_portableEncode (fun h => by cases h) hfits hlen, Mem.write_byte,
        slice_patch_eq (by simp [hlen])]
      exact hdiff

end Sinew
