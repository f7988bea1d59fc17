import Sinew.Proofs.Crc32
import Sinew.Proofs.Portable

/-!
# Which corruptions of a finished packet are noticed

A burst of at most 32 bits that reaches the payload begins past the checksum
field and everything before it. So the checksum that was stored is the one
that is read, and it is not the checksum of what the payload has become.

That settles it unless the stored checksum is zero. The field's zero means that
no checksum was computed, and a payload whose checksum happens to be zero is
stored under the same zero: such a packet goes unchecked, although it was
finalised with `compute_crc`, and every corruption of its payload goes through.
-/

namespace Sinew

open Lib

/-- `bytes` is a packet that one of the two encoders left in a buffer when
asked for a checksum, and `payload` is the payload in it. -/
inductive Finalised (T : MsgType) : List UInt8 → List UInt8 → Prop where
  | inPlace (host : Endian) (p : Ptr) (cap : Nat) (payload : List UInt8) (m : Mem) :
      Header.size + T.size ≤ cap → (p.addr + Header.size) % T.align = 0 →
      payload.length = T.size →
      Finalised T payload
        (slice ((writeInPlace host T (some p) cap payload true).run
          Mem.machine m).2.byte p.off (16 + T.size))
  | portable (host : Endian) (shape : Shape) (p : Ptr) (cap : Nat)
      (source : List UInt8) (m : Mem) :
      shape.Laid → shape.size = T.size → Header.size + T.size ≤ cap →
      source.length = T.size →
      Finalised T
        (slice ((portableEncode host T shape (some p) cap source true).run
          Mem.machine m).2.byte (p.off + 16) T.size)
        (slice ((portableEncode host T shape (some p) cap source true).run
          Mem.machine m).2.byte p.off (16 + T.size))

variable {T : MsgType} {payload bytes xs : List UInt8}

theorem Finalised.eq_packet (h : Finalised T payload bytes) :
    payload.length = T.size ∧
      ∃ host, bytes = packet host T (crc32 payload) payload := by
  cases h with
  | inPlace host p cap payload m hcap hal hlen =>
      refine ⟨hlen, host, ?_⟩
      rw [run_writeInPlace hcap hal hlen, Mem.write_byte,
        slice_patch_eq (by simp [hlen])]
      rfl
  | portable host shape p cap source m hlaid hsize hcap hlen =>
      refine ⟨slice_length _ _ _, .little, ?_⟩
      rw [run_portableEncode (fun _ => ⟨hlaid, hsize⟩) hcap hlen, Mem.write_byte,
        slice_patch_eq (by simp [hlen]), slice_payload .little T _ _ _ (by simp [hlen])]
      rfl

/-- A burst that reaches a byte leaves the bytes alone that are more than 32
bits before it. -/
theorem Burst.getElem?_eq {xs ys : List UInt8} (h : Burst 32 (bits xs) (bits ys))
    {k : Nat} (hk : xs[k]? ≠ ys[k]?) {i : Nat} (hi : i + 4 < k) : xs[i]? = ys[i]? := by
  obtain ⟨s, hs⟩ := h
  obtain ⟨j, hj, hjne⟩ := exists_bit_ne hk
  by_contra hne
  obtain ⟨j', hj', hjne'⟩ := exists_bit_ne hne
  have h1 := hs _ hjne
  have h2 := hs _ hjne'
  omega

/-- A corrupted packet that is accepted all the same was either not checked or
not corrupted in its payload. -/
theorem Carries.payload_eq {host reader : Endian} {f : Nat → UInt8} {a size : Nat}
    (hlen : payload.length = T.size)
    (hb : Burst 32 (bits (packet host T (crc32 payload) payload))
      (bits (slice f a (16 + T.size))))
    (hcrc : crc32 payload ≠ 0) (hc : Carries reader T a f size true) :
    slice f (a + 16) T.size = payload := by
  by_contra hne
  obtain ⟨g, hg⟩ : ∃ g, slice g 0 (16 + T.size) =
      packet host T (crc32 payload) payload :=
    ⟨object _, slice_patch_eq (by simp [hlen])⟩
  rw [← hg] at hb
  rw [slice_add, packet] at hg
  obtain ⟨hhdr, hpay⟩ := List.append_inj hg (by simp)
  -- A byte of the payload differs, so everything up to the checksum does not.
  obtain ⟨k, hk⟩ : ∃ k, (slice g (0 + 16) T.size)[k]? ≠
      (slice f (a + 16) T.size)[k]? := by
    by_contra hall
    push Not at hall
    exact hne (by rw [← List.ext_getElem? hall, hpay])
  have hk' : (slice g 0 (16 + T.size))[16 + k]? ≠
      (slice f a (16 + T.size))[16 + k]? := by
    simpa [slice_getElem?, Nat.add_assoc] using hk
  have hfront : slice f a 12 = slice g 0 12 := by
    refine List.ext_getElem? fun i => ?_
    rw [slice_getElem?, slice_getElem?]
    split
    · next hi =>
        have := hb.getElem?_eq hk' (i := i) (by omega)
        rw [slice_getElem?, slice_getElem?, if_pos (by omega), if_pos (by omega)] at this
        exact this.symm
    · rfl
  have hcrcs := slice_part hfront (d := 8) (k := 4) (by omega)
  have hmagics := slice_part hfront (d := 0) (k := 4) (by omega)
  have hof := Header.ofMem_encode hhdr
  have hmagic := (slice_of_u32At host g 0).trans
    (congrArg (fun h : Header => host.bytes 4 h.magic.toNat) hof)
  obtain rfl := magic_order (hmagics.trans hmagic) hc.magic
  have hstored : (Header.ofMem reader f a).crc = crc32 payload :=
    (u32At_congr reader hcrcs).trans (congrArg Header.crc hof)
  have hsame := hc.crc rfl (by rw [hstored]; exact hcrc)
  rw [hstored] at hsame
  have hburst := hb.drop (8 * 16)
  rw [← bits_drop, ← bits_drop, slice_add, slice_add,
    List.drop_left' (slice_length _ _ _), List.drop_left' (slice_length _ _ _),
    hpay] at hburst
  exact crc32_ne_of_burst (by simp [hlen]) (fun h => hne h.symm) hburst hsame.symm

theorem burst_byte (xs zs : List UInt8) (b b' : UInt8) :
    Burst 32 (bits (xs ++ b :: zs)) (bits (xs ++ b' :: zs)) := by
  refine ⟨8 * xs.length, fun i hne => ?_⟩
  by_contra hout
  refine hne ?_
  simp only [bits_append, bits_cons]
  rcases Nat.lt_or_ge i (8 * xs.length) with hi | hi
  · rw [List.getElem?_append_left (by simpa using hi),
      List.getElem?_append_left (by simpa using hi)]
  · have hpast : ∀ b : UInt8, (bits xs ++ (byteBits b ++ bits zs))[i]? =
        (bits zs)[i - 8 * xs.length - 8]? := by
      intro b
      rw [List.getElem?_append_right (by rw [bits_length]; exact hi), bits_length,
        List.getElem?_append_right (by rw [byteBits_length]; omega), byteBits_length]
    rw [hpast, hpast]

/-- Where the checksum came out as zero, the lowest bit of the payload may flip
unnoticed. -/
theorem exists_unnoticed (host : Endian) (hlen : payload.length = T.size)
    (hcrc : crc32 payload = 0) (hT : T.size < 2 ^ 32) :
    ∃ (m : Mem) (q : Ptr),
      Burst 32 (bits (packet host T (crc32 payload) payload))
        (bits (slice m.byte q.off (16 + T.size))) ∧
      ((validate host T (some q) (Header.size + T.size) true).run
        Mem.machine m).1 = .ok ∧
      (q.addr + Header.size) % T.align = 0 ∧
      slice m.byte (q.off + 16) T.size ≠ payload := by
  match payload, hlen with
  | [], hlen => exact absurd hlen.symm (Nat.ne_of_gt T.size_pos)
  | b :: rest, hlen =>
      have hlen' : ((b ^^^ 1) :: rest).length = T.size := hlen
      have halign : 0 < T.align := by
        obtain ⟨k, hk⟩ := T.align_pow
        rw [hk]
        exact Nat.two_pow_pos k
      let q : Ptr := ⟨16 * (T.align - 1), 0⟩
      have hq : (q.addr + Header.size) % T.align = 0 := by
        have : q.addr + Header.size = 16 * T.align := by
          simp only [q, Ptr.addr, Header.size]
          omega
        rw [this, Nat.mul_mod_left]
      let m := zeroMem.write q.off (packet host T 0 ((b ^^^ 1) :: rest))
      have hm : slice m.byte q.off (16 + T.size) =
          packet host T 0 ((b ^^^ 1) :: rest) := slice_patch_eq (by simp [← hlen])
      refine ⟨m, q, ?_, ?_, hq, ?_⟩
      · rw [hm, hcrc]
        exact burst_byte _ rest b (b ^^^ 1)
      · rw [run_validate]
        exact validateMem_eq_ok.mpr
          ⟨(carries_packet hT hm (.inl rfl)).mpr ⟨Nat.le_refl _, rfl, rfl, rfl⟩, hq⟩
      · have hpay : slice m.byte (q.off + 16) T.size = (b ^^^ 1) :: rest :=
          slice_payload host T _ _ _ hlen'
        rw [hpay]
        intro h
        have hb : b ^^^ 1 = b := (List.cons.inj h).1
        have hone : b ^^^ (b ^^^ 1) = b ^^^ b := congrArg (b ^^^ ·) hb
        rw [← UInt8.xor_assoc, UInt8.xor_self, UInt8.zero_xor] at hone
        exact absurd hone (by decide)

/-- **Corruption detection.** Of a packet finalised with a checksum, every
burst of at most 32 bits in the payload is noticed by both readers, exactly
when that checksum is not zero or the type is too large to be read at all. -/
theorem corruption_detected_iff (T : MsgType) (payload bytes : List UInt8)
    (h : Finalised T payload bytes) :
    (∀ (m : Mem) (q : Ptr) (size : Nat),
      Burst 32 (bits bytes) (bits (slice m.byte q.off (16 + T.size))) →
      (∀ host, (q.addr + Header.size) % T.align = 0 →
        ((validate host T (some q) size true).run Mem.machine m).1 = .ok →
        slice m.byte (q.off + 16) T.size = payload) ∧
      (∀ host shape dest, shape.Laid → shape.size = T.size →
        ((portableDecode host T shape (some q) size dest true).run
          Mem.machine m).1 = .ok →
        slice m.byte (q.off + 16) T.size = payload)) ↔
    crc32 payload ≠ 0 ∨ 2 ^ 32 ≤ T.size := by
  obtain ⟨hlen, host, rfl⟩ := h.eq_packet
  constructor
  · intro hall
    by_contra hno
    push Not at hno
    obtain ⟨m, q, hb, hok, hq, hne⟩ := exists_unnoticed host hlen hno.1 hno.2
    exact hne ((hall m q _ hb).1 host hq hok)
  · intro hcond m q size hb
    have hcar : ∀ host, Carries host T q.off m.byte size true →
        slice m.byte (q.off + 16) T.size = payload := by
      intro reader hc
      rcases hcond with hcrc | hT
      · exact hc.payload_eq hlen hb hcrc
      · have := (Header.ofMem reader m.byte q.off).payloadLen.toNat_lt
        have := hc.payloadLen
        omega
    refine ⟨fun reader hq hok => ?_, fun reader shape dest hlaid hsize hok => ?_⟩
    · rw [run_validate] at hok
      exact hcar reader (validateMem_eq_ok.mp hok).1
    · rw [run_portableDecode fun _ => ⟨hlaid, hsize⟩] at hok
      exact hcar .little (decodeMem_eq_ok.mp hok)

/-- The bytes of a `PingMsg` sent in place with a checksum. -/
def sentPing (seq : List UInt8) : List UInt8 :=
  slice ((writeInPlace .little pingMsg (some ⟨0x1000, 0⟩) 20 seq true).run
    Mem.machine zeroMem).2.byte 0 20

theorem sentPing_eq {seq : List UInt8} (h : seq.length = 4) :
    sentPing seq = packet .little pingMsg (crc32 seq) seq := by
  rw [sentPing, run_writeInPlace (by decide) (by decide) h, Mem.write_byte,
    slice_patch_eq (by simp [h])]
  rfl

/-- A ping numbered 7 does not arrive as one numbered 6. -/
theorem corruption_detected_iff_ping :
    ((validate .little pingMsg (some ⟨0x1000, 0⟩) 20 true).run Mem.machine
      (zeroMem.write 0 (packet .little pingMsg (crc32 [7, 0, 0, 0]) [6, 0, 0, 0]))).1 ≠
      .ok := by
  have hsent : Finalised pingMsg [7, 0, 0, 0] (sentPing [7, 0, 0, 0]) :=
    .inPlace .little ⟨0x1000, 0⟩ 20 _ zeroMem (by decide) (by decide) rfl
  intro hok
  have hread : slice (patch zeroMem.byte 0 (packet .little pingMsg
      (crc32 [7, 0, 0, 0]) [6, 0, 0, 0])) 0 20 = _ := slice_patch_eq rfl
  have hpay := ((corruption_detected_iff pingMsg [7, 0, 0, 0] _ hsent).mpr
    (.inl (by decide +kernel))
    (zeroMem.write 0 (packet .little pingMsg (crc32 [7, 0, 0, 0]) [6, 0, 0, 0]))
    ⟨0x1000, 0⟩ 20 (by
      rw [sentPing_eq rfl, Mem.write_byte]
      exact hread.symm ▸ burst_byte _ [0, 0, 0] 7 6)).1 .little (by decide) hok
  have hgot : slice (patch zeroMem.byte 0 (packet .little pingMsg
      (crc32 [7, 0, 0, 0]) [6, 0, 0, 0])) (0 + 16) 4 = [6, 0, 0, 0] :=
    slice_payload .little pingMsg _ 0 _ rfl
  have h67 : [6, 0, 0, 0] = ([7, 0, 0, 0] : List UInt8) := hgot.symm.trans hpay
  exact absurd h67 (by decide)

/-- The checksum of a ping numbered 0x6DD90A9D is zero. One flipped bit later it
is a ping numbered 0x6DD90A9C, and both readers take it. -/
theorem zero_crc_corruption_unnoticed :
    let corrupted := packet .little pingMsg 0 [0x9C, 0x0A, 0xD9, 0x6D]
    let m := zeroMem.write 0 corrupted
    Burst 32 (bits (sentPing [0x9D, 0x0A, 0xD9, 0x6D])) (bits (slice m.byte 0 20)) ∧
    ((validate .little pingMsg (some ⟨0x1000, 0⟩) 20 true).run Mem.machine m).1 = .ok ∧
    ((portableDecode .little pingMsg (.scalar 4) (some ⟨0x1000, 0⟩) 20 ⟨0x2000, 100⟩
      true).run Mem.machine m).1 = .ok ∧
    slice m.byte 16 4 ≠ [0x9D, 0x0A, 0xD9, 0x6D] := by
  have hcrc : crc32 [0x9D, 0x0A, 0xD9, 0x6D] = 0 := by decide +kernel
  have hread : slice (patch zeroMem.byte 0
      (packet .little pingMsg 0 [0x9C, 0x0A, 0xD9, 0x6D])) 0 20 = _ :=
    slice_patch_eq rfl
  have hcar : Carries .little pingMsg 0 _ 20 true :=
    (carries_packet (by decide) hread (.inl rfl)).mpr ⟨by decide, rfl, rfl, rfl⟩
  dsimp only
  refine ⟨?_, ?_, ?_, ?_⟩
  · rw [sentPing_eq rfl, hcrc, Mem.write_byte, hread]
    exact burst_byte _ [0x0A, 0xD9, 0x6D] 0x9D 0x9C
  · rw [run_validate]
    exact (validateMem_eq_ok (p := ⟨0x1000, 0⟩)).mpr ⟨hcar, by decide⟩
  · rw [run_portableDecode fun h => by cases h]
    exact decodeMem_eq_ok.mpr hcar
  · have hpay : slice (patch zeroMem.byte 0
        (packet .little pingMsg 0 [0x9C, 0x0A, 0xD9, 0x6D])) (0 + 16) 4 = _ :=
      slice_payload .little pingMsg _ 0 0 rfl
    rw [Mem.write_byte, show (16 : Nat) = 0 + 16 from rfl, hpay]
    decide

end Sinew
