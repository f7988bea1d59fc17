import Sinew.Proofs.PortableSwap
import Sinew.Proofs.WireRoundTrip

/-!
# `portable_encode` and `portable_decode`

Run alone, the encoder leaves a little-endian `packet` and the decoder looks
for one, whatever the host: the header fields go through `to_little_endian`,
and the payload through `portable_swap` where the host needs it. So the two
are described in the same words as the in-place path, and on a little-endian
host they come out as the in-place path, check order and all.
-/

namespace Sinew

open Lib

section Fields

variable (host : Endian)

theorem bytes_toLittleEndian16 (v : UInt16) :
    host.bytes 2 (toLittleEndian16 host v).toNat = Endian.little.bytes 2 v.toNat := by
  cases host with
  | little => rfl
  | big =>
      have hlt : Endian.big.word (Endian.little.bytes 2 v.toNat) < 2 ^ 16 := by
        simpa using Endian.big.word_lt (Endian.little.bytes 2 v.toNat)
      have hback := Endian.big.bytes_word (Endian.little.bytes 2 v.toNat)
      rw [Endian.bytes_length] at hback
      rw [toLittleEndian16, bswap16, UInt16.toNat_ofNat', Nat.mod_eq_of_lt hlt, hback]

theorem bytes_toLittleEndian32 (v : UInt32) :
    host.bytes 4 (toLittleEndian32 host v).toNat = Endian.little.bytes 4 v.toNat := by
  cases host with
  | little => rfl
  | big =>
      have hlt : Endian.big.word (Endian.little.bytes 4 v.toNat) < 2 ^ 32 := by
        simpa using Endian.big.word_lt (Endian.little.bytes 4 v.toNat)
      have hback := Endian.big.bytes_word (Endian.little.bytes 4 v.toNat)
      rw [Endian.bytes_length] at hback
      rw [toLittleEndian32, bswap32, UInt32.toNat_ofNat', Nat.mod_eq_of_lt hlt, hback]

theorem toLittleEndian16_u16At (f : Nat → UInt8) (a : Nat) :
    toLittleEndian16 host (u16At host f a) = u16At .little f a := by
  cases host with
  | little => rfl
  | big =>
      have hbytes : Endian.little.bytes 2 (u16At .big f a).toNat =
          (slice f a 2).reverse := by
        rw [slice_of_u16At .big f a, Endian.bytes, Endian.bytes, List.reverse_reverse]
      rw [toLittleEndian16, bswap16, hbytes, Endian.word_reverse, u16At]

theorem toLittleEndian32_u32At (f : Nat → UInt8) (a : Nat) :
    toLittleEndian32 host (u32At host f a) = u32At .little f a := by
  cases host with
  | little => rfl
  | big =>
      have hbytes : Endian.little.bytes 4 (u32At .big f a).toNat =
          (slice f a 4).reverse := by
        rw [slice_of_u32At .big f a, Endian.bytes, Endian.bytes, List.reverse_reverse]
      rw [toLittleEndian32, bswap32, hbytes, Endian.word_reverse, u32At]

/-- Zero is zero in either order: `hdr->crc != 0` needs no conversion. -/
theorem u32At_eq_zero_iff (f : Nat → UInt8) (a : Nat) :
    u32At host f a = 0 ↔ u32At .little f a = 0 := by
  rw [← toLittleEndian32_u32At host f a]
  constructor
  · intro h
    rw [h]
    cases host <;> rfl
  · intro h
    have hbytes := bytes_toLittleEndian32 host (u32At host f a)
    have hlt : (u32At host f a).toNat < 256 ^ 4 := (u32At host f a).toNat_lt
    have hzero : Endian.little.bytes 4 (u32At host f a).toNat =
        Endian.little.bytes 4 0 := by
      rw [← hbytes, h]
      cases host <;> rfl
    have := congrArg Endian.little.word hzero
    rw [Endian.word_bytes _ hlt, Endian.word_bytes _ (by decide)] at this
    exact UInt32.toNat_inj.mp this

end Fields

/-- What `portable_swap` makes of an object's bytes where the host needs it:
a host's own payload in little-endian order, and the other way round. -/
def Shape.converted (host : Endian) (shape : Shape) (bytes : List UInt8) :
    List UInt8 :=
  match host with
  | .little => bytes
  | .big => slice (shape.swapped .big 0 (object bytes)) 0 bytes.length

@[simp] theorem Shape.converted_length (host : Endian) (shape : Shape)
    (bytes : List UInt8) : (shape.converted host bytes).length = bytes.length := by
  cases host <;> simp [Shape.converted]

/-- A shape that `portable_swap` keeps within the message: on a little-endian
host it is not called at all. -/
def Shape.Fits (host : Endian) (shape : Shape) (T : MsgType) : Prop :=
  host = .big → shape.Laid ∧ shape.size = T.size

section Converted

variable {host : Endian} {T : MsgType} {shape : Shape}

theorem Shape.slice_swapped (hw : shape.Laid) {f : Nat → UInt8} {a : Nat}
    {bytes : List UInt8} (hlen : bytes.length = shape.size)
    (hf : slice f a shape.size = bytes) :
    slice (shape.swapped .big a f) a shape.size = shape.converted .big bytes := by
  rw [Shape.converted, hlen]
  exact (Shape.swapped_local .big shape hw).cells a 0 f _ (by
    rw [hf, object, slice_patch_eq hlen])

theorem run_swap_written (hfits : shape.Fits host T) (p : Ptr) {bytes : List UInt8}
    (hlen : bytes.length = T.size) {α : Type} (k : Code α) (m : Mem) :
    (if host = .big then do
        portableSwap host shape p
        k
      else k).run Mem.machine (m.write p.off bytes) =
      k.run Mem.machine (m.write p.off (shape.converted host bytes)) := by
  cases host with
  | little => rfl
  | big =>
      obtain ⟨hw, hsize⟩ := hfits rfl
      have hcells := Shape.slice_swapped hw (f := patch m.byte p.off bytes)
        (hlen.trans hsize.symm) (slice_patch_eq (hlen.trans hsize.symm))
      have hmem := (Shape.swapped_local .big shape hw).eq_patch p.off
        (patch m.byte p.off bytes)
      rw [hcells, patch_patch _ _ (by simp)] at hmem
      rw [if_pos rfl, Prog.run_bind, run_portableSwap, Mem.write_byte, hmem]
      rfl

end Converted

section Encode

variable {host : Endian} {T : MsgType} {shape : Shape} {p : Ptr} {cap : Nat}

/-- The four header stores that come before the payload: all but the checksum,
which stays what it was. -/
theorem write_header_but_crc (h : Header) (m : Mem) (a : Nat)
    (hcrc : h.crc = u32At .little m.byte (a + Header.crcOff)) :
    (((m.write (a + Header.magicOff) (Endian.little.bytes 4 h.magic.toNat)).write
      (a + Header.msgIdOff) (Endian.little.bytes 2 h.msgId.toNat)).write
      (a + Header.versionOff) (Endian.little.bytes 2 h.version.toNat)).write
      (a + Header.payloadLenOff) (Endian.little.bytes 4 h.payloadLen.toNat) =
    m.write a (h.encode .little) := by
  rw [← write_header .little h m a]
  congr 1
  rw [hcrc, ← slice_of_u32At]
  simp only [Mem.write]
  have hold : ∀ f : Nat → UInt8, slice (patch (patch (patch f
      (a + Header.magicOff) (Endian.little.bytes 4 h.magic.toNat))
      (a + Header.msgIdOff) (Endian.little.bytes 2 h.msgId.toNat))
      (a + Header.versionOff) (Endian.little.bytes 2 h.version.toNat))
      (a + Header.crcOff) 4 = slice f (a + Header.crcOff) 4 := by
    intro f
    rw [slice_patch_of_disjoint (by simp [Header.versionOff, Header.crcOff]),
      slice_patch_of_disjoint (by simp [Header.msgIdOff, Header.crcOff]),
      slice_patch_of_disjoint (by simp [Header.magicOff, Header.crcOff])]
  conv_rhs => rw [← hold m.byte, patch_slice]

theorem run_portableEncode (hfits : shape.Fits host T)
    (hcap : Header.size + T.size ≤ cap) {source : List UInt8}
    (hlen : source.length = T.size) (c : Bool) (m : Mem) :
    (portableEncode host T shape (some p) cap source c).run Mem.machine m =
      (Header.size + T.size, m.write p.off (packet .little T
        (crcField c (shape.converted host source)) (shape.converted host source))) := by
  generalize hcrc : u32At .little m.byte (p.off + Header.crcOff) = old
  have hhdr := write_header_but_crc (T.header old) m p.off hcrc.symm
  simp only [MsgType.header] at hhdr
  have hjoin : (m.write p.off ((T.header old).encode .little)).write (p.off + 16)
      (shape.converted host source) =
        m.write p.off (packet .little T old (shape.converted host source)) := by
    have h := write_append m p.off ((T.header old).encode .little)
      (shape.converted host source)
    rwa [Header.encode_length] at h
  have hslice : slice (patch m.byte p.off
      (packet .little T old (shape.converted host source))) (p.off + 16) T.size =
      shape.converted host source :=
    slice_payload .little T m.byte p.off old (by simp [hlen])
  have hzero : store32 host (p.add Header.crcOff) 0 =
      store32 host (p.add Header.crcOff) (toLittleEndian32 host 0) := by
    cases host <;> rfl
  simp only [portableEncode, if_neg (Nat.not_lt.mpr hcap), Prog.run_bind,
    run_store32, run_store16, run_storeBytes, Ptr.add_off, bytes_toLittleEndian16,
    bytes_toLittleEndian32, hhdr]
  rw [← MsgType.header, ← Ptr.add_off, run_swap_written hfits _ hlen, Ptr.add_off,
    show p.off + Header.size = p.off + 16 from rfl, hjoin, hzero]
  have hcrc' := fun crc => patch_crc .little T m.byte p.off old crc
    (shape.converted host source)
  cases c with
  | false => simpa [crcField, bytes_toLittleEndian32, Mem.write] using hcrc' 0
  | true => simp [crcField, hslice, bytes_toLittleEndian32, Mem.write, hcrc', Header.size]

theorem run_portableEncode_small (hcap : cap < Header.size + T.size)
    (source : List UInt8) (c : Bool) (m : Mem) :
    (portableEncode host T shape (some p) cap source c).run Mem.machine m = (0, m) := by
  simp only [portableEncode, if_pos hcap, Prog.run_pure]

end Encode

section Decode

/-- What `portable_decode` makes of the header at `a`, check by check. -/
def decodeMem (T : MsgType) (a : Nat) (f : Nat → UInt8) (size : Nat)
    (verifyCrc : Bool) : ErrorCode :=
  let hdr := Header.ofMem .little f a
  if size < Header.size + T.size then .bufferTooSmall
  else if hdr.magic ≠ sinewMagic then .badMagic
  else if hdr.msgId ≠ T.id then .idMismatch
  else if hdr.version ≠ T.version then .versionMismatch
  else if hdr.payloadLen.toNat ≠ T.size then .bufferTooSmall
  else if verifyCrc ∧ hdr.crc ≠ 0 ∧
      crc32 (slice f (a + Header.size) T.size) ≠ hdr.crc then
    .checksumMismatch
  else .ok

variable {host : Endian} {T : MsgType} {shape : Shape} {p dest : Ptr} {size : Nat}
  {verifyCrc : Bool}

/-- The decoder's checks, in their other order, admit the same packets. -/
theorem decodeMem_eq_ok {a : Nat} {f : Nat → UInt8} :
    decodeMem T a f size verifyCrc = .ok ↔ Carries .little T a f size verifyCrc := by
  unfold decodeMem
  constructor
  · intro h
    dsimp only at h
    split at h
    · cases h
    · next h1 =>
        split at h
        · cases h
        · next h2 =>
            split at h
            · cases h
            · next h3 =>
                split at h
                · cases h
                · next h4 =>
                    split at h
                    · cases h
                    · next h5 =>
                        split at h
                        · cases h
                        · next h6 =>
                            refine ⟨by omega, by simpa using h2, by simpa using h5,
                              by simpa using h3, by simpa using h4, fun hv hc => ?_⟩
                            by_contra hne
                            exact h6 ⟨hv, hc, hne⟩
  · intro h
    dsimp only
    rw [if_neg (Nat.not_lt.mpr h.fits), if_neg (by simp [h.magic]),
      if_neg (by simp [h.msgId]), if_neg (by simp [h.version]),
      if_neg (by simp [h.payloadLen]), if_neg]
    rintro ⟨hv, hc, hne⟩
    exact hne (h.crc hv hc)

theorem run_portableDecode (hfits : shape.Fits host T) (m : Mem) :
    (portableDecode host T shape (some p) size dest verifyCrc).run Mem.machine m =
      (decodeMem T p.off m.byte size verifyCrc,
        if decodeMem T p.off m.byte size verifyCrc = .ok then
          m.write dest.off
            (shape.converted host (slice m.byte (p.off + Header.size) T.size))
        else m) := by
  have hswap := run_swap_written hfits dest
    (slice_length m.byte (p.off + Header.size) T.size) (pure ErrorCode.ok) m
  unfold portableDecode decodeMem
  dsimp only [Header.ofMem]
  by_cases h1 : size < Header.size + T.size
  · simp [h1]
  by_cases h2 : u32At .little m.byte (p.off + Header.magicOff) = sinewMagic
  swap
  · simp [h1, h2, toLittleEndian32_u32At]
  by_cases h3 : u16At .little m.byte (p.off + Header.msgIdOff) = T.id
  swap
  · simp [h1, h2, h3, toLittleEndian32_u32At, toLittleEndian16_u16At]
  by_cases h4 : u16At .little m.byte (p.off + Header.versionOff) = T.version
  swap
  · simp [h1, h2, h3, h4, toLittleEndian32_u32At, toLittleEndian16_u16At]
  by_cases h5 : (u32At .little m.byte (p.off + Header.payloadLenOff)).toNat = T.size
  swap
  · simp [h1, h2, h3, h4, h5, toLittleEndian32_u32At, toLittleEndian16_u16At]
  cases verifyCrc with
  | false =>
      simp [h1, h2, h3, h4, h5, toLittleEndian32_u32At, toLittleEndian16_u16At, hswap,
        -bind_pure_comp]
  | true =>
      by_cases h6 : u32At .little m.byte (p.off + Header.crcOff) = 0
      · simp [h1, h2, h3, h4, h5, h6, toLittleEndian32_u32At, toLittleEndian16_u16At,
          u32At_eq_zero_iff host, hswap, -bind_pure_comp]
      by_cases h7 : crc32 (slice m.byte (p.off + Header.size) T.size) =
          u32At .little m.byte (p.off + Header.crcOff)
      · simp [h1, h2, h3, h4, h5, h6, h7, toLittleEndian32_u32At,
          toLittleEndian16_u16At, u32At_eq_zero_iff host, hswap, -bind_pure_comp]
      · simp [h1, h2, h3, h4, h5, h6, h7, toLittleEndian32_u32At,
          toLittleEndian16_u16At, u32At_eq_zero_iff host]

end Decode

end Sinew
