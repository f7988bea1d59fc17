import Sinew.Model.Wire

/-!
# What the wire functions do when run alone

Each program of `wire.hpp` is given its meaning on memory once: which bytes it
leaves behind, what it answers, and which bytes it touches at all. Nothing
later unfolds `validate`, `prepareResult` or `finalize` again.

The writing side comes out as one `patch`: after the in-place path the buffer
holds a `packet` and everything around it is untouched. The reading side comes
out as a predicate on the header found in memory, `validateMem`, whose success
is the conjunction `validateMem_eq_ok` spells out.
-/

namespace Sinew

open Lib

theorem MsgType.align_pos (T : MsgType) : 0 < T.align := by
  obtain ⟨k, hk⟩ := T.align_pow
  rw [hk]
  exact Nat.two_pow_pos k

theorem MsgType.align_dvd_sixteen {T : MsgType} (h : T.align ≤ 16) : T.align ∣ 16 := by
  obtain ⟨k, hk⟩ := T.align_pow
  rw [hk] at h ⊢
  have hle : k ≤ 4 := (Nat.pow_le_pow_iff_right (by decide)).mp h
  exact Nat.pow_dvd_pow 2 hle

@[simp] theorem Header.encode_length (host : Endian) (h : Header) :
    (h.encode host).length = 16 := by
  simp [Header.encode]

theorem MsgType.foldl_set_length (xs : List (Nat × UInt8)) (bs : List UInt8) :
    (xs.foldl (fun bs x => bs.set x.1 x.2) bs).length = bs.length := by
  induction xs generalizing bs with
  | nil => rfl
  | cons x xs ih => rw [List.foldl_cons, ih, List.length_set]

@[simp] theorem MsgType.fresh_length (T : MsgType) : T.fresh.length = T.size := by
  rw [MsgType.fresh, MsgType.foldl_set_length, List.length_replicate]

@[simp] theorem packet_length (host : Endian) (T : MsgType) (crc : UInt32)
    (payload : List UInt8) :
    (packet host T crc payload).length = 16 + payload.length := by
  simp [packet]

theorem crcField_eq (c : Bool) (payload : List UInt8) :
    crcField c payload = 0 ∨ crcField c payload = crc32 payload := by
  cases c
  · exact .inl rfl
  · exact .inr rfl

theorem Header.ofMem_encode {host : Endian} {f : Nat → UInt8} {a : Nat}
    {h : Header} (hf : slice f a 16 = h.encode host) :
    Header.ofMem host f a = h := by
  rw [show (16 : Nat) = 4 + 2 + 2 + 4 + 4 by rfl, slice_add, slice_add, slice_add,
    slice_add, Header.encode] at hf
  obtain ⟨hf, hlen⟩ := List.append_inj hf (by simp)
  obtain ⟨hf, hcrc⟩ := List.append_inj hf (by simp)
  obtain ⟨hf, hver⟩ := List.append_inj hf (by simp)
  obtain ⟨hmagic, hid⟩ := List.append_inj hf (by simp)
  simp only [Header.ofMem, magicOff, msgIdOff, versionOff, crcOff, payloadLenOff,
    Nat.add_zero]
  rw [u32At_of_slice host hmagic, u16At_of_slice host hid,
    u16At_of_slice host hver, u32At_of_slice host hcrc,
    u32At_of_slice host hlen]

theorem Header.encode_ofMem (host : Endian) (f : Nat → UInt8) (a : Nat) :
    (Header.ofMem host f a).encode host = slice f a 16 := by
  rw [show (16 : Nat) = 4 + 2 + 2 + 4 + 4 by rfl, slice_add, slice_add, slice_add,
    slice_add, Header.encode]
  simp only [Header.ofMem, magicOff, msgIdOff, versionOff, crcOff, payloadLenOff,
    ← slice_of_u32At, ← slice_of_u16At, Nat.add_zero]

theorem Header.ofMem_congr {host : Endian} {f g : Nat → UInt8} {a b : Nat}
    (h : slice f a 16 = slice g b 16) :
    Header.ofMem host f a = Header.ofMem host g b :=
  Header.ofMem_encode (h.trans (Header.encode_ofMem host g b).symm)

theorem packet_parts {host : Endian} {T : MsgType} {f : Nat → UInt8} {a : Nat}
    {crc : UInt32} {payload : List UInt8}
    (h : slice f a (Header.size + T.size) = packet host T crc payload) :
    Header.ofMem host f a = T.header crc ∧
      slice f (a + Header.size) T.size = payload := by
  rw [slice_add, packet] at h
  obtain ⟨hhdr, hpay⟩ := List.append_inj h (by simp [Header.size])
  exact ⟨Header.ofMem_encode hhdr, hpay⟩

/-! ## Writing -/

section Writing

variable (host : Endian) (T : MsgType)

theorem run_construct (m : Mem) (p : Ptr) :
    ∀ (xs : List (Nat × UInt8)) (bs : List UInt8),
      (∀ x ∈ xs, x.1 < bs.length) →
      (construct p xs).run Mem.machine (m.write p.off bs) =
        ((), m.write p.off (xs.foldl (fun bs x => bs.set x.1 x.2) bs)) := by
  intro xs
  induction xs with
  | nil => intro bs _; rfl
  | cons x xs ih =>
      intro bs h
      have hx := h x (by simp)
      have hset : { m.write p.off bs with
          byte := Function.update (m.write p.off bs).byte (p.off + x.1) x.2 } =
          m.write p.off (bs.set x.1 x.2) := by
        rw [Mem.write_byte, update_patch m.byte p.off hx]
        rfl
      rw [construct, Prog.run_bind, run_store, Ptr.add_off, hset,
        ih _ fun y hy => ?_, List.foldl_cons]
      rw [List.length_set]
      exact h y (by simp [hy])

/-- The five header stores are one run of sixteen bytes. -/
theorem write_header (h : Header) (m : Mem) (a : Nat) :
    ((((m.write (a + Header.magicOff) (host.bytes 4 h.magic.toNat)).write
      (a + Header.msgIdOff) (host.bytes 2 h.msgId.toNat)).write
      (a + Header.versionOff) (host.bytes 2 h.version.toNat)).write
      (a + Header.crcOff) (host.bytes 4 h.crc.toNat)).write
      (a + Header.payloadLenOff) (host.bytes 4 h.payloadLen.toNat) =
    m.write a (h.encode host) := by
  simp only [Mem.write, Header.encode, patch_append, List.length_append,
    Endian.bytes_length, Header.magicOff, Header.msgIdOff, Header.versionOff,
    Header.crcOff, Header.payloadLenOff, Nat.add_zero]

theorem write_append (m : Mem) (a : Nat) (xs ys : List UInt8) :
    (m.write a xs).write (a + xs.length) ys = m.write a (xs ++ ys) := by
  simp only [Mem.write, patch_append]

theorem run_prepareResult_ok {p : Ptr} {capacity : Nat}
    (hcap : Header.size + T.size ≤ capacity)
    (hal : (p.addr + Header.size) % T.align = 0) (m : Mem) :
    (prepareResult host T (some p) capacity).run Mem.machine m =
      (⟨some (p.add Header.size), .ok⟩,
        m.write p.off (packet host T 0 T.fresh)) := by
  have hctor := run_construct (m.write p.off ((T.header 0).encode host))
    (p.add Header.size) T.ctor (List.replicate T.size 0) (by simpa using T.ctor_lt)
  have hhdr := write_header host (T.header 0) m p.off
  simp only [MsgType.header] at hhdr
  rw [Ptr.add_off] at hctor
  simp only [prepareResult, if_neg (Nat.not_lt.mpr hcap), hal, ne_eq,
    not_true_eq_false, if_false, Prog.run_bind, run_store32, run_store16,
    run_storeBytes, Prog.run_pure, Ptr.add_off, Ptr.addr_add, hhdr]
  rw [← MsgType.header, hctor]
  have hjoin := write_append m p.off ((T.header 0).encode host) T.fresh
  rw [Header.encode_length] at hjoin
  exact congrArg (Prod.mk _) hjoin

theorem run_prepare_ok {p : Ptr} {capacity : Nat}
    (hcap : Header.size + T.size ≤ capacity)
    (hal : (p.addr + Header.size) % T.align = 0) (m : Mem) :
    (prepare host T (some p) capacity).run Mem.machine m =
      (some (p.add Header.size), m.write p.off (packet host T 0 T.fresh)) := by
  rw [prepare, Prog.run_bind, run_prepareResult_ok host T hcap hal]
  rfl

theorem run_prepareResult_small {p : Ptr} {capacity : Nat}
    (hcap : capacity < Header.size + T.size) (m : Mem) :
    (prepareResult host T (some p) capacity).run Mem.machine m =
      (⟨none, .bufferTooSmall⟩, m) := by
  simp only [prepareResult, if_pos hcap, Prog.run_pure]

theorem run_prepareResult_misaligned {p : Ptr} {capacity : Nat}
    (hcap : Header.size + T.size ≤ capacity)
    (hal : (p.addr + Header.size) % T.align ≠ 0) (m : Mem) :
    (prepareResult host T (some p) capacity).run Mem.machine m =
      (⟨none, .misaligned⟩, m) := by
  simp only [prepareResult, if_neg (Nat.not_lt.mpr hcap), Ptr.addr_add, if_pos hal,
    Prog.run_pure]

theorem run_finalize (p : Ptr) (computeCrc : Bool) (m : Mem) :
    (finalize host T (some p) computeCrc).run Mem.machine m =
      (Header.size + T.size, m.write (p.off - Header.size + Header.crcOff)
        (host.bytes 4
          (crcField computeCrc (slice m.byte p.off T.size)).toNat)) := by
  cases computeCrc <;> simp [finalize, crcField]

/-- `finalize` on a prepared packet rewrites its checksum field. -/
theorem patch_crc (f : Nat → UInt8) (a : Nat) (crc crc' : UInt32)
    (payload : List UInt8) :
    patch (patch f a (packet host T crc payload)) (a + Header.crcOff)
        (host.bytes 4 crc'.toNat) =
      patch f a (packet host T crc' payload) := by
  have := patch_middle f a
    (host.bytes 4 sinewMagic.toNat ++ host.bytes 2 T.id.toNat ++
      host.bytes 2 T.version.toNat)
    (host.bytes 4 crc.toNat) (host.bytes 4 crc'.toNat)
    (host.bytes 4 (UInt32.ofNat T.size).toNat ++ payload) (by simp)
  simpa [packet, Header.encode, MsgType.header, Header.crcOff,
    List.append_assoc] using this

theorem patch_payload (f : Nat → UInt8) (a : Nat) (crc : UInt32)
    {old payload : List UInt8} (h : old.length = payload.length) :
    patch (patch f a (packet host T crc old)) (a + Header.size) payload =
      patch f a (packet host T crc payload) := by
  have hsize : a + Header.size = a + ((T.header crc).encode host).length := by
    rw [Header.encode_length]; rfl
  rw [packet, packet, patch_append, patch_append, hsize, patch_patch _ _ h]

theorem slice_payload (f : Nat → UInt8) (a : Nat) (crc : UInt32)
    {payload : List UInt8} {n : Nat} (h : payload.length = n) :
    slice (patch f a (packet host T crc payload)) (a + 16) n = payload := by
  rw [packet, patch_append, Header.encode_length, slice_patch_eq h]

theorem slice_header (f : Nat → UInt8) (a : Nat) (crc : UInt32)
    (payload : List UInt8) :
    slice (patch f a (packet host T crc payload)) a 16 =
      (T.header crc).encode host := by
  rw [packet, patch_append, Header.encode_length,
    slice_patch_of_disjoint (by omega), slice_patch_eq (by simp)]

/-! The same, of a packet that is already there. -/

theorem slice_write_crc {f : Nat → UInt8} {a : Nat} {crc : UInt32}
    {payload : List UInt8}
    (h : slice f a (Header.size + T.size) = packet host T crc payload) (crc' : UInt32) :
    slice (patch f (a + Header.crcOff) (host.bytes 4 crc'.toNat)) a
      (Header.size + T.size) = packet host T crc' payload := by
  have hlen := congrArg List.length h
  rw [slice_length, packet_length] at hlen
  conv_lhs => rw [← patch_slice f a (Header.size + T.size), h, patch_crc]
  exact slice_patch_eq (by rw [packet_length]; exact hlen.symm)

theorem slice_write_payload {f : Nat → UInt8} {a : Nat} {crc : UInt32}
    {old payload : List UInt8}
    (h : slice f a (Header.size + T.size) = packet host T crc old)
    (hlen : old.length = payload.length) :
    slice (patch f (a + Header.size) payload) a (Header.size + T.size) =
      packet host T crc payload := by
  have hsize := congrArg List.length h
  rw [slice_length, packet_length, hlen] at hsize
  conv_lhs => rw [← patch_slice f a (Header.size + T.size), h,
    patch_payload host T f a crc hlen]
  exact slice_patch_eq (by rw [packet_length]; exact hsize.symm)

theorem slice_write_byte {f : Nat → UInt8} {a : Nat} {crc : UInt32}
    {payload : List UInt8}
    (h : slice f a (Header.size + T.size) = packet host T crc payload) {i : Nat}
    (hi : i < T.size) (b : UInt8) :
    slice (Function.update f (a + Header.size + i) b) a (Header.size + T.size) =
      packet host T crc (payload.set i b) := by
  have hlen := congrArg List.length h
  rw [slice_length, packet_length] at hlen
  have hset : (packet host T crc payload).set (Header.size + i) b =
      packet host T crc (payload.set i b) := by
    rw [packet, packet, List.set_append_right _ _ (by simp [Header.size])]
    simp [Header.size]
  have hlt : Header.size + i < (packet host T crc payload).length := by
    rw [packet_length, ← hlen]
    omega
  have hupd := update_patch f a hlt b
  rw [hset, ← h, patch_slice, ← Nat.add_assoc] at hupd
  rw [hupd]
  exact slice_patch_eq (by simp [hlen])

variable {host T}

theorem run_writeInPlace {p : Ptr} {capacity : Nat}
    (hcap : Header.size + T.size ≤ capacity)
    (hal : (p.addr + Header.size) % T.align = 0) {payload : List UInt8}
    (hlen : payload.length = T.size) (computeCrc : Bool) (m : Mem) :
    (writeInPlace host T (some p) capacity payload computeCrc).run
        Mem.machine m =
      (Header.size + T.size, m.write p.off
        (packet host T (crcField computeCrc payload) payload)) := by
  have hpay : (m.write p.off (packet host T 0 T.fresh)).write (p.off + Header.size)
      payload = m.write p.off (packet host T 0 payload) := by
    simp only [Mem.write, patch_payload host T m.byte p.off 0
      (show T.fresh.length = payload.length by simp [hlen])]
  have hslice : slice (patch m.byte p.off (packet host T 0 payload))
      (p.off + Header.size) T.size = payload :=
    slice_payload host T m.byte p.off 0 hlen
  simp only [writeInPlace, prepare, Prog.run_bind, Prog.run_pure,
    run_prepareResult_ok host T hcap hal, run_storeBytes, run_finalize,
    Ptr.add_off, hpay, Mem.write_byte, hslice, Nat.add_sub_cancel]
  simp only [Mem.write, patch_crc]

/-- The in-place path fails where `prepareResult` does, and then leaves the
buffer alone. -/
theorem run_writeInPlace_fail {buffer : Option Ptr} {capacity : Nat} {m : Mem}
    {e : ErrorCode} (h : (prepareResult host T buffer capacity).run Mem.machine m =
      (⟨none, e⟩, m)) (payload : List UInt8) (computeCrc : Bool) :
    (writeInPlace host T buffer capacity payload computeCrc).run Mem.machine m =
      (0, m) := by
  simp only [writeInPlace, prepare, Prog.run_bind, Prog.run_pure, h]

end Writing

/-! ## Reading -/

section Reading

/-- What `validate` makes of the header at `p`, check by check. -/
def validateMem (host : Endian) (T : MsgType) (p : Ptr) (f : Nat → UInt8)
    (size : Nat) (verifyCrc : Bool) : ErrorCode :=
  let hdr := Header.ofMem host f p.off
  if size < Header.size + T.size then .bufferTooSmall
  else if (p.addr + Header.size) % T.align ≠ 0 then .misaligned
  else if hdr.magic ≠ sinewMagic then .badMagic
  else if hdr.payloadLen.toNat ≠ T.size then .bufferTooSmall
  else if hdr.msgId ≠ T.id then .idMismatch
  else if hdr.version ≠ T.version then .versionMismatch
  else if verifyCrc ∧ hdr.crc ≠ 0 ∧
      crc32 (slice f (p.off + Header.size) T.size) ≠ hdr.crc then
    .checksumMismatch
  else .ok

variable {host : Endian} {T : MsgType} {p : Ptr} {size : Nat} {verifyCrc : Bool}

@[simp] theorem run_validate_none (m : Mem) :
    (validate host T none size verifyCrc).run Mem.machine m =
      (.bufferTooSmall, m) := rfl

@[simp] theorem run_validate (m : Mem) :
    (validate host T (some p) size verifyCrc).run Mem.machine m =
      (validateMem host T p m.byte size verifyCrc, m) := by
  unfold validate validateMem
  by_cases h1 : size < Header.size + T.size
  · simp [h1]
  by_cases h2 : (p.addr + Header.size) % T.align = 0
  swap
  · simp [h1, h2]
  by_cases h3 : u32At host m.byte (p.off + Header.magicOff) = sinewMagic
  swap
  · simp [h1, h2, h3, Header.ofMem]
  by_cases h4 : (u32At host m.byte (p.off + Header.payloadLenOff)).toNat = T.size
  swap
  · simp [h1, h2, h3, h4, Header.ofMem]
  by_cases h5 : u16At host m.byte (p.off + Header.msgIdOff) = T.id
  swap
  · simp [h1, h2, h3, h4, h5, Header.ofMem]
  by_cases h6 : u16At host m.byte (p.off + Header.versionOff) = T.version
  swap
  · simp [h1, h2, h3, h4, h5, h6, Header.ofMem]
  cases verifyCrc with
  | false => simp [h1, h2, h3, h4, h5, h6, Header.ofMem]
  | true =>
      by_cases h7 : u32At host m.byte (p.off + Header.crcOff) = 0
      · simp [h1, h2, h3, h4, h5, h6, h7, Header.ofMem]
      by_cases h8 : crc32 (slice m.byte (p.off + Header.size) T.size) =
          u32At host m.byte (p.off + Header.crcOff)
      · simp [h1, h2, h3, h4, h5, h6, h7, h8, Header.ofMem]
      · simp [h1, h2, h3, h4, h5, h6, h7, h8, Header.ofMem]

/-- The memory at `a` carries a packet of type `T`: the checks that do not
look at an address. -/
structure Carries (host : Endian) (T : MsgType) (a : Nat) (f : Nat → UInt8)
    (size : Nat) (verifyCrc : Bool) : Prop where
  fits : Header.size + T.size ≤ size
  magic : (Header.ofMem host f a).magic = sinewMagic
  payloadLen : (Header.ofMem host f a).payloadLen.toNat = T.size
  msgId : (Header.ofMem host f a).msgId = T.id
  version : (Header.ofMem host f a).version = T.version
  crc : verifyCrc = true → (Header.ofMem host f a).crc ≠ 0 →
    crc32 (slice f (a + Header.size) T.size) = (Header.ofMem host f a).crc

theorem validateMem_eq_ok {f : Nat → UInt8} :
    validateMem host T p f size verifyCrc = .ok ↔
      Carries host T p.off f size verifyCrc ∧
        (p.addr + Header.size) % T.align = 0 := by
  unfold validateMem
  constructor
  · intro h
    dsimp only at h
    split at h
    · cases h
    · next h1 =>
        split at h
        · cases h
        · next h2 =>
            split at h
            · cases h
            · next h3 =>
                split at h
                · cases h
                · next h4 =>
                    split at h
                    · cases h
                    · next h5 =>
                        split at h
                        · cases h
                        · next h6 =>
                            split at h
                            · cases h
                            · next h7 =>
                                refine ⟨⟨by omega, by simpa using h3,
                                  by simpa using h4, by simpa using h5,
                                  by simpa using h6, fun hv hc => ?_⟩,
                                  by simpa using h2⟩
                                by_contra hne
                                exact h7 ⟨hv, hc, hne⟩
  · rintro ⟨h, hal⟩
    dsimp only
    rw [if_neg (Nat.not_lt.mpr h.fits), if_neg (by simp [hal]),
      if_neg (by simp [h.magic]), if_neg (by simp [h.payloadLen]),
      if_neg (by simp [h.msgId]), if_neg (by simp [h.version]), if_neg]
    rintro ⟨hv, hc, hne⟩
    exact hne (h.crc hv hc)

theorem run_view (m : Mem) :
    (view host T (some p) size verifyCrc).run Mem.machine m =
      (if validateMem host T p m.byte size verifyCrc = .ok then
        some (p.add Header.size) else none, m) := by
  simp only [view, Prog.run_bind, run_validate, ne_eq]
  by_cases h : validateMem host T p m.byte size verifyCrc = .ok
  · rw [if_neg (not_not.mpr h), if_pos h]; rfl
  · rw [if_pos h, if_neg h, Prog.run_pure]

theorem run_viewResult (m : Mem) :
    (viewResult host T (some p) size verifyCrc).run Mem.machine m =
      (if validateMem host T p m.byte size verifyCrc = .ok then
          ⟨some (p.add Header.size), .ok⟩
        else ⟨none, validateMem host T p m.byte size verifyCrc⟩, m) := by
  simp only [viewResult, Prog.run_bind, run_validate, ne_eq]
  by_cases h : validateMem host T p m.byte size verifyCrc = .ok
  · rw [if_neg (not_not.mpr h), if_pos h]; rfl
  · rw [if_pos h, if_neg h, Prog.run_pure]

/-- Whether a packet is carried depends on its own bytes only. -/
theorem Carries.congr {f g : Nat → UInt8} {a b : Nat}
    (h : slice f a (16 + T.size) = slice g b (16 + T.size))
    (hc : Carries host T a f size verifyCrc) :
    Carries host T b g size verifyCrc := by
  rw [slice_add, slice_add] at h
  obtain ⟨hhdr, hpay⟩ := List.append_inj h (by simp)
  have hof : Header.ofMem host g b = Header.ofMem host f a :=
    (Header.ofMem_congr hhdr).symm
  have hpay' : slice g (b + Header.size) T.size =
      slice f (a + Header.size) T.size := hpay.symm
  exact ⟨hc.fits, hof ▸ hc.magic, hof ▸ hc.payloadLen, hof ▸ hc.msgId,
    hof ▸ hc.version, hof ▸ hpay' ▸ hc.crc⟩

/-- A reader in the wrong byte order does not get past the magic number. -/
theorem magic_order {A B : Endian} {f : Nat → UInt8} {a : Nat}
    (h : slice f a 4 = A.bytes 4 sinewMagic.toNat) (hB : u32At B f a = sinewMagic) :
    B = A := by
  have hbytes := slice_of_u32At B f a
  rw [h, hB] at hbytes
  revert hbytes
  cases A <;> cases B <;> decide

/-- A finished packet of one type meets the checks of another exactly when the
two agree on what the header says. -/
theorem carries_packet {A B : MsgType} {f : Nat → UInt8} {a : Nat} {crc : UInt32}
    {payload : List UInt8} (hA : A.size < 2 ^ 32)
    (hf : slice f a (16 + A.size) = packet host A crc payload)
    (hcrc : crc = 0 ∨ crc = crc32 payload) :
    Carries host B a f size verifyCrc ↔
      Header.size + B.size ≤ size ∧ B.size = A.size ∧ B.id = A.id ∧
        B.version = A.version := by
  obtain ⟨hof, hpay⟩ := packet_parts hf
  have hplen : (A.header crc).payloadLen.toNat = A.size := by
    rw [MsgType.header, UInt32.toNat_ofNat', Nat.mod_eq_of_lt hA]
  constructor
  · rintro ⟨h1, h2, h3, h4, h5, h6⟩
    rw [hof] at h3 h4 h5
    exact ⟨h1, h3.symm.trans hplen, h4.symm, h5.symm⟩
  · rintro ⟨h1, h2, h3, h4⟩
    refine ⟨h1, by rw [hof]; rfl, ?_, by rw [hof, h3]; rfl,
      by rw [hof, h4]; rfl, ?_⟩
    · rw [hof, h2, hplen]
    · intro _ hne
      rw [hof] at hne ⊢
      rw [h2, hpay]
      rcases hcrc with h | h
      · exact absurd h hne
      · exact h.symm

end Reading

/-! ## Footprints

No call touches a byte outside the packet it was handed, whatever the buffer
holds and however the checks come out. -/

section Footprints

variable {host : Endian} {T : MsgType} {p : Ptr} {m : Mem}

theorem validate_loadsIn (size : Nat) (verifyCrc : Bool) :
    (validate host T (some p) size verifyCrc).Along Mem.machine
      (LoadsIn p.off (p.off + (Header.size + T.size))) m := by
  have h32 : ∀ k, k + 4 ≤ Header.size → (load32 host (p.add k)).Along Mem.machine
      (LoadsIn p.off (p.off + (Header.size + T.size))) m := fun k hk =>
    load32_loadsIn (by simp) (by simp; omega)
  have h16 : ∀ k, k + 2 ≤ Header.size → (load16 host (p.add k)).Along Mem.machine
      (LoadsIn p.off (p.off + (Header.size + T.size))) m := fun k hk =>
    load16_loadsIn (by simp) (by simp; omega)
  have hcrc : (crc32At (p.add Header.size) T.size).Along Mem.machine
      (LoadsIn p.off (p.off + (Header.size + T.size))) m :=
    crc32At_loadsIn (by simp) (by simp; omega)
  simp [validate, Prog.along_ite, hcrc, h32 Header.magicOff (by decide),
    h32 Header.payloadLenOff (by decide), h32 Header.crcOff (by decide),
    h16 Header.msgIdOff (by decide), h16 Header.versionOff (by decide)]

theorem view_loadsIn (size : Nat) (verifyCrc : Bool) :
    (view host T (some p) size verifyCrc).Along Mem.machine
      (LoadsIn p.off (p.off + (Header.size + T.size))) m := by
  simp [view, Prog.along_ite, validate_loadsIn]

theorem construct_bytesIn {lo hi : Nat} {xs : List (Nat × UInt8)}
    (h : ∀ x ∈ xs, lo ≤ p.off + x.1 ∧ p.off + x.1 < hi) :
    (construct p xs).Along Mem.machine (BytesIn lo hi) m := by
  induction xs generalizing m with
  | nil => exact trivial
  | cons x xs ih =>
      simp only [construct, Prog.along_bind]
      exact ⟨⟨h x (by simp), trivial⟩, ih fun y hy => h y (by simp [hy])⟩

theorem prepareResult_bytesIn (capacity : Nat) :
    (prepareResult host T (some p) capacity).Along Mem.machine
      (BytesIn p.off (p.off + (Header.size + T.size))) m := by
  have h32 : ∀ k v (m : Mem), k + 4 ≤ Header.size →
      (store32 host (p.add k) v).Along Mem.machine
        (BytesIn p.off (p.off + (Header.size + T.size))) m := fun k v m hk =>
    store32_bytesIn (by simp) (by simp; omega)
  have h16 : ∀ k v (m : Mem), k + 2 ≤ Header.size →
      (store16 host (p.add k) v).Along Mem.machine
        (BytesIn p.off (p.off + (Header.size + T.size))) m := fun k v m hk =>
    store16_bytesIn (by simp) (by simp; omega)
  have hset : ∀ m : Mem, (storeBytes (p.add Header.size)
      (List.replicate T.size 0)).Along Mem.machine
        (BytesIn p.off (p.off + (Header.size + T.size))) m := fun m =>
    storeBytes_bytesIn (by simp) (by simp; omega)
  have hctor : ∀ m : Mem, (construct (p.add Header.size) T.ctor).Along Mem.machine
      (BytesIn p.off (p.off + (Header.size + T.size))) m := fun m =>
    construct_bytesIn fun x hx => by
      have := T.ctor_lt x hx
      simp only [Ptr.add_off]
      omega
  simp [prepareResult, Prog.along_ite, hset, hctor,
    h32 Header.magicOff _ _ (by decide), h16 Header.msgIdOff _ _ (by decide),
    h16 Header.versionOff _ _ (by decide), h32 Header.crcOff _ _ (by decide),
    h32 Header.payloadLenOff _ _ (by decide)]

theorem prepare_bytesIn (capacity : Nat) :
    (prepare host T (some p) capacity).Along Mem.machine
      (BytesIn p.off (p.off + (Header.size + T.size))) m := by
  simp [prepare, prepareResult_bytesIn]

theorem crc32At_bytesIn {n lo hi : Nat} (hlo : lo ≤ p.off) (hhi : p.off + n ≤ hi) :
    (crc32At p n).Along Mem.machine (BytesIn lo hi) m := by
  simp only [crc32At, Prog.along_bind, Prog.along_pure, and_true]
  exact loadBytes_bytesIn hlo hhi

theorem finalize_bytesIn (computeCrc : Bool) :
    (finalize host T (some (p.add Header.size)) computeCrc).Along Mem.machine
      (BytesIn p.off (p.off + (Header.size + T.size))) m := by
  have hcrc : (crc32At (p.add Header.size) T.size).Along Mem.machine
      (BytesIn p.off (p.off + (Header.size + T.size))) m :=
    crc32At_bytesIn (by simp) (by simp; omega)
  have hstore : ∀ v, (store32 host (p.add Header.crcOff) v).Along Mem.machine
      (BytesIn p.off (p.off + (Header.size + T.size))) m := fun v =>
    store32_bytesIn (by simp) (by simp [Header.crcOff, Header.size]; omega)
  cases computeCrc <;> simp [finalize, hcrc, hstore]

end Footprints

end Sinew
