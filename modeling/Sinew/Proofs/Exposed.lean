import Sinew.Proofs.Confined
import Sinew.Proofs.Packet

/-!
# What the checksums of the bus trust

`peek_packet` checks the length in the header of a packet, and then loads it again
for the checksum; `commit_write` checksums as many bytes as the header says and
checks nothing. So both go by a number that the other side of the segment may have
changed since. The number has 32 bits and the ring an end: where the slot is nearer
to the end than the largest length, one store of the other side is enough to have the
call load behind the segment, and where it is not, no store is.
-/

namespace Sinew

open Lib

variable {host : Endian} {ok : Ev → Prop} {p : Ptr} {n : Nat}

/-- What the other side does: it stores a length into the header at `slot`. -/
def Mem.withLength (m : Mem) (host : Endian) (slot : Ptr) (len : UInt32) : Mem :=
  m.write (slot.off + Header.payloadLenOff) (host.bytes 4 len.toNat)

theorem Mem.u32At_withLength (m : Mem) (host : Endian) (slot : Ptr) (len : UInt32) :
    u32At host (m.withLength host slot len).byte (slot.off + Header.payloadLenOff) = len :=
  u32At_of_slice host (slice_patch_eq (Endian.bytes_length ..))

theorem Readable.of_along {m : Mem}
    (h : (loadBytes p n).Along Mem.machine (fun _ => ok) m) : Readable ok p n := by
  induction n generalizing p with
  | zero => exact fun i hi => absurd hi (Nat.not_lt_zero i)
  | succ n ih =>
      obtain ⟨hload, hrest⟩ := (Prog.along_bind ..).mp h
      have htail := ih ((Prog.along_bind ..).mp hrest).1
      intro i hi
      cases i with
      | zero => exact (Prog.along_event ..).mp hload
      | succ i =>
          have hi' := htail i (by omega)
          rwa [Ptr.add_add, Nat.add_comm] at hi'

namespace Ring

variable {R : Ring}

def LoadsOutside (R : Ring) : Ev → Prop
  | .load p => ¬ R.InSlots p
  | _ => False

theorem MayProduce.inside (e : Ev) (h : R.MayProduce e) : ¬ R.LoadsOutside e := by
  cases e with
  | load p => exact not_not.mpr h
  | _ => exact id

theorem MayConsume.inside (e : Ev) (h : R.MayConsume e) : ¬ R.LoadsOutside e := by
  cases e with
  | load p => exact not_not.mpr h
  | _ => exact id

theorem inSlots_slot_iff (hpow : ∃ j, R.capacity = 2 ^ j) (cursor i : Nat) :
    R.InSlots ((R.slot cursor).add i) ↔ i < (R.capacity - cursor % R.capacity) * R.stride := by
  obtain ⟨j, hj⟩ := hpow
  have hmask : cursor &&& (R.capacity - 1) = cursor % R.capacity := by
    rw [hj, Nat.and_two_pow_sub_one_eq_mod]
  have hlt : cursor % R.capacity < R.capacity :=
    Nat.mod_lt _ (by rw [hj]; exact Nat.two_pow_pos j)
  have hend : R.capacity * R.stride =
      cursor % R.capacity * R.stride + (R.capacity - cursor % R.capacity) * R.stride := by
    rw [← Nat.add_mul, Nat.add_sub_cancel' (Nat.le_of_lt hlt)]
  simp only [InSlots, slot, hmask, Ptr.add_base, Ptr.add_off, true_and]
  omega

end Ring

namespace IpcEnvelopeRingBuffer

variable {R : Ring} {m : Mem}

theorem storeCrc_confined (hread : Readable ok p Header.size)
    (hpayload : Readable ok (p.add Header.size) (2 ^ 32 - 1))
    (hwrite : Writable ok p Header.size) :
    (storeCrc host p true).Confined ok (2 ^ 32 + 11) fun _ => True := by
  have hlen : Readable ok (p.add Header.payloadLenOff) 4 := hread.part (by decide)
  have hcrc : Writable ok (p.add Header.crcOff) 4 := hwrite.part (by decide)
  rw [storeCrc, if_pos rfl]
  refine (load32_confined hlen).bind (n := 2 ^ 32 + 7) fun len _ => ?_
  refine .ite (fun _ => ?_) fun _ => (store32_confined hcrc).mono (by omega) fun _ => id
  refine (load32_confined hlen).bind (n := 2 ^ 32 + 3) fun len _ => ?_
  have hle : len.toNat ≤ 2 ^ 32 - 1 := Nat.le_pred_of_lt len.toNat_lt
  refine ((crc32At_confined fun i hi => hpayload i (by omega)).mono hle fun _ => id).bind
    (n := 4) fun crc _ => store32_confined hcrc

theorem packetAt_verified_confined {slotSize : Nat} (h : Readable ok p slotSize)
    (hpayload : Readable ok (p.add Header.size) (2 ^ 32 - 1)) :
    (packetAt host p slotSize true).Confined ok (28 + (2 ^ 32 - 1)) fun _ => True := by
  refine (inspectPacket_confined {} h).bind fun r hr => ?_
  refine .ite (fun _ => .pure trivial) fun hok => ?_
  obtain ⟨hview, hlen⟩ := hr (not_not.mp hok)
  refine .ite (fun _ => ?_) fun _ => .pure trivial
  rw [crc32OfView, hview]
  have hcrc : (crc32At (p.add Header.size) r.2.payloadLen).Confined ok (2 ^ 32 - 1)
      fun _ => True :=
    (crc32At_confined fun i hi => hpayload i (by omega)).mono (by omega) fun _ => id
  exact hcrc.bind (n := 0) fun computed _ =>
    .ite (fun _ => .pure trivial) fun _ => .pure trivial

/-- With a checksum to verify, a packet is loaded from as far as its length says. -/
theorem packetAt_misled {slotSize : Nat} {bad : Ev → Prop}
    (h : Sound host p m.byte slotSize false) (hcrc : (Header.ofMem host m.byte p.off).crc ≠ 0)
    {len : UInt32} {i : Nat} (hi : i < len.toNat) (hbad : bad (.load ((p.add Header.size).add i))) :
    (packetAt host p slotSize true).Misled Mem.machine m (m.withLength host p len) bad := by
  have hsize : ¬ slotSize < Header.size :=
    Nat.not_lt.mpr (Nat.le_trans (Nat.le_add_right _ _) h.fits)
  have hmagic : u32At host m.byte (p.add Header.magicOff).off = sinewMagic := h.magic
  have hfits : ¬ (u32At host m.byte (p.add Header.payloadLenOff).off).toNat >
      slotSize - Header.size := Nat.not_lt.mpr (Nat.le_sub_of_add_le' h.fits)
  unfold packetAt inspectPacket
  dsimp only
  rw [if_neg hsize, bind_assoc]
  refine .later (run_load32 ..) ?_
  rw [if_neg (not_not.mpr hmagic), bind_assoc]
  refine .later (run_load32 ..) ?_
  rw [if_neg hfits, bind_assoc]
  refine .later (run_loadHeader ..) ?_
  -- now the length is changed, and loaded once more
  rw [bind_assoc]
  refine .at_once fun hall => ?_
  have hpacket := ((Prog.along_bind ..).mp hall).2
  rw [run_load32, Ptr.add_off, m.u32At_withLength] at hpacket
  dsimp only at hpacket
  rw [pure_bind, if_neg (not_not.mpr rfl), if_pos ⟨rfl, hcrc⟩] at hpacket
  have hpayload : (crc32At (p.add Header.size) len.toNat).Along Mem.machine
      (fun _ e => ¬ bad e) (m.withLength host p len) := ((Prog.along_bind ..).mp hpacket).1
  exact Readable.of_along ((Prog.along_bind ..).mp hpayload).1 i hi hbad

/-- With a checksum to compute, a payload is loaded as far as its length says. -/
theorem storeCrc_misled {bad : Ev → Prop} {len : UInt32} {i : Nat} (hi : i < len.toNat)
    (hbad : bad (.load ((p.add Header.size).add i))) :
    (storeCrc host p true).Misled Mem.machine m (m.withLength host p len) bad := by
  have hpos : len > 0 := UInt32.lt_iff_toNat_lt.mpr (Nat.zero_lt_of_lt hi)
  rw [storeCrc, if_pos rfl]
  refine .at_once fun hall => ?_
  have hcrc := ((Prog.along_bind ..).mp hall).2
  rw [run_load32, Ptr.add_off, m.u32At_withLength] at hcrc
  dsimp only at hcrc
  rw [if_pos hpos] at hcrc
  have hpayload := ((Prog.along_bind ..).mp hcrc).2
  rw [run_load32, Ptr.add_off, m.u32At_withLength] at hpayload
  have hload := ((Prog.along_bind ..).mp ((Prog.along_bind ..).mp hpayload).1).1
  exact Readable.of_along hload i hi hbad

/-- The call can be led out of the ring by a length stored into the slot of a cursor
if and only if the ring ends within the largest length from there. -/
theorem exposed_iff {α : Type} {call : Code α} {cursor : Nat}
    (hpow : ∃ j, R.capacity = 2 ^ j)
    (hled : ∀ len i, i < len.toNat →
      R.LoadsOutside (.load (((R.slot cursor).add Header.size).add i)) →
      call.Misled Mem.machine m (m.withLength host (R.slot cursor) len) R.LoadsOutside)
    (hkept : R.Holds ((R.slot cursor).add Header.size) (2 ^ 32 - 1) → ∀ len,
      ¬ call.Misled Mem.machine m (m.withLength host (R.slot cursor) len) R.LoadsOutside) :
    (∃ len, call.Misled Mem.machine m (m.withLength host (R.slot cursor) len) R.LoadsOutside) ↔
      (R.capacity - cursor % R.capacity) * R.stride < 2 ^ 32 + 15 := by
  have h16 : Header.size = 16 := rfl
  constructor
  · intro ⟨len, h⟩
    by_contra hfar
    refine hkept (fun i hi => ?_) len h
    rw [Ptr.add_add, Ring.inSlots_slot_iff hpow]
    omega
  · intro hnear
    refine ⟨0xFFFFFFFF, hled _ (2 ^ 32 - 2) (by decide) ?_⟩
    change ¬ R.InSlots _
    rw [Ptr.add_add, Ring.inSlots_slot_iff hpow]
    omega

/-- **The two checksums of untyped packets trust the length in the slot.** While a
call of `commit_write` or a verifying `peek_packet` is under way, one store of the other
side to the length of the packet, and to nothing else, can make it load outside the
ring exactly where the ring ends within the largest length from the packet on. -/
theorem bus_checksums_exposed_iff (MaxPayloadSize Capacity : Nat) (hpow : ∃ j, Capacity = 2 ^ j)
    (host : Endian) (shm : SharedMemoryRegion) (data : Ptr) (isProducer : Bool) :
    ∃ R : Ring, (IpcHandle.attach shm data isProducer).ring (params MaxPayloadSize Capacity) =
        some R ∧ R.Over (params MaxPayloadSize Capacity) data ∧
      (∀ m : Mem,
        (∃ len, (commitWrite MaxPayloadSize Capacity host (.attach shm data isProducer)
          true).Misled Mem.machine m (m.withLength host (R.slot (m.word R.head.off)) len)
            R.LoadsOutside) ↔
          (Capacity - m.word R.head.off % Capacity) * kSlotSize MaxPayloadSize < 2 ^ 32 + 15) ∧
      ∀ m : Mem, m.word R.tail.off ≠ m.word R.head.off →
        Sound host (R.slot (m.word R.tail.off)) m.byte (kSlotSize MaxPayloadSize) false →
        (Header.ofMem host m.byte (R.slot (m.word R.tail.off)).off).crc ≠ 0 →
        ((∃ len, (peekPacket MaxPayloadSize Capacity host (.attach shm data isProducer)
          true).Misled Mem.machine m (m.withLength host (R.slot (m.word R.tail.off)) len)
            R.LoadsOutside) ↔
          (Capacity - m.word R.tail.off % Capacity) * kSlotSize MaxPayloadSize < 2 ^ 32 + 15) := by
  obtain ⟨R, hring, hover, hR, hsize, hcap, hstride⟩ :=
    IpcHandle.attached (params MaxPayloadSize Capacity) hpow shm data isProducer
  have hslot : R.slotSize = kSlotSize MaxPayloadSize := hsize
  have hheader : Header.size ≤ R.slotSize := by
    rw [hslot]
    exact Nat.le_trans (Nat.le_add_right _ _) (le_roundUp _ (by decide))
  have hcap : R.capacity = Capacity := hcap
  rw [hslot] at hstride
  refine ⟨R, hring, hover, fun m => ?_, fun m hne hsound hcrc => ?_⟩
  · simp only [commitWrite, hring]
    rw [← hcap, ← hstride]
    refine exposed_iff hR.pow (fun len i hi hbad => ?_) fun hfar len h => ?_
    · exact .later (run_loadWord ..) (storeCrc_misled hi hbad).bind
    · have hrest := h.of_event id rfl rfl
      have hpart : R.Holds (R.slot (m.word R.head.off)) Header.size := fun i hi =>
        hR.slot _ i (Nat.lt_of_lt_of_le hi hheader)
      have hstore : (storeCrc host (R.slot (m.word R.head.off)) true).Confined R.MayProduce
          (2 ^ 32 + 11) fun _ => True :=
        storeCrc_confined hpart.readable hfar.readable hpart.writable
      exact (hstore.bind fun _ _ => Ring.storeWord_confined rfl).not_misled
        Ring.MayProduce.inside hrest
  · simp only [peekPacket, hring]
    rw [← hcap, ← hstride]
    refine exposed_iff hR.pow (fun len i hi hbad => ?_) fun hfar len h => ?_
    · refine .later (run_loadWord ..) (.later (run_loadWord ..) ?_)
      rw [if_neg hne, hslot]
      exact packetAt_misled hsound hcrc hi hbad
    · have hrest := (h.of_event id rfl rfl).of_event id rfl rfl
      rw [if_neg hne] at hrest
      exact (packetAt_verified_confined (hR.slot _).consumed hfar.consumed).not_misled
        Ring.MayConsume.inside hrest

/-- A bus of 1024 slots with two messages in it, of which the older is a packet of four
bytes with a checksum. -/
def twoWaiting : Mem where
  byte := patch (fun _ => 0) 1152 (Endian.little.bytes 4 sinewMagic.toNat ++
    [1, 0, 1, 0, 7, 0, 0, 0, 4, 0, 0, 0])
  word a := if a = 64 then 5 else if a = 128 then 3 else 0
  visits := []

/-- The packet passes the checks, and the checksum leaves the ring. -/
theorem bus_checksums_exposed_iff_default : ∃ R : Ring,
    (IpcHandle.attach {} ⟨0x1000, 0⟩ false).ring (params 256 1024) = some R ∧ ∃ len,
      (peekPacket 256 1024 .little (.attach {} ⟨0x1000, 0⟩ false) true).Misled Mem.machine
        twoWaiting (twoWaiting.withLength .little (R.slot 3) len) R.LoadsOutside := by
  obtain ⟨R, hring, hover, _, hpeek⟩ :=
    bus_checksums_exposed_iff 256 1024 ⟨10, rfl⟩ .little {} ⟨0x1000, 0⟩ false
  refine ⟨R, hring, ?_⟩
  obtain rfl := Option.some.inj hring
  have hfound : Sound .little ⟨0x1000, 1152⟩ twoWaiting.byte 320 false :=
    ⟨by decide, by decide, fun h => absurd h Bool.false_ne_true⟩
  exact (hpeek twoWaiting (by decide) hfound (by decide)).mpr (by decide)

end IpcEnvelopeRingBuffer

end Sinew
