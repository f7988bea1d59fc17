import Sinew.Proofs.Attach
import Sinew.Proofs.Dispatch

/-!
# What the bus makes of a slot

`peek_packet` goes by the length a header states, `peek_msg` and `dispatch` by
the size of the type they look for. The two chains of checks are the same chain
once the stated length is the type's size: one bounds the stated length by the
slot and the other the type's, and the bytes they checksum are the same bytes.
-/

namespace Sinew.IpcEnvelopeRingBuffer

open Lib

variable {host : Endian} {p : Ptr} {size : Nat} {v : Bool} {f : Nat → UInt8} {m : Mem}

/-- The view of the packet that a header at `p` speaks of. -/
def viewOf (host : Endian) (p : Ptr) (f : Nat → UInt8) : PacketView :=
  let hdr := Header.ofMem host f p.off
  ⟨hdr, some (p.add Header.size), hdr.payloadLen.toNat⟩

/-- The bytes at `p` are a packet by what its header says. -/
structure Sound (host : Endian) (p : Ptr) (f : Nat → UInt8) (size : Nat)
    (verifyCrc : Bool) : Prop where
  fits : Header.size + (Header.ofMem host f p.off).payloadLen.toNat ≤ size
  magic : (Header.ofMem host f p.off).magic = sinewMagic
  crc : verifyCrc = true → (Header.ofMem host f p.off).crc ≠ 0 →
    crc32 (slice f (p.off + Header.size) (Header.ofMem host f p.off).payloadLen.toNat) =
      (Header.ofMem host f p.off).crc

theorem viewOf_isValid (h : Sound host p f size v) : (viewOf host p f).isValid = true := by
  simp [PacketView.isValid, viewOf, h.magic]

theorem run_packetAt_ok (h : Sound host p m.byte size v) :
    (packetAt host p size v).run Mem.machine m = (viewOf host p m.byte, m) := by
  have hfits := h.fits
  have hsmall : ¬ size < Header.size := by omega
  have hlen : ¬ (Header.ofMem host m.byte p.off).payloadLen.toNat > size - Header.size := by
    omega
  rw [packetAt, Prog.run_bind, run_inspectPacket, if_neg hsmall,
    if_neg (not_not.mpr h.magic), if_neg hlen]
  dsimp only
  rw [if_neg (by decide)]
  split
  · next hcrc =>
      rw [Prog.run_bind, crc32OfView, run_crc32At, Ptr.add_off]
      dsimp only
      rw [if_neg (not_not.mpr (h.crc hcrc.1 hcrc.2))]
      rfl
  · rfl

theorem run_packetAt_bad (h : ¬ Sound host p m.byte size v) :
    (packetAt host p size v).run Mem.machine m = ({}, m) := by
  rw [packetAt, Prog.run_bind, run_inspectPacket]
  dsimp only
  split
  · rfl
  split
  · rfl
  split
  · rfl
  next hsmall hmagic hlen =>
    dsimp only
    rw [if_neg (by decide)]
    have hfits : Header.size + (Header.ofMem host m.byte p.off).payloadLen.toNat ≤ size := by
      omega
    split
    · rw [Prog.run_bind, crc32OfView, run_crc32At, Ptr.add_off]
      dsimp only
      split
      · rfl
      · next heq =>
          exact absurd ⟨hfits, not_not.mp hmagic, fun _ _ => not_not.mp heq⟩ h
    · next hunchecked =>
        refine absurd ⟨hfits, not_not.mp hmagic, fun hv hne => ?_⟩ h
        exact absurd ⟨hv, hne⟩ hunchecked

/-- A valid view is the one of a sound packet. -/
theorem packetAt_isValid_iff :
    ((packetAt host p size v).run Mem.machine m).1.isValid = true ↔
      Sound host p m.byte size v := by
  constructor
  · intro hvalid
    by_contra h
    rw [run_packetAt_bad h] at hvalid
    have hnone : PacketView.isValid {} = false := by decide
    rw [hnone] at hvalid
    cases hvalid
  · intro h
    rw [run_packetAt_ok h]
    exact viewOf_isValid h

/-- A type accepts the slot exactly when the packet in it is sound and says it
is of this type. -/
theorem carries_iff {T : MsgType} : Carries host T p.off f size v ↔
    Sound host p f size v ∧ (Header.ofMem host f p.off).msgId = T.id ∧
      (Header.ofMem host f p.off).version = T.version ∧
      (Header.ofMem host f p.off).payloadLen.toNat = T.size := by
  constructor
  · intro h
    have hlen := h.payloadLen
    refine ⟨⟨?_, h.magic, ?_⟩, h.msgId, h.version, hlen⟩
    · rw [hlen]
      exact h.fits
    · rw [hlen]
      exact h.crc
  · intro ⟨h, hid, hversion, hlen⟩
    have hfits := h.fits
    have hcrc := h.crc
    rw [hlen] at hfits hcrc
    exact ⟨hfits, h.magic, hlen, hid, hversion, hcrc⟩

theorem packetAt_loadsIn :
    (packetAt host p size v).Along Mem.machine (LoadsIn p.off (p.off + size)) m := by
  rw [packetAt, Prog.along_bind, run_inspectPacket]
  constructor
  · unfold inspectPacket
    by_cases hsmall : size < Header.size
    · simp [hsmall]
    · have h32 : ∀ k, k + 4 ≤ Header.size → (load32 host (p.add k)).Along Mem.machine
          (LoadsIn p.off (p.off + size)) m := fun k hk =>
        load32_loadsIn (by simp) (by simp; omega)
      have h16 : ∀ k, k + 2 ≤ Header.size → (load16 host (p.add k)).Along Mem.machine
          (LoadsIn p.off (p.off + size)) m := fun k hk =>
        load16_loadsIn (by simp) (by simp; omega)
      simp [hsmall, Prog.along_ite, loadHeader, h32 Header.magicOff (by decide),
        h32 Header.payloadLenOff (by decide), h32 Header.crcOff (by decide),
        h16 Header.msgIdOff (by decide), h16 Header.versionOff (by decide)]
  · dsimp only
    split
    · exact trivial
    split
    · exact trivial
    split
    · exact trivial
    next hsmall _ hlen =>
      have hcrc : (crc32At (p.add Header.size)
          (Header.ofMem host m.byte p.off).payloadLen.toNat).Along Mem.machine
          (LoadsIn p.off (p.off + size)) m :=
        crc32At_loadsIn (by simp) (by simp; omega)
      simp [Prog.along_ite, crc32OfView, hcrc]

section Look

variable {R : Ring}

/-- With a message in the ring every look is a look at the slot of `tail`. -/
theorem run_look {α : Type} {empty : α} {look : Nat → Code α}
    (hne : m.word R.tail.off ≠ m.word R.head.off) :
    (do
      let tail ← loadWord R.tail
      let head ← loadWord R.head
      if tail = head then
        return empty
      look tail : Code α).run Mem.machine m = (look (m.word R.tail.off)).run Mem.machine m := by
  rw [Prog.run_bind, run_loadWord, Prog.run_bind, run_loadWord]
  dsimp only
  rw [if_neg hne]

theorem run_record (T : MsgType) (p : Ptr) : (callVisitor record T p).run Mem.machine m =
    (some true, { m with visits := m.visits ++ [(T, slice m.byte p.off T.size)] }) := by
  simp [callVisitor, record]

theorem run_callRecord (q : Ptr) (found : Option MsgType) :
    ((callAccepted record q found).run Mem.machine m).2 = { m with
      visits := m.visits ++ (found.map fun T => (T, slice m.byte q.off T.size)).toList } := by
  cases found with
  | none => simp [callAccepted]
  | some T =>
      rw [callAccepted, run_record]
      rfl

theorem visits_iff {q : Ptr} {found : Option MsgType} {T : MsgType} :
    (∃ bytes, ((callAccepted record q found).run Mem.machine m).2.visits =
      m.visits ++ [(T, bytes)]) ↔ found = some T := by
  rw [run_callRecord]
  constructor
  · intro ⟨bytes, h⟩
    have h := List.append_cancel_left h
    cases found with
    | none => cases h
    | some U => exact congrArg some (Prod.mk.inj (List.singleton_inj.mp h)).1
  · intro h
    subst h
    exact ⟨_, rfl⟩

theorem packetAt_says_iff {T : MsgType} (hal : (p.addr + Header.size) % T.align = 0) :
    let pv := ((packetAt host p size v).run Mem.machine m).1
    (pv.isValid ∧ pv.header.msgId = T.id ∧ pv.header.version = T.version ∧
      pv.payloadLen = T.size) ↔ validateMem host T p m.byte size v = .ok := by
  rw [validateMem_eq_ok, carries_iff]
  constructor
  · intro ⟨hvalid, htold⟩
    have h := packetAt_isValid_iff.mp hvalid
    rw [run_packetAt_ok h] at htold
    exact ⟨⟨h, htold⟩, hal⟩
  · intro ⟨⟨h, htold⟩, _⟩
    rw [run_packetAt_ok h]
    exact ⟨viewOf_isValid h, htold⟩

end Look

variable {MaxPayloadSize Capacity : Nat}

theorem slot_aligned {T : MsgType} (halign : T.align ≤ 16) {base : Nat} (hbase : 16 ∣ base)
    (cursor : Nat) :
    ((((params MaxPayloadSize Capacity).layout.at base).slot cursor).addr + Header.size) %
      T.align = 0 := by
  have h16 := T.align_dvd_sixteen halign
  have hslots : 16 ∣ IpcRingHeader.size := by decide
  have hstride : 16 ∣ kSlotSize MaxPayloadSize :=
    Nat.dvd_trans (by decide : 16 ∣ 64) (dvd_roundUp _ _)
  exact (params MaxPayloadSize Capacity).layout.payload_aligned h16
    (Nat.dvd_trans h16 hslots) (Nat.dvd_trans h16 hstride) hbase (cursor &&& (Capacity - 1))

/-- **The consumer's paths agree.** On any bytes in the slot at `tail`, a typed
peek finds a message exactly when dispatch visits one of the type, and exactly
when the packet that is shown says it is of this type and this long. All three
then show the same payload, and none of them changes anything. -/
theorem consumer_paths_agree (MaxPayloadSize Capacity : Nat) (host : Endian)
    (shm : SharedMemoryRegion) (data : Ptr) (producer : Bool) (hoff : data.off = 0)
    (hpage : 4096 ∣ data.base) (m : Mem)
    (hne : m.word IpcRingHeader.tailOff ≠ m.word IpcRingHeader.headOff) (v : Bool)
    (Msg : MsgType) (halign : Msg.align ≤ 16) (Ts : List MsgType) (hMsg : Msg ∈ Ts)
    (hdup : hasDuplicateMessageIds Ts = false) :
    let h := IpcHandle.attach shm data producer
    let msg := (peekMsg MaxPayloadSize Capacity host h Msg v).run Mem.machine m
    let pv := (peekPacket MaxPayloadSize Capacity host h v).run Mem.machine m
    let dispatched := fun visitor =>
      (dispatch MaxPayloadSize Capacity host h Ts visitor v).run Mem.machine m
    (msg.1.isSome ↔
      ∃ bytes, (dispatched record).2.visits = m.visits ++ [(Msg, bytes)]) ∧
    (msg.1.isSome ↔ pv.1.isValid ∧ pv.1.header.msgId = Msg.id ∧
      pv.1.header.version = Msg.version ∧ pv.1.payloadLen = Msg.size) ∧
    (∀ payload, msg.1 = some payload → pv.1.payload = some payload ∧
      (dispatched record).2.visits =
        m.visits ++ [(Msg, slice m.byte payload.off Msg.size)] ∧
      ∀ visitor, dispatched visitor = (callVisitor visitor Msg payload).run Mem.machine m) ∧
    msg.2 = m ∧ pv.2 = m ∧
      (dispatched record).2.byte = m.byte ∧ (dispatched record).2.word = m.word := by
  have hring := IpcHandle.attach_ring (params MaxPayloadSize Capacity) shm hoff producer
  generalize hR : (params MaxPayloadSize Capacity).layout.at data.base = R at hring
  have hcursors : m.word R.tail.off ≠ m.word R.head.off := by
    rw [← hR]
    exact hne
  have hal : ∀ cursor, ((R.slot cursor).addr + Header.size) % Msg.align = 0 := by
    intro cursor
    rw [← hR]
    exact slot_aligned halign (Nat.dvd_trans (by decide) hpage) cursor
  generalize hslot : R.slot (m.word R.tail.off) = slot
  have hMsgRun : (peekMsg MaxPayloadSize Capacity host (.attach shm data producer) Msg v).run
      Mem.machine m = (view host Msg (some slot) R.slotSize v).run Mem.machine m := by
    simp only [peekMsg, hring]
    rw [← hslot]
    exact run_look hcursors
  have hPacketRun : (peekPacket MaxPayloadSize Capacity host (.attach shm data producer) v).run
      Mem.machine m = (packetAt host slot R.slotSize v).run Mem.machine m := by
    simp only [peekPacket, hring]
    rw [← hslot]
    exact run_look hcursors
  have hDispatchRun : ∀ visitor,
      (dispatch MaxPayloadSize Capacity host (.attach shm data producer) Ts visitor v).run
        Mem.machine m =
        (callAccepted visitor (slot.add Header.size)
          (accepted host Ts slot m.byte R.slotSize v)).run Mem.machine m := by
    intro visitor
    simp only [dispatch, hring]
    rw [← hslot, ← run_dispatch]
    exact run_look hcursors
  have hfound : accepted host Ts slot m.byte R.slotSize v = some Msg ↔
      validateMem host Msg slot m.byte R.slotSize v = .ok := by
    rw [accepted_eq_some_iff hdup, and_iff_right hMsg]
  have htold := @packetAt_says_iff host slot R.slotSize v m Msg (by rw [← hslot]; exact hal _)
  dsimp only at htold ⊢
  rw [hMsgRun, hPacketRun, run_view]
  simp only [hDispatchRun]
  have hmsg : (if validateMem host Msg slot m.byte R.slotSize v = .ok then
      some (slot.add Header.size) else none).isSome ↔
      validateMem host Msg slot m.byte R.slotSize v = .ok := by
    split <;> simp [*]
  refine ⟨?_, ?_, fun payload hpayload => ?_, trivial, ?_, ?_, ?_⟩
  · rw [visits_iff, hfound, hmsg]
  · rw [htold, hmsg]
  · have hok := hmsg.mp (by rw [hpayload]; rfl)
    rw [if_pos hok] at hpayload
    obtain rfl := Option.some.inj hpayload
    obtain ⟨hvalid, -⟩ := htold.mpr hok
    rw [run_packetAt_ok (packetAt_isValid_iff.mp hvalid), run_callRecord, hfound.mpr hok]
    exact ⟨rfl, rfl, fun _ => rfl⟩
  · by_cases h : Sound host slot m.byte R.slotSize v
    · rw [run_packetAt_ok h]
    · rw [run_packetAt_bad h]
  · rw [run_callRecord]
  · rw [run_callRecord]

/-- A bus whose first slot holds a ping. -/
def pingSlot : Mem where
  byte := patch (fun _ => 0xFF) IpcRingHeader.size (packet .little pingMsg 0 [42, 0, 0, 0])
  word := fun a => if a = IpcRingHeader.headOff then 1 else 0
  visits := []

theorem consumer_paths_agree_ping :
    let h := IpcHandle.attach {} ⟨0x1000, 0⟩ false
    ((peekMsg 32 2 .little h pingMsg true).run Mem.machine pingSlot).1.isSome ∧
      ∃ bytes, ((dispatch 32 2 .little h [pongMsg, pingMsg] record true).run
        Mem.machine pingSlot).2.visits = [(pingMsg, bytes)] := by
  have hfound : ((peekMsg 32 2 .little (.attach {} ⟨0x1000, 0⟩ false) pingMsg true).run
      Mem.machine pingSlot).1.isSome := by decide +kernel
  exact ⟨hfound, (consumer_paths_agree 32 2 .little {} ⟨0x1000, 0⟩ false rfl (by decide)
    pingSlot (by decide) true pingMsg (by decide) [pongMsg, pingMsg]
    (.tail _ (.head _)) (by decide)).1.mp hfound⟩

end Sinew.IpcEnvelopeRingBuffer
