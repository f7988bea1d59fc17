import Sinew.Proofs.Envelope

/-!
# Where the slots lie

Each class rounds its slots up in its own way, and each gets three things right
for every message type: the slots are inside the object or segment, behind the
ring's header, and apart. What the rounding aligns is the slot. The payload is
16 bytes behind it, so it is aligned exactly for the types whose alignment
divides 16, and for any other the alignment check of `prepare` refuses every
slot of the ring.
-/

namespace Sinew

open Lib

theorem MsgType.align_dvd_two_pow {T : MsgType} {k : Nat} (h : T.align ≤ 2 ^ k) :
    T.align ∣ 2 ^ k := by
  obtain ⟨j, hj⟩ := T.align_pow
  rw [hj] at h ⊢
  exact Nat.pow_dvd_pow 2 ((Nat.pow_le_pow_iff_right (by decide)).mp h)

theorem MsgType.dvd_align {T : MsgType} {k : Nat} (h : 2 ^ k ≤ T.align) :
    2 ^ k ∣ T.align := by
  obtain ⟨j, hj⟩ := T.align_pow
  rw [hj] at h ⊢
  exact Nat.pow_dvd_pow 2 ((Nat.pow_le_pow_iff_right (by decide)).mp h)

theorem MsgType.thirtyTwo_dvd_align {T : MsgType} (h : 16 < T.align) : 32 ∣ T.align := by
  obtain ⟨k, hk⟩ := T.align_pow
  rw [hk] at h ⊢
  have hlt : 4 < k := (Nat.pow_lt_pow_iff_right (by decide : 1 < 2)).mp h
  exact Nat.pow_dvd_pow 2 hlt

/-- What the header of the ring takes up is the first `hdr` bytes of `total`. -/
structure Layout.SlotsSound (L : Layout) (T : MsgType) (base hdr total : Nat)
    (prepareWrite : Code (Option Ptr)) : Prop where
  fits : Header.size + T.size ≤ L.slotSize
  header : ∀ cursor, hdr ≤ ((L.at base).slot cursor).off
  inside : ∀ cursor, ((L.at base).slot cursor).off + L.slotSize ≤ total
  disjoint : ∀ i k, i < L.capacity → k < L.capacity → i ≠ k →
    ((L.at base).slot i).off + L.slotSize ≤ ((L.at base).slot k).off ∨
      ((L.at base).slot k).off + L.slotSize ≤ ((L.at base).slot i).off
  aligned : ∀ cursor, (((L.at base).slot cursor).addr + Header.size) % T.align = 0
  prepares : ∀ (m : Mem) (committed taken : Nat),
    m.word L.headOff = committed % 2 ^ L.w → m.word L.tailOff = taken % 2 ^ L.w →
    taken ≤ committed → committed < taken + L.capacity →
    (prepareWrite.run Mem.machine m).1.isSome

namespace Layout

variable {L : Layout} {T : MsgType} {base hdr total : Nat}

theorem Sane.slot_eq (h : L.Sane) (base cursor : Nat) :
    (L.at base).slot cursor = ⟨base, L.slotOff cursor⟩ := by
  obtain ⟨j, hj⟩ := h.pow
  have hmask : cursor &&& (L.capacity - 1) = cursor % L.capacity := by
    rw [hj, Nat.and_two_pow_sub_one_eq_mod]
  simp only [Ring.slot, Layout.at, hmask]
  rfl

/-- Where the slot is aligned for the payload type and 16 is too, the slots
are sound. -/
theorem Sane.slotsSound (h : L.Sane) (hfits : Header.size + T.size ≤ L.slotSize)
    (hhdr : hdr ≤ L.slotsOff) (htotal : L.slotsOff + L.capacity * L.stride = total)
    (hbase : T.align ∣ base) (hslots : T.align ∣ L.slotsOff) (hstride : T.align ∣ L.stride)
    (halign : T.align ∣ 16) {host : Endian} {prepareWrite : Code (Option Ptr)}
    (hprepare : prepareWrite = (L.at base).prepareWrite host T) :
    L.SlotsSound T base hdr total prepareWrite := by
  have haligned : ∀ cursor,
      (((L.at base).slot cursor).addr + Header.size) % T.align = 0 := by
    intro cursor
    rw [h.slot_eq]
    have hoff := Nat.dvd_add hslots (Nat.dvd_trans hstride
      (Nat.dvd_mul_left L.stride (cursor % L.capacity)))
    exact Nat.mod_eq_zero_of_dvd (Nat.dvd_add (Nat.dvd_add hbase hoff) halign)
  refine ⟨hfits, fun cursor => ?_, fun cursor => ?_, fun i k hi hk hne => ?_, haligned,
    fun m committed taken hhead htail hle hroom => ?_⟩
  · rw [h.slot_eq]
    exact Nat.le_trans hhdr (Nat.le_add_right _ _)
  · rw [h.slot_eq, ← htotal]
    have hlt := Nat.mod_lt cursor h.capacity_pos
    have hmul := Nat.mul_le_mul_right L.stride (Nat.succ_le_of_lt hlt)
    have hle := h.stride
    rw [Nat.succ_mul] at hmul
    simp only [Layout.slotOff]
    omega
  · rw [h.slot_eq, h.slot_eq]
    refine Cursors.slot_disjoint ?_ h.stride
    rw [Nat.mod_eq_of_lt hi, Nat.mod_eq_of_lt hk]
    exact hne
  · have hlt := h.lt
    have hdistance : (L.at base).distance (m.word (L.at base).head.off)
        (m.word (L.at base).tail.off) = committed - taken := by
      show (m.word L.headOff + 2 ^ L.w - m.word L.tailOff) % 2 ^ L.w = committed - taken
      rw [hhead, htail]
      exact Cursors.sub_mod_eq hle (by omega)
    have hnotfull : ¬ committed - taken ≥ (L.at base).capacity := by
      show ¬ committed - taken ≥ L.capacity
      omega
    rw [hprepare]
    simp only [Ring.prepareWrite, Prog.run_bind, run_loadWord, hdistance, if_neg hnotfull]
    have hslot : Header.size + T.size ≤ (L.at base).slotSize := hfits
    rw [run_prepare_ok host T hslot (haligned _)]
    rfl

/-- Sixteen bytes behind an address that is aligned to more than 16. -/
theorem payload_misaligned (h : 16 < T.align) {a : Nat} (ha : 32 ∣ a) :
    (a + Header.size) % T.align ≠ 0 := by
  intro hzero
  have hpayload := Nat.dvd_trans (MsgType.thirtyTwo_dvd_align h)
    (Nat.dvd_of_mod_eq_zero hzero)
  rw [Nat.dvd_add_right ha] at hpayload
  exact absurd hpayload (by decide)

/-- If slots are aligned to 32, no type of an alignment above 16 is served. -/
theorem Sane.align_le_of_sound (h : L.Sane) {prepareWrite : Code (Option Ptr)}
    (hsound : L.SlotsSound T base hdr total prepareWrite)
    (hdvd : 16 < T.align → 32 ∣ base ∧ 32 ∣ L.slotsOff ∧ 32 ∣ L.stride) :
    T.align ≤ 16 := by
  refine Nat.le_of_not_lt fun hlt => ?_
  obtain ⟨hbase, hslots, hstride⟩ := hdvd hlt
  have haligned := hsound.aligned 0
  rw [h.slot_eq] at haligned
  refine payload_misaligned hlt ?_ haligned
  exact Nat.dvd_add hbase (Nat.dvd_add hslots
    (Nat.dvd_trans hstride (Nat.dvd_mul_left _ _)))

end Layout

namespace SpscRingBuffer

variable {w : Nat} {T : MsgType} {Capacity : Nat} {host : Endian} {this : Nat}

/-- `alignof(SpscRingBuffer<T, Capacity>)` is a multiple of 64 and of
`alignof(T)`. -/
theorem align_dvd_object : T.align ∣ max 64 (kSlotAlign T) ∧ 64 ∣ max 64 (kSlotAlign T) := by
  rw [kSlotAlign_eq]
  rcases Nat.le_total T.align 64 with h | h
  · rw [Nat.max_eq_left h]
    exact ⟨MsgType.align_dvd_two_pow (k := 6) h, Nat.dvd_refl _⟩
  · rw [Nat.max_eq_right h]
    exact ⟨Nat.dvd_refl _, MsgType.dvd_align (k := 6) h⟩

theorem slotsSound_iff (hpow : ∃ j, Capacity = 2 ^ j)
    (hfits : totalSize w T Capacity < 2 ^ w) (hthis : max 64 (kSlotAlign T) ∣ this) :
    (layout w T Capacity).SlotsSound T this 128 (totalSize w T Capacity)
      (prepareWrite w T Capacity host this) ↔ T.align ≤ 16 := by
  have hL := layout_sane hpow hfits
  have hobject := align_dvd_object (T := T)
  have hslots : max 64 (kSlotAlign T) ∣ (layout w T Capacity).slotsOff := dvd_roundUp _ _
  have hstride : T.align ∣ (layout w T Capacity).stride := by
    show T.align ∣ roundUp (kSlotSize T) (kSlotAlign T)
    rw [kSlotAlign_eq]
    exact dvd_roundUp _ _
  constructor
  · intro hsound
    refine hL.align_le_of_sound hsound fun hlt => ?_
    have h64 : 32 ∣ max 64 (kSlotAlign T) := Nat.dvd_trans (by decide) hobject.2
    exact ⟨Nat.dvd_trans h64 hthis, Nat.dvd_trans h64 hslots,
      Nat.dvd_trans (MsgType.thirtyTwo_dvd_align hlt) hstride⟩
  · intro halign
    have hhdr : 128 ≤ (layout w T Capacity).slotsOff := by
      rw [slotsOff_eq halign]
    exact hL.slotsSound (Nat.le_refl _) hhdr rfl (Nat.dvd_trans hobject.1 hthis)
      (Nat.dvd_trans hobject.1 hslots) hstride (T.align_dvd_sixteen halign) rfl

end SpscRingBuffer

theorem IpcParams.slotsSound_iff {P : IpcParams} {T : MsgType} (host : Endian)
    (hpow : ∃ j, P.capacity = 2 ^ j) (hfits : P.totalShmSize < 2 ^ 64)
    (hslot : Header.size + T.size ≤ P.slotSize) (h16 : 16 ∣ P.slotSize)
    (h32 : 16 < T.align → 32 ∣ P.slotSize) {base page : Nat} (hpage : ∃ j, page = 2 ^ j)
    (hle : T.align ≤ page) (hbase : page ∣ base) {prepareWrite : Code (Option Ptr)}
    (hprepare : prepareWrite = (P.layout.at base).prepareWrite host T) :
    P.layout.SlotsSound T base IpcRingHeader.size P.totalShmSize prepareWrite ↔
      T.align ≤ 16 := by
  have hpos : 0 < P.slotSize := by
    unfold Header.size at hslot
    omega
  have hL := IpcParams.layout_sane hpow hpos hfits
  have hbase' : T.align ∣ base := by
    obtain ⟨j, hj⟩ := hpage
    rw [hj] at hle hbase
    exact Nat.dvd_trans (MsgType.align_dvd_two_pow hle) hbase
  constructor
  · intro hsound
    refine hL.align_le_of_sound hsound fun hlt => ⟨?_, ?_, h32 hlt⟩
    · exact Nat.dvd_trans (MsgType.thirtyTwo_dvd_align hlt) hbase'
    · show 32 ∣ 192
      decide
  · intro halign
    have hdvd := T.align_dvd_sixteen halign
    refine hL.slotsSound hslot (Nat.le_refl _) rfl hbase' ?_ (Nat.dvd_trans hdvd h16) hdvd
      hprepare
    show T.align ∣ 192
    exact Nat.dvd_trans hdvd (by decide)

namespace IpcRingBuffer

variable {T : MsgType}

theorem kSlotAlign_dvd : 16 ∣ kSlotAlign T ∧ T.align ∣ kSlotAlign T := by
  unfold kSlotAlign
  split
  · next hlt => exact ⟨MsgType.dvd_align (k := 4) (Nat.le_of_lt hlt), Nat.dvd_refl _⟩
  · next hle => exact ⟨Nat.dvd_refl _, T.align_dvd_sixteen (Nat.le_of_not_lt hle)⟩

theorem kSlotAlign_pos : 0 < kSlotAlign T := by
  unfold kSlotAlign
  split <;> omega

end IpcRingBuffer

/-- **Where the slots are sound.** In all three rings the slots are where they
should be, and a ring that is not full takes a message, exactly for the types
whose alignment is no more than the 16 bytes of the packet header. -/
theorem slots_sound_iff (T : MsgType) (Capacity : Nat) (hpow : ∃ j, Capacity = 2 ^ j)
    (host : Endian) :
    (∀ w this, SpscRingBuffer.totalSize w T Capacity < 2 ^ w →
      max 64 (SpscRingBuffer.kSlotAlign T) ∣ this →
      ((SpscRingBuffer.layout w T Capacity).SlotsSound T this 128
          (SpscRingBuffer.totalSize w T Capacity)
          (SpscRingBuffer.prepareWrite w T Capacity host this) ↔ T.align ≤ 16)) ∧
    (∀ shm data page, (IpcRingBuffer.params T Capacity).totalShmSize < 2 ^ 64 →
      data.off = 0 → (∃ j, page = 2 ^ j) → T.align ≤ page → page ∣ data.base →
      ((IpcRingBuffer.params T Capacity).layout.SlotsSound T data.base IpcRingHeader.size
          (IpcRingBuffer.params T Capacity).totalShmSize
          (IpcRingBuffer.prepareWrite T Capacity host (.attach shm data true)) ↔
        T.align ≤ 16)) ∧
    (∀ MaxPayloadSize shm data page, T.size ≤ MaxPayloadSize →
      (IpcEnvelopeRingBuffer.params MaxPayloadSize Capacity).totalShmSize < 2 ^ 64 →
      data.off = 0 → (∃ j, page = 2 ^ j) → T.align ≤ page → page ∣ data.base →
      ((IpcEnvelopeRingBuffer.params MaxPayloadSize Capacity).layout.SlotsSound T data.base
          IpcRingHeader.size (IpcEnvelopeRingBuffer.params MaxPayloadSize Capacity).totalShmSize
          (IpcEnvelopeRingBuffer.prepareWrite MaxPayloadSize Capacity host
            (.attach shm data true) T) ↔ T.align ≤ 16)) := by
  refine ⟨fun w this hfits hthis => SpscRingBuffer.slotsSound_iff hpow hfits hthis,
    fun shm data page hfits hoff hpage hle hbase => ?_,
    fun MaxPayloadSize shm data page hsize hfits hoff hpage hle hbase => ?_⟩
  · have hdvd := IpcRingBuffer.kSlotAlign_dvd (T := T)
    have hslot : IpcRingBuffer.kSlotAlign T ∣ IpcRingBuffer.kSlotSize T := dvd_roundUp _ _
    refine IpcParams.slotsSound_iff host hpow hfits (le_roundUp _ IpcRingBuffer.kSlotAlign_pos)
      (Nat.dvd_trans hdvd.1 hslot) (fun hlt => ?_) hpage hle hbase ?_
    · exact Nat.dvd_trans (MsgType.thirtyTwo_dvd_align hlt) (Nat.dvd_trans hdvd.2 hslot)
    · simp only [IpcRingBuffer.prepareWrite, IpcHandle.attach_ring _ shm hoff]
  · have hslot : 64 ∣ IpcEnvelopeRingBuffer.kSlotSize MaxPayloadSize := dvd_roundUp _ _
    refine IpcParams.slotsSound_iff host hpow hfits
      (Nat.le_trans (Nat.add_le_add_left hsize _) (le_roundUp _ (by decide)))
      (Nat.dvd_trans (by decide) hslot) (fun _ => Nat.dvd_trans (by decide) hslot)
      hpage hle hbase ?_
    simp only [IpcEnvelopeRingBuffer.prepareWrite, IpcHandle.attach_ring _ shm hoff]

theorem wideMsg_size_pos : 0 < 32 := by decide

theorem wideMsg_ctor_lt : ∀ x ∈ ([] : List (Nat × UInt8)), x.1 < 32 := by simp

/-- A type of alignment 32, as a vector register's is. -/
def wideMsg : MsgType where
  size := 32
  align := 32
  id := 3
  version := 1
  ctor := []
  size_pos := wideMsg_size_pos
  align_pow := ⟨5, rfl⟩
  align_dvd := by decide
  ctor_lt := wideMsg_ctor_lt

theorem slots_sound_iff_ping :
    (SpscRingBuffer.layout 32 pingMsg 2).SlotsSound pingMsg 0x40 128
        (SpscRingBuffer.totalSize 32 pingMsg 2)
        (SpscRingBuffer.prepareWrite 32 pingMsg 2 .little 0x40) ∧
      (IpcRingBuffer.params pingMsg 2).layout.SlotsSound pingMsg 0x1000 IpcRingHeader.size
        (IpcRingBuffer.params pingMsg 2).totalShmSize
        (IpcRingBuffer.prepareWrite pingMsg 2 .little (.attach {} ⟨0x1000, 0⟩ true)) ∧
      (IpcEnvelopeRingBuffer.params 32 2).layout.SlotsSound pingMsg 0x1000
        IpcRingHeader.size (IpcEnvelopeRingBuffer.params 32 2).totalShmSize
        (IpcEnvelopeRingBuffer.prepareWrite 32 2 .little (.attach {} ⟨0x1000, 0⟩ true)
          pingMsg) := by
  have h := slots_sound_iff pingMsg 2 ⟨1, rfl⟩ .little
  exact ⟨(h.1 32 0x40 (by decide) (by decide)).mpr (by decide),
    (h.2.1 {} ⟨0x1000, 0⟩ 4096 (by decide) rfl ⟨12, rfl⟩ (by decide) (by decide)).mpr
      (by decide),
    (h.2.2 32 {} ⟨0x1000, 0⟩ 4096 (by decide) (by decide) rfl ⟨12, rfl⟩ (by decide)
      (by decide)).mpr (by decide)⟩

/-- An empty ring of a type of alignment 32 refuses its first message, in all
three classes. -/
theorem wide_messages_refused :
    ¬ (SpscRingBuffer.layout 64 wideMsg 2).SlotsSound wideMsg 0x40 128
        (SpscRingBuffer.totalSize 64 wideMsg 2)
        (SpscRingBuffer.prepareWrite 64 wideMsg 2 .little 0x40) ∧
      ¬ (IpcRingBuffer.params wideMsg 2).layout.SlotsSound wideMsg 0x1000
        IpcRingHeader.size (IpcRingBuffer.params wideMsg 2).totalShmSize
        (IpcRingBuffer.prepareWrite wideMsg 2 .little (.attach {} ⟨0x1000, 0⟩ true)) ∧
      ¬ (IpcEnvelopeRingBuffer.params 32 2).layout.SlotsSound wideMsg 0x1000
        IpcRingHeader.size (IpcEnvelopeRingBuffer.params 32 2).totalShmSize
        (IpcEnvelopeRingBuffer.prepareWrite 32 2 .little (.attach {} ⟨0x1000, 0⟩ true)
          wideMsg) := by
  refine ⟨fun h => ?_, fun h => ?_, fun h => ?_⟩
  · exact absurd (h.prepares ⟨fun _ => 0, fun _ => 0, []⟩ 0 0 rfl rfl (by decide)
      (by decide)) (by decide)
  · exact absurd (h.prepares ⟨fun _ => 0, fun _ => 0, []⟩ 0 0 rfl rfl (by decide)
      (by decide)) (by decide)
  · exact absurd (h.prepares ⟨fun _ => 0, fun _ => 0, []⟩ 0 0 rfl rfl (by decide)
      (by decide)) (by decide)

end Sinew
