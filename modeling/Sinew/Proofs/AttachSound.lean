import Sinew.Model.Handles
import Sinew.Proofs.RingFifo
import Sinew.Proofs.Segment

/-!
# What a successful attach says

`open` compares four numbers of the header `create` wrote. They determine the
template, the capacity and the payload size, and with them the stride, as long
as none of them was cut to 32 bits on the way. They do not determine the
message: two types of one size pass the comparison, and it is only `view`, when
the first message comes, that looks at the id and the version. So an attach is
sound exactly between types that agree on these two as well.
-/

namespace Sinew

open Lib

namespace IpcHandle

theorem ring_of_valid (P : IpcParams) {h : IpcHandle} (hvalid : h.isValid) :
    ∃ R, h.ring P = some R := by
  unfold ring
  unfold isValid at hvalid
  cases hhdr : h.hdr with
  | none =>
      rw [hhdr] at hvalid
      cases hvalid
  | some hdr =>
      cases hslots : h.slotsBase with
      | none =>
          rw [hslots, Bool.and_comm] at hvalid
          cases hvalid
      | some slotsBase => exact ⟨_, rfl⟩

theorem run_initHeader_fields (P : IpcParams) (host : Endian) (data : Ptr) (m : Mem) :
    let byte := ((initHeader P host data).run Mem.machine m).2.byte
    u32At host byte (data.off + IpcRingHeader.magicOff) = P.magic ∧
      u32At host byte (data.off + IpcRingHeader.capacityOff) = UInt32.ofNat P.capacity ∧
      u32At host byte (data.off + IpcRingHeader.slotSizeOff) = UInt32.ofNat P.slotSize ∧
      u32At host byte (data.off + IpcRingHeader.payloadLenOff) =
        UInt32.ofNat P.payloadLen := by
  have hlater : ∀ (f : Nat → UInt8) (off off' n : Nat) (v : Nat), off + 4 ≤ off' →
      slice (patch f (data.off + off') (host.bytes n v)) (data.off + off) 4 =
        slice f (data.off + off) 4 := by
    intro f off off' n v hoff
    exact slice_patch_of_disjoint (by simp; omega)
  have hown : ∀ (f : Nat → UInt8) (off : Nat) (v : UInt32),
      slice (patch f (data.off + off) (host.bytes 4 v.toNat)) (data.off + off) 4 =
        host.bytes 4 v.toNat := fun f off v => slice_patch_eq (by simp)
  simp only [initHeader, Prog.run_bind, run_store32, run_store16, run_storeWord,
    Ptr.add_off, Mem.write_byte]
  refine ⟨u32At_of_slice host ?_, u32At_of_slice host ?_, u32At_of_slice host ?_,
    u32At_of_slice host ?_⟩
  · iterate 6 rw [hlater _ _ _ _ _ (by decide)]
    exact hown _ _ _
  · iterate 4 rw [hlater _ _ _ _ _ (by decide)]
    exact hown _ _ _
  · iterate 3 rw [hlater _ _ _ _ _ (by decide)]
    exact hown _ _ _
  · iterate 2 rw [hlater _ _ _ _ _ (by decide)]
    exact hown _ _ _

end IpcHandle

/-- The one's `open` takes the other's header. -/
structure IpcParams.Compatible (P Q : IpcParams) : Prop where
  magic : P.magic = Q.magic
  capacity : P.capacity % 2 ^ 32 = Q.capacity
  slotSize : P.slotSize % 2 ^ 32 = Q.slotSize
  payloadLen : P.payloadLen % 2 ^ 32 = Q.payloadLen

theorem IpcParams.Compatible.of_matches {P Q : IpcParams} {host : Endian} {m : Mem}
    {data data' : Ptr} {byte : Nat → UInt8} (hoff : data'.off = data.off)
    (hbyte : ∀ a < IpcRingHeader.headOff,
      byte (data.off + a) =
        ((IpcHandle.initHeader P host data).run Mem.machine m).2.byte (data.off + a))
    (hm : IpcHandle.Matches Q host data' byte) : P.Compatible Q := by
  obtain ⟨hmagic, hcapacity, hslotSize, hpayloadLen⟩ :=
    IpcHandle.run_initHeader_fields P host data m
  have hfield : ∀ off, off + 4 ≤ IpcRingHeader.headOff →
      u32At host byte (data'.off + off) =
        u32At host ((IpcHandle.initHeader P host data).run Mem.machine m).2.byte
          (data.off + off) := by
    intro off hle
    rw [hoff]
    refine u32At_congr host (slice_congr fun x hx hx' => ?_)
    have h := hbyte (x - data.off) (by omega)
    rwa [Nat.add_sub_cancel' (by omega)] at h
  constructor
  · rw [← hmagic, ← hm.magic, hfield _ (by decide)]
  · rw [← hm.capacity, hfield _ (by decide), hcapacity, UInt32.toNat_ofNat']
  · rw [← hm.slotSize, hfield _ (by decide), hslotSize, UInt32.toNat_ofNat']
  · rw [← hm.payloadLen, hfield _ (by decide), hpayloadLen, UInt32.toNat_ofNat']

/-- What a header says of a message. -/
structure MsgType.Alike (T U : MsgType) : Prop where
  size : U.size = T.size
  id : U.id = T.id
  version : U.version = T.version

section Alike

variable {T U : MsgType} {host : Endian} {L : Layout} {base : Nat}

theorem validate_alike (h : T.Alike U) {p : Ptr}
    (hT : (p.addr + Header.size) % T.align = 0)
    (hU : (p.addr + Header.size) % U.align = 0) (size : Nat) (v : Bool) :
    validate host U (some p) size v = validate host T (some p) size v := by
  simp only [validate, Ptr.addr_add, hT, hU, h.size, h.id, h.version]

theorem view_alike (h : T.Alike U) {p : Ptr}
    (hT : (p.addr + Header.size) % T.align = 0)
    (hU : (p.addr + Header.size) % U.align = 0) (size : Nat) (v : Bool) :
    view host U (some p) size v = view host T (some p) size v := by
  simp only [view, validate_alike h hT hU]

theorem Layout.Takes.aligned_slot (h : L.Takes T) (hbase : 16 ∣ base) (cursor : Nat) :
    (((L.at base).slot cursor).addr + Header.size) % T.align = 0 :=
  L.payload_aligned h.align_base h.align_slots h.align_stride hbase
    (cursor &&& (L.capacity - 1))

theorem peekRead_alike (h : T.Alike U) (hT : L.Takes T) (hU : L.Takes U)
    (hbase : 16 ∣ base) (v : Bool) :
    (L.at base).peekRead host U v = (L.at base).peekRead host T v := by
  unfold Ring.peekRead
  refine congrArg _ (funext fun tail => congrArg _ (funext fun head => ?_))
  rw [view_alike h (hT.aligned_slot hbase tail) (hU.aligned_slot hbase tail)]

theorem pop_alike (h : T.Alike U) (hT : L.Takes T) (hU : L.Takes U)
    (hbase : 16 ∣ base) (v : Bool) :
    (L.at base).pop host U v = (L.at base).pop host T v := by
  simp only [Ring.pop, peekRead_alike h hT hU hbase, h.size]

theorem consume_alike (h : T.Alike U) (hT : L.Takes T) (hU : L.Takes U)
    (hbase : 16 ∣ base) (func : Visitor) (v : Bool) :
    (L.at base).consume host U (fun _ item => func T item) v =
      (L.at base).consume host T func v := by
  simp only [Ring.consume, peekRead_alike h hT hU hbase]

/-- Any type that `peek_read` answers is like the one that was sent. -/
theorem wp_peek_tells {types : MsgType → Prop} {stepwise : Bool} {l : Label} {s : Shared}
    {v : Bool} (hL : L.Sane) (htypes : ∀ T, types T → L.Takes T) (hbase : 16 ∣ base)
    (hU : L.Takes U) :
    (consumerEnv L host types stepwise).wp (Shared.exec L l) ((L.at base).peekRead host U v)
      (fun r _ => r ≠ none → ∀ V payload, s.Front V payload →
        U.size = V.size ∧ U.id = V.id ∧ U.version = V.version) s := by
  refine wp_cursors hL (fun s₁ n _ _ _ => ?_)
    fun s₁ tail head V payload hinv₁ hq hf hne hslot => ?_
  · rw [if_pos rfl]
    exact Env.wp_ret fun _ _ _ hsome => absurd rfl hsome
  · rw [if_neg hne, hslot]
    refine Env.wp_mono (wp_viewOf hf hU v) fun r s₂ _ ⟨_, hr⟩ hsome W payload' hf' => ?_
    have hsame : some (W, payload') = some (V, payload) := (hf'.quiet hq).symm.trans hf
    obtain ⟨hWV, -⟩ := Prod.mk.inj (Option.some.inj hsame)
    subst hWV
    obtain ⟨p, hp⟩ := Option.ne_none_iff_exists'.mp hsome
    exact (hinv₁.validate_front_iff htypes hbase hf hU v).mp ((hr p).mp hp).1

end Alike

namespace IpcRingBuffer

variable {T U : MsgType} {C D : Nat} {host : Endian}

/-- The two classes have the same slots. -/
structure SameSlots (T : MsgType) (C : Nat) (U : MsgType) (D : Nat) : Prop where
  size : U.size = T.size
  capacity : D = C
  align : T.align ≤ 16
  align' : U.align ≤ 16

namespace SameSlots

variable (h : SameSlots T C U D)

include h

theorem slotSize : (params U D).slotSize = (params T C).slotSize := by
  show kSlotSize U = kSlotSize T
  rw [kSlotSize, kSlotSize, kSlotAlign_eq h.align, kSlotAlign_eq h.align', h.size]

theorem ring (x : IpcHandle) : x.ring (params U D) = x.ring (params T C) := by
  have hcapacity : (params U D).capacity = (params T C).capacity := h.capacity
  simp only [IpcHandle.ring, h.slotSize, hcapacity]

theorem layout : (params U D).layout = (params T C).layout := by
  have hcapacity : (params U D).capacity = (params T C).capacity := h.capacity
  simp only [IpcParams.layout, h.slotSize, hcapacity]

theorem held {x : IpcHandle} : x.Held (params U D) ↔ x.Held (params T C) := by
  simp only [IpcHandle.Held, h.ring, h.layout]

theorem takes (hsize : T.size < 2 ^ 32) : (params T C).layout.Takes U := by
  have hU : (params U D).layout.Takes U :=
    layout_takes h.align' (by rw [h.size]; exact hsize)
  rwa [h.layout] at hU

/-- The functions of the one class do on the ring what those of the other do. -/
theorem reader_sound (hmsg : T.Alike U) (hsize : T.size < 2 ^ 32)
    (hL : (params T C).layout.Sane) :
    (readerOps T host U D).Sound (params T C).layout host (· = T)
      (IpcHandle.Held (params T C)) (fun x => (x.ring (params T C)).isSome) := by
  have hT : (params T C).layout.Takes T := layout_takes h.align hsize
  have hU := h.takes hsize
  have hsound : (consumerOps T C host).Sound (params T C).layout host (· = T)
      (IpcHandle.Held (params T C)) _ := consumer_sound hL hT
  refine ⟨fun x V v l s hheld hV => ?_, fun x l s hheld => ?_,
    fun x V v l s hheld hV => ?_, fun x V v l s hheld hV => ?_,
    fun x get l s hheld hget => ?_⟩
  · have heq : (readerOps T host U D).peekRead x V v = (consumerOps T C host).peekRead x V v := by
      simp only [readerOps, consumerOps, peekRead, h.ring]
      cases hring : x.ring (params T C) with
      | none => rfl
      | some R =>
          obtain ⟨base, hbase, heq⟩ := hheld R hring
          subst heq
          exact peekRead_alike hmsg hT hU hbase v
    rw [heq]
    exact hsound.peekRead x V v l s hheld hV
  · have heq : (readerOps T host U D).commitRead x = (consumerOps T C host).commitRead x := by
      simp only [readerOps, consumerOps, commitRead, h.ring]
    rw [heq]
    exact hsound.commitRead x l s hheld
  · have heq : (readerOps T host U D).pop x V v = (consumerOps T C host).pop x V v := by
      simp only [readerOps, consumerOps, pop, h.ring]
      cases hring : x.ring (params T C) with
      | none => rfl
      | some R =>
          obtain ⟨base, hbase, heq⟩ := hheld R hring
          subst heq
          exact pop_alike hmsg hT hU hbase v
    rw [heq]
    exact hsound.pop x V v l s hheld hV
  · have heq : (readerOps T host U D).consume x V record v =
        (consumerOps T C host).consume x V record v := by
      simp only [readerOps, consumerOps, consume, h.ring]
      cases hring : x.ring (params T C) with
      | none => rfl
      | some R =>
          obtain ⟨base, hbase, heq⟩ := hheld R hring
          subst heq
          exact consume_alike hmsg hT hU hbase record v
    rw [heq]
    exact hsound.consume x V v l s hheld hV
  · have hget : Rehandle U D host x get := hget
    refine wp_silent ((rehandle_silent hget).mono fun y hy => ?_)
    exact h.held.mp hy

end SameSlots

/-- Whenever a message is unread, `peek_read` on a valid handle answers it. -/
def Readable (T : MsgType) (C : Nat) (host : Endian) (U : MsgType) (D : Nat)
    (h h' : IpcHandle) (m : Mem) : Prop :=
  ∀ cfg, Reach (mixedStart T C host U D h h' m) cfg →
    ∀ c : Consumer IpcHandle, cfg.thread .consumer =
        .idle (P := mixedSession T C host U D h .consumer) c → c.handle.isValid →
      cfg.state.taken.length < cfg.state.committed.length → ∀ v,
        ((peekRead U D host c.handle v).run (Shared.exec (params T C).layout {})
          cfg.state).1 ≠ none

section Readable

variable {shm shm' : SharedMemoryRegion} {data data' : Ptr} {m : Mem}

theorem readable_of_alike (h : SameSlots T C U D) (hmsg : T.Alike U)
    (hsize : T.size < 2 ^ 32) (hL : (params T C).layout.Sane) (hoff : data.off = 0)
    (hpage : 4096 ∣ data.base) (hoff' : data'.off = 0) (hpage' : 4096 ∣ data'.base)
    (hhead : m.word IpcRingHeader.headOff = 0) (htail : m.word IpcRingHeader.tailOff = 0) :
    Readable T C host U D (.attach shm data true) (.attach shm' data' false) m := by
  intro cfg hreach c hc hvalid hlt v
  have hT : (params T C).layout.Takes T := layout_takes h.align hsize
  obtain ⟨hinv, -, hconsumer⟩ := session_reach hL hT (producer_sound hL hT hoff hpage)
    (h.reader_sound hmsg hsize hL) hhead htail (IpcHandle.Held.attach hoff' hpage') hreach
  obtain ⟨R, hR⟩ := IpcHandle.ring_of_valid (params T C) hvalid
  obtain ⟨base, hbase, heq⟩ := (hconsumer c hc).held R hR
  subst heq
  simp only [peekRead, h.ring, hR]
  rw [peekRead_alike hmsg hT (h.takes hsize) hbase]
  intro hnone
  have hpeek := Env.wp_alone
    (wp_peekRead (l := {}) (s := cfg.state) hL (takes_only hT) only_id hbase rfl v) hinv
  obtain ⟨V, payload, hf⟩ := Shared.exists_front hlt
  have hV : V = T := hinv.typed _ (List.mem_of_getElem? hf)
  subst hV
  exact hpeek.2.2.2 hnone payload hf

theorem first_push (hT : (params T C).layout.Takes T) (hL : (params T C).layout.Sane)
    (hoff : data.off = 0) (hpage : 4096 ∣ data.base) (h' : IpcHandle)
    (hhead : m.word IpcRingHeader.headOff = 0) (htail : m.word IpcRingHeader.tailOff = 0) :
    ∃ s payload, s.Inv (params T C).layout host (· = T) false ∧ s.Front T payload ∧
      ∃ p : Producer, Reach (mixedStart T C host U D (.attach shm data true) h' m)
        ⟨s, parties.idle p { handle := h' }⟩ := by
  let value := List.replicate T.size (0 : UInt8)
  let s₀ : Shared := { byte := m.byte, word := m.word }
  have hinv : s₀.Inv (params T C).layout host (· = T) false := .empty hhead htail
  have hroom : s₀.Room (params T C).layout := by
    show 0 < 0 + (params T C).layout.capacity
    rw [Nat.zero_add]
    exact hL.capacity_pos
  have hring := IpcHandle.attach_ring (params T C) shm hoff true
  obtain ⟨-, hinv₁, hcom, htaken⟩ := push_alone hL (takes_only hT)
    (Nat.dvd_trans (by decide) hpage) rfl value List.length_replicate hinv hroom false {}
  have call : ProducerCall (producerOps T C host (.attach shm data true)) (· = T) {}
      { writes := some T } _ := .push {} T value false rfl List.length_replicate
  have hreach : Reach (mixedStart T C host U D (.attach shm data true) h' m) _ :=
    Reach.producer_call call
  have heq : (producerOps T C host (.attach shm data true)).push T value false =
      ((params T C).layout.at data.base).push host T value false := by
    simp only [producerOps, push, hring]
  rw [Prog.run_bind, heq] at hreach
  refine ⟨_, value, hinv₁, ?_, _, hreach⟩
  show _[List.length _]? = _
  rw [hcom, htaken]
  rfl

/-- The first message sent tells whether the two agree. -/
theorem alike_of_readable (h : SameSlots T C U D) (hsize : T.size < 2 ^ 32)
    (hL : (params T C).layout.Sane) (hoff : data.off = 0) (hpage : 4096 ∣ data.base)
    (hoff' : data'.off = 0) (hpage' : 4096 ∣ data'.base)
    (hhead : m.word IpcRingHeader.headOff = 0) (htail : m.word IpcRingHeader.tailOff = 0)
    (hread : Readable T C host U D (.attach shm data true) (.attach shm' data' false) m) :
    T.Alike U := by
  have hT : (params T C).layout.Takes T := layout_takes h.align hsize
  obtain ⟨s, payload, hinv, hf, p, hreach⟩ :=
    first_push hT hL hoff hpage (.attach shm' data' false) hhead htail
  have hpeek := hread _ hreach _ rfl rfl hf.lt false
  have hring := IpcHandle.attach_ring (params T C) shm' hoff' false
  simp only [peekRead, h.ring, hring] at hpeek
  have htells := Env.wp_alone (wp_peek_tells (l := {}) (s := s) (v := false) hL
    (takes_only hT) (Nat.dvd_trans (by decide) hpage') (h.takes hsize)) hinv
  obtain ⟨hsame, hid, hversion⟩ := htells.2 hpeek T payload hf
  exact ⟨hsame, hid, hversion⟩

end Readable

end IpcRingBuffer

/-! ## Any two instantiations -/

namespace RingKind

/-- Capacities that are powers of two and fit the header, and messages whose
size does and whose alignment the slots provide. -/
def WF : RingKind → Prop
  | .ipcRing T Capacity => T.size < 2 ^ 32 ∧ T.align ≤ 16 ∧ (∃ j, Capacity = 2 ^ j) ∧
      Capacity < 2 ^ 32
  | .envelope _ Capacity => (∃ j, Capacity = 2 ^ j) ∧ Capacity < 2 ^ 32

/-- What a consumer that attached may expect of the ring it attached to. -/
def AttachSound (host : Endian) : RingKind → RingKind → IpcHandle → IpcHandle → Mem → Prop
  | .ipcRing T C, .ipcRing U D, h, h', m => C = D ∧
      IpcRingBuffer.kSlotSize T = IpcRingBuffer.kSlotSize U ∧
      IpcRingBuffer.Readable T C host U D h h' m
  | .envelope M C, .envelope N D, _, _, _ => C = D ∧
      IpcEnvelopeRingBuffer.kSlotSize M = IpcEnvelopeRingBuffer.kSlotSize N
  | _, _, _, _, _ => False

/-- The message types agree on what `open` does not compare, and the size of a
payload is not cut. -/
def Identified : RingKind → RingKind → Prop
  | .ipcRing T _, .ipcRing U _ => T.id = U.id ∧ T.version = U.version
  | .envelope M _, .envelope _ _ => M < 2 ^ 32
  | _, _ => True

variable {host : Endian} {A B : RingKind}

theorem capacity_eq {C D : Nat} (hC : C < 2 ^ 32) (h : C % 2 ^ 32 = D) : C = D := by
  rwa [Nat.mod_eq_of_lt hC] at h

/-- Two buses that take each other's header have one stride unless the size of a
payload was cut. -/
theorem envelope_stride_iff {M N C D : Nat}
    (h : (IpcEnvelopeRingBuffer.params M C).Compatible (IpcEnvelopeRingBuffer.params N D)) :
    IpcEnvelopeRingBuffer.kSlotSize M = IpcEnvelopeRingBuffer.kSlotSize N ↔ M < 2 ^ 32 := by
  have hpayloadLen : M % 2 ^ 32 = N := h.payloadLen
  have hslotSize : IpcEnvelopeRingBuffer.kSlotSize M % 2 ^ 32 =
      IpcEnvelopeRingBuffer.kSlotSize N := h.slotSize
  have hle : Header.size + M ≤ IpcEnvelopeRingBuffer.kSlotSize M := le_roundUp _ (by decide)
  constructor
  · intro heq
    have hlt := Nat.mod_lt (IpcEnvelopeRingBuffer.kSlotSize M) (show 0 < 2 ^ 32 by decide)
    omega
  · intro hlt
    rw [Nat.mod_eq_of_lt hlt] at hpayloadLen
    rw [hpayloadLen]

theorem sound_iff_of_compatible (hA : A.WF) (hB : B.WF) (h : A.params.Compatible B.params)
    {shm shm' : SharedMemoryRegion} {data data' : Ptr} {m : Mem}
    (hoff : data.off = 0) (hpage : 4096 ∣ data.base) (hoff' : data'.off = 0)
    (hpage' : 4096 ∣ data'.base) (hhead : m.word IpcRingHeader.headOff = 0)
    (htail : m.word IpcRingHeader.tailOff = 0) :
    AttachSound host A B (.attach shm data true) (.attach shm' data' false) m ↔
      Identified A B := by
  cases A with
  | ipcRing T C =>
      cases B with
      | envelope N D =>
          have hmagic : IpcRingBuffer.magic = IpcEnvelopeRingBuffer.magic := h.magic
          exact absurd hmagic (by decide)
      | ipcRing U D =>
          obtain ⟨hsize, halign, hpow, hC⟩ := hA
          have hcapacity : C = D := capacity_eq hC h.capacity
          have hslots : IpcRingBuffer.SameSlots T C U D :=
            ⟨(capacity_eq hsize h.payloadLen).symm, hcapacity.symm, halign, hB.2.1⟩
          have hL : (IpcRingBuffer.params T C).layout.Sane :=
            IpcRingBuffer.layout_sane hpow hC
          constructor
          · intro ⟨_, _, hread⟩
            have hmsg := IpcRingBuffer.alike_of_readable hslots hsize hL hoff hpage hoff'
              hpage' hhead htail hread
            exact ⟨hmsg.id.symm, hmsg.version.symm⟩
          · intro ⟨hid, hversion⟩
            exact ⟨hcapacity, hslots.slotSize.symm,
              IpcRingBuffer.readable_of_alike hslots ⟨hslots.size, hid.symm, hversion.symm⟩
                hsize hL hoff hpage hoff' hpage' hhead htail⟩
  | envelope M C =>
      cases B with
      | ipcRing U D =>
          have hmagic : IpcEnvelopeRingBuffer.magic = IpcRingBuffer.magic := h.magic
          exact absurd hmagic (by decide)
      | envelope N D =>
          have hcapacity : C = D := capacity_eq hA.2 h.capacity
          exact (and_iff_right hcapacity).trans (envelope_stride_iff h)

/-- **Attach soundness.** A segment that one instantiation has created, and
another has opened with the header as it was written: the two agree, and every
message can be read, exactly if they are identified. -/
theorem attach_sound_iff (host : Endian) (A B : RingKind) (hA : A.WF) (hB : B.WF)
    (name : Name) {k k₁ k₂ k₃ : Kernel} {pid pid' seg : Nat} {h h' : IpcHandle}
    (hcreate : (IpcHandle.create A.params host name).run (Kernel.machine pid) k = (h, k₁))
    (hvalid : h.isValid) (hseg : k₁.names (osName name) = some seg)
    (hname : k₂.names (osName name) = some seg)
    (hheader : ∀ a < IpcRingHeader.headOff,
      (k₂.segments seg).byte a = (k₁.segments seg).byte a)
    (hopen : (IpcHandle.openHandle B.params host name).run (Kernel.machine pid') k₂ = (h', k₃))
    (hvalid' : h'.isValid) :
    AttachSound host A B h h' (k₁.mem seg) ↔ Identified A B := by
  rcases IpcHandle.create_cases k pid name A.params host with
    ⟨k', hrun, -⟩ | ⟨p, fd, seg₁, k', hrun, hmapped, hname₁, byte, word, hmem⟩
  · obtain ⟨heq, -⟩ := Prod.mk.inj (hcreate.symm.trans hrun)
    rw [heq] at hvalid
    cases hvalid
  rcases IpcHandle.openHandle_cases k₂ pid' name B.params host with
    ⟨k', hrun', -⟩ | ⟨p', fd', seg₂, k', hrun', hmapped', hname₂, hmatches⟩
  · obtain ⟨heq, -⟩ := Prod.mk.inj (hopen.symm.trans hrun')
    rw [heq] at hvalid'
    cases hvalid'
  obtain ⟨rfl, rfl⟩ := Prod.mk.inj (hcreate.symm.trans hrun)
  obtain ⟨rfl, rfl⟩ := Prod.mk.inj (hopen.symm.trans hrun')
  obtain rfl : seg = seg₁ := Option.some.inj (hseg.symm.trans hname₁)
  obtain rfl : seg = seg₂ := Option.some.inj (hname.symm.trans hname₂)
  obtain ⟨page, -, hdata⟩ := hmapped.data
  obtain ⟨page', -, hdata'⟩ := hmapped'.data
  obtain rfl := Option.some.inj hdata
  obtain rfl := Option.some.inj hdata'
  have hcompatible : A.params.Compatible B.params := by
    have hoff : (⟨page' * pageSize, 0⟩ : Ptr).off = (⟨page * pageSize, 0⟩ : Ptr).off := rfl
    have hbytes : ∀ a < IpcRingHeader.headOff, (k₂.segments seg).byte (0 + a) =
        ((IpcHandle.initHeader A.params host ⟨page * pageSize, 0⟩).run Mem.machine
          ⟨byte, word, []⟩).2.byte (0 + a) := by
      intro a ha
      rw [← hmem, Nat.zero_add]
      exact hheader a ha
    exact IpcParams.Compatible.of_matches hoff hbytes hmatches
  have hword : ((IpcHandle.initHeader A.params host ⟨page * pageSize, 0⟩).run Mem.machine
      ⟨byte, word, []⟩).2.word = _ := run_initHeader_word A.params host rfl _
  refine sound_iff_of_compatible hA hB hcompatible rfl (Nat.dvd_mul_left _ _) rfl
    (Nat.dvd_mul_left _ _) ?_ ?_
  · rw [hmem, hword]
    rfl
  · rw [hmem, hword]
    rfl

theorem attach_sound_iff_ping :
    let made := (IpcHandle.create (IpcRingBuffer.params pingMsg 2) .little [0x61]).run
      (Kernel.machine 1) .obliging
    let opened := (IpcHandle.openHandle (IpcRingBuffer.params pingMsg 2) .little
      [0x61]).run (Kernel.machine 2) made.2
    AttachSound .little (.ipcRing pingMsg 2) (.ipcRing pingMsg 2) made.1 opened.1
      (made.2.mem 0) := by
  intro made opened
  have hWF : (RingKind.ipcRing pingMsg 2).WF := ⟨by decide, by decide, ⟨1, rfl⟩, by decide⟩
  have hmade : (IpcHandle.create (RingKind.ipcRing pingMsg 2).params .little [0x61]).run
      (Kernel.machine 1) .obliging = (made.1, made.2) := (Prod.eta made).symm
  have hopened : (IpcHandle.openHandle (RingKind.ipcRing pingMsg 2).params .little
      [0x61]).run (Kernel.machine 2) made.2 = (opened.1, opened.2) := (Prod.eta opened).symm
  exact (attach_sound_iff .little (.ipcRing pingMsg 2) (.ipcRing pingMsg 2) hWF hWF [0x61]
    hmade (by decide +kernel) (by decide +kernel) (by decide +kernel) (fun _ _ => rfl)
    hopened (by decide +kernel)).mpr ⟨rfl, rfl⟩

/-- A message of the same layout under another id. -/
def pingTwin : MsgType := { pingMsg with id := 2 }

/-- A consumer of the twin attaches to the ring, and never sees a message. -/
theorem attach_unsound_twin :
    let made := (IpcHandle.create (IpcRingBuffer.params pingMsg 2) .little [0x61]).run
      (Kernel.machine 1) .obliging
    let opened := (IpcHandle.openHandle (IpcRingBuffer.params pingTwin 2) .little
      [0x61]).run (Kernel.machine 2) made.2
    made.1.isValid ∧ opened.1.isValid ∧
      ¬ AttachSound .little (.ipcRing pingMsg 2) (.ipcRing pingTwin 2) made.1 opened.1
        (made.2.mem 0) := by
  intro made opened
  have hmade : made.1 = .attach ⟨[0x61], some ⟨0x5000, 0⟩, 256, true, some 3⟩ ⟨0x5000, 0⟩
      true := by decide +kernel
  have hopened : opened.1 = .attach ⟨[0x61], some ⟨0x8000, 0⟩, 256, false, some 6⟩
      ⟨0x8000, 0⟩ false := by decide +kernel
  refine ⟨by rw [hmade]; rfl, by rw [hopened]; rfl, fun ⟨_, _, hread⟩ => ?_⟩
  rw [hmade, hopened] at hread
  have hslots : IpcRingBuffer.SameSlots pingMsg 2 pingTwin 2 :=
    ⟨rfl, rfl, by decide, by decide⟩
  have hhead : (made.2.mem 0).word IpcRingHeader.headOff = 0 := by decide +kernel
  have htail : (made.2.mem 0).word IpcRingHeader.tailOff = 0 := by decide +kernel
  have halike := IpcRingBuffer.alike_of_readable hslots (by decide)
    (IpcRingBuffer.layout_sane ⟨1, rfl⟩ (by decide)) rfl (Nat.dvd_mul_left 4096 5) rfl
    (Nat.dvd_mul_left 4096 8) hhead htail hread
  exact absurd halike.id (by decide)

end RingKind

end Sinew
