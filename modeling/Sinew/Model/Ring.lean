import Sinew.Model.Dispatch
import Sinew.Model.Portable
import Sinew.Model.Shm

/-!
# The rings: `ring_buffer.hpp`, `ipc_ring_buffer.hpp`, `ipc_envelope.hpp`

The three classes run the same cursor protocol on different layouts, so the
protocol is written once, over a `Ring` that says where the counters and the
slots are, and each class's members are that protocol on the class's layout.
Where a class goes its own way (the envelope's `commit_write`, which finds the
length to checksum in the slot, and its consumers) it has a body of its own.

A member function of a handle that is not valid returns before it touches
anything.
-/

namespace Sinew

open Lib

/-! ## The cursor protocol -/

/-- A ring in one process: the width of its counters, its compile-time
constants, and where its counters and slots are. -/
structure Ring where
  w : Nat
  capacity : Nat
  slotSize : Nat
  stride : Nat
  head : Ptr
  tail : Ptr
  slots : Ptr
  deriving DecidableEq, Repr

namespace Ring

/-- `head - tail` in the counters' own arithmetic. -/
def distance (R : Ring) (head tail : Nat) : Nat := (head + 2 ^ R.w - tail) % 2 ^ R.w

/-- The slot of a cursor; `kIndexMask` is `Capacity - 1`. -/
def slot (R : Ring) (cursor : Nat) : Ptr :=
  R.slots.add ((cursor &&& (R.capacity - 1)) * R.stride)

variable (R : Ring) (host : Endian)

def prepareWrite (T : MsgType) : Code (Option Ptr) := do
  let head ← loadWord R.head
  let tail ← loadWord R.tail
  if R.distance head tail ≥ R.capacity then
    return none
  prepare host T (some (R.slot head)) R.slotSize

def commitWrite (T : MsgType) (computeCrc : Bool) : Code Unit := do
  let head ← loadWord R.head
  let payload := (R.slot head).add Header.size
  let _ ← finalize host T (some payload) computeCrc
  storeWord R.head ((head + 1) % 2 ^ R.w)

/-- `push`, given the class's own `commit_write`. -/
def pushWith (commitWrite : Code Unit) (T : MsgType) (value : List UInt8) :
    Code Bool := do
  let slot ← R.prepareWrite host T
  match slot with
  | none => return false
  | some slot => do
      storeBytes slot value
      commitWrite
      return true

def push (T : MsgType) (value : List UInt8) (computeCrc : Bool) : Code Bool :=
  R.pushWith host (R.commitWrite host T computeCrc) T value

def peekRead (T : MsgType) (verifyCrc : Bool) : Code (Option Ptr) := do
  let tail ← loadWord R.tail
  let head ← loadWord R.head
  if tail = head then
    return none
  view host T (some (R.slot tail)) R.slotSize verifyCrc

def commitRead : Code Unit := do
  let tail ← loadWord R.tail
  storeWord R.tail ((tail + 1) % 2 ^ R.w)

/-- Answers what `out_value` is set to, if `pop` returns `true`. -/
def pop (T : MsgType) (verifyCrc : Bool) : Code (Option (List UInt8)) := do
  let item ← R.peekRead host T verifyCrc
  match item with
  | none => return none
  | some item => do
      let value ← loadBytes item T.size
      R.commitRead
      return some value

/-- `pop` with `out_value` as an object in the same memory. -/
def popInto (T : MsgType) (outValue : Ptr) (verifyCrc : Bool) : Code Bool := do
  let item ← R.peekRead host T verifyCrc
  match item with
  | none => return false
  | some item => do
      let value ← loadBytes item T.size
      storeBytes outValue value
      R.commitRead
      return true

def consume (T : MsgType) (func : Visitor) (verifyCrc : Bool) :
    Code (Option Bool) := do
  let item ← R.peekRead host T verifyCrc
  match item with
  | none => return some false
  | some item => do
      let outcome ← func T item
      match outcome with
      | .threw => return none
      | .returned => do
          R.commitRead
          return some true

/-! The queries load both counters, one after the other, and write nothing. -/

/-- `size`, given what the class answers where the tail is past the head. -/
def sizeWith (passed : Nat → Nat → Nat) : Code Nat := do
  let head ← loadWord R.head
  let tail ← loadWord R.tail
  return if head ≥ tail then head - tail else passed head tail

def empty : Code Bool := do
  let head ← loadWord R.head
  let tail ← loadWord R.tail
  return head = tail

def full : Code Bool := do
  let head ← loadWord R.head
  let tail ← loadWord R.tail
  return R.distance head tail ≥ R.capacity

end Ring

/-- A ring but for the address it is at. -/
structure Layout where
  w : Nat
  capacity : Nat
  slotSize : Nat
  stride : Nat
  headOff : Nat
  tailOff : Nat
  slotsOff : Nat
  deriving DecidableEq, Repr

/-- The ring at an address. -/
def Layout.at (L : Layout) (base : Nat) : Ring where
  w := L.w
  capacity := L.capacity
  slotSize := L.slotSize
  stride := L.stride
  head := ⟨base, L.headOff⟩
  tail := ⟨base, L.tailOff⟩
  slots := ⟨base, L.slotsOff⟩

/-! ## `SpscRingBuffer<T, Capacity>` -/

namespace SpscRingBuffer

variable (w : Nat) (T : MsgType) (Capacity : Nat)

def kSlotSize : Nat := Header.size + T.size

/-- `alignof(Header)` is 1. -/
def kSlotAlign : Nat := if T.align > 1 then T.align else 1

/-- The members: the two counters on cache lines of their own, and an array of
`Slot`, which is aligned and so padded to `kSlotAlign`. -/
def layout : Layout where
  w := w
  capacity := Capacity
  slotSize := kSlotSize T
  stride := roundUp (kSlotSize T) (kSlotAlign T)
  headOff := 0
  tailOff := 64
  slotsOff := roundUp 128 (max 64 (kSlotAlign T))

/-- `sizeof(SpscRingBuffer<T, Capacity>)`, without its trailing padding. -/
def totalSize : Nat :=
  (layout w T Capacity).slotsOff + Capacity * (layout w T Capacity).stride

variable (host : Endian) (this : Nat)

def prepareWrite : Code (Option Ptr) := ((layout w T Capacity).at this).prepareWrite host T

def commitWrite (computeCrc : Bool) : Code Unit :=
  ((layout w T Capacity).at this).commitWrite host T computeCrc

def push (value : List UInt8) (computeCrc : Bool) : Code Bool :=
  ((layout w T Capacity).at this).push host T value computeCrc

def peekRead (verifyCrc : Bool) : Code (Option Ptr) :=
  ((layout w T Capacity).at this).peekRead host T verifyCrc

def commitRead : Code Unit := ((layout w T Capacity).at this).commitRead

def pop (verifyCrc : Bool) : Code (Option (List UInt8)) :=
  ((layout w T Capacity).at this).pop host T verifyCrc

def popInto (outValue : Ptr) (verifyCrc : Bool) : Code Bool :=
  ((layout w T Capacity).at this).popInto host T outValue verifyCrc

def consume (func : Visitor) (verifyCrc : Bool) : Code (Option Bool) :=
  ((layout w T Capacity).at this).consume host T func verifyCrc

/-- `Capacity + head - tail` in `size_t`, where the tail is past the head. -/
def size : Code Nat :=
  ((layout w T Capacity).at this).sizeWith fun head tail =>
    (Capacity + head + 2 ^ w - tail) % 2 ^ w

def empty : Code Bool := ((layout w T Capacity).at this).empty

def full : Code Bool := ((layout w T Capacity).at this).full

end SpscRingBuffer

/-! ## `IpcRingHeader` and the handles on it -/

namespace IpcRingHeader

/-- `sizeof(IpcRingHeader)`. -/
def size : Nat := 192

def magicOff : Nat := 0

def versionOff : Nat := 4

def capacityOff : Nat := 8

def slotSizeOff : Nat := 12

def payloadLenOff : Nat := 16

def msgIdOff : Nat := 20

def reservedOff : Nat := 22

def headOff : Nat := 64

def tailOff : Nat := 128

end IpcRingHeader

/-- The members of `IpcRingBuffer` and of `IpcEnvelopeRingBuffer`. -/
structure IpcHandle where
  shm : SharedMemoryRegion := {}
  hdr : Option Ptr := none
  slotsBase : Option Ptr := none
  isProducer : Bool := false
  deriving DecidableEq, Repr

/-- What tells two instantiations of the two templates apart in `create` and
`open`. -/
structure IpcParams where
  magic : UInt32
  capacity : Nat
  slotSize : Nat
  payloadLen : Nat
  msgId : UInt16
  deriving DecidableEq, Repr

namespace IpcParams

/-- `kTotalShmSize`. -/
def totalShmSize (P : IpcParams) : Nat :=
  IpcRingHeader.size + P.capacity * P.slotSize

def layout (P : IpcParams) : Layout where
  w := 64
  capacity := P.capacity
  slotSize := P.slotSize
  stride := P.slotSize
  headOff := IpcRingHeader.headOff
  tailOff := IpcRingHeader.tailOff
  slotsOff := IpcRingHeader.size

end IpcParams

namespace IpcHandle

def isValid (h : IpcHandle) : Bool := h.hdr.isSome && h.slotsBase.isSome

/-- The ring a valid handle works on. -/
def ring (h : IpcHandle) (P : IpcParams) : Option Ring :=
  match h.hdr, h.slotsBase with
  | some hdr, some slotsBase => some {
      w := 64
      capacity := P.capacity
      slotSize := P.slotSize
      stride := P.slotSize
      head := hdr.add IpcRingHeader.headOff
      tail := hdr.add IpcRingHeader.tailOff
      slots := slotsBase }
  | _, _ => none

/-- The handle over a mapped region. -/
def attach (shm : SharedMemoryRegion) (data : Ptr) (isProducer : Bool) : IpcHandle where
  shm := shm
  hdr := some data
  slotsBase := some (data.add IpcRingHeader.size)
  isProducer := isProducer

/-- The stores of `create` into a fresh segment. -/
def initHeader (P : IpcParams) (host : Endian) (hdr : Ptr) : Code Unit := do
  store32 host (hdr.add IpcRingHeader.magicOff) P.magic
  store32 host (hdr.add IpcRingHeader.versionOff) 1
  store32 host (hdr.add IpcRingHeader.capacityOff) (UInt32.ofNat P.capacity)
  store32 host (hdr.add IpcRingHeader.slotSizeOff) (UInt32.ofNat P.slotSize)
  store32 host (hdr.add IpcRingHeader.payloadLenOff) (UInt32.ofNat P.payloadLen)
  store16 host (hdr.add IpcRingHeader.msgIdOff) P.msgId
  store16 host (hdr.add IpcRingHeader.reservedOff) 0
  storeWord (hdr.add IpcRingHeader.headOff) 0
  storeWord (hdr.add IpcRingHeader.tailOff) 0

/-- The comparisons of `open`, with C++'s short circuit. -/
def checkHeader (P : IpcParams) (host : Endian) (hdr : Ptr) : Code Bool := do
  let magic ← load32 host (hdr.add IpcRingHeader.magicOff)
  if magic ≠ P.magic then
    return false
  let capacity ← load32 host (hdr.add IpcRingHeader.capacityOff)
  if capacity.toNat ≠ P.capacity then
    return false
  let slotSize ← load32 host (hdr.add IpcRingHeader.slotSizeOff)
  if slotSize.toNat ≠ P.slotSize then
    return false
  let payloadLen ← load32 host (hdr.add IpcRingHeader.payloadLenOff)
  return payloadLen.toNat = P.payloadLen

def create (P : IpcParams) (host : Endian) (name : Name) : Code IpcHandle := do
  let shm ← SharedMemoryRegion.create name P.totalShmSize
  match shm.data with
  | none => return {}
  | some data => do
      initHeader P host data
      return attach shm data true

def openHandle (P : IpcParams) (host : Endian) (name : Name) : Code IpcHandle := do
  let shm ← SharedMemoryRegion.openRegion name P.totalShmSize
  match shm.data with
  | none => return {}
  | some data => do
      let matching ← checkHeader P host data
      if matching then
        return attach shm data false
      else
        let _ ← shm.close
        return {}

/-- The destructor: the defaulted one, which destroys `shm_`. -/
def destroy (h : IpcHandle) : Code Unit := do
  let _ ← h.shm.close

/-- The defaulted move constructor moves member by member: the region knows how
to be moved from, the two pointers and the flag are copied. -/
def moveConstruct (other : IpcHandle) : IpcHandle × IpcHandle :=
  let (shm, rest) := SharedMemoryRegion.moveConstruct other.shm
  ({ other with shm := shm }, { other with shm := rest })

/-- The defaulted move assignment between two different handles. -/
def moveAssign (this other : IpcHandle) : Code (IpcHandle × IpcHandle) := do
  let (shm, rest) ← SharedMemoryRegion.moveAssign this.shm other.shm
  return ({ other with shm := shm }, { other with shm := rest })

/-! The queries of the two classes. -/

/-- Zero where the tail is past the head. -/
def size (h : IpcHandle) (P : IpcParams) : Code Nat :=
  match h.ring P with
  | none => return 0
  | some R => R.sizeWith fun _ _ => 0

def empty (h : IpcHandle) (P : IpcParams) : Code Bool :=
  match h.ring P with
  | none => return true
  | some R => R.empty

def full (h : IpcHandle) (P : IpcParams) : Code Bool :=
  match h.ring P with
  | none => return true
  | some R => R.full

end IpcHandle

/-! ## `IpcRingBuffer<T, Capacity>` -/

namespace IpcRingBuffer

variable (T : MsgType) (Capacity : Nat)

/-- `IPC_RING_MAGIC`. -/
def magic : UInt32 := 0x524D4853

def kSlotAlign : Nat := if T.align > 16 then T.align else 16

def kSlotSize : Nat := roundUp (Header.size + T.size) (kSlotAlign T)

def params : IpcParams where
  magic := magic
  capacity := Capacity
  slotSize := kSlotSize T
  payloadLen := T.size
  msgId := T.id

variable (host : Endian)

def create (name : Name) : Code IpcHandle := IpcHandle.create (params T Capacity) host name

def openRing (name : Name) : Code IpcHandle :=
  IpcHandle.openHandle (params T Capacity) host name

variable (h : IpcHandle)

def prepareWrite : Code (Option Ptr) :=
  match h.ring (params T Capacity) with
  | none => return none
  | some R => R.prepareWrite host T

def commitWrite (computeCrc : Bool) : Code Unit :=
  match h.ring (params T Capacity) with
  | none => return ()
  | some R => R.commitWrite host T computeCrc

/-- `prepare_write` has answered null where the handle is not valid. -/
def push (value : List UInt8) (computeCrc : Bool) : Code Bool :=
  match h.ring (params T Capacity) with
  | none => return false
  | some R => R.push host T value computeCrc

def peekRead (verifyCrc : Bool) : Code (Option Ptr) :=
  match h.ring (params T Capacity) with
  | none => return none
  | some R => R.peekRead host T verifyCrc

def commitRead : Code Unit :=
  match h.ring (params T Capacity) with
  | none => return ()
  | some R => R.commitRead

def pop (verifyCrc : Bool) : Code (Option (List UInt8)) :=
  match h.ring (params T Capacity) with
  | none => return none
  | some R => R.pop host T verifyCrc

def popInto (outValue : Ptr) (verifyCrc : Bool) : Code Bool :=
  match h.ring (params T Capacity) with
  | none => return false
  | some R => R.popInto host T outValue verifyCrc

def consume (func : Visitor) (verifyCrc : Bool) : Code (Option Bool) :=
  match h.ring (params T Capacity) with
  | none => return some false
  | some R => R.consume host T func verifyCrc

def size : Code Nat := h.size (params T Capacity)

def empty : Code Bool := h.empty (params T Capacity)

def full : Code Bool := h.full (params T Capacity)

end IpcRingBuffer

/-! ## `IpcEnvelopeRingBuffer<MaxPayloadSize, Capacity>` -/

namespace IpcEnvelopeRingBuffer

variable (MaxPayloadSize Capacity : Nat)

/-- `IPC_ENVELOPE_MAGIC`. -/
def magic : UInt32 := 0x45564D53

def kSlotSize : Nat := roundUp (Header.size + MaxPayloadSize) 64

def params : IpcParams where
  magic := magic
  capacity := Capacity
  slotSize := kSlotSize MaxPayloadSize
  payloadLen := MaxPayloadSize
  msgId := 0

variable (host : Endian)

def create (name : Name) : Code IpcHandle :=
  IpcHandle.create (params MaxPayloadSize Capacity) host name

def openRing (name : Name) : Code IpcHandle :=
  IpcHandle.openHandle (params MaxPayloadSize Capacity) host name

/-- The checksum store of `commit_write`: the length is read back from the slot. -/
def storeCrc (hdr : Ptr) (computeCrc : Bool) : Code Unit := do
  if computeCrc then
    let payloadLen ← load32 host (hdr.add Header.payloadLenOff)
    if payloadLen > 0 then
      let payloadLen ← load32 host (hdr.add Header.payloadLenOff)
      let crc ← crc32At (hdr.add Header.size) payloadLen.toNat
      store32 host (hdr.add Header.crcOff) crc
    else
      store32 host (hdr.add Header.crcOff) 0
  else
    store32 host (hdr.add Header.crcOff) 0

/-- `commit_write` on the ring of a valid handle. -/
def commitWriteAt (R : Ring) (computeCrc : Bool) : Code Unit := do
  let head ← loadWord R.head
  storeCrc host (R.slot head) computeCrc
  storeWord R.head ((head + 1) % 2 ^ R.w)

/-- `crc32(pv.payload, pv.payload_len)`, which is zero for a null payload. -/
def crc32OfView (pv : PacketView) : Code UInt32 :=
  match pv.payload with
  | none => return 0
  | some payload => crc32At payload pv.payloadLen

/-- `dispatch` on the ring of a valid handle. -/
def dispatchAt (R : Ring) (msgTypes : List MsgType) (visitor : Visitor)
    (verifyCrc : Bool) : Code (Option Bool) := do
  let tail ← loadWord R.tail
  let head ← loadWord R.head
  if tail = head then
    return some false
  Sinew.dispatch host msgTypes (some (R.slot tail)) R.slotSize visitor verifyCrc

/-- What `peek_packet` makes of the slot it has found. -/
def packetAt (slot : Ptr) (slotSize : Nat) (verifyCrc : Bool) : Code PacketView := do
  let (err, pv) ← inspectPacket host (some slot) slotSize {}
  if err ≠ .ok then
    return {}
  if verifyCrc ∧ pv.header.crc ≠ 0 then
    let computed ← crc32OfView pv
    if computed ≠ pv.header.crc then
      return {}
  return pv

/-- `peek_packet` on the ring of a valid handle. -/
def peekPacketAt (R : Ring) (verifyCrc : Bool) : Code PacketView := do
  let tail ← loadWord R.tail
  let head ← loadWord R.head
  if tail = head then
    return {}
  packetAt host (R.slot tail) R.slotSize verifyCrc

variable (h : IpcHandle)

def prepareWrite (Msg : MsgType) : Code (Option Ptr) :=
  match h.ring (params MaxPayloadSize Capacity) with
  | none => return none
  | some R => R.prepareWrite host Msg

def commitWrite (computeCrc : Bool) : Code Unit :=
  match h.ring (params MaxPayloadSize Capacity) with
  | none => return ()
  | some R => commitWriteAt host R computeCrc

def push (Msg : MsgType) (value : List UInt8) (computeCrc : Bool) : Code Bool :=
  match h.ring (params MaxPayloadSize Capacity) with
  | none => return false
  | some R => R.pushWith host (commitWriteAt host R computeCrc) Msg value

def peekPacket (verifyCrc : Bool) : Code PacketView :=
  match h.ring (params MaxPayloadSize Capacity) with
  | none => return {}
  | some R => peekPacketAt host R verifyCrc

def peekMsg (Msg : MsgType) (verifyCrc : Bool) : Code (Option Ptr) :=
  match h.ring (params MaxPayloadSize Capacity) with
  | none => return none
  | some R => R.peekRead host Msg verifyCrc

def commitRead : Code Unit :=
  match h.ring (params MaxPayloadSize Capacity) with
  | none => return ()
  | some R => R.commitRead

def dispatch (msgTypes : List MsgType) (visitor : Visitor) (verifyCrc : Bool) :
    Code (Option Bool) :=
  match h.ring (params MaxPayloadSize Capacity) with
  | none => return some false
  | some R => dispatchAt host R msgTypes visitor verifyCrc

def dispatchAndCommit (msgTypes : List MsgType) (visitor : Visitor)
    (verifyCrc : Bool) : Code (Option Bool) := do
  let dispatched ← dispatch MaxPayloadSize Capacity host h msgTypes visitor verifyCrc
  if dispatched = some true then
    commitRead MaxPayloadSize Capacity h
    return some true
  return dispatched

def consume (Msg : MsgType) (func : Visitor) (verifyCrc : Bool) :
    Code (Option Bool) :=
  match h.ring (params MaxPayloadSize Capacity) with
  | none => return some false
  | some R => R.consume host Msg func verifyCrc

def size : Code Nat := h.size (params MaxPayloadSize Capacity)

def empty : Code Bool := h.empty (params MaxPayloadSize Capacity)

def full : Code Bool := h.full (params MaxPayloadSize Capacity)

end IpcEnvelopeRingBuffer

end Sinew
