import Sinew.Lib.Rely
import Sinew.Model.Ring

/-!
# A producer and a consumer on one ring

The shared state is the segment: its bytes, its counters, and three histories
that no program reads. `committed` grows when `head` is stored, by the payload
that is in the slot at that moment; `taken` grows when `tail` is stored, by the
slot as it is at that moment; `seen` grows when a callback is handed a message,
by what it was handed and how many messages had been taken before.

The clients are as free as the headers let them be. A producer prepares,
writes payload bytes through the pointer it was given, commits, pushes, or
prepares again without committing. A consumer peeks, reads the payload through
the pointer as often as it likes, commits, pops, consumes, and where it holds a
handle drops it and attaches again. Each client remembers what it has sent or
read.
-/

namespace Sinew

open Lib

structure Shared where
  byte : Nat → UInt8
  word : Nat → Nat
  committed : List (MsgType × List UInt8) := []
  taken : List (List UInt8) := []
  seen : List (Nat × MsgType × List UInt8) := []

/-- The kernel's answers to the system calls of one call. A mapping begins at
the start of the segment and of a page. -/
structure OsAnswers where
  shmOpen : Option Nat := none
  ftruncate : Bool := false
  fstat : Option Int := none
  mmap : Option Ptr := none
  paged : ∀ p, mmap = some p → p.off = 0 ∧ 4096 ∣ p.base := by simp

theorem OsAnswers.paged_none : ∀ p : Ptr, none = some p → p.off = 0 ∧ 4096 ∣ p.base := by simp

/-- What the segment's histories need to know of a call: the type being
written, if it writes one, and what the kernel will answer. -/
structure Label where
  writes : Option MsgType := none
  os : OsAnswers := { paged := OsAnswers.paged_none }

namespace Shared

/-- The cell where the slot of a cursor begins. -/
def slotAt (L : Layout) (cursor : Nat) : Nat := ((L.at 0).slot cursor).off

/-- A store to a counter, with the history it makes. -/
def storeWord (L : Layout) (writes : Option MsgType) (s : Shared) (a v : Nat) : Shared :=
  let s' := { s with word := Function.update s.word a v }
  if a = L.headOff then
    match writes with
    | some T => { s' with committed := s.committed ++
        [(T, slice s.byte (slotAt L (s.word L.headOff) + Header.size) T.size)] }
    | none => s'
  else if a = L.tailOff then
    { s' with taken := s.taken ++
        [slice s.byte (slotAt L (s.word L.tailOff)) L.slotSize] }
  else s'

def exec (L : Layout) (l : Label) (s : Shared) : (e : Ev) → Ev.Res e × Shared
  | .load p => (s.byte p.off, s)
  | .store p b => ((), { s with byte := Function.update s.byte p.off b })
  | .loadWord p => (s.word p.off, s)
  | .storeWord p v => ((), s.storeWord L l.writes p.off v)
  | .visit T bytes => ((), { s with seen := s.seen ++ [(s.taken.length, T, bytes)] })
  | .shmOpen _ _ => (l.os.shmOpen, s)
  | .ftruncate _ _ => (l.os.ftruncate, s)
  | .fstat _ => (l.os.fstat, s)
  | .mmap _ _ => (l.os.mmap, s)
  | .munmap _ _ => ((), s)
  | .closeFd _ => ((), s)
  | .shmUnlink _ => ((), s)

end Shared

/-- A prepared slot and what its payload has been made so far. -/
structure Draft where
  T : MsgType
  payload : Ptr
  bytes : List UInt8

/-- What a producer remembers: the messages it has sent, and its draft. -/
structure Producer where
  sent : List (MsgType × List UInt8) := []
  draft : Option Draft := none

/-- A ring's producer functions. -/
structure ProducerOps where
  prepareWrite : MsgType → Code (Option Ptr)
  commitWrite : MsgType → Bool → Code Unit
  push : MsgType → List UInt8 → Bool → Code Bool

/-- The calls of a producer of the types `types`. -/
inductive ProducerCall (ops : ProducerOps) (types : MsgType → Prop) :
    Producer → Label → Code Producer → Prop where
  | prepareWrite (c : Producer) (T : MsgType) : types T →
      ProducerCall ops types c { writes := some T } do
        let payload ← ops.prepareWrite T
        return { c with draft := payload.map fun p => ⟨T, p, T.fresh⟩ }
  | writeByte (c : Producer) (d : Draft) (i : Nat) (b : UInt8) :
      c.draft = some d → i < d.T.size →
      ProducerCall ops types c {} do
        store (d.payload.add i) b
        return { c with draft := some { d with bytes := d.bytes.set i b } }
  | commitWrite (c : Producer) (d : Draft) (computeCrc : Bool) : c.draft = some d →
      ProducerCall ops types c { writes := some d.T } do
        ops.commitWrite d.T computeCrc
        return { sent := c.sent ++ [(d.T, d.bytes)] }
  | push (c : Producer) (T : MsgType) (value : List UInt8) (computeCrc : Bool) :
      types T → value.length = T.size →
      ProducerCall ops types c { writes := some T } do
        let pushed ← ops.push T value computeCrc
        return { sent := if pushed then c.sent ++ [(T, value)] else c.sent }

/-- What a consumer remembers: its handle, how many messages it has taken, what
it has read of which message, and the slot it has peeked at. -/
structure Consumer (H : Type) where
  handle : H
  count : Nat := 0
  log : List (Nat × MsgType × List UInt8) := []
  slot : Option (MsgType × Ptr) := none

/-- A ring's consumer functions, and the ways to come by another handle. -/
structure ConsumerOps (H : Type) where
  peekRead : H → MsgType → Bool → Code (Option Ptr)
  commitRead : H → Code Unit
  pop : H → MsgType → Bool → Code (Option (List UInt8))
  consume : H → MsgType → Visitor → Bool → Code (Option Bool)
  rehandle : H → Code H → Prop

/-- The calls of a consumer of the types `types`. -/
inductive ConsumerCall {H : Type} (ops : ConsumerOps H) (types : MsgType → Prop) :
    Consumer H → Label → Code (Consumer H) → Prop where
  | peekRead (c : Consumer H) (T : MsgType) (verifyCrc : Bool) : types T →
      ConsumerCall ops types c {} do
        let payload ← ops.peekRead c.handle T verifyCrc
        return { c with slot := payload.map (T, ·) }
  | read (c : Consumer H) (T : MsgType) (payload : Ptr) : c.slot = some (T, payload) →
      ConsumerCall ops types c {} do
        let bytes ← loadBytes payload T.size
        return { c with log := c.log ++ [(c.count, T, bytes)] }
  | commitRead (c : Consumer H) (x : MsgType × Ptr) : c.slot = some x →
      ConsumerCall ops types c {} do
        ops.commitRead c.handle
        return { c with count := c.count + 1, slot := none }
  | pop (c : Consumer H) (T : MsgType) (verifyCrc : Bool) : types T →
      ConsumerCall ops types c {} do
        let value ← ops.pop c.handle T verifyCrc
        return match value with
          | none => { c with slot := none }
          | some bytes => { c with
              count := c.count + 1, log := c.log ++ [(c.count, T, bytes)], slot := none }
  | consume (c : Consumer H) (T : MsgType) (verifyCrc : Bool) : types T →
      ConsumerCall ops types c {} do
        let consumed ← ops.consume c.handle T record verifyCrc
        return { c with
          count := if consumed = some true then c.count + 1 else c.count, slot := none }
  | rehandle (c : Consumer H) (os : OsAnswers) (get : Code H) : ops.rehandle c.handle get →
      ConsumerCall ops types c { os := os } do
        let handle ← get
        return { c with handle := handle, slot := none }

inductive Side where
  | producer
  | consumer
  deriving DecidableEq

/-- The parties of a session, given their calls. -/
def parties (L : Layout) {C : Type} (produce : Producer → Label → Code Producer → Prop)
    (consume : C → Label → Code C → Prop) : Side → Party sys Shared
  | .producer => ⟨Producer, Label, produce, Shared.exec L⟩
  | .consumer => ⟨C, Label, consume, Shared.exec L⟩

/-- Both between calls. -/
def parties.idle {L : Layout} {C : Type}
    {produce : Producer → Label → Code Producer → Prop}
    {consume : C → Label → Code C → Prop} (p : Producer) (c : C) :
    ∀ i, Thread (parties L produce consume i)
  | .producer => .idle (P := parties L produce consume .producer) p
  | .consumer => .idle (P := parties L produce consume .consumer) c

/-! ## The rings as sessions -/

namespace SpscRingBuffer

variable (w : Nat) (T : MsgType) (Capacity : Nat) (host : Endian) (this : Nat)

/-- The producer functions of the class; `T` is the class's. -/
def producerOps : ProducerOps where
  prepareWrite _ := prepareWrite w T Capacity host this
  commitWrite _ := commitWrite w T Capacity host this
  push _ := push w T Capacity host this

/-- There is no handle: the two threads share the object. -/
def consumerOps : ConsumerOps Unit where
  peekRead _ _ := peekRead w T Capacity host this
  commitRead _ := commitRead w T Capacity this
  pop _ _ := pop w T Capacity host this
  consume _ _ := consume w T Capacity host this
  rehandle _ _ := False

/-- One producer and one consumer of an `SpscRingBuffer<T, Capacity>` at `this`. -/
abbrev session : Side → Party sys Shared :=
  parties (layout w T Capacity)
    (ProducerCall (producerOps w T Capacity host this) (· = T))
    (ConsumerCall (consumerOps w T Capacity host this) (· = T))

/-- The constructor has stored the two counters; the slots are not initialised. -/
def start (byte : Nat → UInt8) : Config (session w T Capacity host this) where
  state := { byte := byte, word := fun _ => 0 }
  thread := parties.idle {} { handle := () }

end SpscRingBuffer

namespace IpcRingBuffer

variable (T : MsgType) (Capacity : Nat) (host : Endian)

/-- The producer functions on a handle. -/
def producerOps (h : IpcHandle) : ProducerOps where
  prepareWrite _ := prepareWrite T Capacity host h
  commitWrite _ := commitWrite T Capacity host h
  push _ := push T Capacity host h

/-- A consumer drops its handle, or assigns a newly opened one to it. -/
inductive Rehandle : IpcHandle → Code IpcHandle → Prop where
  | drop (h : IpcHandle) : Rehandle h do
      h.destroy
      return {}
  | openAgain (h : IpcHandle) (name : Name) : Rehandle h do
      let opened ← openRing T Capacity host name
      let (h, rest) ← h.moveAssign opened
      rest.destroy
      return h

def consumerOps : ConsumerOps IpcHandle where
  peekRead h _ := peekRead T Capacity host h
  commitRead h := commitRead T Capacity h
  pop h _ := pop T Capacity host h
  consume h _ := consume T Capacity host h
  rehandle := Rehandle T Capacity host

/-- One producer that holds the handle `h` and one consumer. -/
abbrev session (h : IpcHandle) : Side → Party sys Shared :=
  parties (params T Capacity).layout
    (ProducerCall (producerOps T Capacity host h) (· = T))
    (ConsumerCall (consumerOps T Capacity host) (· = T))

/-- After `create`, in a segment that held `byte` before: the producer has its
handle, and the consumer has not attached yet. -/
def start (shm : SharedMemoryRegion) (data : Ptr) (byte : Nat → UInt8) :
    Config (session T Capacity host (.attach shm data true)) where
  state :=
    let m := ((IpcHandle.initHeader (params T Capacity) host data).run Mem.machine
      ⟨byte, fun _ => 0, []⟩).2
    { byte := m.byte, word := m.word }
  thread := parties.idle {} { handle := {} }

/-- The consumer functions of an `IpcRingBuffer<U, D>` on a ring that carries
messages of type `T`. What its callbacks are handed is remembered under the type
it was sent as. -/
def readerOps (U : MsgType) (D : Nat) : ConsumerOps IpcHandle :=
  { consumerOps U D host with
    consume := fun h _ func => consume U D host h fun _ item => func T item }

/-- A producer of one instantiation, with the handle `h`, and a consumer of
another. -/
abbrev mixedSession (U : MsgType) (D : Nat) (h : IpcHandle) : Side → Party sys Shared :=
  parties (params T Capacity).layout
    (ProducerCall (producerOps T Capacity host h) (· = T))
    (ConsumerCall (readerOps T host U D) (· = T))

/-- The two of them over a segment that holds `m`. -/
def mixedStart (U : MsgType) (D : Nat) (h h' : IpcHandle) (m : Mem) :
    Config (mixedSession T Capacity host U D h) where
  state := { byte := m.byte, word := m.word }
  thread := parties.idle {} { handle := h' }

end IpcRingBuffer

/-! ## The bus as a session -/

/-- An event that loads a byte. -/
def Ev.IsLoad : Ev → Prop
  | .load _ => True
  | _ => False

/-- A callback that only reads. -/
def Visitor.OnlyReads (visitor : Visitor) : Prop :=
  ∀ T msg, (visitor T msg).Always Ev.IsLoad (fun _ _ => True) fun _ => True

/-- One answered call of a bus consumer: which message was next, the types the
call named, and what it returned. -/
structure BusAnswer where
  next : Nat
  msgTypes : List MsgType
  returned : Option Bool

/-- What a bus consumer remembers: how many calls took a message, and them all. -/
structure BusConsumer where
  count : Nat := 0
  calls : List BusAnswer := []

def BusConsumer.answered (c : BusConsumer) (msgTypes : List MsgType)
    (returned : Option Bool) : BusConsumer where
  count := if returned = some true then c.count + 1 else c.count
  calls := c.calls ++ [⟨c.count, msgTypes, returned⟩]

namespace IpcEnvelopeRingBuffer

variable (MaxPayloadSize Capacity : Nat) (host : Endian)

/-- The producer functions on a handle. -/
def producerOps (h : IpcHandle) : ProducerOps where
  prepareWrite := prepareWrite MaxPayloadSize Capacity host h
  commitWrite _ := commitWrite MaxPayloadSize Capacity host h
  push := push MaxPayloadSize Capacity host h

/-- The calls of a consumer that takes messages only through its callbacks. -/
inductive BusCall (h : IpcHandle) (types : MsgType → Prop) :
    BusConsumer → Label → Code BusConsumer → Prop where
  | dispatchAndCommit (c : BusConsumer) (msgTypes : List MsgType) (verifyCrc : Bool) :
      (∀ T ∈ msgTypes, types T) → BusCall h types c {} do
        let returned ← dispatchAndCommit MaxPayloadSize Capacity host h msgTypes record
          verifyCrc
        return c.answered msgTypes returned
  | consume (c : BusConsumer) (Msg : MsgType) (verifyCrc : Bool) :
      types Msg → BusCall h types c {} do
        let returned ← consume MaxPayloadSize Capacity host h Msg record verifyCrc
        return c.answered [Msg] returned

/-- What a reader of the bus has found at the read cursor. -/
inductive Found where
  | packet (pv : PacketView)
  | msg (Msg : MsgType) (payload : Ptr)
  | visited

/-- What a reader remembers: how many messages it has taken, and what it found
at the one it is at. -/
structure Reader where
  count : Nat := 0
  found : Option Found := none

/-- The calls of a consumer that may also look before it takes. -/
inductive ReaderCall (h : IpcHandle) : Reader → Label → Code Reader → Prop where
  | peekPacket (c : Reader) (verifyCrc : Bool) : ReaderCall h c {} do
      let pv ← peekPacket MaxPayloadSize Capacity host h verifyCrc
      return { c with found := if pv.isValid then some (.packet pv) else none }
  | peekMsg (c : Reader) (Msg : MsgType) (verifyCrc : Bool) : ReaderCall h c {} do
      let msg ← peekMsg MaxPayloadSize Capacity host h Msg verifyCrc
      return { c with found := msg.map (.msg Msg) }
  | dispatch (c : Reader) (msgTypes : List MsgType) (visitor : Visitor)
      (verifyCrc : Bool) : visitor.OnlyReads → ReaderCall h c {} do
        let returned ← dispatch MaxPayloadSize Capacity host h msgTypes visitor verifyCrc
        return { c with found := if returned = some true then some .visited else none }
  | commitRead (c : Reader) (x : Found) : c.found = some x → ReaderCall h c {} do
      commitRead MaxPayloadSize Capacity h
      return { count := c.count + 1 }
  | dispatchAndCommit (c : Reader) (msgTypes : List MsgType) (visitor : Visitor)
      (verifyCrc : Bool) : visitor.OnlyReads → ReaderCall h c {} do
        let returned ← dispatchAndCommit MaxPayloadSize Capacity host h msgTypes visitor
          verifyCrc
        return { count := if returned = some true then c.count + 1 else c.count }
  | consume (c : Reader) (Msg : MsgType) (func : Visitor) (verifyCrc : Bool) :
      func.OnlyReads → ReaderCall h c {} do
        let returned ← consume MaxPayloadSize Capacity host h Msg func verifyCrc
        return { count := if returned = some true then c.count + 1 else c.count }

/-- One producer that holds `h` and one consumer that holds `h'`. -/
abbrev session (h h' : IpcHandle) (types : MsgType → Prop) : Side → Party sys Shared :=
  parties (params MaxPayloadSize Capacity).layout
    (ProducerCall (producerOps MaxPayloadSize Capacity host h) types)
    (BusCall MaxPayloadSize Capacity host h' types)

/-- One producer that holds `h` and one reader that holds `h'`. -/
abbrev readerSession (h h' : IpcHandle) (types : MsgType → Prop) :
    Side → Party sys Shared :=
  parties (params MaxPayloadSize Capacity).layout
    (ProducerCall (producerOps MaxPayloadSize Capacity host h) types)
    (ReaderCall MaxPayloadSize Capacity host h')

/-- What `create` makes of a segment that held `byte` before. -/
def created (data : Ptr) (byte : Nat → UInt8) : Shared :=
  let m := ((IpcHandle.initHeader (params MaxPayloadSize Capacity) host data).run
    Mem.machine ⟨byte, fun _ => 0, []⟩).2
  { byte := m.byte, word := m.word }

/-- After `create` in one process and `open` in another. -/
def readerStart (types : MsgType → Prop) (shm shm' : SharedMemoryRegion)
    (data data' : Ptr) (byte : Nat → UInt8) :
    Config (readerSession MaxPayloadSize Capacity host (.attach shm data true)
      (.attach shm' data' false) types) where
  state := created MaxPayloadSize Capacity host data byte
  thread := parties.idle {} {}

/-- After `create` in one process, in a segment that held `byte` before, and
`open` in another. -/
def start (types : MsgType → Prop) (shm shm' : SharedMemoryRegion) (data data' : Ptr)
    (byte : Nat → UInt8) :
    Config (session MaxPayloadSize Capacity host (.attach shm data true)
      (.attach shm' data' false) types) where
  state := created MaxPayloadSize Capacity host data byte
  thread := parties.idle {} {}

end IpcEnvelopeRingBuffer

end Sinew
