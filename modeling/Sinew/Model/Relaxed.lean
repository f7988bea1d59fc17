import Sinew.Lib.Weak
import Sinew.Model.Bridge

/-!
# A ring in the memory that C++ promises

In a session all loads and stores are of one memory that both sides see alike. The
language promises less. A load of a counter may find an older store than the last, and
what one side has done to a slot is there for the other only once a store to a counter
has been found by a load that acquires.

The programs, the clients and the histories are those of a session, and so is what a
call is. What is added are the orders of `memory_order` that the source gives, which
are the same in all three rings: a side stores its own counter with `release`, loads
it with `relaxed`, and loads the other's with `acquire`. The bytes of the slots are
plain, so two sides that get at one without such a store and load between are in a
data race, and the program would mean nothing.
-/

namespace Sinew

open Lib

def Side.other : Side → Side
  | .producer => .consumer
  | .consumer => .producer

/-- The counter that a side stores. -/
def Layout.cursor (L : Layout) : Side → Nat
  | .producer => L.headOff
  | .consumer => L.tailOff

structure Relaxed where
  mem : Weak Side
  committed : List (MsgType × List UInt8) := []
  taken : List (List UInt8) := []
  seen : List (Nat × MsgType × List UInt8) := []

namespace Relaxed

/-- The segment by what was stored last. -/
def latest (s : Relaxed) : Shared where
  byte := s.mem.byte
  word := s.mem.newest
  committed := s.committed
  taken := s.taken
  seen := s.seen

/-- An event of a side. The histories are those of `Shared.exec`. -/
def exec (L : Layout) (i : Side) (l : Label) (s : Relaxed) : (e : Ev) → Ev.Res e × Relaxed
  | .load p => ((s.mem.load i p.off).1, { s with mem := (s.mem.load i p.off).2 })
  | .store p b => ((), { s with mem := s.mem.store i p.off b })
  | .loadWord p =>
      let r := s.mem.loadWord i (p.off = L.cursor i.other) p.off
      (r.1, { s with mem := r.2 })
  | .storeWord p v =>
      let s' := s.latest.storeWord L l.writes p.off v
      ((), { s with
        mem := s.mem.storeWord i p.off v, committed := s'.committed, taken := s'.taken })
  | .visit T bytes => ((), { s with seen := s.seen ++ [(s.taken.length, T, bytes)] })
  | .shmOpen _ _ => (l.os.shmOpen, s)
  | .ftruncate _ _ => (l.os.ftruncate, s)
  | .fstat _ => (l.os.fstat, s)
  | .mmap _ _ => (l.os.mmap, s)
  | .munmap _ _ => ((), s)
  | .closeFd _ => ((), s)
  | .shmUnlink _ => ((), s)

end Relaxed

/-- A producer and a consumer, each with what it has seen of the memory. -/
def relaxedParties (L : Layout) {P C : Type} (produce : P → Label → Code P → Prop)
    (consume : C → Label → Code C → Prop) : Side → Party sys Relaxed
  | .producer => ⟨P, Label, produce, Relaxed.exec L .producer⟩
  | .consumer => ⟨C, Label, consume, Relaxed.exec L .consumer⟩

/-- Both between calls. -/
def relaxedParties.idle {L : Layout} {P C : Type} {produce : P → Label → Code P → Prop}
    {consume : C → Label → Code C → Prop} (p : P) (c : C) :
    ∀ i, Thread (relaxedParties L produce consume i)
  | .producer => .idle (P := relaxedParties L produce consume .producer) p
  | .consumer => .idle (P := relaxedParties L produce consume .consumer) c

namespace SpscRingBuffer

variable (w : Nat) (T : MsgType) (Capacity : Nat) (host : Endian) (this : Nat)

/-- One producer and one consumer of an `SpscRingBuffer<T, Capacity>` at `this`. -/
abbrev relaxedSession : Side → Party sys Relaxed :=
  relaxedParties (layout w T Capacity)
    (ProducerCall (producerOps w T Capacity host this) (· = T))
    (ConsumerCall (consumerOps w T Capacity host this) (· = T))

/-- The two threads are started after the constructor. -/
def relaxedStart (byte : Nat → UInt8) (late : Nat → Nat) :
    Config (relaxedSession w T Capacity host this) where
  state := { mem := { byte := byte, late := late } }
  thread := relaxedParties.idle {} { handle := () }

end SpscRingBuffer

namespace IpcRingBuffer

variable (T : MsgType) (Capacity : Nat) (host : Endian)

/-- The consumer functions on a handle that is kept. -/
def keptOps (h : IpcHandle) : ConsumerOps Unit where
  peekRead _ _ := peekRead T Capacity host h
  commitRead _ := commitRead T Capacity h
  pop _ _ := pop T Capacity host h
  consume _ _ := consume T Capacity host h
  rehandle _ _ := False

/-- One producer that holds `h` and one consumer that holds `h'`. -/
abbrev relaxedSession (h h' : IpcHandle) : Side → Party sys Relaxed :=
  relaxedParties (params T Capacity).layout
    (ProducerCall (producerOps T Capacity host h) (· = T))
    (ConsumerCall (keptOps T Capacity host h') (· = T))

/-- After `create` in one process, in a segment that held `byte` before, and `open` in
another. -/
def relaxedStart (shm shm' : SharedMemoryRegion) (data data' : Ptr) (byte : Nat → UInt8)
    (late : Nat → Nat) :
    Config (relaxedSession T Capacity host (.attach shm data true)
      (.attach shm' data' false)) where
  state := { mem := {
    byte := ((IpcHandle.initHeader (params T Capacity) host data).run Mem.machine
      ⟨byte, fun _ => 0, []⟩).2.byte
    late := late } }
  thread := relaxedParties.idle {} { handle := () }

end IpcRingBuffer

/-! ## The bridges -/

section Relay

variable {RosIn RosOut World : Type} [Inhabited RosOut] (T : MsgType) (Capacity : Nat)
  (host : Endian) (fromRos : RosIn → List UInt8 → List UInt8)
  (fromRos_length : ∀ rosMsg bytes, bytes.length = T.size →
    (fromRos rosMsg bytes).length = T.size)
  (toRos : List UInt8 → RosOut → RosOut) (publishCb : Option (Callback RosOut World))

namespace SpscRingBuffer

variable (w this : Nat)

/-- A subscriber and a publisher on an `SpscRingBuffer<T, Capacity>` at `this`. -/
abbrev relaxedRelay : Side → Party sys Relaxed :=
  relaxedParties (layout w T Capacity)
    (SubscriberCall (subscriber T Capacity host fromRos fromRos_length w this))
    (PublisherCall (publisher T Capacity host toRos publishCb w this))

def relaxedRelayStart (byte : Nat → UInt8) (late : Nat → Nat) (world : World) :
    Config (relaxedRelay T Capacity host fromRos fromRos_length toRos publishCb w this) where
  state := { mem := { byte := byte, late := late } }
  thread := relaxedParties.idle [] { world := world }

end SpscRingBuffer

namespace IpcRingBuffer

/-- A subscriber that holds `h` and a publisher that holds `h'`. -/
abbrev relaxedRelay (h h' : IpcHandle) : Side → Party sys Relaxed :=
  relaxedParties (params T Capacity).layout
    (SubscriberCall (subscriber T Capacity host fromRos fromRos_length h))
    (PublisherCall (publisher T Capacity host toRos publishCb h'))

def relaxedRelayStart (shm shm' : SharedMemoryRegion) (data data' : Ptr) (byte : Nat → UInt8)
    (late : Nat → Nat) (world : World) :
    Config (relaxedRelay T Capacity host fromRos fromRos_length toRos publishCb
      (.attach shm data true) (.attach shm' data' false)) where
  state := { mem := {
    byte := ((IpcHandle.initHeader (params T Capacity) host data).run Mem.machine
      ⟨byte, fun _ => 0, []⟩).2.byte
    late := late } }
  thread := relaxedParties.idle [] { world := world }

end IpcRingBuffer

end Relay

end Sinew
