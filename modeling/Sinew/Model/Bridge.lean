import Sinew.Model.Session

/-!
# The bridge to ROS 2: `ros2_bridge.hpp`

A publisher takes messages out of a ring, converts each, and hands it on. The
converter is any function of the message and of what its out parameter holds,
and the callback does anything at all to a world that the ring is not in. A
subscriber is handed messages and converts each into the next slot of a ring.

One thread may feed a ring from the one side while another drains it to the other.
-/

namespace Sinew

open Lib

/-- A callback on `const RosMsg&`: how it comes back, and what it makes of the
world. -/
abbrev Callback (RosMsg World : Type) := RosMsg → World → Outcome × World

/-- `BridgePublisher<SinewMsg, RosMsg, RingBufferType>` with its converter; the
callback may be an empty `std::function`. -/
structure BridgePublisher (RosMsg World H : Type) where
  SinewMsg : MsgType
  toRos : List UInt8 → RosMsg → RosMsg
  ops : ConsumerOps H
  ringBuffer : H
  publishCb : Option (Callback RosMsg World)

namespace BridgePublisher

variable {RosMsg World H : Type} [Inhabited RosMsg] (b : BridgePublisher RosMsg World H)

/-- `if (publish_cb_) publish_cb_(ros_msg);` -/
def publish (rosMsg : RosMsg) (world : World) : Outcome × World :=
  match b.publishCb with
  | none => (.returned, world)
  | some publishCb => publishCb rosMsg world

/-- The loop, with so many turns left to `max_messages`. -/
def spinLoop : Nat → Nat → RosMsg → World → Code (Option Nat × World)
  | 0, processed, _, world => return (some processed, world)
  | left + 1, processed, rosMsg, world => do
      let item ← b.ops.peekRead b.ringBuffer b.SinewMsg false
      match item with
      | none => return (some processed, world)
      | some item => do
          let bytes ← loadBytes item b.SinewMsg.size
          let rosMsg := b.toRos bytes rosMsg
          match b.publish rosMsg world with
          | (.threw, world) => return (none, world)
          | (.returned, world) => do
              b.ops.commitRead b.ringBuffer
              spinLoop left (processed + 1) rosMsg world

/-- Answers how many messages were bridged, or `none` if the callback threw.
There is one `RosMsg ros_msg{}` for all the turns of the loop. -/
def spinSome (maxMessages : Nat) (world : World) : Code (Option Nat × World) :=
  b.spinLoop maxMessages 0 default world

/-- Two calls, one after the other, and their total. -/
def spinTwice (m n : Nat) (world : World) : Code (Option Nat × World) := do
  let (first, world) ← b.spinSome m world
  match first with
  | none => return (none, world)
  | some first => do
      let (second, world) ← b.spinSome n world
      return (second.map (first + ·), world)

end BridgePublisher

/-- `BridgeSubscriber<SinewMsg, RosMsg, RingBufferType>` with its converter, which
fills in a payload: any function of the message and of what the payload holds. -/
structure BridgeSubscriber (RosMsg : Type) where
  SinewMsg : MsgType
  fromRos : RosMsg → List UInt8 → List UInt8
  fromRos_length : ∀ rosMsg bytes, bytes.length = SinewMsg.size →
    (fromRos rosMsg bytes).length = SinewMsg.size
  ops : ProducerOps

/-- Answers `false` if the ring is full. -/
def BridgeSubscriber.handleRosMessage {RosMsg : Type} (b : BridgeSubscriber RosMsg)
    (rosMsg : RosMsg) (computeCrc : Bool) : Code Bool := do
  let slot ← b.ops.prepareWrite b.SinewMsg
  match slot with
  | none => return false
  | some slot => do
      let bytes ← loadBytes slot b.SinewMsg.size
      storeBytes slot (b.fromRos rosMsg bytes)
      b.ops.commitWrite b.SinewMsg computeCrc
      return true

/-! ## A thread on either side -/

/-- A feeding thread: what it remembers are the messages that were not refused. -/
inductive SubscriberCall {RosMsg : Type} (b : BridgeSubscriber RosMsg) :
    List RosMsg → Label → Code (List RosMsg) → Prop where
  | handle (accepted : List RosMsg) (rosMsg : RosMsg) (computeCrc : Bool) :
      SubscriberCall b accepted { writes := some b.SinewMsg } do
        let pushed ← b.handleRosMessage rosMsg computeCrc
        return if pushed then accepted ++ [rosMsg] else accepted

/-- What a draining thread remembers: what its callback has made of the world, and the
sum of what `spin_some` has returned, if it has always returned. -/
structure Drain (World : Type) where
  world : World
  bridged : Option Nat := some 0

inductive PublisherCall {RosMsg World H : Type} [Inhabited RosMsg]
    (b : BridgePublisher RosMsg World H) :
    Drain World → Label → Code (Drain World) → Prop where
  | spinSome (c : Drain World) (maxMessages : Nat) : PublisherCall b c {} do
      let (processed, world) ← b.spinSome maxMessages c.world
      return ⟨world, do return (← c.bridged) + (← processed)⟩

section Relay

variable {RosIn RosOut World : Type} (T : MsgType) (Capacity : Nat) (host : Endian)
  (fromRos : RosIn → List UInt8 → List UInt8)
  (fromRos_length : ∀ rosMsg bytes, bytes.length = T.size →
    (fromRos rosMsg bytes).length = T.size)
  (toRos : List UInt8 → RosOut → RosOut) (publishCb : Option (Callback RosOut World))

namespace SpscRingBuffer

variable (w this : Nat)

def subscriber : BridgeSubscriber RosIn :=
  ⟨T, fromRos, fromRos_length, producerOps w T Capacity host this⟩

def publisher : BridgePublisher RosOut World Unit :=
  ⟨T, toRos, consumerOps w T Capacity host this, (), publishCb⟩

end SpscRingBuffer

namespace IpcRingBuffer

variable (h h' : IpcHandle)

def subscriber : BridgeSubscriber RosIn :=
  ⟨T, fromRos, fromRos_length, producerOps T Capacity host h⟩

def publisher : BridgePublisher RosOut World IpcHandle :=
  ⟨T, toRos, consumerOps T Capacity host, h', publishCb⟩

end IpcRingBuffer

end Relay

end Sinew
