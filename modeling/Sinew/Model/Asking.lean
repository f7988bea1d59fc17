import Sinew.Model.Session

/-!
# Clients that ask first

A client here may ask a ring whether it is full or empty before it acts. It
remembers the answer it got last, until it moves the ring itself, and of every
attempt that followed what the answer was and whether the attempt succeeded.
-/

namespace Sinew

open Lib

/-- What a side asks, what it attempts on the answer, and how to tell from its
memory that the attempt succeeded and that it has not moved the ring. -/
structure Question (C : Type) where
  query : C → Code Bool
  attempt : C → Label → Code C → Prop
  succeeded : C → Bool
  still : C → C → Bool

/-- An attempt: the answer that stood when it was made, if one did. -/
structure Attempt where
  answer : Option Bool
  succeeded : Bool
  deriving DecidableEq

structure Asking (C : Type) where
  client : C
  answer : Option Bool := none
  attempts : List Attempt := []

namespace Asking

variable {C : Type}

/-- After a call: the answer stands if the client has not moved the ring. -/
def after (a : Asking C) (Q : Question C) (client : C) : Asking C :=
  { a with client := client, answer := if Q.still a.client client then a.answer else none }

/-- Whatever was attempted after the answer `false` succeeded. -/
def Kept (a : Asking C) : Prop :=
  ∀ x ∈ a.attempts, x.answer = some false → x.succeeded = true

end Asking

/-- The calls of a client that may also ask. -/
inductive AskingCall {C : Type} (Q : Question C) (call : C → Label → Code C → Prop) :
    Asking C → Label → Code (Asking C) → Prop where
  | ask (a : Asking C) : AskingCall Q call a {} do
      let answer ← Q.query a.client
      return { a with answer := some answer }
  | call (a : Asking C) (l : Label) (p : Code C) : call a.client l p →
      AskingCall Q call a l do
        let client ← p
        return a.after Q client
  | attempt (a : Asking C) (l : Label) (p : Code C) : Q.attempt a.client l p →
      AskingCall Q call a l do
        let client ← p
        return { a.after Q client with
          attempts := a.attempts ++ [⟨a.answer, Q.succeeded client⟩] }

/-- A producer asks whether the ring is full, and prepares. -/
def ProducerOps.question (ops : ProducerOps) (types : MsgType → Prop)
    (full : Code Bool) : Question Producer where
  query _ := full
  attempt c l p := ∃ T, types T ∧ l = { writes := some T } ∧ p = do
    let payload ← ops.prepareWrite T
    return { c with draft := payload.map fun p => ⟨T, p, T.fresh⟩ }
  succeeded c := c.draft.isSome
  still c c' := c.sent.length = c'.sent.length

/-- A consumer asks whether the ring is empty, and peeks. -/
def ConsumerOps.question {H : Type} [DecidableEq H] (ops : ConsumerOps H)
    (types : MsgType → Prop) (empty : H → Code Bool) : Question (Consumer H) where
  query c := empty c.handle
  attempt c l p := ∃ T verifyCrc, types T ∧ l = {} ∧ p = do
    let payload ← ops.peekRead c.handle T verifyCrc
    return { c with slot := payload.map (T, ·) }
  succeeded c := c.slot.isSome
  still c c' := c.count = c'.count ∧ c.handle = c'.handle

/-- The parties of a session in which both sides ask. -/
def askingParties (L : Layout) {C : Type} (Qp : Question Producer) (Qc : Question C)
    (produce : Producer → Label → Code Producer → Prop)
    (consume : C → Label → Code C → Prop) : Side → Party sys Shared
  | .producer => ⟨Asking Producer, Label, AskingCall Qp produce, Shared.exec L⟩
  | .consumer => ⟨Asking C, Label, AskingCall Qc consume, Shared.exec L⟩

/-- Both between calls, and nothing asked yet. -/
def askingParties.idle {L : Layout} {C : Type} {Qp : Question Producer} {Qc : Question C}
    {produce : Producer → Label → Code Producer → Prop}
    {consume : C → Label → Code C → Prop} (p : Producer) (c : C) :
    ∀ i, Thread (askingParties L Qp Qc produce consume i)
  | .producer => .idle (P := askingParties L Qp Qc produce consume .producer) { client := p }
  | .consumer => .idle (P := askingParties L Qp Qc produce consume .consumer) { client := c }

namespace SpscRingBuffer

variable (w : Nat) (T : MsgType) (Capacity : Nat) (host : Endian) (this : Nat)

abbrev askingSession : Side → Party sys Shared :=
  askingParties (layout w T Capacity)
    ((producerOps w T Capacity host this).question (· = T) (full w T Capacity this))
    ((consumerOps w T Capacity host this).question (· = T) fun _ => empty w T Capacity this)
    (ProducerCall (producerOps w T Capacity host this) (· = T))
    (ConsumerCall (consumerOps w T Capacity host this) (· = T))

def askingStart (byte : Nat → UInt8) : Config (askingSession w T Capacity host this) where
  state := { byte := byte, word := fun _ => 0 }
  thread := askingParties.idle {} { handle := () }

end SpscRingBuffer

namespace IpcRingBuffer

variable (T : MsgType) (Capacity : Nat) (host : Endian)

abbrev askingSession (h : IpcHandle) : Side → Party sys Shared :=
  askingParties (params T Capacity).layout
    ((producerOps T Capacity host h).question (· = T) (full T Capacity h))
    ((consumerOps T Capacity host).question (· = T) (empty T Capacity))
    (ProducerCall (producerOps T Capacity host h) (· = T))
    (ConsumerCall (consumerOps T Capacity host) (· = T))

/-- After `create`; the consumer has not attached yet. -/
def askingStart (shm : SharedMemoryRegion) (data : Ptr) (byte : Nat → UInt8) :
    Config (askingSession T Capacity host (.attach shm data true)) where
  state := (start T Capacity host shm data byte).state
  thread := askingParties.idle {} { handle := {} }

end IpcRingBuffer

namespace IpcEnvelopeRingBuffer

variable (MaxPayloadSize Capacity : Nat) (host : Endian)

/-- A reader asks whether the ring is empty, and looks at the packet. -/
def readerQuestion (h : IpcHandle) : Question Reader where
  query _ := empty MaxPayloadSize Capacity h
  attempt c l p := ∃ verifyCrc, l = {} ∧ p = do
    let pv ← peekPacket MaxPayloadSize Capacity host h verifyCrc
    return { c with found := if pv.isValid then some (.packet pv) else none }
  succeeded c := c.found.isSome
  still c c' := c.count = c'.count

abbrev askingSession (h h' : IpcHandle) (types : MsgType → Prop) : Side → Party sys Shared :=
  askingParties (params MaxPayloadSize Capacity).layout
    ((producerOps MaxPayloadSize Capacity host h).question types
      (full MaxPayloadSize Capacity h))
    (readerQuestion MaxPayloadSize Capacity host h')
    (ProducerCall (producerOps MaxPayloadSize Capacity host h) types)
    (ReaderCall MaxPayloadSize Capacity host h')

/-- After `create` in one process and `open` in another. -/
def askingStart (types : MsgType → Prop) (shm shm' : SharedMemoryRegion)
    (data data' : Ptr) (byte : Nat → UInt8) :
    Config (askingSession MaxPayloadSize Capacity host (.attach shm data true)
      (.attach shm' data' false) types) where
  state := created MaxPayloadSize Capacity host data byte
  thread := askingParties.idle {} {}

end IpcEnvelopeRingBuffer

end Sinew
