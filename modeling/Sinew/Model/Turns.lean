import Sinew.Model.Session

/-!
# One call after another

A ring whose calls are made one at a time, by whichever side, in any order. The
producer's are those of a session: a commit finishes the draft it has. The
consumer may make any call at all, and may take a message it has not looked at,
or has looked at in vain, as long as there is one to take.
-/

namespace Sinew

open Lib

/-- What a consumer's call hands out: a place in the ring, or a copy. -/
inductive Handed where
  | place (payload : Ptr)
  | copy (bytes : List UInt8)

/-- One call, made on the ring's own and on what its producer remembers. -/
inductive Turn (L : Layout) (produce : Producer → Label → Code Producer → Prop)
    (entry : (Visitor → Code (Option Handed)) → Prop) (commitRead : Code Unit) :
    Shared × Producer → Shared × Producer → Prop where
  | produce (s : Shared) (p : Producer) (l : Label) (call : Code Producer) :
      produce p l call →
      Turn L produce entry commitRead (s, p)
        ((call.run (Shared.exec L l) s).2, (call.run (Shared.exec L l) s).1)
  | consume (s : Shared) (p : Producer) (call : Visitor → Code (Option Handed))
      (func : Visitor) : entry call → func.OnlyReads →
      Turn L produce entry commitRead (s, p)
        (((call func).run (Shared.exec L {}) s).2, p)
  | commitRead (s : Shared) (p : Producer) : s.taken.length < s.committed.length →
      Turn L produce entry commitRead (s, p)
        ((commitRead.run (Shared.exec L {}) s).2, p)

/-- The calls of a typed ring's consumer. -/
inductive ConsumerOps.Entry {H : Type} (ops : ConsumerOps H) (h : H) (T : MsgType) :
    (Visitor → Code (Option Handed)) → Prop where
  | peekRead (verifyCrc : Bool) : Entry ops h T fun _ => do
      let payload ← ops.peekRead h T verifyCrc
      return payload.map .place
  | pop (verifyCrc : Bool) : Entry ops h T fun _ => do
      let value ← ops.pop h T verifyCrc
      return value.map .copy
  | consume (verifyCrc : Bool) : Entry ops h T fun func => do
      let _ ← ops.consume h T func verifyCrc
      return none

namespace SpscRingBuffer

variable (w : Nat) (T : MsgType) (Capacity : Nat) (host : Endian) (this : Nat)

abbrev turn : Shared × Producer → Shared × Producer → Prop :=
  Turn (layout w T Capacity) (ProducerCall (producerOps w T Capacity host this) (· = T))
    ((consumerOps w T Capacity host this).Entry () T) (commitRead w T Capacity this)

end SpscRingBuffer

namespace IpcRingBuffer

variable (T : MsgType) (Capacity : Nat) (host : Endian)

/-- The producer holds `h` and the consumer `h'`. -/
abbrev turn (h h' : IpcHandle) : Shared × Producer → Shared × Producer → Prop :=
  Turn (params T Capacity).layout (ProducerCall (producerOps T Capacity host h) (· = T))
    ((consumerOps T Capacity host).Entry h' T) (commitRead T Capacity h')

end IpcRingBuffer

namespace IpcEnvelopeRingBuffer

variable (MaxPayloadSize Capacity : Nat) (host : Endian)

/-- The calls of the bus's consumer. -/
inductive Entry (h : IpcHandle) : (Visitor → Code (Option Handed)) → Prop where
  | peekPacket (verifyCrc : Bool) : Entry h fun _ => do
      let pv ← peekPacket MaxPayloadSize Capacity host h verifyCrc
      return pv.payload.map .place
  | peekMsg (Msg : MsgType) (verifyCrc : Bool) : Entry h fun _ => do
      let msg ← peekMsg MaxPayloadSize Capacity host h Msg verifyCrc
      return msg.map .place
  | dispatch (msgTypes : List MsgType) (verifyCrc : Bool) : Entry h fun visitor => do
      let _ ← dispatch MaxPayloadSize Capacity host h msgTypes visitor verifyCrc
      return none
  | dispatchAndCommit (msgTypes : List MsgType) (verifyCrc : Bool) :
      Entry h fun visitor => do
        let _ ← dispatchAndCommit MaxPayloadSize Capacity host h msgTypes visitor verifyCrc
        return none
  | consume (Msg : MsgType) (verifyCrc : Bool) : Entry h fun func => do
      let _ ← consume MaxPayloadSize Capacity host h Msg func verifyCrc
      return none

/-- The producer holds `h` and the consumer `h'`; the messages fit the bus. -/
abbrev turn (h h' : IpcHandle) : Shared × Producer → Shared × Producer → Prop :=
  Turn (params MaxPayloadSize Capacity).layout
    (ProducerCall (producerOps MaxPayloadSize Capacity host h) (·.size ≤ MaxPayloadSize))
    (Entry MaxPayloadSize Capacity host h') (commitRead MaxPayloadSize Capacity h')

end IpcEnvelopeRingBuffer

end Sinew
