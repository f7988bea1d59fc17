import Sinew.Model.Kernel
import Sinew.Model.Session

/-!
# A ring that is created while a consumer attaches

Two processes and one name. The producer's creates a ring under that name, once,
and then uses it; the consumer's tries to attach at any time and as often as it
likes, and uses whatever handle it has.

So the state is what the kernel has under the name, with the segment and its
histories. A call is either a call on a ring, which is what it is in a session,
or one that asks the kernel. What `create` stores in a counter is no commit and
takes nothing: it makes no history, and whether it has undone any is noted.
-/

namespace Sinew

open Lib

/-- Whether the name names a segment, how long that is, and what is in it;
`overwritten` says that `create` has stored a counter which a commit had stored. -/
structure Backing where
  named : Bool := false
  length : Int := 0
  shared : Shared := { byte := fun _ => 0, word := fun _ => 0 }
  overwritten : Bool := false

/-- A call on a ring, or one that asks the kernel. -/
inductive Order where
  | ring (l : Label)
  | system (os : OsAnswers)

namespace Backing

def segment (b : Backing) : Segment := ⟨b.length, b.shared.byte, b.shared.word⟩

def setSegment (b : Backing) (s : Segment) : Backing :=
  { b with length := s.length, shared := { b.shared with byte := s.byte, word := s.word } }

/-- `shm_open`, where the name is the one there is. -/
def shmOpen (b : Backing) (os : OsAnswers) (flags : OpenFlags) : Option Nat × Backing :=
  match os.shmOpen with
  | none => (none, b)
  | some fd =>
      if b.named then
        if flags.creat ∧ flags.excl then (none, b)
        else (some fd, if flags.trunc then b.setSegment (b.segment.resize 0) else b)
      else if flags.creat then (some fd, { b.setSegment .empty with named := true })
      else (none, b)

def ftruncate (b : Backing) (os : OsAnswers) (length : Int) : Bool × Backing :=
  if os.ftruncate = true ∧ 0 ≤ length then
    (true, b.setSegment (b.segment.resize length))
  else (false, b)

/-- A store to a counter by `create`. -/
def resetWord (L : Layout) (b : Backing) (a v : Nat) : Backing :=
  { b with
    shared := { b.shared with word := Function.update b.shared.word a v }
    overwritten := b.overwritten || decide (a = L.headOff ∧ b.shared.committed ≠ []) ||
      decide (a = L.tailOff ∧ b.shared.taken ≠ []) }

/-- An event of a call that asks the kernel. Not being refused is not success: the
name may be missing, and the length `fstat` answers is the segment's. -/
def ask (L : Layout) (os : OsAnswers) (b : Backing) : (e : Ev) → Ev.Res e × Backing
  | .load p => (b.shared.byte p.off, b)
  | .store p x => ((), { b with
      shared := { b.shared with byte := Function.update b.shared.byte p.off x } })
  | .loadWord p => (b.shared.word p.off, b)
  | .storeWord p v => ((), b.resetWord L p.off v)
  | .visit _ _ => ((), b)
  | .shmOpen _ flags => b.shmOpen os flags
  | .ftruncate _ length => b.ftruncate os length
  | .fstat _ => (os.fstat.map fun _ => b.length, b)
  | .mmap _ _ => (os.mmap, b)
  | .munmap _ _ => ((), b)
  | .closeFd _ => ((), b)
  | .shmUnlink _ => ((), { b with named := false })

def exec (L : Layout) (o : Order) (b : Backing) (e : Ev) : Ev.Res e × Backing :=
  match o with
  | .ring l =>
      ((Shared.exec L l b.shared e).1, { b with shared := (Shared.exec L l b.shared e).2 })
  | .system os => b.ask L os e

end Backing

/-! ## The two processes -/

/-- The producer's process: the handle, once `create` has returned it, and the
producer on it. -/
structure Creator where
  handle : Option IpcHandle := none
  producer : Producer := {}

/-- It calls `create` once, and from then on what a producer may call. -/
inductive CreatorCall (create : Code IpcHandle) (ops : IpcHandle → ProducerOps)
    (types : MsgType → Prop) : Creator → Order → Code Creator → Prop where
  | create (c : Creator) (os : OsAnswers) : c.handle = none →
      CreatorCall create ops types c (.system os) do
        let handle ← create
        return { handle := some handle }
  | produce (c : Creator) (h : IpcHandle) (l : Label) (call : Code Producer) :
      c.handle = some h → ProducerCall (ops h) types c.producer l call →
      CreatorCall create ops types c (.ring l) do
        let producer ← call
        return { c with producer := producer }

/-- The consumer's process: its handle and the consumer on it. -/
structure Attached (C : Type) where
  handle : IpcHandle := {}
  client : C

/-- It opens the name, drops its handle, and uses it, valid or not. With another
handle, or none, what `forget` forgets of the client's is out of date. -/
inductive AttachedCall {C : Type} (openRing : Code IpcHandle)
    (use : IpcHandle → C → Label → Code C → Prop) (forget : C → C) :
    Attached C → Order → Code (Attached C) → Prop where
  | attach (c : Attached C) (os : OsAnswers) :
      AttachedCall openRing use forget c (.system os) do
        let opened ← openRing
        let (handle, rest) ← c.handle.moveAssign opened
        rest.destroy
        return ⟨handle, forget c.client⟩
  | drop (c : Attached C) (os : OsAnswers) :
      AttachedCall openRing use forget c (.system os) do
        c.handle.destroy
        return ⟨{}, forget c.client⟩
  | use (c : Attached C) (l : Label) (call : Code C) : use c.handle c.client l call →
      AttachedCall openRing use forget c (.ring l) do
        let client ← call
        return { c with client := client }

/-- The two of them over what the kernel has. -/
def launching (L : Layout) {C : Type} (produce : Creator → Order → Code Creator → Prop)
    (consume : Attached C → Order → Code (Attached C) → Prop) : Side → Party sys Backing
  | .producer => ⟨Creator, Order, produce, Backing.exec L⟩
  | .consumer => ⟨Attached C, Order, consume, Backing.exec L⟩

/-- Both between calls. -/
def launching.idle {L : Layout} {C : Type}
    {produce : Creator → Order → Code Creator → Prop}
    {consume : Attached C → Order → Code (Attached C) → Prop} (p : Creator)
    (c : Attached C) : ∀ i, Thread (launching L produce consume i)
  | .producer => .idle (P := launching L produce consume .producer) p
  | .consumer => .idle (P := launching L produce consume .consumer) c

/-- The functions on one handle, which is not changed for another. -/
def ConsumerOps.on {H : Type} (ops : ConsumerOps H) (h : H) : ConsumerOps Unit where
  peekRead _ := ops.peekRead h
  commitRead _ := ops.commitRead h
  pop _ := ops.pop h
  consume _ := ops.consume h
  rehandle _ _ := False

namespace IpcRingBuffer

variable (T : MsgType) (Capacity : Nat) (host : Endian) (name : Name)

/-- `create` in one process and any number of `open` in another. -/
abbrev launch : Side → Party sys Backing :=
  launching (params T Capacity).layout
    (CreatorCall (create T Capacity host name) (producerOps T Capacity host) (· = T))
    (AttachedCall (openRing T Capacity host name)
      (fun h => ConsumerCall ((consumerOps T Capacity host).on h) (· = T))
      fun c => { c with slot := none })

/-- There is no segment under the name. -/
def launchStart : Config (launch T Capacity host name) where
  state := {}
  thread := launching.idle {} { client := { handle := () } }

end IpcRingBuffer

/-- The message types that the rings are good for. -/
def MsgType.Plain (T : MsgType) : Prop := T.align ≤ 16 ∧ T.size < 2 ^ 32

namespace IpcEnvelopeRingBuffer

variable (MaxPayloadSize Capacity : Nat) (host : Endian) (name : Name)

/-- Where the payload of what was found is, and how long that is. -/
def Found.payload : Found → Option (Ptr × Nat)
  | .packet pv => pv.payload.map (·, pv.payloadLen)
  | .msg Msg payload => some (payload, Msg.size)
  | .visited => none

/-- What a consumer of the bus remembers: how many messages it has taken, the
payloads it has read and of which message, and what it found at the one it is at. -/
structure BusReader where
  count : Nat := 0
  log : List (Nat × List UInt8) := []
  found : Option Found := none

/-- The calls of a consumer of the bus, of any types. -/
inductive BusReaderCall (h : IpcHandle) : BusReader → Label → Code BusReader → Prop where
  | peekPacket (c : BusReader) (verifyCrc : Bool) : BusReaderCall h c {} do
      let pv ← peekPacket MaxPayloadSize Capacity host h verifyCrc
      return { c with found := if pv.isValid then some (.packet pv) else none }
  | peekMsg (c : BusReader) (Msg : MsgType) (verifyCrc : Bool) : Msg.Plain →
      BusReaderCall h c {} do
        let msg ← peekMsg MaxPayloadSize Capacity host h Msg verifyCrc
        return { c with found := msg.map (.msg Msg) }
  | read (c : BusReader) (x : Found) (payload : Ptr) (n : Nat) : c.found = some x →
      x.payload = some (payload, n) → BusReaderCall h c {} do
        let bytes ← loadBytes payload n
        return { c with log := c.log ++ [(c.count, bytes)] }
  | dispatch (c : BusReader) (msgTypes : List MsgType) (verifyCrc : Bool) :
      (∀ T ∈ msgTypes, T.Plain) → BusReaderCall h c {} do
        let returned ← dispatch MaxPayloadSize Capacity host h msgTypes record verifyCrc
        return { c with found := if returned = some true then some .visited else none }
  | commitRead (c : BusReader) (x : Found) : c.found = some x → BusReaderCall h c {} do
      commitRead MaxPayloadSize Capacity h
      return { c with count := c.count + 1, found := none }
  | dispatchAndCommit (c : BusReader) (msgTypes : List MsgType) (verifyCrc : Bool) :
      (∀ T ∈ msgTypes, T.Plain) → BusReaderCall h c {} do
        let returned ← dispatchAndCommit MaxPayloadSize Capacity host h msgTypes record
          verifyCrc
        return { c with
          count := if returned = some true then c.count + 1 else c.count, found := none }
  | consume (c : BusReader) (Msg : MsgType) (verifyCrc : Bool) : Msg.Plain →
      BusReaderCall h c {} do
        let returned ← consume MaxPayloadSize Capacity host h Msg record verifyCrc
        return { c with
          count := if returned = some true then c.count + 1 else c.count, found := none }

abbrev launch : Side → Party sys Backing :=
  launching (params MaxPayloadSize Capacity).layout
    (CreatorCall (create MaxPayloadSize Capacity host name)
      (producerOps MaxPayloadSize Capacity host) fun T => T.Plain ∧ T.size ≤ MaxPayloadSize)
    (AttachedCall (openRing MaxPayloadSize Capacity host name)
      (BusReaderCall MaxPayloadSize Capacity host) fun c => { c with found := none })

/-- There is no segment under the name. -/
def launchStart : Config (launch MaxPayloadSize Capacity host name) where
  state := {}
  thread := launching.idle {} { client := {} }

end IpcEnvelopeRingBuffer

end Sinew
