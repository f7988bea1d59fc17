import Sinew.Model.Wire

/-!
# Untyped packets: `dispatch.hpp`

A visitor is any program that is handed the type and the payload of a message.
It may throw; an exception passes through `dispatch` to its caller, and is
`none` where the C++ function has not returned at all.
-/

namespace Sinew

open Lib

/-- How a callback comes back. -/
inductive Outcome where
  | returned
  | threw
  deriving DecidableEq, Repr

/-- An overload set on `const Msg&`. -/
abbrev Visitor := MsgType → Ptr → Code Outcome

/-- The visitor that keeps a copy of what it is handed. -/
def record : Visitor := fun T msg => do
  let bytes ← loadBytes msg T.size
  visit T bytes
  return .returned

structure PacketView where
  header : Header := ⟨0, 0, 0, 0, 0⟩
  payload : Option Ptr := none
  payloadLen : Nat := 0
  deriving DecidableEq, Repr

def PacketView.isValid (pv : PacketView) : Bool :=
  pv.header.magic = sinewMagic && pv.payload.isSome

/-- `*hdr`, field by field. -/
def loadHeader (host : Endian) (hdr : Ptr) : Code Header := do
  let magic ← load32 host (hdr.add Header.magicOff)
  let msgId ← load16 host (hdr.add Header.msgIdOff)
  let version ← load16 host (hdr.add Header.versionOff)
  let crc ← load32 host (hdr.add Header.crcOff)
  let payloadLen ← load32 host (hdr.add Header.payloadLenOff)
  return ⟨magic, msgId, version, crc, payloadLen⟩

/-- Answers the error code and what is then in `out_view`. -/
def inspectPacket (host : Endian) (buffer : Option Ptr) (size : Nat)
    (outView : PacketView) : Code (ErrorCode × PacketView) :=
  match buffer with
  | none => pure (.bufferTooSmall, outView)
  | some hdr => do
      if size < Header.size then
        return (.bufferTooSmall, outView)
      let magic ← load32 host (hdr.add Header.magicOff)
      if magic ≠ sinewMagic then
        return (.badMagic, outView)
      let payloadLen ← load32 host (hdr.add Header.payloadLenOff)
      if payloadLen.toNat > size - Header.size then
        return (.bufferTooSmall, outView)
      let header ← loadHeader host hdr
      let payloadLen ← load32 host (hdr.add Header.payloadLenOff)
      return (.ok, ⟨header, some (hdr.add Header.size), payloadLen.toNat⟩)

/-- The two loops compare every pair of indices `i < j`. -/
def hasDuplicateMessageIds (msgTypes : List MsgType) : Bool :=
  let ids := msgTypes.map (·.id)
  (List.range ids.length).any fun i =>
    (List.range' (i + 1) (ids.length - (i + 1))).any fun j => ids[i]? == ids[j]?

/-- `visitor(*msg); return true;` -/
def callVisitor (visitor : Visitor) (T : MsgType) (msg : Ptr) :
    Code (Option Bool) := do
  let outcome ← visitor T msg
  match outcome with
  | .returned => return some true
  | .threw => return none

def tryDispatchSingle (host : Endian) (T : MsgType) (msgId : UInt16)
    (buffer : Option Ptr) (size : Nat) (visitor : Visitor) (verifyCrc : Bool) :
    Code (Option Bool) := do
  if T.id = msgId then
    let msg ← view host T buffer size verifyCrc
    match msg with
    | some msg => callVisitor visitor T msg
    | none => return some false
  else
    return some false

/-- The fold over `||`: the first type that answers `true` ends it, and so does
an exception. `hdr->msg_id` is an argument of each of its calls, and so is loaded
again for every type that is tried. -/
def tryDispatchEach (host : Endian) (hdr : Ptr) (size : Nat) (visitor : Visitor)
    (verifyCrc : Bool) : List MsgType → Code (Option Bool)
  | [] => return some false
  | T :: rest => do
      let msgId ← load16 host (hdr.add Header.msgIdOff)
      let r ← tryDispatchSingle host T msgId (some hdr) size visitor verifyCrc
      if r = some false then
        tryDispatchEach host hdr size visitor verifyCrc rest
      else
        return r

def dispatch (host : Endian) (msgTypes : List MsgType) (buffer : Option Ptr)
    (size : Nat) (visitor : Visitor) (verifyCrc : Bool) : Code (Option Bool) :=
  match buffer with
  | none => return some false
  | some hdr => do
      if size < Header.size then
        return some false
      let magic ← load32 host (hdr.add Header.magicOff)
      if magic ≠ sinewMagic then
        return some false
      tryDispatchEach host hdr size visitor verifyCrc msgTypes

/-- `dispatch` from a `PacketView`, where `size_t` has `w` bits. -/
def dispatchView (w : Nat) (host : Endian) (msgTypes : List MsgType)
    (pv : PacketView) (visitor : Visitor) (verifyCrc : Bool) : Code (Option Bool) :=
  if pv.isValid then
    let rawBuffer := pv.payload.map (·.sub Header.size)
    let totalSize := (Header.size + pv.payloadLen) % 2 ^ w
    dispatch host msgTypes rawBuffer totalSize visitor verifyCrc
  else
    return some false

/-- `PongMsg` of the dispatch tests: a `uint32_t` and a `uint64_t`, id 2. -/
def pongMsg : MsgType where
  size := 16
  align := 8
  id := 2
  version := 1
  ctor := []
  size_pos := by decide
  align_pow := MsgType.eight_pow
  align_dvd := by decide
  ctor_lt := by simp

end Sinew
