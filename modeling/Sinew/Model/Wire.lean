import Mathlib.Logic.Function.Iterate
import Sinew.Model.Machine

/-!
# The wire format: `crc32.hpp`, `types.hpp`, `message.hpp` and `wire.hpp`

A packet is a packed 16-byte header and the payload behind it, in the host's
byte order. The functions are the templates of `wire.hpp` with the message
type as an argument; `nullptr` is `none`, and each `hdr->field` is a load or a
store of the field's bytes at the place the source has it.

The checksum goes a byte at a time, from a table of 256 words. The register is
a local of the loop, so what the rest of the program can see of `crc32` is that
it loads the bytes in order; `crc32At` is that, and `crc32From` what it makes of
them.

A message type that the macros of `sinew.hpp` register gets a hash of its name
for an identifier. The name comes from the preprocessor, so it is whatever
characters the identifier has.
-/

namespace Sinew

open Lib

/-- The body of the table generator's inner loop. -/
def crc32Bit (crc : UInt32) : UInt32 :=
  if crc &&& 1 ≠ 0 then (0xEDB88320 : UInt32) ^^^ (crc >>> 1) else crc >>> 1

def generateCrc32Table : Vector UInt32 256 :=
  .ofFn fun i => crc32Bit^[8] (UInt32.ofNat i)

def crc32Table : Vector UInt32 256 := generateCrc32Table

/-- The body of the checksum loop. -/
def crc32Step (crc : UInt32) (byte : UInt8) : UInt32 :=
  let lookupIndex := (crc ^^^ byte.toUInt32).toUInt8
  (crc >>> 8) ^^^ crc32Table.get ⟨lookupIndex.toNat, lookupIndex.toNat_lt⟩

/-- `crc32(data, length, initial)`. The early return for `length == 0` is the
empty string's, and a null `data` is read as one. -/
def crc32From (initial : UInt32) (bytes : List UInt8) : UInt32 :=
  if bytes = [] then 0
  else bytes.foldl crc32Step initial ^^^ 0xFFFFFFFF

/-- `crc32(data, length)`, with the default `initial`. -/
def crc32 (bytes : List UInt8) : UInt32 := crc32From 0xFFFFFFFF bytes

/-- `crc32` over memory. -/
def crc32At (data : Ptr) (length : Nat) : Code UInt32 := do
  let bytes ← loadBytes data length
  pure (crc32 bytes)

@[simp] theorem run_crc32At (m : Mem) (p : Ptr) (n : Nat) :
    (crc32At p n).run Mem.machine m = (crc32 (slice m.byte p.off n), m) := by
  simp [crc32At]

theorem crc32At_loadsIn {p : Ptr} {n lo hi : Nat} {m : Mem} (hlo : lo ≤ p.off)
    (hhi : p.off + n ≤ hi) :
    (crc32At p n).Along Mem.machine (LoadsIn lo hi) m := by
  simp only [crc32At, Prog.along_bind, Prog.along_pure, and_true]
  exact loadBytes_loadsIn hlo hhi

inductive ErrorCode where
  | ok
  | bufferTooSmall
  | badMagic
  | idMismatch
  | versionMismatch
  | checksumMismatch
  | misaligned
  deriving DecidableEq, Repr

/-- `SINEW_MAGIC`. -/
def sinewMagic : UInt32 := 0x574E4953

structure Header where
  magic : UInt32
  msgId : UInt16
  version : UInt16
  crc : UInt32
  payloadLen : UInt32
  deriving DecidableEq, Repr

namespace Header

/-- `sizeof(Header)`; the struct is packed. -/
def size : Nat := 16

def magicOff : Nat := 0

def msgIdOff : Nat := 4

def versionOff : Nat := 6

def crcOff : Nat := 8

def payloadLenOff : Nat := 12

/-- The header as it lies in memory. -/
def encode (host : Endian) (h : Header) : List UInt8 :=
  host.bytes 4 h.magic.toNat ++ host.bytes 2 h.msgId.toNat ++
    host.bytes 2 h.version.toNat ++ host.bytes 4 h.crc.toNat ++
    host.bytes 4 h.payloadLen.toNat

/-- The header a host finds at `a`. -/
def ofMem (host : Endian) (f : Nat → UInt8) (a : Nat) : Header where
  magic := u32At host f (a + magicOff)
  msgId := u16At host f (a + msgIdOff)
  version := u16At host f (a + versionOff)
  crc := u32At host f (a + crcOff)
  payloadLen := u32At host f (a + payloadLenOff)

end Header

/-- `message_size<T>()`. -/
def messageSize (T : MsgType) : Nat := Header.size + T.size

def validate (host : Endian) (T : MsgType) (buffer : Option Ptr) (size : Nat)
    (verifyCrc : Bool) : Code ErrorCode :=
  match buffer with
  | none => pure .bufferTooSmall
  | some hdr => do
      if size < Header.size + T.size then
        return .bufferTooSmall
      let payloadPtr := hdr.add Header.size
      if payloadPtr.addr % T.align ≠ 0 then
        return .misaligned
      let magic ← load32 host (hdr.add Header.magicOff)
      if magic ≠ sinewMagic then
        return .badMagic
      let payloadLen ← load32 host (hdr.add Header.payloadLenOff)
      if payloadLen.toNat ≠ T.size then
        return .bufferTooSmall
      let msgId ← load16 host (hdr.add Header.msgIdOff)
      if msgId ≠ T.id then
        return .idMismatch
      let version ← load16 host (hdr.add Header.versionOff)
      if version ≠ T.version then
        return .versionMismatch
      if verifyCrc then
        let crc ← load32 host (hdr.add Header.crcOff)
        if crc ≠ 0 then
          let computed ← crc32At payloadPtr T.size
          let crc ← load32 host (hdr.add Header.crcOff)
          if computed ≠ crc then
            return .checksumMismatch
      return .ok

/-- `ViewResult<T>` and `PrepareResult<T>`, which have the same two members. -/
structure PtrResult where
  value : Option Ptr
  error : ErrorCode
  deriving DecidableEq, Repr

/-- `ok()` of `ViewResult` and `PrepareResult`. -/
def PtrResult.isOk (r : PtrResult) : Bool := r.error = .ok && r.value.isSome

def viewResult (host : Endian) (T : MsgType) (buffer : Option Ptr) (size : Nat)
    (verifyCrc : Bool) : Code PtrResult := do
  let err ← validate host T buffer size verifyCrc
  if err ≠ .ok then
    return ⟨none, err⟩
  return ⟨buffer.map (·.add Header.size), .ok⟩

def view (host : Endian) (T : MsgType) (buffer : Option Ptr) (size : Nat)
    (verifyCrc : Bool) : Code (Option Ptr) := do
  let err ← validate host T buffer size verifyCrc
  if err ≠ .ok then
    return none
  return buffer.map (·.add Header.size)

/-- `new (payload_ptr) T`: the stores of the default member initialisers. -/
def construct (payloadPtr : Ptr) : List (Nat × UInt8) → Code Unit
  | [] => pure ()
  | x :: xs => do
      store (payloadPtr.add x.1) x.2
      construct payloadPtr xs

def prepareResult (host : Endian) (T : MsgType) (buffer : Option Ptr)
    (capacity : Nat) : Code PtrResult :=
  match buffer with
  | none => pure ⟨none, .bufferTooSmall⟩
  | some hdr => do
      if capacity < Header.size + T.size then
        return ⟨none, .bufferTooSmall⟩
      let payloadPtr := hdr.add Header.size
      if payloadPtr.addr % T.align ≠ 0 then
        return ⟨none, .misaligned⟩
      store32 host (hdr.add Header.magicOff) sinewMagic
      store16 host (hdr.add Header.msgIdOff) T.id
      store16 host (hdr.add Header.versionOff) T.version
      store32 host (hdr.add Header.crcOff) 0
      store32 host (hdr.add Header.payloadLenOff) (UInt32.ofNat T.size)
      -- `memset`, so that padding is the same in every packet
      storeBytes payloadPtr (List.replicate T.size 0)
      construct payloadPtr T.ctor
      return ⟨some payloadPtr, .ok⟩

def prepare (host : Endian) (T : MsgType) (buffer : Option Ptr)
    (capacity : Nat) : Code (Option Ptr) := do
  let r ← prepareResult host T buffer capacity
  return r.value

def finalize (host : Endian) (T : MsgType) (payload : Option Ptr)
    (computeCrc : Bool) : Code Nat :=
  match payload with
  | none => pure 0
  | some payload => do
      let hdr := payload.sub Header.size
      if computeCrc then
        let crc ← crc32At payload T.size
        store32 host (hdr.add Header.crcOff) crc
      else
        store32 host (hdr.add Header.crcOff) 0
      return Header.size + T.size

/-- The in-place path a sender takes: `prepare`, write the payload, `finalize`.
Answers what `finalize` returns, or zero when `prepare` fails. -/
def writeInPlace (host : Endian) (T : MsgType) (buffer : Option Ptr)
    (capacity : Nat) (payload : List UInt8) (computeCrc : Bool) : Code Nat := do
  let slot ← prepare host T buffer capacity
  match slot with
  | none => return 0
  | some p =>
      storeBytes p payload
      finalize host T (some p) computeCrc

/-- The header a packet of this type carries. -/
def MsgType.header (T : MsgType) (crc : UInt32) : Header where
  magic := sinewMagic
  msgId := T.id
  version := T.version
  crc := crc
  payloadLen := UInt32.ofNat T.size

/-- `McuImuSample` of `examples/mcu_freestanding.cpp`: a `uint32_t` and ten
`int16_t`, registered as id `0x10`, version 1. -/
def mcuImuSample : MsgType where
  size := 24
  align := 4
  id := 0x10
  version := 1
  ctor := []
  size_pos := by decide
  align_pow := MsgType.four_pow
  align_dvd := by decide
  ctor_lt := by simp

/-- `PingMsg` of the dispatch tests: a `uint32_t`, id 1, version 1. -/
def pingMsg : MsgType where
  size := 4
  align := 4
  id := 1
  version := 1
  ctor := []
  size_pos := by decide
  align_pow := MsgType.four_pow
  align_dvd := by decide
  ctor_lt := by simp

/-- The bytes of a packet. -/
def packet (host : Endian) (T : MsgType) (crc : UInt32) (payload : List UInt8) :
    List UInt8 :=
  (T.header crc).encode host ++ payload

/-- What a freshly constructed payload holds: zeros, and the default member
initialisers over them. -/
def MsgType.fresh (T : MsgType) : List UInt8 :=
  T.ctor.foldl (fun bs x => bs.set x.1 x.2) (List.replicate T.size 0)

/-- The checksum field `finalize` leaves: of the payload, or zero. -/
def crcField (computeCrc : Bool) (payload : List UInt8) : UInt32 :=
  if computeCrc then crc32 payload else 0

/-! ## Message identity -/

/-- One round of the hash. -/
def fnv1aStep (hash : UInt32) (c : UInt8) : UInt32 :=
  (hash ^^^ c.toUInt32) * 0x01000193

def fnv1a16 (s : Name) : UInt16 :=
  let hash := s.foldl fnv1aStep 0x811c9dc5
  let h16 := ((hash >>> 16) ^^^ (hash &&& 0xFFFF)).toUInt16
  if h16 = 0 then 1 else h16

/-- `SINEW_MESSAGE(Name, ...)`, for a struct with this layout. -/
def sinewMessage (name : Name) (struct : MsgType) : MsgType :=
  { struct with id := fnv1a16 name, version := 1 }

end Sinew
