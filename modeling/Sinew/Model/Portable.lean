import Sinew.Model.Wire

/-!
# The portable path: `endian.hpp` and `portable.hpp`

`portable_swap` is chosen at compile time by the shape of its argument, so the
shapes are data here and the overload resolution is a match on them. The
layout of a struct is given by the offsets of its members; the two containers
lay themselves out, elements first and the 32-bit size behind them.

Two shapes fall through every branch of `portable_swap`: a C array, whose type
is neither fundamental nor an enumeration, and a struct without
`SINEW_REFLECT`. It leaves both as they are.
-/

namespace Sinew

open Lib

/-- `bswap16`, as the compiler's builtin defines it: the bytes reversed. -/
def bswap16 (v : UInt16) : UInt16 :=
  UInt16.ofNat (Endian.big.word (Endian.little.bytes 2 v.toNat))

def bswap32 (v : UInt32) : UInt32 :=
  UInt32.ofNat (Endian.big.word (Endian.little.bytes 4 v.toNat))

/-- `to_little_endian` at `uint16_t`; `from_little_endian` is the same. -/
def toLittleEndian16 (host : Endian) (v : UInt16) : UInt16 :=
  match host with
  | .little => v
  | .big => bswap16 v

def toLittleEndian32 (host : Endian) (v : UInt32) : UInt32 :=
  match host with
  | .little => v
  | .big => bswap32 v

/-- `byte_swap` on the bytes of a value: only 2, 4 and 8 of them are reversed. -/
def byteSwap (bytes : List UInt8) : List UInt8 :=
  if bytes.length = 2 ∨ bytes.length = 4 ∨ bytes.length = 8 then bytes.reverse
  else bytes

/-! A compiler that is neither of the three `endian.hpp` knows gets the swaps written out
with masks and shifts. -/

/-- The last branch of `bswap16`. The shifts are those of `int`, to which `val` is
promoted, and the cast takes the low half back. -/
def bswap16Shifts (val : UInt16) : UInt16 :=
  ((val.toUInt32 <<< 8) ||| (val.toUInt32 >>> 8)).toUInt16

/-- The last branch of `bswap32`. -/
def bswap32Shifts (val : UInt32) : UInt32 :=
  ((val &&& 0xFF000000) >>> 24) |||
  ((val &&& 0x00FF0000) >>> 8) |||
  ((val &&& 0x0000FF00) <<< 8) |||
  ((val &&& 0x000000FF) <<< 24)

/-- The last branch of `bswap64`. -/
def bswap64Shifts (val : UInt64) : UInt64 :=
  ((val &&& 0xFF00000000000000) >>> 56) |||
  ((val &&& 0x00FF000000000000) >>> 40) |||
  ((val &&& 0x0000FF0000000000) >>> 24) |||
  ((val &&& 0x000000FF00000000) >>> 8) |||
  ((val &&& 0x00000000FF000000) <<< 8) |||
  ((val &&& 0x0000000000FF0000) <<< 24) |||
  ((val &&& 0x000000000000FF00) <<< 40) |||
  ((val &&& 0x00000000000000FF) <<< 56)

/-- `byte_swap` on the bytes of a value, through these: it copies them into an integer
of their width, swaps that and copies it back. -/
def byteSwapShifts (host : Endian) (bytes : List UInt8) : List UInt8 :=
  if bytes.length = 2 then
    host.bytes 2 (bswap16Shifts (UInt16.ofNat (host.word bytes))).toNat
  else if bytes.length = 4 then
    host.bytes 4 (bswap32Shifts (UInt32.ofNat (host.word bytes))).toNat
  else if bytes.length = 8 then
    host.bytes 8 (bswap64Shifts (UInt64.ofNat (host.word bytes))).toNat
  else bytes

/-! ## Shapes -/

def roundUp (n k : Nat) : Nat := (n + k - 1) / k * k

theorem dvd_roundUp (n k : Nat) : k ∣ roundUp n k := Nat.dvd_mul_left k _

theorem le_roundUp (n : Nat) {k : Nat} (hk : 0 < k) : n ≤ roundUp n k := by
  have h := Nat.div_add_mod (n + k - 1) k
  have hlt := Nat.mod_lt (n + k - 1) hk
  rw [roundUp, Nat.mul_comm]
  omega

mutual

/-- What `portable_swap` can tell about the type of a field. -/
inductive Shape where
  /-- A fundamental type or an enumeration of `size` bytes. -/
  | scalar (size : Nat)
  /-- `T field[count]`, of fundamental or enumeration elements. -/
  | array (size count : Nat)
  /-- `StaticString<capacity>`. -/
  | staticString (capacity : Nat)
  /-- `StaticVector<elem, capacity>`. -/
  | staticVector (elem : Shape) (capacity : Nat)
  /-- A struct, with the members its `SINEW_REFLECT` lists. -/
  | reflected (size align : Nat) (members : Members)
  /-- Any other type. -/
  | other (size align : Nat)

/-- Members with their offsets, in the order they are listed. -/
inductive Members where
  | nil
  | cons (off : Nat) (field : Shape) (rest : Members)

end

namespace Shape

def align : Shape → Nat
  | scalar size => size
  | array size _ => size
  | staticString _ => 4
  | staticVector elem _ => max 4 elem.align
  | reflected _ align _ => align
  | other _ align => align

/-- `sizeof`. -/
def size : Shape → Nat
  | scalar size => size
  | array size count => size * count
  | staticString capacity => roundUp (capacity + 1) 4 + 4
  | staticVector elem capacity =>
      roundUp (roundUp (elem.size * capacity) 4 + 4) (max 4 elem.align)
  | reflected size _ _ => size
  | other size _ => size

/-- `offsetof(StaticString<capacity>, size_)`. -/
def stringSizeOff (capacity : Nat) : Nat := roundUp (capacity + 1) 4

/-- `offsetof(StaticVector<elem, capacity>, size_)`. -/
def vectorSizeOff (elem : Shape) (capacity : Nat) : Nat :=
  roundUp (elem.size * capacity) 4

end Shape

/-! ## `portable_swap` -/

/-- `val = byte_swap(val)` on the `n` bytes at `p`. -/
def swapField (p : Ptr) (n : Nat) : Code Unit := do
  let bytes ← loadBytes p n
  storeBytes p (byteSwap bytes)

/-- The element loop of the `StaticVector` branch. -/
def forElems (body : Ptr → Code Unit) (stride : Nat) : Nat → Ptr → Code Unit
  | 0, _ => pure ()
  | count + 1, p => do
      body p
      forElems body stride count (p.add stride)

mutual

def portableSwap (host : Endian) : Shape → Ptr → Code Unit
  | .reflected _ _ members, val => portableSwapMembers host members val
  | .staticVector elem capacity, val => do
      let size ← load32 host (val.add (Shape.vectorSizeOff elem capacity))
      let cap := UInt32.ofNat capacity
      let count := if size ≤ cap then size else cap
      forElems (portableSwap host elem) elem.size count.toNat val
      swapField (val.add (Shape.vectorSizeOff elem capacity)) 4
  | .staticString capacity, val =>
      swapField (val.add (Shape.stringSizeOff capacity)) 4
  | .scalar size, val =>
      if size > 1 then swapField val size else pure ()
  | .array _ _, _ => pure ()
  | .other _ _, _ => pure ()

/-- `sinew_reflect` with `portable_swap` as the visitor. -/
def portableSwapMembers (host : Endian) : Members → Ptr → Code Unit
  | .nil, _ => pure ()
  | .cons off field rest, val => do
      portableSwap host field (val.add off)
      portableSwapMembers host rest val

end

/-! ## `portable_encode` and `portable_decode` -/

/-- The source object is given by its bytes. -/
def portableEncode (host : Endian) (T : MsgType) (shape : Shape)
    (dest : Option Ptr) (destCapacity : Nat) (source : List UInt8)
    (computeCrc : Bool) : Code Nat :=
  match dest with
  | none => pure 0
  | some hdr => do
      if destCapacity < Header.size + T.size then
        return 0
      store32 host (hdr.add Header.magicOff) (toLittleEndian32 host sinewMagic)
      store16 host (hdr.add Header.msgIdOff) (toLittleEndian16 host T.id)
      store16 host (hdr.add Header.versionOff) (toLittleEndian16 host T.version)
      store32 host (hdr.add Header.payloadLenOff)
        (toLittleEndian32 host (UInt32.ofNat T.size))
      let payloadDest := hdr.add Header.size
      storeBytes payloadDest source
      if host = .big then
        portableSwap host shape payloadDest
      if computeCrc then
        let crc ← crc32At payloadDest T.size
        store32 host (hdr.add Header.crcOff) (toLittleEndian32 host crc)
      else
        store32 host (hdr.add Header.crcOff) 0
      return Header.size + T.size

def portableDecode (host : Endian) (T : MsgType) (shape : Shape)
    (src : Option Ptr) (srcLen : Nat) (dest : Ptr) (verifyCrc : Bool) :
    Code ErrorCode :=
  match src with
  | none => pure .bufferTooSmall
  | some hdr => do
      if srcLen < Header.size + T.size then
        return .bufferTooSmall
      let magic ← load32 host (hdr.add Header.magicOff)
      if toLittleEndian32 host magic ≠ sinewMagic then
        return .badMagic
      let msgId ← load16 host (hdr.add Header.msgIdOff)
      if toLittleEndian16 host msgId ≠ T.id then
        return .idMismatch
      let ver ← load16 host (hdr.add Header.versionOff)
      if toLittleEndian16 host ver ≠ T.version then
        return .versionMismatch
      let plen ← load32 host (hdr.add Header.payloadLenOff)
      if (toLittleEndian32 host plen).toNat ≠ T.size then
        return .bufferTooSmall
      let payloadSrc := hdr.add Header.size
      if verifyCrc then
        let crc ← load32 host (hdr.add Header.crcOff)
        if crc ≠ 0 then
          let computed ← crc32At payloadSrc T.size
          let crc ← load32 host (hdr.add Header.crcOff)
          if computed ≠ toLittleEndian32 host crc then
            return .checksumMismatch
      let bytes ← loadBytes payloadSrc T.size
      storeBytes dest bytes
      if host = .big then
        portableSwap host shape dest
      return .ok

/-! ## What a message says

The value of an object, as a program on a host of the given byte order reads
it: the fields that the shape lists, and of a container the elements that its
size admits. -/

inductive Value where
  | int (n : Nat)
  | array (elems : List Nat)
  | string (size : Nat) (chars : List UInt8)
  | vector (size : Nat) (elems : List Value)
  | record (fields : List Value)
  | unread

mutual

/-- The value at `a`. Elements of C arrays are read in the order `arrays`,
everything else in the order `host`; a program reads both in its own. -/
def Shape.value (host arrays : Endian) (f : Nat → UInt8) : Shape → Nat → Value
  | .scalar size, a => .int (host.word (slice f a size))
  | .array size count, a => .array ((List.range count).map fun i =>
      arrays.word (slice f (a + size * i) size))
  | .staticString capacity, a =>
      let size := host.word (slice f (a + Shape.stringSizeOff capacity) 4)
      .string size (slice f a (min size capacity))
  | .staticVector elem capacity, a =>
      let size := host.word (slice f (a + Shape.vectorSizeOff elem capacity) 4)
      .vector size ((List.range (min size capacity)).map fun i =>
        elem.value host arrays f (a + elem.size * i))
  | .reflected _ _ members, a => .record (members.values host arrays f a)
  | .other _ _, _ => .unread

def Members.values (host arrays : Endian) (f : Nat → UInt8) :
    Members → Nat → List Value
  | .nil, _ => []
  | .cons off field rest, a =>
      field.value host arrays f (a + off) :: rest.values host arrays f a

end

/-- A memory that holds an object at zero and nothing else. -/
def object (bytes : List UInt8) : Nat → UInt8 := patch (fun _ => 0) 0 bytes

/-- The value of an object given by its bytes. -/
def Shape.valueOf (host : Endian) (shape : Shape) (bytes : List UInt8) : Value :=
  shape.value host host (object bytes) 0

/-- No member overlaps the `n` bytes from `lo` on. -/
def Members.Avoid (lo n : Nat) : Members → Prop
  | .nil => True
  | .cons off field rest =>
      (off + field.size ≤ lo ∨ lo + n ≤ off) ∧ rest.Avoid lo n

mutual

/-- Members lie within the struct they are members of, as in any layout a
compiler makes. -/
def Shape.Laid : Shape → Prop
  | .staticVector elem _ => elem.Laid
  | .reflected size _ members => members.Laid size
  | .scalar _ => True
  | .array _ _ => True
  | .staticString _ => True
  | .other _ _ => True

def Members.Laid (size : Nat) : Members → Prop
  | .nil => True
  | .cons off field rest => field.Laid ∧ off + field.size ≤ size ∧ rest.Laid size

end

mutual

/-- Scalars of 1, 2, 4 or 8 bytes, C arrays of these, containers, and structs
that reflect every member, laid out without overlap. -/
def Shape.WF : Shape → Prop
  | .scalar size => size = 1 ∨ size = 2 ∨ size = 4 ∨ size = 8
  | .array size _ => size = 1 ∨ size = 2 ∨ size = 4 ∨ size = 8
  | .staticString _ => True
  | .staticVector elem capacity => elem.WF ∧ capacity < 65536
  | .reflected size _ members => members.WF size
  | .other _ _ => False

def Members.WF (size : Nat) : Members → Prop
  | .nil => True
  | .cons off field rest =>
      field.WF ∧ off + field.size ≤ size ∧ rest.Avoid off field.size ∧
        rest.WF size

end

mutual

/-- Every vector's `size_`, read in the order `host`, is within its capacity. -/
def Shape.Sized (host : Endian) (f : Nat → UInt8) : Shape → Nat → Prop
  | .staticVector elem capacity, a =>
      host.word (slice f (a + Shape.vectorSizeOff elem capacity) 4) ≤ capacity ∧
        ∀ i < host.word (slice f (a + Shape.vectorSizeOff elem capacity) 4),
          elem.Sized host f (a + elem.size * i)
  | .reflected _ _ members, a => members.Sized host f a
  | .scalar _, _ => True
  | .array _ _, _ => True
  | .staticString _, _ => True
  | .other _ _, _ => True

def Members.Sized (host : Endian) (f : Nat → UInt8) : Members → Nat → Prop
  | .nil, _ => True
  | .cons off field rest, a => field.Sized host f (a + off) ∧ rest.Sized host f a

end

mutual

/-- Every element of every C array the value reads is the same bytes in either
order. -/
def Shape.Palindromic (host : Endian) (f : Nat → UInt8) : Shape → Nat → Prop
  | .array size count, a => ∀ i < count,
      (slice f (a + size * i) size).reverse = slice f (a + size * i) size
  | .staticVector elem capacity, a =>
      ∀ i < min (host.word (slice f (a + Shape.vectorSizeOff elem capacity) 4))
          capacity, elem.Palindromic host f (a + elem.size * i)
  | .reflected _ _ members, a => members.Palindromic host f a
  | .scalar _, _ => True
  | .staticString _, _ => True
  | .other _ _, _ => True

def Members.Palindromic (host : Endian) (f : Nat → UInt8) : Members → Nat → Prop
  | .nil, _ => True
  | .cons off field rest, a =>
      field.Palindromic host f (a + off) ∧ rest.Palindromic host f a

end

mutual

/-- Shapes as above, with vectors of any capacity that a `uint32_t` holds. -/
def Shape.Swappable : Shape → Prop
  | .scalar size => size = 1 ∨ size = 2 ∨ size = 4 ∨ size = 8
  | .array _ _ => True
  | .staticString _ => True
  | .staticVector elem capacity => elem.Swappable ∧ capacity < 2 ^ 32
  | .reflected size _ members => members.Swappable size
  | .other _ _ => False

def Members.Swappable (size : Nat) : Members → Prop
  | .nil => True
  | .cons off field rest =>
      field.Swappable ∧ off + field.size ≤ size ∧ rest.Avoid off field.size ∧
        rest.Swappable size

end

mutual

/-- Every scalar and every container's `size_` that the value reads is the same
bytes in either order. -/
def Shape.Symmetric (host : Endian) (f : Nat → UInt8) : Shape → Nat → Prop
  | .scalar size, a => (slice f a size).reverse = slice f a size
  | .staticString capacity, a =>
      let size := slice f (a + Shape.stringSizeOff capacity) 4
      size.reverse = size
  | .staticVector elem capacity, a =>
      let size := slice f (a + Shape.vectorSizeOff elem capacity) 4
      size.reverse = size ∧ ∀ i < host.word size, elem.Symmetric host f (a + elem.size * i)
  | .reflected _ _ members, a => members.Symmetric host f a
  | .array _ _, _ => True
  | .other _ _, _ => True

def Members.Symmetric (host : Endian) (f : Nat → UInt8) : Members → Nat → Prop
  | .nil, _ => True
  | .cons off field rest, a =>
      field.Symmetric host f (a + off) ∧ rest.Symmetric host f a

end

mutual

/-- Of every vector that the value reads, the elements from `bswap32(size_)` on,
if there are any, are the same in either order. -/
def Shape.Reversible (host : Endian) (f : Nat → UInt8) : Shape → Nat → Prop
  | .staticVector elem capacity, a =>
      let size := slice f (a + Shape.vectorSizeOff elem capacity) 4
      ∀ i < host.word size,
        if i < host.word size.reverse then elem.Reversible host f (a + elem.size * i)
        else elem.Symmetric host f (a + elem.size * i)
  | .reflected _ _ members, a => members.Reversible host f a
  | .scalar _, _ => True
  | .array _ _, _ => True
  | .staticString _, _ => True
  | .other _ _, _ => True

def Members.Reversible (host : Endian) (f : Nat → UInt8) : Members → Nat → Prop
  | .nil, _ => True
  | .cons off field rest, a =>
      field.Reversible host f (a + off) ∧ rest.Reversible host f a

end

/-- `McuImuSample` to `portable_swap`: five members, three of them C arrays. -/
def mcuImuShape : Shape :=
  .reflected 24 4 <|
    .cons 0 (.scalar 4) <|
    .cons 4 (.array 2 3) <|
    .cons 10 (.array 2 3) <|
    .cons 16 (.array 2 3) <|
    .cons 22 (.scalar 2) .nil

end Sinew
