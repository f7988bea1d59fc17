import Sinew.Model.Containers
import Sinew.Model.Portable

/-!
# Containers as they lie in a message

A container in a payload is its bytes: the cells one behind the other, and the
count behind them in the host's order. `ofMem` is what a member function finds
there, and `toMem` what it leaves: of the cells only the bytes that the element
type owns, since an assignment leaves padding alone. What is behind the capacity
is no part of the object.

A message that is filled in place is a struct of such members. A program edits
one of them at a time, between `prepare` and `finalize`.
-/

namespace Sinew

open Lib

/-- The vector at `a`: cells of `stride` bytes, and the count `sizeOff` bytes in. -/
def StaticVector.ofMem {α : Type} {Capacity : Nat} (host : Endian)
    (cell : (Nat → UInt8) → Nat → α) (stride sizeOff : Nat) (f : Nat → UInt8) (a : Nat) :
    StaticVector α Capacity where
  data i := cell f (a + stride * i)
  size := u32At host f (a + sizeOff)

/-- The string at `a`. -/
def StaticString.ofMem {Capacity : Nat} (host : Endian) (f : Nat → UInt8) (a : Nat) :
    StaticString Capacity where
  data i := f (a + i)
  size := u32At host f (a + Shape.stringSizeOff Capacity)

def StaticString.toMem {Capacity : Nat} (host : Endian) (s : StaticString Capacity)
    (f : Nat → UInt8) (a : Nat) : Nat → UInt8 :=
  patch (patch f a (slice s.data 0 (Capacity + 1))) (a + Shape.stringSizeOff Capacity)
    (host.bytes 4 s.size.toNat)

/-- The type of a field, or of a vector's elements: which of its bytes are not padding,
and its `operator==`. -/
structure ElemType where
  size : Nat
  owns : Nat → Bool
  owns_lt : ∀ i, owns i = true → i < size
  same : ({i : Nat // owns i = true} → UInt8) → ({i : Nat // owns i = true} → UInt8) → Bool

namespace ElemType

variable (E : ElemType)

/-- An object, as the bytes it owns. -/
def Object : Type := {i : Nat // E.owns i = true} → UInt8

instance : BEq E.Object := ⟨E.same⟩

/-- An integer or an enumeration of `size` bytes, which has no padding and is compared
by its bytes. -/
def scalar (size : Nat) : ElemType where
  size := size
  owns i := decide (i < size)
  owns_lt _ h := of_decide_eq_true h
  same x y := (List.range size).all fun i =>
    if h : decide (i < size) = true then x ⟨i, h⟩ == y ⟨i, h⟩ else true

def read (f : Nat → UInt8) (a : Nat) : E.Object := fun i => f (a + i)

/-- Assignment to the object at `a`. -/
def write (x : E.Object) (f : Nat → UInt8) (a : Nat) : Nat → UInt8 := fun y =>
  if h : a ≤ y ∧ E.owns (y - a) = true then x ⟨y - a, h.2⟩ else f y

/-- `offsetof(StaticVector<E, capacity>, size_)`. -/
def sizeOff (capacity : Nat) : Nat := roundUp (E.size * capacity) 4

end ElemType

def StaticVector.toMem {E : ElemType} {Capacity : Nat} (host : Endian)
    (v : StaticVector E.Object Capacity) (f : Nat → UInt8) (a : Nat) : Nat → UInt8 :=
  let cells := fun y =>
    if h : a ≤ y ∧ (y - a) / E.size < Capacity ∧ E.owns ((y - a) % E.size) = true then
      v.data ((y - a) / E.size) ⟨(y - a) % E.size, h.2.2⟩
    else f y
  patch cells (a + E.sizeOff Capacity) (host.bytes 4 v.size.toNat)

/-- A member of a message. -/
inductive Field where
  | plain (type : ElemType)
  | vector (elem : ElemType) (capacity : Nat)
  | string (capacity : Nat)

/-- A member function of a container, or an assignment to all of it. -/
inductive ContainerEdit (Op Obj : Type) where
  | call (op : Op)
  | copy (object : Obj)

namespace Field

/-- The byte at this offset is not padding. -/
def owns : Field → Nat → Bool
  | .plain E, i => E.owns i
  | .vector E capacity, i =>
      (decide (i / E.size < capacity) && E.owns (i % E.size)) ||
        (decide (E.sizeOff capacity ≤ i) && decide (i < E.sizeOff capacity + 4))
  | .string capacity, i =>
      decide (i < capacity + 1) ||
        (decide (Shape.stringSizeOff capacity ≤ i) &&
          decide (i < Shape.stringSizeOff capacity + 4))

def vectorAt (host : Endian) (E : ElemType) (capacity : Nat) (f : Nat → UInt8) (a : Nat) :
    StaticVector E.Object capacity :=
  .ofMem host E.read E.size (E.sizeOff capacity) f a

/-- What a program does to a member. -/
def Edit : Field → Type
  | .plain E => E.Object
  | .vector E capacity =>
      ContainerEdit (StaticVector.Op E.Object) (StaticVector E.Object capacity)
  | .string capacity => ContainerEdit StaticString.Op (StaticString capacity)

def edit (host : Endian) (w : Nat) (hasExceptions : Bool) :
    (F : Field) → F.Edit → (Nat → UInt8) → Nat → Option (Nat → UInt8)
  | .plain E, x, f, a => some (E.write x f a)
  | .vector E capacity, .call op, f, a => do
      let (_, v) ← (vectorAt host E capacity f a).step hasExceptions op
      return v.toMem host f a
  | .vector _ _, .copy v, f, a => some (v.toMem host f a)
  | .string capacity, .call op, f, a => do
      let (_, s) ← (StaticString.ofMem host f a : StaticString capacity).step w
        hasExceptions op
      return s.toMem host f a
  | .string _, .copy s, f, a => some (s.toMem host f a)

/-- Whether two members are equal, containers by their `operator==`. -/
def equal (host : Endian) :
    Field → (Nat → UInt8) → Nat → (Nat → UInt8) → Nat → Option Bool
  | .plain E, f, a, g, b => some (E.read f a == E.read g b)
  | .vector E capacity, f, a, g, b =>
      (vectorAt host E capacity f a).equal (vectorAt host E capacity g b)
  | .string capacity, f, a, g, b =>
      (StaticString.ofMem host f a : StaticString capacity).equal
        (StaticString.ofMem host g b)

end Field

/-- The members of a message of `size` bytes, each at its offset. -/
structure Record (ι : Type) (size : Nat) where
  field : ι → Field
  off : ι → Nat
  within : ∀ i x, (field i).owns x = true → off i + x < size
  apart : ∀ i j x y, (field i).owns x = true → (field j).owns y = true →
    off i + x = off j + y → i = j

namespace Record

variable {ι : Type} {size : Nat} (R : Record ι size)

/-- An edit of one of the members. -/
def Edit : Type := (i : ι) × (R.field i).Edit

/-- A sequence of edits of the payload at `a`. -/
def edit (host : Endian) (w : Nat) (hasExceptions : Bool) :
    List R.Edit → (Nat → UInt8) → Nat → Option (Nat → UInt8)
  | [], f, _ => some f
  | e :: es, f, a => do
      let g ← (R.field e.1).edit host w hasExceptions e.2 f (a + R.off e.1)
      edit host w hasExceptions es g a

/-- What a sender does in place: `prepare`, the edits, `finalize`. There is nothing to
edit where `prepare` answers null. -/
def send (host : Endian) (w : Nat) (hasExceptions : Bool) (T : MsgType)
    (R : Record ι T.size) (edits : List R.Edit) (buffer : Option Ptr) (capacity : Nat)
    (computeCrc : Bool) (m : Mem) : Option (Nat × Mem) := do
  let (slot, m) := (prepare host T buffer capacity).run Mem.machine m
  let payload ← slot
  let f ← R.edit host w hasExceptions edits m.byte payload.off
  return (finalize host T (some payload) computeCrc).run Mem.machine { m with byte := f }

end Record

end Sinew
