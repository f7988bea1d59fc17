import Mathlib.Algebra.Group.Nat.Defs
import Sinew.Lib.Bounded
import Sinew.Lib.Cells

/-!
# Bounded containers: `containers.hpp`

An array and a count. The array is a run of cells, of which the object has as
many as its template parameter says; a member function that would touch another
cell has no defined behaviour, and answers `none`. Nothing keeps the count
within the capacity but the member functions themselves, so an object whose
bytes came from elsewhere may have any.

An argument that is passed by reference may refer into the object itself, and a
`string_view` may be a view of it. It is read where the source reads it, from
the object as it is at that moment.
-/

namespace Sinew

open Lib

/-- What `at` throws. -/
inductive OutOfRange where
  | outOfRange
  deriving DecidableEq, Repr

/-! ## `StaticVector<T, Capacity>` -/

structure StaticVector (α : Type) (Capacity : Nat) where
  data : Nat → α
  size : UInt32

/-- A `const T&`: an object elsewhere, or an element of the vector. -/
inductive Ref (α : Type) where
  | object (value : α)
  | element (index : Nat)

namespace StaticVector

variable {α : Type} {Capacity : Nat}

/-- The defaulted constructor; `zero` is `T{}`. -/
def construct (zero : α) : StaticVector α Capacity := ⟨fun _ => zero, 0⟩

/-- `data_[i]`, as a value. -/
def load (v : StaticVector α Capacity) (i : Nat) : Option α :=
  if i < Capacity then some (v.data i) else none

/-- `data_[i] = x`. -/
def store (v : StaticVector α Capacity) (i : Nat) (x : α) :
    Option (StaticVector α Capacity) :=
  if i < Capacity then some { v with data := Function.update v.data i x } else none

def read (v : StaticVector α Capacity) : Ref α → Option α
  | .object value => some value
  | .element index => v.load index

def clear (v : StaticVector α Capacity) : StaticVector α Capacity := { v with size := 0 }

def pushBack (v : StaticVector α Capacity) (value : Ref α) :
    Option (Bool × StaticVector α Capacity) := do
  if v.size.toNat ≥ Capacity then
    return (false, v)
  let x ← v.read value
  let w ← v.store v.size.toNat x
  return (true, { w with size := v.size + 1 })

/-- `T{args...}` is complete before it is assigned; `value` is what it is made of. -/
def emplaceBack (v : StaticVector α Capacity) (value : Ref α) :
    Option (Bool × StaticVector α Capacity) := do
  if v.size.toNat ≥ Capacity then
    return (false, v)
  let x ← v.read value
  let w ← v.store v.size.toNat x
  return (true, { w with size := v.size + 1 })

def popBack (v : StaticVector α Capacity) : Bool × StaticVector α Capacity :=
  if v.size = 0 then (false, v) else (true, { v with size := v.size - 1 })

/-- The loop of `resize`, `count` turns from `i` on. -/
def fill (defaultValue : Ref α) : Nat → UInt32 → StaticVector α Capacity →
    Option (StaticVector α Capacity)
  | 0, _, v => some v
  | count + 1, i, v => do
      let x ← v.read defaultValue
      let w ← v.store i.toNat x
      fill defaultValue count (i + 1) w

def resize (v : StaticVector α Capacity) (newSize : UInt32) (defaultValue : Ref α) :
    Option (Bool × StaticVector α Capacity) := do
  if newSize.toNat > Capacity then
    return (false, v)
  let w ← fill defaultValue (newSize.toNat - v.size.toNat) v.size v
  return (true, { w with size := newSize })

/-- `at(index)`: which element the reference is to. Without exceptions (and without
assertions) an index past the end is answered with the first element. -/
def atIndex (hasExceptions : Bool) (v : StaticVector α Capacity) (index : UInt32) :
    Except OutOfRange Nat :=
  if index ≥ v.size then
    if hasExceptions then .error .outOfRange else .ok 0
  else .ok index.toNat

/-- The loop of `operator==`, `count` turns from `i` on. -/
def equalFrom [BEq α] (v w : StaticVector α Capacity) : Nat → Nat → Option Bool
  | 0, _ => some true
  | count + 1, i => do
      let x ← v.load i
      let y ← w.load i
      if !(x == y) then
        return false
      equalFrom v w count (i + 1)

/-- `operator==`. -/
def equal [BEq α] (v w : StaticVector α Capacity) : Option Bool :=
  if v.size ≠ w.size then some false else equalFrom v w v.size.toNat 0

/-! Histories. -/

/-- The calls that change a vector. An element is assigned to through `at`, through
`operator[]` or through an iterator. -/
inductive Op (α : Type) where
  | pushBack (value : Ref α)
  | emplaceBack (value : Ref α)
  | popBack
  | resize (newSize : UInt32) (defaultValue : Ref α)
  | clear
  | assignAt (index : UInt32) (value : Ref α)
  | assignIndex (index : UInt32) (value : Ref α)
  | assignIterator (position : Nat) (value : Ref α)

/-- `data_[i] = value`, where `i` is known. -/
def assign (v : StaticVector α Capacity) (i : Nat) (value : Ref α) :
    Option (Bool × StaticVector α Capacity) := do
  let x ← v.read value
  let w ← v.store i x
  return (true, w)

/-- One call and its answer. `clear` and an assignment answer `true`; an `at` that
throws answers `false`. -/
def step (hasExceptions : Bool) (v : StaticVector α Capacity) :
    Op α → Option (Bool × StaticVector α Capacity)
  | .pushBack value => v.pushBack value
  | .emplaceBack value => v.emplaceBack value
  | .popBack => some v.popBack
  | .resize newSize defaultValue => v.resize newSize defaultValue
  | .clear => some (true, v.clear)
  | .assignAt index value =>
      match v.atIndex hasExceptions index with
      | .error _ => some (false, v)
      | .ok i => v.assign i value
  | .assignIndex index value => v.assign index.toNat value
  | .assignIterator position value => v.assign position value

/-- A sequence of calls and their answers. -/
def run (hasExceptions : Bool) (v : StaticVector α Capacity) :
    List (Op α) → Option (List Bool × StaticVector α Capacity)
  | [] => some ([], v)
  | op :: ops => do
      let (answer, w) ← v.step hasExceptions op
      let (answers, w) ← w.run hasExceptions ops
      return (answer :: answers, w)

end StaticVector

/-! ## `StaticString<Capacity>` -/

structure StaticString (Capacity : Nat) where
  data : Nat → UInt8
  size : UInt32

/-- A `std::string_view`: of characters elsewhere, or of the string's own cells. -/
inductive StringView where
  | external (chars : List UInt8)
  | own (offset length : Nat)

/-- A `const char*`: null, a terminated string elsewhere, or a pointer to one of
the string's own cells. -/
inductive CharPtr where
  | null
  | external (chars : List UInt8)
  | own (offset : Nat)

def StringView.size : StringView → Nat
  | .external chars => chars.length
  | .own _ length => length

namespace StaticString

variable {Capacity : Nat}

def load (s : StaticString Capacity) (i : Nat) : Option UInt8 :=
  if i < Capacity + 1 then some (s.data i) else none

def store (s : StaticString Capacity) (i : Nat) (c : UInt8) :
    Option (StaticString Capacity) :=
  if i < Capacity + 1 then some { s with data := Function.update s.data i c } else none

/-- `sv[i]`. -/
def charAt (s : StaticString Capacity) (i : Nat) : StringView → Option UInt8
  | .external chars => chars[i]?
  | .own offset _ => s.load (offset + i)

/-- The copy loop of `assign` and `append`: `data_[start + i] = sv[i]`, `count`
turns from `i` on. -/
def copy (sv : StringView) (start : Nat) : Nat → Nat → StaticString Capacity →
    Option (StaticString Capacity)
  | 0, _, s => some s
  | count + 1, i, s => do
      let c ← s.charAt i sv
      let t ← s.store (start + i) c
      copy sv start count (i + 1) t

def assign (s : StaticString Capacity) (sv : StringView) :
    Option (Bool × StaticString Capacity) := do
  let copyLen := if sv.size < Capacity then sv.size else Capacity
  let t ← copy sv 0 copyLen 0 s
  let t ← t.store copyLen 0
  return (decide (sv.size ≤ Capacity), { t with size := UInt32.ofNat copyLen })

/-- `Capacity - size_`, where `size_t` has `w` bits. -/
def available (w : Nat) (s : StaticString Capacity) : Nat :=
  (Capacity + 2 ^ w - s.size.toNat) % 2 ^ w

def append (w : Nat) (s : StaticString Capacity) (sv : StringView) :
    Option (Bool × StaticString Capacity) := do
  let available := s.available w
  let copyLen := if sv.size < available then sv.size else available
  let t ← copy sv s.size.toNat copyLen 0 s
  let size := s.size + UInt32.ofNat copyLen
  let t ← t.store size.toNat 0
  return (decide (sv.size ≤ available), { t with size := size })

def clear (s : StaticString Capacity) : Option (StaticString Capacity) := do
  let t ← s.store 0 0
  return { t with size := 0 }

/-- The members' initialisers: `data_` all zero, `size_` zero. -/
def zero : StaticString Capacity := ⟨fun _ => 0, 0⟩

/-- `strlen` from cell `i` of the string on, if there is a terminator in the `count`
cells there. -/
def strlen (s : StaticString Capacity) : Nat → Nat → Option Nat
  | 0, _ => none
  | count + 1, i => if s.data i = 0 then some 0 else (s.strlen count (i + 1)).map (· + 1)

/-- `std::string_view(s)`, which a null pointer must not be handed to. -/
def viewOfPtr (s : StaticString Capacity) : CharPtr → Option StringView
  | .null => none
  | .external chars => some (.external (chars.takeWhile (· ≠ 0)))
  | .own offset => (s.strlen (Capacity + 1 - offset) offset).map (.own offset)

/-- The three constructors. -/
def construct : Option (StaticString Capacity) := zero.store 0 0

def constructView (sv : StringView) : Option (StaticString Capacity) := do
  let (_, t) ← zero.assign sv
  return t

def constructPtr (p : CharPtr) : Option (StaticString Capacity) :=
  match p with
  | .null => some zero
  | _ => do
      let sv ← (zero : StaticString Capacity).viewOfPtr p
      constructView sv

/-- The two assignment operators. -/
def assignView (s : StaticString Capacity) (sv : StringView) :
    Option (StaticString Capacity) := do
  let (_, t) ← s.assign sv
  return t

def assignPtr (s : StaticString Capacity) (p : CharPtr) : Option (StaticString Capacity) :=
  match p with
  | .null => s.clear
  | _ => do
      let sv ← s.viewOfPtr p
      s.assignView sv

/-- `view()`, read through. -/
def viewFrom (s : StaticString Capacity) : Nat → Nat → Option (List UInt8)
  | 0, _ => some []
  | count + 1, i => do
      let c ← s.load i
      let cs ← s.viewFrom count (i + 1)
      return c :: cs

def view (s : StaticString Capacity) : Option (List UInt8) := s.viewFrom s.size.toNat 0

/-- `operator==` of two strings. -/
def equal (s t : StaticString Capacity) : Option Bool := do
  let xs ← s.view
  let ys ← t.view
  return xs == ys

/-- `at(index)`, as for vectors. -/
def atIndex (hasExceptions : Bool) (s : StaticString Capacity) (index : UInt32) :
    Except OutOfRange Nat :=
  if index ≥ s.size then
    if hasExceptions then .error .outOfRange else .ok 0
  else .ok index.toNat

/-- `data_[i] = c`, where `i` is known. -/
def assignChar (s : StaticString Capacity) (i : Nat) (c : UInt8) :
    Option (Bool × StaticString Capacity) := do
  let t ← s.store i c
  return (true, t)

/-! Histories. -/

/-- The calls that make or change a string. -/
inductive Op where
  | construct
  | constructView (sv : StringView)
  | constructPtr (p : CharPtr)
  | assignView (sv : StringView)
  | assignPtr (p : CharPtr)
  | assign (sv : StringView)
  | append (sv : StringView)
  | clear
  | setAt (index : UInt32) (c : UInt8)
  | setIndex (index : UInt32) (c : UInt8)
  | setIterator (position : Nat) (c : UInt8)

/-- One call and its answer; what returns nothing, or the string, answers `true`. -/
def step (w : Nat) (hasExceptions : Bool) (s : StaticString Capacity) :
    Op → Option (Bool × StaticString Capacity)
  | .construct => do return (true, ← construct)
  | .constructView sv => do return (true, ← constructView sv)
  | .constructPtr p => do return (true, ← constructPtr p)
  | .assignView sv => do return (true, ← s.assignView sv)
  | .assignPtr p => do return (true, ← s.assignPtr p)
  | .assign sv => s.assign sv
  | .append sv => s.append w sv
  | .clear => do return (true, ← s.clear)
  | .setAt index c =>
      match s.atIndex hasExceptions index with
      | .error _ => some (false, s)
      | .ok i => s.assignChar i c
  | .setIndex index c => s.assignChar index.toNat c
  | .setIterator position c => s.assignChar position c

def run (w : Nat) (hasExceptions : Bool) (s : StaticString Capacity) :
    List Op → Option (List Bool × StaticString Capacity)
  | [] => some ([], s)
  | op :: ops => do
      let (answer, t) ← s.step w hasExceptions op
      let (answers, t) ← t.run w hasExceptions ops
      return (answer :: answers, t)

end StaticString

end Sinew
