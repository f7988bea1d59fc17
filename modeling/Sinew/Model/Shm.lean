import Sinew.Model.Wire

/-!
# Shared memory regions: `shm.hpp`, the POSIX branch

A region is a value that owns a mapping, a descriptor and possibly a name. The
static functions build one in a local `region`, and where they return early
that local is destroyed on the way out: `close` runs on it as it stands at that
moment, with the name and the creator flag already set.

A moved-from `std::string` is empty here; the source never looks at the name of
a region that is not a creator, and no moved-from region is one.
-/

namespace Sinew

open Lib

def shmOpen (name : Name) (flags : OpenFlags) : Code (Option Nat) :=
  .event (σ := sys) (.shmOpen name flags)

def ftruncate (fd : Nat) (length : Int) : Code Bool :=
  .event (σ := sys) (.ftruncate fd length)

def fstat (fd : Nat) : Code (Option Int) := .event (σ := sys) (.fstat fd)

def mmap (length fd : Nat) : Code (Option Ptr) := .event (σ := sys) (.mmap length fd)

def munmap (p : Ptr) (length : Nat) : Code Unit :=
  .event (σ := sys) (.munmap p length)

def closeFd (fd : Nat) : Code Unit := .event (σ := sys) (.closeFd fd)

def shmUnlink (name : Name) : Code Unit := .event (σ := sys) (.shmUnlink name)

/-- `static_cast<off_t>`, to 64 bits. -/
def toOff (size : Nat) : Int := (size : Int).bmod (2 ^ 64)

def slash : UInt8 := 0x2F

/-- A digit of `%x`. -/
def hexDigit (n : Nat) : UInt8 :=
  UInt8.ofNat (if n < 10 then 0x30 + n else 0x57 + n)

/-- `%08x`. -/
def hex08 (v : UInt32) : Name :=
  (List.range 8).map fun i => hexDigit (v.toNat / 16 ^ (7 - i) % 16)

def normalizePosixShmName (name : Name) : Name :=
  let s := if name.head? = some slash then name else slash :: name
  if s.length > 31 then
    s.take 22 ++ [0x5F] ++ hex08 (crc32 s)
  else s

/-- `c_str()`, as far as the kernel reads it. -/
def cStr (name : Name) : Name := name.takeWhile (· ≠ 0)

structure SharedMemoryRegion where
  name : Name := []
  data : Option Ptr := none
  size : Nat := 0
  isCreator : Bool := false
  fd : Option Nat := none
  deriving DecidableEq, Repr

namespace SharedMemoryRegion

def isValid (r : SharedMemoryRegion) : Bool := r.data.isSome

/-- `close()`, and so the destructor. Answers the region as it is afterwards. -/
def close (r : SharedMemoryRegion) : Code SharedMemoryRegion := do
  match r.data with
  | some data => munmap data r.size
  | none => pure ()
  match r.fd with
  | some fd => closeFd fd
  | none => pure ()
  if r.isCreator ∧ r.name ≠ [] then
    shmUnlink (cStr (normalizePosixShmName r.name))
  return { r with data := none, fd := none, size := 0, isCreator := false }

/-- `return SharedMemoryRegion{}`, past the destructor of the local `region`. -/
def fail (region : SharedMemoryRegion) : Code SharedMemoryRegion := do
  let _ ← region.close
  return {}

/-- What `create` and `create_exclusive` share: they differ in the flags they
open the segment with. -/
def createWith (flags : OpenFlags) (name : Name) (size : Nat) :
    Code SharedMemoryRegion := do
  let region : SharedMemoryRegion := { name := name, size := size, isCreator := true }
  let posixName := normalizePosixShmName region.name
  let fd ← shmOpen (cStr posixName) flags
  match fd with
  | none => region.fail
  | some fd => do
      let resized ← ftruncate fd (toOff size)
      if resized = false then
        closeFd fd
        shmUnlink (cStr posixName)
        region.fail
      else
        let ptr ← mmap size fd
        match ptr with
        | none => do
            closeFd fd
            shmUnlink (cStr posixName)
            region.fail
        | some ptr => return { region with fd := some fd, data := some ptr }

def create (name : Name) (size : Nat) : Code SharedMemoryRegion :=
  createWith { creat := true, excl := false, trunc := true } name size

def createExclusive (name : Name) (size : Nat) : Code SharedMemoryRegion :=
  createWith { creat := true, excl := true, trunc := false } name size

/-- `open`, which is a keyword in Lean. -/
def openRegion (name : Name) (size : Nat) : Code SharedMemoryRegion := do
  let region : SharedMemoryRegion := { name := name, size := size }
  let posixName := normalizePosixShmName region.name
  let fd ← shmOpen (cStr posixName) { creat := false, excl := false, trunc := false }
  match fd with
  | none => region.fail
  | some fd => do
      let stSize ← fstat fd
      if stSize.all (· < toOff size) then
        closeFd fd
        region.fail
      else
        let ptr ← mmap size fd
        match ptr with
        | none => do
            closeFd fd
            region.fail
        | some ptr => return { region with fd := some fd, data := some ptr }

/-- What a move leaves behind. -/
def movedFrom (other : SharedMemoryRegion) : SharedMemoryRegion :=
  { other with name := [], data := none, size := 0, isCreator := false, fd := none }

/-- The move constructor: the new region, and `other` afterwards. -/
def moveConstruct (other : SharedMemoryRegion) :
    SharedMemoryRegion × SharedMemoryRegion := (other, other.movedFrom)

/-- Move assignment between two different regions: `this` and `other` afterwards. -/
def moveAssign (this other : SharedMemoryRegion) :
    Code (SharedMemoryRegion × SharedMemoryRegion) := do
  let _ ← this.close
  return (other, other.movedFrom)

end SharedMemoryRegion

end Sinew
