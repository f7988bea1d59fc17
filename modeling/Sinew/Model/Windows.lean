import Sinew.Lib.Registry
import Sinew.Lib.Rely
import Sinew.Model.Shm

/-!
# Shared memory on Windows

The other branch of `shm.hpp`. A region holds a handle of a file mapping object and a
view of it; there is no name to remove, because the object goes with its last handle.
What the library relies on of the calls is written beside it: a register of named
objects that are held through handles, the views of each process, and for each thread
the error code that `GetLastError` answers.

Any call that can fail may. The kernel has its answers made up beforehand: for each
such call whether it is refused, and otherwise which handle or address it would like to
give out. A handle or an address that is in use in the process is never given out.

Threads run in any number of processes. Each has regions of its own, and makes, moves
and ends them in any order, one system call at a time between those of the others. The
processes may be of several logon sessions: a name that begins with `Local\`, and the
library asks for no other, is one of the caller's session.
-/

namespace Sinew.Windows

open Lib

inductive Ev where
  | createFileMappingA (high low : Nat) (name : Name)
  | openFileMappingA (name : Name)
  | getLastError
  | mapViewOfFile (handle length : Nat)
  | unmapViewOfFile (p : Ptr)
  | closeHandle (handle : Nat)

/-- A handle or an address that is null is `none`. -/
def Ev.Res : Ev → Type
  | createFileMappingA .. => Option Nat
  | openFileMappingA _ => Option Nat
  | getLastError => Nat
  | mapViewOfFile .. => Option Ptr
  | unmapViewOfFile _ => Unit
  | closeHandle _ => Unit

abbrev sys : Sig := ⟨Ev, Ev.Res⟩

abbrev Code := Prog sys

def createFileMappingA (high low : Nat) (name : Name) : Code (Option Nat) :=
  .event (σ := sys) (.createFileMappingA high low name)

def openFileMappingA (name : Name) : Code (Option Nat) :=
  .event (σ := sys) (.openFileMappingA name)

def getLastError : Code Nat := .event (σ := sys) .getLastError

def mapViewOfFile (handle length : Nat) : Code (Option Ptr) :=
  .event (σ := sys) (.mapViewOfFile handle length)

def unmapViewOfFile (p : Ptr) : Code Unit := .event (σ := sys) (.unmapViewOfFile p)

def closeHandle (handle : Nat) : Code Unit := .event (σ := sys) (.closeHandle handle)

def errorAlreadyExists : Nat := 183

structure SharedMemoryRegion where
  name : Name := []
  data : Option Ptr := none
  size : Nat := 0
  isCreator : Bool := false
  handle : Option Nat := none
  deriving DecidableEq, Repr

/-- `"Local\\" + name`. -/
def localName (name : Name) : Name := [0x4C, 0x6F, 0x63, 0x61, 0x6C, 0x5C] ++ name

namespace SharedMemoryRegion

def isValid (r : SharedMemoryRegion) : Bool := r.data.isSome

/-- `close()`, and so the destructor. Answers the region as it is afterwards. -/
def close (r : SharedMemoryRegion) : Code SharedMemoryRegion := do
  match r.data with
  | some data => unmapViewOfFile data
  | none => pure ()
  match r.handle with
  | some handle => closeHandle handle
  | none => pure ()
  return { r with data := none, handle := none, size := 0, isCreator := false }

/-- `return SharedMemoryRegion{}`, past the destructor of the local `region`. -/
def fail (region : SharedMemoryRegion) : Code SharedMemoryRegion := do
  let _ ← region.close
  return {}

/-- How `create`, `create_exclusive` and `open` end. -/
def mapWhole (region : SharedMemoryRegion) (hMap size : Nat) : Code SharedMemoryRegion := do
  let ptr ← mapViewOfFile hMap size
  match ptr with
  | none => do
      closeHandle hMap
      region.fail
  | some ptr => return { region with handle := some hMap, data := some ptr }

/-- `li.HighPart` and `li.LowPart` of a size. -/
def parts (size : Nat) : Nat × Nat := (size / 2 ^ 32 % 2 ^ 32, size % 2 ^ 32)

def create (name : Name) (size : Nat) : Code SharedMemoryRegion := do
  let region : SharedMemoryRegion := { name := name, size := size, isCreator := true }
  let hMap ← createFileMappingA (parts size).1 (parts size).2 (cStr (localName region.name))
  match hMap with
  | none => region.fail
  | some hMap => region.mapWhole hMap size

def createExclusive (name : Name) (size : Nat) : Code SharedMemoryRegion := do
  let region : SharedMemoryRegion := { name := name, size := size, isCreator := true }
  let hMap ← createFileMappingA (parts size).1 (parts size).2 (cStr (localName region.name))
  match hMap with
  | none => region.fail
  | some hMap => do
      let error ← getLastError
      if error = errorAlreadyExists then
        closeHandle hMap
        region.fail
      else region.mapWhole hMap size

/-- `open`, which is a keyword in Lean. -/
def openRegion (name : Name) (size : Nat) : Code SharedMemoryRegion := do
  let region : SharedMemoryRegion := { name := name, size := size }
  let hMap ← openFileMappingA (cStr (localName region.name))
  match hMap with
  | none => region.fail
  | some hMap => region.mapWhole hMap size

/-- What a move leaves behind. -/
def movedFrom (other : SharedMemoryRegion) : SharedMemoryRegion :=
  { other with name := [], data := none, size := 0, isCreator := false, handle := none }

/-- The move constructor: the new region, and `other` afterwards. -/
def moveConstruct (other : SharedMemoryRegion) :
    SharedMemoryRegion × SharedMemoryRegion := (other, other.movedFrom)

/-- Move assignment between two different regions: `this` and `other` afterwards. -/
def moveAssign (this other : SharedMemoryRegion) :
    Code (SharedMemoryRegion × SharedMemoryRegion) := do
  let _ ← this.close
  return (other, other.movedFrom)

end SharedMemoryRegion

/-! ## The kernel's side -/

/-- A process, by the session it is of and its number there. -/
structure Process where
  session : Nat
  number : Nat
  deriving DecidableEq, Repr

/-- A file mapping object that the paging file backs. -/
structure FileMapping where
  session : Nat
  name : Name
  size : Nat

/-- What distinguishes objects: the same name in another session is another's. -/
def FileMapping.path (o : FileMapping) : Nat × Name := (o.session, o.name)

/-- A view, and the thread that has mapped it. -/
structure View (ι : Type) where
  holder : ι
  /-- The process, and where in it. -/
  key : Process × Ptr
  object : Nat
  length : Nat

/-- The key of a handle is the process and its value there. -/
structure Kernel (ι : Type) where
  answers : Nat → Option Nat
  calls : Nat := 0
  register : Register ι (Process × Nat) FileMapping := { objects := fun _ => ⟨0, [], 0⟩ }
  views : List (View ι) := []
  lastError : ι → Nat := fun _ => 0
  /-- How often something was closed or unmapped that was not open. -/
  strays : Nat := 0

/-- Where views may begin. -/
def allocationGranularity : Nat := 65536

namespace Kernel

variable {ι : Type} [DecidableEq ι] (process : ι → Process) (i : ι) (k : Kernel ι)

/-- The object that a name means in the caller's session. -/
def find (name : Name) : Option Nat :=
  k.register.find FileMapping.path ((process i).session, name)

/-- The kernel with the next answer used up. -/
def answered : Kernel ι := { k with calls := k.calls + 1 }

/-- The next answer, as a handle that the process does not have. -/
def freeHandle : Option Nat := do
  let v ← k.answers k.calls
  if k.register.grants.any (·.key = (process i, v)) then none else some v

/-- The next answer, as an address where the process has no view. -/
def freeAddress : Option Ptr := do
  let n ← k.answers k.calls
  let p : Ptr := ⟨n * allocationGranularity, 0⟩
  if k.views.any (·.key = (process i, p)) then none else some p

/-- Where the name means an object already, a handle of that one, with its own size,
and an error code that says so. -/
def createFileMappingA (size : Nat) (name : Name) : Option Nat × Kernel ι :=
  match if size = 0 then none else k.freeHandle process i with
  | none => (none, k.answered)
  | some v =>
      match k.find process i name with
      | some x => (some v, { k.answered with
          register := k.register.join i (process i, v) x
          lastError := Function.update k.lastError i errorAlreadyExists })
      | none => (some v, { k.answered with
          register := k.register.make i (process i, v) ⟨(process i).session, name, size⟩
          lastError := Function.update k.lastError i 0 })

def openFileMappingA (name : Name) : Option Nat × Kernel ι :=
  match k.freeHandle process i, k.find process i name with
  | some v, some x => (some v, { k.answered with
      register := k.register.join i (process i, v) x })
  | _, _ => (none, k.answered)

/-- All of the view must be within the object. A length of zero is all of the object. -/
def mapViewOfFile (handle length : Nat) : Option Ptr × Kernel ι :=
  match k.freeAddress process i,
      k.register.grants.find? (·.key = (process i, handle)) with
  | some p, some g =>
      let size := (k.register.objects g.object).size
      if length ≤ size then
        (some p, { k.answered with
          views := ⟨i, (process i, p), g.object, if length = 0 then size else length⟩ :: k.views })
      else (none, k.answered)
  | _, _ => (none, k.answered)

def unmapViewOfFile (p : Ptr) : Kernel ι :=
  if k.views.any (·.key = (process i, p)) then
    { k with views := k.views.filter (·.key ≠ (process i, p)) }
  else { k with strays := k.strays + 1 }

def closeHandle (handle : Nat) : Kernel ι :=
  if k.register.grants.any (·.key = (process i, handle)) then
    { k with register := k.register.drop (process i, handle) }
  else { k with strays := k.strays + 1 }

/-- The kernel's answer to the thread `i`. -/
def exec : (e : Ev) → Ev.Res e × Kernel ι
  | .createFileMappingA high low name =>
      k.createFileMappingA process i (2 ^ 32 * high + low) name
  | .openFileMappingA name => k.openFileMappingA process i name
  | .getLastError => (k.lastError i, k)
  | .mapViewOfFile handle length => k.mapViewOfFile process i handle length
  | .unmapViewOfFile p => ((), k.unmapViewOfFile process i p)
  | .closeHandle handle => ((), k.closeHandle process i handle)

abbrev machine : Machine sys (Kernel ι) := fun k => k.exec process i

@[simp] theorem run_createFileMappingA (high low : Nat) (name : Name) :
    (Windows.createFileMappingA high low name).run (machine process i) k =
      k.createFileMappingA process i (2 ^ 32 * high + low) name := rfl

@[simp] theorem run_openFileMappingA (name : Name) :
    (Windows.openFileMappingA name).run (machine process i) k =
      k.openFileMappingA process i name := rfl

@[simp] theorem run_getLastError :
    Windows.getLastError.run (machine process i) k = (k.lastError i, k) := rfl

@[simp] theorem run_mapViewOfFile (handle length : Nat) :
    (Windows.mapViewOfFile handle length).run (machine process i) k =
      k.mapViewOfFile process i handle length := rfl

@[simp] theorem run_unmapViewOfFile (p : Ptr) :
    (Windows.unmapViewOfFile p).run (machine process i) k =
      ((), k.unmapViewOfFile process i p) := rfl

@[simp] theorem run_closeHandle (handle : Nat) :
    (Windows.closeHandle handle).run (machine process i) k =
      ((), k.closeHandle process i handle) := rfl

/-- The object that a region of the thread is over. -/
def objectOf (r : SharedMemoryRegion) : Option Nat := do
  let handle ← r.handle
  let g ← k.register.grants.find? (·.key = (process i, handle))
  return g.object

/-- The next two answers are not refusals. -/
def Obliges : Prop :=
  (k.freeHandle process i).isSome ∧ (k.answered.freeAddress process i).isSome

instance : Decidable (k.Obliges process i) :=
  inferInstanceAs (Decidable (_ ∧ _))

end Kernel

/-! ## The threads -/

/-- A region that a thread has, and whether `create_exclusive` has made it. -/
structure Variable where
  region : SharedMemoryRegion := {}
  exclusive : Bool := false

/-- Which of the three functions that make a region. -/
inductive Maker where
  | create
  | createExclusive
  | openRegion
  deriving DecidableEq, Repr

def Maker.make : Maker → Name → Nat → Code SharedMemoryRegion
  | create => SharedMemoryRegion.create
  | createExclusive => SharedMemoryRegion.createExclusive
  | openRegion => SharedMemoryRegion.openRegion

/-- The variables of a thread, each of them a region from the start. -/
abbrev Client := Nat → Variable

/-- What a thread may do with its regions. -/
inductive RegionCall : Client → Unit → Code Client → Prop where
  /-- `regions[n] = SharedMemoryRegion::create(name, size);` and the like. -/
  | assign (c : Client) (n : Nat) (maker : Maker) (name : Name) (size : Nat) :
      RegionCall c () do
        let temporary ← maker.make name size
        let (this, rest) ← (c n).region.moveAssign temporary
        let _ ← rest.close
        return Function.update c n ⟨this, maker = .createExclusive⟩
  /-- `regions[n] = std::move(regions[m]);` -/
  | moveAssign (c : Client) (n m : Nat) : n ≠ m →
      RegionCall c () do
        let (this, other) ← (c n).region.moveAssign (c m).region
        return Function.update (Function.update c n ⟨this, (c m).exclusive⟩) m ⟨other, false⟩
  /-- The variable's region ends, and another is moved to where it was. -/
  | moveConstruct (c : Client) (n m : Nat) : n ≠ m →
      RegionCall c () do
        let _ ← (c n).region.close
        let (this, other) := (c m).region.moveConstruct
        return Function.update (Function.update c n ⟨this, (c m).exclusive⟩) m ⟨other, false⟩
  /-- `regions[n].close();`, or the end of the region and a new one. -/
  | close (c : Client) (n : Nat) :
      RegionCall c () do
        let this ← (c n).region.close
        return Function.update c n ⟨this, false⟩

/-- The threads, by which process each is of. -/
def threads {ι : Type} [DecidableEq ι] (process : ι → Process) : ι → Party sys (Kernel ι) :=
  fun i => ⟨Client, Unit, RegionCall, fun _ => Kernel.machine process i⟩

/-- No thread has begun. -/
def start {ι : Type} [DecidableEq ι] (process : ι → Process) (answers : Nat → Option Nat) :
    Config (threads process) where
  state := { answers := answers }
  thread _ := .idle (fun _ => {} : Client)

end Sinew.Windows
