import Sinew.Model.Shm

/-!
# The kernel's side of POSIX shared memory

What the library relies on of `shm_open`, `ftruncate`, `fstat`, `mmap`,
`munmap`, `close` and `shm_unlink`: a table of names, the segments, and for each
process its descriptors and its page table. Names outlive the processes, and
segments outlive their names.

Any call that can fail may. The kernel has its answers made up beforehand: for
each such call whether it is refused, and otherwise which descriptor or which
page it would like to give out. A descriptor that is in use or pages that are
not free are never given out. So a theorem for every kernel is one for every
pattern of failures and every choice of addresses.
-/

namespace Sinew

open Lib

/-- A shared memory object. -/
structure Segment where
  length : Int
  byte : Nat → UInt8
  word : Nat → Nat

/-- `ftruncate`, to a length that is not negative: what is cut off or new is zero. -/
def Segment.resize (s : Segment) (length : Int) : Segment where
  length := length
  byte a := if (a : Int) < length then s.byte a else 0
  word a := if (a : Int) < length then s.word a else 0

def Segment.empty : Segment := ⟨0, fun _ => 0, fun _ => 0⟩

/-- The descriptors of a process and its page table, by what segment they are of. -/
structure Process where
  fds : Nat → Option Nat
  pages : Nat → Option Nat

structure Kernel where
  names : Name → Option Nat
  segments : Nat → Segment
  created : Nat
  processes : Nat → Process
  answers : Nat → Option Nat
  calls : Nat
  refusals : Nat

def pageSize : Nat := 4096

/-- How many pages a mapping of `length` bytes takes. -/
def pageCount (length : Nat) : Nat := (length + (pageSize - 1)) / pageSize

namespace Kernel

/-- The kernel after a call it refused. -/
def refuse (k : Kernel) : Kernel :=
  { k with calls := k.calls + 1, refusals := k.refusals + 1 }

/-- The kernel after a call it did not refuse, but for what the call does. -/
def answered (k : Kernel) : Kernel := { k with calls := k.calls + 1 }

def setProcess (k : Kernel) (pid : Nat) (p : Process) : Kernel :=
  { k with processes := Function.update k.processes pid p }

def setFd (k : Kernel) (pid fd : Nat) (seg : Option Nat) : Kernel :=
  let p := k.processes pid
  k.setProcess pid { p with fds := Function.update p.fds fd seg }

/-- The pages from `page` on that `length` bytes take are set to `seg`. -/
def setPages (k : Kernel) (pid page length : Nat) (seg : Option Nat) : Kernel :=
  let p := k.processes pid
  k.setProcess pid { p with pages := fun i =>
    if page ≤ i ∧ i < page + pageCount length then seg else p.pages i }

def setName (k : Kernel) (name : Name) (seg : Option Nat) : Kernel :=
  { k with names := Function.update k.names name seg }

def setSegment (k : Kernel) (seg : Nat) (s : Segment) : Kernel :=
  { k with segments := Function.update k.segments seg s }

variable (k : Kernel) (pid : Nat)

/-- `shm_open`. Not being refused does not mean success: a name may be missing,
or be there when it must not be. -/
def shmOpen (name : Name) (flags : OpenFlags) : Option Nat × Kernel :=
  match k.answers k.calls with
  | none => (none, k.refuse)
  | some fd =>
      if ((k.processes pid).fds fd).isSome then (none, k.refuse)
      else
        match k.names name with
        | some seg =>
            if flags.creat ∧ flags.excl then (none, k.answered)
            else
              let s := if flags.trunc then (k.segments seg).resize 0 else k.segments seg
              (some fd, (k.answered.setSegment seg s).setFd pid fd (some seg))
        | none =>
            if flags.creat then
              let k' := { k.answered with created := k.created + 1 }
              (some fd, ((k'.setSegment k.created .empty).setName name
                (some k.created)).setFd pid fd (some k.created))
            else (none, k.answered)

def ftruncate (fd : Nat) (length : Int) : Bool × Kernel :=
  match k.answers k.calls, (k.processes pid).fds fd with
  | some _, some seg =>
      if 0 ≤ length then
        (true, k.answered.setSegment seg ((k.segments seg).resize length))
      else (false, k.refuse)
  | _, _ => (false, k.refuse)

def fstat (fd : Nat) : Option Int × Kernel :=
  match k.answers k.calls, (k.processes pid).fds fd with
  | some _, some seg => (some (k.segments seg).length, k.answered)
  | _, _ => (none, k.refuse)

/-- `mmap`, at a page that is not page zero, of a length that is not zero. -/
def mmap (length fd : Nat) : Option Ptr × Kernel :=
  match k.answers k.calls, (k.processes pid).fds fd with
  | some page, some seg =>
      if 0 < page ∧ 0 < length ∧
          ∀ i < pageCount length, (k.processes pid).pages (page + i) = none then
        (some ⟨page * pageSize, 0⟩, k.answered.setPages pid page length (some seg))
      else (none, k.refuse)
  | _, _ => (none, k.refuse)

def munmap (p : Ptr) (length : Nat) : Kernel :=
  k.setPages pid (p.addr / pageSize) length none

/-- The segment a pointer points into. -/
def segmentAt (p : Ptr) : Option Nat := (k.processes pid).pages (p.addr / pageSize)

/-- The memory of a segment, as a machine of its own sees it. -/
def mem (seg : Nat) : Mem := ⟨(k.segments seg).byte, (k.segments seg).word, []⟩

def setMem (seg : Nat) (m : Mem) : Kernel :=
  k.setSegment seg { k.segments seg with byte := m.byte, word := m.word }

/-- The kernel and the memory behind it, as a process sees them. A pointer's
offset is from the start of the mapping it points into, which is where the
segment starts. A callback does nothing here. -/
def exec : (e : Ev) → Ev.Res e × Kernel
  | .load p =>
      match k.segmentAt pid p with
      | some seg => ((k.segments seg).byte p.off, k)
      | none => ((0 : UInt8), k)
  | .store p b =>
      match k.segmentAt pid p with
      | some seg => ((), k.setMem seg ((k.mem seg).exec (.store p b)).2)
      | none => ((), k)
  | .loadWord p =>
      match k.segmentAt pid p with
      | some seg => ((k.segments seg).word p.off, k)
      | none => ((0 : Nat), k)
  | .storeWord p v =>
      match k.segmentAt pid p with
      | some seg => ((), k.setMem seg ((k.mem seg).exec (.storeWord p v)).2)
      | none => ((), k)
  | .visit _ _ => ((), k)
  | .shmOpen name flags => k.shmOpen pid name flags
  | .ftruncate fd length => k.ftruncate pid fd length
  | .fstat fd => k.fstat pid fd
  | .mmap length fd => k.mmap pid length fd
  | .munmap p length => ((), k.munmap pid p length)
  | .closeFd fd => ((), k.setFd pid fd none)
  | .shmUnlink name => ((), k.setName name none)

/-- A kernel that refuses nothing. -/
def obliging : Kernel where
  names _ := none
  segments _ := .empty
  created := 0
  processes _ := ⟨fun _ => none, fun _ => none⟩
  answers n := some (n + 3)
  calls := 0
  refusals := 0

/-- Process `pid` on the kernel. -/
abbrev machine (pid : Nat) : Machine sys Kernel := fun k => k.exec pid

end Kernel

/-! ## Objects over time

A world is the kernel and the live objects of some class, each in its process.
New objects get new numbers. -/

structure World (X : Type) where
  kernel : Kernel
  objects : Nat → Option (Nat × X) := fun _ => none
  count : Nat := 0

namespace World

variable {X : Type}

/-- The world after an object is constructed. -/
def construct (w : World X) (pid : Nat) (r : X × Kernel) : World X where
  kernel := r.2
  objects := Function.update w.objects w.count (some (pid, r.1))
  count := w.count + 1

/-- The world after an object is assigned to. -/
def assign (w : World X) (i pid : Nat) (x : X) : World X :=
  { w with objects := Function.update w.objects i (some (pid, x)) }

end World

/-- `size` is a `size_t`. -/
inductive RegionOp where
  | createExclusive (pid : Nat) (name : Name) (size : UInt64)
  | openRegion (pid : Nat) (name : Name) (size : UInt64)
  | moveConstruct (j : Nat)
  | moveAssign (i j : Nat)
  | close (i : Nat)
  | destroy (i : Nat)

namespace RegionWorld

/-- One call of some process, or the end of an object. What names an object that
does not exist, or assigns across processes, is no call. -/
def step (w : World SharedMemoryRegion) : RegionOp → World SharedMemoryRegion
  | .createExclusive pid name size =>
      w.construct pid
        ((SharedMemoryRegion.createExclusive name size.toNat).run (Kernel.machine pid)
          w.kernel)
  | .openRegion pid name size =>
      w.construct pid
        ((SharedMemoryRegion.openRegion name size.toNat).run (Kernel.machine pid) w.kernel)
  | .moveConstruct j =>
      match w.objects j with
      | none => w
      | some (pid, other) =>
          let (this, rest) := other.moveConstruct
          (w.assign j pid rest).construct pid (this, w.kernel)
  | .moveAssign i j =>
      match w.objects i, w.objects j with
      | some (pid, this), some (pid', other) =>
          if i = j ∨ pid ≠ pid' then w
          else
            let r := (this.moveAssign other).run (Kernel.machine pid) w.kernel
            ({ w with kernel := r.2 }.assign i pid r.1.1).assign j pid r.1.2
      | _, _ => w
  | .close i =>
      match w.objects i with
      | none => w
      | some (pid, r) =>
          let r := r.close.run (Kernel.machine pid) w.kernel
          { w with kernel := r.2 }.assign i pid r.1
  | .destroy i =>
      match w.objects i with
      | none => w
      | some (pid, r) =>
          { w with
            kernel := (r.close.run (Kernel.machine pid) w.kernel).2
            objects := Function.update w.objects i none }

/-- The world after a sequence of calls. -/
def run (w : World SharedMemoryRegion) (ops : List RegionOp) : World SharedMemoryRegion :=
  ops.foldl step w

end RegionWorld

end Sinew
