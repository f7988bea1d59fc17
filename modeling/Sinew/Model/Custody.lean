import Sinew.Lib.Ledger
import Sinew.Model.Shm

/-!
# What a process owes the kernel

A process is run on a kernel that may answer its calls as it likes, and a ledger
is kept of the mappings and descriptors it is given and gives back. The process
does nothing but make regions, move them about and end them, in any order: a
region that a call returns is an object from then on, with a number of its own,
until it is destroyed.

The ledger names a mapping by where it is and how long it was asked to be, so
that unmapping another length releases something else.
-/

namespace Sinew

open Lib

inductive Resource where
  | mapping (p : Ptr) (length : Nat)
  | descriptor (fd : Nat)
  deriving DecidableEq, Repr

/-- What makes two of them the same to the kernel. -/
def Resource.key : Resource → Ptr ⊕ Nat
  | mapping p _ => .inl p
  | descriptor fd => .inr fd

/-- What an event that got this answer adds to the ledger. -/
def Ev.entry : (e : Ev) → Ev.Res e → Option (Entry Resource)
  | .shmOpen _ _, some fd => some (.acquired (.descriptor fd))
  | .closeFd fd, _ => some (.released (.descriptor fd))
  | .mmap length _, some p => some (.acquired (.mapping p length))
  | .munmap p length, _ => some (.released (.mapping p length))
  | _, _ => none

/-- A machine that keeps the ledger. -/
def ledgered {S : Type} (M : Machine sys S) : Machine sys (S × List (Entry Resource)) :=
  fun s e =>
    let r := M s.1 e
    (r.1, (r.2, s.2 ++ (e.entry r.1).toList))

/-- What a region has to give back. -/
def SharedMemoryRegion.owned (r : SharedMemoryRegion) : List Resource :=
  (r.data.map (Resource.mapping · r.size)).toList ++ (r.fd.map Resource.descriptor).toList

/-- The calls on the regions of one process. -/
inductive CustodyOp where
  | construct
  | create (name : Name) (size : Nat)
  | createExclusive (name : Name) (size : Nat)
  | openRegion (name : Name) (size : Nat)
  | moveConstruct (j : Nat)
  | moveAssign (i j : Nat)
  | close (i : Nat)
  | destroy (i : Nat)

/-- The region whose own resources a call gives back, if it has any. -/
def CustodyOp.closes : CustodyOp → Option Nat
  | .moveAssign i j => if i = j then none else some i
  | .close i => some i
  | .destroy i => some i
  | _ => none

/-- The kernel, the ledger and the regions of a process. New regions get new numbers. -/
structure Custody (S : Type) where
  kernel : S
  ledger : List (Entry Resource) := []
  regions : Nat → Option SharedMemoryRegion := fun _ => none
  count : Nat := 0

namespace Custody

variable {S α : Type} (M : Machine sys S)

def call (w : Custody S) (p : Code α) : α × Custody S :=
  let r := p.run (ledgered M) (w.kernel, w.ledger)
  (r.1, { w with kernel := r.2.1, ledger := r.2.2 })

def construct (w : Custody S) (r : SharedMemoryRegion) : Custody S :=
  { w with regions := Function.update w.regions w.count (some r), count := w.count + 1 }

def assign (w : Custody S) (i : Nat) (r : SharedMemoryRegion) : Custody S :=
  { w with regions := Function.update w.regions i (some r) }

/-- One call. What names a region that does not exist is no call. -/
def step (w : Custody S) : CustodyOp → Custody S
  | .construct => w.construct {}
  | .create name size =>
      let (r, w) := w.call M (SharedMemoryRegion.create name size)
      w.construct r
  | .createExclusive name size =>
      let (r, w) := w.call M (SharedMemoryRegion.createExclusive name size)
      w.construct r
  | .openRegion name size =>
      let (r, w) := w.call M (SharedMemoryRegion.openRegion name size)
      w.construct r
  | .moveConstruct j =>
      match w.regions j with
      | none => w
      | some other =>
          let (this, rest) := other.moveConstruct
          (w.assign j rest).construct this
  | .moveAssign i j =>
      match w.regions i, w.regions j with
      | some this, some other =>
          -- `if (this != &other)`
          if i = j then w
          else
            let (r, w) := w.call M (this.moveAssign other)
            (w.assign i r.1).assign j r.2
      | _, _ => w
  | .close i =>
      match w.regions i with
      | none => w
      | some r =>
          let (r, w) := w.call M r.close
          w.assign i r
  | .destroy i =>
      match w.regions i with
      | none => w
      | some r =>
          let (_, w) := w.call M r.close
          { w with regions := Function.update w.regions i none }

/-- After the first calls of a sequence. -/
def after (k : S) (ops : List CustodyOp) (n : Nat) : Custody S :=
  (ops.take n).foldl (step M) { kernel := k }

end Custody

end Sinew
