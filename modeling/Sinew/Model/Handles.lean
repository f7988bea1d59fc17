import Sinew.Model.Kernel
import Sinew.Model.Ring

/-!
# Handles over time

The two ring templates differ, as far as their handles are concerned, in the
numbers `create` writes and `open` compares. A handle lives in one process and
keeps its type, so it is moved only to another of its type.
-/

namespace Sinew

open Lib

/-- An instantiation of one of the two templates. -/
inductive RingKind where
  | ipcRing (T : MsgType) (Capacity : Nat)
  | envelope (MaxPayloadSize Capacity : Nat)

def RingKind.params : RingKind → IpcParams
  | .ipcRing T Capacity => IpcRingBuffer.params T Capacity
  | .envelope MaxPayloadSize Capacity =>
      IpcEnvelopeRingBuffer.params MaxPayloadSize Capacity

inductive HandleOp where
  | create (pid : Nat) (kind : RingKind) (name : Name)
  | openRing (pid : Nat) (kind : RingKind) (name : Name)
  | moveConstruct (j : Nat)
  | moveAssign (i j : Nat)
  | destroy (i : Nat)

namespace HandleWorld

variable (host : Endian)

/-- One call of some process. Moving a handle to itself does nothing: the region
checks, and the pointers are what they were. -/
def step (w : World (IpcParams × IpcHandle)) : HandleOp → World (IpcParams × IpcHandle)
  | .create pid kind name =>
      let r := (IpcHandle.create kind.params host name).run (Kernel.machine pid) w.kernel
      w.construct pid ((kind.params, r.1), r.2)
  | .openRing pid kind name =>
      let r := (IpcHandle.openHandle kind.params host name).run (Kernel.machine pid)
        w.kernel
      w.construct pid ((kind.params, r.1), r.2)
  | .moveConstruct j =>
      match w.objects j with
      | none => w
      | some (pid, P, other) =>
          let (this, rest) := other.moveConstruct
          (w.assign j pid (P, rest)).construct pid ((P, this), w.kernel)
  | .moveAssign i j =>
      match w.objects i, w.objects j with
      | some (pid, P, this), some (pid', P', other) =>
          if i = j ∨ pid ≠ pid' ∨ P ≠ P' then w
          else
            let r := (this.moveAssign other).run (Kernel.machine pid) w.kernel
            ({ w with kernel := r.2 }.assign i pid (P, r.1.1)).assign j pid (P, r.1.2)
      | _, _ => w
  | .destroy i =>
      match w.objects i with
      | none => w
      | some (pid, _, h) =>
          { w with
            kernel := (h.destroy.run (Kernel.machine pid) w.kernel).2
            objects := Function.update w.objects i none }

/-- The world after the first calls of a sequence, from a kernel without objects. -/
def after (k : Kernel) (ops : List HandleOp) (n : Nat) : World (IpcParams × IpcHandle) :=
  (ops.take n).foldl (step host) { kernel := k }

end HandleWorld

end Sinew
