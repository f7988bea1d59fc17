import Sinew.Lib.Bytes
import Sinew.Lib.Cells
import Sinew.Lib.Prog

/-!
# The machine under the library

Everything the library does that another thread, another process or the
kernel could see is one of the events below: a byte loaded or stored, an
atomic counter loaded or stored, a callback handed a message, a system call.
The functions of the library are written as programs over these events, in
the order the source performs them.

A pointer is a base address and an offset. The offset says which cell of the
object is meant, the base where this process has the object; the two are only
added up where the source itself looks at an address, which is to check its
alignment. So two processes may map one segment at different addresses and
still mean the same bytes.

Objects are as large as `size_t` lets them be, so `sizeof(Header) + sizeof(T)`
does not wrap and sizes are natural numbers here; where the source adds up
numbers it has read from memory, the wrap is written out.
-/

namespace Sinew

open Lib

structure Ptr where
  base : Nat
  off : Nat
  deriving DecidableEq, Repr

namespace Ptr

/-- The pointer as `uintptr_t` sees it. -/
def addr (p : Ptr) : Nat := p.base + p.off

def add (p : Ptr) (n : Nat) : Ptr := ⟨p.base, p.off + n⟩

def sub (p : Ptr) (n : Nat) : Ptr := ⟨p.base, p.off - n⟩

@[simp] theorem add_off (p : Ptr) (n : Nat) : (p.add n).off = p.off + n := rfl

@[simp] theorem add_base (p : Ptr) (n : Nat) : (p.add n).base = p.base := rfl

@[simp] theorem sub_off (p : Ptr) (n : Nat) : (p.sub n).off = p.off - n := rfl

@[simp] theorem addr_add (p : Ptr) (n : Nat) : (p.add n).addr = p.addr + n := by
  simp [addr, Nat.add_assoc]

@[simp] theorem add_sub (p : Ptr) (n : Nat) : (p.add n).sub n = p := by
  simp [add, sub]

@[simp] theorem add_zero (p : Ptr) : p.add 0 = p := rfl

theorem add_add (p : Ptr) (m n : Nat) : (p.add m).add n = p.add (m + n) := by
  simp [add, Nat.add_assoc]

end Ptr

/-- A message type as the templates see it: its layout, its `MessageTraits`,
and the stores its default member initialisers make in a fresh object. -/
structure MsgType where
  size : Nat
  align : Nat
  id : UInt16
  version : UInt16
  ctor : List (Nat × UInt8)
  size_pos : 0 < size
  align_pow : ∃ k, align = 2 ^ k
  align_dvd : align ∣ size
  ctor_lt : ∀ x ∈ ctor, x.1 < size

theorem MsgType.four_pow : ∃ k, 4 = 2 ^ k := ⟨2, rfl⟩

theorem MsgType.eight_pow : ∃ k, 8 = 2 ^ k := ⟨3, rfl⟩

/-- The bytes of a `std::string`. -/
abbrev Name := List UInt8

/-- The `oflag` bits `shm_open` is called with, besides `O_RDWR`. -/
structure OpenFlags where
  creat : Bool
  excl : Bool
  trunc : Bool
  deriving DecidableEq, Repr

inductive Ev where
  | load (p : Ptr)
  | store (p : Ptr) (b : UInt8)
  | loadWord (p : Ptr)
  | storeWord (p : Ptr) (v : Nat)
  | visit (T : MsgType) (bytes : List UInt8)
  | shmOpen (name : Name) (flags : OpenFlags)
  | ftruncate (fd : Nat) (length : Int)
  | fstat (fd : Nat)
  | mmap (length fd : Nat)
  | munmap (p : Ptr) (length : Nat)
  | closeFd (fd : Nat)
  | shmUnlink (name : Name)

/-- What an event answers. A system call that fails answers `none` or `false`. -/
def Ev.Res : Ev → Type
  | .load _ => UInt8
  | .loadWord _ => Nat
  | .shmOpen _ _ => Option Nat
  | .ftruncate _ _ => Bool
  | .fstat _ => Option Int
  | .mmap _ _ => Option Ptr
  | _ => Unit

/-- The signature all programs of the library are written over. -/
abbrev sys : Sig := ⟨Ev, Ev.Res⟩

/-- The data memory of one object or segment: plain bytes, the atomic
counters, and a record of what callbacks have been handed. -/
structure Mem where
  byte : Nat → UInt8
  word : Nat → Nat
  visits : List (MsgType × List UInt8)

/-- The memory after `bs` is stored from `a` on. -/
def Mem.write (m : Mem) (a : Nat) (bs : List UInt8) : Mem :=
  { m with byte := patch m.byte a bs }

@[simp] theorem Mem.write_byte (m : Mem) (a : Nat) (bs : List UInt8) :
    (m.write a bs).byte = patch m.byte a bs := rfl

@[simp] theorem Mem.write_word (m : Mem) (a : Nat) (bs : List UInt8) :
    (m.write a bs).word = m.word := rfl

@[simp] theorem Mem.write_visits (m : Mem) (a : Nat) (bs : List UInt8) :
    (m.write a bs).visits = m.visits := rfl

/-- The memory as a machine of its own, with no kernel behind it: every system
call is refused. -/
def Mem.exec (m : Mem) : (e : Ev) → Ev.Res e × Mem
  | .load p => (m.byte p.off, m)
  | .store p b => ((), { m with byte := Function.update m.byte p.off b })
  | .loadWord p => (m.word p.off, m)
  | .storeWord p v => ((), { m with word := Function.update m.word p.off v })
  | .visit T bytes => ((), { m with visits := m.visits ++ [(T, bytes)] })
  | .shmOpen _ _ => (none, m)
  | .ftruncate _ _ => (false, m)
  | .fstat _ => (none, m)
  | .mmap _ _ => (none, m)
  | .munmap _ _ => ((), m)
  | .closeFd _ => ((), m)
  | .shmUnlink _ => ((), m)

abbrev Mem.machine : Machine sys Mem := Mem.exec

/-! ## Loads and stores of more than a byte -/

abbrev Code := Prog sys

def load (p : Ptr) : Code UInt8 := .event (σ := sys) (.load p)

def store (p : Ptr) (b : UInt8) : Code Unit := .event (σ := sys) (.store p b)

def loadWord (p : Ptr) : Code Nat := .event (σ := sys) (.loadWord p)

def storeWord (p : Ptr) (v : Nat) : Code Unit :=
  .event (σ := sys) (.storeWord p v)

def visit (T : MsgType) (bytes : List UInt8) : Code Unit :=
  .event (σ := sys) (.visit T bytes)

def loadBytes (p : Ptr) : Nat → Code (List UInt8)
  | 0 => pure []
  | n + 1 => do
      let b ← load p
      let bs ← loadBytes (p.add 1) n
      pure (b :: bs)

def storeBytes (p : Ptr) : List UInt8 → Code Unit
  | [] => pure ()
  | b :: bs => do
      store p b
      storeBytes (p.add 1) bs

def load16 (host : Endian) (p : Ptr) : Code UInt16 := do
  let bs ← loadBytes p 2
  pure (UInt16.ofNat (host.word bs))

def load32 (host : Endian) (p : Ptr) : Code UInt32 := do
  let bs ← loadBytes p 4
  pure (UInt32.ofNat (host.word bs))

def store16 (host : Endian) (p : Ptr) (v : UInt16) : Code Unit :=
  storeBytes p (host.bytes 2 v.toNat)

def store32 (host : Endian) (p : Ptr) (v : UInt32) : Code Unit :=
  storeBytes p (host.bytes 4 v.toNat)

/-- The 16-bit integer a host finds at `a`. -/
def u16At (host : Endian) (f : Nat → UInt8) (a : Nat) : UInt16 :=
  UInt16.ofNat (host.word (slice f a 2))

/-- The 32-bit integer a host finds at `a`. -/
def u32At (host : Endian) (f : Nat → UInt8) (a : Nat) : UInt32 :=
  UInt32.ofNat (host.word (slice f a 4))

section Run

variable {α : Type} (m : Mem)

@[simp] theorem run_load (p : Ptr) :
    (load p).run Mem.machine m = (m.byte p.off, m) := rfl

@[simp] theorem run_store (p : Ptr) (b : UInt8) :
    (store p b).run Mem.machine m =
      ((), { m with byte := Function.update m.byte p.off b }) := rfl

@[simp] theorem run_loadWord (p : Ptr) :
    (loadWord p).run Mem.machine m = (m.word p.off, m) := rfl

@[simp] theorem run_storeWord (p : Ptr) (v : Nat) :
    (storeWord p v).run Mem.machine m =
      ((), { m with word := Function.update m.word p.off v }) := rfl

@[simp] theorem run_visit (T : MsgType) (bytes : List UInt8) :
    (visit T bytes).run Mem.machine m =
      ((), { m with visits := m.visits ++ [(T, bytes)] }) := rfl

@[simp] theorem run_loadBytes (p : Ptr) (n : Nat) :
    (loadBytes p n).run Mem.machine m = (slice m.byte p.off n, m) := by
  induction n generalizing p with
  | zero => rfl
  | succ n ih => simp [loadBytes, ih, slice]

@[simp] theorem run_storeBytes (p : Ptr) (bs : List UInt8) :
    (storeBytes p bs).run Mem.machine m = ((), m.write p.off bs) := by
  induction bs generalizing p m with
  | nil => rfl
  | cons b bs ih => simp [storeBytes, ih, patch, Mem.write]

@[simp] theorem run_load16 (host : Endian) (p : Ptr) :
    (load16 host p).run Mem.machine m = (u16At host m.byte p.off, m) := by
  simp [load16, u16At]

@[simp] theorem run_load32 (host : Endian) (p : Ptr) :
    (load32 host p).run Mem.machine m = (u32At host m.byte p.off, m) := by
  simp [load32, u32At]

@[simp] theorem run_store16 (host : Endian) (p : Ptr) (v : UInt16) :
    (store16 host p v).run Mem.machine m =
      ((), m.write p.off (host.bytes 2 v.toNat)) := by
  simp [store16]

@[simp] theorem run_store32 (host : Endian) (p : Ptr) (v : UInt32) :
    (store32 host p v).run Mem.machine m =
      ((), m.write p.off (host.bytes 4 v.toNat)) := by
  simp [store32]

end Run

section Along

variable {ok : Mem → Ev → Prop}

/-- A footprint: loads within the offsets `lo` to `hi`, and nothing else. -/
def LoadsIn (lo hi : Nat) : Mem → Ev → Prop
  | _, .load p => lo ≤ p.off ∧ p.off < hi
  | _, _ => False

/-- A footprint: loads and stores of bytes within the offsets `lo` to `hi`,
and nothing else. -/
def BytesIn (lo hi : Nat) : Mem → Ev → Prop
  | _, .load p => lo ≤ p.off ∧ p.off < hi
  | _, .store p _ => lo ≤ p.off ∧ p.off < hi
  | _, _ => False

theorem along_loadBytes {p : Ptr} {n : Nat} {m : Mem}
    (h : ∀ i < n, ok m (.load (p.add i))) :
    (loadBytes p n).Along Mem.machine ok m := by
  induction n generalizing p with
  | zero => exact trivial
  | succ n ih =>
      have htail : (loadBytes (p.add 1) n).Along Mem.machine ok m := ih fun i hi => by
        rw [Ptr.add_add, Nat.add_comm]
        exact h (i + 1) (by omega)
      simp only [loadBytes, Prog.along_bind, run_load, run_loadBytes, Prog.along_pure,
        and_true]
      exact ⟨⟨h 0 (by omega), trivial⟩, htail⟩

theorem along_storeBytes {p : Ptr} {bs : List UInt8} {m : Mem}
    (h : ∀ i < bs.length, ∀ m b, ok m (.store (p.add i) b)) :
    (storeBytes p bs).Along Mem.machine ok m := by
  induction bs generalizing p m with
  | nil => exact trivial
  | cons b bs ih =>
      simp only [storeBytes, Prog.along_bind]
      refine ⟨⟨h 0 (by simp) m b, trivial⟩, ih fun i hi m b => ?_⟩
      rw [Ptr.add_add, Nat.add_comm]
      exact h (i + 1) (by simpa using hi) m b

variable {p : Ptr} {lo hi n : Nat} {m : Mem}

theorem loadBytes_loadsIn (hlo : lo ≤ p.off) (hhi : p.off + n ≤ hi) :
    (loadBytes p n).Along Mem.machine (LoadsIn lo hi) m :=
  along_loadBytes fun i hi => ⟨by simp; omega, by simp; omega⟩

theorem loadBytes_bytesIn (hlo : lo ≤ p.off) (hhi : p.off + n ≤ hi) :
    (loadBytes p n).Along Mem.machine (BytesIn lo hi) m :=
  along_loadBytes fun i hi => ⟨by simp; omega, by simp; omega⟩

theorem storeBytes_bytesIn {bs : List UInt8} (hlo : lo ≤ p.off)
    (hhi : p.off + bs.length ≤ hi) :
    (storeBytes p bs).Along Mem.machine (BytesIn lo hi) m :=
  along_storeBytes fun i hi _ _ => ⟨by simp; omega, by simp; omega⟩

theorem load16_loadsIn {host : Endian} (hlo : lo ≤ p.off) (hhi : p.off + 2 ≤ hi) :
    (load16 host p).Along Mem.machine (LoadsIn lo hi) m := by
  simp only [load16, Prog.along_bind, Prog.along_pure, and_true]
  exact loadBytes_loadsIn hlo hhi

theorem load32_loadsIn {host : Endian} (hlo : lo ≤ p.off) (hhi : p.off + 4 ≤ hi) :
    (load32 host p).Along Mem.machine (LoadsIn lo hi) m := by
  simp only [load32, Prog.along_bind, Prog.along_pure, and_true]
  exact loadBytes_loadsIn hlo hhi

theorem load32_bytesIn {host : Endian} (hlo : lo ≤ p.off) (hhi : p.off + 4 ≤ hi) :
    (load32 host p).Along Mem.machine (BytesIn lo hi) m := by
  simp only [load32, Prog.along_bind, Prog.along_pure, and_true]
  exact loadBytes_bytesIn hlo hhi

theorem store16_bytesIn {host : Endian} {v : UInt16} (hlo : lo ≤ p.off)
    (hhi : p.off + 2 ≤ hi) :
    (store16 host p v).Along Mem.machine (BytesIn lo hi) m :=
  storeBytes_bytesIn hlo (by simpa using hhi)

theorem store32_bytesIn {host : Endian} {v : UInt32} (hlo : lo ≤ p.off)
    (hhi : p.off + 4 ≤ hi) :
    (store32 host p v).Along Mem.machine (BytesIn lo hi) m :=
  storeBytes_bytesIn hlo (by simpa using hhi)

end Along

/-! Whatever the machine, they load or store bytes and do nothing else. -/

section Always

variable {ok : Ev → Prop} {ans : (e : Ev) → Ev.Res e → Prop}

theorem loadBytes_always (h : ∀ q, ok (.load q)) (p : Ptr) (n : Nat) :
    (loadBytes p n).Always ok ans fun _ => True := by
  induction n generalizing p with
  | zero => trivial
  | succ n ih =>
      exact .event_bind (h p) fun _ _ => .bind ((ih _).mono fun _ _ => trivial)

theorem load32_always (h : ∀ q, ok (.load q)) (host : Endian) (p : Ptr) :
    (load32 host p).Always ok ans fun _ => True :=
  .bind ((loadBytes_always h p 4).mono fun _ _ => trivial)

theorem storeBytes_always (h : ∀ q b, ok (.store q b)) (p : Ptr) (bs : List UInt8) :
    (storeBytes p bs).Always ok ans fun _ => True := by
  induction bs generalizing p with
  | nil => trivial
  | cons b bs ih => exact .event_bind (h p b) fun _ _ => ih _

end Always

section Words

variable (host : Endian)

theorem u16At_of_slice {f : Nat → UInt8} {a : Nat} {v : UInt16}
    (h : slice f a 2 = host.bytes 2 v.toNat) : u16At host f a = v := by
  apply UInt16.toNat_inj.mp
  rw [u16At, h, host.word_bytes v.toNat_lt, UInt16.ofNat_toNat]

theorem u32At_of_slice {f : Nat → UInt8} {a : Nat} {v : UInt32}
    (h : slice f a 4 = host.bytes 4 v.toNat) : u32At host f a = v := by
  apply UInt32.toNat_inj.mp
  rw [u32At, h, host.word_bytes v.toNat_lt, UInt32.ofNat_toNat]

theorem u32At_congr {f g : Nat → UInt8} {a b : Nat} (h : slice f a 4 = slice g b 4) :
    u32At host f a = u32At host g b := by
  rw [u32At, u32At, h]

theorem slice_of_u16At (f : Nat → UInt8) (a : Nat) :
    slice f a 2 = host.bytes 2 (u16At host f a).toNat := by
  have hlt : host.word (slice f a 2) < 2 ^ 16 := by
    simpa using host.word_lt (slice f a 2)
  have hw := host.bytes_word (slice f a 2)
  rw [slice_length] at hw
  rw [u16At, UInt16.toNat_ofNat', Nat.mod_eq_of_lt hlt, hw]

theorem toNat_u32At (f : Nat → UInt8) (a : Nat) :
    (u32At host f a).toNat = host.word (slice f a 4) := by
  have hlt := host.word_lt (slice f a 4)
  rw [slice_length] at hlt
  rw [u32At, UInt32.toNat_ofNat']
  exact Nat.mod_eq_of_lt hlt

theorem slice_of_u32At (f : Nat → UInt8) (a : Nat) :
    slice f a 4 = host.bytes 4 (u32At host f a).toNat := by
  have hw := host.bytes_word (slice f a 4)
  rw [slice_length] at hw
  rw [toNat_u32At, hw]

end Words

end Sinew
