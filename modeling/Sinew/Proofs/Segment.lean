import Sinew.Proofs.Attach
import Sinew.Proofs.Kernel

/-!
# A segment as a memory

A process that has a segment mapped sees a memory of its own: a program that
keeps to loads and stores within the mapping does to the segment what it does
to that memory alone, and nothing else changes. So the two calls that get a
handle come down to the two calls that get a region, with the stores of the one
and the comparisons of the other made on the segment's bytes.
-/

namespace Sinew

open Lib

/-- A load or a store within `size` bytes of `data`. -/
def Ev.Within (data : Ptr) (size : Nat) : Mem → Ev → Prop
  | _, .load p => ∃ a < size, p = data.add a
  | _, .store p _ => ∃ a < size, p = data.add a
  | _, .loadWord p => ∃ a < size, p = data.add a
  | _, .storeWord p _ => ∃ a < size, p = data.add a
  | _, _ => False

namespace Kernel

variable {k k' : Kernel} {pid : Nat} {data : Ptr} {size seg : Nat}

/-- The process has `size` bytes of the segment mapped from `data` on. -/
def Sees (k : Kernel) (pid : Nat) (data : Ptr) (size seg : Nat) : Prop :=
  ∀ a < size, k.segmentAt pid (data.add a) = some seg

theorem Sees.samePages (h : k.Sees pid data size seg) (hk : SamePages k k') :
    k'.Sees pid data size seg := fun a ha => (hk pid _).trans (h a ha)

theorem Sees.le {size' : Nat} (h : k.Sees pid data size seg) (hle : size' ≤ size) :
    k.Sees pid data size' seg := fun a ha => h a (Nat.lt_of_lt_of_le ha hle)

theorem covers_add {r : SharedMemoryRegion} {page a : Nat}
    (hdata : r.data = some ⟨page * pageSize, 0⟩) (ha : a < r.size) :
    r.Covers (((⟨page * pageSize, 0⟩ : Ptr).add a).addr / pageSize) := by
  have hpage : pageSize = 4096 := rfl
  have haddr : ((⟨page * pageSize, 0⟩ : Ptr).add a).addr / pageSize =
      page + a / pageSize := by
    show (page * pageSize + (0 + a)) / pageSize = page + a / pageSize
    rw [hpage]
    omega
  refine ⟨_, hdata, ?_, ?_⟩
  · rw [haddr, addr_div_pageSize]
    exact Nat.le_add_right _ _
  · rw [haddr, addr_div_pageSize]
    refine Nat.add_lt_add_left ?_ page
    unfold pageCount
    rw [hpage]
    omega

theorem Mapped.sees {r : SharedMemoryRegion} (hm : Mapped k k' pid r seg)
    (hdata : r.data = some data) : k'.Sees pid data r.size seg := by
  obtain ⟨page, -, hpage⟩ := hm.data
  obtain rfl : ⟨page * pageSize, 0⟩ = data := Option.some.inj (hpage.symm.trans hdata)
  exact fun a ha => hm.covered _ (covers_add hpage ha)

/-- A mapping that is made and given up again. -/
theorem Mapped.released {r : SharedMemoryRegion} (hm : Mapped k k' pid r seg) :
    SamePages k (k'.released pid r) := by
  intro pid' i
  by_cases hi : pid' = pid ∧ r.Covers i
  · obtain ⟨rfl, hi⟩ := hi
    rw [released_covered k' pid' hi, hm.free i hi]
  · rw [released_other k' hi, hm.other pid' i hi]

theorem mem_setMem (k : Kernel) (seg : Nat) {m : Mem} (hm : m.visits = []) :
    (k.setMem seg m).mem seg = m := by
  obtain ⟨byte, word, visits⟩ := m
  obtain rfl : visits = [] := hm
  simp only [mem, setMem, setSegment, Function.update_self]

theorem setMem_mem (k : Kernel) (seg : Nat) : k.setMem seg (k.mem seg) = k := by
  show { k with segments := Function.update k.segments seg (k.segments seg) } = k
  rw [Function.update_eq_self]

theorem setMem_setMem (k : Kernel) (seg : Nat) (m m' : Mem) :
    (k.setMem seg m).setMem seg m' = k.setMem seg m' := by
  simp only [setMem, setSegment, Function.update_self, Function.update_idem]

theorem exec_within (h : k.Sees pid data size seg) {e : Ev}
    (he : e.Within data size (k.mem seg)) :
    k.exec pid e = (((k.mem seg).exec e).1, k.setMem seg ((k.mem seg).exec e).2) ∧
      ((k.mem seg).exec e).2.visits = [] := by
  have hsame := setMem_mem k seg
  cases e with
  | load p =>
      obtain ⟨a, ha, rfl⟩ := he
      simp only [exec, h a ha, Mem.exec, hsame]
      exact ⟨rfl, rfl⟩
  | store p b =>
      obtain ⟨a, ha, rfl⟩ := he
      simp only [exec, h a ha]
      exact ⟨rfl, rfl⟩
  | loadWord p =>
      obtain ⟨a, ha, rfl⟩ := he
      simp only [exec, h a ha, Mem.exec, hsame]
      exact ⟨rfl, rfl⟩
  | storeWord p v =>
      obtain ⟨a, ha, rfl⟩ := he
      simp only [exec, h a ha]
      exact ⟨rfl, rfl⟩
  | _ => exact he.elim

theorem run_within {α : Type} (h : k.Sees pid data size seg) {p : Code α}
    (hp : p.Along Mem.machine (Ev.Within data size) (k.mem seg)) :
    p.run (machine pid) k = ((p.run Mem.machine (k.mem seg)).1,
      k.setMem seg (p.run Mem.machine (k.mem seg)).2) := by
  induction p generalizing k with
  | ret a =>
      show (a, k) = (a, k.setMem seg (k.mem seg))
      rw [setMem_mem]
  | op e f ih =>
      obtain ⟨hexec, hvisits⟩ := exec_within h hp.1
      have hmem := mem_setMem k seg hvisits
      have hsees : (k.setMem seg ((k.mem seg).exec e).2).Sees pid data size seg := h
      have hrest := ih ((k.mem seg).exec e).1 hsees (by rw [hmem]; exact hp.2)
      rw [hmem, setMem_setMem] at hrest
      show (f (k.exec pid e).1).run (machine pid) (k.exec pid e).2 = _
      rw [hexec]
      exact hrest

end Kernel

namespace IpcHandle

variable {P : IpcParams} {host : Endian} {data : Ptr} {m : Mem}

theorem along_load32_within {size off : Nat} (hoff : off + 4 ≤ size) :
    (load32 host (data.add off)).Along Mem.machine (Ev.Within data size) m := by
  simp only [load32, Prog.along_bind, Prog.along_pure, and_true]
  exact along_loadBytes fun i hi => ⟨off + i, by omega, Ptr.add_add ..⟩

theorem along_storeBytes_within {size off : Nat} {bs : List UInt8}
    (hoff : off + bs.length ≤ size) :
    (storeBytes (data.add off) bs).Along Mem.machine (Ev.Within data size) m :=
  along_storeBytes fun i hi _ _ => ⟨off + i, by omega, Ptr.add_add ..⟩

theorem initHeader_within : (initHeader P host data).Along Mem.machine
    (Ev.Within data IpcRingHeader.size) m := by
  have hstore : ∀ off bs (p : Code Unit), off + bs.length ≤ IpcRingHeader.size →
      (∀ m, p.Along Mem.machine (Ev.Within data IpcRingHeader.size) m) →
      ∀ m, (storeBytes (data.add off) bs >>= fun _ => p).Along Mem.machine
        (Ev.Within data IpcRingHeader.size) m := by
    intro off bs p hoff hp m
    rw [Prog.along_bind]
    exact ⟨along_storeBytes_within hoff, hp _⟩
  have hwords : ∀ m, (do
      storeWord (data.add IpcRingHeader.headOff) 0
      storeWord (data.add IpcRingHeader.tailOff) 0).Along Mem.machine
        (Ev.Within data IpcRingHeader.size) m := fun m =>
    ⟨⟨_, by decide, rfl⟩, ⟨_, by decide, rfl⟩, trivial⟩
  have h16 : ∀ off (v : UInt16), off + 2 ≤ IpcRingHeader.size →
      off + (host.bytes 2 v.toNat).length ≤ IpcRingHeader.size := fun off v h => by simpa
  have h32 : ∀ off (v : UInt32), off + 4 ≤ IpcRingHeader.size →
      off + (host.bytes 4 v.toNat).length ≤ IpcRingHeader.size := fun off v h => by simpa
  unfold initHeader store32 store16
  refine hstore _ _ _ (h32 _ _ (by decide)) (hstore _ _ _ (h32 _ _ (by decide)) ?_) m
  refine hstore _ _ _ (h32 _ _ (by decide)) (hstore _ _ _ (h32 _ _ (by decide)) ?_)
  refine hstore _ _ _ (h32 _ _ (by decide)) (hstore _ _ _ (h16 _ _ (by decide)) ?_)
  exact hstore _ _ _ (h16 _ _ (by decide)) hwords

theorem checkHeader_within : (checkHeader P host data).Along Mem.machine
    (Ev.Within data IpcRingHeader.size) m := by
  have hload : ∀ off (f : UInt32 → Code Bool), off + 4 ≤ IpcRingHeader.size →
      (f (u32At host m.byte (data.off + off))).Along Mem.machine
        (Ev.Within data IpcRingHeader.size) m →
      (load32 host (data.add off) >>= f).Along Mem.machine
        (Ev.Within data IpcRingHeader.size) m := by
    intro off f hoff hf
    rw [Prog.along_bind, run_load32]
    exact ⟨along_load32_within hoff, hf⟩
  unfold checkHeader
  refine hload _ _ (by decide) ?_
  split
  · trivial
  refine hload _ _ (by decide) ?_
  split
  · trivial
  refine hload _ _ (by decide) ?_
  split
  · trivial
  exact hload _ _ (by decide) trivial

/-- The header at `data` is one that `open` accepts. -/
structure Matches (P : IpcParams) (host : Endian) (data : Ptr) (byte : Nat → UInt8) :
    Prop where
  magic : u32At host byte (data.off + IpcRingHeader.magicOff) = P.magic
  capacity : (u32At host byte (data.off + IpcRingHeader.capacityOff)).toNat = P.capacity
  slotSize : (u32At host byte (data.off + IpcRingHeader.slotSizeOff)).toNat = P.slotSize
  payloadLen :
    (u32At host byte (data.off + IpcRingHeader.payloadLenOff)).toNat = P.payloadLen

/-- The comparisons find out, and change nothing. -/
theorem run_checkHeader (P : IpcParams) (host : Endian) (data : Ptr) (m : Mem) :
    (((checkHeader P host data).run Mem.machine m).1 = true ↔ Matches P host data m.byte) ∧
      ((checkHeader P host data).run Mem.machine m).2 = m := by
  simp only [checkHeader, Prog.run_bind, run_load32, Prog.run_ite, Prog.run_pure,
    Ptr.add_off]
  split
  · next h => exact ⟨⟨(fun hf => by cases hf), fun hm => absurd hm.magic h⟩, rfl⟩
  · next hmagic =>
      split
      · next h => exact ⟨⟨(fun hf => by cases hf), fun hm => absurd hm.capacity h⟩, rfl⟩
      · next hcapacity =>
          split
          · next h => exact ⟨⟨(fun hf => by cases hf), fun hm => absurd hm.slotSize h⟩, rfl⟩
          · next hslotSize =>
              refine ⟨⟨fun h => ?_, fun hm => decide_eq_true hm.payloadLen⟩, rfl⟩
              exact ⟨not_not.mp hmagic, not_not.mp hcapacity, not_not.mp hslotSize,
                of_decide_eq_true h⟩

theorem size_le_totalShmSize (P : IpcParams) : IpcRingHeader.size ≤ P.totalShmSize :=
  Nat.le_add_right _ _

section Kernel

variable (k : Kernel) (pid : Nat) (name : Name)

/-- `create` maps nothing, or makes a ring of the segment that has the name. -/
theorem create_cases (P : IpcParams) (host : Endian) :
    (∃ k', (create P host name).run (Kernel.machine pid) k = ({}, k') ∧
      Kernel.SamePages k k') ∨
    ∃ p fd seg k', (create P host name).run (Kernel.machine pid) k =
        (attach ⟨name, some p, P.totalShmSize, true, some fd⟩ p true, k') ∧
      Kernel.Mapped k k' pid ⟨name, some p, P.totalShmSize, true, some fd⟩ seg ∧
      k'.names (osName name) = some seg ∧ ∃ byte word, k'.mem seg =
        ((initHeader P host p).run Mem.machine ⟨byte, word, []⟩).2 := by
  unfold create
  rw [Prog.run_bind]
  rcases Kernel.createWith_cases k pid { creat := true, excl := false, trunc := true } rfl name
      P.totalShmSize with
    ⟨k', hrun, hpages, -⟩ | ⟨p, fd, seg, k', hrun, hmade, hmapped, -⟩
  · have hrun : (SharedMemoryRegion.create name P.totalShmSize).run (Kernel.machine pid) k =
      ({}, k') := hrun
    rw [hrun]
    exact .inl ⟨k', rfl, hpages⟩
  · have hrun : (SharedMemoryRegion.create name P.totalShmSize).run (Kernel.machine pid) k =
      (⟨name, some p, P.totalShmSize, true, some fd⟩, k') := hrun
    rw [hrun]
    dsimp only
    rw [Prog.run_bind, Kernel.run_within ((hmapped.sees rfl).le (size_le_totalShmSize P))
      initHeader_within]
    refine .inr ⟨p, fd, seg, _, rfl, ?_, ?_, _, _, Kernel.mem_setMem _ _ ?_⟩
    · exact { hmapped with }
    · show k'.names (osName name) = some seg
      rw [hmade.names, Function.update_self]
    · simp [initHeader, Kernel.mem]

/-- `open` maps nothing, or the segment that has the name, if its header is as
it should be. -/
theorem openHandle_cases (P : IpcParams) (host : Endian) :
    (∃ k', (openHandle P host name).run (Kernel.machine pid) k = ({}, k') ∧
      Kernel.SamePages k k') ∨
    ∃ p fd seg k', (openHandle P host name).run (Kernel.machine pid) k =
        (attach ⟨name, some p, P.totalShmSize, false, some fd⟩ p false, k') ∧
      Kernel.Mapped k k' pid ⟨name, some p, P.totalShmSize, false, some fd⟩ seg ∧
      k.names (osName name) = some seg ∧
      Matches P host p (k.segments seg).byte := by
  unfold openHandle
  rw [Prog.run_bind]
  rcases Kernel.openRegion_cases k pid name P.totalShmSize with
    ⟨k', hrun, hf, -⟩ | ⟨p, fd, seg, k', hrun, -, hsegments, -, hname, hmapped⟩
  · rw [hrun]
    exact .inl ⟨k', rfl, hf.pages⟩
  · rw [hrun]
    dsimp only
    have hmem : k'.mem seg = k.mem seg := by
      rw [Kernel.mem, hsegments]
      rfl
    obtain ⟨hiff, hsame⟩ := run_checkHeader P host p (k.mem seg)
    rw [Prog.run_bind, Kernel.run_within ((hmapped.sees rfl).le (size_le_totalShmSize P))
      checkHeader_within, hmem]
    dsimp only
    split
    · next hmatching =>
        rw [hsame, ← hmem, Kernel.setMem_mem]
        exact .inr ⟨p, fd, seg, k', rfl, hmapped, hname, hiff.mp hmatching⟩
    · rw [Prog.run_bind, Kernel.run_close, hsame, ← hmem, Kernel.setMem_mem]
      exact .inl ⟨_, rfl, hmapped.released⟩

end Kernel

end IpcHandle

end Sinew
