import Sinew.Proofs.Consumer

/-!
# Attaching to a segment

A handle is its region and two pointers into it. What `create` writes at the
start of the segment and what `open` compares there are plain stores and loads,
and none of the calls that get or drop a handle changes a segment that is in
use: attached to the ring is what a handle is, or to nothing.
-/

namespace Sinew

open Lib

/-- The handle is attached to the ring of its mapping, or to nothing. -/
def IpcHandle.Held (P : IpcParams) (h : IpcHandle) : Prop :=
  ∀ R, h.ring P = some R → ∃ base, 16 ∣ base ∧ R = P.layout.at base

theorem IpcHandle.attach_ring (P : IpcParams) (shm : SharedMemoryRegion) {data : Ptr}
    (hoff : data.off = 0) (isProducer : Bool) :
    (IpcHandle.attach shm data isProducer).ring P = some (P.layout.at data.base) := by
  obtain ⟨base, off⟩ := data
  obtain rfl : off = 0 := hoff
  simp only [ring, attach, Layout.at, IpcParams.layout, Ptr.add, Nat.zero_add]

theorem IpcHandle.Held.attach {P : IpcParams} {shm : SharedMemoryRegion} {data : Ptr}
    {isProducer : Bool} (hoff : data.off = 0) (hpage : 4096 ∣ data.base) :
    (IpcHandle.attach shm data isProducer).Held P := by
  intro R hR
  rw [attach_ring P shm hoff] at hR
  exact ⟨data.base, Nat.dvd_trans (by decide) hpage, (Option.some.inj hR).symm⟩

theorem IpcHandle.Held.none {P : IpcParams} : IpcHandle.Held P {} := by
  intro R hR
  cases hR

/-- An event of a call that opens a name or lets it go: it makes no segment and
changes none. -/
def Ev.Harmless : Ev → Prop
  | .store _ _ => False
  | .storeWord _ _ => False
  | .visit _ _ => False
  | .ftruncate _ _ => False
  | .shmOpen _ flags => flags.creat = false ∧ flags.trunc = false
  | _ => True

theorem Ev.Harmless.silent {e : Ev} (h : e.Harmless) : e.Silent := by
  cases e with
  | store p b => exact h.elim
  | storeWord p v => exact h.elim
  | visit T bytes => exact h.elim
  | _ => trivial

theorem SharedMemoryRegion.close_harmless (r : SharedMemoryRegion) :
    r.close.Always Ev.Harmless Paged fun _ => True := by
  have hunlink : Prog.Always Ev.Harmless Paged (do
      if r.isCreator ∧ r.name ≠ [] then
        shmUnlink (cStr (normalizePosixShmName r.name))
      return { r with data := none, fd := none, size := 0, isCreator := false })
      fun _ => True := by
    split
    · exact .event_bind trivial fun _ _ => trivial
    · trivial
  unfold close
  cases r.data with
  | none =>
      cases r.fd with
      | none => exact hunlink
      | some fd => exact .event_bind trivial fun _ _ => hunlink
  | some data =>
      refine .event_bind trivial fun _ _ => ?_
      cases r.fd with
      | none => exact hunlink
      | some fd => exact .event_bind trivial fun _ _ => hunlink

theorem SharedMemoryRegion.fail_harmless (r : SharedMemoryRegion) :
    r.fail.Always Ev.Harmless Paged fun r => r.data = none :=
  .bind (r.close_harmless.mono fun _ _ => rfl)

theorem SharedMemoryRegion.openRegion_harmless (name : Name) (size : Nat) :
    (SharedMemoryRegion.openRegion name size).Always Ev.Harmless Paged fun r =>
      ∀ data, r.data = some data → data.off = 0 ∧ 4096 ∣ data.base := by
  have hfail : ∀ r : SharedMemoryRegion, r.fail.Always Ev.Harmless Paged fun r =>
      ∀ data, r.data = some data → data.off = 0 ∧ 4096 ∣ data.base := fun r =>
    r.fail_harmless.mono fun r hr data hdata => by
      rw [hr] at hdata
      cases hdata
  refine .event_bind ⟨rfl, rfl⟩ fun fd _ => ?_
  cases fd with
  | none => exact hfail _
  | some fd =>
      refine .event_bind trivial fun stSize _ => ?_
      dsimp only
      split
      · exact .event_bind trivial fun _ _ => hfail _
      · refine .event_bind trivial fun ptr hptr => ?_
        cases ptr with
        | none => exact .event_bind trivial fun _ _ => hfail _
        | some ptr => exact hptr

theorem IpcHandle.checkHeader_always {ok : Ev → Prop} {ans : (e : Ev) → Ev.Res e → Prop}
    (h : ∀ q, ok (.load q)) (P : IpcParams) (host : Endian) (hdr : Ptr) :
    (IpcHandle.checkHeader P host hdr).Always ok ans fun _ => True := by
  have hload : ∀ (q : Ptr) (f : UInt32 → Code Bool),
      (∀ v, (f v).Always ok ans fun _ => True) →
      (load32 host q >>= f).Always ok ans fun _ => True := fun q f hf =>
    .bind ((load32_always h host q).mono fun v _ => hf v)
  unfold checkHeader
  refine hload _ _ fun magic => ?_
  split
  · trivial
  refine hload _ _ fun capacity => ?_
  split
  · trivial
  refine hload _ _ fun slotSize => ?_
  split
  · trivial
  exact hload _ _ fun payloadLen => trivial

theorem IpcHandle.openHandle_harmless (P : IpcParams) (host : Endian) (name : Name) :
    (IpcHandle.openHandle P host name).Always Ev.Harmless Paged (IpcHandle.Held P) := by
  unfold openHandle
  refine .bind
    ((SharedMemoryRegion.openRegion_harmless _ _).mono fun shm hshm => ?_)
  split
  · exact Held.none
  · next data hdata =>
      obtain ⟨hoff, hpage⟩ := hshm data hdata
      refine .bind
        ((checkHeader_always (fun _ => trivial) P host data).mono fun matching _ => ?_)
      split
      · exact Held.attach hoff hpage
      · exact .bind (shm.close_harmless.mono fun _ _ => Held.none)

/-- A handle's pointers are what its ring is made of, whatever region it owns. -/
theorem IpcHandle.ring_congr {h h' : IpcHandle} (P : IpcParams) (hhdr : h'.hdr = h.hdr)
    (hslots : h'.slotsBase = h.slotsBase) : h'.ring P = h.ring P := by
  unfold ring
  rw [hhdr, hslots]

theorem IpcHandle.moveAssign_harmless {P : IpcParams} (this other : IpcHandle)
    (hother : other.Held P) :
    (this.moveAssign other).Always Ev.Harmless Paged fun hs => hs.1.Held P := by
  unfold moveAssign SharedMemoryRegion.moveAssign
  simp only [Prog.always_bind]
  refine this.shm.close_harmless.mono fun _ _ => ?_
  intro R hR
  rw [ring_congr P (h := other) rfl rfl] at hR
  exact hother R hR

theorem IpcHandle.reopen_harmless {α : Type} (P : IpcParams) (host : Endian) (name : Name)
    (h : IpcHandle) (f : IpcHandle → α) :
    Prog.Always Ev.Harmless Paged (do
      let opened ← IpcHandle.openHandle P host name
      let (h', rest) ← h.moveAssign opened
      rest.destroy
      return f h') fun a => ∃ h', IpcHandle.Held P h' ∧ a = f h' := by
  refine .bind ((openHandle_harmless P host name).mono fun opened hopened => ?_)
  refine .bind ((moveAssign_harmless h opened hopened).mono fun hs hheld => ?_)
  obtain ⟨h', rest⟩ := hs
  simp only [destroy, Prog.always_bind]
  exact rest.shm.close_harmless.mono fun _ _ => ⟨h', hheld, rfl⟩

/-- The stores of `create` are stores, and the words it stores are zero. -/
theorem IpcHandle.initHeader_always {ok : Ev → Prop} {ans : (e : Ev) → Ev.Res e → Prop}
    (h : ∀ q b, ok (.store q b)) (h' : ∀ q, ok (.storeWord q 0)) (P : IpcParams)
    (host : Endian) (hdr : Ptr) :
    (IpcHandle.initHeader P host hdr).Always ok ans fun _ => True := by
  have hstore : ∀ (q : Ptr) (bs : List UInt8) (p : Code Unit),
      p.Always ok ans (fun _ => True) →
      (storeBytes q bs >>= fun _ => p).Always ok ans fun _ => True := fun q bs p hp =>
    .bind ((storeBytes_always h q bs).mono fun _ _ => hp)
  unfold initHeader store32 store16
  repeat refine hstore _ _ _ ?_
  exact .event_bind (h' _) fun _ _ => ⟨h' _, fun _ _ => trivial⟩

theorem run_initHeader_word (P : IpcParams) (host : Endian) {data : Ptr}
    (hoff : data.off = 0) (m : Mem) :
    ((IpcHandle.initHeader P host data).run Mem.machine m).2.word =
      Function.update (Function.update m.word IpcRingHeader.headOff 0)
        IpcRingHeader.tailOff 0 := by
  simp [IpcHandle.initHeader, hoff]

/-- A ring that carries messages of type `T` is a queue: the counters are at
most a capacity apart, what was taken of the slots is what was committed, from
the first message on, and so is what callbacks were handed. The clients know
where they are in it, and what the consumer has read through a peeked pointer,
or would read now, is the message it is at. -/
structure Fifo {H : Type} {L : Layout}
    {produce : Producer → Label → Code Producer → Prop}
    {consume : Consumer H → Label → Code (Consumer H) → Prop} (T : MsgType)
    (cfg : Config (parties L produce consume)) : Prop where
  bounded : (L.at 0).distance (cfg.state.word L.headOff) (cfg.state.word L.tailOff) ≤
    L.capacity
  taken : cfg.state.taken.map (payloadOf T) <+: cfg.state.committed.map (·.2)
  typed : ∀ e ∈ cfg.state.committed, e.1 = T
  seen : ∀ e ∈ cfg.state.seen, cfg.state.committed[e.1]? = some e.2
  sent : ∀ p : Producer, cfg.thread .producer =
    .idle (P := parties L produce consume .producer) p → cfg.state.committed = p.sent
  read : ∀ c : Consumer H, cfg.thread .consumer =
    .idle (P := parties L produce consume .consumer) c →
      c.count = cfg.state.taken.length ∧
      (∀ e ∈ c.log, cfg.state.committed[e.1]? = some e.2) ∧
      ∀ U p, c.slot = some (U, p) → cfg.state.committed[c.count]? =
        some (U, slice cfg.state.byte p.off U.size)

end Sinew
