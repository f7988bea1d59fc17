import Sinew.Proofs.Turns

/-!
# One call after another

What is kept by each call is kept by every sequence of calls, in any order and
from either side, as long as a commit finishes a draft and a message is only
skipped where there is one.
-/

namespace Sinew

open Lib

variable {L : Layout} {host : Endian} {types : MsgType → Prop} {base : Nat}
  {s : Shared} {T : MsgType}

/-- What a sequence of calls leaves intact: the counters are at most a capacity
apart, and as far apart as there are messages to take; those are the ones that
were sent; a consumer's call hands out the oldest of them or nothing; and when
there is none the producer is not refused. -/
structure Intact (L : Layout) (base : Nat) (types : MsgType → Prop)
    (prepareWrite : MsgType → Code (Option Ptr))
    (entry : (Visitor → Code (Option Handed)) → Prop) (s : Shared) (p : Producer) : Prop where
  bound : (L.at base).distance (s.word L.headOff) (s.word L.tailOff) ≤ L.capacity
  unread : (L.at base).distance (s.word L.headOff) (s.word L.tailOff) + s.taken.length =
    p.sent.length
  sent : s.committed = p.sent
  hands : ∀ call, entry call → CallSound L base s call
  accepts : s.taken.length = s.committed.length → ∀ T l, types T → T.align ≤ 16 →
    ((prepareWrite T).run (Shared.exec L l) s).1.isSome

section Turns

variable {ops : ProducerOps} {entry : (Visitor → Code (Option Handed)) → Prop}
  {commitRead : Code Unit} {base' : Nat}
  (hL : L.Sane) (hfits : ∀ T, types T → Header.size + T.size ≤ L.slotSize)
  (hops : ops.On L host types base)
  (hentry : ∀ s : Shared, s.Kept L types → ∀ call, entry call → CallSound L base' s call)
  (htake : commitRead = (L.at base').commitRead)

include hL

theorem Producer.Kept.take {p : Producer} (h : p.Kept L base types s)
    (hwaiting : s.Waiting) :
    p.Kept L base types ((L.at base').commitRead.run (Shared.exec L {}) s).2 := by
  obtain ⟨hkept, hcom, hbyte⟩ := h.ring.take hL hwaiting none
  have hrun : ((L.at base').commitRead.run (Shared.exec L {}) s).2 =
      s.storeWord L none L.tailOff ((s.word L.tailOff + 1) % 2 ^ L.w) := rfl
  obtain ⟨-, -, htaken⟩ := h.ring.counts.take hL hwaiting none
  rw [hrun]
  refine ⟨hkept, hcom.trans h.sent, fun d hd => ?_⟩
  have hdraft := h.draft d hd
  refine ⟨hdraft.typed, ?_, ?_, ?_⟩
  · have hroom : s.committed.length < s.taken.length + L.capacity := hdraft.room
    unfold Shared.Room
    rw [hcom, htaken]
    omega
  · rw [hcom]
    exact hdraft.payload
  · rw [hcom, hbyte]
    exact hdraft.bytes

include hfits hops hentry htake

theorem Turn.kept {x y : Shared × Producer}
    (hturn : Turn L (ProducerCall ops types) entry commitRead x y)
    (h : x.2.Kept L base types x.1) : y.2.Kept L base types y.1 := by
  cases hturn with
  | produce s p l call hcall => exact ProducerCall.kept hL hfits hops hcall h
  | consume s p call func hcall hfunc =>
      rcases (hentry s h.ring call hcall).takes func hfunc with heq | ⟨hwaiting, heq⟩
      · dsimp only
        rw [heq]
        exact h
      · dsimp only
        rw [heq]
        exact h.take hL hwaiting
  | commitRead s p hwaiting =>
      rw [htake]
      exact h.take hL hwaiting

theorem Turn.kept_reach {x y : Shared × Producer}
    (hreach : Relation.ReflTransGen (Turn L (ProducerCall ops types) entry commitRead) x y)
    (h : x.2.Kept L base types x.1) : y.2.Kept L base types y.1 := by
  induction hreach with
  | refl => exact h
  | tail _ hturn ih => exact Turn.kept hL hfits hops hentry htake hturn ih

theorem Turn.intact (hbase : 16 ∣ base)
    (hal : ∀ T, types T → T.align ≤ 16 → T.align ∣ L.stride ∧ T.align ∣ L.slotsOff)
    {byte : Nat → UInt8} {word : Nat → Nat} (hhead : word L.headOff = 0)
    (htail : word L.tailOff = 0) {s : Shared} {p : Producer}
    (hreach : Relation.ReflTransGen (Turn L (ProducerCall ops types) entry commitRead)
      ({ byte := byte, word := word }, {}) (s, p)) :
    Intact L base' types ops.prepareWrite entry s p := by
  have hstart : Producer.Kept L base types {} { byte := byte, word := word } := by
    refine ⟨⟨⟨by simp [hhead], by simp [htail], Nat.le_refl _, Nat.zero_le _⟩, ?_, ?_⟩, rfl,
      fun d hd => by cases hd⟩
    · intro e he
      cases he
    · intro k T payload _ hget
      cases hget
  have hkept : p.Kept L base types s :=
    Turn.kept_reach hL hfits hops hentry htake hreach hstart
  have hcounts := hkept.ring.counts
  have hle := hcounts.le
  have hroom := hcounts.room
  have hdistance := hcounts.distance hL base'
  unfold Shared.unread at hdistance
  refine ⟨?_, ?_, hkept.sent, hentry s hkept.ring, fun hdrained T l hT halign => ?_⟩
  · rw [hdistance]
    omega
  · rw [hdistance, ← hkept.sent]
    omega
  · have hpos := hL.capacity_pos
    rw [hops.prepareWrite T hT]
    refine (run_prepareWrite hL hfits hkept.ring hT host base l).2.2.2 ?_
      (L.payload_aligned (T.align_dvd_sixteen halign) (hal T hT halign).2
        (hal T hT halign).1 hbase _)
    unfold Shared.Room
    omega

end Turns

namespace SpscRingBuffer

variable {w Capacity this : Nat}

theorem entry_sound (hL : (layout w T Capacity).Sane)
    (hs : s.Kept (layout w T Capacity) (· = T)) {call : Visitor → Code (Option Handed)}
    (hentry : (consumerOps w T Capacity host this).Entry () T call) :
    CallSound (layout w T Capacity) this s call := by
  cases hentry with
  | peekRead v => exact peekRead_sound hL hs host T v
  | pop v => exact pop_sound hL hs host v fun _ h => h
  | consume v => exact consume_sound hL hs host T v

theorem intact (hpow : ∃ j, Capacity = 2 ^ j) (hfits : totalSize w T Capacity < 2 ^ w)
    (hthis : 64 ∣ this) {byte : Nat → UInt8} {p : Producer}
    (hreach : Relation.ReflTransGen (turn w T Capacity host this)
      ((start w T Capacity host this byte).state, {}) (s, p)) :
    Intact (layout w T Capacity) this (· = T) (producerOps w T Capacity host this).prepareWrite
      ((consumerOps w T Capacity host this).Entry () T) s p := by
  have hL : (layout w T Capacity).Sane := layout_sane hpow hfits
  refine Turn.intact hL ?_ producer_on (fun _ hs _ => entry_sound hL hs) rfl
    (Nat.dvd_trans (by decide) hthis) ?_ rfl rfl hreach
  · intro U hU
    subst hU
    exact Nat.le_refl _
  · intro U hU halign
    subst hU
    refine ⟨?_, ?_⟩
    · show U.align ∣ roundUp (kSlotSize U) (kSlotAlign U)
      rw [kSlotAlign_eq]
      exact dvd_roundUp _ _
    · rw [slotsOff_eq halign]
      exact Nat.dvd_trans (U.align_dvd_sixteen halign) (by decide)

end SpscRingBuffer

namespace IpcRingBuffer

variable {Capacity : Nat}

theorem entry_sound {shm' : SharedMemoryRegion} {data' : Ptr} {producer : Bool}
    (hoff' : data'.off = 0) (hL : (params T Capacity).layout.Sane)
    (hs : s.Kept (params T Capacity).layout (· = T)) {call : Visitor → Code (Option Handed)}
    (hentry : (consumerOps T Capacity host).Entry (.attach shm' data' producer) T call) :
    CallSound (params T Capacity).layout data'.base s call := by
  have hring := IpcHandle.attach_ring (params T Capacity) shm' hoff' producer
  cases hentry with
  | peekRead v =>
      simp only [consumerOps, peekRead, hring]
      exact peekRead_sound hL hs host T v
  | pop v =>
      simp only [consumerOps, pop, hring]
      exact pop_sound hL hs host v fun _ h => h
  | consume v =>
      simp only [consumerOps, consume, hring]
      exact consume_sound hL hs host T v

theorem intact (hpow : ∃ j, Capacity = 2 ^ j)
    (hfits : (params T Capacity).totalShmSize < 2 ^ 64) {shm shm' : SharedMemoryRegion}
    {data data' : Ptr} {producer : Bool} (hoff : data.off = 0) (hpage : 4096 ∣ data.base)
    (hoff' : data'.off = 0) {byte : Nat → UInt8} {p : Producer}
    (hreach : Relation.ReflTransGen
      (turn T Capacity host (.attach shm data true) (.attach shm' data' producer))
      ((start T Capacity host shm data byte).state, {}) (s, p)) :
    Intact (params T Capacity).layout data'.base (· = T)
      (producerOps T Capacity host (.attach shm data true)).prepareWrite
      ((consumerOps T Capacity host).Entry (.attach shm' data' producer) T) s p := by
  have hL : (params T Capacity).layout.Sane := IpcParams.layout_sane hpow kSlotSize_pos hfits
  have htake : commitRead T Capacity (.attach shm' data' producer) =
      ((params T Capacity).layout.at data'.base).commitRead := by
    simp only [commitRead, IpcHandle.attach_ring (params T Capacity) shm' hoff' producer]
  refine Turn.intact hL ?_ (producer_on shm hoff)
    (fun _ hs _ => entry_sound hoff' hL hs) htake (Nat.dvd_trans (by decide) hpage) ?_ ?_ ?_
    hreach
  · intro U hU
    subst hU
    exact le_roundUp _ kSlotAlign_pos
  · intro U hU halign
    subst hU
    exact ⟨Nat.dvd_trans (U.align_dvd_sixteen halign) (sixteen_dvd_slotSize halign),
      Nat.dvd_trans (U.align_dvd_sixteen halign) (by decide : 16 ∣ IpcRingHeader.size)⟩
  · rw [run_initHeader_word _ _ hoff]
    rfl
  · rw [run_initHeader_word _ _ hoff]
    rfl

end IpcRingBuffer

namespace IpcEnvelopeRingBuffer

variable {MaxPayloadSize Capacity : Nat}

theorem entry_sound {shm' : SharedMemoryRegion} {data' : Ptr} {producer : Bool}
    (hoff' : data'.off = 0) (hL : (params MaxPayloadSize Capacity).layout.Sane)
    (hs : s.Kept (params MaxPayloadSize Capacity).layout types)
    {call : Visitor → Code (Option Handed)}
    (hentry : Entry MaxPayloadSize Capacity host (.attach shm' data' producer) call) :
    CallSound (params MaxPayloadSize Capacity).layout data'.base s call := by
  have hring := IpcHandle.attach_ring (params MaxPayloadSize Capacity) shm' hoff' producer
  cases hentry with
  | peekPacket v =>
      simp only [peekPacket, hring]
      exact peekPacket_sound hL hs host v
  | peekMsg Msg v =>
      simp only [peekMsg, hring]
      exact peekRead_sound hL hs host Msg v
  | dispatch msgTypes v =>
      simp only [dispatch, hring]
      exact dispatch_sound hL hs host msgTypes v
  | dispatchAndCommit msgTypes v =>
      simp only [dispatchAndCommit, dispatch, commitRead, hring]
      exact dispatchAndCommit_sound hL hs host msgTypes v
  | consume Msg v =>
      simp only [consume, hring]
      exact consume_sound hL hs host Msg v

theorem intact (hpow : ∃ j, Capacity = 2 ^ j)
    (hfits : (params MaxPayloadSize Capacity).totalShmSize < 2 ^ 64)
    {shm shm' : SharedMemoryRegion} {data data' : Ptr} {producer : Bool}
    (hoff : data.off = 0) (hpage : 4096 ∣ data.base) (hoff' : data'.off = 0)
    {byte : Nat → UInt8} {p : Producer}
    (hreach : Relation.ReflTransGen
      (turn MaxPayloadSize Capacity host (.attach shm data true)
        (.attach shm' data' producer))
      (created MaxPayloadSize Capacity host data byte, {}) (s, p)) :
    Intact (params MaxPayloadSize Capacity).layout data'.base (·.size ≤ MaxPayloadSize)
      (producerOps MaxPayloadSize Capacity host (.attach shm data true)).prepareWrite
      (Entry MaxPayloadSize Capacity host (.attach shm' data' producer)) s p := by
  have hL : (params MaxPayloadSize Capacity).layout.Sane := layout_sane hpow hfits
  have htake : commitRead MaxPayloadSize Capacity (.attach shm' data' producer) =
      ((params MaxPayloadSize Capacity).layout.at data'.base).commitRead := by
    simp only [commitRead,
      IpcHandle.attach_ring (params MaxPayloadSize Capacity) shm' hoff' producer]
  refine Turn.intact hL ?_ (producer_on shm hoff)
    (fun _ hs _ => entry_sound hoff' hL hs) htake (Nat.dvd_trans (by decide) hpage) ?_ ?_ ?_
    hreach
  · intro U hU
    have hround := le_roundUp (Header.size + MaxPayloadSize) (show 0 < 64 by decide)
    exact Nat.le_trans (Nat.add_le_add_left hU _) hround
  · intro U hU halign
    have h16 := U.align_dvd_sixteen halign
    exact ⟨Nat.dvd_trans h16 (Nat.dvd_trans (by decide : 16 ∣ 64) (dvd_roundUp _ _)),
      Nat.dvd_trans h16 (by decide : 16 ∣ IpcRingHeader.size)⟩
  · show (created MaxPayloadSize Capacity host data byte).word _ = 0
    simp only [created, run_initHeader_word _ _ hoff]
    rfl
  · show (created MaxPayloadSize Capacity host data byte).word _ = 0
    simp only [created, run_initHeader_word _ _ hoff]
    rfl

end IpcEnvelopeRingBuffer

/-- **Calls made one at a time keep a ring intact.** In any order and from
either side, as long as a commit finishes a draft and a message is taken only
where there is one: whatever else the calls answer, the counters stay within a
capacity of each other, a consumer is handed the oldest message or nothing, and
a producer is not refused once all has been taken. -/
theorem calls_keep_ring (Capacity : Nat) (hpow : ∃ j, Capacity = 2 ^ j) (host : Endian)
    (byte : Nat → UInt8) :
    (∀ w T this, SpscRingBuffer.totalSize w T Capacity < 2 ^ w → 64 ∣ this → ∀ s p,
      Relation.ReflTransGen (SpscRingBuffer.turn w T Capacity host this)
        ((SpscRingBuffer.start w T Capacity host this byte).state, {}) (s, p) →
      Intact (SpscRingBuffer.layout w T Capacity) this (· = T)
        (SpscRingBuffer.producerOps w T Capacity host this).prepareWrite
        ((SpscRingBuffer.consumerOps w T Capacity host this).Entry () T) s p) ∧
    ∀ (shm shm' : SharedMemoryRegion) (data data' : Ptr) (producer : Bool),
      data.off = 0 → 4096 ∣ data.base → data'.off = 0 →
      let h := IpcHandle.attach shm data true
      let h' := IpcHandle.attach shm' data' producer
      (∀ T, (IpcRingBuffer.params T Capacity).totalShmSize < 2 ^ 64 → ∀ s p,
        Relation.ReflTransGen (IpcRingBuffer.turn T Capacity host h h')
          ((IpcRingBuffer.start T Capacity host shm data byte).state, {}) (s, p) →
        Intact (IpcRingBuffer.params T Capacity).layout data'.base (· = T)
          (IpcRingBuffer.producerOps T Capacity host h).prepareWrite
          ((IpcRingBuffer.consumerOps T Capacity host).Entry h' T) s p) ∧
      ∀ MaxPayloadSize,
        (IpcEnvelopeRingBuffer.params MaxPayloadSize Capacity).totalShmSize < 2 ^ 64 →
        ∀ s p,
        Relation.ReflTransGen
          (IpcEnvelopeRingBuffer.turn MaxPayloadSize Capacity host h h')
          (IpcEnvelopeRingBuffer.created MaxPayloadSize Capacity host data byte, {})
          (s, p) →
        Intact (IpcEnvelopeRingBuffer.params MaxPayloadSize Capacity).layout data'.base
          (·.size ≤ MaxPayloadSize)
          (IpcEnvelopeRingBuffer.producerOps MaxPayloadSize Capacity host h).prepareWrite
          (IpcEnvelopeRingBuffer.Entry MaxPayloadSize Capacity host h') s p :=
  ⟨fun _ _ _ hfits hthis _ _ hreach => SpscRingBuffer.intact hpow hfits hthis hreach,
    fun _ _ _ _ _ hoff hpage hoff' =>
      ⟨fun _ hfits _ _ hreach => IpcRingBuffer.intact hpow hfits hoff hpage hoff' hreach,
        fun _ hfits _ _ hreach =>
          IpcEnvelopeRingBuffer.intact hpow hfits hoff hpage hoff' hreach⟩⟩

theorem calls_keep_ring_ping :
    ∃ s p, s.committed.length = 1 ∧ s.taken.length = 1 ∧
      Intact (SpscRingBuffer.layout 64 pingMsg 2) 0x1000 (· = pingMsg)
        (SpscRingBuffer.producerOps 64 pingMsg 2 .little 0x1000).prepareWrite
        ((SpscRingBuffer.consumerOps 64 pingMsg 2 .little 0x1000).Entry () pingMsg) s p := by
  have push : ProducerCall (SpscRingBuffer.producerOps 64 pingMsg 2 .little 0x1000)
      (· = pingMsg) {} { writes := some pingMsg } _ :=
    .push {} pingMsg [42, 0, 0, 0] true rfl rfl
  have hreach : Relation.ReflTransGen (SpscRingBuffer.turn 64 pingMsg 2 .little 0x1000)
      ((SpscRingBuffer.start 64 pingMsg 2 .little 0x1000 fun _ => 0xFF).state, {}) _ :=
    .tail (.single (.produce _ _ _ _ push)) (.commitRead _ _ (by decide +kernel))
  exact ⟨_, _, by decide +kernel, by decide +kernel,
    (calls_keep_ring 2 ⟨1, rfl⟩ .little fun _ => 0xFF).1 64 pingMsg 0x1000 (by decide)
      (by decide) _ _ hreach⟩

/-- A ring of two pings, and how far apart calls leave its counters. -/
def pingsApart (calls : Code Unit) : Nat :=
  let m := (calls.run Mem.machine ⟨fun _ => 0xFF, fun _ => 0, []⟩).2
  ((SpscRingBuffer.layout 64 pingMsg 2).at 0x1000).distance (m.word 0) (m.word 64)

/-- None of the calls checks its own: skipping a message where there is none
leaves the counters more than a capacity apart, and the empty ring refuses its
producer; so does a commit on a full ring; and a commit with nothing prepared
sends the message that is still in the slot a second time. -/
theorem calls_break_ring :
    let push := fun n => SpscRingBuffer.push 64 pingMsg 2 .little 0x1000 [n, 0, 0, 0] true
    let pop := SpscRingBuffer.pop 64 pingMsg 2 .little 0x1000 true
    let answer := fun {α : Type} (calls : Code α) =>
      (calls.run Mem.machine ⟨fun _ => 0xFF, fun _ => 0, []⟩).1
    (2 < pingsApart (SpscRingBuffer.commitRead 64 pingMsg 2 0x1000) ∧
      answer (do
        SpscRingBuffer.commitRead 64 pingMsg 2 0x1000
        SpscRingBuffer.prepareWrite 64 pingMsg 2 .little 0x1000) = none) ∧
    2 < pingsApart (do
      let _ ← push 1
      let _ ← push 2
      SpscRingBuffer.commitWrite 64 pingMsg 2 .little 0x1000 true) ∧
    answer (do
      let _ ← push 1
      let first ← pop
      let _ ← push 2
      let second ← pop
      SpscRingBuffer.commitWrite 64 pingMsg 2 .little 0x1000 true
      let third ← pop
      return [first, second, third]) =
        [some [1, 0, 0, 0], some [2, 0, 0, 0], some [1, 0, 0, 0]] := by
  decide +kernel

end Sinew
