import Sinew.Proofs.Occupancy

/-!
# A monitor's queries

A monitor loads `head` at one moment of a run and `tail` at a later one. What
it may conclude rests on the histories only ever growing: a tail that is not
past the head it loaded first bounds what was unread at that first moment from
below.
-/

namespace Sinew

open Lib

variable {L : Layout} {host : Endian} {T : MsgType} {s : Shared}
  {produce : Producer → Label → Code Producer → Prop} {C : Type}
  {consume : C → Label → Code C → Prop}

theorem Shared.exec_grew (l : Label) (s : Shared) (e : Ev) :
    Grew s (Shared.exec L l s e).2 := by
  cases e with
  | storeWord p v =>
      simp only [Shared.exec, Shared.storeWord]
      split
      · cases l.writes with
        | none => exact ⟨Nat.le_refl _, Nat.le_refl _⟩
        | some T => exact ⟨by simp, Nat.le_refl _⟩
      · split
        · exact ⟨Nat.le_refl _, by simp⟩
        · exact ⟨Nat.le_refl _, Nat.le_refl _⟩
  | _ => exact ⟨Nat.le_refl _, Nat.le_refl _⟩

theorem Step.grew {cfg cfg' : Config (parties L produce consume)} (h : Step cfg cfg') :
    Shared.Grew cfg.state cfg'.state := by
  cases h with
  | start _ _ => exact .refl _
  | @event i l e k _ =>
      cases i with
      | producer => exact Shared.exec_grew l cfg.state e
      | consumer => exact Shared.exec_grew l cfg.state e
  | finish _ => exact .refl _

theorem Reach.grew {cfg cfg' : Config (parties L produce consume)} (h : Reach cfg cfg') :
    Shared.Grew cfg.state cfg'.state := by
  induction h with
  | refl => exact .refl _
  | tail _ hstep ih => exact ih.trans (Step.grew hstep)

section Run

variable {init : Config (parties L produce consume)}

/-- What a query answers that makes its first load at moment `i` of a run and
its second at moment `j`. -/
def watched {α : Type} (query : Code α) (r : Run init) (i j : Nat) : Option α :=
  query.watch (Shared.exec L {}) [(r.moment i).state, (r.moment j).state]

/-- `size` answers no more than what was unread at its first load. -/
def SizeSound (size : Code Nat) (r : Run init) (i j : Nat) : Prop :=
  ∃ n, watched size r i j = some n ∧ n ≤ L.capacity ∧ n ≤ (r.moment i).state.unread

/-- `full` answers `true` only if the ring was full in between its loads. -/
def FullSound (full : Code Bool) (r : Run init) (i j : Nat) : Prop :=
  watched full r i j = some true →
    ∃ k, i ≤ k ∧ k ≤ j ∧ (r.moment k).state.unread = L.capacity

/-- The tail that is loaded is not past the head that was loaded. -/
def NotPassed (r : Run init) (i j : Nat) : Prop :=
  (r.moment j).state.taken.length ≤ (r.moment i).state.committed.length

variable {r : Run init} {i j : Nat} {base : Nat}

theorem watched_sizeWith (passed : Nat → Nat → Nat) :
    watched ((L.at base).sizeWith passed) r i j =
      some (if (r.moment i).state.word L.headOff ≥ (r.moment j).state.word L.tailOff then
        (r.moment i).state.word L.headOff - (r.moment j).state.word L.tailOff
      else passed ((r.moment i).state.word L.headOff) ((r.moment j).state.word L.tailOff)) :=
  rfl

theorem watched_full : watched (L.at base).full r i j =
    some (decide ((L.at base).distance ((r.moment i).state.word L.headOff)
      ((r.moment j).state.word L.tailOff) ≥ L.capacity)) := rfl

/-- The two moments, and counters that have not wrapped by the second. -/
structure Loads (r : Run init) (i j : Nat) : Prop where
  le : i ≤ j
  first : (r.moment i).state.Counts L
  second : (r.moment j).state.Counts L
  noWrap : (r.moment j).state.committed.length < 2 ^ L.w

namespace Loads

variable (h : Loads r i j)

include h

theorem grew : Shared.Grew (r.moment i).state (r.moment j).state :=
  Reach.grew (r.reach_le h.le)

theorem head : (r.moment i).state.word L.headOff = (r.moment i).state.committed.length := by
  have hgrew := h.grew.committed
  have hlt := h.noWrap
  rw [h.first.head, Nat.mod_eq_of_lt (by omega)]

theorem tail : (r.moment j).state.word L.tailOff = (r.moment j).state.taken.length := by
  have hle := h.second.le
  have hlt := h.noWrap
  rw [h.second.tail, Nat.mod_eq_of_lt (by omega)]

/-- A `size` that answers zero where the tail is past the head. -/
theorem sizeSound_clamped : SizeSound ((L.at base).sizeWith fun _ _ => 0) r i j := by
  have hgrew := h.grew.taken
  have hroom := h.first.room
  refine ⟨_, watched_sizeWith _, ?_⟩
  rw [h.head, h.tail]
  unfold Shared.unread
  split <;> omega

theorem sizeSound (hpassed : NotPassed r i j) (passed : Nat → Nat → Nat) :
    SizeSound ((L.at base).sizeWith passed) r i j := by
  have hgrew := h.grew.taken
  have hroom := h.first.room
  have hle : (r.moment i).state.committed.length ≥ (r.moment j).state.taken.length := hpassed
  refine ⟨_, watched_sizeWith _, ?_⟩
  rw [h.head, h.tail, if_pos hle]
  unfold Shared.unread
  omega

theorem fullSound (hpassed : NotPassed r i j) : FullSound (L.at base).full r i j := by
  intro hfull
  have hgrew := h.grew.taken
  have hroom := h.first.room
  have hle : (r.moment j).state.taken.length ≤ (r.moment i).state.committed.length := hpassed
  have hlt := h.noWrap
  have hcom := h.grew.committed
  have hdistance : (L.at base).distance ((r.moment i).state.word L.headOff)
      ((r.moment j).state.word L.tailOff) =
      (r.moment i).state.committed.length - (r.moment j).state.taken.length := by
    rw [h.first.head, h.second.tail]
    exact Cursors.sub_mod_eq hle (by omega)
  rw [watched_full, hdistance, Option.some.injEq, decide_eq_true_eq] at hfull
  -- what was unread at the first load was at least as much
  refine ⟨i, Nat.le_refl i, h.le, ?_⟩
  unfold Shared.unread
  omega

end Loads

end Run

/-- **What a monitor may conclude.** In every run of the three rings, where the
tail that is loaded is not past the head that was loaded, `size` and `full` are
sound; the `size` of the two shared-memory classes is so in any case. -/
theorem monitor_sound (Capacity : Nat) (hpow : ∃ j, Capacity = 2 ^ j) (host : Endian)
    (byte : Nat → UInt8) :
    (∀ w T this, SpscRingBuffer.totalSize w T Capacity < 2 ^ w →
      ∀ (r : Run (SpscRingBuffer.start w T Capacity host this byte)) (i j : Nat), i ≤ j →
        (r.moment j).state.committed.length < 2 ^ w → NotPassed r i j →
        SizeSound (SpscRingBuffer.size w T Capacity this) r i j ∧
          FullSound (SpscRingBuffer.full w T Capacity this) r i j) ∧
    (∀ T shm data, (IpcRingBuffer.params T Capacity).totalShmSize < 2 ^ 64 → data.off = 0 →
      ∀ (r : Run (IpcRingBuffer.start T Capacity host shm data byte)) (i j : Nat), i ≤ j →
        (r.moment j).state.committed.length < 2 ^ 64 →
        ∀ shm' data' producer, data'.off = 0 →
          SizeSound (IpcRingBuffer.size T Capacity (.attach shm' data' producer)) r i j ∧
          (NotPassed r i j →
            FullSound (IpcRingBuffer.full T Capacity (.attach shm' data' producer)) r i j)) ∧
    (∀ MaxPayloadSize types shm shm' data data',
      (IpcEnvelopeRingBuffer.params MaxPayloadSize Capacity).totalShmSize < 2 ^ 64 →
      data.off = 0 → data'.off = 0 →
      ∀ (r : Run (IpcEnvelopeRingBuffer.readerStart MaxPayloadSize Capacity host types shm
          shm' data data' byte)) (i j : Nat), i ≤ j →
        (r.moment j).state.committed.length < 2 ^ 64 →
        ∀ shm'' data'' producer, data''.off = 0 →
          SizeSound (IpcEnvelopeRingBuffer.size MaxPayloadSize Capacity
            (.attach shm'' data'' producer)) r i j ∧
          (NotPassed r i j → FullSound (IpcEnvelopeRingBuffer.full MaxPayloadSize Capacity
            (.attach shm'' data'' producer)) r i j)) := by
  refine ⟨fun w T this hfits r i j hle hwrap hpassed => ?_,
    fun T shm data hfits hoff r i j hle hwrap shm' data' producer hoff' => ?_,
    fun MaxPayloadSize types shm shm' data data' hfits hoff hoff' r i j hle hwrap shm''
      data'' producer hoff'' => ?_⟩
  · have hcounts := fun n => SpscRingBuffer.counts hpow hfits (r.reach n)
    have h : Loads r i j := ⟨hle, hcounts i, hcounts j, hwrap⟩
    exact ⟨h.sizeSound hpassed _, h.fullSound hpassed⟩
  · have hcounts := fun n => IpcRingBuffer.counts hpow hfits hoff (r.reach n)
    have h : Loads r i j := ⟨hle, hcounts i, hcounts j, hwrap⟩
    have hring := IpcHandle.attach_ring (IpcRingBuffer.params T Capacity) shm' hoff' producer
    simp only [IpcRingBuffer.size, IpcRingBuffer.full, IpcHandle.size, IpcHandle.full, hring]
    exact ⟨h.sizeSound_clamped, h.fullSound⟩
  · have hcounts := fun n => IpcEnvelopeRingBuffer.counts hpow hfits hoff hoff' (r.reach n)
    have h : Loads r i j := ⟨hle, hcounts i, hcounts j, hwrap⟩
    have hring := IpcHandle.attach_ring
      (IpcEnvelopeRingBuffer.params MaxPayloadSize Capacity) shm'' hoff'' producer
    simp only [IpcEnvelopeRingBuffer.size, IpcEnvelopeRingBuffer.full, IpcHandle.size,
      IpcHandle.full, hring]
    exact ⟨h.sizeSound_clamped, h.fullSound⟩

theorem monitor_sound_push :
    ∃ (r : Run (SpscRingBuffer.start 64 pingMsg 2 .little 0x40 fun _ => 0xFF)) (j : Nat),
      (r.moment j).state.committed.length = 1 ∧
      SizeSound (SpscRingBuffer.size 64 pingMsg 2 0x40) r 0 j ∧
      FullSound (SpscRingBuffer.full 64 pingMsg 2 0x40) r 0 j := by
  have push : ProducerCall (SpscRingBuffer.producerOps 64 pingMsg 2 .little 0x40)
      (· = pingMsg) {} { writes := some pingMsg } _ :=
    .push {} pingMsg [42, 0, 0, 0] true rfl rfl
  have hreach : Reach (SpscRingBuffer.start 64 pingMsg 2 .little 0x40 fun _ => 0xFF) _ :=
    Reach.call (i := Side.producer) rfl push
  obtain ⟨r, j, hj⟩ := hreach.exists_run
  have hcom : (r.moment j).state.committed.length = 1 := by
    rw [hj]
    decide +kernel
  have htaken : (r.moment j).state.taken.length = 0 := by
    rw [hj]
    decide +kernel
  have hpassed : NotPassed r 0 j := by
    rw [NotPassed, htaken]
    exact Nat.zero_le _
  exact ⟨r, j, hcom, (monitor_sound 2 ⟨1, rfl⟩ .little fun _ => 0xFF).1 64 pingMsg 0x40
    (by decide) r 0 j (Nat.zero_le j) (by rw [hcom]; decide) hpassed⟩

/-- A message sent and taken in between the loads: the ring was empty and then
had one message, and a monitor is told of one message and of a full ring. -/
theorem monitor_misled :
    ∃ (r : Run (SpscRingBuffer.start 64 pingMsg 2 .little 0x40 fun _ => 0xFF)) (j : Nat),
      (r.moment j).state.committed.length < 2 ^ 64 ∧
      ¬ SizeSound (SpscRingBuffer.size 64 pingMsg 2 0x40) r 0 j ∧
      ¬ FullSound (SpscRingBuffer.full 64 pingMsg 2 0x40) r 0 j := by
  have push : ProducerCall (SpscRingBuffer.producerOps 64 pingMsg 2 .little 0x40)
      (· = pingMsg) {} { writes := some pingMsg } _ :=
    .push {} pingMsg [42, 0, 0, 0] true rfl rfl
  have pop : ConsumerCall (SpscRingBuffer.consumerOps 64 pingMsg 2 .little 0x40)
      (· = pingMsg) { handle := () } {} _ := .pop _ pingMsg true rfl
  have hreach : Reach (SpscRingBuffer.start 64 pingMsg 2 .little 0x40 fun _ => 0xFF) _ :=
    (Reach.call (i := Side.producer) rfl push).trans
      (Reach.call (i := Side.consumer) rfl pop)
  obtain ⟨r, j, hj⟩ := hreach.exists_run
  have hcom : (r.moment j).state.committed.length = 1 := by
    rw [hj]
    decide +kernel
  refine ⟨r, j, by rw [hcom]; decide, fun ⟨n, hn, _, hle⟩ => ?_, fun hfull => ?_⟩
  · have hsize : watched (SpscRingBuffer.size 64 pingMsg 2 0x40) r 0 j = some 1 := by
      rw [watched, hj, r.zero]
      decide +kernel
    have hunread : (r.moment 0).state.unread = 0 := by
      rw [r.zero]
      rfl
    rw [hsize] at hn
    rw [hunread, ← Option.some.inj hn] at hle
    omega
  · have hwatched : watched (SpscRingBuffer.full 64 pingMsg 2 0x40) r 0 j = some true := by
      rw [watched, hj, r.zero]
      decide +kernel
    obtain ⟨k, -, hk, hunread⟩ := hfull hwatched
    have hgrew := (Reach.grew (r.reach_le hk)).committed
    have hcap : (r.moment k).state.committed.length - (r.moment k).state.taken.length = 2 :=
      hunread
    omega

end Sinew
