import Mathlib.Data.List.Chain
import Sinew.Model.Bridge
import Sinew.Proofs.Attach
import Sinew.Proofs.Packet

/-!
# What a bridge publishes

A bridge that is run alone relays the messages that wait in its ring, one after
the other, up to the first one that is not shown. So a run of it is a function
of the list of these messages, and of the `RosMsg` it starts from.

If every message were converted into a fresh `RosMsg` it would make no
difference where one call ends and the next begins. The loop has one `RosMsg`
for all its turns, and the two agree just as long as the converter makes the
same of a message over the one before it as over a fresh one.
-/

namespace Sinew

open Lib

variable {RosMsg World H : Type}

namespace Ring

variable (R : Ring) (host : Endian) (T : MsgType) (m : Mem)

/-- The messages from `cursor` on, up to `head` or to the first slot that does
not hold one. -/
def queueFrom : Nat → Nat → List (List UInt8)
  | 0, _ => []
  | n + 1, cursor =>
      if cursor = m.word R.head.off then []
      else if validateMem host T (R.slot cursor) m.byte R.slotSize false = .ok then
        slice m.byte ((R.slot cursor).off + Header.size) T.size ::
          queueFrom n ((cursor + 1) % 2 ^ R.w)
      else []

/-- The first `n` messages that wait, or as many as there are. -/
def queue (n : Nat) : List (List UInt8) := R.queueFrom host T m n (m.word R.tail.off)

/-- `n` calls of `commit_read`. -/
def skip (n : Nat) (m : Mem) : Mem :=
  (fun m => (R.commitRead.run Mem.machine m).2)^[n] m

end Ring

section Queue

variable {R : Ring} {host : Endian} {T : MsgType} {m : Mem}

theorem run_commitRead : (R.commitRead.run Mem.machine m).2 = { m with
    word := Function.update m.word R.tail.off ((m.word R.tail.off + 1) % 2 ^ R.w) } := rfl

theorem Ring.skip_succ (n : Nat) :
    R.skip (n + 1) m = R.skip n (R.commitRead.run Mem.machine m).2 := rfl

theorem Ring.skip_add (i j : Nat) : R.skip j (R.skip i m) = R.skip (i + j) m := by
  rw [Nat.add_comm]
  exact (Function.iterate_add_apply _ _ _ _).symm

theorem Ring.queueFrom_commitRead (hne : R.head.off ≠ R.tail.off) (n cursor : Nat) :
    R.queueFrom host T (R.commitRead.run Mem.machine m).2 n cursor =
      R.queueFrom host T m n cursor := by
  have hhead : (R.commitRead.run Mem.machine m).2.word R.head.off = m.word R.head.off := by
    rw [run_commitRead]
    exact Function.update_of_ne hne _ _
  induction n generalizing cursor with
  | zero => rfl
  | succ n ih =>
      simp only [queueFrom, hhead, ih]
      rfl

theorem Ring.queue_commitRead (hne : R.head.off ≠ R.tail.off) (n : Nat) :
    R.queue host T (R.commitRead.run Mem.machine m).2 n =
      R.queueFrom host T m n ((m.word R.tail.off + 1) % 2 ^ R.w) := by
  rw [queue, queueFrom_commitRead hne, run_commitRead]
  simp only [Function.update_self]

theorem Ring.run_peekRead (hne : R.head.off ≠ R.tail.off) :
    ((R.peekRead host T false).run Mem.machine m = (none, m) ∧
      ∀ n, R.queue host T m n = []) ∨
    ∃ p, (R.peekRead host T false).run Mem.machine m = (some p, m) ∧
      ∀ n, R.queue host T m (n + 1) = slice m.byte p.off T.size ::
        R.queue host T (R.commitRead.run Mem.machine m).2 n := by
  by_cases hempty : m.word R.tail.off = m.word R.head.off
  · refine .inl ⟨?_, fun n => ?_⟩
    · rw [peekRead, Prog.run_bind, run_loadWord, Prog.run_bind, run_loadWord]
      dsimp only
      rw [if_pos hempty, Prog.run_pure]
    · cases n with
      | zero => rfl
      | succ n => simp only [queue, queueFrom, if_pos hempty]
  · have hpeek : (R.peekRead host T false).run Mem.machine m =
        (view host T (some (R.slot (m.word R.tail.off))) R.slotSize false).run
          Mem.machine m := IpcEnvelopeRingBuffer.run_look hempty
    rw [hpeek, run_view]
    by_cases hok : validateMem host T (R.slot (m.word R.tail.off)) m.byte R.slotSize false = .ok
    · refine .inr ⟨(R.slot (m.word R.tail.off)).add Header.size, by rw [if_pos hok],
        fun n => ?_⟩
      rw [queue_commitRead hne, queue]
      simp only [queueFrom, if_neg hempty, if_pos hok]
      rfl
    · refine .inl ⟨by rw [if_neg hok], fun n => ?_⟩
      cases n with
      | zero => rfl
      | succ n => simp only [queue, queueFrom, if_neg hempty, if_neg hok]

/-- What waits for `m + n` turns is what waits for the first `m` and then for
the other `n`. -/
theorem Ring.queue_add (hne : R.head.off ≠ R.tail.off) (m n : Nat) (mem : Mem) :
    R.queue host T mem (m + n) = R.queue host T mem m ++
      R.queue host T (R.skip (R.queue host T mem m).length mem) n := by
  induction m generalizing mem with
  | zero => rw [Nat.zero_add]; rfl
  | succ m ih =>
      rw [Nat.succ_add]
      rcases @run_peekRead R host T mem hne with ⟨_, hnone⟩ | ⟨p, _, hsome⟩
      · rw [hnone, hnone]
        exact (hnone n).symm
      · rw [hsome, hsome, ih]
        rfl

end Queue

/-! ## The relay -/

namespace BridgePublisher

variable (b : BridgePublisher RosMsg World H)

/-- What a bridge makes of the messages of a list, from what `rosMsg` holds: how
many it has bridged, how the last callback came back, and the world. -/
def relay : RosMsg → World → List (List UInt8) → Nat × Outcome × World
  | _, world, [] => (0, .returned, world)
  | rosMsg, world, bytes :: rest =>
      match b.publish (b.toRos bytes rosMsg) world with
      | (.threw, world) => (0, .threw, world)
      | (.returned, world) =>
          let (n, outcome, world) := relay (b.toRos bytes rosMsg) world rest
          (n + 1, outcome, world)

/-- What `spin_some` answers of a relay. -/
def answer (processed : Nat) (r : Nat × Outcome × World) : Option Nat × World :=
  (match r.2.1 with
    | .threw => none
    | .returned => some (processed + r.1), r.2.2)

section Run

variable {b} {R : Ring} {host : Endian}
  (hpeek : b.ops.peekRead b.ringBuffer b.SinewMsg false = R.peekRead host b.SinewMsg false)
  (hcommit : b.ops.commitRead b.ringBuffer = R.commitRead) (hne : R.head.off ≠ R.tail.off)

include hpeek hcommit hne

theorem run_spinLoop (left processed : Nat) (rosMsg : RosMsg) (world : World) (m : Mem) :
    let r := b.relay rosMsg world (R.queue host b.SinewMsg m left)
    (b.spinLoop left processed rosMsg world).run Mem.machine m =
      (answer processed r, R.skip r.1 m) := by
  induction left generalizing processed rosMsg world m with
  | zero => rfl
  | succ left ih =>
      rw [spinLoop, hpeek, hcommit, Prog.run_bind]
      rcases @Ring.run_peekRead R host b.SinewMsg m hne with
        ⟨hrun, hnone⟩ | ⟨p, hrun, hsome⟩
      · rw [hrun, hnone]
        rfl
      · rw [hrun, hsome]
        dsimp only
        rw [Prog.run_bind, run_loadBytes]
        dsimp only
        rw [relay]
        cases b.publish (b.toRos (slice m.byte p.off b.SinewMsg.size) rosMsg) world with
        | mk outcome world =>
            cases outcome with
            | threw => rfl
            | returned =>
                dsimp only
                rw [Prog.run_bind, ih]
                simp only [answer, Ring.skip_succ, Nat.add_assoc, Nat.add_comm 1]

end Run

theorem relay_returned {rosMsg : RosMsg} {world : World} {msgs : List (List UInt8)}
    (h : (b.relay rosMsg world msgs).2.1 = .returned) :
    (b.relay rosMsg world msgs).1 = msgs.length := by
  induction msgs generalizing rosMsg world with
  | nil => rfl
  | cons bytes rest ih =>
      simp only [relay] at h ⊢
      cases hpub : b.publish (b.toRos bytes rosMsg) world with
      | mk outcome world =>
          cases outcome with
          | threw =>
              rw [hpub] at h
              cases h
          | returned =>
              rw [hpub] at h
              exact congrArg (· + 1) (ih h)

/-- The messages that a callback is handed in a relay. -/
def published : RosMsg → World → List (List UInt8) → List RosMsg
  | _, _, [] => []
  | rosMsg, world, bytes :: rest =>
      match b.publishCb with
      | none => []
      | some publishCb =>
          match publishCb (b.toRos bytes rosMsg) world with
          | (.threw, _) => [b.toRos bytes rosMsg]
          | (.returned, world) =>
              b.toRos bytes rosMsg :: published (b.toRos bytes rosMsg) world rest

section Fresh

variable [Inhabited RosMsg]

/-- The relay with a fresh `RosMsg` for every message. -/
def relayFresh : World → List (List UInt8) → Nat × Outcome × World
  | world, [] => (0, .returned, world)
  | world, bytes :: rest =>
      match b.publish (b.toRos bytes default) world with
      | (.threw, world) => (0, .threw, world)
      | (.returned, world) =>
          let (n, outcome, world) := relayFresh world rest
          (n + 1, outcome, world)

/-- The messages that a callback is handed, up to one at which it throws, if each
is converted into a fresh `RosMsg`. -/
def handed : World → List (List UInt8) → List (List UInt8)
  | _, [] => []
  | world, bytes :: rest =>
      match b.publishCb with
      | none => []
      | some publishCb =>
          match publishCb (b.toRos bytes default) world with
          | (.threw, _) => [bytes]
          | (.returned, world) => bytes :: handed world rest

/-- The converter makes the same of a message over what it made of the one
before as over a fresh `RosMsg`. -/
def Overwrites (bytes next : List UInt8) : Prop :=
  b.toRos next (b.toRos bytes default) = b.toRos next default

variable {b} {world : World} {xs ys : List (List UInt8)}

theorem handed_none (hnone : b.publishCb = none) : b.handed world xs = [] := by
  cases xs with
  | nil => rfl
  | cons bytes rest => simp only [handed, hnone]

/-- The one `RosMsg` makes no difference as long as the converter overwrites it. -/
theorem relay_eq_relayFresh {rosMsg : RosMsg}
    (hfirst : ∀ q ∈ (b.handed world xs).head?, b.toRos q rosMsg = b.toRos q default)
    (hchain : (b.handed world xs).IsChain b.Overwrites) :
    b.relay rosMsg world xs = b.relayFresh world xs := by
  induction xs generalizing rosMsg world with
  | nil => rfl
  | cons bytes rest ih =>
      cases hcb : b.publishCb with
      | none =>
          have hrest : b.relay (b.toRos bytes rosMsg) world rest = b.relayFresh world rest :=
            ih (by simp [handed_none hcb]) (by simp [handed_none hcb])
          simp only [relay, relayFresh, publish, hcb, hrest]
      | some publishCb =>
          have hsame : b.toRos bytes rosMsg = b.toRos bytes default := by
            refine hfirst bytes ?_
            simp only [handed, hcb]
            split <;> rfl
          simp only [relay, relayFresh, hsame]
          simp only [handed, hcb] at hchain
          simp only [publish, hcb]
          cases hpub : publishCb (b.toRos bytes default) world with
          | mk outcome world =>
              cases outcome with
              | threw => rfl
              | returned =>
                  rw [hpub] at hchain
                  obtain ⟨hnext, hchain⟩ := List.isChain_cons.mp hchain
                  simp only [ih hnext hchain]

/-- With fresh ones it makes no difference where one call ends. -/
theorem relayFresh_append : b.relayFresh world (xs ++ ys) =
    let r := b.relayFresh world xs
    match r.2.1 with
    | .threw => r
    | .returned =>
        let r' := b.relayFresh r.2.2 ys
        (r.1 + r'.1, r'.2) := by
  induction xs generalizing world with
  | nil => simp [relayFresh]
  | cons bytes rest ih =>
      simp only [List.cons_append, relayFresh]
      cases b.publish (b.toRos bytes default) world with
      | mk outcome world =>
          cases outcome with
          | threw => rfl
          | returned =>
              simp only [ih]
              cases b.relayFresh world rest with
              | mk n r =>
                  cases r with
                  | mk outcome world =>
                      cases outcome with
                      | threw => rfl
                      | returned => simp only [Nat.add_assoc, Nat.add_comm 1]

theorem handed_append : b.handed world (xs ++ ys) = b.handed world xs ++
    match (b.relayFresh world xs).2.1 with
    | .threw => []
    | .returned => b.handed (b.relayFresh world xs).2.2 ys := by
  cases hcb : b.publishCb with
  | none =>
      rw [handed_none hcb, handed_none hcb, handed_none hcb]
      cases (b.relayFresh world xs).2.1 <;> rfl
  | some publishCb =>
      induction xs generalizing world with
      | nil => rfl
      | cons bytes rest ih =>
          simp only [List.cons_append, handed, relayFresh, publish, hcb]
          cases publishCb (b.toRos bytes default) world with
          | mk outcome world =>
              cases outcome with
              | threw => rfl
              | returned => simp only [ih, List.cons_append]

/-! ## What is published -/

/-- The published messages are those of fresh `RosMsg`s just where the converter
overwrites each with the next. -/
theorem published_prefix_iff {rosMsg : RosMsg} :
    b.published rosMsg world xs <+: xs.map (b.toRos · default) ↔
      (∀ q ∈ (b.handed world xs).head?, b.toRos q rosMsg = b.toRos q default) ∧
        (b.handed world xs).IsChain b.Overwrites := by
  induction xs generalizing rosMsg world with
  | nil => simp [published, handed]
  | cons bytes rest ih =>
      cases hcb : b.publishCb with
      | none => simp [published, handed, hcb]
      | some publishCb =>
          simp only [published, handed, hcb, List.map_cons]
          by_cases hsame : b.toRos bytes rosMsg = b.toRos bytes default
          · rw [hsame]
            cases publishCb (b.toRos bytes default) world with
            | mk outcome world =>
                cases outcome with
                | threw => simp [hsame]
                | returned =>
                    dsimp only
                    rw [List.cons_prefix_cons, ih, List.isChain_cons]
                    simp [hsame, Overwrites]
          · constructor
            · intro hprefix
              refine absurd ?_ hsame
              revert hprefix
              cases publishCb (b.toRos bytes rosMsg) world with
              | mk outcome world =>
                  cases outcome with
                  | threw => exact fun h => (List.cons_prefix_cons.mp h).1
                  | returned => exact fun h => (List.cons_prefix_cons.mp h).1
            · intro ⟨hfirst, _⟩
              refine absurd (hfirst bytes ?_) hsame
              split <;> rfl

end Fresh

/-- The bridge, with a log of what its callback was handed. -/
def logged : BridgePublisher RosMsg (World × List RosMsg) H where
  SinewMsg := b.SinewMsg
  toRos := b.toRos
  ops := b.ops
  ringBuffer := b.ringBuffer
  publishCb := b.publishCb.map fun publishCb rosMsg (world, log) =>
    let (outcome, world) := publishCb rosMsg world
    (outcome, (world, log ++ [rosMsg]))

variable {b} {world : World} {log : List RosMsg} {xs : List (List UInt8)}

theorem publish_logged (rosMsg : RosMsg) : b.logged.publish rosMsg (world, log) =
    ((b.publish rosMsg world).1, (b.publish rosMsg world).2,
      if b.publishCb.isSome then log ++ [rosMsg] else log) := by
  unfold publish logged
  cases b.publishCb <;> rfl

theorem published_none (hnone : b.publishCb = none) (rosMsg : RosMsg) :
    b.published rosMsg world xs = [] := by
  cases xs with
  | nil => rfl
  | cons bytes rest => simp only [published, hnone]

theorem relay_logged {rosMsg : RosMsg} : b.logged.relay rosMsg (world, log) xs =
    let r := b.relay rosMsg world xs
    (r.1, r.2.1, r.2.2, log ++ b.published rosMsg world xs) := by
  induction xs generalizing rosMsg world log with
  | nil => simp [relay, published]
  | cons bytes rest ih =>
      have htoRos : b.logged.toRos = b.toRos := rfl
      simp only [relay, htoRos, publish_logged]
      cases hcb : b.publishCb with
      | none => simp [ih, publish, published_none hcb, hcb]
      | some publishCb =>
          simp only [publish, published, hcb]
          cases publishCb (b.toRos bytes rosMsg) world with
          | mk outcome world =>
              cases outcome with
              | threw => rfl
              | returned => simp [ih]

theorem handed_logged [Inhabited RosMsg] :
    b.logged.handed (world, log) xs = b.handed world xs := by
  induction xs generalizing world log with
  | nil => rfl
  | cons bytes rest ih =>
      simp only [handed]
      cases hcb : b.publishCb with
      | none => simp [logged, hcb]
      | some publishCb =>
          have htoRos : b.logged.toRos = b.toRos := rfl
          have hlogged : b.logged.publishCb = some fun rosMsg (world, log) =>
              let (outcome, world) := publishCb rosMsg world
              (outcome, (world, log ++ [rosMsg])) := by
            simp only [logged, hcb, Option.map]
          simp only [hlogged, htoRos]
          cases publishCb (b.toRos bytes default) world with
          | mk outcome world =>
              cases outcome with
              | threw => rfl
              | returned => simp only [ih]

/-- What a bridge publishes depends neither on where one call ends and the next
begins nor on what it has published before. Over a ring in which `queue` waits,
`m` turns and then `n` come to the same as `m + n`: the same answer, the same
ring, the same world and the same messages published; and each of these is what
the converter makes of its message over a fresh `RosMsg`. -/
structure HistoryFree [Inhabited RosMsg] (b : BridgePublisher RosMsg World H) (m n : Nat)
    (world : World) (mem : Mem) (queue : List (List UInt8)) : Prop where
  batches : (b.logged.spinTwice m n (world, [])).run Mem.machine mem =
    (b.logged.spinSome (m + n) (world, [])).run Mem.machine mem
  fresh : ((b.logged.spinSome (m + n) (world, [])).run Mem.machine mem).1.2.2 <+:
    queue.map (b.toRos · default)

section Batches

variable [Inhabited RosMsg] {R : Ring} {host : Endian}
  (hpeek : b.ops.peekRead b.ringBuffer b.SinewMsg false = R.peekRead host b.SinewMsg false)
  (hcommit : b.ops.commitRead b.ringBuffer = R.commitRead) (hne : R.head.off ≠ R.tail.off)

include hpeek hcommit hne

/-- Two calls come to one, where the converter overwrites each message of the
queue with the next. -/
theorem run_spinTwice {m n : Nat} {mem : Mem}
    (hchain : (b.handed world (R.queue host b.SinewMsg mem (m + n))).IsChain b.Overwrites) :
    (b.spinTwice m n world).run Mem.machine mem =
      (b.spinSome (m + n) world).run Mem.machine mem := by
  have hsplit := @Ring.queue_add R host b.SinewMsg hne m n mem
  generalize hfew : R.queue host b.SinewMsg mem m = few at hsplit
  generalize hrest : R.queue host b.SinewMsg (R.skip few.length mem) n = rest at hsplit
  rw [hsplit, handed_append] at hchain
  have hfirst : b.relay default world few = b.relayFresh world few :=
    relay_eq_relayFresh (fun _ _ => rfl) hchain.left_of_append
  have hboth : b.relay default world (few ++ rest) = b.relayFresh world (few ++ rest) := by
    refine relay_eq_relayFresh (fun _ _ => rfl) ?_
    rw [handed_append]
    exact hchain
  rw [spinTwice, Prog.run_bind, spinSome, spinSome, run_spinLoop hpeek hcommit hne,
    run_spinLoop hpeek hcommit hne, hfew, hsplit, hboth, relayFresh_append, ← hfirst]
  have hbridged := @relay_returned _ _ _ b default world few
  generalize b.relay default world few = r at hfirst hbridged ⊢
  obtain ⟨count, outcome, world₁⟩ := r
  cases outcome with
  | threw => rfl
  | returned =>
      obtain rfl : count = few.length := hbridged rfl
      rw [← hfirst] at hchain
      have hsecond : b.relay default world₁ rest = b.relayFresh world₁ rest :=
        relay_eq_relayFresh (fun _ _ => rfl) hchain.right_of_append
      simp only [answer, Nat.zero_add]
      rw [Prog.run_bind, spinSome, run_spinLoop hpeek hcommit hne, hrest, hsecond]
      rw [Ring.skip_add]
      generalize b.relayFresh world₁ rest = r
      obtain ⟨count, outcome, world₂⟩ := r
      cases outcome with
      | threw => rfl
      | returned => simp [answer]

/-- A bridge on a ring is free of history just where its converter overwrites. -/
theorem historyFree_iff (m n : Nat) (world : World) (mem : Mem) :
    b.HistoryFree m n world mem (R.queue host b.SinewMsg mem (m + n)) ↔
      (b.handed world (R.queue host b.SinewMsg mem (m + n))).IsChain b.Overwrites := by
  have hlog : ((b.logged.spinSome (m + n) (world, [])).run Mem.machine mem).1.2.2 =
      b.published default world (R.queue host b.SinewMsg mem (m + n)) := by
    rw [spinSome, run_spinLoop (b := b.logged) hpeek hcommit hne, relay_logged]
    rfl
  have hfresh := @published_prefix_iff _ _ _ b _ world
    (R.queue host b.SinewMsg mem (m + n)) default
  rw [← hlog] at hfresh
  constructor
  · intro h
    exact (hfresh.mp h.fresh).2
  · intro hchain
    refine ⟨run_spinTwice (b := b.logged) hpeek hcommit hne ?_,
      hfresh.mpr ⟨fun _ _ => rfl, hchain⟩⟩
    rw [handed_logged]
    exact hchain

end Batches

/-- A bridge on a handle that is not valid publishes nothing, whatever its
converter does. -/
theorem historyFree_closed [Inhabited RosMsg]
    (hclosed : b.ops.peekRead b.ringBuffer b.SinewMsg false = pure none) (m n : Nat)
    (world : World) (mem : Mem) : b.HistoryFree m n world mem [] := by
  have hspin : ∀ k, b.logged.spinSome k (world, []) = pure (some 0, (world, [])) := by
    intro k
    have hlogged : b.logged.ops.peekRead b.logged.ringBuffer b.logged.SinewMsg false =
        pure none := hclosed
    rw [spinSome]
    cases k with
    | zero => rfl
    | succ k =>
        rw [spinLoop, hlogged]
        rfl
  refine ⟨?_, ?_⟩
  · rw [spinTwice, hspin, hspin, pure_bind]
    dsimp only
    rw [hspin]
    rfl
  · rw [hspin]
    exact List.prefix_rfl

end BridgePublisher

/-- The messages that wait in the ring of a handle. -/
def IpcHandle.queue (h : IpcHandle) (P : IpcParams) (host : Endian) (T : MsgType) (m : Mem)
    (n : Nat) : List (List UInt8) :=
  match h.ring P with
  | none => []
  | some R => R.queue host T m n

theorem IpcHandle.ring_cursors {h : IpcHandle} {P : IpcParams} {R : Ring}
    (hring : h.ring P = some R) : R.head.off ≠ R.tail.off := by
  unfold IpcHandle.ring at hring
  split at hring
  · obtain rfl := Option.some.inj hring
    simp [Ptr.add, IpcRingHeader.headOff, IpcRingHeader.tailOff]
  · cases hring

/-- **When a bridge is free of history.** On either ring, whatever is in it:
exactly when its converter makes the same of each message over the one before it
as over a fresh `RosMsg`, for every two neighbours that its callback is handed. -/
theorem spin_some_history_free_iff [Inhabited RosMsg] (toRos : List UInt8 → RosMsg → RosMsg)
    (publishCb : Option (Callback RosMsg World)) (world : World) (mem : Mem) (m n : Nat)
    (host : Endian) (T : MsgType) (Capacity : Nat) :
    (∀ w this,
      let b : BridgePublisher RosMsg World Unit :=
        ⟨T, toRos, SpscRingBuffer.consumerOps w T Capacity host this, (), publishCb⟩
      let queue := ((SpscRingBuffer.layout w T Capacity).at this).queue host T mem (m + n)
      b.HistoryFree m n world mem queue ↔ (b.handed world queue).IsChain b.Overwrites) ∧
    ∀ h,
      let b : BridgePublisher RosMsg World IpcHandle :=
        ⟨T, toRos, IpcRingBuffer.consumerOps T Capacity host, h, publishCb⟩
      let queue := h.queue (IpcRingBuffer.params T Capacity) host T mem (m + n)
      b.HistoryFree m n world mem queue ↔ (b.handed world queue).IsChain b.Overwrites := by
  refine ⟨fun w this => ?_, fun h => ?_⟩
  · exact BridgePublisher.historyFree_iff rfl rfl (show (0 : Nat) ≠ 64 by decide) m n world mem
  · cases hring : h.ring (IpcRingBuffer.params T Capacity) with
    | none =>
        simp only [IpcHandle.queue, hring]
        refine ⟨fun _ => .nil, fun _ => BridgePublisher.historyFree_closed ?_ m n world mem⟩
        simp only [IpcRingBuffer.consumerOps, IpcRingBuffer.peekRead, hring]
    | some R =>
        simp only [IpcHandle.queue, hring]
        refine BridgePublisher.historyFree_iff ?_ ?_ (IpcHandle.ring_cursors hring) m n world mem
        · simp only [IpcRingBuffer.consumerOps, IpcRingBuffer.peekRead, hring]
        · simp only [IpcRingBuffer.consumerOps, IpcRingBuffer.commitRead, hring]

/-- A bridge whose converter appends what it reads to an array of the message,
as `push_back` does to one of capacity eight. -/
def appending : BridgePublisher (List (List UInt8)) Unit Unit where
  SinewMsg := pingMsg
  toRos bytes rosMsg := if rosMsg.length < 8 then rosMsg ++ [bytes] else rosMsg
  ops := SpscRingBuffer.consumerOps 64 pingMsg 2 .little 0x1000
  ringBuffer := ()
  publishCb := some fun _ world => (.returned, world)

/-- A ring in which two pings wait. -/
def twoPings : Mem :=
  ((do
    let _ ← SpscRingBuffer.push 64 pingMsg 2 .little 0x1000 [1, 0, 0, 0] false
    let _ ← SpscRingBuffer.push 64 pingMsg 2 .little 0x1000 [2, 0, 0, 0] false
    return () : Code Unit).run Mem.machine ⟨fun _ => 0xFF, fun _ => 0, []⟩).2

/-- In one call the second message that is published has both readings, in two
calls it has its own only. -/
theorem spin_some_history :
    ((appending.logged.spinSome 2 ((), [])).run Mem.machine twoPings).1.2.2 =
      [[[1, 0, 0, 0]], [[1, 0, 0, 0], [2, 0, 0, 0]]] ∧
    ((appending.logged.spinTwice 1 1 ((), [])).run Mem.machine twoPings).1.2.2 =
      [[[1, 0, 0, 0]], [[2, 0, 0, 0]]] ∧
    ¬ appending.HistoryFree 1 1 () twoPings [[1, 0, 0, 0], [2, 0, 0, 0]] := by
  have hlong : ((appending.logged.spinSome 2 ((), [])).run Mem.machine twoPings).1.2.2 =
      [[[1, 0, 0, 0]], [[1, 0, 0, 0], [2, 0, 0, 0]]] := by decide +kernel
  refine ⟨hlong, by decide +kernel, fun h => ?_⟩
  have hfresh := h.fresh
  have htwo : (1 + 1 : Nat) = 2 := rfl
  rw [htwo, hlong] at hfresh
  revert hfresh
  decide

end Sinew
