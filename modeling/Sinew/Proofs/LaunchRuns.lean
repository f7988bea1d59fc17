import Sinew.Proofs.LaunchBus

/-!
# A ring may be attached to while it is created

A partly written header is either refused or harmless. Where `open` has found its
four fields, the counters may not have been reset yet, but they are what they will
be reset to; a consumer that attaches then finds an empty ring, and goes on with
the one the producer fills.
-/

namespace Sinew

open Lib

/-- A ring that was empty from the first moment, and is a queue. -/
structure Launched {L : Layout} {C : Type}
    {produce : Creator → Order → Code Creator → Prop}
    {consume : Attached C → Order → Code (Attached C) → Prop} (types : MsgType → Prop)
    (cfg : Config (launching L produce consume)) : Prop where
  intact : cfg.state.overwritten = false
  bounded : (L.at 0).distance (cfg.state.shared.word L.headOff)
    (cfg.state.shared.word L.tailOff) ≤ L.capacity
  typed : ∀ e ∈ cfg.state.shared.committed, types e.1
  taken : ∀ (k : Nat) (slot : List UInt8), cfg.state.shared.taken[k]? = some slot →
    ∃ T, cfg.state.shared.committed[k]? = some (T, payloadOf T slot)
  heard : cfg.state.shared.Heard
  sent : ∀ c : Creator, cfg.thread .producer =
    .idle (P := launching L produce consume .producer) c →
      cfg.state.shared.committed = c.producer.sent

/-- What a typed consumer has of a ring: it knows where it is, has read nothing but
what was committed, and has a pointer to the oldest message or to nothing. Until
the first commit it has nothing, and where its handle is valid it is never refused
a message that there is. -/
structure IpcRingBuffer.Receives {T : MsgType} {Capacity : Nat} {host : Endian}
    {name : Name} (cfg : Config (launch T Capacity host name))
    (c : Attached (Consumer Unit)) : Prop where
  count : c.client.count = cfg.state.shared.taken.length
  log : ∀ e ∈ c.client.log, cfg.state.shared.committed[e.1]? = some e.2
  slot : ∀ U p, c.client.slot = some (U, p) →
    cfg.state.shared.Front U (slice cfg.state.shared.byte p.off U.size)
  waits : cfg.state.shared.committed = [] →
    c.client.count = 0 ∧ c.client.log = [] ∧ c.client.slot = none
  serves : c.handle.isValid → cfg.state.shared.Waiting → ∀ v, ∃ p,
    ((peekRead T Capacity host c.handle v).run
      (Backing.exec (params T Capacity).layout (.ring {})) cfg.state).1 = some p ∧
    cfg.state.shared.Front T (slice cfg.state.shared.byte p.off T.size)

namespace IpcEnvelopeRingBuffer

/-- The view is of the oldest message. -/
def ViewsFront (s : Shared) (pv : PacketView) : Prop :=
  ∃ T crc p, pv = ⟨T.header crc, some p, T.size⟩ ∧ s.Front T (slice s.byte p.off T.size)

/-- What was found is the oldest message, or looks like it. -/
def Found.Front (s : Shared) : Found → Prop
  | .packet pv => ViewsFront s pv
  | .msg Msg p => ∃ T, Msg.Alike T ∧ s.Front T (slice s.byte p.off T.size)
  | .visited => s.Waiting

/-- The same of a consumer of the bus. -/
structure Receives {MaxPayloadSize Capacity : Nat} {host : Endian} {name : Name}
    (cfg : Config (launch MaxPayloadSize Capacity host name)) (c : Attached BusReader) :
    Prop where
  count : c.client.count = cfg.state.shared.taken.length
  log : ∀ e ∈ c.client.log, ∃ T, cfg.state.shared.committed[e.1]? = some (T, e.2)
  found : ∀ x, c.client.found = some x → x.Front cfg.state.shared
  waits : cfg.state.shared.committed = [] →
    c.client.count = 0 ∧ c.client.log = [] ∧ c.client.found = none
  serves : c.handle.isValid → cfg.state.shared.Waiting → ∀ v,
    ViewsFront cfg.state.shared ((peekPacket MaxPayloadSize Capacity host c.handle v).run
      (Backing.exec (params MaxPayloadSize Capacity).layout (.ring {})) cfg.state).1

end IpcEnvelopeRingBuffer

section Reached

variable {L : Layout} {host : Endian} {types : MsgType → Prop} {b : Backing} {T : MsgType}
  {payload : List UInt8} {p : Ptr}

theorem Backing.Inv.front_bytes (h : b.Inv L host types) (hfront : b.shared.Front T payload)
    (hp : p.off = L.slotOff b.shared.taken.length + Header.size) :
    b.shared.Front T (slice b.shared.byte p.off T.size) := by
  have hbytes : slice b.shared.byte p.off T.size = payload := h.ring.front_bytes hfront hp
  rw [hbytes]
  exact hfront

theorem Backing.Inv.taken_eq_nil (h : b.Inv L host types) (hnone : b.shared.committed = []) :
    b.shared.taken = [] := h.ring.taken_eq_nil hnone

theorem Launched.of_inv {C : Type} {produce : Creator → Order → Code Creator → Prop}
    {consume : Attached C → Order → Code (Attached C) → Prop} (hL : L.Sane)
    {cfg : Config (launching L produce consume)} (h : cfg.state.Inv L host types)
    (hsent : ∀ c : Creator, cfg.thread .producer =
      .idle (P := launching L produce consume .producer) c →
        cfg.state.shared.committed = c.producer.sent) : Launched types cfg where
  intact := h.intact
  bounded := by
    have hdistance := h.ring.counts.distance hL 0
    have hroom : cfg.state.shared.committed.length ≤
        cfg.state.shared.taken.length + L.capacity := h.ring.room
    refine Nat.le_trans (Nat.le_of_eq hdistance) ?_
    show cfg.state.shared.committed.length - cfg.state.shared.taken.length ≤ _
    omega
  typed := h.ring.typed
  taken := h.ring.taken
  heard := h.heard
  sent := hsent

end Reached

theorem ConsumerOps.Sound.on {H : Type} {ops : ConsumerOps H} {L : Layout} {host : Endian}
    {types : MsgType → Prop} {held valid : H → Prop} (h : ops.Sound L host types held valid)
    {x : H} (hx : held x) :
    (ops.on x).Sound L host types (fun _ => True) (fun _ => valid x) where
  peekRead _ T v l s _ hT := h.peekRead x T v l s hx hT
  commitRead _ l s _ hvalid hlt := h.commitRead x l s hx hvalid hlt
  pop _ T v l s _ hT := h.pop x T v l s hx hT
  consume _ T v l s _ hT := h.consume x T v l s hx hT
  rehandle _ _ _ _ _ hget := hget.elim

namespace IpcRingBuffer

variable {T : MsgType} {Capacity : Nat} {host : Endian}

theorem creating (hL : (params T Capacity).layout.Sane)
    (hT : (params T Capacity).layout.Takes T) :
    Creating (params T Capacity) host (· = T) (producerOps T Capacity host) where
  prepareWrite _ := rfl
  push _ _ _ := rfl
  sound _ _ hoff hpage := producer_sound hL hT hoff hpage

/-- The consumer on a handle, between calls. -/
abbrev Settled (T : MsgType) (Capacity : Nat) (h : IpcHandle) (c : Consumer Unit)
    (s : Shared) : Prop :=
  c.Ready (params T Capacity).layout (fun _ => True)
    (fun _ => (h.ring (params T Capacity)).isSome) s

theorem attaching (hL : (params T Capacity).layout.Sane)
    (hT : (params T Capacity).layout.Takes T) :
    Attaching (params T Capacity) host (· = T)
      (fun h => ConsumerCall ((consumerOps T Capacity host).on h) (· = T))
      (fun c => { c with slot := none }) (Settled T Capacity) where
  rely hc hr := hc.quiet hr.quiet
  forget _ hc := ⟨trivial, hc.count, hc.log, fun _ _ hslot => by cases hslot⟩
  use := by
    intro h c l call b hcall hheld hinv hc
    have hc₀ : Settled T Capacity h c (b.shared.recalling []) :=
      ⟨hc.held, hc.count, hc.log, hc.slot⟩
    have hsound : (consumerOps T Capacity host).Sound (params T Capacity).layout host (· = T)
        (IpcHandle.Held (params T Capacity)) (fun h => (h.ring (params T Capacity)).isSome) :=
      consumer_sound hL hT
    have hops := hsound.on hheld
    refine Env.wp_mono (deaf_consumer.wp_ring
      (ConsumerCall.ready hops (takes_only hT) hcall hinv.ring hc₀)) ?_
    intro c' b' _ ⟨_, seen, hc'⟩
    exact ⟨hc'.held, hc'.count, hc'.log, hc'.slot⟩

theorem Receives.of_inv (hL : (params T Capacity).layout.Sane)
    (hT : (params T Capacity).layout.Takes T) {name : Name}
    {cfg : Config (launch T Capacity host name)}
    (hinv : cfg.state.Inv (params T Capacity).layout host (· = T))
    {c : Attached (Consumer Unit)}
    (hc : c.Ready (params T Capacity) (Settled T Capacity) cfg.state.shared) :
    Receives cfg c where
  count := hc.client.count
  log := hc.client.log
  slot U p hslot := by
    obtain ⟨hp, payload, hfront⟩ := (hc.client.slot U p hslot).2
    exact hinv.front_bytes hfront hp
  waits hnone := by
    refine ⟨?_, List.eq_nil_iff_forall_not_mem.mpr fun e he => ?_,
      Option.eq_none_iff_forall_ne_some.mpr fun x hslot => ?_⟩
    · rw [hc.client.count, hinv.taken_eq_nil hnone]
      rfl
    · have hget := hc.client.log e he
      rw [hnone] at hget
      cases hget
    · obtain ⟨-, -, payload, hfront⟩ := hc.client.slot x.1 x.2 hslot
      have hget : cfg.state.shared.committed[cfg.state.shared.taken.length]? =
          some (x.1, payload) := hfront
      rw [hnone] at hget
      cases hget
  serves hvalid hwaiting v := by
    obtain ⟨R, hring⟩ := IpcHandle.ring_of_valid (params T Capacity) hvalid
    obtain ⟨base, hbase, heq⟩ := hc.held R hring
    subst heq
    simp only [peekRead, hring]
    obtain ⟨-, -, seen, hq, hpeek, hnone⟩ := Env.wp_alone (deaf_consumer.wp_ring
      (wp_peekRead (l := {}) hL (takes_only hT) only_id hbase rfl v)) hinv
    obtain ⟨U, payload, hfront⟩ := Shared.exists_front hwaiting
    obtain rfl : U = T := hinv.ring.typed _ (List.mem_of_getElem? hfront)
    cases hr : (((params U Capacity).layout.at base).peekRead host U v).run
        (Backing.exec (params U Capacity).layout (.ring {})) cfg.state |>.1 with
    | none => exact absurd hfront (hnone hr payload)
    | some p =>
        refine ⟨p, rfl, hinv.front_bytes hfront ?_⟩
        have hp := (hpeek p hr).1
        rw [hq.taken] at hp
        exact hp

end IpcRingBuffer

namespace IpcEnvelopeRingBuffer

variable {MaxPayloadSize Capacity : Nat} {host : Endian}

abbrev Carried (MaxPayloadSize : Nat) (T : MsgType) : Prop :=
  T.Plain ∧ T.size ≤ MaxPayloadSize

theorem takes_carried (T : MsgType) (hT : Carried MaxPayloadSize T) :
    (params MaxPayloadSize Capacity).layout.Takes T := layout_takes hT.1.2 hT.2 hT.1.1

theorem creating (hL : (params MaxPayloadSize Capacity).layout.Sane) :
    Creating (params MaxPayloadSize Capacity) host (Carried MaxPayloadSize)
      (producerOps MaxPayloadSize Capacity host) where
  prepareWrite _ := rfl
  push _ _ _ := rfl
  sound _ _ hoff hpage := producer_sound hL takes_carried hoff hpage

theorem attaching (hL : (params MaxPayloadSize Capacity).layout.Sane) :
    Attaching (params MaxPayloadSize Capacity) host (Carried MaxPayloadSize)
      (BusReaderCall MaxPayloadSize Capacity host) (fun c => { c with found := none })
      (fun h c s => c.Ready (params MaxPayloadSize Capacity) h s) where
  rely hc hr := hc.still hr.quiet.still
  forget h' hc := hc.lost h'
  use hcall hheld hinv hc := hcall.ready hL takes_carried hheld hinv hc

theorem Shows.viewsFront {b : Backing} {L : Layout} {types : MsgType → Prop}
    (hinv : b.Inv L host types) {pv : PacketView} (h : Shows L pv b.shared) :
    ViewsFront b.shared pv := by
  obtain ⟨T, payload, crc, p, hfront, -, hp, hpv⟩ := h
  exact ⟨T, crc, p, hpv, hinv.front_bytes hfront hp⟩

theorem Receives.of_inv (hL : (params MaxPayloadSize Capacity).layout.Sane) {name : Name}
    {cfg : Config (launch MaxPayloadSize Capacity host name)}
    (hinv : cfg.state.Inv (params MaxPayloadSize Capacity).layout host
      (Carried MaxPayloadSize)) {c : Attached BusReader}
    (hc : c.Ready (params MaxPayloadSize Capacity)
      (fun h c s => c.Ready (params MaxPayloadSize Capacity) h s) cfg.state.shared) :
    Receives cfg c where
  count := hc.client.count
  log := hc.client.log
  found x hx := by
    have holdest := (hc.client.found x hx).2
    cases x with
    | packet pv => exact Shows.viewsFront hinv holdest
    | msg Msg p =>
        obtain ⟨hp, U, payload, halike, hfront⟩ := holdest
        exact ⟨U, halike, hinv.front_bytes hfront hp⟩
    | visited => exact holdest
  waits hnone := by
    refine ⟨?_, List.eq_nil_iff_forall_not_mem.mpr fun e he => ?_,
      Option.eq_none_iff_forall_ne_some.mpr fun x hx => ?_⟩
    · rw [hc.client.count, hinv.taken_eq_nil hnone]
      rfl
    · obtain ⟨T, hget⟩ := hc.client.log e he
      rw [hnone] at hget
      cases hget
    · have hlt : _ < cfg.state.shared.committed.length := (hc.client.found x hx).2.waiting
      rw [hnone] at hlt
      cases hlt
  serves hvalid hwaiting v := by
    obtain ⟨R, hring⟩ := IpcHandle.ring_of_valid (params MaxPayloadSize Capacity) hvalid
    obtain ⟨base, hbase, heq⟩ := hc.held R hring
    subst heq
    simp only [peekPacket, hring]
    have hpeek : (attachedEnv (params MaxPayloadSize Capacity).layout host
        (Carried MaxPayloadSize)).wp
        (Backing.exec (params MaxPayloadSize Capacity).layout (.ring {}))
        (peekPacketAt host ((params MaxPayloadSize Capacity).layout.at base) v)
        (fun pv b' => cfg.state.shared.Still b'.shared ∧
          Shows (params MaxPayloadSize Capacity).layout pv b'.shared) cfg.state := by
      refine Env.wp_mono (deaf_consumer.wp_ring (wp_peekPacketAt hL takes_carried v _)) ?_
      intro pv b' _ hshown
      obtain ⟨_, seen, hr, hshows, hfound⟩ := hshown
      exact ⟨⟨hr.taken, hr.committed⟩, (hshows (hfound hwaiting)).2⟩
    obtain ⟨-, hstill, T, payload, crc, p, hfront, -, hp, hpv⟩ := Env.wp_alone hpeek hinv
    obtain ⟨U, payload', hfront'⟩ := Shared.exists_front hwaiting
    obtain ⟨rfl, rfl⟩ := Prod.mk.inj
      (Option.some.inj ((hfront'.still hstill).symm.trans hfront))
    rw [hstill.taken] at hp
    exact ⟨U, crc, p, hpv, hinv.front_bytes hfront' hp⟩

end IpcEnvelopeRingBuffer

/-! ## Every run -/

/-- **Attaching while the ring is created.** From no segment under the name, over
every interleaving of the steps of `create` and of the producer's calls after it
with those of a consumer's process that opens the name as often as it likes: the
ring is empty until the first commit and a queue from then on, and no store of
`create` undoes what a commit has stored. -/
theorem launch_safe (Capacity : Nat) (hpow : ∃ j, Capacity = 2 ^ j) (host : Endian)
    (name : Name) :
    (∀ T : MsgType, T.Plain → (IpcRingBuffer.params T Capacity).totalShmSize < 2 ^ 64 →
      ∀ cfg, Reach (IpcRingBuffer.launchStart T Capacity host name) cfg →
        Launched (· = T) cfg ∧ ∀ c : Attached (Consumer Unit), cfg.thread .consumer =
          .idle (P := IpcRingBuffer.launch T Capacity host name .consumer) c →
            IpcRingBuffer.Receives cfg c) ∧
    (∀ MaxPayloadSize,
      (IpcEnvelopeRingBuffer.params MaxPayloadSize Capacity).totalShmSize < 2 ^ 64 →
      ∀ cfg, Reach (IpcEnvelopeRingBuffer.launchStart MaxPayloadSize Capacity host name)
          cfg →
        Launched (fun T => T.Plain ∧ T.size ≤ MaxPayloadSize) cfg ∧
        ∀ c : Attached IpcEnvelopeRingBuffer.BusReader, cfg.thread .consumer =
          .idle (P := IpcEnvelopeRingBuffer.launch MaxPayloadSize Capacity host name
            .consumer) c → IpcEnvelopeRingBuffer.Receives cfg c) := by
  constructor
  · intro T hplain hfits cfg hreach
    have hL : (IpcRingBuffer.params T Capacity).layout.Sane :=
      IpcParams.layout_sane hpow IpcRingBuffer.kSlotSize_pos hfits
    have hT : (IpcRingBuffer.params T Capacity).layout.Takes T :=
      IpcRingBuffer.layout_takes hplain.1 hplain.2
    obtain ⟨hinv, hproducer, hconsumer⟩ := launch_reach (IpcRingBuffer.creating hL hT) hL
      (takes_only hT) (IpcRingBuffer.attaching hL hT)
      ⟨trivial, rfl, (fun _ he => by cases he), fun _ _ hslot => by cases hslot⟩ hreach
    exact ⟨.of_inv hL hinv fun c hc => (hproducer c hc).sent,
      fun c hc => .of_inv hL hT hinv (hconsumer c hc)⟩
  · intro MaxPayloadSize hfits cfg hreach
    have hL : (IpcEnvelopeRingBuffer.params MaxPayloadSize Capacity).layout.Sane :=
      IpcEnvelopeRingBuffer.layout_sane hpow hfits
    obtain ⟨hinv, hproducer, hconsumer⟩ := launch_reach (IpcEnvelopeRingBuffer.creating hL) hL
      IpcEnvelopeRingBuffer.takes_carried (IpcEnvelopeRingBuffer.attaching hL)
      ⟨rfl, (fun _ he => by cases he), fun _ hx => by cases hx⟩ hreach
    exact ⟨.of_inv hL hinv fun c hc => (hproducer c hc).sent,
      fun c hc => .of_inv hL hinv (hconsumer c hc)⟩

/-- The consumer attaches when `create` has stored the fields that `open` compares
but not yet the counters; then a message is sent and taken. -/
theorem launch_safe_ping :
    (∃ cfg, Reach (IpcRingBuffer.launchStart pingMsg 2 .little [0x61]) cfg ∧
      cfg.state.shared.taken.map (payloadOf pingMsg) = [[42, 0, 0, 0]] ∧
      Launched (· = pingMsg) cfg) ∧
    (∃ cfg, Reach (IpcEnvelopeRingBuffer.launchStart 32 2 .little [0x61]) cfg ∧
      cfg.state.shared.seen.map (·.2.2) = [[42, 0, 0, 0]] ∧
      Launched (fun T => T.Plain ∧ T.size ≤ 32) cfg) := by
  have h := launch_safe 2 ⟨1, rfl⟩ .little [0x61]
  have plain : pingMsg.Plain := ⟨by decide, by decide⟩
  constructor
  · have create : CreatorCall (IpcRingBuffer.create pingMsg 2 .little [0x61])
        (IpcRingBuffer.producerOps pingMsg 2 .little) (· = pingMsg) {}
        (.system { shmOpen := some 3, ftruncate := true, mmap := some ⟨0x1000, 0⟩ }) _ :=
      .create {} _ rfl
    have push : ∀ c : Creator, c.handle = some (.attach ⟨[0x61], some ⟨0x1000, 0⟩, 256, true,
        some 3⟩ ⟨0x1000, 0⟩ true) →
        CreatorCall (IpcRingBuffer.create pingMsg 2 .little [0x61])
          (IpcRingBuffer.producerOps pingMsg 2 .little) (· = pingMsg) c
          (.ring { writes := some pingMsg }) _ := fun c hc =>
      .produce c _ _ _ hc (.push c.producer pingMsg [42, 0, 0, 0] true rfl rfl)
    have attach : ∀ c, AttachedCall (IpcRingBuffer.openRing pingMsg 2 .little [0x61])
        (fun h => ConsumerCall ((IpcRingBuffer.consumerOps pingMsg 2 .little).on h)
          (· = pingMsg)) (fun c => { c with slot := none }) c
        (.system { shmOpen := some 4, fstat := some 0, mmap := some ⟨0x2000, 0⟩ }) _ :=
      fun c => .attach c _
    have pop : ∀ c, AttachedCall (IpcRingBuffer.openRing pingMsg 2 .little [0x61])
        (fun h => ConsumerCall ((IpcRingBuffer.consumerOps pingMsg 2 .little).on h)
          (· = pingMsg)) (fun c => { c with slot := none }) c (.ring {}) _ := fun c =>
      .use c _ _ (.pop c.client pingMsg true rfl)
    have hbegun : Reach (IpcRingBuffer.launchStart pingMsg 2 .little [0x61]) _ :=
      .single (Step.start (i := Side.producer) rfl create)
    have hattached := (hbegun.trans (Reach.events (i := Side.producer) rfl 23)).trans
      (Reach.call (i := Side.consumer) rfl (attach _))
    have hpushed := (hattached.trans (Reach.finish (i := Side.producer) rfl)).trans
      (Reach.call (i := Side.producer) rfl (push _ (by decide +kernel)))
    have hpopped := hpushed.trans (Reach.call (i := Side.consumer) rfl (pop _))
    exact ⟨_, hpopped, by decide +kernel, (h.1 pingMsg plain (by decide) _ hpopped).1⟩
  · have create : CreatorCall (IpcEnvelopeRingBuffer.create 32 2 .little [0x61])
        (IpcEnvelopeRingBuffer.producerOps 32 2 .little) (IpcEnvelopeRingBuffer.Carried 32) {}
        (.system { shmOpen := some 3, ftruncate := true, mmap := some ⟨0x1000, 0⟩ }) _ :=
      .create {} _ rfl
    have push : ∀ c : Creator, c.handle = some (.attach ⟨[0x61], some ⟨0x1000, 0⟩, 320, true,
        some 3⟩ ⟨0x1000, 0⟩ true) →
        CreatorCall (IpcEnvelopeRingBuffer.create 32 2 .little [0x61])
          (IpcEnvelopeRingBuffer.producerOps 32 2 .little) (IpcEnvelopeRingBuffer.Carried 32) c
          (.ring { writes := some pingMsg }) _ := fun c hc =>
      .produce c _ _ _ hc
        (.push c.producer pingMsg [42, 0, 0, 0] true ⟨plain, by decide⟩ rfl)
    have attach : ∀ c, AttachedCall (IpcEnvelopeRingBuffer.openRing 32 2 .little [0x61])
        (IpcEnvelopeRingBuffer.BusReaderCall 32 2 .little) (fun c => { c with found := none })
        c (.system { shmOpen := some 4, fstat := some 0, mmap := some ⟨0x2000, 0⟩ }) _ :=
      fun c => .attach c _
    have consume : ∀ c, AttachedCall (IpcEnvelopeRingBuffer.openRing 32 2 .little [0x61])
        (IpcEnvelopeRingBuffer.BusReaderCall 32 2 .little) (fun c => { c with found := none })
        c (.ring {}) _ := fun c => .use c _ _ (.consume c.client pingMsg true plain)
    have hbegun : Reach (IpcEnvelopeRingBuffer.launchStart 32 2 .little [0x61]) _ :=
      .single (Step.start (i := Side.producer) rfl create)
    have hattached := (hbegun.trans (Reach.events (i := Side.producer) rfl 23)).trans
      (Reach.call (i := Side.consumer) rfl (attach _))
    have hpushed := (hattached.trans (Reach.finish (i := Side.producer) rfl)).trans
      (Reach.call (i := Side.producer) rfl (push _ (by decide +kernel)))
    have hconsumed := hpushed.trans (Reach.call (i := Side.consumer) rfl (consume _))
    exact ⟨_, hconsumed, by decide +kernel, (h.2 32 (by decide) _ hconsumed).1⟩

end Sinew
