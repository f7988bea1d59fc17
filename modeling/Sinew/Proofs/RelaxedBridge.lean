import Sinew.Proofs.Pipeline
import Sinew.Proofs.RelaxedRuns

/-!
# The bridges in the memory that C++ promises

Both loops of a bridge keep to the slots of their side. The subscriber fills in the
payload between `prepare_write` and `commit_write`, the publisher converts the payload
between `peek_read` and `commit_read`, and neither looks at a slot before or after. So
what the two come to over a ring, they come to without a race and however late a counter
is found.
-/

namespace Sinew

open Lib

variable {RosIn RosOut World H : Type} {L : Layout} {host : Endian}
  {types : MsgType → Prop} {stepwise : Bool} {base : Nat} {s : Shared} {l : Label}

theorem allows_handleRosMessage {b : BridgeSubscriber RosIn} (hL : L.Sane)
    (htypes : ∀ T, types T → L.Takes T)
    (hops : b.ops.Sound L host types stepwise base)
    (hops' : b.ops.Placed L host types stepwise base) (hT : types b.SinewMsg)
    (rosMsg : RosIn) (c : Bool) (hwrites : l.writes = some b.SinewMsg) :
    (producerEnv L host types stepwise).Allows (Shared.exec L l) (Produces L l)
      (b.handleRosMessage rosMsg c) s := by
  refine Env.allows_bind (hops'.prepareWrite b.SinewMsg l s hT)
    (Env.wp_mono (hops.prepareWrite b.SinewMsg l s hT) ?_)
  intro slot s₁ _ ⟨_, hdraft⟩
  cases slot with
  | none => exact Env.allows_pure _ _
  | some slot =>
      have hd := hdraft slot rfl
      have hfits := (htypes b.SinewMsg hT).fits
      have hslot : slot = ⟨base, L.slotOff s₁.committed.length + Header.size⟩ := hd.payload
      have hoff : slot.off = L.slotOff s₁.committed.length + Header.size := by rw [hslot]
      have hload : (loadBytes slot b.SinewMsg.size).Along Mem.machine
          (BytesIn (L.slotOff s₁.committed.length)
            (L.slotOff s₁.committed.length + L.slotSize)) s₁.bytes :=
        loadBytes_bytesIn (by omega) (by omega)
      refine Env.allows_bind (allows_bytes hd.room hload)
        (Env.wp_mono (wp_loadDraft hL htypes hd hT) ?_)
      intro bytes s₂ _ ⟨hbytes, _, hd₂⟩
      subst hbytes
      have hlen := b.fromRos_length rosMsg b.SinewMsg.fresh (by simp)
      have hslot₂ : slot = ⟨base, L.slotOff s₂.committed.length + Header.size⟩ := hd₂.payload
      have hoff₂ : slot.off = L.slotOff s₂.committed.length + Header.size := by rw [hslot₂]
      have hstore : (storeBytes slot (b.fromRos rosMsg b.SinewMsg.fresh)).Along Mem.machine
          (BytesIn (L.slotOff s₂.committed.length)
            (L.slotOff s₂.committed.length + L.slotSize)) s₂.bytes :=
        storeBytes_bytesIn (by omega) (by omega)
      refine Env.allows_bind (allows_bytes hd₂.room hstore)
        (Env.wp_mono (wp_fillDraft hL htypes hd₂ hT hlen) ?_)
      intro _ s₃ _ ⟨_, hd₃⟩
      exact Env.allows_seq (hops'.commitWrite _ c l s₃ hT hwrites hd₃)
        fun _ _ => Env.allows_pure _ _

theorem SubscriberCall.placed {b : BridgeSubscriber RosIn} (hL : L.Sane)
    (htypes : ∀ T, types T → L.Takes T) (hops : b.ops.Sound L host types stepwise base)
    (hops' : b.ops.Placed L host types stepwise base) (hT : types b.SinewMsg)
    {accepted : List RosIn} {prog : Code (List RosIn)}
    (hcall : SubscriberCall b accepted l prog) :
    (producerEnv L host types stepwise).Allows (Shared.exec L l) (Produces L l) prog s := by
  cases hcall with
  | handle rosMsg c =>
      exact Env.allows_seq (allows_handleRosMessage hL htypes hops hops' hT rosMsg c rfl)
        fun _ _ => Env.allows_pure _ _

namespace BridgePublisher

variable {b : BridgePublisher RosOut World H} (hL : L.Sane) (hT : L.Takes b.SinewMsg)
  (hbase : 16 ∣ base)
  (hpeek : b.ops.peekRead b.ringBuffer b.SinewMsg false =
    (L.at base).peekRead host b.SinewMsg false)
  (hcommit : b.ops.commitRead b.ringBuffer = (L.at base).commitRead)

include hL hT hbase hpeek hcommit

theorem allows_spinLoop (left processed : Nat) (rosMsg : RosOut) (world : World)
    (s : Shared) :
    (consumerEnv L host (· = b.SinewMsg) false).Allows (Shared.exec L l) (Consumes L)
      (b.spinLoop left processed rosMsg world) s := by
  induction left generalizing processed rosMsg world s with
  | zero => exact Env.allows_pure _ _
  | succ left ih =>
      rw [spinLoop, hpeek, hcommit]
      refine Env.allows_bind (allows_peekRead hL hT false) (Env.wp_mono
        (wp_peekRead hL (takes_only hT) only_id hbase rfl false) ?_)
      intro item s₁ hinv₁ hread
      obtain ⟨_, hpeeked, _⟩ := hread
      cases item with
      | none => exact Env.allows_pure _ _
      | some item =>
          obtain ⟨hoff, payload, hfront⟩ := hpeeked item rfl
          refine Env.allows_bind (allows_loadPayload hT ⟨hoff, payload, hfront⟩)
            (Env.wp_mono (wp_loadPayload (takes_only hT) hinv₁ hfront hoff) ?_)
          intro bytes s₂ _ hload
          obtain ⟨hq₂, _⟩ := hload
          dsimp only
          cases b.publish (b.toRos bytes rosMsg) world with
          | mk outcome world' =>
              cases outcome with
              | threw => exact Env.allows_pure _ _
              | returned =>
                  exact Env.allows_seq (allows_commitRead (hfront.quiet hq₂).lt)
                    fun _ s₃ => ih _ _ _ s₃

theorem PublisherCall.placed [Inhabited RosOut] {c : Drain World} {prog : Code (Drain World)}
    (hcall : PublisherCall b c l prog) :
    (consumerEnv L host (· = b.SinewMsg) false).Allows (Shared.exec L l) (Consumes L)
      prog s := by
  cases hcall with
  | spinSome maxMessages =>
      exact Env.allows_seq
        (allows_spinLoop hL hT hbase hpeek hcommit maxMessages 0 default c.world s)
        fun _ _ => Env.allows_pure _ _

end BridgePublisher

namespace Relaxed

variable [Inhabited RosOut] {sub : BridgeSubscriber RosIn}
  {pub : BridgePublisher RosOut World H} {world₀ : World}

/-- What a subscriber and a publisher on one ring have come to. -/
structure Relays (sub : BridgeSubscriber RosIn) (pub : BridgePublisher RosOut World H)
    (world₀ : World)
    (cfg : Config (relaxedParties L (SubscriberCall sub) (PublisherCall pub))) : Prop where
  raceless : cfg.state.mem.racy = false
  taken_le : cfg.state.taken.length ≤ cfg.state.committed.length
  room : cfg.state.committed.length ≤ cfg.state.taken.length + L.capacity
  fed : ∀ accepted : List RosIn, cfg.thread .producer = .idle (P := relaxedParties L
    (SubscriberCall sub) (PublisherCall pub) .producer) accepted →
    cfg.state.committed =
      accepted.map fun rosMsg => (sub.SinewMsg, sub.fromRos rosMsg sub.SinewMsg.fresh)
  relayed : ∀ c : Drain World, cfg.thread .consumer = .idle (P := relaxedParties L
    (SubscriberCall sub) (PublisherCall pub) .consumer) c →
    pub.Relayed world₀ (cfg.state.committed.map (·.2)) cfg.state.taken.length c.world ∧
      ∀ n, c.bridged = some n → n = cfg.state.taken.length

theorem Relays.of_reach (hL : L.Sane) (hT : L.Takes pub.SinewMsg)
    (hsub : sub.SinewMsg = pub.SinewMsg)
    (hops : sub.ops.Sound L host (· = pub.SinewMsg) false base)
    (hops' : sub.ops.Placed L host (· = pub.SinewMsg) false base) {base' : Nat}
    (hbase : 16 ∣ base')
    (hpeek : pub.ops.peekRead pub.ringBuffer pub.SinewMsg false =
      (L.at base').peekRead host pub.SinewMsg false)
    (hcommit : pub.ops.commitRead pub.ringBuffer = (L.at base').commitRead)
    {byte : Nat → UInt8} {late : Nat → Nat}
    {cfg : Config (relaxedParties L (SubscriberCall sub) (PublisherCall pub))}
    (hreach : Reach ⟨{ mem := { byte := byte, late := late } },
      relaxedParties.idle [] { world := world₀ }⟩ cfg) :
    Relays sub pub world₀ cfg := by
  obtain ⟨hinv, hproducer, hconsumer⟩ := reach host (· = pub.SinewMsg)
    (Fed sub) (pub.Drained world₀) hL (takes_only hT)
    (fun p v v' h hr => by rw [Fed, hr.committed]; exact h) (fun _ _ _ h hq => h.quiet hq)
    (fun _ _ _ _ hcall h => ⟨SubscriberCall.fed hL (takes_only hT) hops hsub hcall h,
      SubscriberCall.placed hL (takes_only hT) hops hops' hsub hcall⟩)
    (fun _ _ _ _ hcall _ h =>
      ⟨BridgePublisher.PublisherCall.drained hL hT hbase hpeek hcommit hcall h,
        BridgePublisher.PublisherCall.placed hL hT hbase hpeek hcommit hcall⟩)
    (fun v hv => show Fed sub [] v from hv)
    (fun _ hv => ⟨by rw [hv]; exact .start, fun n hn => by
      rw [hv]
      exact (Option.some.inj hn).symm⟩)
    hreach
  obtain ⟨htail, hwaiting, hhead, hroom⟩ := hinv.places
  have hcommitted := hinv.counted.committed_view
  have htaken := hinv.counted.taken_view
  have hseen : (cfg.state.view L .consumer).committed <+: cfg.state.committed :=
    List.take_prefix _ _
  refine ⟨hinv.raceless, by omega, by omega, fun accepted hp => ?_, fun c hc => ?_⟩
  · have hfed := hproducer accepted hp
    rwa [Fed, hcommitted] at hfed
  · have hdrained := hconsumer c hc
    have hworld := hdrained.relayed
    have hbridged := hdrained.bridged
    rw [htaken] at hworld hbridged
    exact ⟨hworld.mono (hseen.map _), hbridged⟩

/-- Where the bridge keeps a list, it has the messages taken, converted there and
back. -/
theorem Relays.published {pub : BridgePublisher RosOut (List RosOut) H}
    {published₀ : List RosOut}
    {cfg : Config (relaxedParties L (SubscriberCall sub) (PublisherCall pub))}
    (h : Relays sub pub published₀ cfg) (hpub : pub.Publishes) {accepted : List RosIn}
    (hp : cfg.thread .producer = .idle (P := relaxedParties L (SubscriberCall sub)
      (PublisherCall pub) .producer) accepted) {c : Drain (List RosOut)}
    (hc : cfg.thread .consumer = .idle (P := relaxedParties L (SubscriberCall sub)
      (PublisherCall pub) .consumer) c) :
    c.world = published₀ ++ (accepted.take cfg.state.taken.length).map fun rosMsg =>
      pub.toRos (sub.fromRos rosMsg sub.SinewMsg.fresh) default := by
  rw [hpub.relayed (h.relayed c hc).1, h.fed accepted hp, List.map_map, ← List.map_take,
    List.map_map]
  rfl

end Relaxed

section Rings

variable [Inhabited RosOut] {T : MsgType} {Capacity : Nat}
  {fromRos : RosIn → List UInt8 → List UInt8}
  {fromRos_length : ∀ rosMsg bytes, bytes.length = T.size →
    (fromRos rosMsg bytes).length = T.size}
  {toRos : List UInt8 → RosOut → RosOut} {publishCb : Option (Callback RosOut World)}
  {world : World} {byte : Nat → UInt8} {late : Nat → Nat}

theorem SpscRingBuffer.relays (halign : T.align ≤ 16) (hsize : T.size < 2 ^ 32)
    (hpow : ∃ j, Capacity = 2 ^ j) {w this : Nat}
    (hfits : totalSize w T Capacity < 2 ^ w) (hthis : 64 ∣ this)
    {cfg : Config (relaxedRelay T Capacity host fromRos fromRos_length toRos publishCb w this)}
    (hreach : Reach (relaxedRelayStart T Capacity host fromRos fromRos_length toRos publishCb
      w this byte late world) cfg) :
    Relaxed.Relays (subscriber T Capacity host fromRos fromRos_length w this)
      (publisher T Capacity host toRos publishCb w this) world cfg := by
  have hL := layout_sane hpow hfits
  have hT : (layout w T Capacity).Takes T := layout_takes halign hsize
  have hbase : 16 ∣ this := Nat.dvd_trans (by decide) hthis
  exact Relaxed.Relays.of_reach hL hT rfl (producer_sound hL hT hbase)
    (Ring.producer_placed hL hT hbase rfl rfl rfl) hbase rfl rfl hreach

theorem IpcRingBuffer.relays (halign : T.align ≤ 16) (hsize : T.size < 2 ^ 32)
    (hpow : ∃ j, Capacity = 2 ^ j) (hcapacity : Capacity < 2 ^ 32)
    {shm shm' : SharedMemoryRegion} {data data' : Ptr}
    (hoff : data.off = 0) (hpage : 4096 ∣ data.base) (hoff' : data'.off = 0)
    (hpage' : 4096 ∣ data'.base)
    {cfg : Config (relaxedRelay T Capacity host fromRos fromRos_length toRos publishCb
      (.attach shm data true) (.attach shm' data' false))}
    (hreach : Reach (relaxedRelayStart T Capacity host fromRos fromRos_length toRos publishCb
      shm shm' data data' byte late world) cfg) :
    Relaxed.Relays (subscriber T Capacity host fromRos fromRos_length (.attach shm data true))
      (publisher T Capacity host toRos publishCb (.attach shm' data' false)) world cfg := by
  have hL : (params T Capacity).layout.Sane := layout_sane hpow hcapacity
  have hT : (params T Capacity).layout.Takes T := layout_takes halign hsize
  have hring := IpcHandle.attach_ring (params T Capacity) shm' hoff' false
  refine Relaxed.Relays.of_reach hL hT rfl (producer_sound hL hT hoff hpage)
    (producer_placed hL hT hoff hpage) (Nat.dvd_trans (by decide) hpage') ?_ ?_ hreach
  · simp only [publisher, consumerOps, peekRead, hring]
  · simp only [publisher, consumerOps, commitRead, hring]

end Rings

/-- **A bridge at either end.** A subscriber feeds a ring and a publisher drains it,
with their events interleaved in any order and their loads of the counters as late as
they like, on any converters and any callback, which may throw. Nothing races. What is
in the ring is what the subscriber did not refuse; the publisher has relayed it in
batches, each from the first message that is not bridged; and what its calls have
returned adds up to the messages taken. -/
theorem bridge_relays [Inhabited RosOut] (T : MsgType) (halign : T.align ≤ 16)
    (hsize : T.size < 2 ^ 32) (Capacity : Nat) (hpow : ∃ j, Capacity = 2 ^ j)
    (host : Endian) (fromRos : RosIn → List UInt8 → List UInt8)
    (fromRos_length : ∀ rosMsg bytes, bytes.length = T.size →
      (fromRos rosMsg bytes).length = T.size)
    (toRos : List UInt8 → RosOut → RosOut) (publishCb : Option (Callback RosOut World))
    (world : World) :
    (∀ w this byte late, SpscRingBuffer.totalSize w T Capacity < 2 ^ w → 64 ∣ this →
      ∀ cfg, Reach (SpscRingBuffer.relaxedRelayStart T Capacity host fromRos fromRos_length
          toRos publishCb w this byte late world) cfg →
        Relaxed.Relays
          (SpscRingBuffer.subscriber T Capacity host fromRos fromRos_length w this)
          (SpscRingBuffer.publisher T Capacity host toRos publishCb w this) world cfg) ∧
    ∀ shm shm' data data' byte late, Capacity < 2 ^ 32 → data.off = 0 → 4096 ∣ data.base →
      data'.off = 0 → 4096 ∣ data'.base →
      ∀ cfg, Reach (IpcRingBuffer.relaxedRelayStart T Capacity host fromRos fromRos_length
          toRos publishCb shm shm' data data' byte late world) cfg →
        Relaxed.Relays
          (IpcRingBuffer.subscriber T Capacity host fromRos fromRos_length
            (.attach shm data true))
          (IpcRingBuffer.publisher T Capacity host toRos publishCb
            (.attach shm' data' false)) world cfg := by
  constructor
  · intro w this byte late hfits hthis cfg hreach
    exact SpscRingBuffer.relays halign hsize hpow hfits hthis hreach
  · intro shm shm' data data' byte late hcapacity hoff hpage hoff' hpage' cfg hreach
    exact IpcRingBuffer.relays halign hsize hpow hcapacity hoff hpage hoff' hpage' hreach

/-- A callback that throws at the first message it sees is handed it again by the next
call. -/
theorem bridge_relays_again :
    ∃ cfg, Reach (SpscRingBuffer.relaxedRelayStart pingMsg 2 .little
        (fun n _ => [n, 0, 0, 0]) (fun _ _ _ => rfl) (fun bytes _ => bytes) (some fun _ seen =>
          (if seen = 0 then .threw else .returned, seen + 1)) 64 0x1000 (fun _ => 0xFF)
        (fun _ => 0) 0) cfg ∧
      cfg.state.taken.map (payloadOf pingMsg) = [[42, 0, 0, 0]] ∧
      cfg.thread .consumer = .idle ⟨2, none⟩ ∧
      Relaxed.Relays _ _ 0 cfg := by
  have feed : SubscriberCall (SpscRingBuffer.subscriber pingMsg 2 .little
      (fun (n : UInt8) _ => [n, 0, 0, 0]) (fun _ _ _ => rfl) 64 0x1000) []
      { writes := some pingMsg } _ := .handle [] 42 true
  have drain : ∀ c, PublisherCall (SpscRingBuffer.publisher pingMsg 2 .little
      (fun bytes (_ : List UInt8) => bytes) (some fun _ (seen : Nat) =>
        (if seen = 0 then .threw else .returned, seen + 1)) 64 0x1000) c {} _ :=
    fun c => .spinSome c 4
  have hreach : Reach (SpscRingBuffer.relaxedRelayStart pingMsg 2 .little
      (fun n _ => [n, 0, 0, 0]) (fun _ _ _ => rfl) (fun bytes _ => bytes) (some fun _ seen =>
        (if seen = 0 then .threw else .returned, seen + 1)) 64 0x1000 (fun _ => 0xFF)
      (fun _ => 0) 0) _ :=
    ((Reach.call (i := Side.producer) rfl feed).trans
      (Reach.call (i := Side.consumer) rfl (drain _))).trans
      (Reach.call (i := Side.consumer) rfl (drain _))
  refine ⟨_, hreach, by decide +kernel, by rfl, ?_⟩
  exact (bridge_relays pingMsg (by decide) (by decide) 2 ⟨1, rfl⟩ .little _ _ _ _ 0).1 64
    0x1000 _ _ (by decide) (by decide) _ hreach

/-- **What comes out is what went in.** Where the publisher's callback keeps a list and
its converter fills in all of its message, that list is a prefix of the messages the
subscriber did not refuse, each converted there and back: none is lost, repeated or out
of its place. -/
theorem bridge_end_to_end [Inhabited RosOut] (T : MsgType) (halign : T.align ≤ 16)
    (hsize : T.size < 2 ^ 32) (Capacity : Nat) (hpow : ∃ j, Capacity = 2 ^ j)
    (host : Endian) (fromRos : RosIn → List UInt8 → List UInt8)
    (fromRos_length : ∀ rosMsg bytes, bytes.length = T.size →
      (fromRos rosMsg bytes).length = T.size)
    (toRos : List UInt8 → RosOut → RosOut)
    (htoRos : ∀ bytes rosMsg, toRos bytes rosMsg = toRos bytes default)
    (published₀ : List RosOut) :
    let publishCb : Option (Callback RosOut (List RosOut)) :=
      some fun rosMsg published => (.returned, published ++ [rosMsg])
    let thereAndBack := fun rosMsg => toRos (fromRos rosMsg T.fresh) default
    (∀ w this byte late, SpscRingBuffer.totalSize w T Capacity < 2 ^ w → 64 ∣ this →
      ∀ cfg, Reach (SpscRingBuffer.relaxedRelayStart T Capacity host fromRos fromRos_length
          toRos publishCb w this byte late published₀) cfg →
        ∀ accepted : List RosIn, cfg.thread .producer = .idle (P := SpscRingBuffer.relaxedRelay
          T Capacity host fromRos fromRos_length toRos publishCb w this .producer) accepted →
        ∀ c : Drain (List RosOut), cfg.thread .consumer = .idle
          (P := SpscRingBuffer.relaxedRelay T Capacity host fromRos fromRos_length toRos
            publishCb w this .consumer) c →
        c.world = published₀ ++
          (accepted.take cfg.state.taken.length).map thereAndBack) ∧
    ∀ shm shm' data data' byte late, Capacity < 2 ^ 32 → data.off = 0 → 4096 ∣ data.base →
      data'.off = 0 → 4096 ∣ data'.base →
      ∀ cfg, Reach (IpcRingBuffer.relaxedRelayStart T Capacity host fromRos fromRos_length
          toRos publishCb shm shm' data data' byte late published₀) cfg →
        ∀ accepted : List RosIn, cfg.thread .producer = .idle (P := IpcRingBuffer.relaxedRelay
          T Capacity host fromRos fromRos_length toRos publishCb (.attach shm data true)
          (.attach shm' data' false) .producer) accepted →
        ∀ c : Drain (List RosOut), cfg.thread .consumer = .idle
          (P := IpcRingBuffer.relaxedRelay T Capacity host fromRos fromRos_length toRos
            publishCb (.attach shm data true) (.attach shm' data' false) .consumer) c →
        c.world = published₀ ++
          (accepted.take cfg.state.taken.length).map thereAndBack := by
  constructor
  · intro w this byte late hfits hthis cfg hreach accepted hp c hc
    exact (SpscRingBuffer.relays halign hsize hpow hfits hthis hreach).published
      ⟨rfl, htoRos⟩ hp hc
  · intro shm shm' data data' byte late hcapacity hoff hpage hoff' hpage' cfg hreach accepted
      hp c hc
    exact (IpcRingBuffer.relays halign hsize hpow hcapacity hoff hpage hoff' hpage'
      hreach).published ⟨rfl, htoRos⟩ hp hc

theorem bridge_end_to_end_numbers :
    ∃ cfg, Reach (SpscRingBuffer.relaxedRelayStart pingMsg 2 .little
        (fun n _ => [n, 0, 0, 0]) (fun _ _ _ => rfl) (fun bytes _ => bytes.headD 0)
        (some fun n published => (.returned, published ++ [n])) 64 0x1000 (fun _ => 0xFF)
        (fun _ => 0) [7]) cfg ∧
      cfg.thread .producer = .idle [42, 43] ∧
      cfg.thread .consumer = .idle ⟨[7, 42], some 1⟩ ∧
      [7, 42] = [7] ++ ([42, 43].take 1).map fun n => [n, 0, 0, 0].headD (0 : UInt8) := by
  have feed : ∀ p n, SubscriberCall (SpscRingBuffer.subscriber pingMsg 2 .little
      (fun (n : UInt8) _ => [n, 0, 0, 0]) (fun _ _ _ => rfl) 64 0x1000) p
      { writes := some pingMsg } _ := fun p n => .handle p n true
  have drain : PublisherCall (SpscRingBuffer.publisher pingMsg 2 .little
      (fun bytes (_ : UInt8) => bytes.headD 0) (some fun n published =>
        (.returned, published ++ [n])) 64 0x1000) ⟨[7], some 0⟩ {} _ := .spinSome _ 1
  have hreach : Reach (SpscRingBuffer.relaxedRelayStart pingMsg 2 .little
      (fun n _ => [n, 0, 0, 0]) (fun _ _ _ => rfl) (fun bytes _ => bytes.headD 0)
      (some fun n published => (.returned, published ++ [n])) 64 0x1000 (fun _ => 0xFF)
      (fun _ => 0) [7]) _ :=
    ((Reach.call (i := Side.producer) rfl (feed _ 42)).trans
      (Reach.call (i := Side.producer) rfl (feed _ 43))).trans
      (Reach.call (i := Side.consumer) rfl drain)
  refine ⟨_, hreach, by rfl, by rfl, ?_⟩
  exact (bridge_end_to_end pingMsg (by decide) (by decide) 2 ⟨1, rfl⟩ .little _ _
    (fun bytes _ => bytes.headD 0) (fun _ _ => rfl) [7]).1 64 0x1000 _ _ (by decide)
    (by decide) _ hreach _ rfl _ rfl

end Sinew
