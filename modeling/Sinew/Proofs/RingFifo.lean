import Sinew.Proofs.Attach
import Sinew.Proofs.Clients

/-!
# First in, first out

The two typed rings are instances of one session: the layouts are sane, the
member functions are the cursor protocol on them, and the start states satisfy
the invariant. A consumer process adds that its handle, wherever the kernel put
the mapping, is attached to the ring or to nothing.
-/

namespace Sinew

open Lib

theorem Ring.producer_sound {L : Layout} {host : Endian} {types : MsgType → Prop}
    {stepwise : Bool} {base : Nat} (hL : L.Sane) (htypes : ∀ T, types T → L.Takes T)
    (hbase : 16 ∣ base) {ops : ProducerOps}
    (hprepare : ∀ T, types T → ops.prepareWrite T = (L.at base).prepareWrite host T)
    (hcommit : ∀ T, types T → ops.commitWrite T = (L.at base).commitWrite host T)
    (hpush : ∀ T, types T → ops.push T = (L.at base).push host T) :
    ops.Sound L host types stepwise base where
  prepareWrite T _ _ hT := by
    rw [hprepare T hT]
    exact Env.wp_mono (wp_prepareWrite hL htypes hbase hT) fun _ _ _ h => ⟨h.1, h.2.1⟩
  commitWrite d c os _ hT hd := by
    rw [hcommit d.T hT]
    exact wp_commitWrite hL htypes hd hT c os
  push T value c os s hT hlen := by
    rw [hpush T hT]
    refine Env.wp_mono (wp_pushWith hL htypes hbase hT hlen fun d _ hd hdraft => ?_)
      fun _ _ _ h => h.1
    subst hd
    exact wp_commitWrite hL htypes hdraft hT c os

theorem takes_only {L : Layout} {T : MsgType} (h : L.Takes T) : ∀ U, U = T → L.Takes U := by
  rintro U rfl
  exact h

theorem only_id {T : MsgType} : ∀ U V : MsgType, U = T → V = T → U.id = V.id → U = V := by
  rintro U V rfl rfl -
  rfl

namespace SpscRingBuffer

variable {w : Nat} {T : MsgType} {Capacity : Nat} {host : Endian} {this : Nat}

theorem kSlotAlign_eq : kSlotAlign T = T.align := by
  have := T.align_pos
  unfold kSlotAlign
  split <;> omega

theorem slotsOff_eq (halign : T.align ≤ 16) :
    (layout w T Capacity).slotsOff = 128 := by
  have hmax : max 64 (kSlotAlign T) = 64 := by
    rw [kSlotAlign_eq]
    omega
  show roundUp 128 (max 64 (kSlotAlign T)) = 128
  rw [hmax]
  rfl

theorem layout_sane (hpow : ∃ j, Capacity = 2 ^ j)
    (hfits : totalSize w T Capacity < 2 ^ w) : (layout w T Capacity).Sane where
  pow := hpow
  lt := by
    have hstride : kSlotSize T ≤ (layout w T Capacity).stride :=
      le_roundUp _ (by rw [kSlotAlign_eq]; exact T.align_pos)
    have hpos : 0 < kSlotSize T := by
      unfold kSlotSize Header.size
      omega
    have hle : Capacity ≤ Capacity * (layout w T Capacity).stride :=
      Nat.le_mul_of_pos_right _ (by omega)
    have hsize : Capacity * (layout w T Capacity).stride ≤ totalSize w T Capacity :=
      Nat.le_add_left _ _
    exact Nat.lt_of_le_of_lt (Nat.le_trans hle hsize) hfits
  stride := le_roundUp _ (by rw [kSlotAlign_eq]; exact T.align_pos)
  cursors := by
    show (0 : Nat) ≠ 64
    decide

theorem layout_takes (halign : T.align ≤ 16) (hsize : T.size < 2 ^ 32) :
    (layout w T Capacity).Takes T where
  fits := Nat.le_refl _
  small := hsize
  align_base := T.align_dvd_sixteen halign
  align_stride := by
    show T.align ∣ roundUp (kSlotSize T) (kSlotAlign T)
    rw [kSlotAlign_eq]
    exact dvd_roundUp _ _
  align_slots := by
    rw [slotsOff_eq halign]
    exact Nat.dvd_trans (T.align_dvd_sixteen halign) (by decide)

theorem producer_sound {stepwise : Bool} (hL : (layout w T Capacity).Sane)
    (hT : (layout w T Capacity).Takes T) (hthis : 16 ∣ this) :
    (producerOps w T Capacity host this).Sound (layout w T Capacity) host (· = T)
      stepwise this := by
  refine Ring.producer_sound hL (takes_only hT) hthis ?_ ?_ ?_
  · rintro _ rfl
    rfl
  · rintro _ rfl
    rfl
  · rintro _ rfl
    rfl

theorem consumer_sound (hL : (layout w T Capacity).Sane)
    (hT : (layout w T Capacity).Takes T) (hthis : 16 ∣ this) :
    (consumerOps w T Capacity host this).Sound (layout w T Capacity) host (· = T)
      (fun _ => True) (fun _ => True) where
  peekRead _ U v _ s _ hU := by
    subst hU
    exact Env.wp_mono (wp_peekRead hL (takes_only hT) only_id hthis rfl v)
      fun r s' _ ⟨hq, hp, _⟩ => ⟨hq, fun p h => ⟨trivial, hp p h⟩⟩
  commitRead _ _ s _ _ hlt :=
    Env.wp_mono (wp_commitRead hL (takes_only hT) hlt (fun h => by cases h))
      fun _ s' _ ⟨htaken, _, hcom⟩ => ⟨htaken, hcom⟩
  pop _ U v _ s _ hU := by
    subst hU
    exact Env.wp_mono (wp_pop hL (takes_only hT) only_id hthis rfl v rfl)
      fun r s' _ ⟨_, h⟩ => h
  consume _ U v _ s _ hU := by
    subst hU
    exact Env.wp_mono
      (wp_consume hL (takes_only hT) only_id hthis rfl v (fun h => by cases h))
      fun r s' _ h => ⟨h.committed, h.moves⟩
  rehandle _ _ _ _ _ h := h.elim

end SpscRingBuffer

namespace IpcRingBuffer

variable {T : MsgType} {Capacity : Nat} {host : Endian}

theorem rehandle_silent {h : IpcHandle} {get : Code IpcHandle}
    (hget : Rehandle T Capacity host h get) :
    get.Always Ev.Silent Paged (IpcHandle.Held (params T Capacity)) := by
  have hharmless : get.Always Ev.Harmless Paged (IpcHandle.Held (params T Capacity)) := by
    cases hget with
    | drop =>
        simp only [IpcHandle.destroy, Prog.always_bind]
        exact h.shm.close_harmless.mono fun _ _ => IpcHandle.Held.none
    | openAgain name =>
        refine (IpcHandle.reopen_harmless _ host name h id).mono fun h' hreopened => ?_
        obtain ⟨h'', hheld, heq⟩ := hreopened
        subst heq
        exact hheld
  exact hharmless.weaken (fun _ => Ev.Harmless.silent) fun _ _ h => h

theorem kSlotAlign_eq (halign : T.align ≤ 16) : kSlotAlign T = 16 := by
  unfold kSlotAlign
  split <;> omega

theorem sixteen_dvd_slotSize (halign : T.align ≤ 16) : 16 ∣ kSlotSize T := by
  rw [kSlotSize, kSlotAlign_eq halign]
  exact dvd_roundUp _ _

theorem layout_sane (hpow : ∃ j, Capacity = 2 ^ j) (hcap : Capacity < 2 ^ 32) :
    (params T Capacity).layout.Sane :=
  IpcParams.layout_sane_of_lt hpow (Nat.lt_trans hcap (by decide))

theorem layout_takes (halign : T.align ≤ 16) (hsize : T.size < 2 ^ 32) :
    (params T Capacity).layout.Takes T where
  fits := by
    show Header.size + T.size ≤ kSlotSize T
    rw [kSlotSize, kSlotAlign_eq halign]
    exact le_roundUp _ (by decide)
  small := hsize
  align_base := T.align_dvd_sixteen halign
  align_stride := Nat.dvd_trans (T.align_dvd_sixteen halign) (sixteen_dvd_slotSize halign)
  align_slots := by
    show T.align ∣ IpcRingHeader.size
    exact Nat.dvd_trans (T.align_dvd_sixteen halign) (by decide)

theorem producer_sound {stepwise : Bool} {shm : SharedMemoryRegion} {data : Ptr}
    (hL : (params T Capacity).layout.Sane) (hT : (params T Capacity).layout.Takes T)
    (hoff : data.off = 0) (hpage : 4096 ∣ data.base) :
    (producerOps T Capacity host (.attach shm data true)).Sound
      (params T Capacity).layout host (· = T) stepwise data.base := by
  have hring := IpcHandle.attach_ring (params T Capacity) shm hoff true
  refine Ring.producer_sound hL (takes_only hT) (Nat.dvd_trans (by decide) hpage) ?_ ?_ ?_
  · rintro _ rfl
    simp only [producerOps, prepareWrite, hring]
  · rintro _ rfl
    funext c
    simp only [producerOps, commitWrite, hring]
  · rintro _ rfl
    funext value c
    simp only [producerOps, push, hring]

theorem consumer_sound (hL : (params T Capacity).layout.Sane)
    (hT : (params T Capacity).layout.Takes T) :
    (consumerOps T Capacity host).Sound (params T Capacity).layout host (· = T)
      (IpcHandle.Held (params T Capacity))
      (fun h => (h.ring (params T Capacity)).isSome) where
  peekRead h U v l s hheld hU := by
    subst hU
    simp only [consumerOps, peekRead]
    cases hring : h.ring (params U Capacity) with
    | none =>
        exact Env.wp_ret fun s' (hr : ConsumerRely _ s s') _ =>
          ⟨hr.quiet, fun p hp => by cases hp⟩
    | some R =>
        obtain ⟨base, hbase, rfl⟩ := hheld R hring
        exact Env.wp_mono (wp_peekRead hL (takes_only hT) only_id hbase rfl v)
          fun r s' _ ⟨hq, hp, _⟩ => ⟨hq, fun p h => ⟨rfl, hp p h⟩⟩
  commitRead h l s hheld hvalid hlt := by
    obtain ⟨R, hring⟩ := Option.isSome_iff_exists.mp hvalid
    obtain ⟨base, -, rfl⟩ := hheld R hring
    simp only [consumerOps, commitRead, hring]
    exact Env.wp_mono (wp_commitRead hL (takes_only hT) hlt (fun h => by cases h))
      fun _ s' _ ⟨htaken, _, hcom⟩ => ⟨htaken, hcom⟩
  pop h U v l s hheld hU := by
    subst hU
    simp only [consumerOps, pop]
    cases hring : h.ring (params U Capacity) with
    | none =>
        exact Env.wp_ret fun s' (hr : ConsumerRely _ s s') _ =>
          ⟨hr.committed, by rw [hr.taken]⟩
    | some R =>
        obtain ⟨base, hbase, rfl⟩ := hheld R hring
        exact Env.wp_mono (wp_pop hL (takes_only hT) only_id hbase rfl v rfl)
          fun r s' _ ⟨_, h⟩ => h
  consume h U v l s hheld hU := by
    subst hU
    simp only [consumerOps, consume]
    cases hring : h.ring (params U Capacity) with
    | none =>
        exact Env.wp_ret fun s' (hr : ConsumerRely _ s s') _ =>
          ⟨hr.committed, by rw [hr.taken]; rfl⟩
    | some R =>
        obtain ⟨base, hbase, rfl⟩ := hheld R hring
        exact Env.wp_mono
          (wp_consume hL (takes_only hT) only_id hbase rfl v (fun h => by cases h))
          fun r s' _ h => ⟨h.committed, h.moves⟩
  rehandle h get l s _ hget := wp_silent (rehandle_silent hget)

end IpcRingBuffer

theorem Shared.Inv.empty {L : Layout} {host : Endian} {types : MsgType → Prop}
    {stepwise : Bool} {byte : Nat → UInt8} {word : Nat → Nat}
    (hhead : word L.headOff = 0) (htail : word L.tailOff = 0) :
    Shared.Inv L host types stepwise { byte := byte, word := word } where
  head := by simp [hhead]
  tail := by simp [htail]
  le := Nat.le_refl _
  room := Nat.zero_le _
  typed _ he := by cases he
  live _ _ _ _ h := by cases h
  taken _ _ h := by cases h
  seen _ he := by cases he
  inStep _ := ⟨rfl, Nat.le_refl _, Nat.zero_le _⟩

theorem Producer.Ready.start {L : Layout} {host : Endian} {types : MsgType → Prop}
    {base : Nat} {byte : Nat → UInt8} {word : Nat → Nat} :
    Producer.Ready L host types base {} { byte := byte, word := word } where
  sent := rfl
  draft _ h := by cases h

theorem Shared.Inv.taken_prefix {L : Layout} {host : Endian} {T : MsgType}
    {stepwise : Bool} {s : Shared} (h : s.Inv L host (· = T) stepwise) :
    s.taken.map (payloadOf T) <+: s.committed.map (·.2) := by
  rw [List.prefix_iff_getElem?]
  intro k hk
  rw [List.length_map] at hk
  obtain ⟨U, hU⟩ := h.taken k _ (List.getElem?_eq_getElem hk)
  obtain rfl : U = T := h.typed _ (List.mem_of_getElem? hU)
  rw [List.getElem?_map, hU, List.getElem_map]
  rfl

/-- In every reachable configuration of a typed ring's session the invariant
holds, and a client between calls is in good order. -/
theorem session_reach {H : Type} {L : Layout} {host : Endian} {T : MsgType} {base : Nat}
    {pops : ProducerOps} {cops : ConsumerOps H} {held valid : H → Prop}
    (hL : L.Sane) (hT : L.Takes T) (hpops : pops.Sound L host (· = T) false base)
    (hcops : cops.Sound L host (· = T) held valid) {byte : Nat → UInt8}
    {word : Nat → Nat} (hhead : word L.headOff = 0) (htail : word L.tailOff = 0) {h : H}
    (hheld : held h) {cfg : Config (parties L (ProducerCall pops (· = T))
      (ConsumerCall cops (· = T)))}
    (hreach : Reach ⟨{ byte := byte, word := word }, parties.idle {} { handle := h }⟩ cfg) :
    cfg.state.Inv L host (· = T) false ∧
      (∀ p : Producer, cfg.thread .producer =
          .idle (P := parties L (ProducerCall pops (· = T)) (ConsumerCall cops (· = T))
            .producer) p → p.Ready L host (· = T) base cfg.state) ∧
      ∀ c : Consumer H, cfg.thread .consumer =
          .idle (P := parties L (ProducerCall pops (· = T)) (ConsumerCall cops (· = T))
            .consumer) c → c.Ready L held valid cfg.state := by
  have hsound : (sessionLogic L host (· = T) false (ProducerCall pops (· = T))
      (ConsumerCall cops (· = T)) base (Consumer.Ready L held valid)
      (fun _ _ _ hc => hc.quiet)).Sound :=
    sessionLogic_sound (fun _ _ _ _ hcall hc => ProducerCall.ready hpops hL (takes_only hT)
      hcall hc) (fun _ _ _ _ hcall hinv hc => ConsumerCall.ready hcops (takes_only hT)
      hcall hinv hc)
  have hgood := Logic.Good.reach hsound (sessionLogic_good (.empty hhead htail) .start
    ⟨hheld, rfl, (fun e he => by cases he), (fun U p hp => by cases hp)⟩) hreach
  exact ⟨hgood.inv .producer, fun p hp => hgood.idle hp, fun c hc => hgood.idle hc⟩

theorem Fifo.of_reach {H : Type} {L : Layout} {host : Endian} {T : MsgType} {base : Nat}
    {pops : ProducerOps} {cops : ConsumerOps H} {held valid : H → Prop}
    (hL : L.Sane) (hT : L.Takes T) (hpops : pops.Sound L host (· = T) false base)
    (hcops : cops.Sound L host (· = T) held valid) {byte : Nat → UInt8}
    {word : Nat → Nat} (hhead : word L.headOff = 0) (htail : word L.tailOff = 0) {h : H}
    (hheld : held h) {cfg : Config (parties L (ProducerCall pops (· = T))
      (ConsumerCall cops (· = T)))}
    (hreach : Reach ⟨{ byte := byte, word := word }, parties.idle {} { handle := h }⟩ cfg) :
    Fifo T cfg := by
  obtain ⟨hinv, hproducer, hconsumer⟩ :=
    session_reach hL hT hpops hcops hhead htail hheld hreach
  refine ⟨?_, ?_, hinv.typed, hinv.seen, fun p hp => ?_, fun c hc => ?_⟩
  · have hroom := hinv.room
    rw [hinv.counts.distance hL, Shared.unread]
    omega
  · exact hinv.taken_prefix
  · exact (hproducer p hp).sent
  · have hready := hconsumer c hc
    refine ⟨hready.count, hready.log, fun U p hslot => ?_⟩
    obtain ⟨hp, payload, hf⟩ := (hready.slot U p hslot).2
    rw [hready.count, hinv.front_bytes hf hp]
    exact hf

/-- **First in, first out.** For both typed rings and every interleaving of a
producer with a consumer, from an object in memory or a freshly created
segment: counters of any width that the ring fits in, any host. -/
theorem typed_ring_fifo (T : MsgType) (halign : T.align ≤ 16) (hsize : T.size < 2 ^ 32)
    (Capacity : Nat) (hpow : ∃ j, Capacity = 2 ^ j) (host : Endian) :
    (∀ w this byte, SpscRingBuffer.totalSize w T Capacity < 2 ^ w → 64 ∣ this →
      ∀ cfg, Reach (SpscRingBuffer.start w T Capacity host this byte) cfg → Fifo T cfg) ∧
    (∀ shm data byte, Capacity < 2 ^ 32 → data.off = 0 → 4096 ∣ data.base →
      ∀ cfg, Reach (IpcRingBuffer.start T Capacity host shm data byte) cfg →
        Fifo T cfg) := by
  constructor
  · intro w this byte hfits hthis cfg hreach
    have hL := SpscRingBuffer.layout_sane hpow hfits
    have hT : (SpscRingBuffer.layout w T Capacity).Takes T :=
      SpscRingBuffer.layout_takes halign hsize
    have hbase : 16 ∣ this := Nat.dvd_trans (by decide) hthis
    exact Fifo.of_reach hL hT (SpscRingBuffer.producer_sound hL hT hbase)
      (SpscRingBuffer.consumer_sound hL hT hbase) rfl rfl trivial hreach
  · intro shm data byte hcapacity hoff hpage cfg hreach
    have hL : (IpcRingBuffer.params T Capacity).layout.Sane :=
      IpcRingBuffer.layout_sane hpow hcapacity
    have hT : (IpcRingBuffer.params T Capacity).layout.Takes T :=
      IpcRingBuffer.layout_takes halign hsize
    refine Fifo.of_reach hL hT (IpcRingBuffer.producer_sound hL hT hoff hpage)
      (IpcRingBuffer.consumer_sound hL hT) ?_ ?_ IpcHandle.Held.none hreach
    · rw [run_initHeader_word _ _ hoff]
      rfl
    · rw [run_initHeader_word _ _ hoff]
      rfl

/-- A message pushed and popped; over shared memory, with the consumer
attaching in between. -/
theorem typed_ring_fifo_ping :
    (∃ cfg, Reach (SpscRingBuffer.start 64 pingMsg 2 .little 0x1000 fun _ => 0xFF) cfg ∧
      cfg.state.taken.map (payloadOf pingMsg) = [[42, 0, 0, 0]] ∧ Fifo pingMsg cfg) ∧
    (∃ cfg, Reach (IpcRingBuffer.start pingMsg 2 .little {} ⟨0x1000, 0⟩ fun _ => 0xFF) cfg ∧
      cfg.state.taken.map (payloadOf pingMsg) = [[42, 0, 0, 0]] ∧ Fifo pingMsg cfg) := by
  have h := typed_ring_fifo pingMsg (by decide) (by decide) 2 ⟨1, rfl⟩ .little
  constructor
  · have push : ProducerCall (SpscRingBuffer.producerOps 64 pingMsg 2 .little 0x1000)
        (· = pingMsg) {} { writes := some pingMsg } _ :=
      .push {} pingMsg [42, 0, 0, 0] true rfl rfl
    have pop : ConsumerCall (SpscRingBuffer.consumerOps 64 pingMsg 2 .little 0x1000)
        (· = pingMsg) { handle := () } {} _ := .pop _ pingMsg true rfl
    have hreach :
        Reach (SpscRingBuffer.start 64 pingMsg 2 .little 0x1000 fun _ => 0xFF) _ :=
      (Reach.call (i := Side.producer) rfl push).trans
        (Reach.call (i := Side.consumer) rfl pop)
    exact ⟨_, hreach, by decide +kernel,
      h.1 64 0x1000 _ (by decide) (by decide) _ hreach⟩
  · have push : ProducerCall (IpcRingBuffer.producerOps pingMsg 2 .little
          (.attach {} ⟨0x1000, 0⟩ true))
        (· = pingMsg) {} { writes := some pingMsg } _ :=
      .push {} pingMsg [42, 0, 0, 0] true rfl rfl
    have attach : ConsumerCall (IpcRingBuffer.consumerOps pingMsg 2 .little)
        (· = pingMsg) { handle := {} } _ _ :=
      .rehandle _ { shmOpen := some 3, fstat := some 256, mmap := some ⟨0x2000, 0⟩ } _
        (.openAgain {} [0x61])
    have pop : ∀ c, ConsumerCall (IpcRingBuffer.consumerOps pingMsg 2 .little)
        (· = pingMsg) c {} _ := fun c => .pop c pingMsg true rfl
    have hreach :
        Reach (IpcRingBuffer.start pingMsg 2 .little {} ⟨0x1000, 0⟩ fun _ => 0xFF) _ :=
      ((Reach.call (i := Side.producer) rfl push).trans
        (Reach.call (i := Side.consumer) rfl attach)).trans
        (Reach.call (i := Side.consumer) rfl (pop _))
    exact ⟨_, hreach, by decide +kernel,
      h.2 {} ⟨0x1000, 0⟩ _ (by decide) rfl (by decide) _ hreach⟩

end Sinew
