import Sinew.Proofs.Asking

/-!
# Asking over every run

On each of the three rings both sides' questions are sound, so over every run
of the sessions in which they are asked no attempt is let down.
-/

namespace Sinew

open Lib

variable {L : Layout} {host : Endian} {types : MsgType → Prop} {T : MsgType} {base : Nat}

section Logic

variable {C : Type} {Qp : Question Producer} {Qc : Question C}
  {produce : Producer → Label → Code Producer → Prop} {consume : C → Label → Code C → Prop}
  {ready promise : C → Shared → Prop}

def askingLogic (hp : Qp.Sound (producerEnv L host types false) L
      (Producer.Ready L host types base) fun _ s => s.Room L)
    (hc : Qc.Sound (consumerEnv L host types false) L ready promise) :
    Logic (askingParties L Qp Qc produce consume) where
  env
    | .producer => producerEnv L host types false
    | .consumer => consumerEnv L host types false
  idle
    | .producer => Asking.Ready (Producer.Ready L host types base) fun _ s => s.Room L
    | .consumer => Asking.Ready ready promise
  inv_all i j s h := by
    cases i <;> cases j <;> exact h
  compat i j s s' hij h := by
    cases i with
    | producer =>
        cases j with
        | producer => exact absurd rfl hij
        | consumer => exact h
    | consumer =>
        cases j with
        | producer => exact h
        | consumer => exact absurd rfl hij
  idle_stable i c s s' h hr _ := by
    cases i with
    | producer => exact hp.asking_rely h hr
    | consumer => exact hc.asking_rely h hr

/-- No attempt of either side has been let down, and what the consumer has been
shown is the oldest message. -/
structure Steady (shown : C → Shared → Prop)
    (cfg : Config (askingParties L Qp Qc produce consume)) : Prop where
  producer : ∀ a : Asking Producer, cfg.thread .producer =
    .idle (P := askingParties L Qp Qc produce consume .producer) a → a.Kept
  consumer : ∀ a : Asking C, cfg.thread .consumer =
    .idle (P := askingParties L Qp Qc produce consume .consumer) a →
      a.Kept ∧ shown a.client cfg.state

theorem Steady.of_reach (hp : Qp.Sound (producerEnv L host types false) L
      (Producer.Ready L host types base) fun _ s => s.Room L)
    (hc : Qc.Sound (consumerEnv L host types false) L ready promise)
    (hproduce : ∀ c l p s, produce c l p → Producer.Ready L host types base c s →
      (producerEnv L host types false).wp (Shared.exec L l) p
        (Producer.Ready L host types base) s)
    (hconsume : ∀ c l p s, consume c l p → s.Inv L host types false → ready c s →
      (consumerEnv L host types false).wp (Shared.exec L l) p ready s)
    {shown : C → Shared → Prop}
    (hshown : ∀ c s, s.Inv L host types false → ready c s → shown c s)
    {byte : Nat → UInt8} {word : Nat → Nat} (hhead : word L.headOff = 0)
    (htail : word L.tailOff = 0) {c : C} (hstart : ready c { byte := byte, word := word })
    {cfg : Config (askingParties L Qp Qc produce consume)}
    (hreach : Reach ⟨{ byte := byte, word := word }, askingParties.idle {} c⟩ cfg) :
    Steady shown cfg := by
  have hsound : (askingLogic hp hc : Logic (askingParties L Qp Qc produce consume)).Sound := by
    intro i a l p s hst hinv ha
    cases i with
    | producer => exact hp.call_ready (fun c l p s hc _ => hproduce c l p s hc) hst hinv ha
    | consumer => exact hc.call_ready hconsume hst hinv ha
  have hinv : Shared.Inv L host types false { byte := byte, word := word } :=
    .empty hhead htail
  have hgood : (askingLogic hp hc : Logic (askingParties L Qp Qc produce consume)).Good
      ⟨{ byte := byte, word := word }, askingParties.idle {} c⟩ := by
    refine ⟨fun i => ?_, fun i => ?_⟩
    · cases i <;> exact hinv
    · cases i with
      | producer => exact ⟨.start, (fun h => by cases h), fun x hx => by cases hx⟩
      | consumer => exact ⟨hstart, (fun h => by cases h), fun x hx => by cases hx⟩
  have hreached := Logic.Good.reach hsound hgood hreach
  refine ⟨fun a ha => ?_, fun a ha => ?_⟩
  · exact Asking.Ready.kept (hreached.idle ha)
  · have hready : a.Ready ready promise cfg.state := hreached.idle ha
    exact ⟨hready.kept, hshown _ _ (hreached.inv .consumer) hready.ready⟩

end Logic

/-- What a typed consumer has been shown is the oldest message. -/
def Consumer.ShownOldest {H : Type} (c : Consumer H) (s : Shared) : Prop :=
  ∀ U p, c.slot = some (U, p) → s.Front U (slice s.byte p.off U.size)

/-- What a reader has been shown is the oldest message, of the type it has. -/
def IpcEnvelopeRingBuffer.Reader.ShownOldest (c : Reader) (s : Shared) : Prop :=
  ∀ pv, c.found = some (.packet pv) → ∃ T crc p, pv = ⟨T.header crc, some p, T.size⟩ ∧
    s.Front T (slice s.byte p.off T.size)

theorem Consumer.Ready.shownOldest {H : Type} {held valid : H → Prop} {c : Consumer H}
    {s : Shared} (hinv : s.Inv L host types false) (hc : c.Ready L held valid s) :
    c.ShownOldest s := by
  intro U p hslot
  obtain ⟨hp, payload, hf⟩ := (hc.slot U p hslot).2
  rw [hinv.front_bytes hf hp]
  exact hf

theorem IpcEnvelopeRingBuffer.Reader.Ready.shownOldest {c : Reader} {s : Shared}
    (hinv : s.Inv L host types false) (hc : c.Ready (Shows L) s) : c.ShownOldest s := by
  intro pv hfound
  obtain ⟨T, payload, crc, p, hf, _, hp, hpv⟩ := hc.packet pv hfound
  refine ⟨T, crc, p, hpv, ?_⟩
  rw [hinv.front_bytes hf hp]
  exact hf

theorem SpscRingBuffer.consumer_on {w Capacity this : Nat} (hthis : 16 ∣ this) :
    (consumerOps w T Capacity host this).On (fun _ => empty w T Capacity this)
      (layout w T Capacity) host (· = T) (fun _ => True) (fun _ => True) where
  attached _ _ _ := ⟨this, hthis, rfl, fun U v hU => by
    subst hU
    rfl⟩
  unattached _ h := absurd trivial h

theorem IpcRingBuffer.consumer_on {Capacity : Nat} :
    (consumerOps T Capacity host).On (empty T Capacity) (params T Capacity).layout host
      (· = T) (IpcHandle.Held (params T Capacity))
      (fun h => (h.ring (params T Capacity)).isSome) where
  attached h hheld hvalid := by
    obtain ⟨R, hring⟩ := Option.isSome_iff_exists.mp hvalid
    obtain ⟨base, hbase, rfl⟩ := hheld R hring
    refine ⟨base, hbase, ?_, fun U v hU => ?_⟩
    · simp only [empty, IpcHandle.empty, hring]
    · subst hU
      simp only [consumerOps, peekRead, hring]
  unattached h hvalid := by
    have hring := Option.not_isSome_iff_eq_none.mp hvalid
    simp only [empty, IpcHandle.empty, hring]

/-- **A side's own queries are stable.** On each of the three rings, whatever
the other side does in between: a producer that was told the ring is not full
prepares, and a consumer that was told it is not empty is shown the oldest
message. -/
theorem own_queries_stable (Capacity : Nat) (hpow : ∃ j, Capacity = 2 ^ j) (host : Endian)
    (byte : Nat → UInt8) :
    (∀ w T this, T.align ≤ 16 → T.size < 2 ^ 32 →
      SpscRingBuffer.totalSize w T Capacity < 2 ^ w → 64 ∣ this →
      ∀ cfg, Reach (SpscRingBuffer.askingStart w T Capacity host this byte) cfg →
        Steady Consumer.ShownOldest cfg) ∧
    (∀ T shm data, T.align ≤ 16 → T.size < 2 ^ 32 →
      (IpcRingBuffer.params T Capacity).totalShmSize < 2 ^ 64 →
      data.off = 0 → 4096 ∣ data.base →
      ∀ cfg, Reach (IpcRingBuffer.askingStart T Capacity host shm data byte) cfg →
        Steady Consumer.ShownOldest cfg) ∧
    (∀ MaxPayloadSize types shm shm' data data',
      (∀ T, types T → T.align ≤ 16 ∧ T.size < 2 ^ 32 ∧ T.size ≤ MaxPayloadSize) →
      (IpcEnvelopeRingBuffer.params MaxPayloadSize Capacity).totalShmSize < 2 ^ 64 →
      data.off = 0 → 4096 ∣ data.base → data'.off = 0 → 4096 ∣ data'.base →
      ∀ cfg, Reach (IpcEnvelopeRingBuffer.askingStart MaxPayloadSize Capacity host types
          shm shm' data data' byte) cfg →
        Steady IpcEnvelopeRingBuffer.Reader.ShownOldest cfg) := by
  refine ⟨fun w T this halign hsize hfits hthis cfg hreach => ?_,
    fun T shm data halign hsize hfits hoff hpage cfg hreach => ?_,
    fun MaxPayloadSize types shm shm' data data' htypes hfits hoff hpage hoff' hpage' cfg
      hreach => ?_⟩
  · have hL := SpscRingBuffer.layout_sane (T := T) hpow hfits
    have hT : (SpscRingBuffer.layout w T Capacity).Takes T :=
      SpscRingBuffer.layout_takes halign hsize
    have hbase : 16 ∣ this := Nat.dvd_trans (by decide) hthis
    have hpops : (SpscRingBuffer.producerOps w T Capacity host this).Sound
      (SpscRingBuffer.layout w T Capacity) host (· = T) false this :=
      SpscRingBuffer.producer_sound hL hT hbase
    have hcops : (SpscRingBuffer.consumerOps w T Capacity host this).Sound
        (SpscRingBuffer.layout w T Capacity) host (· = T) (fun _ => True) (fun _ => True) :=
      SpscRingBuffer.consumer_sound hL hT hbase
    exact Steady.of_reach
      (ProducerOps.question_sound hpops SpscRingBuffer.producer_on hL (takes_only hT) hbase rfl)
      (ConsumerOps.question_sound hcops (SpscRingBuffer.consumer_on hbase) hL hT)
      (fun _ _ _ _ hcall hc => hcall.ready hpops hL (takes_only hT) hc)
      (fun _ _ _ _ hcall hinv hc => hcall.ready hcops (takes_only hT) hinv hc)
      (fun _ _ hinv hc => hc.shownOldest hinv) rfl rfl
      ⟨trivial, rfl, (fun e he => by cases he), fun U p hp => by cases hp⟩ hreach
  · have hL := IpcParams.layout_sane (P := IpcRingBuffer.params T Capacity) hpow
      IpcRingBuffer.kSlotSize_pos hfits
    have hT : (IpcRingBuffer.params T Capacity).layout.Takes T :=
      IpcRingBuffer.layout_takes halign hsize
    have hring := IpcHandle.attach_ring (IpcRingBuffer.params T Capacity) shm hoff true
    have hpops : (IpcRingBuffer.producerOps T Capacity host (.attach shm data true)).Sound
        (IpcRingBuffer.params T Capacity).layout host (· = T) false data.base :=
      IpcRingBuffer.producer_sound hL hT hoff hpage
    have hcops : (IpcRingBuffer.consumerOps T Capacity host).Sound _ host (· = T) _ _ :=
      IpcRingBuffer.consumer_sound hL hT
    refine Steady.of_reach
      (ProducerOps.question_sound hpops (IpcRingBuffer.producer_on shm hoff) hL
        (takes_only hT) (Nat.dvd_trans (by decide) hpage) ?_)
      (ConsumerOps.question_sound hcops IpcRingBuffer.consumer_on hL hT)
      (fun _ _ _ _ hcall hc => hcall.ready hpops hL (takes_only hT) hc)
      (fun _ _ _ _ hcall hinv hc => hcall.ready hcops (takes_only hT) hinv hc)
      (fun _ _ hinv hc => hc.shownOldest hinv) ?_ ?_
      ⟨IpcHandle.Held.none, rfl, (fun e he => by cases he), fun U p hp => by cases hp⟩ hreach
    · simp only [IpcRingBuffer.full, IpcHandle.full, hring]
    · rw [run_initHeader_word _ _ hoff]
      rfl
    · rw [run_initHeader_word _ _ hoff]
      rfl
  · have hL : (IpcEnvelopeRingBuffer.params MaxPayloadSize Capacity).layout.Sane :=
      IpcEnvelopeRingBuffer.layout_sane hpow hfits
    have htakes : ∀ T, types T →
        (IpcEnvelopeRingBuffer.params MaxPayloadSize Capacity).layout.Takes T := fun T hT =>
      IpcEnvelopeRingBuffer.layout_takes (htypes T hT).2.1 (htypes T hT).2.2 (htypes T hT).1
    have hring := IpcHandle.attach_ring
      (IpcEnvelopeRingBuffer.params MaxPayloadSize Capacity) shm hoff true
    have hring' := IpcHandle.attach_ring
      (IpcEnvelopeRingBuffer.params MaxPayloadSize Capacity) shm' hoff' false
    have hpops : (IpcEnvelopeRingBuffer.producerOps MaxPayloadSize Capacity host
        (.attach shm data true)).Sound _ host types false data.base :=
      IpcEnvelopeRingBuffer.producer_sound hL htakes hoff hpage
    refine Steady.of_reach
      (ProducerOps.question_sound hpops (IpcEnvelopeRingBuffer.producer_on shm hoff) hL
        htakes (Nat.dvd_trans (by decide) hpage) ?_)
      (IpcEnvelopeRingBuffer.readerQuestion_sound hL htakes hring')
      (fun _ _ _ _ hcall hc => hcall.ready hpops hL htakes hc)
      (fun _ _ _ _ hcall _ hc =>
        hcall.ready (IpcEnvelopeRingBuffer.reading hL htakes) hL hring' hc)
      (fun _ _ hinv hc => hc.shownOldest hinv) ?_ ?_ (.nothing rfl rfl) hreach
    · simp only [IpcEnvelopeRingBuffer.full, IpcHandle.full, hring]
    · rw [run_initHeader_word _ _ hoff]
      rfl
    · rw [run_initHeader_word _ _ hoff]
      rfl

theorem own_queries_stable_ping :
    (∃ cfg, Reach (SpscRingBuffer.askingStart 64 pingMsg 2 .little 0x1000 fun _ => 0xFF) cfg ∧
      (∃ a : Asking (Consumer Unit), cfg.thread .consumer = .idle a ∧
        a.attempts = [⟨some false, true⟩]) ∧ Steady Consumer.ShownOldest cfg) ∧
    (∃ cfg, Reach (IpcEnvelopeRingBuffer.askingStart 32 2 .little (· = pingMsg) {} {}
        ⟨0x1000, 0⟩ ⟨0x2000, 0⟩ fun _ => 0xFF) cfg ∧
      (∃ a : Asking IpcEnvelopeRingBuffer.Reader, cfg.thread .consumer = .idle a ∧
        a.attempts = [⟨some false, true⟩]) ∧
      Steady IpcEnvelopeRingBuffer.Reader.ShownOldest cfg) := by
  have h := own_queries_stable 2 ⟨1, rfl⟩ .little fun _ => 0xFF
  constructor
  · have push : ProducerCall (SpscRingBuffer.producerOps 64 pingMsg 2 .little 0x1000)
        (· = pingMsg) {} { writes := some pingMsg } _ :=
      .push {} pingMsg [42, 0, 0, 0] true rfl rfl
    have hreach :
        Reach (SpscRingBuffer.askingStart 64 pingMsg 2 .little 0x1000 fun _ => 0xFF) _ :=
      ((Reach.call (i := Side.producer) rfl (AskingCall.call _ _ _ push)).trans
        (Reach.call (i := Side.consumer) rfl (AskingCall.ask _))).trans
        (Reach.call (i := Side.consumer) rfl
          (AskingCall.attempt _ _ _ ⟨pingMsg, true, rfl, rfl, rfl⟩))
    exact ⟨_, hreach, ⟨_, rfl, by decide +kernel⟩,
      h.1 64 pingMsg 0x1000 (by decide) (by decide) (by decide) (by decide) _ hreach⟩
  · have push : ProducerCall (IpcEnvelopeRingBuffer.producerOps 32 2 .little
          (.attach {} ⟨0x1000, 0⟩ true)) (· = pingMsg) {} { writes := some pingMsg } _ :=
      .push {} pingMsg [42, 0, 0, 0] true rfl rfl
    have hreach : Reach (IpcEnvelopeRingBuffer.askingStart 32 2 .little (· = pingMsg) {} {}
        ⟨0x1000, 0⟩ ⟨0x2000, 0⟩ fun _ => 0xFF) _ :=
      ((Reach.call (i := Side.producer) rfl (AskingCall.call _ _ _ push)).trans
        (Reach.call (i := Side.consumer) rfl (AskingCall.ask _))).trans
        (Reach.call (i := Side.consumer) rfl
          (AskingCall.attempt _ _ _ ⟨true, rfl, rfl⟩))
    refine ⟨_, hreach, ⟨_, rfl, by decide +kernel⟩,
      h.2.2 32 (· = pingMsg) {} {} ⟨0x1000, 0⟩ ⟨0x2000, 0⟩ ?_ (by decide) rfl (by decide)
        rfl (by decide) _ hreach⟩
    intro T hT
    subst hT
    decide

end Sinew
