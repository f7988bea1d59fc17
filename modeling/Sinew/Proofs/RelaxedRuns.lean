import Sinew.Proofs.Relaxed

/-!
# Runs in the memory that C++ promises

A call that is in order in a session, and touches what is its side's to touch, is in
order here: it does to the ring that its side sees what it does in a session, it races
with nothing, and to the other side nothing happens that it does not rely on. So every
session carries over, and with it that a ring is a queue.
-/

namespace Sinew

open Lib

variable {L : Layout} {host : Endian} {types : MsgType → Prop} {s : Relaxed} {l : Label}
  {P C α : Type}

namespace Relaxed

section Calls

variable (hL : L.Sane) (htypes : ∀ T, types T → L.Takes T) {p : Code α}
  {Q : α → Shared → Prop}

include hL htypes

theorem wp_producer
    (h : (producerEnv L host types false).wp (Shared.exec L l) p Q (s.view L .producer))
    (hok : (producerEnv L host types false).Allows (Shared.exec L l) (Produces L l) p
      (s.view L .producer)) :
    (env L host types .producer).wp (exec L .producer l) p
      (fun a s' => Q a (s'.view L .producer)) s := by
  refine Env.wp_observe (fun s : Relaxed => s.view L .producer)
    (fun s s' hr hi => ⟨hr, Inv.ring hi .producer⟩) (fun t e hi => ?_) h hok
  obtain ⟨v, hrely, hinv, hevent⟩ := producer_event (l := l) hi hL htypes e
  exact ⟨v, hrely, hinv, fun hok hinv' _ => hevent hok hinv'⟩

theorem wp_consumer
    (h : (consumerEnv L host types false).wp (Shared.exec L l) p Q (s.view L .consumer))
    (hok : (consumerEnv L host types false).Allows (Shared.exec L l) (Consumes L) p
      (s.view L .consumer)) :
    (env L host types .consumer).wp (exec L .consumer l) p
      (fun a s' => Q a (s'.view L .consumer)) s := by
  refine Env.wp_observe (fun s : Relaxed => s.view L .consumer)
    (fun s s' hr hi => ⟨hr, Inv.ring hi .consumer⟩) (fun t e hi => ?_) h hok
  obtain ⟨v, hrely, hinv, hevent⟩ := consumer_event (l := l) hi hL htypes e
  exact ⟨v, hrely, hinv, fun hok hinv' _ => hevent hok hinv'⟩

end Calls

variable {produce : P → Label → Code P → Prop} {consume : C → Label → Code C → Prop}
  {fed : P → Shared → Prop} {drained : C → Shared → Prop}

/-- The logic of two clients, given what each is between calls to the ring it sees. -/
def logic (L : Layout) (host : Endian) (types : MsgType → Prop)
    (produce : P → Label → Code P → Prop) (consume : C → Label → Code C → Prop)
    (fed : P → Shared → Prop) (drained : C → Shared → Prop)
    (hfed : ∀ p v v', fed p v → ProducerRely v v' → fed p v')
    (hdrained : ∀ c v v', drained c v → Quiet v v' → drained c v') :
    Logic (relaxedParties L produce consume) where
  env := env L host types
  idle
    | .producer => fun p s => fed p (s.view L .producer)
    | .consumer => fun c s => drained c (s.view L .consumer)
  inv_all _ _ _ h := h
  compat i j s s' hij h := by
    cases i with
    | producer =>
        cases j with
        | producer => exact absurd rfl hij
        | consumer => exact h
    | consumer =>
        cases j with
        | producer => exact h
        | consumer => exact absurd rfl hij
  idle_stable i c s s' h hr _ := by
    cases i with
    | producer => exact hfed c _ _ h hr
    | consumer => exact hdrained c _ _ h (ConsumerRely.quiet hr)

theorem Inv.start {byte : Nat → UInt8} {late : Nat → Nat} :
    Inv L host types { mem := { byte := byte, late := late } } where
  counted := by
    have h : Weak.Counted L.cursor (2 ^ L.w) (fun _ : Side => 0)
        { byte := byte, late := late } := .start byte late
    have hcount : count { mem := { byte := byte, late := late } } = fun _ => 0 := by
      funext i
      cases i <;> rfl
    rw [Counted, hcount]
    exact h
  ring i := by
    cases i <;> exact Shared.Inv.empty rfl rfl
  stored _ _ he := by cases he
  loaded _ _ he := by cases he
  raceless := rfl

/-- What two clients keep to on the rings they see, they keep to in every run, and
nothing races. -/
theorem reach (host : Endian) (types : MsgType → Prop) (fed : P → Shared → Prop)
    (drained : C → Shared → Prop) (hL : L.Sane) (htypes : ∀ T, types T → L.Takes T)
    (hfed : ∀ p v v', fed p v → ProducerRely v v' → fed p v')
    (hdrained : ∀ c v v', drained c v → Quiet v v' → drained c v')
    (hproduce : ∀ c l p v, produce c l p → fed c v →
      (producerEnv L host types false).wp (Shared.exec L l) p fed v ∧
        (producerEnv L host types false).Allows (Shared.exec L l) (Produces L l) p v)
    (hconsume : ∀ c l p v, consume c l p → v.Inv L host types false → drained c v →
      (consumerEnv L host types false).wp (Shared.exec L l) p drained v ∧
        (consumerEnv L host types false).Allows (Shared.exec L l) (Consumes L) p v)
    {byte : Nat → UInt8} {late : Nat → Nat} {p₀ : P} {c₀ : C}
    (hp₀ : ∀ v : Shared, v.committed = [] → fed p₀ v)
    (hc₀ : ∀ v : Shared, v.taken = [] → drained c₀ v)
    {cfg : Config (relaxedParties L produce consume)}
    (hreach : Reach ⟨{ mem := { byte := byte, late := late } },
      relaxedParties.idle p₀ c₀⟩ cfg) :
    cfg.state.Inv L host types ∧
      (∀ p, cfg.thread .producer = .idle (P := relaxedParties L produce consume .producer) p →
        fed p (cfg.state.view L .producer)) ∧
      ∀ c, cfg.thread .consumer = .idle (P := relaxedParties L produce consume .consumer) c →
        drained c (cfg.state.view L .consumer) := by
  have hsound : (logic L host types produce consume fed drained hfed hdrained).Sound := by
    intro i c l p s hcall hinv hidle
    cases i with
    | producer =>
        obtain ⟨hwp, hok⟩ := hproduce c l p _ hcall hidle
        exact wp_producer hL htypes hwp hok
    | consumer =>
        obtain ⟨hwp, hok⟩ := hconsume c l p _ hcall (Inv.ring hinv .consumer) hidle
        exact wp_consumer hL htypes hwp hok
  have hstart : (logic L host types produce consume fed drained hfed hdrained).Good
      ⟨{ mem := { byte := byte, late := late } }, relaxedParties.idle p₀ c₀⟩ := by
    refine ⟨fun i => Inv.start, fun i => ?_⟩
    cases i with
    | producer => exact hp₀ _ rfl
    | consumer => exact hc₀ _ rfl
  have hgood := Logic.Good.reach hsound hstart hreach
  exact ⟨hgood.inv .producer, fun _ hp => hgood.idle hp, fun _ hc => hgood.idle hc⟩

/-- A ring that carries messages of type `T` is raced on by nobody, and is a queue. -/
structure Fifo {H : Type} {produce : Producer → Label → Code Producer → Prop}
    {consume : Consumer H → Label → Code (Consumer H) → Prop} (T : MsgType)
    (cfg : Config (relaxedParties L produce consume)) : Prop where
  raceless : cfg.state.mem.racy = false
  bounded : cfg.state.committed.length ≤ cfg.state.taken.length + L.capacity
  taken : cfg.state.taken.map (payloadOf T) <+: cfg.state.committed.map (·.2)
  typed : ∀ e ∈ cfg.state.committed, e.1 = T
  seen : ∀ e ∈ cfg.state.seen, cfg.state.committed[e.1]? = some e.2
  sent : ∀ p : Producer, cfg.thread .producer =
    .idle (P := relaxedParties L produce consume .producer) p → cfg.state.committed = p.sent
  read : ∀ c : Consumer H, cfg.thread .consumer =
    .idle (P := relaxedParties L produce consume .consumer) c →
      c.count = cfg.state.taken.length ∧
      (∀ e ∈ c.log, cfg.state.committed[e.1]? = some e.2) ∧
      ∀ U p, c.slot = some (U, p) → cfg.state.committed[c.count]? =
        some (U, slice cfg.state.mem.byte p.off U.size)

theorem Fifo.of_reach {H : Type} {T : MsgType} {base : Nat} {pops : ProducerOps}
    {cops : ConsumerOps H} {held valid : H → Prop} (hL : L.Sane) (hT : L.Takes T)
    (hpops : pops.Sound L host (· = T) false base)
    (hpops' : pops.Placed L host (· = T) false base)
    (hcops : cops.Sound L host (· = T) held valid)
    (hcops' : cops.Placed L host (· = T) held valid) {h : H} (hheld : held h)
    {byte : Nat → UInt8} {late : Nat → Nat}
    {cfg : Config (relaxedParties L (ProducerCall pops (· = T)) (ConsumerCall cops (· = T)))}
    (hreach : Reach ⟨{ mem := { byte := byte, late := late } },
      relaxedParties.idle {} { handle := h }⟩ cfg) :
    Fifo T cfg := by
  obtain ⟨hinv, hproducer, hconsumer⟩ := reach host (· = T)
    (Producer.Ready L host (· = T) base) (Consumer.Ready L held valid) hL (takes_only hT)
    (fun _ _ _ hp hr => hp.rely hr) (fun _ _ _ hc hq => hc.quiet hq)
    (fun _ _ _ _ hcall hp => ⟨ProducerCall.ready hpops hL (takes_only hT) hcall hp,
      ProducerCall.placed hpops' (takes_only hT) hcall hp⟩)
    (fun _ _ _ _ hcall hv hc => ⟨ConsumerCall.ready hcops (takes_only hT) hcall hv hc,
      ConsumerCall.placed hcops' (takes_only hT) hcall hv hc⟩)
    (fun _ hv => ⟨hv, fun _ hd => by cases hd⟩)
    (fun _ hv => ⟨hheld, by rw [hv]; rfl, (fun _ he => by cases he),
      fun _ _ hs => by cases hs⟩)
    hreach
  obtain ⟨htail, hwaiting, hhead, hroom⟩ := hinv.places
  have hcommitted := hinv.counted.committed_view
  have htaken := hinv.counted.taken_view
  have hseen : (cfg.state.view L .consumer).committed <+: cfg.state.committed :=
    List.take_prefix _ _
  refine ⟨hinv.raceless, by omega, ?_, ?_, fun e he => ?_, fun p hp => ?_, fun c hc => ?_⟩
  · have htook := Shared.Inv.taken_prefix (hinv.ring .consumer)
    rw [htaken] at htook
    exact htook.trans (hseen.map _)
  · have htyped := (hinv.ring .producer).typed
    rw [hcommitted] at htyped
    exact htyped
  · exact List.IsPrefix.getElem?_some hseen ((hinv.ring .consumer).seen e he)
  · have hsent := (hproducer p hp).sent
    rwa [hcommitted] at hsent
  · have hready := hconsumer c hc
    have hcount := hready.count
    rw [htaken] at hcount
    refine ⟨hcount, fun e he => List.IsPrefix.getElem?_some hseen (hready.log e he),
      fun U p hslot => ?_⟩
    obtain ⟨hoff, payload, hfront⟩ := (hready.slot U p hslot).2
    have hbytes : slice cfg.state.mem.byte p.off U.size = payload :=
      (hinv.ring .consumer).front_bytes hfront hoff
    rw [hready.count, hbytes]
    exact List.IsPrefix.getElem?_some hseen hfront

end Relaxed

/-! ## The typed rings -/

section Rings

variable {T : MsgType} {stepwise : Bool} {base : Nat}

theorem Ring.producer_placed (hL : L.Sane) (hT : L.Takes T) (hbase : 16 ∣ base)
    {ops : ProducerOps} (hprepare : ops.prepareWrite T = (L.at base).prepareWrite host T)
    (hcommit : ops.commitWrite T = (L.at base).commitWrite host T)
    (hpush : ops.push T = (L.at base).push host T) :
    ops.Placed L host (· = T) stepwise base where
  prepareWrite U l s hU := by
    subst hU
    rw [hprepare]
    exact allows_prepareWrite hL (takes_only hT) rfl
  commitWrite d c l s hd hwrites hdraft := by
    have hcommit : ops.commitWrite d.T = (L.at base).commitWrite host d.T := by
      rw [hd]
      exact hcommit
    rw [hcommit]
    exact allows_commitWrite hL (takes_only hT) hdraft hd c hwrites
  push U value c l s hU hwrites hlen := by
    subst hU
    rw [hpush]
    refine allows_pushWith hL (takes_only hT) hbase rfl hlen fun d s hd hdraft => ?_
    subst hd
    exact allows_commitWrite hL (takes_only hT) hdraft rfl c hwrites

variable {ops : ConsumerOps Unit}
  (hpeek : ∀ v, ops.peekRead () T v = (L.at base).peekRead host T v)
  (hcommit : ops.commitRead () = (L.at base).commitRead)
  (hpop : ∀ v, ops.pop () T v = (L.at base).pop host T v)
  (hconsume : ∀ v, ops.consume () T record v = (L.at base).consume host T record v)
  (hkept : ∀ get, ¬ ops.rehandle () get)

include hpeek hcommit hpop hconsume hkept

theorem Ring.consumer_sound (hL : L.Sane) (hT : L.Takes T) (hbase : 16 ∣ base) :
    ops.Sound L host (· = T) (fun _ => True) (fun _ => True) where
  peekRead _ U v l s _ hU := by
    subst hU
    rw [hpeek]
    exact Env.wp_mono (wp_peekRead hL (takes_only hT) only_id hbase rfl v)
      fun r s' _ ⟨hq, hp, _⟩ => ⟨hq, fun p h => ⟨trivial, hp p h⟩⟩
  commitRead _ l s _ _ hlt := by
    rw [hcommit]
    exact Env.wp_mono (wp_commitRead hL (takes_only hT) hlt fun h => by cases h)
      fun _ s' _ ⟨htaken, _, hcom⟩ => ⟨htaken, hcom⟩
  pop _ U v l s _ hU := by
    subst hU
    rw [hpop]
    exact Env.wp_mono (wp_pop hL (takes_only hT) only_id hbase rfl v rfl)
      fun r s' _ ⟨_, h⟩ => h
  consume _ U v l s _ hU := by
    subst hU
    rw [hconsume]
    exact Env.wp_mono
      (wp_consume hL (takes_only hT) only_id hbase rfl v fun h => by cases h)
      fun r s' _ h => ⟨h.committed, h.moves⟩
  rehandle _ get _ _ _ hget := absurd hget (hkept get)

theorem Ring.consumer_placed (hL : L.Sane) (hT : L.Takes T) (hbase : 16 ∣ base) :
    ops.Placed L host (· = T) (fun _ => True) (fun _ => True) where
  peekRead _ U v l s _ hU := by
    subst hU
    rw [hpeek]
    exact allows_peekRead hL hT v
  commitRead _ l s _ _ hwaiting := by
    rw [hcommit]
    exact allows_commitRead hwaiting
  pop _ U v l s _ hU := by
    subst hU
    rw [hpop]
    exact allows_pop hL (takes_only hT) only_id hbase rfl v
  consume _ U v l s _ hU := by
    subst hU
    rw [hconsume]
    exact allows_consume hL (takes_only hT) only_id hbase rfl v rfl
  rehandle _ get _ _ _ hget := absurd hget (hkept get)

end Rings

theorem IpcRingBuffer.producer_placed {T : MsgType} {Capacity : Nat} {stepwise : Bool}
    {shm : SharedMemoryRegion} {data : Ptr} (hL : (params T Capacity).layout.Sane)
    (hT : (params T Capacity).layout.Takes T) (hoff : data.off = 0) (hpage : 4096 ∣ data.base) :
    (producerOps T Capacity host (.attach shm data true)).Placed
      (params T Capacity).layout host (· = T) stepwise data.base := by
  have hring := IpcHandle.attach_ring (params T Capacity) shm hoff true
  refine Ring.producer_placed hL hT (Nat.dvd_trans (by decide) hpage) ?_ ?_ ?_
  · simp only [producerOps, prepareWrite, hring]
  · funext c
    simp only [producerOps, commitWrite, hring]
  · funext value c
    simp only [producerOps, push, hring]

/-- **First in, first out, without a race, in the memory that C++ promises.** For both
typed rings, every interleaving of a producer with a consumer, and every choice of which
older store of a counter a load finds: no two accesses to a slot race, what is taken is
what was committed, from the first message on, and each client is where it knows to be. -/
theorem relaxed_ring_fifo (T : MsgType) (halign : T.align ≤ 16) (hsize : T.size < 2 ^ 32)
    (Capacity : Nat) (hpow : ∃ j, Capacity = 2 ^ j) (host : Endian) :
    (∀ w this byte late, SpscRingBuffer.totalSize w T Capacity < 2 ^ w → 64 ∣ this →
      ∀ cfg, Reach (SpscRingBuffer.relaxedStart w T Capacity host this byte late) cfg →
        Relaxed.Fifo T cfg) ∧
    ∀ shm shm' data data' byte late, Capacity < 2 ^ 32 → data.off = 0 → 4096 ∣ data.base →
      data'.off = 0 → 4096 ∣ data'.base →
      ∀ cfg, Reach (IpcRingBuffer.relaxedStart T Capacity host shm shm' data data' byte late)
          cfg →
        Relaxed.Fifo T cfg := by
  constructor
  · intro w this byte late hfits hthis cfg hreach
    have hL := SpscRingBuffer.layout_sane hpow hfits
    have hT : (SpscRingBuffer.layout w T Capacity).Takes T :=
      SpscRingBuffer.layout_takes halign hsize
    have hbase : 16 ∣ this := Nat.dvd_trans (by decide) hthis
    have hkept : ∀ get, ¬ (SpscRingBuffer.consumerOps w T Capacity host this).rehandle ()
        get := fun _ h => h
    exact Relaxed.Fifo.of_reach hL hT (SpscRingBuffer.producer_sound hL hT hbase)
      (Ring.producer_placed hL hT hbase rfl rfl rfl)
      (SpscRingBuffer.consumer_sound hL hT hbase)
      (Ring.consumer_placed (fun _ => rfl) rfl (fun _ => rfl) (fun _ => rfl) hkept hL hT hbase)
      trivial hreach
  · intro shm shm' data data' byte late hcapacity hoff hpage hoff' hpage' cfg hreach
    have hL : (IpcRingBuffer.params T Capacity).layout.Sane :=
      IpcRingBuffer.layout_sane hpow hcapacity
    have hT : (IpcRingBuffer.params T Capacity).layout.Takes T :=
      IpcRingBuffer.layout_takes halign hsize
    have hbase' : 16 ∣ data'.base := Nat.dvd_trans (by decide) hpage'
    have hring' := IpcHandle.attach_ring (IpcRingBuffer.params T Capacity) shm' hoff' false
    have hpeek : ∀ v, (IpcRingBuffer.keptOps T Capacity host
        (.attach shm' data' false)).peekRead () T v =
        ((IpcRingBuffer.params T Capacity).layout.at data'.base).peekRead host T v := by
      intro v
      simp only [IpcRingBuffer.keptOps, IpcRingBuffer.peekRead, hring']
    have hcommit : (IpcRingBuffer.keptOps T Capacity host
        (.attach shm' data' false)).commitRead () =
        ((IpcRingBuffer.params T Capacity).layout.at data'.base).commitRead := by
      simp only [IpcRingBuffer.keptOps, IpcRingBuffer.commitRead, hring']
    have hpop : ∀ v, (IpcRingBuffer.keptOps T Capacity host
        (.attach shm' data' false)).pop () T v =
        ((IpcRingBuffer.params T Capacity).layout.at data'.base).pop host T v := by
      intro v
      simp only [IpcRingBuffer.keptOps, IpcRingBuffer.pop, hring']
    have hconsume : ∀ v, (IpcRingBuffer.keptOps T Capacity host
        (.attach shm' data' false)).consume () T record v =
        ((IpcRingBuffer.params T Capacity).layout.at data'.base).consume host T record v := by
      intro v
      simp only [IpcRingBuffer.keptOps, IpcRingBuffer.consume, hring']
    have hkept : ∀ get, ¬ (IpcRingBuffer.keptOps T Capacity host
        (.attach shm' data' false)).rehandle () get := fun _ h => h
    exact Relaxed.Fifo.of_reach hL hT (IpcRingBuffer.producer_sound hL hT hoff hpage)
      (IpcRingBuffer.producer_placed hL hT hoff hpage)
      (Ring.consumer_sound hpeek hcommit hpop hconsume hkept hL hT hbase')
      (Ring.consumer_placed hpeek hcommit hpop hconsume hkept hL hT hbase') trivial hreach

set_option maxRecDepth 8000 in
/-- A message is pushed, a pop that is late finds nothing, and the next one finds it. -/
theorem relaxed_ring_fifo_late :
    ∃ cfg, Reach (SpscRingBuffer.relaxedStart 64 pingMsg 2 .little 0x1000 (fun _ => 0xFF)
        fun n => if n = 4 then 1 else 0) cfg ∧
      cfg.thread .consumer = .idle
        { handle := (), count := 1, log := [(0, pingMsg, [42, 0, 0, 0])] } ∧
      Relaxed.Fifo pingMsg cfg := by
  have push : ProducerCall (SpscRingBuffer.producerOps 64 pingMsg 2 .little 0x1000)
      (· = pingMsg) {} { writes := some pingMsg } _ :=
    .push {} pingMsg [42, 0, 0, 0] true rfl rfl
  have pop : ∀ c, ConsumerCall (SpscRingBuffer.consumerOps 64 pingMsg 2 .little 0x1000)
      (· = pingMsg) c {} _ := fun c => .pop c pingMsg true rfl
  have hreach : Reach (SpscRingBuffer.relaxedStart 64 pingMsg 2 .little 0x1000
      (fun _ => 0xFF) fun n => if n = 4 then 1 else 0) _ :=
    ((Reach.call (i := Side.producer) rfl push).trans
      (Reach.call (i := Side.consumer) rfl (pop _))).trans
      (Reach.call (i := Side.consumer) rfl (pop _))
  refine ⟨_, hreach, by rfl, ?_⟩
  exact (relaxed_ring_fifo pingMsg (by decide) (by decide) 2 ⟨1, rfl⟩ .little).1 64 0x1000 _
    _ (by decide) (by decide) _ hreach

end Sinew
