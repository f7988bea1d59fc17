import Sinew.Proofs.Consumer
import Sinew.Proofs.Producer

/-!
# Clients in good order

What a client remembers between calls agrees with the histories: the producer
has sent what was committed, the consumer knows which message it is at, and
what it has read of a message is what was committed as that message. Every call
a client may make keeps this up, on any ring whose functions do what the two
structures below ask of them.
-/

namespace Sinew

open Lib

variable {L : Layout} {host : Endian} {types : MsgType → Prop} {stepwise : Bool}
  {base : Nat} {s s' : Shared}

/-- What is asked of a ring's producer functions. -/
structure ProducerOps.Sound (ops : ProducerOps) (L : Layout) (host : Endian)
    (types : MsgType → Prop) (stepwise : Bool) (base : Nat) : Prop where
  prepareWrite : ∀ T l s, types T →
    (producerEnv L host types stepwise).wp (Shared.exec L l) (ops.prepareWrite T)
      (fun r s' => s'.committed = s.committed ∧
        ∀ p, r = some p → Drafted L host base ⟨T, p, T.fresh⟩ s') s
  commitWrite : ∀ d c os s, types d.T → Drafted L host base d s →
    (producerEnv L host types stepwise).wp (Shared.exec L { writes := some d.T, os := os })
      (ops.commitWrite d.T c)
      (fun _ s' => s'.committed = s.committed ++ [(d.T, d.bytes)]) s
  push : ∀ T value c os s, types T → value.length = T.size →
    (producerEnv L host types stepwise).wp (Shared.exec L { writes := some T, os := os })
      (ops.push T value c)
      (fun r s' => s'.committed =
        if r then s.committed ++ [(T, value)] else s.committed) s

/-- A producer between calls. -/
structure Producer.Ready (L : Layout) (host : Endian) (types : MsgType → Prop)
    (base : Nat) (c : Producer) (s : Shared) : Prop where
  sent : s.committed = c.sent
  draft : ∀ d, c.draft = some d → types d.T ∧ Drafted L host base d s

theorem Producer.Ready.rely {c : Producer} (h : c.Ready L host types base s)
    (hr : ProducerRely s s') : c.Ready L host types base s' where
  sent := hr.committed.trans h.sent
  draft d hd := ⟨(h.draft d hd).1, (h.draft d hd).2.rely hr⟩

theorem ProducerCall.ready {ops : ProducerOps}
    (hops : ops.Sound L host types stepwise base) (hL : L.Sane)
    (htypes : ∀ T, types T → L.Takes T) {c : Producer} {l : Label}
    {p : Code Producer} (hcall : ProducerCall ops types c l p)
    (hc : c.Ready L host types base s) :
    (producerEnv L host types stepwise).wp (Shared.exec L l) p
      (Producer.Ready L host types base) s := by
  cases hcall with
  | prepareWrite T hT =>
      refine Env.wp_bind (Env.wp_mono (hops.prepareWrite T _ s hT) ?_)
      intro r s₁ _ ⟨hcom, hdraft⟩
      refine Env.wp_ret fun s₂ (hr : ProducerRely s₁ s₂) _ => ⟨?_, fun d hd => ?_⟩
      · exact hr.committed.trans (hcom.trans hc.sent)
      · obtain ⟨p, hp, rfl⟩ := Option.map_eq_some_iff.mp hd
        exact ⟨hT, (hdraft p hp).rely hr⟩
  | writeByte d i b hd hi =>
      obtain ⟨hT, hdraft⟩ := hc.draft d hd
      refine Env.wp_bind (Env.wp_mono (wp_writeByte hL htypes hdraft hT hi b) ?_)
      intro _ s₁ _ ⟨hcom, hdraft₁⟩
      refine Env.wp_ret fun s₂ (hr : ProducerRely s₁ s₂) _ => ⟨?_, fun d' hd' => ?_⟩
      · exact hr.committed.trans (hcom.trans hc.sent)
      · obtain rfl := Option.some.inj hd'
        exact ⟨hT, hdraft₁.rely hr⟩
  | commitWrite d computeCrc hd =>
      obtain ⟨hT, hdraft⟩ := hc.draft d hd
      refine Env.wp_bind (Env.wp_mono (hops.commitWrite d computeCrc _ s hT hdraft) ?_)
      intro _ s₁ _ hcom
      refine Env.wp_ret fun s₂ (hr : ProducerRely s₁ s₂) _ => ⟨?_, fun d' hd' => ?_⟩
      · rw [hr.committed, hcom, hc.sent]
      · cases hd'
  | push T value computeCrc hT hlen =>
      refine Env.wp_bind (Env.wp_mono (hops.push T value computeCrc _ s hT hlen) ?_)
      intro r s₁ _ hcom
      refine Env.wp_ret fun s₂ (hr : ProducerRely s₁ s₂) _ => ⟨?_, fun d' hd' => ?_⟩
      · rw [hr.committed, hcom, hc.sent]
      · cases hd'

/-- What is asked of a ring's consumer functions. A handle may be held that is
not attached to anything; one that is `valid` is attached to the ring. -/
structure ConsumerOps.Sound {H : Type} (ops : ConsumerOps H) (L : Layout)
    (host : Endian) (types : MsgType → Prop) (held valid : H → Prop) : Prop where
  peekRead : ∀ h T v l s, held h → types T →
    (consumerEnv L host types false).wp (Shared.exec L l) (ops.peekRead h T v)
      (fun r s' => Quiet s s' ∧ ∀ p, r = some p → valid h ∧ Peeked L T p s') s
  commitRead : ∀ h l s, held h → valid h → s.taken.length < s.committed.length →
    (consumerEnv L host types false).wp (Shared.exec L l) (ops.commitRead h)
      (fun _ s' => s'.taken.length = s.taken.length + 1 ∧ s.committed <+: s'.committed) s
  pop : ∀ h T v l s, held h → types T →
    (consumerEnv L host types false).wp (Shared.exec L l) (ops.pop h T v)
      (fun r s' => s.committed <+: s'.committed ∧ match r with
        | none => s'.taken.length = s.taken.length
        | some bytes => s'.taken.length = s.taken.length + 1 ∧
            s'.committed[s.taken.length]? = some (T, bytes)) s
  consume : ∀ h T v l s, held h → types T →
    (consumerEnv L host types false).wp (Shared.exec L l) (ops.consume h T record v)
      (fun r s' => s.committed <+: s'.committed ∧
        s'.taken.length = if r = some true then s.taken.length + 1 else s.taken.length) s
  rehandle : ∀ h get l s, held h → ops.rehandle h get →
    (consumerEnv L host types false).wp (Shared.exec L l) get
      (fun h' s' => held h' ∧ Quiet s s') s

/-- A consumer between calls. -/
structure Consumer.Ready {H : Type} (L : Layout) (held valid : H → Prop)
    (c : Consumer H) (s : Shared) : Prop where
  held : held c.handle
  count : c.count = s.taken.length
  log : ∀ e ∈ c.log, s.committed[e.1]? = some e.2
  slot : ∀ T p, c.slot = some (T, p) → valid c.handle ∧ Peeked L T p s

section Consumer

variable {H : Type} {held valid : H → Prop} {c : Consumer H}

theorem Consumer.Ready.quiet (h : c.Ready L held valid s) (hq : Quiet s s') :
    c.Ready L held valid s' where
  held := h.held
  count := by rw [hq.taken, h.count]
  log e he := List.IsPrefix.getElem?_some hq.committed (h.log e he)
  slot T p hp := ⟨(h.slot T p hp).1, (h.slot T p hp).2.quiet hq⟩

/-- Reading message `count` as it was committed is worth remembering. -/
theorem Consumer.Ready.log_append (h : c.Ready L held valid s)
    (hcom : s.committed <+: s'.committed) {x : MsgType × List UInt8}
    (hx : s'.committed[s.taken.length]? = some x) :
    ∀ e ∈ c.log ++ [(c.count, x)], s'.committed[e.1]? = some e.2 := by
  intro e he
  rcases List.mem_append.mp he with he | he
  · exact List.IsPrefix.getElem?_some hcom (h.log e he)
  · rw [List.mem_singleton.mp he, h.count]
    exact hx

theorem ConsumerCall.ready {ops : ConsumerOps H}
    (hops : ops.Sound L host types held valid) (htypes : ∀ T, types T → L.Takes T)
    {l : Label} {p : Code (Consumer H)} (hcall : ConsumerCall ops types c l p)
    (hinv : s.Inv L host types false) (hc : c.Ready L held valid s) :
    (consumerEnv L host types false).wp (Shared.exec L l) p
      (Consumer.Ready L held valid) s := by
  cases hcall with
  | peekRead T v hT =>
      refine Env.wp_bind (Env.wp_mono (hops.peekRead _ T v _ s hc.held hT) ?_)
      intro r s₁ _ ⟨hq, hpeek⟩
      refine Env.wp_ret fun s₂ (hr : ConsumerRely L s₁ s₂) _ => ?_
      have hc₂ := hc.quiet (hq.trans hr.quiet)
      refine { hc₂ with slot := fun U q hslot => ?_ }
      obtain ⟨p, hp, hUq⟩ := Option.map_eq_some_iff.mp hslot
      obtain ⟨rfl, rfl⟩ := Prod.mk.inj hUq
      exact ⟨(hpeek p hp).1, (hpeek p hp).2.quiet hr.quiet⟩
  | read T payload hslot =>
      obtain ⟨hp, bytes, hf⟩ := (hc.slot T payload hslot).2
      refine Env.wp_bind (Env.wp_mono (wp_loadPayload htypes hinv hf hp) ?_)
      intro r s₁ _ ⟨hq, hbytes⟩
      subst hbytes
      refine Env.wp_ret fun s₂ (hr : ConsumerRely L s₁ s₂) _ => ?_
      have hq₂ := hq.trans hr.quiet
      exact { hc.quiet hq₂ with
        log := hc.log_append hq₂.committed
          (List.IsPrefix.getElem?_some hq₂.committed hf) }
  | commitRead x hslot =>
      obtain ⟨hvalid, -, payload, hf⟩ := hc.slot x.1 x.2 hslot
      refine Env.wp_bind (Env.wp_mono
        (hops.commitRead _ _ s hc.held hvalid hf.lt) ?_)
      intro _ s₁ _ ⟨htaken, hcom⟩
      refine Env.wp_ret fun s₂ (hr : ConsumerRely L s₁ s₂) _ => ⟨hc.held, ?_, ?_, ?_⟩
      · rw [hr.taken, htaken, hc.count]
      · exact fun e he => List.IsPrefix.getElem?_some (hcom.trans hr.committed) (hc.log e he)
      · exact fun U q hq => by cases hq
  | pop T v hT =>
      refine Env.wp_bind (Env.wp_mono (hops.pop _ T v _ s hc.held hT) ?_)
      intro r s₁ _ ⟨hcom, hr⟩
      cases r with
      | none =>
          refine Env.wp_ret fun s₂ (hr₂ : ConsumerRely L s₁ s₂) _ =>
            ⟨hc.held, ?_, ?_, ?_⟩
          · rw [hr₂.taken]
            exact hc.count.trans hr.symm
          · exact fun e he =>
              List.IsPrefix.getElem?_some (hcom.trans hr₂.committed) (hc.log e he)
          · exact fun U q hq => by cases hq
      | some bytes =>
          refine Env.wp_ret fun s₂ (hr₂ : ConsumerRely L s₁ s₂) _ =>
            ⟨hc.held, ?_, ?_, ?_⟩
          · rw [hr₂.taken, hr.1]
            exact congrArg (· + 1) hc.count
          · exact hc.log_append (hcom.trans hr₂.committed)
              (List.IsPrefix.getElem?_some hr₂.committed hr.2)
          · exact fun U q hq => by cases hq
  | consume T v hT =>
      refine Env.wp_bind (Env.wp_mono (hops.consume _ T v _ s hc.held hT) ?_)
      intro r s₁ _ ⟨hcom, htaken⟩
      refine Env.wp_ret fun s₂ (hr₂ : ConsumerRely L s₁ s₂) _ => ⟨hc.held, ?_, ?_, ?_⟩
      · rw [hr₂.taken, htaken, ← hc.count]
      · exact fun e he =>
          List.IsPrefix.getElem?_some (hcom.trans hr₂.committed) (hc.log e he)
      · exact fun U q hq => by cases hq
  | rehandle os get hget =>
      refine Env.wp_bind (Env.wp_mono (hops.rehandle _ get _ s hc.held hget) ?_)
      intro h s₁ _ ⟨hheld, hq⟩
      refine Env.wp_ret fun s₂ (hr : ConsumerRely L s₁ s₂) _ => ?_
      exact { hc.quiet (hq.trans hr.quiet) with
        held := hheld, slot := fun U q hslot => by cases hslot }

end Consumer

/-- The logic of a session, given what its clients are between calls. -/
def sessionLogic (L : Layout) (host : Endian) (types : MsgType → Prop)
    (stepwise : Bool) {C : Type} (produce : Producer → Label → Code Producer → Prop)
    (consume : C → Label → Code C → Prop) (base : Nat) (ready : C → Shared → Prop)
    (hready : ∀ c s s', ready c s → Quiet s s' → ready c s') :
    Logic (parties L produce consume) where
  env
    | .producer => producerEnv L host types stepwise
    | .consumer => consumerEnv L host types stepwise
  idle
    | .producer => Producer.Ready L host types base
    | .consumer => ready
  inv_all i j s h := by
    cases i <;> cases j <;> exact h
  compat i j s s' hij h := by
    cases i with
    | producer =>
        cases j with
        | producer => exact absurd rfl hij
        | consumer => exact h
    | consumer =>
        cases j with
        | producer => exact h
        | consumer => exact absurd rfl hij
  idle_stable i c s s' h hr _ := by
    cases i with
    | producer => exact Producer.Ready.rely h hr
    | consumer => exact hready c s s' h (ConsumerRely.quiet hr)

section Calls

variable {C : Type} {produce : Producer → Label → Code Producer → Prop}
  {consume : C → Label → Code C → Prop} {p : Producer} {c : C} {l : Label}

theorem Reach.producer_call {prog : Code Producer} (hcall : produce p l prog) :
    Reach (⟨s, parties.idle p c⟩ : Config (parties L produce consume))
      ⟨(prog.run (Shared.exec L l) s).2,
        parties.idle (prog.run (Shared.exec L l) s).1 c⟩ := by
  have h : Reach (⟨s, parties.idle p c⟩ : Config (parties L produce consume)) _ :=
    Reach.call (i := Side.producer) rfl hcall
  refine (congrArg (Reach _) (congrArg (Config.mk _) (funext fun side => ?_))).mp h
  cases side <;> rfl

theorem Reach.consumer_call {prog : Code C} (hcall : consume c l prog) :
    Reach (⟨s, parties.idle p c⟩ : Config (parties L produce consume))
      ⟨(prog.run (Shared.exec L l) s).2,
        parties.idle p (prog.run (Shared.exec L l) s).1⟩ := by
  have h : Reach (⟨s, parties.idle p c⟩ : Config (parties L produce consume)) _ :=
    Reach.call (i := Side.consumer) rfl hcall
  refine (congrArg (Reach _) (congrArg (Config.mk _) (funext fun side => ?_))).mp h
  cases side <;> rfl

end Calls

section Session

variable {C : Type} {produce : Producer → Label → Code Producer → Prop}
  {consume : C → Label → Code C → Prop} {ready : C → Shared → Prop}
  {hready : ∀ c s s', ready c s → Quiet s s' → ready c s'}

theorem sessionLogic_sound
    (hproduce : ∀ c l p s, produce c l p → Producer.Ready L host types base c s →
      (producerEnv L host types stepwise).wp (Shared.exec L l) p
        (Producer.Ready L host types base) s)
    (hconsume : ∀ c l p s, consume c l p → s.Inv L host types stepwise → ready c s →
      (consumerEnv L host types stepwise).wp (Shared.exec L l) p ready s) :
    (sessionLogic L host types stepwise produce consume base ready hready).Sound := by
  intro i c l p s hst hinv hidle
  cases i with
  | producer => exact hproduce c l p s hst hidle
  | consumer => exact hconsume c l p s hst hinv hidle

theorem sessionLogic_good {state : Shared} {p : Producer} {c : C}
    (hinv : state.Inv L host types stepwise) (hp : p.Ready L host types base state)
    (hc : ready c state) :
    (sessionLogic L host types stepwise produce consume base ready hready).Good
      ⟨state, parties.idle p c⟩ where
  inv i := by
    cases i <;> exact hinv
  thread i := by
    cases i with
    | producer => exact hp
    | consumer => exact hc

end Session

end Sinew
