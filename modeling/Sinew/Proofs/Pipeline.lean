import Sinew.Proofs.Bridge
import Sinew.Proofs.RingFifo

/-!
# A bridge at either end of a ring

One thread feeds a ring with what it is handed, another drains it in batches. The
events of the two are interleaved in any order, so a batch may end early because the
ring was empty for a moment, and the next batch takes up where it ended.

What a publisher has made of the world by then is said without the ring
(`Relayed`): it has relayed the stream of accepted messages in batches, each from
the first message that is not yet bridged. A message at which the callback throws is
not bridged. It is the first of the next batch, so it is handed out again.
-/

namespace Sinew

open Lib

variable {RosIn RosOut World H P C : Type} {L : Layout} {host : Endian}
  {types : MsgType → Prop} {stepwise : Bool} {base : Nat} {s s' : Shared} {T : MsgType}
  {l : Label}

namespace BridgePublisher

variable {b : BridgePublisher RosOut World H} {world world₀ : World} {n k : Nat}
  {stream stream' : List (List UInt8)}

/-- So many messages of the stream are bridged, in batches, and the world has become
this. -/
inductive Relayed [Inhabited RosOut] (b : BridgePublisher RosOut World H) (world₀ : World)
    (stream : List (List UInt8)) : Nat → World → Prop
  | start : Relayed b world₀ stream 0 world₀
  | batch {n : Nat} {world : World} (k : Nat) : n + k ≤ stream.length →
      Relayed b world₀ stream n world →
      Relayed b world₀ stream
        (n + (b.relay default world ((stream.drop n).take k)).1)
        (b.relay default world ((stream.drop n).take k)).2.2

theorem relay_le (rosMsg : RosOut) (world : World) (msgs : List (List UInt8)) :
    (b.relay rosMsg world msgs).1 ≤ msgs.length := by
  induction msgs generalizing rosMsg world with
  | nil => exact Nat.le_refl 0
  | cons bytes rest ih =>
      simp only [relay]
      split
      · exact Nat.zero_le _
      · exact Nat.succ_le_succ (ih _ _)

theorem batch_mono (hstream : stream <+: stream') (hle : n + k ≤ stream.length) :
    (stream'.drop n).take k = (stream.drop n).take k := by
  obtain ⟨more, rfl⟩ := hstream
  rw [List.drop_append_of_le_length (by omega),
    List.take_append_of_le_length (by rw [List.length_drop]; omega)]

variable [Inhabited RosOut]

theorem Relayed.mono (h : b.Relayed world₀ stream n world) (hstream : stream <+: stream') :
    b.Relayed world₀ stream' n world := by
  induction h with
  | start => exact .start
  | @batch n world k hle _ ih =>
      rw [← batch_mono hstream hle]
      exact .batch k (Nat.le_trans hle hstream.length_le) ih

theorem Relayed.le (h : b.Relayed world₀ stream n world) : n ≤ stream.length := by
  induction h with
  | start => exact Nat.zero_le _
  | @batch n world k hle _ _ =>
      have hrelay := b.relay_le default world ((stream.drop n).take k)
      have hlen := List.length_take_le k (stream.drop n)
      omega

/-- The bridge keeps a list of what it publishes, and its converter leaves nothing of
what was in the message before. -/
structure Publishes (b : BridgePublisher RosOut (List RosOut) H) : Prop where
  callback : b.publishCb = some fun rosMsg published => (.returned, published ++ [rosMsg])
  overwrites : ∀ bytes rosMsg, b.toRos bytes rosMsg = b.toRos bytes default

theorem Publishes.relay {b : BridgePublisher RosOut (List RosOut) H} (hb : b.Publishes)
    (rosMsg : RosOut) (published : List RosOut) (msgs : List (List UInt8)) :
    b.relay rosMsg published msgs =
      (msgs.length, .returned, published ++ msgs.map (b.toRos · default)) := by
  induction msgs generalizing rosMsg published with
  | nil => simp [BridgePublisher.relay]
  | cons bytes rest ih =>
      simp only [BridgePublisher.relay, publish, hb.callback]
      rw [ih, hb.overwrites bytes rosMsg]
      simp

theorem Publishes.relayed {b : BridgePublisher RosOut (List RosOut) H} (hb : b.Publishes)
    {published published₀ : List RosOut} (h : b.Relayed published₀ stream n published) :
    published = published₀ ++ (stream.take n).map (b.toRos · default) := by
  induction h with
  | start => simp
  | @batch n published k hle _ ih =>
      have hlen : ((stream.drop n).take k).length = k := by
        rw [List.length_take, List.length_drop]
        omega
      rw [hb.relay, hlen, List.take_add, List.map_append, ← List.append_assoc, ← ih]

end BridgePublisher

theorem wp_loadDraft (hL : L.Sane) (htypes : ∀ T, types T → L.Takes T) {d : Draft}
    (hd : Drafted L host base d s) (hT : types d.T) :
    (producerEnv L host types stepwise).wp (Shared.exec L l) (loadBytes d.payload d.T.size)
      (fun bytes s' => bytes = d.bytes ∧ s'.committed = s.committed ∧
        Drafted L host base d s') s := by
  have hfits := (htypes d.T hT).fits
  have hoff : d.payload.off = L.slotOff s.committed.length + Header.size := by rw [hd.payload]
  refine wp_bytes hL htypes hd.room (loadBytes_bytesIn (by omega) (by omega)) ?_
  intro s' hroom hcom hbyte
  rw [run_loadBytes] at hbyte ⊢
  refine ⟨?_, hcom, hroom, by rw [hcom]; exact hd.payload, hd.length, ?_⟩
  · rw [hoff]
    exact (packet_parts hd.slot).2
  · rw [hcom, hbyte]
    exact hd.slot

theorem wp_fillDraft (hL : L.Sane) (htypes : ∀ T, types T → L.Takes T) {d : Draft}
    (hd : Drafted L host base d s) (hT : types d.T) {value : List UInt8}
    (hlen : value.length = d.T.size) :
    (producerEnv L host types stepwise).wp (Shared.exec L l) (storeBytes d.payload value)
      (fun _ s' => s'.committed = s.committed ∧
        Drafted L host base { d with bytes := value } s') s := by
  have hfits := (htypes d.T hT).fits
  have hoff : d.payload.off = L.slotOff s.committed.length + Header.size := by rw [hd.payload]
  refine wp_bytes hL htypes hd.room (storeBytes_bytesIn (by omega) (by omega)) ?_
  intro s' hroom hcom hbyte
  refine ⟨hcom, hroom, by rw [hcom]; exact hd.payload, hlen, ?_⟩
  rw [hbyte, hcom, run_storeBytes, Mem.write_byte, hoff]
  exact slice_write_payload host d.T hd.slot (by rw [hlen, hd.length])

/-- A message that is handed over is committed as the converter has it, or refused. -/
theorem wp_handleRosMessage {b : BridgeSubscriber RosIn} (hL : L.Sane)
    (htypes : ∀ T, types T → L.Takes T)
    (hops : b.ops.Sound L host types stepwise base) (hT : types b.SinewMsg) (rosMsg : RosIn)
    (c : Bool) (os : OsAnswers) :
    (producerEnv L host types stepwise).wp
      (Shared.exec L { writes := some b.SinewMsg, os := os }) (b.handleRosMessage rosMsg c)
      (fun r s' => s'.committed = if r then
          s.committed ++ [(b.SinewMsg, b.fromRos rosMsg b.SinewMsg.fresh)]
        else s.committed) s := by
  refine Env.wp_bind (Env.wp_mono (hops.prepareWrite b.SinewMsg _ s hT) ?_)
  intro slot s₁ _ ⟨hcom₁, hdraft⟩
  cases slot with
  | none =>
      refine Env.wp_ret fun s₂ (hr : ProducerRely s₁ s₂) _ => ?_
      rw [hr.committed, hcom₁]
      rfl
  | some slot =>
      have hd := hdraft slot rfl
      refine Env.wp_bind (Env.wp_mono (wp_loadDraft hL htypes hd hT) ?_)
      intro bytes s₂ _ ⟨hbytes, hcom₂, hd₂⟩
      subst hbytes
      have hlen := b.fromRos_length rosMsg b.SinewMsg.fresh (by simp)
      refine Env.wp_bind (Env.wp_mono (wp_fillDraft hL htypes hd₂ hT hlen) ?_)
      intro _ s₃ _ ⟨hcom₃, hd₃⟩
      refine Env.wp_bind (Env.wp_mono (hops.commitWrite _ c os s₃ hT hd₃) ?_)
      intro _ s₄ _ hcom₄
      refine Env.wp_ret fun s₅ (hr : ProducerRely s₄ s₅) _ => ?_
      rw [hr.committed, hcom₄, hcom₃, hcom₂, hcom₁]
      rfl

/-- The messages in a ring are those that were accepted. -/
def Fed (b : BridgeSubscriber RosIn) (accepted : List RosIn) (s : Shared) : Prop :=
  s.committed = accepted.map fun rosMsg => (b.SinewMsg, b.fromRos rosMsg b.SinewMsg.fresh)

theorem SubscriberCall.fed {b : BridgeSubscriber RosIn} (hL : L.Sane)
    (htypes : ∀ T, types T → L.Takes T) (hops : b.ops.Sound L host types stepwise base)
    (hT : types b.SinewMsg) {accepted : List RosIn} {prog : Code (List RosIn)}
    (hcall : SubscriberCall b accepted l prog) (h : Fed b accepted s) :
    (producerEnv L host types stepwise).wp (Shared.exec L l) prog (Fed b) s := by
  cases hcall with
  | handle rosMsg c =>
      refine Env.wp_bind (Env.wp_mono (wp_handleRosMessage hL htypes hops hT rosMsg c _) ?_)
      intro pushed s₁ _ hcom
      refine Env.wp_ret fun s₂ (hr : ProducerRely s₁ s₂) _ => ?_
      rw [Fed, hr.committed, hcom, h]
      cases pushed with
      | false => rfl
      | true => simp

namespace BridgePublisher

variable {b : BridgePublisher RosOut World H} {world₀ : World}

theorem batch_succ {stream : List (List UInt8)} {n k : Nat} {bytes : List UInt8}
    (h : stream[n]? = some bytes) :
    (stream.drop n).take (k + 1) = bytes :: (stream.drop (n + 1)).take k := by
  obtain ⟨hlt, rfl⟩ := List.getElem?_eq_some_iff.mp h
  rw [List.drop_eq_getElem_cons hlt, List.take_succ_cons]

/-- From the oldest message on, some messages that were waiting are relayed. -/
def Batched (b : BridgePublisher RosOut World H) (processed : Nat) (rosMsg : RosOut)
    (world : World) (s : Shared) (r : Option Nat × World) (s' : Shared) : Prop :=
  ∃ k, s.taken.length + k ≤ s'.committed.length ∧
    let batch := b.relay rosMsg world
      (((s'.committed.map (·.2)).drop s.taken.length).take k)
    s'.taken.length = s.taken.length + batch.1 ∧ r = answer processed batch

section

variable (hL : L.Sane) (hT : L.Takes b.SinewMsg) (hbase : 16 ∣ base)
  (hpeek : b.ops.peekRead b.ringBuffer b.SinewMsg false =
    (L.at base).peekRead host b.SinewMsg false)
  (hcommit : b.ops.commitRead b.ringBuffer = (L.at base).commitRead)

include hL hT hbase hpeek hcommit

theorem wp_spinLoop (left processed : Nat) (rosMsg : RosOut) (world : World) (s : Shared) :
    (consumerEnv L host (· = b.SinewMsg) false).wp (Shared.exec L l)
      (b.spinLoop left processed rosMsg world)
      (fun r s' => s.committed <+: s'.committed ∧
        b.Batched processed rosMsg world s r s') s := by
  have hend : ∀ {s t : Shared}, Quiet s t → ∀ t', ConsumerRely L t t' →
      s.taken.length ≤ t'.committed.length → ∀ processed rosMsg world,
      s.committed <+: t'.committed ∧
        b.Batched processed rosMsg world s (some processed, world) t' := by
    intro s t hq t' hr hle processed rosMsg world
    have hq' := hq.trans hr.quiet
    refine ⟨hq'.committed, 0, hle, ?_, ?_⟩
    · rw [hq'.taken]
      rfl
    · rfl
  induction left generalizing processed rosMsg world s with
  | zero =>
      refine Env.wp_ret fun t hr hinv => hend (Quiet.refl s) t hr ?_ processed rosMsg world
      have hle : t.taken.length ≤ t.committed.length := Shared.Inv.le hinv
      rwa [ConsumerRely.taken hr] at hle
  | succ left ih =>
      rw [spinLoop, hpeek, hcommit]
      refine Env.wp_bind (Env.wp_mono
        (wp_peekRead hL (takes_only hT) only_id hbase rfl false) ?_)
      intro item s₁ hinv₁ hread
      obtain ⟨hq₁, hpeeked, _⟩ := hread
      cases item with
      | none =>
          refine Env.wp_ret fun t hr hinv => hend hq₁ t hr ?_ processed rosMsg world
          have hle : t.taken.length ≤ t.committed.length := Shared.Inv.le hinv
          rwa [ConsumerRely.taken hr, hq₁.taken] at hle
      | some item =>
          obtain ⟨hoff, payload, hfront⟩ := hpeeked item rfl
          refine Env.wp_bind (Env.wp_mono
            (wp_loadPayload (takes_only hT) hinv₁ hfront hoff) ?_)
          intro bytes s₂ _ hload
          obtain ⟨hq₂, hbytes⟩ := hload
          subst hbytes
          have hq := hq₁.trans hq₂
          have hfront₂ := hfront.quiet hq₂
          -- the message is the first of the batch, wherever the batch ends
          have hfirst : ∀ {t : Shared}, s₂.committed <+: t.committed →
              (t.committed.map (·.2))[s.taken.length]? = some bytes := by
            intro t ht
            have hget : s₂.committed[s.taken.length]? = some (b.SinewMsg, bytes) := by
              rw [← hq.taken]
              exact hfront₂
            rw [List.getElem?_map, List.IsPrefix.getElem?_some ht hget]
            rfl
          dsimp only
          cases hpub : b.publish (b.toRos bytes rosMsg) world with
          | mk outcome world' =>
              cases outcome with
              | threw =>
                  refine Env.wp_ret fun t hr _ => ?_
                  have hqt := hq.trans (ConsumerRely.quiet hr)
                  have hget := hfirst (ConsumerRely.committed hr)
                  have hlt := (List.getElem?_eq_some_iff.mp hget).1
                  rw [List.length_map] at hlt
                  refine ⟨hqt.committed, 1, hlt, ?_⟩
                  rw [batch_succ hget, List.take_zero]
                  simp only [relay, hpub]
                  exact ⟨congrArg List.length hqt.taken, rfl⟩
              | returned =>
                  refine Env.wp_bind (Env.wp_mono (wp_commitRead hL (takes_only hT)
                    hfront₂.lt fun h => by cases h) ?_)
                  intro _ s₃ _ hcommitted
                  obtain ⟨htaken, _, hcom⟩ := hcommitted
                  rw [hq.taken] at htaken
                  refine Env.wp_mono (ih (processed + 1) (b.toRos bytes rosMsg) world' s₃) ?_
                  intro r t _ hrest
                  obtain ⟨hcom', k, hle, hlen, hanswer⟩ := hrest
                  have hget := hfirst (hcom.trans hcom')
                  rw [htaken] at hle hlen hanswer
                  refine ⟨(hq.committed.trans hcom).trans hcom', k + 1, by omega, ?_⟩
                  rw [batch_succ hget]
                  simp only [relay, hpub]
                  refine ⟨by rw [hlen]; omega, ?_⟩
                  rw [hanswer]
                  simp only [answer, Nat.add_assoc, Nat.add_comm 1]

end

variable [Inhabited RosOut]

structure Drained (b : BridgePublisher RosOut World H) (world₀ : World) (c : Drain World)
    (s : Shared) : Prop where
  relayed : b.Relayed world₀ (s.committed.map (·.2)) s.taken.length c.world
  bridged : ∀ n, c.bridged = some n → n = s.taken.length

theorem Drained.quiet {c : Drain World} (h : b.Drained world₀ c s) (hq : Quiet s s') :
    b.Drained world₀ c s' := by
  refine ⟨?_, fun n hn => ?_⟩
  · rw [hq.taken]
    exact h.relayed.mono (hq.committed.map _)
  · rw [hq.taken]
    exact h.bridged n hn

theorem Drained.batch {c : Drain World} (h : b.Drained world₀ c s)
    {r : Option Nat × World} (hcom : s.committed <+: s'.committed)
    (hbatch : b.Batched 0 default c.world s r s') :
    b.Drained world₀ ⟨r.2, do return (← c.bridged) + (← r.1)⟩ s' := by
  obtain ⟨k, hle, hlen, hr⟩ := hbatch
  have hle' : s.taken.length + k ≤ (s'.committed.map (·.2)).length := by
    rw [List.length_map]
    exact hle
  have hbatch := (h.relayed.mono (hcom.map _)).batch k hle'
  rw [← hlen] at hbatch
  subst hr
  refine ⟨hbatch, fun n hn => ?_⟩
  obtain ⟨m, hm, hn⟩ := Option.bind_eq_some_iff.mp hn
  obtain ⟨k', hk', hn⟩ := Option.bind_eq_some_iff.mp hn
  have hm := h.bridged m hm
  rw [hlen]
  simp only [answer, Nat.zero_add] at hk'
  split at hk'
  · cases hk'
  · rw [Option.some.inj hk', ← hm]
    exact (Option.some.inj hn).symm

theorem PublisherCall.drained (hL : L.Sane) (hT : L.Takes b.SinewMsg) (hbase : 16 ∣ base)
    (hpeek : b.ops.peekRead b.ringBuffer b.SinewMsg false =
      (L.at base).peekRead host b.SinewMsg false)
    (hcommit : b.ops.commitRead b.ringBuffer = (L.at base).commitRead)
    {c : Drain World} {prog : Code (Drain World)} (hcall : PublisherCall b c l prog)
    (h : b.Drained world₀ c s) :
    (consumerEnv L host (· = b.SinewMsg) false).wp (Shared.exec L l) prog
      (b.Drained world₀) s := by
  cases hcall with
  | spinSome maxMessages =>
      refine Env.wp_bind (Env.wp_mono
        (wp_spinLoop hL hT hbase hpeek hcommit maxMessages 0 default c.world s) ?_)
      intro r s₁ _ ⟨hcom, hbatch⟩
      refine Env.wp_ret fun s₂ (hr : ConsumerRely L s₁ s₂) _ => ?_
      exact (h.batch hcom hbatch).quiet (ConsumerRely.quiet hr)

end BridgePublisher

end Sinew
