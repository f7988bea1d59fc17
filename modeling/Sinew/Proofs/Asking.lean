import Sinew.Model.Asking
import Sinew.Proofs.CountRuns
import Sinew.Proofs.Envelope
import Sinew.Proofs.Packet

/-!
# A side's own queries

A side that is told the ring is not full, or not empty, is told something that
lasts: only the side itself can undo it, because the other side's steps can
only make more room, or more to read. So what is attempted on the answer
succeeds, for as long as the side has not moved the ring in between.
-/

namespace Sinew

open Lib

variable {L : Layout} {host : Endian} {types : MsgType → Prop} {stepwise : Bool}
  {base : Nat} {s s' : Shared} {l : Label}

section Asking

variable {C : Type} {ready promise : C → Shared → Prop} {E : Env Shared} {Q : Question C}

/-- Between calls: the last answer, if it was `false` and stands, is a promise
that holds, and no attempt has been let down. -/
structure Asking.Ready (ready promise : C → Shared → Prop) (a : Asking C)
    (s : Shared) : Prop where
  ready : ready a.client s
  promise : a.answer = some false → promise a.client s
  kept : a.Kept

/-- A question whose answer `false` is a promise worth having: the other side
keeps it, the side itself keeps it until it moves the ring, and the attempt
succeeds on it. -/
structure Question.Sound (Q : Question C) (E : Env Shared) (L : Layout)
    (ready promise : C → Shared → Prop) : Prop where
  rely_grew : ∀ {s s'}, E.rely s s' → Shared.Grew s s'
  guar_grew : ∀ {s s'}, E.guar s s' → Shared.Grew s s'
  ready_rely : ∀ {c s s'}, ready c s → E.rely s s' → ready c s'
  promise_rely : ∀ {c s s'}, promise c s → E.rely s s' → promise c s'
  still : ∀ {c c' s s'}, Q.still c c' = true → ready c s → ready c' s' →
    Shared.Grew s s' → promise c s → promise c' s'
  query : ∀ c s, ready c s → E.wp (Shared.exec L {}) (Q.query c)
    (fun r s' => ready c s' ∧ (r = false → promise c s')) s
  attempt : ∀ c l p s, Q.attempt c l p → E.inv s → ready c s →
    E.wp (Shared.exec L l) p
      (fun c' s' => ready c' s' ∧ (promise c s → Q.succeeded c' = true)) s

namespace Question.Sound

theorem asking_rely (hQ : Q.Sound E L ready promise) {a : Asking C}
    (ha : a.Ready ready promise s) (hr : E.rely s s') : a.Ready ready promise s' where
  ready := hQ.ready_rely ha.ready hr
  promise h := hQ.promise_rely (ha.promise h) hr
  kept := ha.kept

theorem after (hQ : Q.Sound E L ready promise) {a : Asking C}
    (ha : a.Ready ready promise s) {client : C} (hclient : ready client s')
    (hgrew : Shared.Grew s s') : (a.after Q client).Ready ready promise s' where
  ready := hclient
  promise h := by
    unfold Asking.after at h
    dsimp only at h
    split at h
    · next hstill => exact hQ.still hstill ha.ready hclient hgrew (ha.promise h)
    · cases h
  kept := ha.kept

theorem grew (hQ : Q.Sound E L ready promise) {α : Type} {p : Code α}
    {post : α → Shared → Prop} (h : E.wp (Shared.exec L l) p post s) :
    E.wp (Shared.exec L l) p (fun a s' => post a s' ∧ Shared.Grew s s') s :=
  Env.wp_track h (fun _ _ => hQ.rely_grew) (fun _ _ => hQ.guar_grew)
    fun _ _ _ => Shared.Grew.trans

theorem call_ready (hQ : Q.Sound E L ready promise) {call : C → Label → Code C → Prop}
    (hcalls : ∀ c l p s, call c l p → E.inv s → ready c s →
      E.wp (Shared.exec L l) p ready s) {a : Asking C} {p : Code (Asking C)}
    (hcall : AskingCall Q call a l p) (hinv : E.inv s) (ha : a.Ready ready promise s) :
    E.wp (Shared.exec L l) p (Asking.Ready ready promise) s := by
  cases hcall with
  | ask =>
      refine Env.wp_bind (Env.wp_mono (hQ.query a.client s ha.ready) ?_)
      intro r s₁ _ ⟨hready, hpromise⟩
      refine Env.wp_ret fun s₂ hr _ => ⟨hQ.ready_rely hready hr, fun h => ?_, ha.kept⟩
      exact hQ.promise_rely (hpromise (Option.some.inj h)) hr
  | call _ p hp =>
      refine Env.wp_bind (Env.wp_mono (hQ.grew (hcalls _ l p s hp hinv ha.ready)) ?_)
      intro client s₁ _ ⟨hclient, hgrew⟩
      exact Env.wp_ret fun s₂ hr _ => hQ.asking_rely (hQ.after ha hclient hgrew) hr
  | attempt _ p hp =>
      refine Env.wp_bind (Env.wp_mono (hQ.grew (hQ.attempt _ l p s hp hinv ha.ready)) ?_)
      intro client s₁ _ ⟨⟨hclient, hsucceeds⟩, hgrew⟩
      refine Env.wp_ret fun s₂ hr _ => ?_
      have hafter := hQ.asking_rely (hQ.after ha hclient hgrew) hr
      refine ⟨hafter.ready, hafter.promise, fun x hx hanswer => ?_⟩
      rcases List.mem_append.mp hx with hx | hx
      · exact ha.kept x hx hanswer
      · rw [List.mem_singleton.mp hx] at hanswer ⊢
        exact hsucceeds (ha.promise hanswer)

end Question.Sound

end Asking

/-- `full` answers `false` only if there is room. -/
theorem wp_full (hL : L.Sane) (s : Shared) :
    (producerEnv L host types stepwise).wp (Shared.exec L l) (L.at base).full
      (fun r s' => ProducerRely s s' ∧ (r = false → s'.Room L)) s := by
  refine wp_loadWord (ConsumerRely.refl L) fun s₁ (hr₁ : ProducerRely s s₁) hi₁ => ?_
  refine wp_loadWord (ConsumerRely.refl L) fun s₂ (hr₂ : ProducerRely s₁ s₂) hi₂ => ?_
  refine Env.wp_ret fun s₃ (hr₃ : ProducerRely s₂ s₃) _ =>
    ⟨(hr₁.trans hr₂).trans hr₃, fun hfull => Shared.Room.rely ?_ hr₃⟩
  have hdist : (L.at base).distance (s₁.word (L.at base).head.off)
      (s₂.word (L.at base).tail.off) = s₂.unread :=
    hi₁.counts.distance_loaded hi₂.counts hL (congrArg List.length hr₂.committed) base
  rw [hdist, decide_eq_false_iff_not] at hfull
  exact Shared.room_of_unread hfull

theorem ProducerOps.question_sound {ops : ProducerOps}
    (hops : ops.Sound L host types stepwise base) (hon : ops.On L host types base)
    (hL : L.Sane) (htypes : ∀ T, types T → L.Takes T) (hbase : 16 ∣ base) {full : Code Bool}
    (hfull : full = (L.at base).full) :
    (ops.question types full).Sound (producerEnv L host types stepwise) L
      (Producer.Ready L host types base) fun _ s => s.Room L where
  rely_grew h := ProducerRely.grew h
  guar_grew h := ConsumerRely.grew h
  ready_rely h hr := h.rely hr
  promise_rely h hr := h.rely hr
  still := by
    intro c c' s s' hstill hc hc' hgrew hroom
    have hsent : c.sent.length = c'.sent.length := of_decide_eq_true hstill
    rw [← hc.sent, ← hc'.sent] at hsent
    have htaken := hgrew.taken
    unfold Shared.Room at hroom ⊢
    omega
  query c s hc := by
    show Env.wp _ _ full _ s
    rw [hfull]
    exact Env.wp_mono (wp_full hL s) fun r s' _ ⟨hr, hroom⟩ => ⟨hc.rely hr, hroom⟩
  attempt := by
    intro c l p s ⟨T, hT, hl, hp⟩ _ hc
    subst hl hp
    refine Env.wp_and
      (ProducerCall.ready hops hL htypes (ProducerCall.prepareWrite c T hT) hc) ?_
    rw [hon.prepareWrite T hT]
    refine Env.wp_bind (Env.wp_mono (wp_prepareWrite hL htypes hbase hT) ?_)
    intro r s₁ _ ⟨_, _, hnone⟩
    refine Env.wp_ret fun s₂ _ _ hroom => ?_
    cases r with
    | none => exact absurd hroom (hnone rfl)
    | some p => rfl

/-- `empty` answers `false` only if there is a message. -/
theorem wp_empty {E : Env Shared} (hE : Consuming E L) (hL : L.Sane) (s : Shared) :
    E.wp (Shared.exec L l) (L.at base).empty
      (fun r s' => E.rely s s' ∧ (r = false → s'.Waiting)) s := by
  refine wp_loadWord hE.guar fun s₁ hr₁ hi₁ => ?_
  refine wp_loadWord hE.guar fun s₂ hr₂ hi₂ => ?_
  refine Env.wp_ret fun s₃ hr₃ _ =>
    ⟨E.rely_trans _ _ _ (E.rely_trans _ _ _ hr₁ hr₂) hr₃, fun hempty => ?_⟩
  have hc₁ := hE.counts hi₁
  have htail : s₁.word L.tailOff = s₂.word L.tailOff :=
    hc₁.tail_eq (hE.counts hi₂) (hE.rely hr₂).taken
  have hne : ¬ s₁.word L.headOff = s₂.word L.tailOff := of_decide_eq_false hempty
  rw [← htail] at hne
  have hwaiting : s₁.Waiting := Nat.lt_of_le_of_ne hc₁.le fun heq =>
    hne ((hc₁.cursors_eq_iff hL).mpr heq).symm
  exact hwaiting.commitsOnly (hE.rely (E.rely_trans _ _ _ hr₂ hr₃))

/-- A handle's `empty` and `peek_read` are the ring's, or it is attached to
nothing. -/
structure ConsumerOps.On {H : Type} (ops : ConsumerOps H) (empty : H → Code Bool)
    (L : Layout) (host : Endian) (types : MsgType → Prop) (held valid : H → Prop) : Prop where
  attached : ∀ h, held h → valid h → ∃ base, 16 ∣ base ∧ empty h = (L.at base).empty ∧
    ∀ T v, types T → ops.peekRead h T v = (L.at base).peekRead host T v
  unattached : ∀ h, ¬ valid h → empty h = pure true

theorem ConsumerOps.question_sound {H : Type} [DecidableEq H] {held valid : H → Prop}
    {ops : ConsumerOps H} {T : MsgType} (hops : ops.Sound L host (· = T) held valid)
    {empty : H → Code Bool} (hon : ops.On empty L host (· = T) held valid)
    (hL : L.Sane) (hT : L.Takes T) :
    (ops.question (· = T) empty).Sound (consumerEnv L host (· = T) false) L
      (Consumer.Ready L held valid) fun c s => valid c.handle ∧ s.Waiting where
  rely_grew h := ConsumerRely.grew h
  guar_grew h := ProducerRely.grew h
  ready_rely h hr := h.quiet (ConsumerRely.quiet hr)
  promise_rely h hr := ⟨h.1, h.2.commitsOnly (ConsumerRely.commitsOnly hr)⟩
  still := by
    intro c c' s s' hstill hc hc' hgrew ⟨hvalid, hwaiting⟩
    obtain ⟨hcount, hhandle⟩ : c.count = c'.count ∧ c.handle = c'.handle :=
      of_decide_eq_true hstill
    rw [hc.count, hc'.count] at hcount
    have hcom := hgrew.committed
    refine ⟨hhandle ▸ hvalid, ?_⟩
    unfold Shared.Waiting at hwaiting ⊢
    omega
  query c s hc := by
    show Env.wp _ _ (empty c.handle) _ s
    by_cases hvalid : valid c.handle
    · obtain ⟨base, _, heq, _⟩ := hon.attached c.handle hc.held hvalid
      rw [heq]
      exact Env.wp_mono (wp_empty consuming hL s) fun r s' _ ⟨hr, hwaiting⟩ =>
        ⟨hc.quiet (ConsumerRely.quiet hr), fun h => ⟨hvalid, hwaiting h⟩⟩
    · rw [hon.unattached c.handle hvalid]
      exact Env.wp_ret fun s' hr _ =>
        ⟨hc.quiet (ConsumerRely.quiet hr), fun h => by cases h⟩
  attempt := by
    intro c l p s ⟨U, v, hU, hl, hp⟩ hinv hc
    have hinv : s.Inv L host (· = T) false := hinv
    subst hl hp hU
    refine Env.wp_and (ConsumerCall.ready hops (takes_only hT)
      (ConsumerCall.peekRead c U v rfl) hinv hc) ?_
    by_cases hvalid : valid c.handle
    · obtain ⟨base, hbase, _, heq⟩ := hon.attached c.handle hc.held hvalid
      rw [heq U v rfl]
      refine Env.wp_bind (Env.wp_mono
        (wp_peekRead hL (takes_only hT) only_id hbase rfl v) ?_)
      intro r s₁ _ ⟨_, _, hnone⟩
      refine Env.wp_ret fun s₂ _ _ ⟨_, hwaiting⟩ => ?_
      cases r with
      | none =>
          obtain ⟨V, payload, hfront⟩ := Shared.exists_front hwaiting
          obtain rfl : V = U := hinv.typed _ (List.mem_of_getElem? hfront)
          exact absurd hfront (hnone rfl payload)
      | some p => rfl
    · refine Env.wp_mono (ConsumerCall.ready hops (takes_only hT)
        (ConsumerCall.peekRead c U v rfl) hinv hc) ?_
      intro c' s₁ _ _ ⟨h, _⟩
      exact absurd h hvalid

namespace IpcEnvelopeRingBuffer

def Shows (L : Layout) (pv : PacketView) (s : Shared) : Prop :=
  ∃ T payload crc p, s.Front T payload ∧ (crc = 0 ∨ crc = crc32 payload) ∧
    p.off = L.slotOff s.taken.length + Header.size ∧ pv = ⟨T.header crc, some p, T.size⟩

theorem Shows.quiet {pv : PacketView} (h : Shows L pv s) (hq : Quiet s s') :
    Shows L pv s' := by
  obtain ⟨T, payload, crc, p, hfront, hcrc, hp, hpv⟩ := h
  refine ⟨T, payload, crc, p, hfront.quiet hq, hcrc, ?_, hpv⟩
  rw [hq.taken]
  exact hp

theorem wp_peekPacketAt (hL : L.Sane) (htypes : ∀ T, types T → L.Takes T) (v : Bool)
    (s : Shared) :
    (consumerEnv L host types stepwise).wp (Shared.exec L l)
      (peekPacketAt host (L.at base) v)
      (fun pv s' => ConsumerRely L s s' ∧ (pv.isValid → s'.Waiting ∧ Shows L pv s') ∧
        (s.Waiting → pv.isValid)) s := by
  have hlook : (consumerEnv L host types stepwise).wp (Shared.exec L l)
      (peekPacketAt host (L.at base) v)
      (fun pv s' => ConsumerRely L s s' ∧ (pv.isValid → s'.Waiting)) s := by
    refine wp_look consuming hL (fun pv : PacketView => pv.isValid) ?_
      (fun tail t => Env.wp_mono (wp_silent_env ProducerRely.refl
        (packetAt_always (fun _ => trivial) _ _ v) t) fun _ _ _ h => h.2) s
    decide
  have hshows : (consumerEnv L host types stepwise).wp (Shared.exec L l)
      (peekPacketAt host (L.at base) v)
      (fun pv s' => (pv.isValid → Shows L pv s') ∧ (s.Waiting → pv.isValid)) s := by
    refine wp_cursors hL (fun s₁ n _ hq heq => ?_)
      fun s₁ tail head U payload hi₁ hq hf hne hslot => ?_
    · rw [if_pos rfl]
      refine Env.wp_ret fun s₂ _ _ => ⟨fun h => ?_, fun hwaiting => ?_⟩
      · exact absurd h (by decide)
      · have hcom := hq.committed.length_le
        have hlt : s.taken.length < s.committed.length := hwaiting
        rw [hq.taken] at heq
        omega
    · rw [if_neg hne, hslot]
      obtain ⟨hfits, crc, hcrc, hpk⟩ := hi₁.front_packet htypes hf
      have hU := htypes U (hi₁.typed _ (List.mem_of_getElem? hf))
      have hcarries : Carries host U (L.slotOff s₁.taken.length)
          (s₁.window (L.slotOff s₁.taken.length) L.slotSize).byte L.slotSize v :=
        (carries_packet hU.small hpk hcrc).mpr ⟨hfits, rfl, rfl, rfl⟩
      obtain ⟨hsound, -, -, hlen⟩ := (carries_iff
        (p := ⟨base, L.slotOff s₁.taken.length⟩)).mp hcarries
      refine wp_window hf.lt
        (packetAt_loadsIn (p := ⟨base, L.slotOff s₁.taken.length⟩)) fun s₂ _ hq₂ => ?_
      have hrun := run_packetAt_ok hsound
      have hsize : (L.at base).slotSize = L.slotSize := rfl
      rw [hsize, hrun]
      have hshown : Shows L (viewOf host ⟨base, L.slotOff s₁.taken.length⟩
          (s₁.window (L.slotOff s₁.taken.length) L.slotSize).byte) s₁ := by
        refine ⟨U, payload, crc, ⟨base, L.slotOff s₁.taken.length + Header.size⟩, hf, hcrc,
          rfl, ?_⟩
        dsimp only at hlen
        rw [(packet_parts hpk).1] at hlen
        simp only [viewOf, (packet_parts hpk).1, hlen]
        rfl
      exact ⟨fun _ => hshown.quiet hq₂, fun _ => viewOf_isValid hsound⟩
  refine Env.wp_mono (Env.wp_and hlook hshows) ?_
  intro pv s₁ _ hboth
  obtain ⟨⟨hr, hwaiting⟩, hshown, hvalid⟩ := hboth
  exact ⟨hr, fun h => ⟨hwaiting h, hshown h⟩, hvalid⟩

theorem reading (hL : L.Sane) (htypes : ∀ T, types T → L.Takes T) :
    Reading (consumerEnv L host types false) L host base (Shows L) where
  toConsuming := consuming
  packet _ v s := Env.wp_mono (wp_peekPacketAt hL htypes v s) fun _ _ _ h => ⟨h.1, h.2.1⟩
  packet_rely h hr := h.quiet (ConsumerRely.quiet hr)
  commitRead _ s hwaiting :=
    Env.wp_mono (wp_commitRead hL htypes hwaiting fun h => by cases h) fun _ _ _ h => h.1

variable {MaxPayloadSize Capacity : Nat} {h : IpcHandle}

theorem readerQuestion_sound (hL : L.Sane) (htypes : ∀ T, types T → L.Takes T)
    (hring : h.ring (params MaxPayloadSize Capacity) = some (L.at base)) :
    (readerQuestion MaxPayloadSize Capacity host h).Sound (consumerEnv L host types false) L
      (Reader.Ready (Shows L)) fun _ s => s.Waiting where
  rely_grew h := ConsumerRely.grew h
  guar_grew h := ProducerRely.grew h
  ready_rely h hr := h.rely (@reading L host types base hL htypes) hr
  promise_rely h hr := h.commitsOnly (ConsumerRely.commitsOnly hr)
  still := by
    intro c c' s s' hstill hc hc' hgrew hwaiting
    have hcount : c.count = c'.count := of_decide_eq_true hstill
    rw [hc.count, hc'.count] at hcount
    have hcom := hgrew.committed
    unfold Shared.Waiting at hwaiting ⊢
    omega
  query c s hc := by
    simp only [readerQuestion, empty, IpcHandle.empty, hring]
    refine Env.wp_mono (wp_empty consuming hL s) fun r s' _ hr => ⟨?_, hr.2⟩
    exact hc.rely (@reading L host types base hL htypes) hr.1
  attempt := by
    intro c l p s hask _ hc
    obtain ⟨v, hl, hp⟩ := hask
    subst hl hp
    refine Env.wp_and (ReaderCall.ready (reading hL htypes) hL hring
      (ReaderCall.peekPacket c v) hc) ?_
    simp only [peekPacket, hring]
    refine Env.wp_bind (Env.wp_mono (wp_peekPacketAt hL htypes v s) ?_)
    intro pv s₁ _ hshown
    refine Env.wp_ret fun s₂ _ _ hwaiting => ?_
    simp only [readerQuestion, if_pos (hshown.2.2 hwaiting)]
    rfl

end IpcEnvelopeRingBuffer

end Sinew
