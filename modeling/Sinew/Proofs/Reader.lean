import Sinew.Proofs.Wordless

/-!
# The reader of the bus

A reader finds a message before it takes it, in whichever of the ways the class
offers. Each way is a look at the slot at `tail` that only reads, so in any
environment where the other side only commits, what was found is still there
when the reader takes it.
-/

namespace Sinew.IpcEnvelopeRingBuffer

open Lib

variable {L : Layout} {host : Endian} {base : Nat} {s s' : Shared} {l : Label}

/-- An environment for a reader that wants to know `Q` of the packets it is shown. -/
structure Reading (E : Env Shared) (L : Layout) (host : Endian) (base : Nat)
    (Q : PacketView → Shared → Prop) : Prop extends Consuming E L where
  packet : ∀ (l : Label) (v : Bool) (s : Shared),
    E.wp (Shared.exec L l) (peekPacketAt host (L.at base) v)
      (fun pv s' => E.rely s s' ∧ (pv.isValid → s'.Waiting ∧ Q pv s')) s
  packet_rely : ∀ {pv s s'}, Q pv s → E.rely s s' → Q pv s'
  commitRead : ∀ (l : Label) (s : Shared), s.Waiting →
    E.wp (Shared.exec L l) (L.at base).commitRead
      (fun _ s' => s'.taken.length = s.taken.length + 1) s

/-- A reader that has found a message has one to take, and knows `Q` of the
packet it is shown. -/
structure Reader.Ready (Q : PacketView → Shared → Prop) (c : Reader) (s : Shared) : Prop where
  count : c.count = s.taken.length
  found : c.found.isSome → s.Waiting
  packet : ∀ pv, c.found = some (.packet pv) → Q pv s

section Reader

variable {E : Env Shared} {Q : PacketView → Shared → Prop} {c : Reader}

theorem Reader.Ready.rely (hE : Reading E L host base Q) (h : c.Ready Q s)
    (hr : E.rely s s') : c.Ready Q s' where
  count := h.count.trans (hE.rely hr).taken.symm
  found hf := (h.found hf).commitsOnly (hE.rely hr)
  packet pv hpv := hE.packet_rely (h.packet pv hpv) hr

theorem Reader.Ready.nothing (hcount : c.count = s.taken.length) (hfound : c.found = none) :
    c.Ready Q s where
  count := hcount
  found hf := by
    rw [hfound] at hf
    cases hf
  packet pv hf := by
    rw [hfound] at hf
    cases hf

theorem Reading.served (hE : Reading E L host base Q) (hwaiting : s.Waiting) :
    E.wp (Shared.exec L l) (do
      (L.at base).commitRead
      return some true)
      (fun r s' => s'.taken.length = s.taken.length + if r = some true then 1 else 0) s := by
  refine Env.wp_bind (Env.wp_mono (hE.commitRead l s hwaiting) ?_)
  intro _ s₁ _ htaken
  refine Env.wp_ret fun s₂ hr _ => ?_
  rw [(hE.rely hr).taken, htaken]
  rfl

/-- A look at the slot that only reads. -/
theorem Reading.look (hE : Reading E L host base Q) (hL : L.Sane) {α : Type} {empty : α}
    {look : Nat → Code α} (found : α → Prop) (hempty : ¬ found empty)
    (hlook : ∀ tail, (look tail).Always Ev.Silent Paged fun _ => True) (s : Shared) :
    E.wp (Shared.exec L l) (do
      let tail ← loadWord (L.at base).tail
      let head ← loadWord (L.at base).head
      if tail = head then
        return empty
      look tail) (fun r s' => E.rely s s' ∧ (found r → s'.Waiting)) s :=
  wp_look hE.toConsuming hL found hempty
    (fun tail s => Env.wp_mono (wp_silent_env hE.guar (hlook tail) s) fun _ _ _ h => h.2) s

variable {MaxPayloadSize Capacity : Nat} {h : IpcHandle}

theorem ReaderCall.ready (hE : Reading E L host base Q) (hL : L.Sane)
    (hring : h.ring (params MaxPayloadSize Capacity) = some (L.at base)) {p : Code Reader}
    (hcall : ReaderCall MaxPayloadSize Capacity host h c l p) (hc : c.Ready Q s) :
    E.wp (Shared.exec L l) p (Reader.Ready Q) s := by
  have hdispatch : ∀ msgTypes visitor v, Visitor.OnlyReads visitor →
      E.wp (Shared.exec L l)
        (IpcEnvelopeRingBuffer.dispatch MaxPayloadSize Capacity host h msgTypes visitor v)
        (fun r s' => E.rely s s' ∧ (r = some true → s'.Waiting)) s := by
    intro msgTypes visitor v hv
    simp only [IpcEnvelopeRingBuffer.dispatch, hring]
    exact hE.look hL (fun r : Option Bool => r = some true) (by decide)
      (fun _ => dispatch_always (fun _ => trivial) (hv.always fun _ => trivial) _ _ _ _) s
  have hpeekMsg : ∀ Msg v, E.wp (Shared.exec L l) ((L.at base).peekRead host Msg v)
      (fun r s' => E.rely s s' ∧ (r.isSome → s'.Waiting)) s := fun Msg v =>
    hE.look hL (fun r : Option Ptr => r.isSome) (by simp)
      (fun _ => view_always (fun _ => trivial) _ _ _) s
  cases hcall with
  | peekPacket v =>
      simp only [IpcEnvelopeRingBuffer.peekPacket, hring]
      refine Env.wp_bind (Env.wp_mono (hE.packet _ v s) ?_)
      intro pv s₁ _ ⟨hr₁, hvalid⟩
      refine Env.wp_ret fun s₂ hr₂ _ => ?_
      have hcount := hc.count.trans (hE.rely (E.rely_trans _ _ _ hr₁ hr₂)).taken.symm
      cases hpv : pv.isValid with
      | false => exact .nothing hcount rfl
      | true =>
          obtain ⟨hwaiting, hQ⟩ := hvalid hpv
          refine ⟨hcount, fun _ => hwaiting.commitsOnly (hE.rely hr₂), fun pv' hf => ?_⟩
          obtain rfl := Found.packet.inj (Option.some.inj hf)
          exact hE.packet_rely hQ hr₂
  | peekMsg Msg v =>
      simp only [IpcEnvelopeRingBuffer.peekMsg, hring]
      refine Env.wp_bind (Env.wp_mono (hpeekMsg Msg v) ?_)
      intro r s₁ _ ⟨hr₁, hwaiting⟩
      refine Env.wp_ret fun s₂ hr₂ _ =>
        ⟨hc.count.trans (hE.rely (E.rely_trans _ _ _ hr₁ hr₂)).taken.symm, fun hf => ?_,
          fun pv hf => ?_⟩
      · exact (hwaiting (by simpa using hf)).commitsOnly (hE.rely hr₂)
      · obtain ⟨_, _, hfound⟩ := Option.map_eq_some_iff.mp hf
        cases hfound
  | dispatch msgTypes visitor v hv =>
      refine Env.wp_bind (Env.wp_mono (hdispatch msgTypes visitor v hv) ?_)
      intro r s₁ _ ⟨hr₁, hwaiting⟩
      refine Env.wp_ret fun s₂ hr₂ _ => ?_
      have hcount := hc.count.trans (hE.rely (E.rely_trans _ _ _ hr₁ hr₂)).taken.symm
      split
      · next hr =>
          refine ⟨hcount, fun _ => (hwaiting hr).commitsOnly (hE.rely hr₂), fun pv hf => ?_⟩
          cases hf
      · exact .nothing hcount rfl
  | commitRead x hfound =>
      simp only [IpcEnvelopeRingBuffer.commitRead, hring]
      refine Env.wp_bind (Env.wp_mono
        (hE.commitRead _ s (hc.found (by rw [hfound]; rfl))) ?_)
      intro _ s₁ _ htaken
      refine Env.wp_ret fun s₂ hr₂ _ => .nothing ?_ rfl
      rw [(hE.rely hr₂).taken, htaken, ← hc.count]
  | dispatchAndCommit msgTypes visitor v hv =>
      refine Env.wp_bind (Env.wp_bind (Env.wp_mono (hdispatch msgTypes visitor v hv) ?_))
      intro r s₁ _ ⟨hr₁, hwaiting⟩
      split
      · next hr =>
          simp only [IpcEnvelopeRingBuffer.commitRead, hring]
          refine Env.wp_mono (hE.served (hwaiting hr)) fun r s₂ _ htaken => ?_
          refine Env.wp_ret fun s₃ hr₃ _ => .nothing ?_ rfl
          rw [(hE.rely hr₃).taken, htaken, (hE.rely hr₁).taken, ← hc.count]
          split <;> rfl
      · next hr =>
          refine Env.wp_ret fun s₂ hr₂ _ => ?_
          refine Env.wp_ret fun s₃ hr₃ _ => .nothing ?_ rfl
          have hrely := E.rely_trans _ _ _ (E.rely_trans _ _ _ hr₁ hr₂) hr₃
          rw [(hE.rely hrely).taken, if_neg hr, ← hc.count]
  | consume Msg func v hv =>
      simp only [IpcEnvelopeRingBuffer.consume, hring]
      refine Env.wp_bind (Env.wp_bind (Env.wp_mono (hpeekMsg Msg v) ?_))
      intro r s₁ _ ⟨hr₁, hwaiting⟩
      cases r with
      | none =>
          refine Env.wp_ret fun s₂ hr₂ _ => ?_
          refine Env.wp_ret fun s₃ hr₃ _ => .nothing ?_ rfl
          have hrely := E.rely_trans _ _ _ (E.rely_trans _ _ _ hr₁ hr₂) hr₃
          rw [(hE.rely hrely).taken, if_neg (by decide), ← hc.count]
      | some msg =>
          have hfunc : (func Msg msg).Always Ev.Silent Paged fun _ => True :=
            hv.always (fun _ => trivial) Msg msg
          refine Env.wp_bind (Env.wp_mono (wp_silent_env hE.guar hfunc s₁) ?_)
          intro outcome s₂ _ ⟨_, hr₂⟩
          have hr := E.rely_trans _ _ _ hr₁ hr₂
          cases outcome with
          | threw =>
              refine Env.wp_ret fun s₃ hr₃ _ => ?_
              refine Env.wp_ret fun s₄ hr₄ _ => .nothing ?_ rfl
              have hrely := E.rely_trans _ _ _ (E.rely_trans _ _ _ hr hr₃) hr₄
              rw [(hE.rely hrely).taken, if_neg (by decide), ← hc.count]
          | returned =>
              refine Env.wp_mono
                (hE.served ((hwaiting rfl).commitsOnly (hE.rely hr₂))) fun r s₃ _ htaken => ?_
              refine Env.wp_ret fun s₄ hr₄ _ => .nothing ?_ rfl
              rw [(hE.rely hr₄).taken, htaken, (hE.rely hr).taken, ← hc.count]
              split <;> rfl

end Reader

end Sinew.IpcEnvelopeRingBuffer
