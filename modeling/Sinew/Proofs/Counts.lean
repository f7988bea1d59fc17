import Sinew.Proofs.Slots
import Sinew.Proofs.Wordless

/-!
# The counters alone

How many messages are in a ring depends on no byte of it, and so not on what
the messages are: a ring of a type it can never serve still counts right. The
logic here is the one of the sessions with the bytes left out. Each side relies
on the other moving its own counter only, a store of a counter is guarded by
the check that came before it, and everything else a call does is wordless.
-/

namespace Sinew

open Lib

variable {L : Layout} {host : Endian} {types : MsgType → Prop} {base : Nat}
  {s s' s'' : Shared} {T : MsgType} {l : Label} {α : Type}

/-- Nothing has happened that counts. -/
structure SameCounts (s s' : Shared) : Prop where
  word : s'.word = s.word
  committed : s'.committed = s.committed
  taken : s'.taken = s.taken

theorem SameCounts.commitsOnly (h : SameCounts s s') : CommitsOnly s s' :=
  ⟨by rw [h.taken], by rw [h.committed]⟩

theorem SameCounts.takesOnly (h : SameCounts s s') : TakesOnly s s' :=
  ⟨by rw [h.committed], by rw [h.taken]⟩

theorem Shared.Counts.same (h : s.Counts L) (hi : SameCounts s s') : s'.Counts L := by
  refine ⟨?_, ?_, ?_, ?_⟩
  · rw [hi.word, hi.committed, h.head]
  · rw [hi.word, hi.taken, h.tail]
  · rw [hi.committed, hi.taken]
    exact h.le
  · rw [hi.committed, hi.taken]
    exact h.room

theorem Shared.Room.takesOnly (h : s.Room L) (hr : TakesOnly s s') : s'.Room L := by
  have := hr.taken
  unfold Shared.Room at h ⊢
  rw [hr.committed]
  omega

def producerCounts (L : Layout) : Env Shared where
  inv := Shared.Counts L
  rely := TakesOnly
  guar := CommitsOnly
  rely_refl := TakesOnly.refl
  rely_trans _ _ _ := TakesOnly.trans

def consumerCounts (L : Layout) : Env Shared where
  inv := Shared.Counts L
  rely := CommitsOnly
  guar := TakesOnly
  rely_refl := CommitsOnly.refl
  rely_trans _ _ _ := CommitsOnly.trans

theorem Ev.Wordless.same {e : Ev} (h : e.Wordless) (s : Shared) :
    SameCounts s (Shared.exec L l s e).2 := by
  cases e with
  | storeWord p v => exact h.elim
  | _ => exact ⟨rfl, rfl, rfl⟩

/-- A wordless program counts for nothing, to either side. -/
theorem wp_wordless {E : Env Shared}
    (hsame : ∀ s s', SameCounts s s' → E.inv s → E.inv s' ∧ E.guar s s' ∧ E.rely s s')
    {p : Code α} {R : α → Prop} (h : p.Always Ev.Wordless Paged R) (s : Shared) :
    E.wp (Shared.exec L l) p (fun a s' => R a ∧ E.rely s s') s := by
  have hgo : ∀ t, E.rely s t →
      E.wp (Shared.exec L l) p (fun a s' => R a ∧ E.rely s s') t := by
    induction p with
    | ret a => exact fun t ht t' hr _ => ⟨h, E.rely_trans _ _ _ ht hr⟩
    | op e k ih =>
        intro t ht t' hr hi
        obtain ⟨hinv, hguar, hrely⟩ := hsame t' _ (h.1.same t') hi
        refine ⟨hinv, hguar, ih _ (h.2 _ (Shared.exec_paged t' e)) _ ?_⟩
        exact E.rely_trans _ _ _ (E.rely_trans _ _ _ ht hr) hrely
  exact hgo s (E.rely_refl s)

theorem wp_wordless_producer {p : Code α} (h : Wordless p) (s : Shared) :
    (producerCounts L).wp (Shared.exec L l) p (fun _ s' => TakesOnly s s') s :=
  Env.wp_mono (wp_wordless (E := producerCounts L)
    (fun _ _ hi hinv => ⟨Shared.Counts.same hinv hi, hi.commitsOnly, hi.takesOnly⟩) h s)
    fun _ _ _ h => h.2

theorem wp_wordless_consumer {p : Code α} {R : α → Prop}
    (h : p.Always Ev.Wordless Paged R) (s : Shared) :
    (consumerCounts L).wp (Shared.exec L l) p (fun a s' => R a ∧ CommitsOnly s s') s :=
  wp_wordless (E := consumerCounts L)
    (fun _ _ hi hinv => ⟨Shared.Counts.same hinv hi, hi.takesOnly, hi.commitsOnly⟩) h s

theorem consuming_counts : Consuming (consumerCounts L) L :=
  ⟨fun h => h, fun h => h, TakesOnly.refl⟩

theorem count_prepareWrite (hL : L.Sane) (s : Shared) :
    (producerCounts L).wp (Shared.exec L l) ((L.at base).prepareWrite host T)
      (fun r s' => TakesOnly s s' ∧ (r.isSome → s'.Room L)) s := by
  refine wp_loadWord CommitsOnly.refl fun s₁ (hr₁ : TakesOnly s s₁) (hi₁ : s₁.Counts L) => ?_
  refine wp_loadWord CommitsOnly.refl fun s₂ (hr₂ : TakesOnly s₁ s₂) (hi₂ : s₂.Counts L) => ?_
  have hdist : (L.at base).distance (s₁.word (L.at base).head.off)
      (s₂.word (L.at base).tail.off) = s₂.unread :=
    hi₁.distance_loaded hi₂ hL hr₂.committed base
  rw [hdist]
  split
  · refine Env.wp_ret fun s₃ (hr₃ : TakesOnly s₂ s₃) _ =>
      ⟨(hr₁.trans hr₂).trans hr₃, fun h => by cases h⟩
  · next hfull =>
      have hroom : s₂.Room L := Shared.room_of_unread hfull
      refine Env.wp_mono (wp_wordless_producer (prepare_within _).wordless s₂) ?_
      intro r s₃ _ hr₃
      exact ⟨(hr₁.trans hr₂).trans hr₃, fun _ => hroom.takesOnly hr₃⟩

theorem count_commitWith (hL : L.Sane) (hroom : s.Room L) {finish : Ptr → Code α}
    (hfinish : ∀ p : Ptr, StoresIn p.off (p.off + Header.size) (finish p))
    (os : OsAnswers) :
    (producerCounts L).wp (Shared.exec L { writes := some T, os := os })
      (do
        let head ← loadWord (L.at base).head
        let _ ← finish ((L.at base).slot head)
        storeWord (L.at base).head ((head + 1) % 2 ^ (L.at base).w))
      (fun _ s' => s'.committed.length = s.committed.length + 1) s := by
  refine wp_loadWord CommitsOnly.refl fun s₁ (hr₁ : TakesOnly s s₁) (hi₁ : s₁.Counts L) => ?_
  refine Env.wp_bind (Env.wp_mono (wp_wordless_producer (hfinish _).wordless s₁) ?_)
  intro _ s₂ _ hr₂
  refine Env.wp_event fun s₃ (hr₃ : TakesOnly s₂ s₃) (hi₃ : s₃.Counts L) => ?_
  have hr := (hr₁.trans hr₂).trans hr₃
  have hhead : s₁.word (L.at base).head.off = s₃.word L.headOff :=
    hi₁.head_eq hi₃ (hr₂.trans hr₃).committed
  obtain ⟨hinv, htaken, hcom⟩ := hi₃.commit hL (hroom.takesOnly hr) T
  rw [hhead]
  refine ⟨hinv, ⟨congrArg List.length htaken, ?_⟩, fun s₄ (hr₄ : TakesOnly _ s₄) _ => ?_⟩
  · exact Nat.le_trans (Nat.le_succ _) (Nat.le_of_eq hcom.symm)
  · rw [hr₄.committed]
    exact hcom.trans (by rw [hr.committed])

/-- What the producer functions of a class are made of: those of the ring, and a
`commit_write` that does something to the header in the slot. -/
structure ProducerOps.On (ops : ProducerOps) (L : Layout) (host : Endian)
    (types : MsgType → Prop) (base : Nat) : Prop where
  prepareWrite : ∀ T, types T → ops.prepareWrite T = (L.at base).prepareWrite host T
  commitWrite : ∀ T c, ∃ (α : Type) (finish : Ptr → Code α),
    (∀ p : Ptr, StoresIn p.off (p.off + Header.size) (finish p)) ∧
    ops.commitWrite T c = do
      let head ← loadWord (L.at base).head
      let _ ← finish ((L.at base).slot head)
      storeWord (L.at base).head ((head + 1) % 2 ^ (L.at base).w)
  push : ∀ T value c, types T →
    ops.push T value c = (L.at base).pushWith host (ops.commitWrite T c) T value

namespace ProducerOps.On

variable {ops : ProducerOps}

theorem count_commitWrite (hops : ops.On L host types base) (hL : L.Sane)
    (hroom : s.Room L) (T : MsgType) (c : Bool) (os : OsAnswers) :
    (producerCounts L).wp (Shared.exec L { writes := some T, os := os })
      (ops.commitWrite T c)
      (fun _ s' => s'.committed.length = s.committed.length + 1) s := by
  obtain ⟨α, finish, hfinish, heq⟩ := hops.commitWrite T c
  rw [heq]
  exact count_commitWith hL hroom hfinish os

theorem count_push (hops : ops.On L host types base) (hL : L.Sane) (hT : types T)
    (value : List UInt8) (c : Bool) (os : OsAnswers) (s : Shared) :
    (producerCounts L).wp (Shared.exec L { writes := some T, os := os })
      (ops.push T value c)
      (fun r s' => s'.committed.length = s.committed.length + if r then 1 else 0) s := by
  rw [hops.push T value c hT]
  refine Env.wp_bind (Env.wp_mono (count_prepareWrite hL s) ?_)
  intro r s₁ _ ⟨hr₁, hroom⟩
  cases r with
  | none =>
      refine Env.wp_ret fun s₂ (hr₂ : TakesOnly s₁ s₂) _ => ?_
      exact (hr₁.trans hr₂).committed
  | some p =>
      refine Env.wp_bind (Env.wp_mono (wp_wordless_producer
        (storeBytes_always (fun _ _ => trivial) _ _) s₁) ?_)
      intro _ s₂ _ hr₂
      refine Env.wp_bind (Env.wp_mono
        (hops.count_commitWrite hL ((hroom rfl).takesOnly hr₂) T c os) ?_)
      intro _ s₃ _ hcom
      refine Env.wp_ret fun s₄ (hr₄ : TakesOnly s₃ s₄) _ => ?_
      rw [hr₄.committed, hcom, (hr₁.trans hr₂).committed]
      rfl

end ProducerOps.On

/-- A producer that has a draft has room for it. -/
structure Producer.Counted (L : Layout) (c : Producer) (s : Shared) : Prop where
  sent : s.committed.length = c.sent.length
  draft : c.draft.isSome → s.Room L

theorem Producer.Counted.rely {c : Producer} (h : c.Counted L s) (hr : TakesOnly s s') :
    c.Counted L s' :=
  ⟨hr.committed.trans h.sent, fun hd => (h.draft hd).takesOnly hr⟩

theorem ProducerCall.counted {ops : ProducerOps} (hops : ops.On L host types base)
    (hL : L.Sane) {c : Producer} {p : Code Producer} (hcall : ProducerCall ops types c l p)
    (hc : c.Counted L s) :
    (producerCounts L).wp (Shared.exec L l) p (Producer.Counted L) s := by
  cases hcall with
  | prepareWrite T hT =>
      rw [hops.prepareWrite T hT]
      refine Env.wp_bind (Env.wp_mono (count_prepareWrite hL s) ?_)
      intro r s₁ _ ⟨hr₁, hroom⟩
      refine Env.wp_ret fun s₂ (hr₂ : TakesOnly s₁ s₂) _ =>
        ⟨(hr₁.trans hr₂).committed.trans hc.sent, fun hd => ?_⟩
      exact (hroom (by simpa using hd)).takesOnly hr₂
  | writeByte d i b hd hi =>
      have hstore : Wordless (store (d.payload.add i) b) := ⟨trivial, fun _ _ => trivial⟩
      refine Env.wp_bind (Env.wp_mono (wp_wordless_producer hstore s) ?_)
      intro _ s₁ _ hr₁
      refine Env.wp_ret fun s₂ (hr₂ : TakesOnly s₁ s₂) _ =>
        ⟨(hr₁.trans hr₂).committed.trans hc.sent, fun _ => ?_⟩
      exact (hc.draft (by rw [hd]; rfl)).takesOnly (hr₁.trans hr₂)
  | commitWrite d computeCrc hd =>
      have hroom := hc.draft (by rw [hd]; rfl)
      refine Env.wp_bind (Env.wp_mono (hops.count_commitWrite hL hroom d.T computeCrc _) ?_)
      intro _ s₁ _ hcom
      refine Env.wp_ret fun s₂ (hr₂ : TakesOnly s₁ s₂) _ => ⟨?_, fun h => by cases h⟩
      rw [hr₂.committed, hcom, hc.sent, List.length_append]
      rfl
  | push T value computeCrc hT hlen =>
      refine Env.wp_bind (Env.wp_mono (hops.count_push hL hT value computeCrc _ s) ?_)
      intro r s₁ _ hcom
      refine Env.wp_ret fun s₂ (hr₂ : TakesOnly s₁ s₂) _ => ⟨?_, fun h => by cases h⟩
      rw [hr₂.committed, hcom, hc.sent]
      cases r with
      | false => rfl
      | true => simp

theorem count_peekRead (hL : L.Sane) (v : Bool) (s : Shared) :
    (consumerCounts L).wp (Shared.exec L l) ((L.at base).peekRead host T v)
      (fun r s' => CommitsOnly s s' ∧ (r.isSome → s'.Waiting)) s :=
  wp_look consuming_counts hL (fun r : Option Ptr => r.isSome) (by simp)
    (fun _ s => Env.wp_mono
      (wp_wordless_consumer (view_always (fun _ => trivial) _ _ _) s) fun _ _ _ h => h.2) s

theorem count_commitRead (hL : L.Sane) (hsome : s.Waiting) :
    (consumerCounts L).wp (Shared.exec L l) (L.at base).commitRead
      (fun _ s' => s'.taken.length = s.taken.length + 1) s := by
  refine wp_loadWord TakesOnly.refl fun s₁ (hr₁ : CommitsOnly s s₁) (hi₁ : s₁.Counts L) => ?_
  refine Env.wp_event fun s₂ (hr₂ : CommitsOnly s₁ s₂) (hi₂ : s₂.Counts L) => ?_
  have hr := hr₁.trans hr₂
  have htail : s₁.word (L.at base).tail.off = s₂.word L.tailOff :=
    hi₁.tail_eq hi₂ hr₂.taken
  obtain ⟨hinv, hcom, htaken⟩ := hi₂.take hL (hsome.commitsOnly hr) l.writes
  rw [htail]
  refine ⟨hinv, ⟨congrArg List.length hcom, ?_⟩, fun s₃ (hr₃ : CommitsOnly _ s₃) _ => ?_⟩
  · exact Nat.le_trans (Nat.le_succ _) (Nat.le_of_eq htaken.symm)
  · rw [hr₃.taken]
    exact htaken.trans (by rw [hr.taken])

theorem count_pop (hL : L.Sane) (v : Bool) (s : Shared) :
    (consumerCounts L).wp (Shared.exec L l) ((L.at base).pop host T v)
      (fun r s' => s'.taken.length = s.taken.length + if r.isSome then 1 else 0) s := by
  refine Env.wp_bind (Env.wp_mono (count_peekRead hL v s) ?_)
  intro r s₁ _ ⟨hr₁, hsome⟩
  cases r with
  | none =>
      exact Env.wp_ret fun s₂ (hr₂ : CommitsOnly s₁ s₂) _ => (hr₁.trans hr₂).taken
  | some p =>
      refine Env.wp_bind (Env.wp_mono
        (wp_wordless_consumer (loadBytes_always (fun _ => trivial) _ _) s₁) ?_)
      intro _ s₂ _ ⟨_, hr₂⟩
      refine Env.wp_bind (Env.wp_mono
        (count_commitRead hL ((hsome rfl).commitsOnly hr₂)) ?_)
      intro _ s₃ _ htaken
      refine Env.wp_ret fun s₄ (hr₄ : CommitsOnly s₃ s₄) _ => ?_
      rw [hr₄.taken, htaken, (hr₁.trans hr₂).taken]
      rfl

theorem count_served (hL : L.Sane) (hsome : s.Waiting) :
    (consumerCounts L).wp (Shared.exec L l) (do
      (L.at base).commitRead
      return some true)
      (fun r s' => s'.taken.length = s.taken.length + if r = some true then 1 else 0) s := by
  refine Env.wp_bind (Env.wp_mono (count_commitRead hL hsome) ?_)
  intro _ s₁ _ htaken
  refine Env.wp_ret fun s₂ (hr₂ : CommitsOnly s₁ s₂) _ => ?_
  rw [hr₂.taken, htaken]
  rfl

theorem count_consume (hL : L.Sane) {func : Visitor} (hfunc : ∀ p, Wordless (func T p))
    (v : Bool) (s : Shared) :
    (consumerCounts L).wp (Shared.exec L l) ((L.at base).consume host T func v)
      (fun r s' => s'.taken.length = s.taken.length + if r = some true then 1 else 0) s := by
  refine Env.wp_bind (Env.wp_mono (count_peekRead hL v s) ?_)
  intro r s₁ _ ⟨hr₁, hsome⟩
  cases r with
  | none =>
      exact Env.wp_ret fun s₂ (hr₂ : CommitsOnly s₁ s₂) _ => (hr₁.trans hr₂).taken
  | some p =>
      refine Env.wp_bind (Env.wp_mono (wp_wordless_consumer (hfunc p) s₁) ?_)
      intro outcome s₂ _ ⟨_, hr₂⟩
      have hr := hr₁.trans hr₂
      cases outcome with
      | threw =>
          exact Env.wp_ret fun s₃ (hr₃ : CommitsOnly s₂ s₃) _ => (hr.trans hr₃).taken
      | returned =>
          refine Env.wp_mono (count_served hL ((hsome rfl).commitsOnly hr₂)) ?_
          intro r s₃ _ htaken
          rw [htaken, hr.taken]

/-- What is asked of a class's consumer functions. -/
structure ConsumerOps.Counting {H : Type} (ops : ConsumerOps H) (L : Layout)
    (held valid : H → Prop) : Prop where
  peekRead : ∀ h T v l s, held h →
    (consumerCounts L).wp (Shared.exec L l) (ops.peekRead h T v)
      (fun r s' => CommitsOnly s s' ∧ (r.isSome → valid h ∧ s'.Waiting)) s
  commitRead : ∀ h l s, held h → valid h → s.Waiting →
    (consumerCounts L).wp (Shared.exec L l) (ops.commitRead h)
      (fun _ s' => s'.taken.length = s.taken.length + 1) s
  pop : ∀ h T v l s, held h →
    (consumerCounts L).wp (Shared.exec L l) (ops.pop h T v)
      (fun r s' => s'.taken.length = s.taken.length + if r.isSome then 1 else 0) s
  consume : ∀ h T v l s, held h →
    (consumerCounts L).wp (Shared.exec L l) (ops.consume h T record v)
      (fun r s' => s'.taken.length = s.taken.length + if r = some true then 1 else 0) s
  rehandle : ∀ h get l s, held h → ops.rehandle h get →
    (consumerCounts L).wp (Shared.exec L l) get
      (fun h' s' => held h' ∧ CommitsOnly s s') s

/-- A consumer that has peeked at a message has one to take. -/
structure Consumer.Counted {H : Type} (held valid : H → Prop) (c : Consumer H)
    (s : Shared) : Prop where
  held : held c.handle
  count : c.count = s.taken.length
  slot : c.slot.isSome → valid c.handle ∧ s.Waiting

theorem Consumer.Counted.rely {H : Type} {held valid : H → Prop} {c : Consumer H}
    (h : c.Counted held valid s) (hr : CommitsOnly s s') : c.Counted held valid s' :=
  ⟨h.held, h.count.trans hr.taken.symm,
    fun hs => ⟨(h.slot hs).1, (h.slot hs).2.commitsOnly hr⟩⟩

theorem ConsumerCall.counted {H : Type} {held valid : H → Prop} {ops : ConsumerOps H}
    (hops : ops.Counting L held valid) {c : Consumer H} {p : Code (Consumer H)}
    (hcall : ConsumerCall ops types c l p) (hc : c.Counted held valid s) :
    (consumerCounts L).wp (Shared.exec L l) p (Consumer.Counted held valid) s := by
  cases hcall with
  | peekRead T v hT =>
      refine Env.wp_bind (Env.wp_mono (hops.peekRead _ T v _ s hc.held) ?_)
      intro r s₁ _ ⟨hr₁, hsome⟩
      refine Env.wp_ret fun s₂ (hr₂ : CommitsOnly s₁ s₂) _ =>
        ⟨hc.held, hc.count.trans (hr₁.trans hr₂).taken.symm, fun hs => ?_⟩
      obtain ⟨hvalid, hs₁⟩ := hsome (by simpa using hs)
      exact ⟨hvalid, hs₁.commitsOnly hr₂⟩
  | read T payload hslot =>
      refine Env.wp_bind (Env.wp_mono
        (wp_wordless_consumer (loadBytes_always (fun _ => trivial) _ _) s) ?_)
      intro _ s₁ _ ⟨_, hr₁⟩
      refine Env.wp_ret fun s₂ (hr₂ : CommitsOnly s₁ s₂) _ => ?_
      have hc₂ := hc.rely (hr₁.trans hr₂)
      exact ⟨hc₂.held, hc₂.count, hc₂.slot⟩
  | commitRead x hslot =>
      obtain ⟨hvalid, hsome⟩ := hc.slot (by rw [hslot]; rfl)
      refine Env.wp_bind (Env.wp_mono (hops.commitRead _ _ s hc.held hvalid hsome) ?_)
      intro _ s₁ _ htaken
      refine Env.wp_ret fun s₂ (hr₂ : CommitsOnly s₁ s₂) _ =>
        ⟨hc.held, ?_, fun h => by cases h⟩
      rw [hr₂.taken, htaken, hc.count]
  | pop T v hT =>
      refine Env.wp_bind (Env.wp_mono (hops.pop _ T v _ s hc.held) ?_)
      intro r s₁ _ htaken
      refine Env.wp_ret fun s₂ (hr₂ : CommitsOnly s₁ s₂) _ => ?_
      have hcount := hr₂.taken.trans htaken
      rw [← hc.count] at hcount
      cases r with
      | none => exact ⟨hc.held, hcount.symm, fun h => by cases h⟩
      | some bytes => exact ⟨hc.held, hcount.symm, fun h => by cases h⟩
  | consume T v hT =>
      refine Env.wp_bind (Env.wp_mono (hops.consume _ T v _ s hc.held) ?_)
      intro r s₁ _ htaken
      refine Env.wp_ret fun s₂ (hr₂ : CommitsOnly s₁ s₂) _ =>
        ⟨hc.held, ?_, fun h => by cases h⟩
      rw [hr₂.taken, htaken, ← hc.count]
      split <;> rfl
  | rehandle os get hget =>
      refine Env.wp_bind (Env.wp_mono (hops.rehandle _ get _ s hc.held hget) ?_)
      intro h s₁ _ ⟨hheld, hr₁⟩
      exact Env.wp_ret fun s₂ (hr₂ : CommitsOnly s₁ s₂) _ =>
        ⟨hheld, hc.count.trans (hr₁.trans hr₂).taken.symm, fun h => by cases h⟩

end Sinew
