import Sinew.Lib.Observe
import Sinew.Proofs.RingFifo

/-!
# Where the two sides are

What `Proofs.Producer` and `Proofs.Consumer` say of a call is what it makes of the
ring. Here it is what the call touches, and when. The producer is in the slot that
comes next, and only while there is room for it. The consumer is in the slot of the
oldest message, and only while there is one. Each stores its own counter, and only to
move it on by one.
-/

namespace Sinew

open Lib

variable {L : Layout} {host : Endian} {types : MsgType → Prop} {stepwise : Bool}
  {base : Nat} {s : Shared} {T : MsgType} {l : Label} {α : Type}

/-- A cell of the slot of message number `k`. -/
def Layout.InSlot (L : Layout) (k x : Nat) : Prop :=
  L.slotOff k ≤ x ∧ x < L.slotOff k + L.slotSize

/-- Two messages in one slot are a lap apart. -/
theorem Layout.Sane.lap (hL : L.Sane) {i k x : Nat} (hi : L.InSlot i x) (hk : L.InSlot k x)
    (hlt : i < k) : i + L.capacity ≤ k := by
  refine Nat.le_of_not_lt fun hlap => ?_
  obtain ⟨hi₁, hi₂⟩ := hi
  obtain ⟨hk₁, hk₂⟩ := hk
  rcases hL.slots_disjoint hlt hlap with h | h <;> omega

def Layout.IsCursor (L : Layout) (a : Nat) : Prop := a = L.headOff ∨ a = L.tailOff

def Produces (L : Layout) (l : Label) (s : Shared) : Ev → Prop
  | .load p => L.InSlot s.committed.length p.off ∧ s.Room L
  | .store p _ => L.InSlot s.committed.length p.off ∧ s.Room L
  | .loadWord p => L.IsCursor p.off
  | .storeWord p v => p.off = L.headOff ∧ v = (s.committed.length + 1) % 2 ^ L.w ∧
      s.Room L ∧ l.writes.isSome
  | _ => False

def Consumes (L : Layout) (s : Shared) : Ev → Prop
  | .load p => L.InSlot s.taken.length p.off ∧ s.Waiting
  | .loadWord p => L.IsCursor p.off
  | .storeWord p v => p.off = L.tailOff ∧ v = (s.taken.length + 1) % 2 ^ L.w ∧ s.Waiting
  | .visit _ _ => True
  | _ => False

section Producer

theorem allows_bytes {p : Code α} (hroom : s.Room L)
    (hal : p.Along Mem.machine (BytesIn (L.slotOff s.committed.length)
      (L.slotOff s.committed.length + L.slotSize)) s.bytes) :
    (producerEnv L host types stepwise).Allows (Shared.exec L l) (Produces L l) p s := by
  refine Env.allows_along Shared.bytes
    (fun t => t.Room L ∧ t.committed = s.committed) ?_ ?_ ⟨hroom, rfl⟩ hal
  · intro t t' ⟨ht, hc⟩ (hr : ProducerRely t t') _
    exact ⟨⟨ht.rely hr, hr.committed.trans hc⟩, by rw [Shared.bytes, hr.byte]; rfl⟩
  · intro t e _ ⟨ht, hc⟩ hok
    rw [← hc] at hok
    cases e with
    | load q => exact ⟨⟨hok, ht⟩, rfl, rfl, ht, hc⟩
    | store q b => exact ⟨⟨hok, ht⟩, rfl, rfl, ht, hc⟩
    | _ => exact hok.elim

theorem allows_prepareWrite (hL : L.Sane) (htypes : ∀ T, types T → L.Takes T)
    (hT : types T) :
    (producerEnv L host types stepwise).Allows (Shared.exec L l) (Produces L l)
      ((L.at base).prepareWrite host T) s := by
  refine Env.allows_event_bind fun s₁ _ hi₁ => ⟨.inl rfl, ?_⟩
  refine Env.allows_event_bind fun s₂ (hr₂ : ProducerRely s₁ s₂) hi₂ => ⟨.inr rfl, ?_⟩
  have hi₁ : s₁.Inv L host types stepwise := hi₁
  have hi₂ : s₂.Inv L host types stepwise := hi₂
  have hlen := congrArg List.length hr₂.committed
  have hdist : (L.at base).distance (s₁.word (L.at base).head.off)
      (s₂.word (L.at base).tail.off) = s₂.unread :=
    hi₁.counts.distance_loaded hi₂.counts hL hlen base
  have hslot : (L.at base).slot (s₁.word (L.at base).head.off) =
      ⟨base, L.slotOff s₂.committed.length⟩ := by
    rw [← hL.slot, ← hi₂.head, ← hi₁.counts.head_eq hi₂.counts hlen]
    rfl
  have hfits := (htypes T hT).fits
  refine Env.allows_ite (fun _ => Env.allows_pure _ _) fun hfull => ?_
  have hroom : s₂.Room L := by
    refine Shared.room_of_unread fun hge => hfull ?_
    show (L.at base).distance (s₁.word (L.at base).head.off)
      (s₂.word (L.at base).tail.off) ≥ L.capacity
    rw [hdist]
    exact hge
  show (producerEnv L host types stepwise).Allows (Shared.exec L l) (Produces L l)
    (prepare host T (some ((L.at base).slot (s₁.word (L.at base).head.off)))
      (L.at base).slotSize) s₂
  rw [hslot]
  exact allows_bytes hroom ((prepare_bytesIn _).mono (BytesIn.mono (by
    dsimp only
    omega)))

theorem allows_writeByte (htypes : ∀ T, types T → L.Takes T) {d : Draft}
    (hd : Drafted L host base d s) (hT : types d.T) {i : Nat} (hi : i < d.T.size)
    (b : UInt8) :
    (producerEnv L host types stepwise).Allows (Shared.exec L l) (Produces L l)
      (store (d.payload.add i) b) s := by
  have hfits := (htypes d.T hT).fits
  refine allows_bytes hd.room ?_
  rw [hd.payload]
  exact ⟨⟨by dsimp only [Ptr.add]; omega, by dsimp only [Ptr.add]; omega⟩, trivial⟩

theorem allows_commitWrite (hL : L.Sane) (htypes : ∀ T, types T → L.Takes T) {d : Draft}
    (hd : Drafted L host base d s) (hT : types d.T) (c : Bool)
    (hwrites : l.writes = some d.T) :
    (producerEnv L host types stepwise).Allows (Shared.exec L l) (Produces L l)
      ((L.at base).commitWrite host d.T c) s := by
  refine Env.allows_event_bind fun s₁ (hr₁ : ProducerRely s s₁) hi₁ => ⟨.inl rfl, ?_⟩
  have hi₁ : s₁.Inv L host types stepwise := hi₁
  have hd₁ := hd.rely hr₁
  have hfits := (htypes d.T hT).fits
  have hslot : (L.at base).slot (s₁.word (L.at base).head.off) =
      ⟨base, L.slotOff s₁.committed.length⟩ := by
    rw [← hL.slot, ← hi₁.head]
    rfl
  have hal : (finalize host d.T (some (((L.at base).slot
      (s₁.word (L.at base).head.off)).add Header.size)) c).Along Mem.machine
      (BytesIn (L.slotOff s₁.committed.length) (L.slotOff s₁.committed.length + L.slotSize))
      s₁.bytes := by
    rw [hslot]
    exact (finalize_bytesIn c).mono (BytesIn.mono (by dsimp only; omega))
  refine Env.allows_bind (allows_bytes hd₁.room hal) (wp_bytes hL htypes hd₁.room hal ?_)
  intro s₂ hroom₂ hcom₂ _
  refine Env.allows_event fun s₃ (hr₃ : ProducerRely s₂ s₃) _ =>
    ⟨rfl, ?_, hroom₂.rely hr₃, by rw [hwrites]; rfl⟩
  have hcom₂ : s₂.committed = s₁.committed := hcom₂
  show (s₁.word L.headOff + 1) % 2 ^ L.w = (s₃.committed.length + 1) % 2 ^ L.w
  rw [hr₃.committed, hcom₂, hi₁.head, Cursors.succ_mod]

theorem allows_pushWith (hL : L.Sane) (htypes : ∀ T, types T → L.Takes T)
    (hbase : 16 ∣ base) (hT : types T) {value : List UInt8}
    (hlen : value.length = T.size) {commit : Code Unit}
    (hcommit : ∀ d s, d.T = T → Drafted L host base d s →
      (producerEnv L host types stepwise).Allows (Shared.exec L l) (Produces L l) commit s) :
    (producerEnv L host types stepwise).Allows (Shared.exec L l) (Produces L l)
      ((L.at base).pushWith host commit T value) s := by
  refine Env.allows_bind (allows_prepareWrite hL htypes hT)
    (Env.wp_mono (wp_prepareWrite hL htypes hbase hT) ?_)
  intro r s₁ _ ⟨_, hdraft, _⟩
  cases r with
  | none => exact Env.allows_pure _ _
  | some p =>
      have hd := hdraft p rfl
      have hfits := (htypes T hT).fits
      have hp : p = ⟨base, L.slotOff s₁.committed.length + Header.size⟩ := hd.payload
      have hal : (storeBytes p value).Along Mem.machine (BytesIn
          (L.slotOff s₁.committed.length) (L.slotOff s₁.committed.length + L.slotSize))
          s₁.bytes := by
        rw [hp]
        exact storeBytes_bytesIn (by dsimp only; omega) (by dsimp only; omega)
      refine Env.allows_bind (allows_bytes hd.room hal) (wp_bytes hL htypes hd.room hal ?_)
      intro s₂ hroom₂ hcom₂ hbyte₂
      have hd₂ : Drafted L host base ⟨T, p, value⟩ s₂ := by
        refine ⟨hroom₂, by rw [hcom₂]; exact hp, hlen, ?_⟩
        rw [hbyte₂, hcom₂, run_storeBytes, Mem.write_byte, hp]
        exact slice_write_payload host T hd.slot (by simp [hlen])
      exact Env.allows_seq (hcommit _ s₂ rfl hd₂) fun _ _ => Env.allows_pure _ _

end Producer

section Consumer

theorem allows_window {p : Code α} (hwaiting : s.Waiting)
    (hal : p.Along Mem.machine (LoadsIn (L.slotOff s.taken.length)
        (L.slotOff s.taken.length + L.slotSize))
      (s.window (L.slotOff s.taken.length) L.slotSize)) :
    (consumerEnv L host types stepwise).Allows (Shared.exec L l) (Consumes L) p s := by
  refine Env.allows_along (Shared.window (L.slotOff s.taken.length) L.slotSize)
    (fun t => Quiet s t) ?_ ?_ (Quiet.refl s) hal
  · intro t t' ht (hr : ConsumerRely L t t') _
    have hk : t.taken.length ≤ s.taken.length := by rw [ht.taken]
    have hk' : s.taken.length < t.committed.length :=
      Nat.lt_of_lt_of_le hwaiting ht.committed.length_le
    have hcells := slice_inj (hr.live s.taken.length hk hk')
    refine ⟨ht.trans hr.quiet, ?_⟩
    unfold Shared.window
    congr 1
    funext x
    split
    · next hx => exact hcells x hx.1 hx.2
    · rfl
  · intro t e _ ht hok
    cases e with
    | load q =>
        refine ⟨⟨?_, ?_⟩, (if_pos hok).symm, rfl, ht⟩
        · rw [ht.taken]
          exact hok
        · have hle := ht.committed.length_le
          unfold Shared.Waiting at hwaiting ⊢
          rw [ht.taken]
          omega
    | _ => exact hok.elim

theorem allows_view {U : MsgType} {payload : List UInt8} (hfront : s.Front U payload)
    (hT : L.Takes T) (v : Bool) :
    (consumerEnv L host types stepwise).Allows (Shared.exec L l) (Consumes L)
      (view host T (some ⟨base, L.slotOff s.taken.length⟩) L.slotSize v) s := by
  have hfits := hT.fits
  exact allows_window hfront.lt ((view_loadsIn _ _).mono (LoadsIn.mono (by
    dsimp only
    omega)))

theorem allows_peekRead (hL : L.Sane) (hT : L.Takes T) (v : Bool) :
    (consumerEnv L host types stepwise).Allows (Shared.exec L l) (Consumes L)
      ((L.at base).peekRead host T v) s := by
  refine Env.allows_event_bind fun s₁ _ hi₁ => ⟨.inr rfl, ?_⟩
  refine Env.allows_event_bind fun s₂ (hr₂ : ConsumerRely L s₁ s₂) hi₂ => ⟨.inl rfl, ?_⟩
  have hi₁ : s₁.Inv L host types stepwise := hi₁
  have hi₂ : s₂.Inv L host types stepwise := hi₂
  have htail : s₁.word L.tailOff = s₂.word L.tailOff :=
    hi₁.counts.tail_eq hi₂.counts (congrArg List.length hr₂.taken)
  show (consumerEnv L host types stepwise).Allows (Shared.exec L l) (Consumes L)
    (if s₁.word L.tailOff = s₂.word L.headOff then pure none else
      view host T (some ((L.at base).slot (s₁.word L.tailOff))) L.slotSize v) s₂
  refine Env.allows_ite (fun _ => Env.allows_pure _ _) fun hne => ?_
  have hwaiting : s₂.Waiting := by
    refine Nat.lt_of_le_of_ne hi₂.le fun heq => hne ?_
    show s₁.word L.tailOff = s₂.word L.headOff
    rw [htail]
    exact (hi₂.counts.cursors_eq_iff hL).mpr heq
  have hslot : (L.at base).slot (s₁.word L.tailOff) =
      ⟨base, L.slotOff s₂.taken.length⟩ := by
    rw [htail, hi₂.tail, hL.slot]
  rw [hslot]
  obtain ⟨U, payload, hfront⟩ := Shared.exists_front hwaiting
  exact allows_view hfront hT v

theorem allows_loadPayload (hT : L.Takes T) {p : Ptr} (hp : Peeked L T p s) :
    (consumerEnv L host types stepwise).Allows (Shared.exec L l) (Consumes L)
      (loadBytes p T.size) s := by
  obtain ⟨hoff, payload, hfront⟩ := hp
  have hfits := hT.fits
  exact allows_window hfront.lt (loadBytes_loadsIn (by omega) (by omega))

theorem allows_commitRead (hwaiting : s.Waiting) :
    (consumerEnv L host types stepwise).Allows (Shared.exec L l) (Consumes L)
      (L.at base).commitRead s := by
  refine Env.allows_event_bind fun s₁ (hr₁ : ConsumerRely L s s₁) hi₁ => ⟨.inr rfl, ?_⟩
  refine Env.allows_event fun s₂ (hr₂ : ConsumerRely L s₁ s₂) _ => ⟨rfl, ?_, ?_⟩
  · have hi₁ : s₁.Inv L host types stepwise := hi₁
    show (s₁.word L.tailOff + 1) % 2 ^ L.w = (s₂.taken.length + 1) % 2 ^ L.w
    rw [hr₂.taken, hi₁.tail, Cursors.succ_mod]
  · exact (hwaiting.commitsOnly hr₁.commitsOnly).commitsOnly hr₂.commitsOnly

section Taking

variable (hL : L.Sane) (htypes : ∀ T, types T → L.Takes T)
  (hids : ∀ T U, types T → types U → T.id = U.id → T = U)
  (hbase : 16 ∣ base) (hT : types T)

include hL htypes hids hbase hT

theorem allows_pop (v : Bool) :
    (consumerEnv L host types stepwise).Allows (Shared.exec L l) (Consumes L)
      ((L.at base).pop host T v) s := by
  refine Env.allows_bind (allows_peekRead hL (htypes T hT) v)
    (Env.wp_mono (wp_peekRead hL htypes hids hbase hT v) ?_)
  intro r s₁ hi₁ ⟨_, hpeek, _⟩
  cases r with
  | none => exact Env.allows_pure _ _
  | some p =>
      obtain ⟨hoff, payload, hfront⟩ := hpeek p rfl
      refine Env.allows_bind (allows_loadPayload (htypes T hT) ⟨hoff, payload, hfront⟩)
        (Env.wp_mono (wp_loadPayload htypes hi₁ hfront hoff) ?_)
      intro bytes s₂ _ ⟨hq₂, _⟩
      exact Env.allows_seq (allows_commitRead (hfront.quiet hq₂).lt)
        fun _ _ => Env.allows_pure _ _

theorem allows_consume (v : Bool) (hstep : stepwise = false) :
    (consumerEnv L host types stepwise).Allows (Shared.exec L l) (Consumes L)
      ((L.at base).consume host T record v) s := by
  refine Env.allows_bind (allows_peekRead hL (htypes T hT) v)
    (Env.wp_mono (wp_peekRead hL htypes hids hbase hT v) ?_)
  intro r s₁ hi₁ ⟨_, hpeek, _⟩
  cases r with
  | none => exact Env.allows_pure _ _
  | some p =>
      obtain ⟨hoff, payload, hfront⟩ := hpeek p rfl
      have hrecord : (consumerEnv L host types stepwise).Allows (Shared.exec L l)
          (Consumes L) (record T p) s₁ :=
        Env.allows_seq (allows_loadPayload (htypes T hT) ⟨hoff, payload, hfront⟩) fun bytes _ =>
          Env.allows_event_bind fun _ _ _ => ⟨trivial, Env.allows_pure _ _⟩
      refine Env.allows_bind hrecord (Env.wp_mono
        (wp_record htypes hi₁ hfront hoff fun h => by rw [hstep] at h; cases h) ?_)
      intro outcome s₂ _ ⟨houtcome, htaken, hcom, _⟩
      subst houtcome
      refine Env.allows_seq (allows_commitRead ?_) fun _ _ => Env.allows_pure _ _
      have hlt := hfront.lt
      have hle := hcom.length_le
      unfold Shared.Waiting
      rw [htaken]
      omega

end Taking

end Consumer

/-- A ring's producer functions keep to the slot that is theirs. -/
structure ProducerOps.Placed (ops : ProducerOps) (L : Layout) (host : Endian)
    (types : MsgType → Prop) (stepwise : Bool) (base : Nat) : Prop where
  prepareWrite : ∀ T l s, types T →
    (producerEnv L host types stepwise).Allows (Shared.exec L l) (Produces L l)
      (ops.prepareWrite T) s
  commitWrite : ∀ d c l s, types d.T → l.writes = some d.T → Drafted L host base d s →
    (producerEnv L host types stepwise).Allows (Shared.exec L l) (Produces L l)
      (ops.commitWrite d.T c) s
  push : ∀ T value c l s, types T → l.writes = some T → value.length = T.size →
    (producerEnv L host types stepwise).Allows (Shared.exec L l) (Produces L l)
      (ops.push T value c) s

theorem ProducerCall.placed {ops : ProducerOps}
    (hops : ops.Placed L host types stepwise base) (htypes : ∀ T, types T → L.Takes T)
    {c : Producer} {p : Code Producer} (hcall : ProducerCall ops types c l p)
    (hc : c.Ready L host types base s) :
    (producerEnv L host types stepwise).Allows (Shared.exec L l) (Produces L l) p s := by
  cases hcall with
  | prepareWrite T hT =>
      exact Env.allows_seq (hops.prepareWrite T _ s hT) fun _ _ => Env.allows_pure _ _
  | writeByte d i b hd hi =>
      obtain ⟨hT, hdraft⟩ := hc.draft d hd
      exact Env.allows_seq (allows_writeByte htypes hdraft hT hi b)
        fun _ _ => Env.allows_pure _ _
  | commitWrite d computeCrc hd =>
      obtain ⟨hT, hdraft⟩ := hc.draft d hd
      exact Env.allows_seq (hops.commitWrite d computeCrc _ s hT rfl hdraft)
        fun _ _ => Env.allows_pure _ _
  | push T value computeCrc hT hlen =>
      exact Env.allows_seq (hops.push T value computeCrc _ s hT rfl hlen)
        fun _ _ => Env.allows_pure _ _

/-- A ring's consumer functions keep to the message that is theirs. -/
structure ConsumerOps.Placed {H : Type} (ops : ConsumerOps H) (L : Layout) (host : Endian)
    (types : MsgType → Prop) (held valid : H → Prop) : Prop where
  peekRead : ∀ h T v l s, held h → types T →
    (consumerEnv L host types false).Allows (Shared.exec L l) (Consumes L)
      (ops.peekRead h T v) s
  commitRead : ∀ h l s, held h → valid h → s.Waiting →
    (consumerEnv L host types false).Allows (Shared.exec L l) (Consumes L)
      (ops.commitRead h) s
  pop : ∀ h T v l s, held h → types T →
    (consumerEnv L host types false).Allows (Shared.exec L l) (Consumes L) (ops.pop h T v) s
  consume : ∀ h T v l s, held h → types T →
    (consumerEnv L host types false).Allows (Shared.exec L l) (Consumes L)
      (ops.consume h T record v) s
  rehandle : ∀ h get l s, held h → ops.rehandle h get →
    (consumerEnv L host types false).Allows (Shared.exec L l) (Consumes L) get s

theorem ConsumerCall.placed {H : Type} {ops : ConsumerOps H} {held valid : H → Prop}
    (hops : ops.Placed L host types held valid) (htypes : ∀ T, types T → L.Takes T)
    {c : Consumer H} {p : Code (Consumer H)} (hcall : ConsumerCall ops types c l p)
    (hinv : s.Inv L host types false) (hc : c.Ready L held valid s) :
    (consumerEnv L host types false).Allows (Shared.exec L l) (Consumes L) p s := by
  cases hcall with
  | peekRead T v hT =>
      exact Env.allows_seq (hops.peekRead _ T v _ s hc.held hT)
        fun _ _ => Env.allows_pure _ _
  | read T payload hslot =>
      obtain ⟨_, hoff, bytes, hfront⟩ := hc.slot T payload hslot
      have hT := hinv.typed _ (List.mem_of_getElem? hfront)
      exact Env.allows_seq (allows_loadPayload (htypes T hT) ⟨hoff, bytes, hfront⟩)
        fun _ _ => Env.allows_pure _ _
  | commitRead x hslot =>
      obtain ⟨hvalid, _, payload, hfront⟩ := hc.slot x.1 x.2 hslot
      exact Env.allows_seq (hops.commitRead _ _ s hc.held hvalid hfront.lt)
        fun _ _ => Env.allows_pure _ _
  | pop T v hT =>
      exact Env.allows_seq (hops.pop _ T v _ s hc.held hT) fun _ _ => Env.allows_pure _ _
  | consume T v hT =>
      exact Env.allows_seq (hops.consume _ T v _ s hc.held hT)
        fun _ _ => Env.allows_pure _ _
  | rehandle os get hget =>
      exact Env.allows_seq (hops.rehandle _ get _ s hc.held hget)
        fun _ _ => Env.allows_pure _ _

end Sinew
