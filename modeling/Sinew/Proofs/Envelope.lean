import Sinew.Proofs.Dispatch
import Sinew.Proofs.RingFifo

/-!
# The bus

Two things are different on a bus. `commit_write` does not know the type: the
length it checksums is the one `prepare` put in the slot, which no earlier and
longer message can have left there. And the consumer does not know the type
either: it dispatches, and with distinct ids exactly the type the message was
committed as is found.
-/

namespace Sinew

open Lib

variable {L : Layout} {host : Endian} {types : MsgType → Prop} {base : Nat}
  {s s' : Shared} {T : MsgType} {l : Label}

namespace IpcEnvelopeRingBuffer

theorem u32At_payloadLen {f : Nat → UInt8} {a : Nat} {crc : UInt32}
    {payload : List UInt8} (hsmall : T.size < 2 ^ 32)
    (hf : slice f a (Header.size + T.size) = packet host T crc payload) :
    (u32At host f (a + Header.payloadLenOff)).toNat = T.size := by
  have hlen : u32At host f (a + Header.payloadLenOff) = (T.header crc).payloadLen :=
    congrArg Header.payloadLen (packet_parts hf).1
  rw [hlen, MsgType.header, UInt32.toNat_ofNat', Nat.mod_eq_of_lt hsmall]

/-- `commit_write` finds the length of the message it finishes. -/
theorem storeCrc_finishes {p : Ptr} {m : Mem} {payload : List UInt8}
    (hsmall : T.size < 2 ^ 32)
    (h : slice m.byte p.off (Header.size + T.size) = packet host T 0 payload) (c : Bool) :
    slice ((storeCrc host p c).run Mem.machine m).2.byte p.off (Header.size + T.size) =
      packet host T (crcField c payload) payload := by
  have hlen := u32At_payloadLen hsmall h
  have hpos : u32At host m.byte (p.off + Header.payloadLenOff) > 0 := by
    refine UInt32.lt_iff_toNat_lt.mpr ?_
    rw [hlen]
    exact T.size_pos
  cases c with
  | false =>
      simp only [storeCrc, run_store32, Mem.write_byte, Bool.false_eq_true, if_false]
      exact slice_write_crc host T h 0
  | true =>
      simp only [storeCrc, if_true, Prog.run_bind, run_load32, Ptr.add_off]
      rw [if_pos hpos]
      simp only [Prog.run_bind, run_load32, run_crc32At, run_store32, Ptr.add_off, hlen,
        Mem.write_byte, (packet_parts h).2]
      exact slice_write_crc host T h _

theorem storeCrc_bytesIn {p : Ptr} {m : Mem} {payload : List UInt8}
    (hsmall : T.size < 2 ^ 32)
    (h : slice m.byte p.off (Header.size + T.size) = packet host T 0 payload) (c : Bool) :
    (storeCrc host p c).Along Mem.machine
      (BytesIn p.off (p.off + (Header.size + T.size))) m := by
  have hlen := u32At_payloadLen hsmall h
  have hload : (load32 host (p.add Header.payloadLenOff)).Along Mem.machine
      (BytesIn p.off (p.off + (Header.size + T.size))) m :=
    load32_bytesIn (by simp) (by simp [Header.payloadLenOff, Header.size]; omega)
  have hstore : ∀ v m, (store32 host (p.add Header.crcOff) v).Along Mem.machine
      (BytesIn p.off (p.off + (Header.size + T.size))) m := fun v m =>
    store32_bytesIn (by simp) (by simp [Header.crcOff, Header.size]; omega)
  have hcrc : (crc32At (p.add Header.size) T.size).Along Mem.machine
      (BytesIn p.off (p.off + (Header.size + T.size))) m :=
    crc32At_bytesIn (by simp) (by simp; omega)
  cases c with
  | false => exact hstore 0 m
  | true =>
      simp only [storeCrc, if_true, Prog.along_bind, run_load32, Ptr.add_off]
      refine ⟨hload, ?_⟩
      split
      · simp only [Prog.along_bind, run_load32, run_crc32At, Ptr.add_off, hlen]
        exact ⟨hload, hcrc, hstore _ m⟩
      · exact hstore 0 m

variable {MaxPayloadSize Capacity : Nat}

theorem wp_commitWriteAt (hL : L.Sane) (htypes : ∀ T, types T → L.Takes T) {d : Draft}
    (hT : types d.T) (hd : Drafted L host base d s) {stepwise : Bool} (c : Bool)
    (os : OsAnswers) :
    (producerEnv L host types stepwise).wp
      (Shared.exec L { writes := some d.T, os := os })
      (commitWriteAt host (L.at base) c)
      (fun _ s' => s'.committed = s.committed ++ [(d.T, d.bytes)]) s :=
  wp_commitWith hL htypes hd hT
    (fun _ _ h => storeCrc_bytesIn (htypes d.T hT).small h c)
    (fun _ _ h => ⟨c, storeCrc_finishes (htypes d.T hT).small h c⟩) os

theorem producer_sound {stepwise : Bool} {shm : SharedMemoryRegion} {data : Ptr}
    (hL : (params MaxPayloadSize Capacity).layout.Sane)
    (htypes : ∀ T, types T → (params MaxPayloadSize Capacity).layout.Takes T)
    (hoff : data.off = 0) (hpage : 4096 ∣ data.base) :
    (producerOps MaxPayloadSize Capacity host (.attach shm data true)).Sound
      (params MaxPayloadSize Capacity).layout host types stepwise data.base := by
  have hring := IpcHandle.attach_ring (params MaxPayloadSize Capacity) shm hoff true
  have hbase : 16 ∣ data.base := Nat.dvd_trans (by decide) hpage
  refine ⟨fun T l s hT => ?_, fun d c os s hT hd => ?_,
    fun T value c os s hT hlen => ?_⟩
  · simp only [producerOps, prepareWrite, hring]
    exact Env.wp_mono (wp_prepareWrite hL htypes hbase hT) fun _ _ _ h => ⟨h.1, h.2.1⟩
  · simp only [producerOps, commitWrite, hring]
    exact wp_commitWriteAt hL htypes hT hd c os
  · simp only [producerOps, push, hring]
    refine Env.wp_mono (wp_pushWith hL htypes hbase hT hlen fun d s hd hdraft => ?_)
      fun _ _ _ h => h.1
    subst hd
    exact wp_commitWriteAt hL htypes hT hdraft c os

end IpcEnvelopeRingBuffer

/-! ## The consumer -/

section Dispatch

variable {stepwise : Bool} {U : MsgType} {payload : List UInt8} {v : Bool}

/-- What dispatch does with the oldest message, of type `U`: it is handed to the
visitor if its type is named, and not otherwise. -/
structure Dispatched (msgTypes : List MsgType) (U : MsgType) (s : Shared)
    (r : Option Bool) (s' : Shared) : Prop where
  committed : s.committed <+: s'.committed
  taken : s'.taken = s.taken
  answer : (r = some true ∧ U ∈ msgTypes ∧ s'.seen.length = s.seen.length + 1) ∨
    (r = some false ∧ U ∉ msgTypes ∧ s'.seen = s.seen)

theorem Dispatched.quiet {msgTypes : List MsgType} {r : Option Bool} {s'' : Shared}
    (h : Dispatched msgTypes U s r s') (hq : Quiet s' s'') :
    Dispatched msgTypes U s r s'' where
  committed := h.committed.trans hq.committed
  taken := hq.taken.trans h.taken
  answer := by
    rw [hq.seen]
    exact h.answer

theorem Dispatched.since {msgTypes : List MsgType} {r : Option Bool} {s₀ : Shared}
    (h : Dispatched msgTypes U s₀ r s') (hq : Quiet s s₀) : Dispatched msgTypes U s r s' where
  committed := hq.committed.trans h.committed
  taken := h.taken.trans hq.taken
  answer := by
    rw [← hq.seen]
    exact h.answer

theorem wp_callVisitor (htypes : ∀ T, types T → L.Takes T)
    (hinv : s.Inv L host types stepwise) (hfront : s.Front U payload) {p : Ptr}
    (hp : p.off = L.slotOff s.taken.length + Header.size)
    (hstep : stepwise = true → s.seen.length = s.taken.length) :
    (consumerEnv L host types stepwise).wp (Shared.exec L l) (callVisitor record U p)
      (fun r s' => r = some true ∧ s'.taken = s.taken ∧ s.committed <+: s'.committed ∧
        s'.seen.length = s.seen.length + 1) s := by
  refine Env.wp_bind (Env.wp_mono (wp_record htypes hinv hfront hp hstep) ?_)
  intro outcome s₁ _ ⟨houtcome, htaken, hcom, hseen⟩
  subst houtcome
  refine Env.wp_ret fun s₂ (hr : ConsumerRely L s₁ s₂) _ => ⟨rfl, ?_, ?_, ?_⟩
  · exact hr.taken.trans htaken
  · exact hcom.trans hr.committed
  · rw [hr.seen, hseen, List.length_append, List.length_singleton]

theorem wp_loadMsgId (htypes : ∀ T, types T → L.Takes T) (hinv : s.Inv L host types stepwise)
    (hfront : s.Front U payload) :
    (consumerEnv L host types stepwise).wp (Shared.exec L l)
      (load16 host ((⟨base, L.slotOff s.taken.length⟩ : Ptr).add Header.msgIdOff))
      (fun msgId s' => msgId = U.id ∧ Quiet s s') s := by
  obtain ⟨hfits, crc, _, hpk⟩ := hinv.front_packet htypes hfront
  have hmsgId : u16At host (s.window (L.slotOff s.taken.length) L.slotSize).byte
      (L.slotOff s.taken.length + Header.msgIdOff) = U.id :=
    congrArg Header.msgId (packet_parts hpk).1
  refine wp_window hfront.lt (load16_loadsIn (by simp)
    (by simp [Header.msgIdOff, Header.size] at hfits ⊢; omega)) fun s' _ hq => ?_
  rw [run_load16, Ptr.add_off]
  exact ⟨hmsgId, hq⟩

/-- The message is of one type, and so is what it is tried as. -/
theorem wp_tryDispatchSingle (htypes : ∀ T, types T → L.Takes T)
    (hids : ∀ T V, types T → types V → T.id = V.id → T = V) (hbase : 16 ∣ base)
    {T : MsgType} (hT : types T) (hinv : s.Inv L host types stepwise)
    (hfront : s.Front U payload) (hstep : stepwise = true → s.seen.length = s.taken.length) :
    (consumerEnv L host types stepwise).wp (Shared.exec L l)
      (tryDispatchSingle host T U.id (some ⟨base, L.slotOff s.taken.length⟩) L.slotSize record v)
      (Dispatched [T] U s) s := by
  have hU := hinv.typed _ (List.mem_of_getElem? hfront)
  unfold tryDispatchSingle
  by_cases hid : T.id = U.id
  · obtain rfl := hids T U hT hU hid
    rw [if_pos rfl]
    refine Env.wp_bind (Env.wp_mono (wp_view htypes hids hbase hinv hfront hT v) ?_)
    intro r s₁ hi₁ ⟨hq₁, hr⟩
    have hi₁ : s₁.Inv L host types stepwise := hi₁
    obtain rfl := (hr _).mpr ⟨rfl, rfl⟩
    refine Env.wp_mono (wp_callVisitor htypes hi₁ (hfront.quiet hq₁)
      (by rw [hq₁.taken]) fun h => by rw [hq₁.seen, hq₁.taken]; exact hstep h) ?_
    intro r s₂ _ ⟨hr, htaken, hcom, hseen⟩
    exact ⟨hq₁.committed.trans hcom, htaken.trans hq₁.taken,
      .inl ⟨hr, List.mem_cons_self, by rw [hseen, hq₁.seen]⟩⟩
  · rw [if_neg hid]
    refine Env.wp_ret fun s₁ (hr₁ : ConsumerRely L s s₁) _ => ⟨hr₁.committed, hr₁.taken, ?_⟩
    have hne : U ≠ T := fun h => hid (congrArg MsgType.id h).symm
    exact .inr ⟨rfl, by simp [hne], hr₁.seen⟩

/-- The search through the types named. The message keeps the type it has, so
the types passed over do not matter. -/
theorem wp_tryDispatchEach (htypes : ∀ T, types T → L.Takes T)
    (hids : ∀ T V, types T → types V → T.id = V.id → T = V) (hbase : 16 ∣ base)
    (msgTypes : List MsgType) (hnamed : ∀ T ∈ msgTypes, types T)
    (hinv : s.Inv L host types stepwise) (hfront : s.Front U payload)
    (hstep : stepwise = true → s.seen.length = s.taken.length) :
    (consumerEnv L host types stepwise).wp (Shared.exec L l)
      (tryDispatchEach host ⟨base, L.slotOff s.taken.length⟩ L.slotSize record v msgTypes)
      (Dispatched msgTypes U s) s := by
  induction msgTypes generalizing s with
  | nil =>
      refine Env.wp_ret fun s' (hr : ConsumerRely L s s') _ =>
        ⟨hr.committed, hr.taken, .inr ⟨rfl, List.not_mem_nil, hr.seen⟩⟩
  | cons T rest ih =>
      have hquiet : ∀ {s'}, Quiet s s' → stepwise = true → s'.seen.length = s'.taken.length :=
        fun hq h => by rw [hq.seen, hq.taken]; exact hstep h
      refine Env.wp_bind (Env.wp_mono (wp_loadMsgId htypes hinv hfront) ?_)
      intro msgId s₀ hi₀ ⟨hmsgId, hq₀⟩
      have hi₀ : s₀.Inv L host types stepwise := hi₀
      subst hmsgId
      have hsingle := wp_tryDispatchSingle (l := l) (v := v) htypes hids hbase
        (hnamed T List.mem_cons_self) hi₀ (hfront.quiet hq₀) (hquiet hq₀)
      rw [hq₀.taken] at hsingle
      refine Env.wp_bind (Env.wp_mono hsingle ?_)
      intro r s₁ hi₁ hd₁
      have hi₁ : s₁.Inv L host types stepwise := hi₁
      have hd₁ := hd₁.since hq₀
      rcases hd₁.answer with ⟨hr, hU, hseen⟩ | ⟨hr, hU, hseen⟩
      · have hd : Dispatched (T :: rest) U s r s₁ :=
          ⟨hd₁.committed, hd₁.taken, .inl ⟨hr, List.mem_cons.mpr
            (.inl (List.mem_singleton.mp hU)), hseen⟩⟩
        rw [if_neg (by rw [hr]; decide)]
        exact Env.wp_ret fun s₂ (hr₂ : ConsumerRely L s₁ s₂) _ => hd.quiet hr₂.quiet
      · have hq₁ : Quiet s s₁ := ⟨hd₁.taken, hseen, hd₁.committed⟩
        have hrest := ih (fun V hV => hnamed V (List.mem_cons_of_mem T hV)) hi₁
          (hfront.quiet hq₁) (hquiet hq₁)
        rw [hq₁.taken] at hrest
        rw [if_pos hr]
        refine Env.wp_mono hrest fun r₂ s₂ _ hd => ?_
        have hd := hd.since hq₁
        refine ⟨hd.committed, hd.taken, ?_⟩
        rcases hd.answer with ⟨hr₂, hmem, h⟩ | ⟨hr₂, hmem, h⟩
        · exact .inl ⟨hr₂, List.mem_cons_of_mem T hmem, h⟩
        · have hne : U ≠ T := fun heq => hU (List.mem_singleton.mpr heq)
          exact .inr ⟨hr₂, by simp [hne, hmem], h⟩

theorem wp_dispatch (htypes : ∀ T, types T → L.Takes T)
    (hids : ∀ T V, types T → types V → T.id = V.id → T = V) (hbase : 16 ∣ base)
    (msgTypes : List MsgType) (hnamed : ∀ T ∈ msgTypes, types T)
    (hinv : s.Inv L host types stepwise) (hfront : s.Front U payload)
    (hstep : stepwise = true → s.seen.length = s.taken.length) :
    (consumerEnv L host types stepwise).wp (Shared.exec L l)
      (dispatch host msgTypes (some ⟨base, L.slotOff s.taken.length⟩) L.slotSize record v)
      (Dispatched msgTypes U s) s := by
  obtain ⟨hfits, crc, _, hpk⟩ := hinv.front_packet htypes hfront
  have hof := (packet_parts hpk).1
  unfold dispatch
  dsimp only
  rw [if_neg (by omega)]
  refine Env.wp_bind (wp_window hfront.lt (load32_loadsIn (by simp)
    (by simp [Header.magicOff, Header.size] at hfits ⊢; omega)) fun s₁ hi₁ hq₁ => ?_)
  have hmagic : u32At host (s.window (L.slotOff s.taken.length) L.slotSize).byte
      (L.slotOff s.taken.length + Header.magicOff) = sinewMagic :=
    congrArg Header.magic hof
  rw [run_load32, Ptr.add_off]
  dsimp only
  rw [hmagic, if_neg (by simp)]
  rw [← hq₁.taken]
  refine Env.wp_mono (wp_tryDispatchEach htypes hids hbase msgTypes hnamed hi₁
    (hfront.quiet hq₁) fun h => by rw [hq₁.seen, hq₁.taken]; exact hstep h) ?_
  exact fun _ _ _ hd => hd.since hq₁

end Dispatch

namespace IpcEnvelopeRingBuffer

variable {MaxPayloadSize Capacity : Nat} {h : IpcHandle}

theorem wp_dispatchAndCommit (hL : (params MaxPayloadSize Capacity).layout.Sane)
    (htypes : ∀ T, types T → (params MaxPayloadSize Capacity).layout.Takes T)
    (hids : ∀ T V, types T → types V → T.id = V.id → T = V) (hbase : 16 ∣ base)
    (hring : h.ring (params MaxPayloadSize Capacity) =
      some ((params MaxPayloadSize Capacity).layout.at base))
    (msgTypes : List MsgType) (hnamed : ∀ T ∈ msgTypes, types T) (v : Bool)
    (hstep : s.seen.length = s.taken.length) :
    (consumerEnv (params MaxPayloadSize Capacity).layout host types true).wp
      (Shared.exec (params MaxPayloadSize Capacity).layout l)
      (dispatchAndCommit MaxPayloadSize Capacity host h msgTypes record v)
      (Served msgTypes s) s := by
  unfold dispatchAndCommit
  simp only [dispatch, commitRead, hring]
  refine Env.wp_bind (wp_cursors hL (fun s₁ n _ hq heq => ?_)
    fun s₁ tail head U payload hi₁ hq hf hne hslot => ?_)
  · rw [if_pos rfl]
    refine Env.wp_ret fun s₂ (hr : ConsumerRely _ s₁ s₂) _ => ?_
    rw [if_neg (by decide)]
    refine Env.wp_ret fun s₃ (hr' : ConsumerRely _ s₂ s₃) _ => ?_
    have hq₃ := (hq.trans hr.quiet).trans hr'.quiet
    refine ⟨hq₃.committed, .inr ⟨rfl, hq₃.taken, hq₃.seen, fun T payload hf => ?_⟩⟩
    have := (hf.quiet hq).lt
    omega
  · rw [if_neg hne, hslot]
    have hstep₁ : s₁.seen.length = s₁.taken.length := by rw [hq.seen, hq.taken, hstep]
    refine Env.wp_mono (wp_dispatch htypes hids hbase msgTypes hnamed hi₁ hf
      fun _ => hstep₁) fun r s₂ _ hd => ?_
    have hcom := hq.committed.trans hd.committed
    rcases hd.answer with ⟨rfl, hmem, hseen⟩ | ⟨rfl, hmem, hseen⟩
    · rw [if_pos rfl]
      have hfront := List.IsPrefix.getElem?_some hd.committed hf
      rw [← hd.taken] at hfront
      refine wp_served hL htypes hcom (hd.taken.trans hq.taken) ?_ hmem hfront
        (fun _ => hstep)
      rw [hseen, hq.seen]
    · rw [if_neg (by decide)]
      refine Env.wp_ret fun s₃ (hr : ConsumerRely _ s₂ s₃) _ => ⟨hcom.trans hr.committed,
        .inr ⟨rfl, ?_, ?_, fun T payload' hf' => ?_⟩⟩
      · rw [hr.taken, hd.taken, hq.taken]
      · rw [hr.seen, hseen, hq.seen]
      · have hsame : some (T, payload') = some (U, payload) :=
          (hf'.quiet hq).symm.trans hf
        rw [(Prod.mk.inj (Option.some.inj hsame)).1]
        exact hmem

theorem wp_consumeMsg (hL : (params MaxPayloadSize Capacity).layout.Sane)
    (htypes : ∀ T, types T → (params MaxPayloadSize Capacity).layout.Takes T)
    (hids : ∀ T V, types T → types V → T.id = V.id → T = V) (hbase : 16 ∣ base)
    (hring : h.ring (params MaxPayloadSize Capacity) =
      some ((params MaxPayloadSize Capacity).layout.at base)) {Msg : MsgType}
    (hMsg : types Msg) (v : Bool) (hstep : s.seen.length = s.taken.length) :
    (consumerEnv (params MaxPayloadSize Capacity).layout host types true).wp
      (Shared.exec (params MaxPayloadSize Capacity).layout l)
      (consume MaxPayloadSize Capacity host h Msg record v) (Served [Msg] s) s := by
  simp only [consume, hring]
  exact wp_consume hL htypes hids hbase hMsg v fun _ => hstep

/-- A bus consumer between calls. Its calls are numbered by the messages taken
before them, and those that returned `true` took one each. -/
structure BusConsumer.Ready (c : BusConsumer) (s : Shared) : Prop where
  taken : c.count = s.taken.length
  seen : c.count = s.seen.length
  count : c.count = c.calls.countP fun a => a.returned = some true
  next : ∀ i a, c.calls[i]? = some a →
    a.next = (c.calls.take i).countP fun a => a.returned = some true
  answers : ∀ a ∈ c.calls, a.returned = some false ∨ a.returned = some true ∧
    ∃ T ∈ a.msgTypes, ∃ payload, s.committed[a.next]? = some (T, payload)

theorem BusConsumer.Ready.quiet {c : BusConsumer} (hc : Ready c s) (hq : Quiet s s') :
    Ready c s' where
  taken := by rw [hq.taken, hc.taken]
  seen := by rw [hq.seen, hc.seen]
  count := hc.count
  next := hc.next
  answers a ha := (hc.answers a ha).imp_right fun ⟨hr, T, hT, payload, hget⟩ =>
    ⟨hr, T, hT, payload, List.IsPrefix.getElem?_some hq.committed hget⟩

theorem BusConsumer.Ready.answered {c : BusConsumer} (hc : Ready c s)
    {msgTypes : List MsgType} {r : Option Bool} (hserved : Served msgTypes s r s') :
    Ready (c.answered msgTypes r) s' := by
  have hcount : ((c.answered msgTypes r).calls).countP (fun a => a.returned = some true) =
      c.count + if r = some true then 1 else 0 := by
    simp only [BusConsumer.answered, List.countP_append, List.countP_singleton,
      decide_eq_true_eq, hc.count]
  refine ⟨?_, ?_, ?_, fun i a ha => ?_, fun a ha => ?_⟩
  · rw [hserved.moves, ← hc.taken]
    rfl
  · rcases hserved.answer with ⟨rfl, -, hseen, -⟩ | ⟨rfl, -, hseen, -⟩
    · rw [hseen, ← hc.seen]
      rfl
    · rw [hseen, ← hc.seen]
      rfl
  · rw [hcount]
    unfold BusConsumer.answered
    split <;> rfl
  · unfold BusConsumer.answered at ha ⊢
    rcases List.getElem?_concat_some ha with ha | ⟨hlen, ha⟩
    · have hi := (List.getElem?_eq_some_iff.mp ha).1
      rw [List.take_append_of_le_length (Nat.le_of_lt hi)]
      exact hc.next i a ha
    · rw [← ha, hlen, List.take_left' rfl]
      exact hc.count
  · rcases List.mem_append.mp ha with ha | ha
    · exact (hc.answers a ha).imp_right fun ⟨hr, T, hT, payload, hget⟩ =>
        ⟨hr, T, hT, payload, List.IsPrefix.getElem?_some hserved.committed hget⟩
    · rw [List.mem_singleton.mp ha]
      rcases hserved.answer with ⟨hr, -, -, T, hT, payload, hget⟩ | ⟨hr, -⟩
      · refine .inr ⟨hr, T, hT, payload, ?_⟩
        rw [hc.taken]
        exact hget
      · exact .inl hr

theorem BusCall.ready (hL : (params MaxPayloadSize Capacity).layout.Sane)
    (htypes : ∀ T, types T → (params MaxPayloadSize Capacity).layout.Takes T)
    (hids : ∀ T V, types T → types V → T.id = V.id → T = V) (hbase : 16 ∣ base)
    (hring : h.ring (params MaxPayloadSize Capacity) =
      some ((params MaxPayloadSize Capacity).layout.at base))
    {c : BusConsumer} {p : Code BusConsumer}
    (hcall : BusCall MaxPayloadSize Capacity host h types c l p)
    (hc : BusConsumer.Ready c s) :
    (consumerEnv (params MaxPayloadSize Capacity).layout host types true).wp
      (Shared.exec (params MaxPayloadSize Capacity).layout l) p
      BusConsumer.Ready s := by
  have hstep : s.seen.length = s.taken.length := hc.seen.symm.trans hc.taken
  cases hcall with
  | dispatchAndCommit msgTypes v hnamed =>
      refine Env.wp_bind (Env.wp_mono (wp_dispatchAndCommit hL htypes hids hbase hring
        msgTypes hnamed v hstep) ?_)
      intro r s₁ _ hserved
      exact Env.wp_ret fun s₂ (hr : ConsumerRely _ s₁ s₂) _ =>
        (hc.answered hserved).quiet hr.quiet
  | consume Msg v hMsg =>
      refine Env.wp_bind (Env.wp_mono
        (wp_consumeMsg hL htypes hids hbase hring hMsg v hstep) ?_)
      intro r s₁ _ hserved
      exact Env.wp_ret fun s₂ (hr : ConsumerRely _ s₁ s₂) _ =>
        (hc.answered hserved).quiet hr.quiet

theorem slotSize_pos : 0 < kSlotSize MaxPayloadSize := by
  have h := le_roundUp (Header.size + MaxPayloadSize) (show 0 < 64 by decide)
  unfold kSlotSize Header.size at *
  omega

theorem layout_sane (hpow : ∃ j, Capacity = 2 ^ j)
    (hfits : (params MaxPayloadSize Capacity).totalShmSize < 2 ^ 64) :
    (params MaxPayloadSize Capacity).layout.Sane :=
  IpcParams.layout_sane hpow slotSize_pos hfits

theorem layout_takes_of_fits (hfits : Header.size + T.size ≤ kSlotSize MaxPayloadSize)
    (hsmall : T.size < 2 ^ 32) (halign : T.align ≤ 16) :
    (params MaxPayloadSize Capacity).layout.Takes T where
  fits := hfits
  small := hsmall
  align_base := T.align_dvd_sixteen halign
  align_stride := Nat.dvd_trans (T.align_dvd_sixteen halign)
    (Nat.dvd_trans (by decide : 16 ∣ 64) (dvd_roundUp _ _))
  align_slots := by
    show T.align ∣ IpcRingHeader.size
    exact Nat.dvd_trans (T.align_dvd_sixteen halign) (by decide)

theorem layout_takes (hsmall : T.size < 2 ^ 32) (hsize : T.size ≤ MaxPayloadSize)
    (halign : T.align ≤ 16) : (params MaxPayloadSize Capacity).layout.Takes T :=
  layout_takes_of_fits (Nat.le_trans (Nat.add_le_add_left hsize _)
    (le_roundUp (Header.size + MaxPayloadSize) (show 0 < 64 by decide))) hsmall halign

/-! ## Every run -/

/-- A bus is a queue of messages of several types: what the callbacks were
handed is what was committed, from the first message on, each message once and
as the type it was committed as. Only a call that names the type of the oldest
message takes it, and then returns `true`; one that does not name it returns
`false` and takes nothing. -/
structure Bus {types : MsgType → Prop} {h h' : IpcHandle}
    (cfg : Config (session MaxPayloadSize Capacity host h h' types)) : Prop where
  visited : cfg.state.seen.map (·.2) <+: cfg.state.committed
  inStep : cfg.state.InStep
  sent : ∀ p : Producer, cfg.thread .producer =
    .idle (P := session MaxPayloadSize Capacity host h h' types .producer) p →
      cfg.state.committed = p.sent
  answers : ∀ c : BusConsumer, cfg.thread .consumer =
    .idle (P := session MaxPayloadSize Capacity host h h' types .consumer) c →
      BusConsumer.Ready c cfg.state ∧
      ∀ a ∈ c.calls, ∀ T payload, cfg.state.committed[a.next]? = some (T, payload) →
        T ∉ a.msgTypes → a.returned = some false
  serves : ∀ c : BusConsumer, cfg.thread .consumer =
    .idle (P := session MaxPayloadSize Capacity host h h' types .consumer) c →
      ∀ msgTypes v, (∀ T ∈ msgTypes, types T) →
        let run := (dispatchAndCommit MaxPayloadSize Capacity host h' msgTypes record v).run
          (Shared.exec (params MaxPayloadSize Capacity).layout {}) cfg.state
        Served msgTypes cfg.state run.1 run.2

end IpcEnvelopeRingBuffer

/-- Messages that are visited in step are visited in the order they were
committed in. -/
theorem Shared.InStep.visited {s : Shared} (hseen : ∀ e ∈ s.seen, s.committed[e.1]? = some e.2)
    (hstep : s.InStep) : s.seen.map (·.2) <+: s.committed := by
  rw [List.prefix_iff_getElem?]
  intro i hi
  rw [List.length_map] at hi
  have hget := hseen s.seen[i] (List.getElem_mem hi)
  have hnumber : s.seen[i].1 = i := by
    have h := congrArg (fun l => l[i]?) hstep.1
    simpa [List.getElem?_eq_getElem hi, List.getElem?_range hi] using h
  rw [hnumber] at hget
  rw [hget, List.getElem_map]

/-- **The bus is first in, first out.** For any set of message types with
distinct ids that fit the slots, over every interleaving of a producer with a
consumer that takes messages through its callbacks. -/
theorem bus_fifo (MaxPayloadSize Capacity : Nat) (hmax : MaxPayloadSize < 2 ^ 32)
    (hpow : ∃ j, Capacity = 2 ^ j)
    (hfits : (IpcEnvelopeRingBuffer.params MaxPayloadSize Capacity).totalShmSize < 2 ^ 64)
    (types : MsgType → Prop)
    (hids : ∀ T U, types T → types U → T.id = U.id → T = U)
    (hsize : ∀ T, types T → T.size ≤ MaxPayloadSize)
    (halign : ∀ T, types T → T.align ≤ 16) (host : Endian)
    (shm shm' : SharedMemoryRegion) (data data' : Ptr) (hoff : data.off = 0)
    (hpage : 4096 ∣ data.base) (hoff' : data'.off = 0) (hpage' : 4096 ∣ data'.base)
    (byte : Nat → UInt8)
    (cfg : Config (IpcEnvelopeRingBuffer.session MaxPayloadSize Capacity host
      (.attach shm data true) (.attach shm' data' false) types))
    (hreach : Reach (IpcEnvelopeRingBuffer.start MaxPayloadSize Capacity host types shm
      shm' data data' byte) cfg) :
    IpcEnvelopeRingBuffer.Bus cfg := by
  have hL := IpcEnvelopeRingBuffer.layout_sane hpow hfits
  have htypes : ∀ T, types T →
      (IpcEnvelopeRingBuffer.params MaxPayloadSize Capacity).layout.Takes T := fun T hT =>
    IpcEnvelopeRingBuffer.layout_takes (Nat.lt_of_le_of_lt (hsize T hT) hmax) (hsize T hT)
      (halign T hT)
  have hbase : 16 ∣ data'.base := Nat.dvd_trans (by decide) hpage'
  have hring := IpcHandle.attach_ring
    (IpcEnvelopeRingBuffer.params MaxPayloadSize Capacity) shm' hoff' false
  have hpops : (IpcEnvelopeRingBuffer.producerOps MaxPayloadSize Capacity host
      (.attach shm data true)).Sound _ host types true data.base :=
    IpcEnvelopeRingBuffer.producer_sound hL htypes hoff hpage
  have hsound : (sessionLogic _ host types true _ _ data.base
      IpcEnvelopeRingBuffer.BusConsumer.Ready fun _ _ _ hc => hc.quiet).Sound :=
    sessionLogic_sound
      (fun _ _ _ _ hcall hc => ProducerCall.ready hpops hL htypes hcall hc)
      (fun _ _ _ _ hcall _ hc =>
        IpcEnvelopeRingBuffer.BusCall.ready hL htypes hids hbase hring hcall hc)
  have hgood := Logic.Good.reach hsound (sessionLogic_good
    (.empty (by rw [run_initHeader_word _ _ hoff]; rfl)
      (by rw [run_initHeader_word _ _ hoff]; rfl)) .start
    ⟨rfl, rfl, rfl, (fun i a ha => by cases ha), (fun a ha => by cases ha)⟩) hreach
  have hinv : cfg.state.Inv _ host types true := hgood.inv .producer
  refine ⟨(hinv.inStep rfl).visited hinv.seen, hinv.inStep rfl, fun p hp => ?_,
    fun c hc => ?_, fun c hc msgTypes v hnamed => ?_⟩
  · exact Producer.Ready.sent (hgood.idle hp)
  · have hready : IpcEnvelopeRingBuffer.BusConsumer.Ready c cfg.state := hgood.idle hc
    refine ⟨hready, fun a ha T payload hget hnot => ?_⟩
    rcases hready.answers a ha with hr | ⟨-, U, hU, payload', hget'⟩
    · exact hr
    · obtain ⟨rfl, -⟩ := Prod.mk.inj (Option.some.inj (hget.symm.trans hget'))
      exact absurd hU hnot
  · have hready : IpcEnvelopeRingBuffer.BusConsumer.Ready c cfg.state := hgood.idle hc
    exact (Env.wp_alone (IpcEnvelopeRingBuffer.wp_dispatchAndCommit hL htypes hids hbase
      hring msgTypes hnamed v (hready.seen.symm.trans hready.taken)) hinv).2

/-- The two types of the dispatch tests. -/
def pingOrPong (T : MsgType) : Prop := T = pingMsg ∨ T = pongMsg

theorem pingOrPong_forall {p : MsgType → Prop} (hping : p pingMsg) (hpong : p pongMsg) :
    ∀ T, pingOrPong T → p T := by
  rintro T (rfl | rfl)
  · exact hping
  · exact hpong

/-- A long message and a short one go through the same slots. -/
theorem bus_fifo_ping_pong :
    ∃ cfg, Reach (IpcEnvelopeRingBuffer.start 32 2 .little pingOrPong {} {} ⟨0x1000, 0⟩
        ⟨0x2000, 0⟩ fun _ => 0xFF) cfg ∧
      cfg.state.seen.map (·.2.2) = [List.replicate 16 7, [42, 0, 0, 0]] ∧
      IpcEnvelopeRingBuffer.Bus cfg := by
  have hids : ∀ T U, pingOrPong T → pingOrPong U → T.id = U.id → T = U := by
    rintro T U (rfl | rfl) (rfl | rfl) h
    · rfl
    · exact absurd h (by decide)
    · exact absurd h (by decide)
    · rfl
  have push : ∀ c T (value : List UInt8), pingOrPong T → value.length = T.size →
      ProducerCall (IpcEnvelopeRingBuffer.producerOps 32 2 .little
        (.attach {} ⟨0x1000, 0⟩ true)) pingOrPong c { writes := some T } _ :=
    fun c T value hT hlen => .push c T value true hT hlen
  have dispatch : ∀ c, IpcEnvelopeRingBuffer.BusCall 32 2 .little
      (.attach {} ⟨0x2000, 0⟩ false) pingOrPong c {} _ := fun c =>
    .dispatchAndCommit c [pingMsg, pongMsg] true fun T hT => by
      simpa [pingOrPong] using hT
  have consume : ∀ c, IpcEnvelopeRingBuffer.BusCall 32 2 .little
      (.attach {} ⟨0x2000, 0⟩ false) pingOrPong c {} _ := fun c =>
    .consume c pingMsg true (.inl rfl)
  have hreach : Reach (IpcEnvelopeRingBuffer.start 32 2 .little pingOrPong {} {}
      ⟨0x1000, 0⟩ ⟨0x2000, 0⟩ fun _ => 0xFF) _ :=
    (((Reach.call (i := Side.producer) rfl
        (push _ pongMsg (List.replicate 16 7) (.inr rfl) rfl)).trans
      (Reach.call (i := Side.consumer) rfl (dispatch _))).trans
      (Reach.call (i := Side.producer) rfl
        (push _ pingMsg [42, 0, 0, 0] (.inl rfl) rfl))).trans
      (Reach.call (i := Side.consumer) rfl (consume _))
  exact ⟨_, hreach, by decide +kernel,
    bus_fifo 32 2 (by decide) ⟨1, rfl⟩ (by decide) pingOrPong hids
      (pingOrPong_forall (by decide) (by decide)) (pingOrPong_forall (by decide) (by decide))
      .little {} {} ⟨0x1000, 0⟩ ⟨0x2000, 0⟩ rfl (by decide) rfl (by decide) _ _ hreach⟩

end Sinew
