import Sinew.Proofs.Dispatch
import Sinew.Proofs.Session

/-!
# The consumer's calls

From the check of `peek_read` on, the slot at `tail` is live and stays so: the
producer can only add messages behind it. Everything that is then read of the
slot is the message that was committed there, and `view` accepts it, because a
finished packet passes its own checks.

The consumer stores nothing but `tail`, so most of its steps are loads, and
what they say about the state afterwards is that nothing of its own has moved.
-/

namespace Sinew

open Lib

variable {L : Layout} {host : Endian} {types : MsgType → Prop} {stepwise : Bool}
  {base : Nat} {s s' : Shared} {T : MsgType} {l : Label} {α : Type}

/-- The consumer has not moved; the producer may have committed more. -/
structure Quiet (s s' : Shared) : Prop where
  taken : s'.taken = s.taken
  seen : s'.seen = s.seen
  committed : s.committed <+: s'.committed

theorem Quiet.refl (s : Shared) : Quiet s s := ⟨rfl, rfl, List.prefix_rfl⟩

theorem Quiet.trans {s'' : Shared} (h : Quiet s s') (h' : Quiet s' s'') : Quiet s s'' :=
  ⟨h'.taken.trans h.taken, h'.seen.trans h.seen, h.committed.trans h'.committed⟩

theorem ConsumerRely.quiet (h : ConsumerRely L s s') : Quiet s s' :=
  ⟨h.taken, h.seen, h.committed⟩

/-- The oldest message that has not been taken. -/
def Shared.Front (s : Shared) (T : MsgType) (payload : List UInt8) : Prop :=
  s.committed[s.taken.length]? = some (T, payload)

theorem List.IsPrefix.getElem?_some {xs ys : List α} (h : xs <+: ys) {k : Nat} {x : α}
    (hx : xs[k]? = some x) : ys[k]? = some x := by
  obtain ⟨zs, rfl⟩ := h
  rw [List.getElem?_append_left (List.getElem?_eq_some_iff.mp hx).1, hx]

theorem Shared.Front.lt {payload : List UInt8} (h : s.Front T payload) :
    s.taken.length < s.committed.length := (List.getElem?_eq_some_iff.mp h).1

theorem Shared.Front.quiet {payload : List UInt8} (h : s.Front T payload)
    (hq : Quiet s s') : s'.Front T payload := by
  unfold Shared.Front at h ⊢
  rw [hq.taken]
  exact List.IsPrefix.getElem?_some hq.committed h

theorem Shared.exists_front (h : s.taken.length < s.committed.length) :
    ∃ T payload, s.Front T payload :=
  ⟨_, _, List.getElem?_eq_getElem h⟩

/-- The `n` cells from `lo` on, as a memory of their own. -/
def Shared.window (lo n : Nat) (s : Shared) : Mem :=
  ⟨fun x => if lo ≤ x ∧ x < lo + n then s.byte x else 0, fun _ => 0, []⟩

theorem Shared.slice_window {lo n a k : Nat} (s : Shared) (hlo : lo ≤ a)
    (hhi : a + k ≤ lo + n) :
    slice (s.window lo n).byte a k = slice s.byte a k :=
  slice_congr fun x hx hx' => if_pos ⟨by omega, by omega⟩

/-- While a message is unread, a program that reads its slot runs as if it
were alone. -/
theorem wp_window {p : Code α} {Q : α → Shared → Prop}
    (hlt : s.taken.length < s.committed.length)
    (hal : p.Along Mem.machine (LoadsIn (L.slotOff s.taken.length)
        (L.slotOff s.taken.length + L.slotSize))
      (s.window (L.slotOff s.taken.length) L.slotSize))
    (hQ : ∀ s', s'.Inv L host types stepwise → Quiet s s' →
      Q (p.run Mem.machine (s.window (L.slotOff s.taken.length) L.slotSize)).1 s') :
    (consumerEnv L host types stepwise).wp (Shared.exec L l) p Q s := by
  refine Env.wp_run (Shared.window (L.slotOff s.taken.length) L.slotSize)
    (fun t => Quiet s t) ?_ ?_ (Quiet.refl s) hal ?_
  · rintro t t' ht (hr : ConsumerRely L t t') _
    have hk : t.taken.length ≤ s.taken.length := by rw [ht.taken]
    have hk' : s.taken.length < t.committed.length :=
      Nat.lt_of_lt_of_le hlt ht.committed.length_le
    have hcells := slice_inj (hr.live s.taken.length hk hk')
    refine ⟨ht.trans hr.quiet, ?_⟩
    unfold Shared.window
    congr 1
    funext x
    split
    · next hx => exact hcells x hx.1 hx.2
    · rfl
  · rintro t e hinv ht hok
    cases e with
    | load q =>
        refine ⟨(if_pos hok).symm, rfl, ht, hinv, ProducerRely.refl t⟩
    | _ => exact hok.elim
  · exact fun t hinv ht _ => hQ t hinv ht

theorem LoadsIn.mono {lo hi hi' : Nat} (h : hi ≤ hi') (m : Mem) (e : Ev)
    (he : LoadsIn lo hi m e) : LoadsIn lo hi' m e := by
  cases e with
  | load p => exact ⟨he.1, Nat.lt_of_lt_of_le he.2 h⟩
  | _ => exact he.elim

theorem Shared.Inv.front_packet (h : s.Inv L host types stepwise)
    (htypes : ∀ T, types T → L.Takes T) {U : MsgType} {payload : List UInt8}
    (hfront : s.Front U payload) :
    Header.size + U.size ≤ L.slotSize ∧ ∃ crc, (crc = 0 ∨ crc = crc32 payload) ∧
      slice (s.window (L.slotOff s.taken.length) L.slotSize).byte
        (L.slotOff s.taken.length) (Header.size + U.size) = packet host U crc payload := by
  have hfits := (htypes U (h.typed _ (List.mem_of_getElem? hfront))).fits
  obtain ⟨_, crc, hcrc, hpk⟩ := h.live _ U payload (Nat.le_refl _) hfront
  exact ⟨hfits, crc, hcrc,
    (s.slice_window (Nat.le_refl _) (Nat.add_le_add_left hfits _)).trans hpk⟩

theorem Shared.Inv.front_bytes (h : s.Inv L host types stepwise) {U : MsgType}
    {payload : List UInt8} (hfront : s.Front U payload) {p : Ptr}
    (hp : p.off = L.slotOff s.taken.length + Header.size) :
    slice s.byte p.off U.size = payload := by
  obtain ⟨_, crc, _, hpk⟩ := h.live _ U payload (Nat.le_refl _) hfront
  rw [hp]
  exact (packet_parts hpk).2

/-- What the slot at `tail` says to a type: it is accepted by those that agree
with the one it was committed as on what a header says. -/
theorem Shared.Inv.validate_front_iff (h : s.Inv L host types stepwise)
    (htypes : ∀ T, types T → L.Takes T) (hbase : 16 ∣ base) {U : MsgType}
    {payload : List UInt8} (hfront : s.Front U payload) (hT : L.Takes T) (v : Bool) :
    validateMem host T ⟨base, L.slotOff s.taken.length⟩
        (s.window (L.slotOff s.taken.length) L.slotSize).byte L.slotSize v = .ok ↔
      T.size = U.size ∧ T.id = U.id ∧ T.version = U.version := by
  have hU := h.typed _ (List.mem_of_getElem? hfront)
  obtain ⟨hfits, crc, hcrc, hwin⟩ := h.front_packet htypes hfront
  rw [validateMem_eq_ok, carries_packet (htypes U hU).small hwin hcrc]
  constructor
  · intro ⟨⟨_, hsame⟩, _⟩
    exact hsame
  · intro hsame
    exact ⟨⟨hT.fits, hsame⟩, hT.aligned hbase _⟩

/-- Of the types of the session it is that one only. -/
theorem Shared.Inv.validate_front (h : s.Inv L host types stepwise)
    (htypes : ∀ T, types T → L.Takes T)
    (hids : ∀ T U, types T → types U → T.id = U.id → T = U)
    (hbase : 16 ∣ base) {U : MsgType} {payload : List UInt8} (hfront : s.Front U payload)
    (hT : types T) (v : Bool) :
    validateMem host T ⟨base, L.slotOff s.taken.length⟩
        (s.window (L.slotOff s.taken.length) L.slotSize).byte L.slotSize v = .ok ↔
      T = U := by
  have hU := h.typed _ (List.mem_of_getElem? hfront)
  rw [h.validate_front_iff htypes hbase hfront (htypes T hT)]
  constructor
  · intro ⟨_, hid, _⟩
    exact hids T U hT hU hid
  · intro heq
    subst heq
    exact ⟨rfl, rfl, rfl⟩

theorem wp_viewOf {U : MsgType} {payload : List UInt8} (hfront : s.Front U payload)
    (hT : L.Takes T) (v : Bool) :
    (consumerEnv L host types stepwise).wp (Shared.exec L l)
      (view host T (some ⟨base, L.slotOff s.taken.length⟩) L.slotSize v)
      (fun r s' => Quiet s s' ∧ ∀ p, r = some p ↔
        validateMem host T ⟨base, L.slotOff s.taken.length⟩
          (s.window (L.slotOff s.taken.length) L.slotSize).byte L.slotSize v = .ok ∧
        p = ⟨base, L.slotOff s.taken.length + Header.size⟩) s := by
  have hfits := hT.fits
  refine wp_window hfront.lt ((view_loadsIn _ _).mono (LoadsIn.mono (by
    dsimp only
    omega))) fun t _ ht => ⟨ht, ?_⟩
  rw [run_view]
  dsimp only
  split
  · next hok =>
      exact fun p => ⟨fun h => ⟨hok, (Option.some.inj h).symm⟩,
        fun h => congrArg some h.2.symm⟩
  · next hbad =>
      refine fun p => ⟨fun h => ?_, fun h => absurd h.1 hbad⟩
      cases h

theorem wp_view (htypes : ∀ T, types T → L.Takes T)
    (hids : ∀ T U, types T → types U → T.id = U.id → T = U)
    (hbase : 16 ∣ base) {U : MsgType} {payload : List UInt8}
    (hinv : s.Inv L host types stepwise) (hfront : s.Front U payload)
    (hT : types T) (v : Bool) :
    (consumerEnv L host types stepwise).wp (Shared.exec L l)
      (view host T (some ⟨base, L.slotOff s.taken.length⟩) L.slotSize v)
      (fun r s' => Quiet s s' ∧ ∀ p, r = some p ↔
        T = U ∧ p = ⟨base, L.slotOff s.taken.length + Header.size⟩) s := by
  refine Env.wp_mono (wp_viewOf hfront (htypes T hT) v) fun r t _ ⟨hq, hr⟩ =>
    ⟨hq, fun p => ?_⟩
  rw [hr p, hinv.validate_front htypes hids hbase hfront hT v]

theorem wp_loadPayload (htypes : ∀ T, types T → L.Takes T)
    (hinv : s.Inv L host types stepwise) {payload : List UInt8}
    (hfront : s.Front T payload) {p : Ptr}
    (hp : p.off = L.slotOff s.taken.length + Header.size) :
    (consumerEnv L host types stepwise).wp (Shared.exec L l) (loadBytes p T.size)
      (fun bytes s' => Quiet s s' ∧ bytes = payload) s := by
  obtain ⟨hfits, crc, _, hpk⟩ := hinv.front_packet htypes hfront
  refine wp_window hfront.lt (loadBytes_loadsIn (by omega) (by omega))
    fun t _ ht => ⟨ht, ?_⟩
  rw [run_loadBytes, hp]
  exact (packet_parts hpk).2

/-! ## The calls -/

/-- Where a peek left the consumer: at the payload of the oldest message. -/
def Peeked (L : Layout) (T : MsgType) (p : Ptr) (s : Shared) : Prop :=
  p.off = L.slotOff s.taken.length + Header.size ∧ ∃ payload, s.Front T payload

theorem Peeked.quiet {p : Ptr} (h : Peeked L T p s) (hq : Quiet s s') :
    Peeked L T p s' := by
  obtain ⟨hp, payload, hf⟩ := h
  refine ⟨?_, payload, hf.quiet hq⟩
  rw [hq.taken]
  exact hp

/-- An environment a consumer can work in: the counters are right, and the other
side only commits. -/
structure Consuming (E : Env Shared) (L : Layout) : Prop where
  counts : ∀ {s}, E.inv s → s.Counts L
  rely : ∀ {s s'}, E.rely s s' → CommitsOnly s s'
  guar : ∀ s, E.guar s s

theorem consuming : Consuming (consumerEnv L host types stepwise) L :=
  ⟨fun h => Shared.Inv.counts h, fun h => ConsumerRely.commitsOnly h, ProducerRely.refl⟩

/-- Loading both counters: either the ring was empty, or there is a message, and
the loaded `tail` is its number. -/
theorem wp_counters {E : Env Shared} (hE : Consuming E L) (hL : L.Sane)
    {f : Nat → Nat → Code α} {Q : α → Shared → Prop}
    (hempty : ∀ s' n, E.inv s' → E.rely s s' → s'.taken.length = s'.committed.length →
      E.wp (Shared.exec L l) (f n n) Q s')
    (hwaiting : ∀ s' tail head, E.inv s' → E.rely s s' → s'.Waiting → tail ≠ head →
      tail = s'.taken.length % 2 ^ L.w → E.wp (Shared.exec L l) (f tail head) Q s') :
    E.wp (Shared.exec L l) (do
      let tail ← loadWord (L.at base).tail
      let head ← loadWord (L.at base).head
      f tail head) Q s := by
  refine wp_loadWord hE.guar fun s₁ hr₁ hi₁ => ?_
  refine wp_loadWord hE.guar fun s₂ hr₂ hi₂ => ?_
  have hr := E.rely_trans _ _ _ hr₁ hr₂
  have hc₁ := hE.counts hi₁
  have hc₂ := hE.counts hi₂
  have htail : s₁.word (L.at base).tail.off = s₂.word L.tailOff :=
    hc₁.tail_eq hc₂ (hE.rely hr₂).taken
  by_cases heq : s₂.taken.length = s₂.committed.length
  · have hsame : s₁.word (L.at base).tail.off = s₂.word (L.at base).head.off :=
      htail.trans ((hc₂.cursors_eq_iff hL).mpr heq)
    rw [hsame]
    exact hempty s₂ _ hi₂ hr heq
  · refine hwaiting s₂ _ _ hi₂ hr (Nat.lt_of_le_of_ne hc₂.le heq) ?_ ?_
    · rw [htail]
      exact mt (hc₂.cursors_eq_iff hL).mp heq
    · rw [htail, hc₂.tail]

/-- Whatever is looked for in the slot, it is found only where there is a message. -/
theorem wp_look {E : Env Shared} (hE : Consuming E L) (hL : L.Sane) {empty : α}
    {look : Nat → Code α} (found : α → Prop) (hempty : ¬ found empty)
    (hlook : ∀ tail s, E.wp (Shared.exec L l) (look tail) (fun _ s' => E.rely s s') s)
    (s : Shared) :
    E.wp (Shared.exec L l) (do
      let tail ← loadWord (L.at base).tail
      let head ← loadWord (L.at base).head
      if tail = head then
        return empty
      look tail) (fun r s' => E.rely s s' ∧ (found r → s'.Waiting)) s := by
  refine wp_counters hE hL (fun s₁ n _ hr₁ _ => ?_)
    fun s₁ tail head _ hr₁ hwaiting hne _ => ?_
  · rw [if_pos rfl]
    exact Env.wp_ret fun s₂ hr₂ _ =>
      ⟨E.rely_trans _ _ _ hr₁ hr₂, fun h => absurd h hempty⟩
  · rw [if_neg hne]
    refine Env.wp_mono (hlook tail s₁) ?_
    intro r s₂ _ hr₂
    exact ⟨E.rely_trans _ _ _ hr₁ hr₂, fun _ => hwaiting.commitsOnly (hE.rely hr₂)⟩

/-- Loading both cursors: either the ring was empty, or there is an oldest
message and its slot is the one the loaded `tail` selects. -/
theorem wp_cursors (hL : L.Sane) {f : Nat → Nat → Code α} {Q : α → Shared → Prop}
    (hempty : ∀ s' n, s'.Inv L host types stepwise → Quiet s s' →
      s'.taken.length = s'.committed.length →
      (consumerEnv L host types stepwise).wp (Shared.exec L l) (f n n) Q s')
    (hfront : ∀ s' tail head U payload, s'.Inv L host types stepwise → Quiet s s' →
      s'.Front U payload → tail ≠ head →
      (L.at base).slot tail = ⟨base, L.slotOff s'.taken.length⟩ →
      (consumerEnv L host types stepwise).wp (Shared.exec L l) (f tail head) Q s') :
    (consumerEnv L host types stepwise).wp (Shared.exec L l) (do
      let tail ← loadWord (L.at base).tail
      let head ← loadWord (L.at base).head
      f tail head) Q s := by
  refine wp_counters consuming hL (fun s₁ n hi (hr : ConsumerRely L s s₁) heq =>
    hempty s₁ n hi hr.quiet heq) fun s₁ tail head hi (hr : ConsumerRely L s s₁) hwaiting hne
      htail => ?_
  obtain ⟨U, payload, hf⟩ := Shared.exists_front hwaiting
  refine hfront s₁ tail head U payload hi hr.quiet hf hne ?_
  rw [htail, hL.slot]

/-- `peek_read` moves nothing. It answers the oldest message's payload, or there
was no message of its type to answer. -/
theorem wp_peekRead (hL : L.Sane) (htypes : ∀ T, types T → L.Takes T)
    (hids : ∀ T U, types T → types U → T.id = U.id → T = U)
    (hbase : 16 ∣ base) (hT : types T) (v : Bool) :
    (consumerEnv L host types stepwise).wp (Shared.exec L l)
      ((L.at base).peekRead host T v)
      (fun r s' => Quiet s s' ∧ (∀ p, r = some p → Peeked L T p s') ∧
        (r = none → ∀ payload, ¬ s.Front T payload)) s := by
  refine wp_cursors hL (fun s₁ n _ hq heq => ?_)
    fun s₁ tail head U payload hi₁ hq hf hne hslot => ?_
  · rw [if_pos rfl]
    refine Env.wp_ret fun s₂ (hr : ConsumerRely L s₁ s₂) _ =>
      ⟨hq.trans hr.quiet, fun p hp => ?_, fun _ payload hf => ?_⟩
    · cases hp
    · have := (hf.quiet hq).lt
      omega
  · rw [if_neg hne, hslot]
    refine Env.wp_mono (wp_view htypes hids hbase hi₁ hf hT v) ?_
    rintro r s₂ _ ⟨hq₂, hr⟩
    refine ⟨hq.trans hq₂, fun p hp => ?_, fun hnone payload' hf' => ?_⟩
    · obtain ⟨rfl, rfl⟩ := (hr p).mp hp
      refine ⟨?_, payload, hf.quiet hq₂⟩
      rw [hq₂.taken]
    · have hsame : some (T, payload') = some (U, payload) := (hf'.quiet hq).symm.trans hf
      obtain ⟨rfl, -⟩ := Prod.mk.inj (Option.some.inj hsame)
      rw [(hr _).mpr ⟨rfl, rfl⟩] at hnone
      cases hnone

theorem wp_commitRead (hL : L.Sane) (htypes : ∀ T, types T → L.Takes T)
    (hlt : s.taken.length < s.committed.length)
    (hstep : stepwise = true → s.seen.length = s.taken.length + 1) :
    (consumerEnv L host types stepwise).wp (Shared.exec L l) (L.at base).commitRead
      (fun _ s' => s'.taken.length = s.taken.length + 1 ∧ s'.seen = s.seen ∧
        s.committed <+: s'.committed) s := by
  refine wp_loadWord ProducerRely.refl fun s₁ (hr₁ : ConsumerRely L s s₁) hi₁ => ?_
  refine Env.wp_event fun s₂ (hr₂ : ConsumerRely L s₁ s₂) hi₂ => ?_
  have hi₂ : s₂.Inv L host types stepwise := hi₂
  have hq := hr₁.quiet.trans hr₂.quiet
  have htail : s₁.word (L.at base).tail.off = s₂.word L.tailOff :=
    hi₁.counts.tail_eq hi₂.counts (congrArg List.length hr₂.taken)
  have hlen : s₂.taken.length = s.taken.length := by rw [hq.taken]
  have hlt₂ : s₂.taken.length < s₂.committed.length := by
    rw [hlen]
    exact Nat.lt_of_lt_of_le hlt hq.committed.length_le
  obtain ⟨hinv, hguar, hcom, hseen, htaken⟩ := hi₂.take hL htypes hlt₂
    (fun h => by rw [hq.seen, hlen]; exact hstep h) l.writes
  rw [htail]
  refine ⟨hinv, hguar, fun s₃ (hr₃ : ConsumerRely L _ s₃) _ => ⟨?_, ?_, ?_⟩⟩
  · rw [hr₃.taken]
    exact htaken.trans (by rw [hlen])
  · rw [hr₃.seen]
    exact hseen.trans hq.seen
  · have hcom' := hr₃.committed
    exact hq.committed.trans (List.IsPrefix.trans (by rw [← hcom]; exact List.prefix_rfl)
      hcom')

/-- `pop` takes the oldest message and answers its payload, or moves nothing. -/
theorem wp_pop (hL : L.Sane) (htypes : ∀ T, types T → L.Takes T)
    (hids : ∀ T U, types T → types U → T.id = U.id → T = U)
    (hbase : 16 ∣ base) (hT : types T) (v : Bool) (hstep : stepwise = false) :
    (consumerEnv L host types stepwise).wp (Shared.exec L l) ((L.at base).pop host T v)
      (fun r s' => s'.seen = s.seen ∧ s.committed <+: s'.committed ∧ match r with
        | none => s'.taken.length = s.taken.length
        | some bytes => s'.taken.length = s.taken.length + 1 ∧
            s'.committed[s.taken.length]? = some (T, bytes)) s := by
  refine Env.wp_bind (Env.wp_mono
    (wp_peekRead hL htypes hids hbase hT v) ?_)
  rintro r s₁ hi₁ ⟨hq₁, hpeek, -⟩
  have hi₁ : s₁.Inv L host types stepwise := hi₁
  cases r with
  | none =>
      refine Env.wp_ret fun s₂ (hr₂ : ConsumerRely L s₁ s₂) _ => ?_
      have hq := hq₁.trans hr₂.quiet
      exact ⟨hq.seen, hq.committed, by rw [hq.taken]⟩
  | some p =>
      obtain ⟨hp, payload, hf⟩ := hpeek p rfl
      refine Env.wp_bind (Env.wp_mono
        (wp_loadPayload htypes hi₁ hf hp) ?_)
      rintro bytes s₂ hi₂ ⟨hq₂, rfl⟩
      have hq := hq₁.trans hq₂
      have hf₂ := hf.quiet hq₂
      refine Env.wp_bind (Env.wp_mono (wp_commitRead hL htypes
        hf₂.lt (fun h => by rw [hstep] at h; cases h)) ?_)
      rintro _ s₃ _ ⟨htaken, hseen, hcom⟩
      refine Env.wp_ret fun s₄ (hr₄ : ConsumerRely L s₃ s₄) _ => ⟨?_, ?_, ?_, ?_⟩
      · rw [hr₄.seen, hseen, hq.seen]
      · exact (hq.committed.trans hcom).trans hr₄.committed
      · rw [hr₄.taken, htaken, hq.taken]
      · have hget : s₂.committed[s.taken.length]? = some (T, bytes) := by
          rw [← hq.taken]
          exact hf₂
        exact List.IsPrefix.getElem?_some (hcom.trans hr₄.committed) hget

theorem wp_record (htypes : ∀ T, types T → L.Takes T)
    (hinv : s.Inv L host types stepwise) {payload : List UInt8}
    (hfront : s.Front T payload) {p : Ptr}
    (hp : p.off = L.slotOff s.taken.length + Header.size)
    (hstep : stepwise = true → s.seen.length = s.taken.length) :
    (consumerEnv L host types stepwise).wp (Shared.exec L l) (record T p)
      (fun r s' => r = .returned ∧ s'.taken = s.taken ∧ s.committed <+: s'.committed ∧
        s'.seen = s.seen ++ [(s.taken.length, T, payload)]) s := by
  refine Env.wp_bind (Env.wp_mono (wp_loadPayload htypes hinv hfront hp) ?_)
  rintro bytes s₁ _ ⟨hq₁, rfl⟩
  refine Env.wp_event_bind fun s₂ (hr₂ : ConsumerRely L s₁ s₂) hi₂ => ?_
  have hi₂ : s₂.Inv L host types stepwise := hi₂
  have hq := hq₁.trans hr₂.quiet
  obtain ⟨hinv', hguar⟩ := hi₂.visit (hfront.quiet hq)
    (fun h => by rw [hq.seen, hq.taken]; exact hstep h)
  refine ⟨hinv', hguar, Env.wp_ret fun s₃ (hr₃ : ConsumerRely L _ s₃) _ =>
    ⟨rfl, ?_, ?_, ?_⟩⟩
  · rw [hr₃.taken]
    exact hq.taken
  · exact hq.committed.trans hr₃.committed
  · rw [hr₃.seen]
    change s₂.seen ++ [(s₂.taken.length, T, bytes)] = _
    rw [hq.seen, hq.taken]

/-- What a call does that names the types it takes: it hands the oldest message,
which is of such a type, to the visitor and takes it, or it takes nothing. A
message that was there and is of a type it names is not left lying. -/
structure Served (msgTypes : List MsgType) (s : Shared) (r : Option Bool)
    (s' : Shared) : Prop where
  committed : s.committed <+: s'.committed
  answer : (r = some true ∧ s'.taken.length = s.taken.length + 1 ∧
      s'.seen.length = s.seen.length + 1 ∧ ∃ T ∈ msgTypes, ∃ payload,
        s'.committed[s.taken.length]? = some (T, payload)) ∨
    (r = some false ∧ s'.taken = s.taken ∧ s'.seen = s.seen ∧
      ∀ T payload, s.Front T payload → T ∉ msgTypes)

theorem Served.moves {msgTypes : List MsgType} {r : Option Bool}
    (h : Served msgTypes s r s') : s'.taken.length =
      if r = some true then s.taken.length + 1 else s.taken.length := by
  rcases h.answer with ⟨rfl, htaken, -⟩ | ⟨rfl, htaken, -⟩
  · exact htaken
  · rw [htaken]
    rfl

theorem wp_served (hL : L.Sane) (htypes : ∀ T, types T → L.Takes T)
    {msgTypes : List MsgType} {s₁ : Shared} {payload : List UInt8}
    (hcom₁ : s.committed <+: s₁.committed) (htaken₁ : s₁.taken = s.taken)
    (hseen₁ : s₁.seen.length = s.seen.length + 1) (hT : T ∈ msgTypes)
    (hfront : s₁.Front T payload)
    (hstep : stepwise = true → s.seen.length = s.taken.length) :
    (consumerEnv L host types stepwise).wp (Shared.exec L l) (do
      (L.at base).commitRead
      return some true) (Served msgTypes s) s₁ := by
  refine Env.wp_bind (Env.wp_mono (wp_commitRead hL htypes hfront.lt
    fun h => by rw [hseen₁, htaken₁, hstep h]) ?_)
  intro _ s₂ _ ⟨htaken₂, hseen₂, hcom₂⟩
  refine Env.wp_ret fun s₃ (hr : ConsumerRely L s₂ s₃) _ =>
    ⟨(hcom₁.trans hcom₂).trans hr.committed, .inl ⟨rfl, ?_, ?_, T, hT, payload, ?_⟩⟩
  · rw [hr.taken, htaken₂, htaken₁]
  · rw [hr.seen, hseen₂, hseen₁]
  · rw [← htaken₁]
    exact List.IsPrefix.getElem?_some (hcom₂.trans hr.committed) hfront

theorem wp_consume (hL : L.Sane) (htypes : ∀ T, types T → L.Takes T)
    (hids : ∀ T U, types T → types U → T.id = U.id → T = U)
    (hbase : 16 ∣ base) (hT : types T) (v : Bool)
    (hstep : stepwise = true → s.seen.length = s.taken.length) :
    (consumerEnv L host types stepwise).wp (Shared.exec L l)
      ((L.at base).consume host T record v) (Served [T] s) s := by
  refine Env.wp_bind (Env.wp_mono
    (wp_peekRead hL htypes hids hbase hT v) ?_)
  intro r s₁ hi₁ ⟨hq₁, hsome, hnone⟩
  have hi₁ : s₁.Inv L host types stepwise := hi₁
  cases r with
  | none =>
      refine Env.wp_ret fun s₂ (hr₂ : ConsumerRely L s₁ s₂) _ => ?_
      have hq := hq₁.trans hr₂.quiet
      refine ⟨hq.committed, .inr ⟨rfl, hq.taken, hq.seen, fun U payload hf hmem => ?_⟩⟩
      obtain rfl := List.mem_singleton.mp hmem
      exact hnone rfl payload hf
  | some p =>
      obtain ⟨hp, payload, hf⟩ := hsome p rfl
      refine Env.wp_bind (Env.wp_mono
        (wp_record htypes hi₁ hf hp
          (fun h => by rw [hq₁.seen, hq₁.taken]; exact hstep h)) ?_)
      intro outcome s₂ _ ⟨houtcome, htaken₂, hcom₂, hseen₂⟩
      subst houtcome
      have hfront : s₂.Front T payload := by
        unfold Shared.Front
        rw [htaken₂]
        exact List.IsPrefix.getElem?_some hcom₂ hf
      refine wp_served hL htypes (hq₁.committed.trans hcom₂) (htaken₂.trans hq₁.taken) ?_
        List.mem_cons_self hfront hstep
      rw [hseen₂, List.length_append, List.length_singleton, hq₁.seen]

theorem consume_alone (hL : L.Sane) (htypes : ∀ T, types T → L.Takes T)
    (hids : ∀ T U, types T → types U → T.id = U.id → T = U) (hbase : 16 ∣ base)
    (hT : types T) (v : Bool) (hinv : s.Inv L host types stepwise) {payload : List UInt8}
    (hfront : s.Front T payload)
    (hstep : stepwise = true → s.seen.length = s.taken.length) :
    let run := ((L.at base).consume host T record v).run (Shared.exec L l) s
    run.1 = some true ∧ run.2.Inv L host types stepwise ∧ run.2.committed = s.committed ∧
      run.2.taken.length = s.taken.length + 1 := by
  have hwp : (consumerEnv L host types stepwise).wp (Shared.exec L l)
      ((L.at base).consume host T record v) (Served [T] s) s :=
    wp_consume hL htypes hids hbase hT v hstep
  obtain ⟨hinv', hserved⟩ := Env.wp_alone hwp hinv
  have hguar : ProducerRely s _ :=
    Env.guar_alone hwp hinv (fun _ _ h => h) ProducerRely.refl
      fun _ _ _ => ProducerRely.trans
  rcases hserved.answer with ⟨hr, htaken, -⟩ | ⟨-, -, -, hnone⟩
  · exact ⟨hr, hinv', hguar.committed, htaken⟩
  · exact absurd (List.mem_singleton_self T) (hnone T payload hfront)

/-- The events that change nothing in the segment. -/
def Ev.Silent : Ev → Prop
  | .store _ _ => False
  | .storeWord _ _ => False
  | .visit _ _ => False
  | _ => True

def Paged : (e : Ev) → Ev.Res e → Prop
  | .mmap _ _, r => ∀ p : Ptr, r = some p → p.off = 0 ∧ 4096 ∣ p.base
  | _, _ => True

theorem Shared.exec_paged (s : Shared) (e : Ev) : Paged e (Shared.exec L l s e).1 := by
  cases e with
  | mmap n fd => exact l.os.paged
  | _ => trivial

theorem Shared.exec_silent {e : Ev} (h : e.Silent) (s : Shared) :
    (Shared.exec L l s e).2 = s := by
  cases e <;> first | rfl | exact h.elim

theorem wp_silent_env {E : Env Shared} (hguar : ∀ s, E.guar s s) {p : Code α} {R : α → Prop}
    (h : p.Always Ev.Silent Paged R) (s : Shared) :
    E.wp (Shared.exec L l) p (fun a s' => R a ∧ E.rely s s') s := by
  refine Env.wp_always h (E.rely s) (fun t t' ht hr _ => E.rely_trans _ _ _ ht hr)
    (fun t e hi ht he => ?_) (E.rely_refl s)
  rw [Shared.exec_silent he]
  exact ⟨Shared.exec_paged t e, hi, hguar t, ht⟩

theorem wp_silent {p : Code α} {R : α → Prop} (h : p.Always Ev.Silent Paged R) :
    (consumerEnv L host types stepwise).wp (Shared.exec L l) p
      (fun a s' => R a ∧ Quiet s s') s :=
  Env.wp_mono (wp_silent_env ProducerRely.refl h s) fun _ _ _ ⟨hR, hr⟩ =>
    ⟨hR, ConsumerRely.quiet hr⟩

end Sinew
