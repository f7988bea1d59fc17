import Sinew.Proofs.Asking
import Sinew.Proofs.LaunchClients

/-!
# The consumer of a bus that is being created

A look at the slot of `tail` that names a type finds the oldest message or
nothing. It may find it as another type than the one it was committed as, if the
two look alike: the payload is the same. No type has an id to itself here, and a
type may be named that no slot could hold.
-/

namespace Sinew

open Lib

variable {L : Layout} {host : Endian} {types : MsgType → Prop} {base : Nat}
  {b b' : Backing} {s s' : Shared} {l : Label} {T U : MsgType} {payload : List UInt8}
  {p : Ptr} {v : Bool} {α : Type}

/-- The consumer has not moved, and nothing committed is lost. -/
structure Shared.Still (s s' : Shared) : Prop where
  taken : s'.taken = s.taken
  committed : s.committed <+: s'.committed

theorem Shared.Still.refl (s : Shared) : s.Still s := ⟨rfl, List.prefix_rfl⟩

theorem Shared.Still.trans {s'' : Shared} (h : s.Still s') (h' : s'.Still s'') :
    s.Still s'' := ⟨h'.taken.trans h.taken, h.committed.trans h'.committed⟩

theorem Quiet.still (h : Quiet s s') : s.Still s' := ⟨h.taken, h.committed⟩

theorem Shared.Front.still (h : s.Front U payload) (hs : s.Still s') : s'.Front U payload := by
  unfold Shared.Front at h ⊢
  rw [hs.taken]
  exact List.IsPrefix.getElem?_some hs.committed h

/-- The payload of the oldest message, which looks like a `T`, is at `p`. -/
def Finds (L : Layout) (T : MsgType) (p : Ptr) (s : Shared) : Prop :=
  p.off = L.slotOff s.taken.length + Header.size ∧
    ∃ U payload, T.Alike U ∧ s.Front U payload

theorem Finds.still (h : Finds L T p s) (hs : s.Still s') : Finds L T p s' := by
  obtain ⟨hp, U, payload, halike, hfront⟩ := h
  refine ⟨?_, U, payload, halike, hfront.still hs⟩
  rw [hs.taken]
  exact hp

/-- A type for which the slots would do, if it fits them. -/
abbrev Layout.Suits (L : Layout) (T : MsgType) : Prop :=
  Header.size + T.size ≤ L.slotSize → L.Takes T

theorem wp_viewFinds (htypes : ∀ T, types T → L.Takes T) (hbase : 16 ∣ base)
    (hinv : s.Inv L host types false) (hfront : s.Front U payload) (hT : L.Suits T) :
    (consumerEnv L host types false).wp (Shared.exec L l)
      (view host T (some ⟨base, L.slotOff s.taken.length⟩) L.slotSize v)
      (fun r s' => Quiet s s' ∧ ∀ p, r = some p → Finds L T p s') s := by
  by_cases hfits : Header.size + T.size ≤ L.slotSize
  · refine Env.wp_mono (wp_viewOf hfront (hT hfits) v) fun r s' _ ⟨hq, hr⟩ =>
      ⟨hq, fun p hp => ?_⟩
    obtain ⟨hok, hp⟩ := (hr p).mp hp
    obtain ⟨hsize, hid, hversion⟩ :=
      (hinv.validate_front_iff htypes hbase hfront (hT hfits) v).mp hok
    subst hp
    refine ⟨?_, U, payload, ⟨hsize.symm, hid.symm, hversion.symm⟩, hfront.quiet hq⟩
    rw [hq.taken]
  · have hnone : view host T (some ⟨base, L.slotOff s.taken.length⟩) L.slotSize v =
        pure none := by
      rw [view, validate, if_pos (Nat.lt_of_not_le hfits)]
      rfl
    rw [hnone]
    exact Env.wp_ret fun s' (hr : ConsumerRely L s s') _ =>
      ⟨hr.quiet, fun p hp => by cases hp⟩

theorem wp_loadCursors (hL : L.Sane) :
    (consumerEnv L host types false).wp (Shared.exec L l) (do
      let tail ← loadWord (L.at base).tail
      let head ← loadWord (L.at base).head
      return (tail, head))
      (fun cursors s' => Quiet s s' ∧ (cursors.1 ≠ cursors.2 →
        (L.at base).slot cursors.1 = ⟨base, L.slotOff s'.taken.length⟩ ∧
          ∃ U payload, s'.Front U payload)) s := by
  refine wp_cursors hL (fun s₁ n _ hq _ => ?_)
    fun s₁ tail head U payload _ hq hfront _ hslot => ?_
  · exact Env.wp_ret fun s₂ (hr : ConsumerRely L s₁ s₂) _ =>
      ⟨hq.trans hr.quiet, fun hne => absurd rfl hne⟩
  · refine Env.wp_ret fun s₂ (hr : ConsumerRely L s₁ s₂) _ =>
      ⟨hq.trans hr.quiet, fun _ => ⟨?_, U, payload, hfront.quiet hr.quiet⟩⟩
    rw [hr.taken]
    exact hslot

theorem wp_peekFinds (hL : L.Sane) (htypes : ∀ T, types T → L.Takes T) (hbase : 16 ∣ base)
    (hT : L.Suits T) :
    (consumerEnv L host types false).wp (Shared.exec L l) ((L.at base).peekRead host T v)
      (fun r s' => Quiet s s' ∧ ∀ p, r = some p → Finds L T p s') s := by
  refine wp_cursors hL (fun s₁ n _ hq _ => ?_)
    fun s₁ tail head U payload hinv hq hfront hne hslot => ?_
  · rw [if_pos rfl]
    exact Env.wp_ret fun s₂ (hr : ConsumerRely L s₁ s₂) _ =>
      ⟨hq.trans hr.quiet, fun p hp => by cases hp⟩
  · rw [if_neg hne, hslot]
    exact Env.wp_mono (wp_viewFinds htypes hbase hinv hfront hT) fun r s₂ _ ⟨hq₂, hr⟩ =>
      ⟨hq.trans hq₂, hr⟩

abbrev attachedEnv (L : Layout) (host : Endian) (types : MsgType → Prop) : Env Backing :=
  Backing.env L host types (consumerEnv L host types false)

theorem wp_ring_silent {R : α → Prop} {q : Code α} (h : q.Always Ev.Silent Paged R) :
    (attachedEnv L host types).wp (Backing.exec L (.ring l)) q
      (fun a b' => R a ∧ b'.Inv L host types ∧ b.shared.Still b'.shared) b :=
  Env.wp_mono (deaf_consumer.wp_ring (wp_silent h)) fun _ _ _ ⟨hinv, _, hR, hq⟩ =>
    ⟨hR, hinv, hq.taken, hq.committed⟩

theorem wp_recordFinds (htypes : ∀ T, types T → L.Takes T) (hinv : b.Inv L host types)
    (hfinds : Finds L T p b.shared) :
    (attachedEnv L host types).wp (Backing.exec L (.ring l)) (record T p)
      (fun r b' => r = .returned ∧ b'.Inv L host types ∧ b.shared.Still b'.shared) b := by
  obtain ⟨hp, U, payload, halike, hfront⟩ := hfinds
  have hfront₀ : (b.shared.recalling []).Front U payload := hfront
  have hload := wp_loadPayload (l := l) htypes hinv.ring hfront₀ hp
  rw [halike.size] at hload
  refine Env.wp_bind (Env.wp_mono (deaf_consumer.wp_ring hload) ?_)
  intro bytes b₁ _ ⟨_, _, hq₁, hbytes⟩
  subst hbytes
  have hstill₁ : b.shared.Still b₁.shared := ⟨hq₁.taken, hq₁.committed⟩
  refine Env.wp_event_bind fun b₂ (hr₂ : ConsumerRely L b₁.shared b₂.shared) hinv₂ => ?_
  have hinv₂ : b₂.Inv L host types := hinv₂
  have hstill₂ := hstill₁.trans hr₂.quiet.still
  have hfront₂ := hfront.still hstill₂
  refine ⟨⟨hinv₂.ring, ?_, hinv₂.intact⟩, ⟨rfl, rfl, Nat.le_refl _⟩, ?_⟩
  · intro e he
    rcases List.mem_append.mp he with he | he
    · exact hinv₂.heard e he
    · rw [List.mem_singleton.mp he]
      exact ⟨U, halike, hfront₂⟩
  · refine Env.wp_ret fun b₃ (hr₃ : ConsumerRely L _ b₃.shared) hinv₃ => ⟨rfl, hinv₃, ?_⟩
    exact hstill₂.trans ⟨hr₃.taken, hr₃.committed⟩

/-- The search of `dispatch` through the types named, whatever ids it goes by. -/
theorem wp_tryDispatchFinds (htypes : ∀ T, types T → L.Takes T) (hbase : 16 ∣ base)
    (hinv : b.Inv L host types) (hfront : b.shared.Front U payload)
    (msgTypes : List MsgType) (hnamed : ∀ T ∈ msgTypes, L.Suits T) :
    (attachedEnv L host types).wp (Backing.exec L (.ring l))
      (tryDispatchEach host ⟨base, L.slotOff b.shared.taken.length⟩ L.slotSize record v
        msgTypes)
      (fun _ b' => b'.Inv L host types ∧ b.shared.Still b'.shared) b := by
  induction msgTypes generalizing b with
  | nil =>
      exact Env.wp_ret fun b' (hr : ConsumerRely L b.shared b'.shared) hinv' =>
        ⟨hinv', hr.quiet.still⟩
  | cons T rest ih =>
      have hrest : ∀ b₁ : Backing, b₁.Inv L host types → b.shared.Still b₁.shared →
          (attachedEnv L host types).wp (Backing.exec L (.ring l))
            (tryDispatchEach host ⟨base, L.slotOff b.shared.taken.length⟩ L.slotSize record v
              rest)
            (fun _ b' => b'.Inv L host types ∧ b.shared.Still b'.shared) b₁ := by
        intro b₁ hinv₁ hstill
        have h := ih hinv₁ (hfront.still hstill) fun V hV =>
          hnamed V (List.mem_cons_of_mem T hV)
        rw [hstill.taken] at h
        exact Env.wp_mono h fun _ _ _ h => ⟨h.1, hstill.trans h.2⟩
      have hload : ∀ q, Ev.Silent (.load q) := fun _ => trivial
      refine Env.wp_bind (Env.wp_mono (wp_ring_silent (load16_always hload _)) ?_)
      intro msgId b₀ _ ⟨_, hinv₀, hstill₀⟩
      have hfront₀ := hfront.still hstill₀
      refine Env.wp_bind ?_
      unfold tryDispatchSingle
      rw [← hstill₀.taken]
      split
      · have hview := wp_viewFinds (l := l) (v := v) htypes hbase hinv₀.ring
          (show (b₀.shared.recalling []).Front U payload from hfront₀)
          (hnamed T List.mem_cons_self)
        refine Env.wp_bind (Env.wp_mono (deaf_consumer.wp_ring hview) ?_)
        intro r b₁ _ ⟨hinv₁, seen, hq₁, hfinds⟩
        have hstill₁ : b.shared.Still b₁.shared := hstill₀.trans ⟨hq₁.taken, hq₁.committed⟩
        cases r with
        | none =>
            refine Env.wp_ret fun b₂ (hr₂ : ConsumerRely L _ b₂.shared) hinv₂ => ?_
            rw [if_pos rfl, hstill₀.taken]
            exact hrest b₂ hinv₂ (hstill₁.trans hr₂.quiet.still)
        | some q =>
            have hq : Finds L T q b₁.shared := hfinds q rfl
            refine Env.wp_bind (Env.wp_mono (wp_recordFinds htypes hinv₁ hq) ?_)
            intro outcome b₂ _ ⟨houtcome, _, hstill₂⟩
            subst houtcome
            refine Env.wp_ret fun b₃ (hr₃ : ConsumerRely L _ b₃.shared) _ => ?_
            rw [if_neg (by decide)]
            exact Env.wp_ret fun b₄ (hr₄ : ConsumerRely L _ b₄.shared) hinv₄ => ⟨hinv₄,
              ((hstill₁.trans hstill₂).trans hr₃.quiet.still).trans hr₄.quiet.still⟩
      · refine Env.wp_ret fun b₁ (hr₁ : ConsumerRely L _ b₁.shared) hinv₁ => ?_
        rw [if_pos rfl, hstill₀.taken]
        exact hrest b₁ hinv₁ (hstill₀.trans hr₁.quiet.still)

theorem wp_dispatchFinds (htypes : ∀ T, types T → L.Takes T) (hbase : 16 ∣ base)
    (hfront : b.shared.Front U payload) (msgTypes : List MsgType)
    (hnamed : ∀ T ∈ msgTypes, L.Suits T) :
    (attachedEnv L host types).wp (Backing.exec L (.ring l))
      (dispatch host msgTypes (some ⟨base, L.slotOff b.shared.taken.length⟩) L.slotSize
        record v)
      (fun _ b' => b'.Inv L host types ∧ b.shared.Still b'.shared) b := by
  have hload : ∀ q, Ev.Silent (.load q) := fun _ => trivial
  have hstops : ∀ b₁ : Backing, b.shared.Still b₁.shared →
      (attachedEnv L host types).wp (Backing.exec L (.ring l))
        (pure (some false) : Code (Option Bool))
        (fun _ b' => b'.Inv L host types ∧ b.shared.Still b'.shared) b₁ :=
    fun b₁ hstill => Env.wp_ret fun b₂ (hr : ConsumerRely L b₁.shared b₂.shared) hinv =>
      ⟨hinv, hstill.trans hr.quiet.still⟩
  unfold dispatch
  dsimp only
  split
  · exact hstops b (.refl _)
  refine Env.wp_bind (Env.wp_mono (wp_ring_silent (load32_always hload host _)) ?_)
  intro magic b₁ _ ⟨_, hinv₁, hstill₁⟩
  split
  · exact hstops b₁ hstill₁
  rw [← hstill₁.taken]
  exact Env.wp_mono (wp_tryDispatchFinds htypes hbase hinv₁ (hfront.still hstill₁)
    msgTypes hnamed) fun _ _ _ h => ⟨h.1, hstill₁.trans h.2⟩

theorem wp_takeFinds (hL : L.Sane) (htypes : ∀ T, types T → L.Takes T)
    (hwaiting : b.shared.Waiting) :
    (attachedEnv L host types).wp (Backing.exec L (.ring l)) (L.at base).commitRead
      (fun _ b' => b'.shared.taken.length = b.shared.taken.length + 1 ∧
        b.shared.committed <+: b'.shared.committed) b :=
  Env.wp_mono (deaf_consumer.wp_ring (wp_commitRead hL htypes hwaiting fun h => by cases h))
    fun _ _ _ ⟨_, _, htaken, _, hcom⟩ => ⟨htaken, hcom⟩

namespace IpcEnvelopeRingBuffer

variable {MaxPayloadSize Capacity : Nat} {h : IpcHandle} {c : BusReader}

/-- What was found is the oldest message. -/
def Found.Oldest (L : Layout) (s : Shared) : Found → Prop
  | .packet pv => Shows L pv s
  | .msg Msg payload => Finds L Msg payload s
  | .visited => s.Waiting

theorem Found.Oldest.still {x : Found} (hx : x.Oldest L s) (hs : s.Still s') :
    x.Oldest L s' := by
  cases x with
  | packet pv =>
      obtain ⟨T, payload, crc, p, hfront, hcrc, hp, hpv⟩ := hx
      refine ⟨T, payload, crc, p, hfront.still hs, hcrc, ?_, hpv⟩
      rw [hs.taken]
      exact hp
  | msg Msg payload => exact Finds.still hx hs
  | visited =>
      have hlt : s.taken.length < s.committed.length := hx
      have hle := hs.committed.length_le
      show s'.taken.length < s'.committed.length
      rw [hs.taken]
      omega

theorem Found.Oldest.waiting {x : Found} (hx : x.Oldest L s) : s.Waiting := by
  cases x with
  | packet pv =>
      obtain ⟨T, payload, crc, p, hfront, -⟩ := hx
      exact hfront.lt
  | msg Msg payload =>
      obtain ⟨-, U, payload, -, hfront⟩ := hx
      exact hfront.lt
  | visited => exact hx

theorem Found.Oldest.readable {x : Found} (hx : x.Oldest L s) {p : Ptr} {n : Nat}
    (hp : x.payload = some (p, n)) : ∃ U payload, s.Front U payload ∧ n = U.size ∧
      p.off = L.slotOff s.taken.length + Header.size := by
  cases x with
  | packet pv =>
      obtain ⟨T, payload, crc, q, hfront, -, hq, hpv⟩ := hx
      subst hpv
      obtain ⟨rfl, rfl⟩ := Prod.mk.inj (Option.some.inj hp)
      exact ⟨T, payload, hfront, rfl, hq⟩
  | msg Msg q =>
      obtain ⟨hq, U, payload, halike, hfront⟩ := hx
      obtain ⟨rfl, rfl⟩ := Prod.mk.inj (Option.some.inj hp)
      exact ⟨U, payload, hfront, halike.size.symm, hq⟩
  | visited => cases hp

/-- A consumer of the bus between calls. -/
structure BusReader.Ready (P : IpcParams) (h : IpcHandle) (c : BusReader) (s : Shared) :
    Prop where
  count : c.count = s.taken.length
  log : ∀ e ∈ c.log, ∃ T, s.committed[e.1]? = some (T, e.2)
  found : ∀ x, c.found = some x → (h.ring P).isSome ∧ x.Oldest P.layout s

theorem BusReader.Ready.still {P : IpcParams} (hc : c.Ready P h s) (hs : s.Still s') :
    c.Ready P h s' where
  count := by rw [hs.taken, hc.count]
  log e he := by
    obtain ⟨T, hget⟩ := hc.log e he
    exact ⟨T, List.IsPrefix.getElem?_some hs.committed hget⟩
  found x hx := ⟨(hc.found x hx).1, (hc.found x hx).2.still hs⟩

theorem BusReader.Ready.lost {P : IpcParams} (hc : c.Ready P h s) (h' : IpcHandle) :
    BusReader.Ready P h' { c with found := none } s :=
  ⟨hc.count, hc.log, fun _ hx => by cases hx⟩

theorem BusReader.Ready.took {P : IpcParams} (hc : c.Ready P h s)
    (htaken : s'.taken.length = s.taken.length + 1)
    (hcom : s.committed <+: s'.committed) :
    BusReader.Ready P h { c with count := c.count + 1, found := none } s' where
  count := by rw [htaken, hc.count]
  log e he := by
    obtain ⟨T, hget⟩ := hc.log e he
    exact ⟨T, List.IsPrefix.getElem?_some hcom hget⟩
  found _ hx := by cases hx

theorem suits {T : MsgType} (hT : T.Plain) :
    (params MaxPayloadSize Capacity).layout.Suits T := fun hfits =>
  layout_takes_of_fits hfits hT.2 hT.1

section Calls

variable (hL : (params MaxPayloadSize Capacity).layout.Sane)
  (htypes : ∀ T, types T → (params MaxPayloadSize Capacity).layout.Takes T)
  (hheld : h.Held (params MaxPayloadSize Capacity))

include hL htypes hheld

theorem wp_peekMsgFinds {Msg : MsgType} (hMsg : Msg.Plain) (v : Bool) (b : Backing) :
    (attachedEnv (params MaxPayloadSize Capacity).layout host types).wp
      (Backing.exec (params MaxPayloadSize Capacity).layout (.ring l))
      (peekMsg MaxPayloadSize Capacity host h Msg v)
      (fun r b' => b'.Inv (params MaxPayloadSize Capacity).layout host types ∧
        b.shared.Still b'.shared ∧ ∀ p, r = some p →
          (h.ring (params MaxPayloadSize Capacity)).isSome ∧
          Finds (params MaxPayloadSize Capacity).layout Msg p b'.shared) b := by
  unfold peekMsg
  cases hring : h.ring (params MaxPayloadSize Capacity) with
  | none =>
      exact Env.wp_ret fun b' (hr : ConsumerRely _ b.shared b'.shared) hinv =>
        ⟨hinv, hr.quiet.still, fun p hp => by cases hp⟩
  | some R =>
      obtain ⟨base, hbase, heq⟩ := hheld R hring
      subst heq
      refine Env.wp_mono (deaf_consumer.wp_ring (wp_peekFinds hL htypes hbase (suits hMsg)))
        fun r b' _ ⟨hinv, seen, hq, hfinds⟩ => ?_
      exact ⟨hinv, ⟨hq.taken, hq.committed⟩, fun p hp => ⟨rfl, hfinds p hp⟩⟩

/-- `dispatch` answers `true` only where there is a message. -/
theorem wp_dispatchHeld (msgTypes : List MsgType) (hnamed : ∀ T ∈ msgTypes, T.Plain)
    (v : Bool) (b : Backing) :
    (attachedEnv (params MaxPayloadSize Capacity).layout host types).wp
      (Backing.exec (params MaxPayloadSize Capacity).layout (.ring l))
      (dispatch MaxPayloadSize Capacity host h msgTypes record v)
      (fun r b' => b.shared.Still b'.shared ∧ (r = some true →
        (h.ring (params MaxPayloadSize Capacity)).isSome ∧ b'.shared.Waiting)) b := by
  unfold dispatch
  cases hring : h.ring (params MaxPayloadSize Capacity) with
  | none =>
      exact Env.wp_ret fun b' (hr : ConsumerRely _ b.shared b'.shared) _ =>
        ⟨hr.quiet.still, fun h => by cases h⟩
  | some R =>
      obtain ⟨base, hbase, heq⟩ := hheld R hring
      subst heq
      have hsplit : dispatchAt host ((params MaxPayloadSize Capacity).layout.at base)
          msgTypes record v = (do
            let tail ← loadWord ((params MaxPayloadSize Capacity).layout.at base).tail
            let head ← loadWord ((params MaxPayloadSize Capacity).layout.at base).head
            return (tail, head)) >>= fun cursors =>
          if cursors.1 = cursors.2 then pure (some false)
          else Sinew.dispatch host msgTypes
            (some (((params MaxPayloadSize Capacity).layout.at base).slot cursors.1))
            ((params MaxPayloadSize Capacity).layout.at base).slotSize record v := rfl
      dsimp only
      rw [hsplit]
      refine Env.wp_bind (Env.wp_mono (deaf_consumer.wp_ring (wp_loadCursors hL)) ?_)
      intro cursors b₁ _ ⟨_, seen, hq₁, hwaiting⟩
      have hstill₁ : b.shared.Still b₁.shared := ⟨hq₁.taken, hq₁.committed⟩
      split
      · exact Env.wp_ret fun b₂ (hr : ConsumerRely _ b₁.shared b₂.shared) _ =>
          ⟨hstill₁.trans hr.quiet.still, fun h => by cases h⟩
      · next hne =>
          obtain ⟨hslot, U, payload, hfront⟩ := hwaiting hne
          have hfront₁ : b₁.shared.Front U payload := hfront
          rw [hslot]
          refine Env.wp_mono (wp_dispatchFinds htypes hbase hfront₁ msgTypes fun T hT =>
            suits (hnamed T hT)) fun r b₂ _ ⟨_, hstill₂⟩ => ?_
          exact ⟨hstill₁.trans hstill₂, fun _ => ⟨rfl, (hfront₁.still hstill₂).lt⟩⟩

theorem wp_commitReadHeld (hvalid : (h.ring (params MaxPayloadSize Capacity)).isSome)
    (hwaiting : b.shared.Waiting) :
    (attachedEnv (params MaxPayloadSize Capacity).layout host types).wp
      (Backing.exec (params MaxPayloadSize Capacity).layout (.ring l))
      (commitRead MaxPayloadSize Capacity h)
      (fun _ b' => b'.shared.taken.length = b.shared.taken.length + 1 ∧
        b.shared.committed <+: b'.shared.committed) b := by
  obtain ⟨R, hring⟩ := Option.isSome_iff_exists.mp hvalid
  obtain ⟨base, -, heq⟩ := hheld R hring
  subst heq
  simp only [commitRead, hring]
  exact wp_takeFinds hL htypes hwaiting

theorem BusReaderCall.ready {call : Code BusReader}
    (hcall : BusReaderCall MaxPayloadSize Capacity host h c l call)
    (hinv : b.Inv (params MaxPayloadSize Capacity).layout host types)
    (hc : c.Ready (params MaxPayloadSize Capacity) h b.shared) :
    (attachedEnv (params MaxPayloadSize Capacity).layout host types).wp
      (Backing.exec (params MaxPayloadSize Capacity).layout (.ring l)) call
      (fun c b' => c.Ready (params MaxPayloadSize Capacity) h b'.shared) b := by
  have hkeeps : ∀ (c : BusReader) (b : Backing),
      c.Ready (params MaxPayloadSize Capacity) h b.shared →
      (attachedEnv (params MaxPayloadSize Capacity).layout host types).wp
        (Backing.exec (params MaxPayloadSize Capacity).layout (.ring l))
        (pure c : Code BusReader)
        (fun c b' => c.Ready (params MaxPayloadSize Capacity) h b'.shared) b :=
    fun c b hc => Env.wp_ret fun b' (hr : ConsumerRely _ b.shared b'.shared) _ =>
      hc.still hr.quiet.still
  have hcommits : ∀ b : Backing, c.Ready (params MaxPayloadSize Capacity) h b.shared →
      (h.ring (params MaxPayloadSize Capacity)).isSome → b.shared.Waiting →
      (attachedEnv (params MaxPayloadSize Capacity).layout host types).wp
        (Backing.exec (params MaxPayloadSize Capacity).layout (.ring l)) (do
          IpcEnvelopeRingBuffer.commitRead MaxPayloadSize Capacity h
          return some true)
        (fun r b' => (attachedEnv (params MaxPayloadSize Capacity).layout host types).wp
          (Backing.exec (params MaxPayloadSize Capacity).layout (.ring l))
          (pure { c with
            count := if r = some true then c.count + 1 else c.count
            found := none } : Code BusReader)
          (fun c b' => c.Ready (params MaxPayloadSize Capacity) h b'.shared) b') b := by
    intro b hc hvalid hwaiting
    refine Env.wp_bind (Env.wp_mono (wp_commitReadHeld hL htypes hheld hvalid hwaiting) ?_)
    intro _ b₁ _ htook
    obtain ⟨htaken, hcom⟩ := htook
    refine Env.wp_ret fun b₂ (hr₂ : ConsumerRely _ b₁.shared b₂.shared) _ => ?_
    exact hkeeps _ b₂ ((hc.took htaken hcom).still hr₂.quiet.still)
  cases hcall with
  | peekPacket v =>
      unfold IpcEnvelopeRingBuffer.peekPacket
      cases hring : h.ring (params MaxPayloadSize Capacity) with
      | none => exact hkeeps _ b (hc.lost h)
      | some R =>
          obtain ⟨base, hbase, heq⟩ := hheld R hring
          subst heq
          refine Env.wp_bind (Env.wp_mono
            (deaf_consumer.wp_ring (wp_peekPacketAt hL htypes v _)) ?_)
          intro pv b₁ _ hshown
          obtain ⟨_, seen, hr, hvalid, _⟩ := hshown
          have hstill : b.shared.Still b₁.shared := ⟨hr.taken, hr.committed⟩
          have hc₁ := hc.still hstill
          refine hkeeps _ b₁ { hc₁ with found := fun x hx => ?_ }
          dsimp only at hx
          split at hx
          · next hpv =>
              obtain rfl := Option.some.inj hx
              exact ⟨by rw [hring]; rfl, (hvalid hpv).2⟩
          · cases hx
  | peekMsg Msg v hMsg =>
      refine Env.wp_bind (Env.wp_mono (wp_peekMsgFinds hL htypes hheld hMsg v b) ?_)
      intro r b₁ _ hfound
      obtain ⟨_, hstill, hfinds⟩ := hfound
      refine hkeeps _ b₁ { hc.still hstill with found := fun x hx => ?_ }
      obtain ⟨p, hp, hx⟩ := Option.map_eq_some_iff.mp hx
      subst hx
      exact hfinds p hp
  | read x p n hx hp =>
      obtain ⟨U, payload, hfront, rfl, hoff⟩ := (hc.found x hx).2.readable hp
      have hfront₀ : (b.shared.recalling []).Front U payload := hfront
      refine Env.wp_bind (Env.wp_mono
        (deaf_consumer.wp_ring (wp_loadPayload htypes hinv.ring hfront₀ hoff)) ?_)
      intro bytes b₁ _ hloaded
      obtain ⟨_, seen, hq, hbytes⟩ := hloaded
      subst hbytes
      have hstill : b.shared.Still b₁.shared := ⟨hq.taken, hq.committed⟩
      have hc₁ := hc.still hstill
      refine hkeeps _ b₁ { hc₁ with log := fun e he => ?_ }
      rcases List.mem_append.mp he with he | he
      · exact hc₁.log e he
      · rw [List.mem_singleton.mp he, hc₁.count]
        exact ⟨U, hfront.still hstill⟩
  | dispatch msgTypes v hnamed =>
      refine Env.wp_bind (Env.wp_mono (wp_dispatchHeld hL htypes hheld msgTypes hnamed v b) ?_)
      intro r b₁ _ hdispatched
      obtain ⟨hstill, hwaiting⟩ := hdispatched
      refine hkeeps _ b₁ { hc.still hstill with found := fun x hx => ?_ }
      dsimp only at hx
      split at hx
      · next hr =>
          obtain rfl := Option.some.inj hx
          exact hwaiting hr
      · cases hx
  | commitRead x hx =>
      obtain ⟨hvalid, holdest⟩ := hc.found x hx
      refine Env.wp_bind (Env.wp_mono
        (wp_commitReadHeld hL htypes hheld hvalid holdest.waiting) ?_)
      intro _ b₁ _ htook
      obtain ⟨htaken, hcom⟩ := htook
      exact hkeeps _ b₁ (hc.took htaken hcom)
  | dispatchAndCommit msgTypes v hnamed =>
      refine Env.wp_bind (Env.wp_bind (Env.wp_mono
        (wp_dispatchHeld hL htypes hheld msgTypes hnamed v b) ?_))
      intro r b₁ _ hdispatched
      obtain ⟨hstill, hwaiting⟩ := hdispatched
      have hc₁ := hc.still hstill
      split
      · next hr =>
          exact hcommits b₁ hc₁ (hwaiting hr).1 (hwaiting hr).2
      · next hr =>
          refine Env.wp_ret fun b₂ (hr₂ : ConsumerRely _ b₁.shared b₂.shared) _ => ?_
          rw [if_neg hr]
          exact hkeeps _ b₂ ((hc₁.still hr₂.quiet.still).lost h)
  | consume Msg v hMsg =>
      unfold IpcEnvelopeRingBuffer.consume
      cases hring : h.ring (params MaxPayloadSize Capacity) with
      | none => exact hkeeps _ b (hc.lost h)
      | some R =>
          obtain ⟨base, hbase, heq⟩ := hheld R hring
          subst heq
          refine Env.wp_bind (Env.wp_bind (Env.wp_mono
            (deaf_consumer.wp_ring (wp_peekFinds hL htypes hbase (suits hMsg))) ?_))
          intro r b₁ _ hpeeked
          obtain ⟨hinv₁, seen, hq, hfinds⟩ := hpeeked
          have hstill₁ : b.shared.Still b₁.shared := ⟨hq.taken, hq.committed⟩
          have hc₁ := hc.still hstill₁
          cases r with
          | none =>
              refine Env.wp_ret fun b₂ (hr₂ : ConsumerRely _ b₁.shared b₂.shared) _ => ?_
              exact hkeeps _ b₂ ((hc₁.still hr₂.quiet.still).lost h)
          | some p =>
              have hfound : Finds _ Msg p b₁.shared := hfinds p rfl
              refine Env.wp_bind (Env.wp_mono (wp_recordFinds htypes hinv₁ hfound) ?_)
              intro outcome b₂ _ hrecorded
              obtain ⟨houtcome, _, hstill⟩ := hrecorded
              subst houtcome
              have hwaiting : b₂.shared.Waiting := by
                obtain ⟨-, U, payload, -, hfront⟩ := hfound.still hstill
                exact hfront.lt
              have hcommits := hcommits b₂ (hc₁.still hstill) (by rw [hring]; rfl) hwaiting
              simp only [IpcEnvelopeRingBuffer.commitRead, hring] at hcommits
              exact hcommits

end Calls

end IpcEnvelopeRingBuffer

end Sinew
