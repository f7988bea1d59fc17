import Sinew.Lib.Cursors
import Sinew.Model.Session
import Sinew.Proofs.Wire

/-!
# The invariant of a session

The two counters are the lengths of the two histories, modulo their width, and
the histories are never more than a capacity apart. Every message between them
lies finished in its slot. The producer's next slot is none of these, because
the slots of counts less than a lap apart are different; that is the one fact
that lets the producer overwrite a slot while the consumer reads another.

Each side relies on little. Nothing the consumer does changes a byte or the
history of commits, so to the producer the slot it has checked for stays free.
Nothing the producer does changes a slot that is live, so to the consumer the
slot it has peeked at stays as it was.
-/

namespace Sinew

open Lib

theorem List.getElem?_concat_some {α : Type} {xs : List α} {x y : α} {k : Nat}
    (h : (xs ++ [x])[k]? = some y) : xs[k]? = some y ∨ k = xs.length ∧ x = y := by
  rcases Nat.lt_or_ge k xs.length with hlt | hge
  · rw [List.getElem?_append_left hlt] at h
    exact .inl h
  · rw [List.getElem?_append_right hge, List.getElem?_singleton] at h
    split at h
    · next hk => exact .inr ⟨by omega, Option.some.inj h⟩
    · cases h

/-- What a ring needs of its compile-time constants. -/
structure Layout.Sane (L : Layout) : Prop where
  pow : ∃ j, L.capacity = 2 ^ j
  lt : L.capacity < 2 ^ L.w
  stride : L.slotSize ≤ L.stride
  cursors : L.headOff ≠ L.tailOff

/-- What a ring needs of the types it carries. -/
structure Layout.Takes (L : Layout) (T : MsgType) : Prop where
  fits : Header.size + T.size ≤ L.slotSize
  small : T.size < 2 ^ 32
  align_base : T.align ∣ 16
  align_stride : T.align ∣ L.stride
  align_slots : T.align ∣ L.slotsOff

/-- The cell where the slot of message number `k` begins. -/
def Layout.slotOff (L : Layout) (k : Nat) : Nat :=
  L.slotsOff + k % L.capacity * L.stride

namespace Layout

variable {L : Layout}

theorem Sane.capacity_pos (h : L.Sane) : 0 < L.capacity := by
  obtain ⟨j, hj⟩ := h.pow
  rw [hj]
  exact Nat.two_pow_pos j

theorem Sane.mask (h : L.Sane) (n : Nat) :
    (n % 2 ^ L.w) &&& (L.capacity - 1) = n % L.capacity := by
  obtain ⟨j, hj⟩ := h.pow
  have hlt := h.lt
  rw [hj] at hlt ⊢
  exact Cursors.mask_mod (Nat.le_of_lt ((Nat.pow_lt_pow_iff_right (by decide)).mp hlt)) n

theorem Sane.slot (h : L.Sane) (base n : Nat) :
    (L.at base).slot (n % 2 ^ L.w) = ⟨base, L.slotOff n⟩ := by
  have hmask := h.mask n
  simp only [Ring.slot, Layout.at, hmask]
  rfl

theorem Sane.slotAt (h : L.Sane) (n : Nat) :
    Shared.slotAt L (n % 2 ^ L.w) = L.slotOff n := by
  rw [Shared.slotAt, h.slot]

theorem Sane.slots_disjoint (h : L.Sane) {i k : Nat} (hlt : i < k)
    (hlap : k < i + L.capacity) :
    L.slotOff i + L.slotSize ≤ L.slotOff k ∨ L.slotOff k + L.slotSize ≤ L.slotOff i :=
  Cursors.slot_disjoint (Cursors.mod_ne_of_lt hlt hlap) h.stride

theorem payload_aligned (L : Layout) {T : MsgType} (h16 : T.align ∣ 16)
    (hslots : T.align ∣ L.slotsOff) (hstride : T.align ∣ L.stride) {base : Nat}
    (hbase : 16 ∣ base) (i : Nat) :
    (base + (L.slotsOff + i * L.stride) + Header.size) % T.align = 0 := by
  have hslot := Nat.dvd_add hslots (Nat.dvd_trans hstride (Nat.dvd_mul_left L.stride i))
  exact Nat.mod_eq_zero_of_dvd
    (Nat.dvd_add (Nat.dvd_add (Nat.dvd_trans h16 hbase) hslot) h16)

theorem Takes.aligned {T : MsgType} (h : L.Takes T) {base : Nat} (hbase : 16 ∣ base)
    (n : Nat) : ((⟨base, L.slotOff n⟩ : Ptr).addr + Header.size) % T.align = 0 :=
  L.payload_aligned h.align_base h.align_slots h.align_stride hbase (n % L.capacity)

end Layout

theorem IpcParams.layout_sane_of_lt {P : IpcParams} (hpow : ∃ j, P.capacity = 2 ^ j)
    (hlt : P.capacity < 2 ^ 64) : P.layout.Sane where
  pow := hpow
  lt := hlt
  stride := Nat.le_refl _
  cursors := by
    show IpcRingHeader.headOff ≠ IpcRingHeader.tailOff
    decide

theorem IpcParams.layout_sane {P : IpcParams} (hpow : ∃ j, P.capacity = 2 ^ j)
    (hpos : 0 < P.slotSize) (hfits : P.totalShmSize < 2 ^ 64) : P.layout.Sane := by
  have hle : P.capacity ≤ P.capacity * P.slotSize := Nat.le_mul_of_pos_right _ hpos
  have hsize : P.capacity * P.slotSize ≤ P.totalShmSize := Nat.le_add_left _ _
  exact layout_sane_of_lt hpow (Nat.lt_of_le_of_lt (Nat.le_trans hle hsize) hfits)

/-- The counters are the lengths of the two histories, which are never more than
a capacity apart. -/
structure Shared.Counts (L : Layout) (s : Shared) : Prop where
  head : s.word L.headOff = s.committed.length % 2 ^ L.w
  tail : s.word L.tailOff = s.taken.length % 2 ^ L.w
  le : s.taken.length ≤ s.committed.length
  room : s.committed.length ≤ s.taken.length + L.capacity

/-- How many messages are committed and not yet taken. -/
def Shared.unread (s : Shared) : Nat := s.committed.length - s.taken.length

/-- There is a slot the producer may write to. -/
def Shared.Room (L : Layout) (s : Shared) : Prop :=
  s.committed.length < s.taken.length + L.capacity

/-- The test that `prepare_write` and `full` make. -/
theorem Shared.room_of_unread {L : Layout} {s : Shared} (h : ¬ s.unread ≥ L.capacity) :
    s.Room L := by
  unfold Shared.unread at h
  unfold Shared.Room
  omega

def Shared.Waiting (s : Shared) : Prop := s.taken.length < s.committed.length

namespace Shared.Counts

variable {L : Layout} {s s' : Shared}

theorem distance (h : s.Counts L) (hL : L.Sane) (base : Nat) :
    (L.at base).distance (s.word L.headOff) (s.word L.tailOff) = s.unread := by
  have hle := h.le
  have hroom := h.room
  have hlt := hL.lt
  rw [h.head, h.tail]
  exact Cursors.sub_mod_eq hle (by omega)

/-- A counter loaded earlier is still what it was, if its history is as long. -/
theorem head_eq (h : s.Counts L) (h' : s'.Counts L)
    (hcom : s'.committed.length = s.committed.length) :
    s.word L.headOff = s'.word L.headOff := by
  rw [h.head, h'.head, hcom]

theorem tail_eq (h : s.Counts L) (h' : s'.Counts L)
    (htaken : s'.taken.length = s.taken.length) :
    s.word L.tailOff = s'.word L.tailOff := by
  rw [h.tail, h'.tail, htaken]

/-- The producer's distance, from its own counter and one loaded after it. -/
theorem distance_loaded (h : s.Counts L) (h' : s'.Counts L) (hL : L.Sane)
    (hcom : s'.committed.length = s.committed.length) (base : Nat) :
    (L.at base).distance (s.word L.headOff) (s'.word L.tailOff) = s'.unread := by
  rw [h.head_eq h' hcom]
  exact h'.distance hL base

theorem cursors_eq_iff (h : s.Counts L) (hL : L.Sane) :
    s.word L.tailOff = s.word L.headOff ↔ s.taken.length = s.committed.length := by
  have hle := h.le
  have hroom := h.room
  have hlt := hL.lt
  rw [h.head, h.tail]
  exact Cursors.mod_eq_mod_iff hle (by omega)

theorem commit (h : s.Counts L) (hL : L.Sane) (hroom : s.Room L) (T : MsgType) :
    let s' := s.storeWord L (some T) L.headOff ((s.word L.headOff + 1) % 2 ^ L.w)
    s'.Counts L ∧ s'.taken = s.taken ∧
      s'.committed.length = s.committed.length + 1 := by
  have hle := h.le
  have hroom' : s.committed.length < s.taken.length + L.capacity := hroom
  simp only [storeWord, if_pos, List.length_append, List.length_singleton, and_self,
    and_true]
  refine ⟨?_, ?_, ?_, ?_⟩
  · dsimp only
    rw [Function.update_self, h.head, Cursors.succ_mod, List.length_append,
      List.length_singleton]
  · dsimp only
    rw [Function.update_of_ne hL.cursors.symm, h.tail]
  · simp only [List.length_append, List.length_singleton]
    omega
  · simp only [List.length_append, List.length_singleton]
    omega

theorem take (h : s.Counts L) (hL : L.Sane) (hsome : s.Waiting) (writes : Option MsgType) :
    let s' := s.storeWord L writes L.tailOff ((s.word L.tailOff + 1) % 2 ^ L.w)
    s'.Counts L ∧ s'.committed = s.committed ∧
      s'.taken.length = s.taken.length + 1 := by
  have hroom := h.room
  have hsome' : s.taken.length < s.committed.length := hsome
  simp only [storeWord, if_neg hL.cursors.symm, if_pos, List.length_append,
    List.length_singleton, and_self, and_true]
  refine ⟨?_, ?_, ?_, ?_⟩
  · dsimp only
    rw [Function.update_of_ne hL.cursors, h.head]
  · dsimp only
    rw [Function.update_self, h.tail, Cursors.succ_mod, List.length_append,
      List.length_singleton]
  · simp only [List.length_append, List.length_singleton]
    omega
  · simp only [List.length_append, List.length_singleton]
    omega

end Shared.Counts

/-! ## The invariant -/

/-- The slot of message number `k` holds the packet of this message. -/
def Holds (L : Layout) (host : Endian) (f : Nat → UInt8) (k : Nat) (T : MsgType)
    (payload : List UInt8) : Prop :=
  payload.length = T.size ∧ ∃ crc, (crc = 0 ∨ crc = crc32 payload) ∧
    slice f (L.slotOff k) (Header.size + T.size) = packet host T crc payload

/-- The payload in a slot that was taken, for a type `T`. -/
def payloadOf (T : MsgType) (slot : List UInt8) : List UInt8 :=
  (slot.drop Header.size).take T.size

/-- Every message taken so far was seen by a callback, once and in order, and
of the others at most the next one was. -/
def Shared.InStep (s : Shared) : Prop :=
  s.seen.map (·.1) = List.range s.seen.length ∧
    s.taken.length ≤ s.seen.length ∧ s.seen.length ≤ s.taken.length + 1

/-- The invariant of a session over messages of the types `types`. Where
`stepwise` is set, messages are only taken by the calls that hand them to a
callback. -/
structure Shared.Inv (L : Layout) (host : Endian) (types : MsgType → Prop)
    (stepwise : Bool) (s : Shared) : Prop where
  head : s.word L.headOff = s.committed.length % 2 ^ L.w
  tail : s.word L.tailOff = s.taken.length % 2 ^ L.w
  le : s.taken.length ≤ s.committed.length
  room : s.committed.length ≤ s.taken.length + L.capacity
  typed : ∀ e ∈ s.committed, types e.1
  live : ∀ (k : Nat) T payload, s.taken.length ≤ k → s.committed[k]? = some (T, payload) →
    Holds L host s.byte k T payload
  taken : ∀ (k : Nat) (slot : List UInt8), s.taken[k]? = some slot →
    ∃ T, s.committed[k]? = some (T, payloadOf T slot)
  seen : ∀ e ∈ s.seen, s.committed[e.1]? = some e.2
  inStep : stepwise = true → s.InStep

/-- Messages may have been committed; none was taken. -/
structure CommitsOnly (s s' : Shared) : Prop where
  taken : s'.taken.length = s.taken.length
  committed : s.committed.length ≤ s'.committed.length

/-- Messages may have been taken; none was committed. -/
structure TakesOnly (s s' : Shared) : Prop where
  committed : s'.committed.length = s.committed.length
  taken : s.taken.length ≤ s'.taken.length

/-- Neither history has lost anything. -/
structure Shared.Grew (s s' : Shared) : Prop where
  committed : s.committed.length ≤ s'.committed.length
  taken : s.taken.length ≤ s'.taken.length

theorem Shared.Grew.refl (s : Shared) : Grew s s := ⟨Nat.le_refl _, Nat.le_refl _⟩

theorem Shared.Grew.trans {s s' s'' : Shared} (h : Grew s s') (h' : Grew s' s'') :
    Grew s s'' :=
  ⟨Nat.le_trans h.committed h'.committed, Nat.le_trans h.taken h'.taken⟩

structure ProducerRely (s s' : Shared) : Prop where
  byte : s'.byte = s.byte
  committed : s'.committed = s.committed
  taken : s.taken.length ≤ s'.taken.length

structure ConsumerRely (L : Layout) (s s' : Shared) : Prop where
  taken : s'.taken = s.taken
  seen : s'.seen = s.seen
  committed : s.committed <+: s'.committed
  live : ∀ k, s.taken.length ≤ k → k < s.committed.length →
    slice s'.byte (L.slotOff k) L.slotSize = slice s.byte (L.slotOff k) L.slotSize

theorem ProducerRely.refl (s : Shared) : ProducerRely s s :=
  ⟨rfl, rfl, Nat.le_refl _⟩

theorem ProducerRely.trans {s s' s'' : Shared} (h : ProducerRely s s')
    (h' : ProducerRely s' s'') : ProducerRely s s'' :=
  ⟨h'.byte.trans h.byte, h'.committed.trans h.committed, Nat.le_trans h.taken h'.taken⟩

theorem ConsumerRely.refl (L : Layout) (s : Shared) : ConsumerRely L s s :=
  ⟨rfl, rfl, List.prefix_rfl, fun _ _ _ => rfl⟩

theorem ConsumerRely.trans {L : Layout} {s s' s'' : Shared} (h : ConsumerRely L s s')
    (h' : ConsumerRely L s' s'') : ConsumerRely L s s'' where
  taken := h'.taken.trans h.taken
  seen := h'.seen.trans h.seen
  committed := h.committed.trans h'.committed
  live k hk hlt := (h'.live k (h.taken ▸ hk)
    (Nat.lt_of_lt_of_le hlt h.committed.length_le)).trans (h.live k hk hlt)

theorem CommitsOnly.refl (s : Shared) : CommitsOnly s s := ⟨rfl, Nat.le_refl _⟩

theorem CommitsOnly.trans {s s' s'' : Shared} (h : CommitsOnly s s') (h' : CommitsOnly s' s'') :
    CommitsOnly s s'' :=
  ⟨h'.taken.trans h.taken, Nat.le_trans h.committed h'.committed⟩

theorem TakesOnly.refl (s : Shared) : TakesOnly s s := ⟨rfl, Nat.le_refl _⟩

theorem TakesOnly.trans {s s' s'' : Shared} (h : TakesOnly s s') (h' : TakesOnly s' s'') :
    TakesOnly s s'' :=
  ⟨h'.committed.trans h.committed, Nat.le_trans h.taken h'.taken⟩

theorem ConsumerRely.commitsOnly {L : Layout} {s s' : Shared} (h : ConsumerRely L s s') :
    CommitsOnly s s' := ⟨by rw [h.taken], h.committed.length_le⟩

theorem ProducerRely.grew {s s' : Shared} (h : ProducerRely s s') : s.Grew s' :=
  ⟨by rw [h.committed], h.taken⟩

theorem ConsumerRely.grew {L : Layout} {s s' : Shared} (h : ConsumerRely L s s') :
    s.Grew s' := ⟨h.committed.length_le, by rw [h.taken]⟩

section Environments

variable (L : Layout) (host : Endian) (types : MsgType → Prop) (stepwise : Bool)

def producerEnv : Env Shared where
  inv := Shared.Inv L host types stepwise
  rely := ProducerRely
  guar := ConsumerRely L
  rely_refl := ProducerRely.refl
  rely_trans _ _ _ := ProducerRely.trans

def consumerEnv : Env Shared where
  inv := Shared.Inv L host types stepwise
  rely := ConsumerRely L
  guar := ProducerRely
  rely_refl := ConsumerRely.refl L
  rely_trans _ _ _ := ConsumerRely.trans

end Environments

theorem wp_loadWord {E : Env Shared} (hguar : ∀ s, E.guar s s) {L : Layout} {l : Label}
    {α : Type} {p : Ptr} {f : Nat → Code α} {Q : α → Shared → Prop} {s : Shared}
    (h : ∀ s', E.rely s s' → E.inv s' →
      E.wp (Shared.exec L l) (f (s'.word p.off)) Q s') :
    E.wp (Shared.exec L l) (loadWord p >>= f) Q s :=
  Env.wp_event_bind fun s' hr hi => ⟨hi, hguar s', h s' hr hi⟩

theorem Shared.Waiting.commitsOnly {s s' : Shared} (h : s.Waiting)
    (hr : CommitsOnly s s') : s'.Waiting := by
  have := hr.committed
  unfold Shared.Waiting at h ⊢
  rw [hr.taken]
  omega

theorem Shared.Room.rely {L : Layout} {s s' : Shared} (h : s.Room L)
    (hr : ProducerRely s s') : s'.Room L := by
  have := hr.taken
  unfold Shared.Room at h ⊢
  rw [hr.committed]
  omega

/-! ## What each event does to it -/

namespace Shared.Inv

variable {L : Layout} {host : Endian} {types : MsgType → Prop} {stepwise : Bool}
  {s : Shared}

theorem counts (h : s.Inv L host types stepwise) : s.Counts L :=
  ⟨h.head, h.tail, h.le, h.room⟩

theorem store (h : s.Inv L host types stepwise) (hL : L.Sane)
    (htypes : ∀ T, types T → L.Takes T) (hroom : s.Room L) {x : Nat} (b : UInt8)
    (hlo : L.slotOff s.committed.length ≤ x)
    (hhi : x < L.slotOff s.committed.length + L.slotSize) :
    Shared.Inv L host types stepwise { s with byte := Function.update s.byte x b } ∧
      ConsumerRely L s { s with byte := Function.update s.byte x b } := by
  have hslot : ∀ k n, n ≤ L.slotSize → s.taken.length ≤ k → k < s.committed.length →
      slice (Function.update s.byte x b) (L.slotOff k) n = slice s.byte (L.slotOff k) n := by
    intro k n hn hk hlt
    refine slice_congr fun y hy hy' => Function.update_of_ne ?_ _ _
    have hroom' : s.committed.length < s.taken.length + L.capacity := hroom
    rcases hL.slots_disjoint hlt (by omega) with hd | hd <;> omega
  refine ⟨{ h with live := fun k T payload hk hget => ?_ },
    ⟨rfl, rfl, List.prefix_rfl, fun k hk hlt => hslot k _ (Nat.le_refl _) hk hlt⟩⟩
  · obtain ⟨hlen, crc, hcrc, hpk⟩ := h.live k T payload hk hget
    have hlt := (List.getElem?_eq_some_iff.mp hget).1
    have hfits := (htypes T (h.typed _ (List.mem_of_getElem? hget))).fits
    exact ⟨hlen, crc, hcrc, (hslot k _ hfits hk hlt).trans hpk⟩

theorem commit (h : s.Inv L host types stepwise) (hL : L.Sane) {T : MsgType}
    (hT : types T) (hroom : s.Room L) {payload : List UInt8}
    (hholds : Holds L host s.byte s.committed.length T payload) :
    let s' := s.storeWord L (some T) L.headOff ((s.word L.headOff + 1) % 2 ^ L.w)
    Shared.Inv L host types stepwise s' ∧ ConsumerRely L s s' ∧
      s'.committed = s.committed ++ [(T, payload)] := by
  have hpay : slice s.byte (slotAt L (s.word L.headOff) + Header.size) T.size = payload := by
    obtain ⟨hlen, crc, _, hpk⟩ := hholds
    rw [h.head, hL.slotAt]
    exact (packet_parts hpk).2
  have hs' : s.storeWord L (some T) L.headOff ((s.word L.headOff + 1) % 2 ^ L.w) =
      { s with
        word := Function.update s.word L.headOff ((s.word L.headOff + 1) % 2 ^ L.w)
        committed := s.committed ++ [(T, payload)] } := by
    simp only [storeWord, if_pos, hpay]
  have hold : ∀ k e, s.committed[k]? = some e →
      (s.committed ++ [(T, payload)])[k]? = some e := fun k e he => by
    rw [List.getElem?_append_left (List.getElem?_eq_some_iff.mp he).1, he]
  obtain ⟨hcounts, -, -⟩ := h.counts.commit hL hroom T
  rw [hs'] at hcounts
  dsimp only
  rw [hs']
  refine ⟨{
    head := hcounts.head
    tail := hcounts.tail
    le := hcounts.le
    room := hcounts.room
    typed := ?_
    live := ?_
    taken := ?_
    seen := ?_
    inStep := h.inStep }, ⟨rfl, rfl, List.prefix_append _ _, fun _ _ _ => rfl⟩, rfl⟩
  · intro e he
    rcases List.mem_append.mp he with he | he
    · exact h.typed e he
    · rw [List.mem_singleton.mp he]
      exact hT
  · intro k U q hk hget
    dsimp only at hget
    rcases List.getElem?_concat_some hget with hget | ⟨hkeq, he⟩
    · exact h.live k U q hk hget
    · obtain ⟨rfl, rfl⟩ := Prod.mk.inj he
      rw [hkeq]
      exact hholds
  · intro k slot hget
    obtain ⟨U, hU⟩ := h.taken k slot hget
    exact ⟨U, hold k _ hU⟩
  · intro e he
    exact hold _ _ (h.seen e he)

theorem take (h : s.Inv L host types stepwise) (hL : L.Sane)
    (htypes : ∀ T, types T → L.Takes T) (hlt : s.taken.length < s.committed.length)
    (hstep : stepwise = true → s.seen.length = s.taken.length + 1)
    (writes : Option MsgType) :
    let s' := s.storeWord L writes L.tailOff ((s.word L.tailOff + 1) % 2 ^ L.w)
    Shared.Inv L host types stepwise s' ∧ ProducerRely s s' ∧
      s'.committed = s.committed ∧ s'.seen = s.seen ∧
      s'.taken.length = s.taken.length + 1 := by
  have hs' : s.storeWord L writes L.tailOff ((s.word L.tailOff + 1) % 2 ^ L.w) =
      { s with
        word := Function.update s.word L.tailOff ((s.word L.tailOff + 1) % 2 ^ L.w)
        taken := s.taken ++ [slice s.byte (L.slotOff s.taken.length) L.slotSize] } := by
    simp only [storeWord, if_neg hL.cursors.symm, if_pos, h.tail, hL.slotAt]
  obtain ⟨hcounts, -, -⟩ := h.counts.take hL hlt writes
  rw [hs'] at hcounts
  dsimp only
  rw [hs']
  refine ⟨{
    head := hcounts.head
    tail := hcounts.tail
    le := hcounts.le
    room := hcounts.room
    typed := h.typed
    live := ?_
    taken := ?_
    seen := h.seen
    inStep := ?_ }, ⟨rfl, rfl, by simp⟩, rfl, rfl, by simp⟩
  · intro k T payload hk hget
    refine h.live k T payload ?_ hget
    simp only [List.length_append, List.length_singleton] at hk
    omega
  · intro k slot hget
    dsimp only at hget
    rcases List.getElem?_concat_some hget with hget | ⟨hkeq, he⟩
    · exact h.taken k slot hget
    · obtain ⟨⟨T, payload⟩, hm⟩ : ∃ e, s.committed[k]? = some e :=
        ⟨_, List.getElem?_eq_getElem (by omega)⟩
      obtain ⟨hlen, crc, _, hpk⟩ := h.live k T payload (by omega) hm
      have hfits := (htypes T (h.typed _ (List.mem_of_getElem? hm))).fits
      refine ⟨T, ?_⟩
      have hslot : payloadOf T slot = payload := by
        obtain ⟨r, hr⟩ : ∃ r, L.slotSize = Header.size + T.size + r :=
          ⟨L.slotSize - (Header.size + T.size), by omega⟩
        rw [payloadOf, ← he, ← hkeq, hr, slice_add, hpk, packet, List.append_assoc,
          List.drop_left' (by simp [Header.size]), List.take_left' hlen]
      rw [hslot]
      exact hm
  · intro hst
    have hseen := hstep hst
    obtain ⟨h1, -, -⟩ := h.inStep hst
    refine ⟨h1, ?_, ?_⟩
    · simp only [List.length_append, List.length_singleton]
      omega
    · simp only [List.length_append, List.length_singleton]
      omega

theorem visit (h : s.Inv L host types stepwise) {T : MsgType} {payload : List UInt8}
    (hget : s.committed[s.taken.length]? = some (T, payload))
    (hstep : stepwise = true → s.seen.length = s.taken.length) :
    let s' := { s with seen := s.seen ++ [(s.taken.length, T, payload)] }
    Shared.Inv L host types stepwise s' ∧ ProducerRely s s' := by
  refine ⟨{ h with seen := ?_, inStep := ?_ }, ⟨rfl, rfl, Nat.le_refl _⟩⟩
  · intro e he
    rcases List.mem_append.mp he with he | he
    · exact h.seen e he
    · rw [List.mem_singleton.mp he]
      exact hget
  · intro hst
    have hseen := hstep hst
    obtain ⟨h1, -, -⟩ := h.inStep hst
    refine ⟨?_, ?_, ?_⟩
    · rw [List.map_append, h1, List.length_append, List.length_singleton,
        List.range_succ, hseen]
      rfl
    · simp only [List.length_append, List.length_singleton]
      omega
    · simp only [List.length_append, List.length_singleton]
      omega

end Shared.Inv

end Sinew
