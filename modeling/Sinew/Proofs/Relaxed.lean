import Sinew.Model.Relaxed
import Sinew.Proofs.Footprint

/-!
# No races, and first in, first out all the same

To each side the ring looks like one in a single memory, in which the other side is
somewhat behind. The consumer has its own place and sees the messages up to the store
to `head` that it found last; the producer has its own place and sees the messages
before the store to `tail` that it found last taken, and no others. Each of the two is
a state of a session that is in order, so what is proved of a call in a session holds
of it here, in the state that its side sees.

That this is so rests on the one thing a call cannot see. A slot that the producer is in
was released by the consumer before the store to `tail` that the producer found, and the
consumer is only in slots that the producer has released before the store to `head` that
the consumer found. That is what freedom from races means here, and it is where the two
acquires are needed.
-/

namespace Sinew

open Lib

variable {L : Layout} {host : Endian} {types : MsgType → Prop} {s : Relaxed} {l : Label}

namespace Shared.Inv

variable {r r' q : Shared} {stepwise : Bool}

theorem congr (htypes : ∀ T, types T → L.Takes T) (h : r.Inv L host types stepwise)
    (hhead : r'.word L.headOff = r.word L.headOff)
    (htail : r'.word L.tailOff = r.word L.tailOff) (hcommitted : r'.committed = r.committed)
    (htaken : r'.taken = r.taken) (hseen : r'.seen = r.seen)
    (hlive : ∀ k, r.taken.length ≤ k → k < r.committed.length →
      slice r'.byte (L.slotOff k) L.slotSize = slice r.byte (L.slotOff k) L.slotSize) :
    r'.Inv L host types stepwise where
  head := by rw [hhead, hcommitted, h.head]
  tail := by rw [htail, htaken, h.tail]
  le := by rw [htaken, hcommitted]; exact h.le
  room := by rw [htaken, hcommitted]; exact h.room
  typed := by rw [hcommitted]; exact h.typed
  live k T payload hk hget := by
    rw [htaken] at hk
    rw [hcommitted] at hget
    obtain ⟨hlen, crc, hcrc, hpacket⟩ := h.live k T payload hk hget
    have hlt := (List.getElem?_eq_some_iff.mp hget).1
    have hfits := (htypes T (h.typed _ (List.mem_of_getElem? hget))).fits
    have hsame := slice_inj (hlive k hk hlt)
    refine ⟨hlen, crc, hcrc, ?_⟩
    rw [← hpacket]
    exact slice_congr fun x hx hx' => hsame x hx (by omega)
  taken := by rw [htaken, hcommitted]; exact h.taken
  seen := by rw [hseen, hcommitted]; exact h.seen
  inStep hstep := by
    unfold Shared.InStep
    rw [hseen, htaken]
    exact h.inStep hstep

theorem more_taken (h : r.Inv L host types false) (hq : q.Inv L host types false)
    (hbyte : r'.byte = r.byte) (hhead : r'.word L.headOff = r.word L.headOff)
    (htail : r'.word L.tailOff = r'.taken.length % 2 ^ L.w)
    (hcommitted : r'.committed = r.committed) (hmore : r.taken.length ≤ r'.taken.length)
    (htaken : r'.taken <+: q.taken) (hcom : q.committed <+: r'.committed)
    (hseen : r'.seen = []) : r'.Inv L host types false where
  head := by rw [hhead, hcommitted, h.head]
  tail := htail
  le := Nat.le_trans htaken.length_le (Nat.le_trans hq.le hcom.length_le)
  room := by
    have hroom := h.room
    rw [hcommitted]
    omega
  typed := by rw [hcommitted]; exact h.typed
  live k T payload hk hget := by
    rw [hcommitted] at hget
    rw [hbyte]
    exact h.live k T payload (Nat.le_trans hmore hk) hget
  taken k slot hget := by
    obtain ⟨T, hT⟩ := hq.taken k slot (List.IsPrefix.getElem?_some htaken hget)
    exact ⟨T, List.IsPrefix.getElem?_some hcom hT⟩
  seen e he := by
    rw [hseen] at he
    cases he
  inStep hstep := by cases hstep

theorem more_committed (h : r.Inv L host types false) (hq : q.Inv L host types false)
    (hbyte : r'.byte = q.byte) (htail : r'.word L.tailOff = r.word L.tailOff)
    (hhead : r'.word L.headOff = r'.committed.length % 2 ^ L.w)
    (htaken : r'.taken = r.taken) (hseen : r'.seen = r.seen)
    (hmore : r.committed <+: r'.committed) (hcom : r'.committed <+: q.committed)
    (hle : q.taken.length ≤ r.taken.length) : r'.Inv L host types false where
  head := hhead
  tail := by rw [htail, htaken, h.tail]
  le := by
    rw [htaken]
    exact Nat.le_trans h.le hmore.length_le
  room := by
    have hroom := hq.room
    have hlen := hcom.length_le
    rw [htaken]
    omega
  typed e he := hq.typed e (hcom.subset he)
  live k T payload hk hget := by
    rw [htaken] at hk
    rw [hbyte]
    exact hq.live k T payload (Nat.le_trans hle hk) (List.IsPrefix.getElem?_some hcom hget)
  taken k slot hget := by
    rw [htaken] at hget
    obtain ⟨T, hT⟩ := h.taken k slot hget
    exact ⟨T, List.IsPrefix.getElem?_some hmore hT⟩
  seen e he := by
    rw [hseen] at he
    exact List.IsPrefix.getElem?_some hmore (h.seen e he)
  inStep hstep := by cases hstep

end Shared.Inv

namespace Relaxed

/-- The ring as a side sees it. Callbacks are the consumer's. -/
def view (L : Layout) (s : Relaxed) (i : Side) : Shared where
  byte := s.mem.byte
  word := s.mem.sees i
  committed := s.committed.take ((s.mem.view i).stamp L.headOff)
  taken := s.taken.take ((s.mem.view i).stamp L.tailOff)
  seen := match i with
    | .producer => []
    | .consumer => s.seen

def learn (s : Relaxed) (i : Side) (v : View Side) (late : Nat → Nat) : Relaxed :=
  { s with mem := { s.mem with view := Function.update s.mem.view i v, late := late } }

theorem learn_view (s : Relaxed) (i : Side) (v : View Side) (late : Nat → Nat) :
    (s.learn i v late).mem.view i = v := by
  simp only [learn, Function.update_self]

/-- How often each side has stored its counter. -/
def count (s : Relaxed) : Side → Nat
  | .producer => s.committed.length
  | .consumer => s.taken.length

/-- The environment of a side in a session. -/
def sideEnv (L : Layout) (host : Endian) (types : MsgType → Prop) : Side → Env Shared
  | .producer => producerEnv L host types false
  | .consumer => consumerEnv L host types false

/-- The counters are the lengths of the histories, and each side knows of the other what
it has seen of the other's counter. -/
def Counted (L : Layout) (s : Relaxed) : Prop :=
  Weak.Counted L.cursor (2 ^ L.w) s.count s.mem

section Seen

variable (h : s.Counted L)

include h

theorem Counted.head_own : (s.mem.view .producer).stamp L.headOff = s.committed.length :=
  h.own .producer

theorem Counted.tail_own : (s.mem.view .consumer).stamp L.tailOff = s.taken.length :=
  h.own .consumer

theorem Counted.head_le : (s.mem.view .consumer).stamp L.headOff ≤ s.committed.length :=
  (h.known .consumer).le .producer

theorem Counted.tail_le : (s.mem.view .producer).stamp L.tailOff ≤ s.taken.length :=
  (h.known .producer).le .consumer

theorem Counted.committed_view : (s.view L .producer).committed = s.committed := by
  show s.committed.take ((s.mem.view .producer).stamp L.headOff) = s.committed
  rw [h.head_own, List.take_length]

theorem Counted.taken_view : (s.view L .consumer).taken = s.taken := by
  show s.taken.take ((s.mem.view .consumer).stamp L.tailOff) = s.taken
  rw [h.tail_own, List.take_length]

theorem Counted.taken_length :
    (s.view L .producer).taken.length = (s.mem.view .producer).stamp L.tailOff := by
  have hle := h.tail_le
  show (s.taken.take _).length = _
  rw [List.length_take]
  omega

theorem Counted.committed_length :
    (s.view L .consumer).committed.length = (s.mem.view .consumer).stamp L.headOff := by
  have hle := h.head_le
  show (s.committed.take _).length = _
  rw [List.length_take]
  omega

theorem Counted.sees_head (i : Side) :
    s.mem.sees i L.headOff = (s.mem.view i).stamp L.headOff % 2 ^ L.w :=
  h.sees i .producer

theorem Counted.sees_tail (i : Side) :
    s.mem.sees i L.tailOff = (s.mem.view i).stamp L.tailOff % 2 ^ L.w :=
  h.sees i .consumer

theorem Counted.view_head (i : Side) :
    (s.view L i).word L.headOff = (s.mem.view i).stamp L.headOff % 2 ^ L.w :=
  h.sees_head i

theorem Counted.view_tail (i : Side) :
    (s.view L i).word L.tailOff = (s.mem.view i).stamp L.tailOff % 2 ^ L.w :=
  h.sees_tail i

end Seen

/-- What each side sees is in order. Every access to a slot was of the side whose turn it
was, in a turn that has been released to the other by now or that the other is not up
to. -/
structure Inv (L : Layout) (host : Endian) (types : MsgType → Prop) (s : Relaxed) :
    Prop where
  counted : s.Counted L
  ring : ∀ i, (s.view L i).Inv L host types false
  stored : ∀ x, ∀ e ∈ s.mem.stored x, e.1 = .producer ∧ L.InSlot e.2 x ∧
    e.2 < (s.mem.view .producer).stamp L.tailOff + L.capacity
  loaded : ∀ x, ∀ e ∈ s.mem.loaded x, e.1 = .consumer → L.InSlot e.2 x ∧
    e.2 < (s.mem.view .consumer).stamp L.headOff
  raceless : s.mem.racy = false

/-- A side relies on what the other does as far as it sees of it. -/
def env (L : Layout) (host : Endian) (types : MsgType → Prop) (i : Side) : Env Relaxed where
  inv := Inv L host types
  rely s s' := (sideEnv L host types i).rely (s.view L i) (s'.view L i)
  guar s s' := (sideEnv L host types i.other).rely (s.view L i.other) (s'.view L i.other)
  rely_refl _ := (sideEnv L host types i).rely_refl _
  rely_trans _ _ _ := (sideEnv L host types i).rely_trans _ _ _

namespace Inv

theorem places (h : s.Inv L host types) :
    (s.mem.view .producer).stamp L.tailOff ≤ s.taken.length ∧
    s.taken.length ≤ (s.mem.view .consumer).stamp L.headOff ∧
    (s.mem.view .consumer).stamp L.headOff ≤ s.committed.length ∧
    s.committed.length ≤ (s.mem.view .producer).stamp L.tailOff + L.capacity := by
  have hle := (h.ring .consumer).le
  have hroom := (h.ring .producer).room
  rw [h.counted.taken_view, h.counted.committed_length] at hle
  rw [h.counted.committed_view, h.counted.taken_length] at hroom
  exact ⟨h.counted.tail_le, hle, h.counted.head_le, hroom⟩

/-! ## Races -/

section Races

variable (h : s.Inv L host types) (hL : L.Sane) {x : Nat}

include h hL

/-- Whoever stored to the slot of a message that the consumer sees had released it. Else
the producer were a lap ahead, and it has seen no room there. -/
theorem stored_known (hx : L.InSlot s.taken.length x)
    (hwaiting : s.taken.length < (s.mem.view .consumer).stamp L.headOff)
    {e : Side × Nat} (he : e ∈ s.mem.stored x) : s.mem.knows .consumer e = true := by
  obtain ⟨hside, hslot, hlt⟩ := h.stored x e he
  have htail := h.counted.tail_le
  refine Weak.knows_of_lt ?_
  rw [hside, (h.counted.known .consumer).clock .producer]
  show e.2 < (s.mem.view .consumer).stamp L.headOff
  refine Nat.lt_of_not_le fun hge => ?_
  have hlap := hL.lap hx hslot (Nat.lt_of_lt_of_le hwaiting hge)
  omega

/-- Whoever loaded from a slot in which the producer sees room has released it since. -/
theorem loaded_known (hx : L.InSlot s.committed.length x)
    (hroom : s.committed.length < (s.mem.view .producer).stamp L.tailOff + L.capacity)
    {e : Side × Nat} (he : e ∈ s.mem.loaded x) : s.mem.knows .producer e = true := by
  cases hside : e.1 with
  | producer => exact Weak.knows_own hside
  | consumer =>
      obtain ⟨hslot, hlt⟩ := h.loaded x e he hside
      have hhead := h.counted.head_le
      have hlap := hL.lap hslot hx (Nat.lt_of_lt_of_le hlt hhead)
      refine Weak.knows_of_lt ?_
      rw [hside, (h.counted.known .producer).clock .consumer]
      show e.2 < (s.mem.view .producer).stamp L.tailOff
      omega

end Races

section Notice

variable (h : s.Inv L host types) {v : View Side} (late : Nat → Nat)

include h

theorem learn_tail (hknown : Weak.View.Known L.cursor s.count v)
    (hown : v.stamp L.headOff = s.committed.length)
    (hmore : (s.mem.view .producer).stamp L.tailOff ≤ v.stamp L.tailOff) :
    (s.learn .producer v late).Inv L host types ∧
      ProducerRely (s.view L .producer) ((s.learn .producer v late).view L .producer) := by
  have hcounted : (s.learn .producer v late).Counted L :=
    Weak.Counted.learn (i := Side.producer) h.counted hknown hown late
  have hview : (s.learn .producer v late).mem.view .producer = v :=
    learn_view ..
  have hcommitted : ((s.learn .producer v late).view L .producer).committed =
      (s.view L .producer).committed :=
    hcounted.committed_view.trans h.counted.committed_view.symm
  have htaken : (s.view L .producer).taken.length ≤
      ((s.learn .producer v late).view L .producer).taken.length := by
    rw [h.counted.taken_length, hcounted.taken_length, hview]
    exact hmore
  have hring : ((s.learn .producer v late).view L .producer).Inv L host types false := by
    refine (h.ring .producer).more_taken (h.ring .consumer) rfl ?_ ?_ hcommitted htaken ?_ ?_
      rfl
    · rw [hcounted.view_head, h.counted.view_head, hview, hown, h.counted.head_own]
    · rw [hcounted.view_tail, hcounted.taken_length]
    · rw [h.counted.taken_view]
      exact List.take_prefix _ _
    · rw [hcommitted, h.counted.committed_view]
      exact List.take_prefix _ _
  refine ⟨⟨hcounted, fun j => ?_, fun x e he => ?_, h.loaded, h.raceless⟩,
    ⟨rfl, hcommitted, htaken⟩⟩
  · cases j with
    | producer => exact hring
    | consumer => exact h.ring .consumer
  · obtain ⟨hside, hslot, hlt⟩ := h.stored x e he
    rw [hview]
    exact ⟨hside, hslot, by omega⟩

theorem learn_head (hknown : Weak.View.Known L.cursor s.count v)
    (hown : v.stamp L.tailOff = s.taken.length)
    (hmore : (s.mem.view .consumer).stamp L.headOff ≤ v.stamp L.headOff) :
    (s.learn .consumer v late).Inv L host types ∧
      ConsumerRely L (s.view L .consumer) ((s.learn .consumer v late).view L .consumer) := by
  have hcounted : (s.learn .consumer v late).Counted L :=
    Weak.Counted.learn (i := Side.consumer) h.counted hknown hown late
  have hview : (s.learn .consumer v late).mem.view .consumer = v :=
    learn_view ..
  have htaken : ((s.learn .consumer v late).view L .consumer).taken =
      (s.view L .consumer).taken :=
    hcounted.taken_view.trans h.counted.taken_view.symm
  have hcommitted : (s.view L .consumer).committed <+:
      ((s.learn .consumer v late).view L .consumer).committed := by
    show s.committed.take _ <+: s.committed.take _
    rw [hview]
    exact List.take_prefix_take_left hmore
  have hring : ((s.learn .consumer v late).view L .consumer).Inv L host types false := by
    refine (h.ring .consumer).more_committed (h.ring .producer) rfl ?_ ?_ htaken rfl
      hcommitted ?_ ?_
    · rw [hcounted.view_tail, h.counted.view_tail, hview, hown, h.counted.tail_own]
    · rw [hcounted.view_head, hcounted.committed_length]
    · rw [h.counted.committed_view]
      exact List.take_prefix _ _
    · rw [h.counted.taken_length, h.counted.taken_view]
      exact h.counted.tail_le
  refine ⟨⟨hcounted, fun j => ?_, h.stored, fun x e he hside => ?_, h.raceless⟩,
    ⟨htaken, rfl, hcommitted, fun _ _ _ => rfl⟩⟩
  · cases j with
    | producer => exact h.ring .producer
    | consumer => exact hring
  · obtain ⟨hslot, hlt⟩ := h.loaded x e he hside
    rw [hview]
    exact ⟨hslot, by omega⟩

end Notice

section Bytes

variable (h : s.Inv L host types) {x : Nat}

include h

theorem load_producer : ({ s with mem := (s.mem.load .producer x).2 } : Relaxed).Inv L host
    types where
  counted := Weak.Counted.load h.counted .producer x
  ring := h.ring
  stored := h.stored
  loaded y e he hside := by
    rcases Weak.mem_update_cons he with he | ⟨_, rfl⟩
    · exact h.loaded y e he hside
    · cases hside
  raceless := Weak.load_racy h.raceless fun e he => Weak.knows_own (h.stored x e he).1

theorem load_consumer (hL : L.Sane) (hx : L.InSlot s.taken.length x)
    (hwaiting : s.taken.length < (s.mem.view .consumer).stamp L.headOff) :
    ({ s with mem := (s.mem.load .consumer x).2 } : Relaxed).Inv L host types where
  counted := Weak.Counted.load h.counted .consumer x
  ring := h.ring
  stored := h.stored
  loaded y e he hside := by
    rcases Weak.mem_update_cons he with he | ⟨rfl, rfl⟩
    · exact h.loaded y e he hside
    · have hclock : (s.mem.view .consumer).clock .consumer = s.taken.length :=
        ((h.counted.known .consumer).clock .consumer).trans h.counted.tail_own
      rw [hclock]
      exact ⟨hx, hwaiting⟩
  raceless := Weak.load_racy h.raceless fun _ he => h.stored_known hL hx hwaiting he

theorem store_producer (hL : L.Sane) (htypes : ∀ T, types T → L.Takes T) (b : UInt8)
    (hx : L.InSlot s.committed.length x)
    (hroom : s.committed.length < (s.mem.view .producer).stamp L.tailOff + L.capacity) :
    ({ s with mem := s.mem.store .producer x b } : Relaxed).Inv L host types ∧
      ConsumerRely L (s.view L .consumer)
        (({ s with mem := s.mem.store .producer x b } : Relaxed).view L .consumer) := by
  have hcom := h.counted.committed_view
  have hlen := h.counted.taken_length
  have hlen' := h.counted.committed_length
  obtain ⟨htail, hwaiting, hhead, _⟩ := h.places
  obtain ⟨hring, hguar⟩ := (h.ring .producer).store hL htypes (x := x) (b := b)
    (by rw [Shared.Room, hcom, hlen]; exact hroom) (by rw [hcom]; exact hx.1)
    (by rw [hcom]; exact hx.2)
  -- what the consumer sees is among what the producer leaves alone
  have hlive : ∀ k, (s.view L .consumer).taken.length ≤ k →
      k < (s.view L .consumer).committed.length →
      slice (Function.update s.mem.byte x b) (L.slotOff k) L.slotSize =
        slice s.mem.byte (L.slotOff k) L.slotSize := by
    intro k hk hlt
    rw [h.counted.taken_view] at hk
    rw [hlen'] at hlt
    refine hguar.live k ?_ ?_
    · rw [hlen]
      omega
    · rw [hcom]
      omega
  refine ⟨⟨Weak.Counted.store h.counted .producer x b, fun j => ?_, fun y e he => ?_, h.loaded,
    ?_⟩, ⟨rfl, rfl, List.prefix_rfl, hlive⟩⟩
  · cases j with
    | producer => exact hring
    | consumer => exact (h.ring .consumer).congr htypes rfl rfl rfl rfl rfl hlive
  · rcases Weak.mem_update_cons he with he | ⟨rfl, rfl⟩
    · exact h.stored y e he
    · have hclock : (s.mem.view .producer).clock .producer = s.committed.length :=
        ((h.counted.known .producer).clock .producer).trans h.counted.head_own
      rw [hclock]
      exact ⟨rfl, hx, hroom⟩
  · exact Weak.store_racy h.raceless (fun e he => Weak.knows_own (h.stored x e he).1)
      fun _ he => h.loaded_known hL hx hroom he

end Bytes

end Inv

theorem cursor_inj (hL : L.Sane) : ∀ i j, L.cursor i = L.cursor j → i = j
  | .producer, .producer, _ => rfl
  | .producer, .consumer, h => absurd h hL.cursors
  | .consumer, .producer, h => absurd h.symm hL.cursors
  | .consumer, .consumer, _ => rfl

theorem shared_eq {r r' : Shared} (hbyte : r.byte = r'.byte) (hword : r.word = r'.word)
    (hcommitted : r.committed = r'.committed) (htaken : r.taken = r'.taken)
    (hseen : r.seen = r'.seen) : r = r' := by
  cases r
  cases r'
  simp only at hbyte hword hcommitted htaken hseen
  subst hbyte hword hcommitted htaken hseen
  rfl

/-- The producer has stored `head`, and committed this. -/
def commit (L : Layout) (s : Relaxed) (e : MsgType × List UInt8) : Relaxed :=
  { s with
    mem := s.mem.storeWord .producer L.headOff ((s.committed.length + 1) % 2 ^ L.w)
    committed := s.committed ++ [e] }

/-- The consumer has stored `tail`, and taken this. -/
def take (L : Layout) (s : Relaxed) (slot : List UInt8) : Relaxed :=
  { s with
    mem := s.mem.storeWord .consumer L.tailOff ((s.taken.length + 1) % 2 ^ L.w)
    taken := s.taken ++ [slot] }

section Counters

variable (h : s.Counted L)

include h

/-- To the consumer nothing has happened yet. -/
theorem Counted.commit_unseen (e : MsgType × List UInt8) :
    ((s.commit L e).view L .consumer).committed = (s.view L .consumer).committed ∧
      ((s.commit L e).mem.view .consumer) = s.mem.view .consumer := by
  have hview : (s.commit L e).mem.view .consumer = s.mem.view .consumer :=
    Weak.storeWord_view_of_ne (by decide)
  refine ⟨?_, hview⟩
  show (s.committed ++ [e]).take _ = s.committed.take _
  rw [hview, List.take_append_of_le_length h.head_le]

theorem Counted.take_unseen (slot : List UInt8) :
    ((s.take L slot).view L .producer).taken = (s.view L .producer).taken ∧
      ((s.take L slot).mem.view .producer) = s.mem.view .producer := by
  have hview : (s.take L slot).mem.view .producer = s.mem.view .producer :=
    Weak.storeWord_view_of_ne (by decide)
  refine ⟨?_, hview⟩
  show (s.taken ++ [slot]).take _ = s.taken.take _
  rw [hview, List.take_append_of_le_length h.tail_le]

variable (hL : L.Sane)

include hL

theorem Counted.commit (e : MsgType × List UInt8) : (s.commit L e).Counted L := by
  have hcount : (s.commit L e).count =
      Function.update s.count .producer (s.count .producer + 1) := by
    funext j
    cases j with
    | producer =>
        rw [Function.update_self]
        show (s.committed ++ [e]).length = s.committed.length + 1
        rw [List.length_append, List.length_singleton]
    | consumer => rfl
  have hstored := Weak.Counted.storeWord h (cursor_inj hL) .producer
  rw [← hcount] at hstored
  exact hstored

theorem Counted.take (slot : List UInt8) : (s.take L slot).Counted L := by
  have hcount : (s.take L slot).count =
      Function.update s.count .consumer (s.count .consumer + 1) := by
    funext j
    cases j with
    | producer => rfl
    | consumer =>
        rw [Function.update_self]
        show (s.taken ++ [slot]).length = s.taken.length + 1
        rw [List.length_append, List.length_singleton]
  have hstored := Weak.Counted.storeWord h (cursor_inj hL) .consumer
  rw [← hcount] at hstored
  exact hstored

theorem Counted.commit_view (e : MsgType × List UInt8) :
    (s.commit L e).view L .producer = { s.view L .producer with
      word := Function.update (s.view L .producer).word L.headOff
        ((s.committed.length + 1) % 2 ^ L.w)
      committed := s.committed ++ [e] } := by
  have hcommit := h.commit hL e
  have hword : ∀ a, (s.commit L e).mem.sees .producer a =
      Function.update (s.mem.sees .producer) L.headOff
        ((s.committed.length + 1) % 2 ^ L.w) a := by
    intro a
    by_cases ha : a = L.headOff
    · subst ha
      rw [Function.update_self, hcommit.sees_head, hcommit.head_own]
      show (s.committed ++ [e]).length % 2 ^ L.w = (s.committed.length + 1) % 2 ^ L.w
      rw [List.length_append, List.length_singleton]
    · rw [Function.update_of_ne ha]
      exact Weak.storeWord_sees_of_ne ha Side.producer
  refine shared_eq rfl (funext hword) hcommit.committed_view ?_ rfl
  show s.taken.take _ = s.taken.take _
  rw [Relaxed.commit, Weak.storeWord_stamp_of_ne hL.cursors.symm]

theorem Counted.take_view (slot : List UInt8) :
    (s.take L slot).view L .consumer = { s.view L .consumer with
      word := Function.update (s.view L .consumer).word L.tailOff
        ((s.taken.length + 1) % 2 ^ L.w)
      taken := s.taken ++ [slot] } := by
  have htake := h.take hL slot
  have hword : ∀ a, (s.take L slot).mem.sees .consumer a =
      Function.update (s.mem.sees .consumer) L.tailOff
        ((s.taken.length + 1) % 2 ^ L.w) a := by
    intro a
    by_cases ha : a = L.tailOff
    · subst ha
      rw [Function.update_self, htake.sees_tail, htake.tail_own]
      show (s.taken ++ [slot]).length % 2 ^ L.w = (s.taken.length + 1) % 2 ^ L.w
      rw [List.length_append, List.length_singleton]
    · rw [Function.update_of_ne ha]
      exact Weak.storeWord_sees_of_ne ha Side.consumer
  refine shared_eq rfl (funext hword) ?_ htake.taken_view rfl
  show s.committed.take _ = s.committed.take _
  rw [Relaxed.take, Weak.storeWord_stamp_of_ne hL.cursors]

end Counters

section Moves

variable (h : s.Inv L host types) (hL : L.Sane) (htypes : ∀ T, types T → L.Takes T)

include h hL htypes

/-- A commit that is in order for the producer is, and the consumer need not know. -/
theorem Inv.commit (e : MsgType × List UInt8)
    (hring : ((s.commit L e).view L .producer).Inv L host types false) :
    (s.commit L e).Inv L host types ∧
      ConsumerRely L (s.view L .consumer) ((s.commit L e).view L .consumer) := by
  have hcounted := h.counted.commit hL e
  obtain ⟨hunseen, hview⟩ := h.counted.commit_unseen e
  have htail : ((s.commit L e).mem.view .producer).stamp L.tailOff =
      (s.mem.view .producer).stamp L.tailOff :=
    Weak.storeWord_stamp_of_ne hL.cursors.symm Side.producer
  have htaken : ((s.commit L e).view L .consumer).taken = (s.view L .consumer).taken :=
    hcounted.taken_view.trans h.counted.taken_view.symm
  refine ⟨⟨hcounted, fun j => ?_, fun x e he => ?_, fun x e he hside => ?_, h.raceless⟩,
    ⟨htaken, rfl, ?_, fun _ _ _ => rfl⟩⟩
  · cases j with
    | producer => exact hring
    | consumer =>
        refine (h.ring .consumer).congr htypes ?_ ?_ hunseen htaken rfl fun _ _ _ => rfl
        · rw [hcounted.view_head, h.counted.view_head, hview]
        · rw [hcounted.view_tail, h.counted.view_tail, hview]
  · rw [htail]
    exact h.stored x e he
  · rw [hview]
    exact h.loaded x e he hside
  · exact ⟨[], by rw [List.append_nil, hunseen]⟩

theorem Inv.take (slot : List UInt8)
    (hring : ((s.take L slot).view L .consumer).Inv L host types false) :
    (s.take L slot).Inv L host types ∧
      ProducerRely (s.view L .producer) ((s.take L slot).view L .producer) := by
  have hcounted := h.counted.take hL slot
  obtain ⟨hunseen, hview⟩ := h.counted.take_unseen slot
  have hhead : ((s.take L slot).mem.view .consumer).stamp L.headOff =
      (s.mem.view .consumer).stamp L.headOff :=
    Weak.storeWord_stamp_of_ne hL.cursors Side.consumer
  have hcommitted : ((s.take L slot).view L .producer).committed =
      (s.view L .producer).committed :=
    hcounted.committed_view.trans h.counted.committed_view.symm
  refine ⟨⟨hcounted, fun j => ?_, fun x e he => ?_, fun x e he hside => ?_, h.raceless⟩,
    ⟨rfl, hcommitted, by rw [hunseen]⟩⟩
  · cases j with
    | producer =>
        refine (h.ring .producer).congr htypes ?_ ?_ hcommitted hunseen rfl fun _ _ _ => rfl
        · rw [hcounted.view_head, h.counted.view_head, hview]
        · rw [hcounted.view_tail, h.counted.view_tail, hview]
    | consumer => exact hring
  · rw [hview]
    exact h.stored x e he
  · rw [hhead]
    exact h.loaded x e he hside

end Moves

/-! ## One event -/

section Events

variable (h : s.Inv L host types) (hL : L.Sane) (htypes : ∀ T, types T → L.Takes T)

include h hL

/-- A side that loads a counter learns something, of its own that it is as it left it. -/
theorem loadWord_learns (i : Side) {p : Ptr} (hp : L.IsCursor p.off) :
    ∃ v late, exec L i l s (.loadWord p) =
        ((s.learn i v late).mem.sees i p.off, s.learn i v late) ∧
      Weak.View.Known L.cursor s.count v ∧ v.stamp (L.cursor i) = s.count i ∧
      (s.mem.view i).stamp (L.cursor i.other) ≤ v.stamp (L.cursor i.other) := by
  have hne : i ≠ i.other := by cases i <;> decide
  have hside : p.off = L.cursor i ∨ p.off = L.cursor i.other := by
    cases i with
    | producer => exact hp
    | consumer => exact hp.symm
  rcases hside with hp | hp
  · refine ⟨s.mem.view i, fun k => s.mem.late (k + 1), ?_, h.counted.known i,
      h.counted.own i, Nat.le_refl _⟩
    have hcursor : L.cursor i ≠ L.cursor i.other := fun heq => hne (cursor_inj hL _ _ heq)
    have hsees := h.counted.sees i i
    rw [h.counted.own] at hsees
    simp only [exec, hp, hcursor, decide_false, h.counted.loadWord_own, learn,
      Function.update_eq_self, ← hsees]
    rfl
  · obtain ⟨v, hload, hknown, hown, hfound⟩ :=
      h.counted.loadWord_other hne (cursor_inj hL)
    have hlearned : (s.learn i v fun k => s.mem.late (k + 1)).Counted L :=
      Weak.Counted.learn h.counted hknown hown _
    refine ⟨v, fun k => s.mem.late (k + 1), ?_, hknown, hown, ?_⟩
    · have hsees := hlearned.sees i i.other
      rw [learn_view, hfound] at hsees
      rw [hp, hsees]
      simp only [exec, hp, decide_true, hload]
      rfl
    · rw [hfound]
      exact (h.counted.found_le i i.other).1

theorem storeWord_head {T : MsgType} {p : Ptr} (hp : p.off = L.headOff)
    (hwrites : l.writes = some T) :
    ∃ e, (exec L .producer l s (.storeWord p ((s.committed.length + 1) % 2 ^ L.w))).2 =
        s.commit L e ∧
      (s.commit L e).view L .producer = (Shared.exec L l (s.view L .producer)
        (.storeWord p ((s.committed.length + 1) % 2 ^ L.w))).2 := by
  refine ⟨(T, slice s.mem.byte (Shared.slotAt L (s.mem.newest L.headOff) + Header.size)
    T.size), ?_, ?_⟩
  · simp only [exec, Shared.storeWord, latest, hp, hwrites, if_true]
    rfl
  · have hnewest : s.mem.newest L.headOff = s.mem.sees .producer L.headOff := by
      rw [h.counted.sees_head, h.counted.head_own]
      exact Weak.Counted.newest h.counted .producer
    rw [h.counted.commit_view hL]
    simp only [Shared.exec, Shared.storeWord, hp, hwrites, if_true, h.counted.committed_view,
      hnewest]
    rfl

theorem storeWord_tail {p : Ptr} (hp : p.off = L.tailOff) :
    ∃ slot, (exec L .consumer l s (.storeWord p ((s.taken.length + 1) % 2 ^ L.w))).2 =
        s.take L slot ∧
      (s.take L slot).view L .consumer = (Shared.exec L l (s.view L .consumer)
        (.storeWord p ((s.taken.length + 1) % 2 ^ L.w))).2 := by
  refine ⟨slice s.mem.byte (Shared.slotAt L (s.mem.newest L.tailOff)) L.slotSize, ?_, ?_⟩
  · simp only [exec, Shared.storeWord, latest, hp, if_neg hL.cursors.symm, if_true]
    rfl
  · have hnewest : s.mem.newest L.tailOff = s.mem.sees .consumer L.tailOff := by
      rw [h.counted.sees_tail, h.counted.tail_own]
      exact Weak.Counted.newest h.counted .consumer
    rw [h.counted.take_view hL]
    simp only [Shared.exec, Shared.storeWord, hp, if_neg hL.cursors.symm, if_true,
      h.counted.taken_view, hnewest]
    rfl

include htypes

theorem producer_event (e : Ev) :
    ∃ v, ProducerRely (s.view L .producer) v ∧ v.Inv L host types false ∧
      (Produces L l v e → (Shared.exec L l v e).2.Inv L host types false →
        (exec L .producer l s e).1 = (Shared.exec L l v e).1 ∧
        (exec L .producer l s e).2.view L .producer = (Shared.exec L l v e).2 ∧
        (exec L .producer l s e).2.Inv L host types ∧
        ConsumerRely L (s.view L .consumer)
          ((exec L .producer l s e).2.view L .consumer)) := by
  have hcom := h.counted.committed_view
  have hlen := h.counted.taken_length
  cases e with
  | load p =>
      exact ⟨_, ProducerRely.refl _, h.ring .producer, fun _ _ =>
        ⟨rfl, rfl, h.load_producer, ConsumerRely.refl L _⟩⟩
  | store p b =>
      refine ⟨_, ProducerRely.refl _, h.ring .producer, fun hok _ => ?_⟩
      obtain ⟨hslot, hroom⟩ := hok
      rw [hcom] at hslot
      rw [Shared.Room, hcom, hlen] at hroom
      obtain ⟨hinv, hguar⟩ := h.store_producer hL htypes b hslot hroom
      exact ⟨rfl, rfl, hinv, hguar⟩
  | loadWord p =>
      by_cases hp : L.IsCursor p.off
      · obtain ⟨v, late, hexec, hknown, hown, hmore⟩ :=
          loadWord_learns (l := l) h hL .producer hp
        obtain ⟨hinv, hrely⟩ := h.learn_tail late hknown hown hmore
        refine ⟨_, hrely, hinv.ring .producer, fun _ _ => ?_⟩
        rw [hexec]
        exact ⟨rfl, rfl, hinv, ConsumerRely.refl L _⟩
      · exact ⟨_, ProducerRely.refl _, h.ring .producer, fun hok => absurd hok hp⟩
  | storeWord p v =>
      refine ⟨_, ProducerRely.refl _, h.ring .producer, fun hok hring => ?_⟩
      obtain ⟨hp, hv, _, hwrites⟩ := hok
      obtain ⟨T, hT⟩ := Option.isSome_iff_exists.mp hwrites
      rw [hcom] at hv
      subst hv
      obtain ⟨e, hcommit, hown⟩ := storeWord_head h hL hp hT
      rw [← hown] at hring
      obtain ⟨hinv, hguar⟩ := h.commit hL htypes e hring
      rw [hcommit]
      exact ⟨rfl, hown, hinv, hguar⟩
  | _ => exact ⟨_, ProducerRely.refl _, h.ring .producer, fun hok => hok.elim⟩

theorem consumer_event (e : Ev) :
    ∃ v, ConsumerRely L (s.view L .consumer) v ∧ v.Inv L host types false ∧
      (Consumes L v e → (Shared.exec L l v e).2.Inv L host types false →
        (exec L .consumer l s e).1 = (Shared.exec L l v e).1 ∧
        (exec L .consumer l s e).2.view L .consumer = (Shared.exec L l v e).2 ∧
        (exec L .consumer l s e).2.Inv L host types ∧
        ProducerRely (s.view L .producer)
          ((exec L .consumer l s e).2.view L .producer)) := by
  have htaken := h.counted.taken_view
  have hlen := h.counted.committed_length
  cases e with
  | load p =>
      refine ⟨_, ConsumerRely.refl L _, h.ring .consumer, fun hok _ => ?_⟩
      obtain ⟨hslot, hwaiting⟩ := hok
      rw [htaken] at hslot
      rw [Shared.Waiting, htaken, hlen] at hwaiting
      exact ⟨rfl, rfl, h.load_consumer hL hslot hwaiting, ProducerRely.refl _⟩
  | loadWord p =>
      by_cases hp : L.IsCursor p.off
      · obtain ⟨v, late, hexec, hknown, hown, hmore⟩ :=
          loadWord_learns (l := l) h hL .consumer hp
        obtain ⟨hinv, hrely⟩ := h.learn_head late hknown hown hmore
        refine ⟨_, hrely, hinv.ring .consumer, fun _ _ => ?_⟩
        rw [hexec]
        exact ⟨rfl, rfl, hinv, ProducerRely.refl _⟩
      · exact ⟨_, ConsumerRely.refl L _, h.ring .consumer, fun hok => absurd hok hp⟩
  | storeWord p v =>
      refine ⟨_, ConsumerRely.refl L _, h.ring .consumer, fun hok hring => ?_⟩
      obtain ⟨hp, hv, _⟩ := hok
      rw [htaken] at hv
      subst hv
      obtain ⟨slot, htake, hown⟩ := storeWord_tail (l := l) h hL hp
      rw [← hown] at hring
      obtain ⟨hinv, hguar⟩ := h.take hL htypes slot hring
      rw [htake]
      exact ⟨rfl, hown, hinv, hguar⟩
  | visit T bytes =>
      refine ⟨_, ConsumerRely.refl L _, h.ring .consumer, fun _ hring => ?_⟩
      have hown : (exec L .consumer l s (.visit T bytes)).2.view L .consumer =
          (Shared.exec L l (s.view L .consumer) (.visit T bytes)).2 := by
        refine shared_eq rfl rfl rfl rfl ?_
        show s.seen ++ [(s.taken.length, T, bytes)] =
          s.seen ++ [((s.view L .consumer).taken.length, T, bytes)]
        rw [htaken]
      rw [← hown] at hring
      refine ⟨rfl, hown, ⟨h.counted, fun j => ?_, h.stored, h.loaded, h.raceless⟩,
        ProducerRely.refl _⟩
      cases j with
      | producer => exact h.ring .producer
      | consumer => exact hring
  | _ => exact ⟨_, ConsumerRely.refl L _, h.ring .consumer, fun hok => hok.elim⟩

end Events

end Relaxed

end Sinew
