import Sinew.Proofs.CountRuns

/-!
# What the queries answer

`empty` and `full` compare the counters modulo their width, which is exact as
long as nothing moves between the two loads. `size` subtracts, and the classes
give up on subtracting where the tail is past the head. That they take for a
ring being emptied under the reader's eyes; it is also what a ring in good order
looks like after `head` has wrapped and before `tail` has.

A monitor loads `head` first, so messages may be taken that it has not seen
committed. It sees too few then, as it should, until the tail it loads has gone
past the head it loaded; from there on the difference is no number of messages
at all.
-/

namespace Sinew

open Lib

variable {L : Layout} {host : Endian} {T : MsgType} {s : Shared}

/-- The three queries, made at one moment, say how many messages are unread. -/
structure Occupancy (L : Layout) (size : Code Nat) (empty full : Code Bool)
    (s : Shared) : Prop where
  size : (size.run (Shared.exec L {}) s).1 = s.unread
  empty : (empty.run (Shared.exec L {}) s).1 = true ↔ s.unread = 0
  full : (full.run (Shared.exec L {}) s).1 = true ↔ s.unread = L.capacity

/-- On a class whose `size` is wrong where the tail is past the head, the
queries are right where the counters have wrapped equally often. -/
theorem Shared.Counts.occupancy_iff (h : s.Counts L) (hL : L.Sane) (base : Nat)
    {passed : Nat → Nat → Nat}
    (hpassed : ∀ head tail, head < tail → tail < 2 ^ L.w →
      passed head tail ≠ head + 2 ^ L.w - tail)
    {size : Code Nat} {empty full : Code Bool}
    (hsize : size = (L.at base).sizeWith passed) (hempty : empty = (L.at base).empty)
    (hfull : full = (L.at base).full) :
    Occupancy L size empty full s ↔
      s.committed.length / 2 ^ L.w = s.taken.length / 2 ^ L.w := by
  have hle := h.le
  have hroom := h.room
  have hlt := hL.lt
  have hdiff : s.committed.length - s.taken.length < 2 ^ L.w := by omega
  have hrun : (size.run (Shared.exec L {}) s).1 =
      if s.word L.headOff ≥ s.word L.tailOff then s.word L.headOff - s.word L.tailOff
      else passed (s.word L.headOff) (s.word L.tailOff) := by
    rw [hsize]
    rfl
  rw [h.head, h.tail] at hrun
  rw [Cursors.div_eq_div_iff hle hdiff]
  constructor
  · intro ho
    refine Nat.le_of_not_lt fun hlt' => ?_
    have hsub := Cursors.sub_mod_eq hle hdiff
    have htail := Nat.mod_lt s.taken.length (Nat.two_pow_pos L.w)
    rw [Nat.mod_eq_of_lt (by omega)] at hsub
    have hs := ho.size
    rw [hrun, if_neg (Nat.not_le.mpr hlt')] at hs
    exact hpassed _ _ hlt' htail (hs.trans hsub.symm)
  · intro hge
    refine ⟨?_, ?_, ?_⟩
    · rw [hrun, if_pos hge]
      exact Cursors.mod_sub_mod hle hdiff hge
    · have he : (empty.run (Shared.exec L {}) s).1 =
          decide (s.word L.headOff = s.word L.tailOff) := by
        rw [hempty]
        rfl
      rw [he, decide_eq_true_eq, eq_comm, h.cursors_eq_iff hL]
      unfold Shared.unread
      omega
    · have hf : (full.run (Shared.exec L {}) s).1 = decide
          ((L.at base).distance (s.word L.headOff) (s.word L.tailOff) ≥ L.capacity) := by
        rw [hfull]
        rfl
      rw [hf, decide_eq_true_eq, h.distance hL]
      unfold Shared.unread
      omega

theorem SpscRingBuffer.occupancy_iff {w this Capacity : Nat}
    (hL : (layout w T Capacity).Sane) (h : s.Counts (layout w T Capacity)) :
    Occupancy (layout w T Capacity) (size w T Capacity this) (empty w T Capacity this)
        (full w T Capacity this) s ↔
      s.committed.length / 2 ^ w = s.taken.length / 2 ^ w := by
  refine h.occupancy_iff hL this (fun head tail hlt htail => ?_) rfl rfl rfl
  have hpos : 0 < Capacity := hL.capacity_pos
  have hcap : Capacity < 2 ^ w := hL.lt
  have htail : tail < 2 ^ w := htail
  show (Capacity + head + 2 ^ w - tail) % 2 ^ w ≠ head + 2 ^ w - tail
  rcases Nat.lt_or_ge (Capacity + head + 2 ^ w - tail) (2 ^ w) with h' | h'
  · rw [Nat.mod_eq_of_lt h']
    omega
  · rw [Nat.mod_eq_sub_mod h', Nat.mod_eq_of_lt (by omega)]
    omega

theorem IpcHandle.occupancy_iff {P : IpcParams} (hL : P.layout.Sane)
    (hs : s.Counts P.layout) {h : IpcHandle} {base : Nat}
    (hring : h.ring P = some (P.layout.at base)) :
    Occupancy P.layout (h.size P) (h.empty P) (h.full P) s ↔
      s.committed.length / 2 ^ 64 = s.taken.length / 2 ^ 64 := by
  have hsize : h.size P = (P.layout.at base).sizeWith fun _ _ => 0 := by
    simp only [size, hring]
  refine hs.occupancy_iff hL base (fun head tail hlt htail => ?_) hsize
    (by simp only [empty, hring]) (by simp only [full, hring])
  omega

/-- **When the queries are exact.** In every reachable state of the three rings,
with nothing in between their loads: exactly when the two counters have wrapped
equally often. -/
theorem occupancy_exact_iff (Capacity : Nat) (hpow : ∃ j, Capacity = 2 ^ j)
    (host : Endian) (byte : Nat → UInt8) :
    (∀ w T this, SpscRingBuffer.totalSize w T Capacity < 2 ^ w →
      ∀ cfg, Reach (SpscRingBuffer.start w T Capacity host this byte) cfg →
        (Occupancy (SpscRingBuffer.layout w T Capacity) (SpscRingBuffer.size w T Capacity this)
            (SpscRingBuffer.empty w T Capacity this) (SpscRingBuffer.full w T Capacity this)
            cfg.state ↔
          cfg.state.committed.length / 2 ^ w = cfg.state.taken.length / 2 ^ w)) ∧
    (∀ T shm data, (IpcRingBuffer.params T Capacity).totalShmSize < 2 ^ 64 → data.off = 0 →
      ∀ cfg, Reach (IpcRingBuffer.start T Capacity host shm data byte) cfg →
        ∀ shm' data' producer, data'.off = 0 →
          (Occupancy (IpcRingBuffer.params T Capacity).layout
              (IpcRingBuffer.size T Capacity (.attach shm' data' producer))
              (IpcRingBuffer.empty T Capacity (.attach shm' data' producer))
              (IpcRingBuffer.full T Capacity (.attach shm' data' producer)) cfg.state ↔
            cfg.state.committed.length / 2 ^ 64 = cfg.state.taken.length / 2 ^ 64)) ∧
    (∀ MaxPayloadSize types shm shm' data data',
      (IpcEnvelopeRingBuffer.params MaxPayloadSize Capacity).totalShmSize < 2 ^ 64 →
      data.off = 0 → data'.off = 0 →
      ∀ cfg, Reach (IpcEnvelopeRingBuffer.readerStart MaxPayloadSize Capacity host types shm
          shm' data data' byte) cfg →
        ∀ shm'' data'' producer, data''.off = 0 →
          (Occupancy (IpcEnvelopeRingBuffer.params MaxPayloadSize Capacity).layout
              (IpcEnvelopeRingBuffer.size MaxPayloadSize Capacity
                (.attach shm'' data'' producer))
              (IpcEnvelopeRingBuffer.empty MaxPayloadSize Capacity
                (.attach shm'' data'' producer))
              (IpcEnvelopeRingBuffer.full MaxPayloadSize Capacity
                (.attach shm'' data'' producer)) cfg.state ↔
            cfg.state.committed.length / 2 ^ 64 = cfg.state.taken.length / 2 ^ 64)) := by
  refine ⟨fun w T this hfits cfg hreach => ?_,
    fun T shm data hfits hoff cfg hreach shm' data' producer hoff' => ?_,
    fun MaxPayloadSize types shm shm' data data' hfits hoff hoff' cfg hreach shm'' data''
      producer hoff'' => ?_⟩
  · exact SpscRingBuffer.occupancy_iff (SpscRingBuffer.layout_sane hpow hfits)
      (SpscRingBuffer.counts hpow hfits hreach)
  · exact IpcHandle.occupancy_iff
      (IpcParams.layout_sane (P := IpcRingBuffer.params T Capacity) hpow
        IpcRingBuffer.kSlotSize_pos hfits)
      (IpcRingBuffer.counts hpow hfits hoff hreach) (IpcHandle.attach_ring _ shm' hoff' producer)
  · exact IpcHandle.occupancy_iff (IpcEnvelopeRingBuffer.layout_sane hpow hfits)
      (IpcEnvelopeRingBuffer.counts hpow hfits hoff hoff' hreach)
      (IpcHandle.attach_ring _ shm'' hoff'' producer)

/-! ## A state that has wrapped -/

section Turns

variable {w this Capacity : Nat}

open SpscRingBuffer

theorem push_once (hL : (layout w T Capacity).Sane) (hT : (layout w T Capacity).Takes T)
    (hthis : 16 ∣ this) {p : Producer} {c : Consumer Unit}
    (hinv : s.Inv (layout w T Capacity) host (· = T) false)
    (hroom : s.Room (layout w T Capacity)) :
    ∃ p' s', Reach (⟨s, parties.idle p c⟩ : Config (session w T Capacity host this))
        ⟨s', parties.idle p' c⟩ ∧
      s'.committed.length = s.committed.length + 1 ∧ s'.taken.length = s.taken.length := by
  let value := List.replicate T.size (0 : UInt8)
  have hcall : ProducerCall (producerOps w T Capacity host this) (· = T) p _ _ :=
    .push p T value false rfl List.length_replicate
  obtain ⟨-, -, hcom, htaken⟩ := push_alone hL (takes_only hT) hthis rfl value
    List.length_replicate hinv hroom false {}
  have hreach : Reach (⟨s, parties.idle p c⟩ : Config (session w T Capacity host this)) _ :=
    Reach.producer_call hcall
  rw [Prog.run_bind] at hreach
  refine ⟨_, _, hreach, ?_, congrArg List.length htaken⟩
  exact (congrArg List.length hcom).trans (by simp)

theorem consume_once (hL : (layout w T Capacity).Sane) (hT : (layout w T Capacity).Takes T)
    (hthis : 16 ∣ this) {p : Producer} {c : Consumer Unit}
    (hinv : s.Inv (layout w T Capacity) host (· = T) false) (hwaiting : s.Waiting) :
    ∃ c' s', Reach (⟨s, parties.idle p c⟩ : Config (session w T Capacity host this))
        ⟨s', parties.idle p c'⟩ ∧
      s'.committed.length = s.committed.length ∧ s'.taken.length = s.taken.length + 1 := by
  obtain ⟨U, payload, hf⟩ := Shared.exists_front hwaiting
  have hU : U = T := hinv.typed _ (List.mem_of_getElem? hf)
  subst hU
  have hcall : ConsumerCall (consumerOps w U Capacity host this) (· = U) c {} _ :=
    .consume c U false rfl
  obtain ⟨-, -, hcom, htaken⟩ := consume_alone (l := {}) hL (takes_only hT) only_id hthis
    rfl false hinv hf (fun h => by cases h)
  have hreach : Reach (⟨s, parties.idle p c⟩ : Config (session w U Capacity host this)) _ :=
    Reach.consumer_call hcall
  rw [Prog.run_bind] at hreach
  exact ⟨_, _, hreach, congrArg List.length hcom, htaken⟩

theorem inv_of_reach (hL : (layout w T Capacity).Sane) (hT : (layout w T Capacity).Takes T)
    (hthis : 16 ∣ this) {byte : Nat → UInt8} {p : Producer} {c : Consumer Unit}
    (hreach : Reach (start w T Capacity host this byte) ⟨s, parties.idle p c⟩) :
    s.Inv (layout w T Capacity) host (· = T) false :=
  (session_reach hL hT (producer_sound hL hT hthis) (consumer_sound hL hT hthis)
    rfl rfl trivial hreach).1

/-- Where everything has been consumed there is room for a message. -/
theorem push_next (hL : (layout w T Capacity).Sane) (hT : (layout w T Capacity).Takes T)
    (hthis : 16 ∣ this) {byte : Nat → UInt8} {p : Producer} {c : Consumer Unit} {n : Nat}
    (hreach : Reach (start w T Capacity host this byte) ⟨s, parties.idle p c⟩)
    (hcom : s.committed.length = n) (htaken : s.taken.length = n) :
    ∃ p' s', Reach (start w T Capacity host this byte) ⟨s', parties.idle p' c⟩ ∧
      s'.committed.length = n + 1 ∧ s'.taken.length = n := by
  have hroom : s.Room (layout w T Capacity) := by
    have := hL.capacity_pos
    unfold Shared.Room
    omega
  obtain ⟨p', s', hpush, hcom', htaken'⟩ :=
    push_once hL hT hthis (p := p) (c := c) (inv_of_reach hL hT hthis hreach) hroom
  exact ⟨p', s', hreach.trans hpush, by omega, by omega⟩

theorem take_turns (host : Endian) (hL : (layout w T Capacity).Sane)
    (hT : (layout w T Capacity).Takes T) (hthis : 16 ∣ this) (byte : Nat → UInt8) (n : Nat) :
    ∃ p c s, Reach (start w T Capacity host this byte) ⟨s, parties.idle p c⟩ ∧
      s.committed.length = n ∧ s.taken.length = n := by
  induction n with
  | zero => exact ⟨{}, { handle := () }, _, .refl, rfl, rfl⟩
  | succ n ih =>
      obtain ⟨p, c, s, hreach, hcom, htaken⟩ := ih
      obtain ⟨p', s₁, hreach₁, hcom₁, htaken₁⟩ := push_next hL hT hthis hreach hcom htaken
      obtain ⟨c', s₂, hconsume, hcom₂, htaken₂⟩ :=
        consume_once hL hT hthis (p := p') (c := c) (inv_of_reach hL hT hthis hreach₁) (by
          show s₁.taken.length < s₁.committed.length
          omega)
      exact ⟨p', c', s₂, hreach₁.trans hconsume, by omega, by omega⟩

/-- One message more than have been consumed. -/
theorem one_unread (host : Endian) (hL : (layout w T Capacity).Sane)
    (hT : (layout w T Capacity).Takes T) (hthis : 16 ∣ this) (byte : Nat → UInt8) (n : Nat) :
    ∃ cfg, Reach (start w T Capacity host this byte) cfg ∧
      cfg.state.committed.length = n + 1 ∧ cfg.state.taken.length = n := by
  obtain ⟨p, c, s, hreach, hcom, htaken⟩ := take_turns host hL hT hthis byte n
  obtain ⟨p', s', hreach', hcom', htaken'⟩ := push_next hL hT hthis hreach hcom htaken
  exact ⟨⟨s', parties.idle p' c⟩, hreach', hcom', htaken'⟩

end Turns

/-- With a message unread, the queries are exact before the counters have wrapped and
after both of them have. -/
theorem occupancy_exact_iff_unread :
    (∀ n ∈ [5, 2 ^ 32], ∃ cfg, Reach (SpscRingBuffer.start 32 pingMsg 2 .little 0x40
        fun _ => 0xFF) cfg ∧
      cfg.state.committed.length = n + 1 ∧ cfg.state.unread = 1 ∧
      Occupancy (SpscRingBuffer.layout 32 pingMsg 2) (SpscRingBuffer.size 32 pingMsg 2 0x40)
        (SpscRingBuffer.empty 32 pingMsg 2 0x40) (SpscRingBuffer.full 32 pingMsg 2 0x40)
        cfg.state) ∧
    (∃ cfg, Reach (IpcRingBuffer.start pingMsg 2 .little {} ⟨0x1000, 0⟩ fun _ => 0xFF) cfg ∧
      cfg.state.unread = 1 ∧
      Occupancy (IpcRingBuffer.params pingMsg 2).layout
        (IpcRingBuffer.size pingMsg 2 (.attach {} ⟨0x2000, 0⟩ false))
        (IpcRingBuffer.empty pingMsg 2 (.attach {} ⟨0x2000, 0⟩ false))
        (IpcRingBuffer.full pingMsg 2 (.attach {} ⟨0x2000, 0⟩ false)) cfg.state) ∧
    ∃ cfg, Reach (IpcEnvelopeRingBuffer.readerStart 32 2 .little pingOrPong {} {} ⟨0x1000, 0⟩
        ⟨0x2000, 0⟩ fun _ => 0xFF) cfg ∧
      cfg.state.unread = 1 ∧
      Occupancy (IpcEnvelopeRingBuffer.params 32 2).layout
        (IpcEnvelopeRingBuffer.size 32 2 (.attach {} ⟨0x2000, 0⟩ false))
        (IpcEnvelopeRingBuffer.empty 32 2 (.attach {} ⟨0x2000, 0⟩ false))
        (IpcEnvelopeRingBuffer.full 32 2 (.attach {} ⟨0x2000, 0⟩ false)) cfg.state := by
  have h := occupancy_exact_iff 2 ⟨1, rfl⟩ .little fun _ => 0xFF
  refine ⟨fun n hn => ?_, ?_, ?_⟩
  · have hL : (SpscRingBuffer.layout 32 pingMsg 2).Sane :=
      SpscRingBuffer.layout_sane ⟨1, rfl⟩ (by decide)
    have hT : (SpscRingBuffer.layout 32 pingMsg 2).Takes pingMsg :=
      SpscRingBuffer.layout_takes (by decide) (by decide)
    obtain ⟨cfg, hreach, hcom, htaken⟩ :=
      one_unread .little hL hT (by decide : 16 ∣ 0x40) (fun _ => 0xFF) n
    have hlaps : (n + 1) / 2 ^ 32 = n / 2 ^ 32 := by
      rcases List.mem_pair.mp hn with hn | hn <;> subst hn <;> decide
    refine ⟨cfg, hreach, hcom, ?_, (h.1 32 pingMsg 0x40 (by decide) cfg hreach).mpr ?_⟩
    · rw [Shared.unread, hcom, htaken, Nat.add_sub_cancel_left]
    · rw [hcom, htaken, hlaps]
  · have push : ProducerCall (IpcRingBuffer.producerOps pingMsg 2 .little
        (.attach {} ⟨0x1000, 0⟩ true)) (· = pingMsg) {} { writes := some pingMsg } _ :=
      .push {} pingMsg [42, 0, 0, 0] true rfl rfl
    have hreach : Reach (IpcRingBuffer.start pingMsg 2 .little {} ⟨0x1000, 0⟩ fun _ => 0xFF) _ :=
      Reach.call (i := Side.producer) rfl push
    exact ⟨_, hreach, by decide +kernel, (h.2.1 pingMsg {} ⟨0x1000, 0⟩ (by decide) rfl _ hreach {}
      ⟨0x2000, 0⟩ false rfl).mpr (by decide +kernel)⟩
  · have push : ProducerCall (IpcEnvelopeRingBuffer.producerOps 32 2 .little
        (.attach {} ⟨0x1000, 0⟩ true)) pingOrPong {} { writes := some pongMsg } _ :=
      .push {} pongMsg (List.replicate 16 7) true (.inr rfl) rfl
    have hreach : Reach (IpcEnvelopeRingBuffer.readerStart 32 2 .little pingOrPong {} {}
        ⟨0x1000, 0⟩ ⟨0x2000, 0⟩ fun _ => 0xFF) _ := Reach.call (i := Side.producer) rfl push
    exact ⟨_, hreach, by decide +kernel, (h.2.2 32 pingOrPong {} {} ⟨0x1000, 0⟩ ⟨0x2000, 0⟩
      (by decide) rfl rfl _ hreach {} ⟨0x2000, 0⟩ false rfl).mpr (by decide +kernel)⟩

/-- After 2^32 messages on a 32-bit target, with the last one unread, the
queries disagree with the ring. -/
theorem occupancy_wrong_after_wrap :
    ∃ cfg, Reach (SpscRingBuffer.start 32 pingMsg 2 .little 0x40 fun _ => 0xFF) cfg ∧
      cfg.state.unread = 1 ∧
      ¬ Occupancy (SpscRingBuffer.layout 32 pingMsg 2)
        (SpscRingBuffer.size 32 pingMsg 2 0x40) (SpscRingBuffer.empty 32 pingMsg 2 0x40)
        (SpscRingBuffer.full 32 pingMsg 2 0x40) cfg.state := by
  have hL : (SpscRingBuffer.layout 32 pingMsg 2).Sane :=
    SpscRingBuffer.layout_sane ⟨1, rfl⟩ (by decide)
  have hT : (SpscRingBuffer.layout 32 pingMsg 2).Takes pingMsg :=
    SpscRingBuffer.layout_takes (by decide) (by decide)
  obtain ⟨cfg, hreach, hcom, htaken⟩ := one_unread .little hL hT
    (by decide : 16 ∣ 0x40) (fun _ => 0xFF) (2 ^ 32 - 1)
  refine ⟨cfg, hreach, ?_, fun ho => ?_⟩
  · rw [Shared.unread, hcom, htaken]
    rfl
  · have hcounts := SpscRingBuffer.counts ⟨1, rfl⟩ (by decide) hreach
    have hlap := (SpscRingBuffer.occupancy_iff hL hcounts).mp ho
    rw [hcom, htaken] at hlap
    exact absurd hlap (by decide)

end Sinew
