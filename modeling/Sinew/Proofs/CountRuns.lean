import Sinew.Proofs.Counts
import Sinew.Proofs.Reader

/-!
# Counting over every run

The clients of the three rings count right, so in every configuration their
sessions reach the counters are the lengths of the histories: for any message
type, and however the two sides are interleaved.
-/

namespace Sinew

open Lib

variable {L : Layout} {host : Endian} {types : MsgType → Prop} {T : MsgType}

def countsLogic (L : Layout) {C : Type} (produce : Producer → Label → Code Producer → Prop)
    (consume : C → Label → Code C → Prop) (counted : C → Shared → Prop)
    (hcounted : ∀ c s s', counted c s → CommitsOnly s s' → counted c s') :
    Logic (parties L produce consume) where
  env
    | .producer => producerCounts L
    | .consumer => consumerCounts L
  idle
    | .producer => Producer.Counted L
    | .consumer => counted
  inv_all i j s h := by
    cases i <;> cases j <;> exact h
  compat i j s s' hij h := by
    cases i with
    | producer =>
        cases j with
        | producer => exact absurd rfl hij
        | consumer => exact h
    | consumer =>
        cases j with
        | producer => exact h
        | consumer => exact absurd rfl hij
  idle_stable i c s s' h hr _ := by
    cases i with
    | producer => exact Producer.Counted.rely h hr
    | consumer => exact hcounted c s s' h hr

/-- A session whose clients count right has its counters right in every
configuration it reaches. -/
theorem counts_reach {C : Type} {produce : Producer → Label → Code Producer → Prop}
    {consume : C → Label → Code C → Prop} {counted : C → Shared → Prop}
    (hcounted : ∀ c s s', counted c s → CommitsOnly s s' → counted c s')
    (hproduce : ∀ c l p s, produce c l p → Producer.Counted L c s →
      (producerCounts L).wp (Shared.exec L l) p (Producer.Counted L) s)
    (hconsume : ∀ c l p s, consume c l p → counted c s →
      (consumerCounts L).wp (Shared.exec L l) p counted s)
    {byte : Nat → UInt8} {word : Nat → Nat} (hhead : word L.headOff = 0)
    (htail : word L.tailOff = 0) {c : C} (hc : counted c { byte := byte, word := word })
    {cfg : Config (parties L produce consume)}
    (hreach : Reach ⟨{ byte := byte, word := word }, parties.idle {} c⟩ cfg) :
    cfg.state.Counts L := by
  have hsound : (countsLogic L produce consume counted hcounted).Sound := by
    intro i c l p s hst _ hsame
    cases i with
    | producer => exact hproduce c l p s hst hsame
    | consumer => exact hconsume c l p s hst hsame
  have hcounts : Shared.Counts L { byte := byte, word := word } :=
    ⟨by simp [hhead], by simp [htail], Nat.le_refl _, Nat.zero_le _⟩
  have hgood : (countsLogic L produce consume counted hcounted).Good
      ⟨{ byte := byte, word := word }, parties.idle {} c⟩ := by
    refine ⟨fun i => ?_, fun i => ?_⟩
    · cases i <;> exact hcounts
    · cases i with
      | producer => exact ⟨rfl, fun h => by cases h⟩
      | consumer => exact hc
  exact (Logic.Good.reach hsound hgood hreach).inv .producer

namespace SpscRingBuffer

variable {w this Capacity : Nat}

theorem producer_on : (producerOps w T Capacity host this).On (layout w T Capacity) host
    (· = T) this where
  prepareWrite U hU := by
    subst hU
    rfl
  commitWrite U c := ⟨Nat, fun p => finalize host T (some (p.add Header.size)) c,
    fun _ => finalize_within _, rfl⟩
  push U value c hU := by
    subst hU
    rfl

theorem consumer_counting (hL : (layout w T Capacity).Sane) :
    (consumerOps w T Capacity host this).Counting (layout w T Capacity) (fun _ => True)
      (fun _ => True) where
  peekRead _ _ v _ s _ := Env.wp_mono (count_peekRead hL v s) fun _ _ _ ⟨hr, hsome⟩ =>
    ⟨hr, fun h => ⟨trivial, hsome h⟩⟩
  commitRead _ _ _ _ _ hsome := count_commitRead hL hsome
  pop _ _ v _ s _ := count_pop hL v s
  consume _ _ v _ s _ := count_consume hL (fun p => record_wordless p) v s
  rehandle _ _ _ _ _ h := h.elim

theorem counts (hpow : ∃ j, Capacity = 2 ^ j) (hfits : totalSize w T Capacity < 2 ^ w)
    {byte : Nat → UInt8} {cfg : Config (session w T Capacity host this)}
    (hreach : Reach (start w T Capacity host this byte) cfg) :
    cfg.state.Counts (layout w T Capacity) :=
  counts_reach (fun _ _ _ hc hr => hc.rely hr)
    (fun _ _ _ _ hcall hc => hcall.counted producer_on (layout_sane hpow hfits) hc)
    (fun _ _ _ _ hcall hc =>
      hcall.counted (consumer_counting (layout_sane hpow hfits)) hc)
    rfl rfl ⟨trivial, rfl, fun h => by cases h⟩ hreach

end SpscRingBuffer

namespace IpcRingBuffer

variable {Capacity : Nat}

theorem producer_on (shm : SharedMemoryRegion) {data : Ptr} (hoff : data.off = 0) :
    (producerOps T Capacity host (.attach shm data true)).On (params T Capacity).layout host
      (· = T) data.base := by
  have hring := IpcHandle.attach_ring (params T Capacity) shm hoff true
  refine ⟨fun U hU => ?_, fun U c => ?_, fun U value c hU => ?_⟩
  · subst hU
    simp only [producerOps, prepareWrite, hring]
  · refine ⟨Nat, fun p => finalize host T (some (p.add Header.size)) c,
      fun _ => finalize_within _, ?_⟩
    simp only [producerOps, commitWrite, hring]
    rfl
  · subst hU
    simp only [producerOps, push, commitWrite, hring]
    rfl

theorem consumer_counting (hL : (params T Capacity).layout.Sane) :
    (consumerOps T Capacity host).Counting (params T Capacity).layout
      (IpcHandle.Held (params T Capacity))
      (fun h => (h.ring (params T Capacity)).isSome) where
  peekRead h U v l s hheld := by
    simp only [consumerOps, peekRead]
    cases hring : h.ring (params T Capacity) with
    | none =>
        exact Env.wp_ret fun s' (hr : CommitsOnly s s') _ => ⟨hr, fun h => by cases h⟩
    | some R =>
        obtain ⟨base, -, rfl⟩ := hheld R hring
        exact Env.wp_mono (count_peekRead hL v s) fun _ _ _ h =>
          ⟨h.1, fun hfound => ⟨rfl, h.2 hfound⟩⟩
  commitRead h l s hheld hvalid hsome := by
    obtain ⟨R, hring⟩ := Option.isSome_iff_exists.mp hvalid
    obtain ⟨base, -, rfl⟩ := hheld R hring
    simp only [consumerOps, commitRead, hring]
    exact count_commitRead hL hsome
  pop h U v l s hheld := by
    simp only [consumerOps, pop]
    cases hring : h.ring (params T Capacity) with
    | none => exact Env.wp_ret fun s' (hr : CommitsOnly s s') _ => hr.taken
    | some R =>
        obtain ⟨base, -, rfl⟩ := hheld R hring
        exact count_pop hL v s
  consume h U v l s hheld := by
    simp only [consumerOps, consume]
    cases hring : h.ring (params T Capacity) with
    | none => exact Env.wp_ret fun s' (hr : CommitsOnly s s') _ => hr.taken
    | some R =>
        obtain ⟨base, -, rfl⟩ := hheld R hring
        exact count_consume hL (fun p => record_wordless p) v s
  rehandle h get l s _ hget :=
    wp_wordless_consumer
      ((rehandle_silent hget).weaken (fun _ => Ev.Silent.wordless) fun _ _ h => h) s

theorem kSlotSize_pos : 0 < kSlotSize T := by
  have h := le_roundUp (Header.size + T.size) (kSlotAlign_pos (T := T))
  have hT := T.size_pos
  unfold kSlotSize
  omega

theorem counts (hpow : ∃ j, Capacity = 2 ^ j)
    (hfits : (params T Capacity).totalShmSize < 2 ^ 64) {shm : SharedMemoryRegion}
    {data : Ptr} (hoff : data.off = 0) {byte : Nat → UInt8}
    {cfg : Config (session T Capacity host (.attach shm data true))}
    (hreach : Reach (start T Capacity host shm data byte) cfg) :
    cfg.state.Counts (params T Capacity).layout := by
  have hL := IpcParams.layout_sane (P := params T Capacity) hpow kSlotSize_pos hfits
  refine counts_reach (fun _ _ _ hc hr => hc.rely hr)
    (fun _ _ _ _ hcall hc => hcall.counted (producer_on shm hoff) hL hc)
    (fun _ _ _ _ hcall hc => hcall.counted (consumer_counting hL) hc) ?_ ?_
    ⟨IpcHandle.Held.none, rfl, fun h => by cases h⟩ hreach
  · rw [run_initHeader_word _ _ hoff]
    rfl
  · rw [run_initHeader_word _ _ hoff]
    rfl

end IpcRingBuffer

namespace IpcEnvelopeRingBuffer

variable {MaxPayloadSize Capacity : Nat}

theorem producer_on (shm : SharedMemoryRegion) {data : Ptr} (hoff : data.off = 0) :
    (producerOps MaxPayloadSize Capacity host (.attach shm data true)).On
      (params MaxPayloadSize Capacity).layout host types data.base := by
  have hring := IpcHandle.attach_ring (params MaxPayloadSize Capacity) shm hoff true
  refine ⟨fun U _ => ?_, fun U c => ?_, fun U value c _ => ?_⟩
  · simp only [producerOps, prepareWrite, hring]
  · refine ⟨Unit, fun p => storeCrc host p c, fun _ => storeCrc_within _, ?_⟩
    simp only [producerOps, commitWrite, hring]
    rfl
  · simp only [producerOps, push, commitWrite, hring]

/-- The counts say nothing of the packets. -/
theorem reading_counts (host : Endian) (base : Nat) (hL : L.Sane) :
    Reading (consumerCounts L) L host base fun _ _ => True where
  toConsuming := consuming_counts
  packet _ v s := Env.wp_mono (wp_look consuming_counts hL
    (fun pv : PacketView => pv.isValid) (by decide) (fun _ s => Env.wp_mono
      (wp_wordless_consumer (packetAt_always (fun _ => trivial) _ _ v) s) fun _ _ _ h => h.2)
    s) fun _ _ _ ⟨hr, hwaiting⟩ => ⟨hr, fun h => ⟨hwaiting h, trivial⟩⟩
  packet_rely _ _ := trivial
  commitRead _ _ hwaiting := count_commitRead hL hwaiting

theorem counts (hpow : ∃ j, Capacity = 2 ^ j)
    (hfits : (params MaxPayloadSize Capacity).totalShmSize < 2 ^ 64)
    {shm shm' : SharedMemoryRegion} {data data' : Ptr} (hoff : data.off = 0)
    (hoff' : data'.off = 0) {byte : Nat → UInt8}
    {cfg : Config (readerSession MaxPayloadSize Capacity host (.attach shm data true)
      (.attach shm' data' false) types)}
    (hreach : Reach (readerStart MaxPayloadSize Capacity host types shm shm' data data'
      byte) cfg) :
    cfg.state.Counts (params MaxPayloadSize Capacity).layout := by
  have hL := layout_sane hpow hfits
  have hring := IpcHandle.attach_ring (params MaxPayloadSize Capacity) shm' hoff' false
  have hE := reading_counts host data'.base hL
  refine counts_reach (fun _ _ _ hc hr => hc.rely hE hr)
    (fun _ _ _ _ hcall hc => hcall.counted (producer_on shm hoff) hL hc)
    (fun _ _ _ _ hcall hc => hcall.ready hE hL hring hc) ?_ ?_
    (.nothing rfl rfl) hreach
  · rw [run_initHeader_word _ _ hoff]
    rfl
  · rw [run_initHeader_word _ _ hoff]
    rfl

end IpcEnvelopeRingBuffer

end Sinew
