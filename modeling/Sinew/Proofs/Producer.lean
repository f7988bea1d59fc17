import Sinew.Proofs.Session

/-!
# The producer's calls

From the check of `prepare_write` on, the slot at `head` is free and stays so:
the consumer can only move away from it. What is done to the slot from there to
the store of `head` is a sequential program on it, and the sequential facts
about `prepare` and `finalize` apply as they are.
-/

namespace Sinew

open Lib

variable {L : Layout} {host : Endian} {types : MsgType → Prop} {stepwise : Bool}
  {base : Nat} {s : Shared} {T : MsgType} {l : Label} {α : Type}

/-- The bytes of the segment, as a memory of their own. -/
def Shared.bytes (s : Shared) : Mem := ⟨s.byte, fun _ => 0, []⟩

/-- The slot at `head` is free, and holds this draft. -/
structure Drafted (L : Layout) (host : Endian) (base : Nat) (d : Draft) (s : Shared) :
    Prop where
  room : s.Room L
  payload : d.payload = ⟨base, L.slotOff s.committed.length + Header.size⟩
  length : d.bytes.length = d.T.size
  slot : slice s.byte (L.slotOff s.committed.length) (Header.size + d.T.size) =
    packet host d.T 0 d.bytes

theorem Drafted.rely {d : Draft} {s' : Shared} (h : Drafted L host base d s)
    (hr : ProducerRely s s') : Drafted L host base d s' := by
  refine ⟨h.room.rely hr, ?_, h.length, ?_⟩
  · rw [hr.committed]
    exact h.payload
  · rw [hr.committed, hr.byte]
    exact h.slot

/-- While there is room, a program that keeps to the slot at `head` runs as if
it were alone. -/
theorem wp_bytes (hL : L.Sane) (htypes : ∀ T, types T → L.Takes T) {p : Code α}
    {Q : α → Shared → Prop} (hroom : s.Room L)
    (hal : p.Along Mem.machine (BytesIn (L.slotOff s.committed.length)
      (L.slotOff s.committed.length + L.slotSize)) s.bytes)
    (hQ : ∀ s', s'.Room L → s'.committed = s.committed →
      s'.byte = (p.run Mem.machine s.bytes).2.byte →
      Q (p.run Mem.machine s.bytes).1 s') :
    (producerEnv L host types stepwise).wp (Shared.exec L l) p Q s := by
  refine Env.wp_run Shared.bytes
    (fun t => t.Room L ∧ t.committed = s.committed) ?_ ?_ ⟨hroom, rfl⟩ hal ?_
  · rintro t t' ⟨ht, hc⟩ (hr : ProducerRely t t') _
    exact ⟨⟨ht.rely hr, hr.committed.trans hc⟩, by rw [Shared.bytes, hr.byte]; rfl⟩
  · rintro t e hinv ⟨ht, hc⟩ hok
    cases e with
    | load q => exact ⟨rfl, rfl, ⟨ht, hc⟩, hinv, ConsumerRely.refl L t⟩
    | store q b =>
        rw [← hc] at hok
        obtain ⟨hinv', hguar⟩ := Shared.Inv.store hinv hL htypes ht b hok.1 hok.2
        exact ⟨rfl, rfl, ⟨ht, hc⟩, hinv', hguar⟩
    | _ => exact hok.elim
  · rintro s' _ ⟨ht, hc⟩ hview
    exact hQ s' ht hc (congrArg Mem.byte hview)

theorem BytesIn.mono {lo hi hi' : Nat} (h : hi ≤ hi') (m : Mem) (e : Ev)
    (he : BytesIn lo hi m e) : BytesIn lo hi' m e := by
  cases e with
  | load p => exact ⟨he.1, Nat.lt_of_lt_of_le he.2 h⟩
  | store p b => exact ⟨he.1, Nat.lt_of_lt_of_le he.2 h⟩
  | _ => exact he.elim

/-- `prepare_write` commits nothing. It answers a draft, or there was no room. -/
theorem wp_prepareWrite (hL : L.Sane) (htypes : ∀ T, types T → L.Takes T)
    (hbase : 16 ∣ base) (hT : types T) :
    (producerEnv L host types stepwise).wp (Shared.exec L l)
      ((L.at base).prepareWrite host T)
      (fun r s' => s'.committed = s.committed ∧
        (∀ p, r = some p → Drafted L host base ⟨T, p, T.fresh⟩ s') ∧
        (r = none → ¬ s.Room L)) s := by
  refine wp_loadWord (ConsumerRely.refl L) fun s₁ (hr₁ : ProducerRely s s₁) hi₁ => ?_
  refine wp_loadWord (ConsumerRely.refl L) fun s₂ (hr₂ : ProducerRely s₁ s₂) hi₂ => ?_
  have hhead := hi₁.counts.head_eq hi₂.counts (congrArg List.length hr₂.committed)
  have hcom : s₂.committed = s.committed := hr₂.committed.trans hr₁.committed
  have hle := hi₂.le
  have hdist : (L.at base).distance (s₁.word (L.at base).head.off)
      (s₂.word (L.at base).tail.off) = s₂.unread :=
    hi₁.counts.distance_loaded hi₂.counts hL (congrArg List.length hr₂.committed) base
  rw [hdist]
  split
  · next hfull =>
      refine Env.wp_ret fun s₃ (hr₃ : ProducerRely s₂ s₃) _ => ?_
      refine ⟨hr₃.committed.trans hcom, (fun p hp => by cases hp), fun _ hroom => ?_⟩
      have hcap : s₂.committed.length - s₂.taken.length ≥ L.capacity := hfull
      have hroom₂ : s₂.committed.length < s₂.taken.length + L.capacity :=
        (hroom.rely hr₁).rely hr₂
      omega
  · next hfull =>
      have hroom : s₂.Room L := Shared.room_of_unread hfull
      have htakes := htypes T hT
      have hslot : (L.at base).slot (s₁.word (L.at base).head.off) =
          ⟨base, L.slotOff s₂.committed.length⟩ := by
        rw [← hL.slot, ← hi₂.head, ← hhead]
        rfl
      have hrun := run_prepare_ok host T htakes.fits
        (htakes.aligned hbase s₂.committed.length) s₂.bytes
      rw [hslot]
      refine wp_bytes hL htypes hroom
        ((prepare_bytesIn _).mono (BytesIn.mono (by
          have := htakes.fits
          dsimp only
          omega))) ?_
      intro s₃ hroom₃ hcom₃ hbyte₃
      have hsize : (L.at base).slotSize = L.slotSize := rfl
      rw [hsize, hrun] at hbyte₃ ⊢
      refine ⟨hcom₃.trans hcom, fun p hp => ?_, fun h => by cases h⟩
      obtain rfl := Option.some.inj hp
      refine ⟨hroom₃, by rw [hcom₃]; rfl, by simp, ?_⟩
      rw [hbyte₃, hcom₃]
      exact slice_patch_eq (by simp [Header.size])

theorem wp_writeByte (hL : L.Sane) (htypes : ∀ T, types T → L.Takes T) {d : Draft}
    (hd : Drafted L host base d s) (hT : types d.T) {i : Nat} (hi : i < d.T.size)
    (b : UInt8) :
    (producerEnv L host types stepwise).wp (Shared.exec L l) (store (d.payload.add i) b)
      (fun _ s' => s'.committed = s.committed ∧
        Drafted L host base { d with bytes := d.bytes.set i b } s') s := by
  have hfits := (htypes d.T hT).fits
  refine wp_bytes hL htypes hd.room ?_ ?_
  · rw [hd.payload]
    exact ⟨⟨by dsimp only [Ptr.add]; omega, by dsimp only [Ptr.add]; omega⟩, trivial⟩
  · intro s' hroom hcom hbyte
    refine ⟨hcom, hroom, by rw [hcom]; exact hd.payload, by simpa using hd.length, ?_⟩
    rw [run_store, hd.payload] at hbyte
    rw [hbyte, hcom]
    exact slice_write_byte host d.T hd.slot hi b

/-- A `commit_write`: something is done to the draft that leaves a finished
packet, and `head` is stored. -/
theorem wp_commitWith (hL : L.Sane) (htypes : ∀ T, types T → L.Takes T) {d : Draft}
    (hd : Drafted L host base d s) (hT : types d.T) {finish : Ptr → Code α}
    (hal : ∀ (p : Ptr) (m : Mem), slice m.byte p.off (Header.size + d.T.size) =
        packet host d.T 0 d.bytes →
      (finish p).Along Mem.machine
        (BytesIn p.off (p.off + (Header.size + d.T.size))) m)
    (hrun : ∀ (p : Ptr) (m : Mem), slice m.byte p.off (Header.size + d.T.size) =
        packet host d.T 0 d.bytes →
      ∃ c, slice ((finish p).run Mem.machine m).2.byte p.off (Header.size + d.T.size) =
        packet host d.T (crcField c d.bytes) d.bytes) (os : OsAnswers) :
    (producerEnv L host types stepwise).wp
      (Shared.exec L { writes := some d.T, os := os })
      (do
        let head ← loadWord (L.at base).head
        let _ ← finish ((L.at base).slot head)
        storeWord (L.at base).head ((head + 1) % 2 ^ (L.at base).w))
      (fun _ s' => s'.committed = s.committed ++ [(d.T, d.bytes)]) s := by
  refine wp_loadWord (ConsumerRely.refl L) fun s₁ (hr₁ : ProducerRely s s₁) hi₁ => ?_
  have hd₁ := hd.rely hr₁
  have hfits := (htypes d.T hT).fits
  have hslot : (L.at base).slot (s₁.word (L.at base).head.off) =
      ⟨base, L.slotOff s₁.committed.length⟩ := by
    rw [← hL.slot, ← hi₁.head]
    rfl
  rw [hslot]
  refine Env.wp_bind (wp_bytes hL htypes hd₁.room
    ((hal ⟨base, L.slotOff s₁.committed.length⟩ s₁.bytes hd₁.slot).mono
      (BytesIn.mono (by dsimp only; omega))) ?_)
  intro s₂ hroom₂ hcom₂ hbyte₂
  obtain ⟨c, hc⟩ := hrun ⟨base, L.slotOff s₁.committed.length⟩ s₁.bytes hd₁.slot
  rw [← hbyte₂, ← hcom₂] at hc
  refine Env.wp_event fun s₃ (hr₃ : ProducerRely s₂ s₃) hi₃ => ?_
  have hhead : s₁.word (L.at base).head.off = s₃.word L.headOff :=
    hi₁.counts.head_eq hi₃.counts (congrArg List.length (hr₃.committed.trans hcom₂))
  have hholds : Holds L host s₃.byte s₃.committed.length d.T d.bytes := by
    rw [hr₃.committed, hr₃.byte]
    exact ⟨hd.length, _, crcField_eq c d.bytes, hc⟩
  obtain ⟨hinv, hguar, hcom⟩ := hi₃.commit hL hT (hroom₂.rely hr₃) hholds
  rw [hhead]
  refine ⟨hinv, hguar, fun s₄ (hr₄ : ProducerRely _ s₄) _ => ?_⟩
  rw [hr₄.committed]
  refine hcom.trans ?_
  rw [hr₃.committed, hcom₂, hr₁.committed]

theorem finalize_finishes {d : Draft} (c : Bool)
    (p : Ptr) (m : Mem)
    (h : slice m.byte p.off (Header.size + d.T.size) = packet host d.T 0 d.bytes) :
    slice ((finalize host d.T (some (p.add Header.size)) c).run Mem.machine m).2.byte
        p.off (Header.size + d.T.size) =
      packet host d.T (crcField c d.bytes) d.bytes := by
  have hpay := (packet_parts h).2
  rw [run_finalize, Mem.write_byte, Ptr.add_off, Nat.add_sub_cancel, hpay]
  exact slice_write_crc host d.T h _

theorem wp_commitWrite (hL : L.Sane) (htypes : ∀ T, types T → L.Takes T) {d : Draft}
    (hd : Drafted L host base d s) (hT : types d.T) (c : Bool) (os : OsAnswers) :
    (producerEnv L host types stepwise).wp
      (Shared.exec L { writes := some d.T, os := os })
      ((L.at base).commitWrite host d.T c)
      (fun _ s' => s'.committed = s.committed ++ [(d.T, d.bytes)]) s :=
  wp_commitWith hL htypes hd hT (fun _ _ _ => finalize_bytesIn c)
    (fun p m h => ⟨c, finalize_finishes c p m h⟩) os

/-- `push`, given the ring's own `commit_write`. It fails for want of room only. -/
theorem wp_pushWith (hL : L.Sane) (htypes : ∀ T, types T → L.Takes T)
    (hbase : 16 ∣ base) (hT : types T) {value : List UInt8}
    (hlen : value.length = T.size) {commit : Code Unit}
    (hcommit : ∀ d s, d.T = T → Drafted L host base d s →
      (producerEnv L host types stepwise).wp (Shared.exec L l) commit
        (fun _ s' => s'.committed = s.committed ++ [(d.T, d.bytes)]) s) :
    (producerEnv L host types stepwise).wp (Shared.exec L l)
      ((L.at base).pushWith host commit T value)
      (fun r s' => (s'.committed =
        if r then s.committed ++ [(T, value)] else s.committed) ∧
        (r = false → ¬ s.Room L)) s := by
  refine Env.wp_bind (Env.wp_mono (wp_prepareWrite hL htypes hbase hT) ?_)
  intro r s₁ _ ⟨hcom₁, hdraft, hnone⟩
  cases r with
  | none =>
      refine Env.wp_ret fun s₂ (hr₂ : ProducerRely s₁ s₂) _ => ⟨?_, fun _ => hnone rfl⟩
      rw [hr₂.committed, hcom₁]
      rfl
  | some p =>
      have hd := hdraft p rfl
      have hfits := (htypes T hT).fits
      have hp : p = ⟨base, L.slotOff s₁.committed.length + Header.size⟩ := hd.payload
      refine Env.wp_bind (wp_bytes hL htypes hd.room ?_ ?_)
      · rw [hp]
        exact storeBytes_bytesIn (by dsimp only; omega) (by dsimp only; omega)
      · intro s₂ hroom₂ hcom₂ hbyte₂
        have hd₂ : Drafted L host base ⟨T, p, value⟩ s₂ := by
          refine ⟨hroom₂, by rw [hcom₂]; exact hp, hlen, ?_⟩
          rw [hbyte₂, hcom₂, run_storeBytes, Mem.write_byte, hp]
          exact slice_write_payload host T hd.slot (by simp [hlen])
        refine Env.wp_bind (Env.wp_mono (hcommit _ s₂ rfl hd₂) ?_)
        intro _ s₃ _ hcom₃
        refine Env.wp_ret fun s₄ (hr₄ : ProducerRely s₃ s₄) _ => ⟨?_, fun h => by cases h⟩
        rw [hr₄.committed, hcom₃, hcom₂, hcom₁]
        rfl

theorem push_alone (hL : L.Sane) (htypes : ∀ T, types T → L.Takes T) (hbase : 16 ∣ base)
    (hT : types T) (value : List UInt8) (hlen : value.length = T.size)
    (hinv : s.Inv L host types stepwise) (hroom : s.Room L) (c : Bool) (os : OsAnswers) :
    let run := ((L.at base).push host T value c).run
      (Shared.exec L { writes := some T, os := os }) s
    run.1 = true ∧ run.2.Inv L host types stepwise ∧
      run.2.committed = s.committed ++ [(T, value)] ∧ run.2.taken = s.taken := by
  have hwp : (producerEnv L host types stepwise).wp
      (Shared.exec L { writes := some T, os := os }) ((L.at base).push host T value c)
      (fun r s' => (s'.committed = if r then s.committed ++ [(T, value)] else s.committed) ∧
        (r = false → ¬ s.Room L)) s := by
    refine wp_pushWith hL htypes hbase hT hlen fun d t hd hdraft => ?_
    subst hd
    exact wp_commitWrite hL htypes hdraft hT c os
  obtain ⟨hinv', hcom, hpushed⟩ := Env.wp_alone hwp hinv
  have hguar : ConsumerRely L s _ :=
    Env.guar_alone hwp hinv (fun _ _ h => h) (ConsumerRely.refl _)
      fun _ _ _ => ConsumerRely.trans
  have htrue := mt hpushed (not_not.mpr hroom)
  rw [Bool.not_eq_false] at htrue
  rw [if_pos htrue] at hcom
  exact ⟨htrue, hinv', hcom, hguar.taken⟩

end Sinew
