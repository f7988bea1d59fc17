import Sinew.Model.Turns
import Sinew.Proofs.CountRuns

/-!
# A producer's call by itself

Where nothing interferes, what a call does can be computed. The producer's
calls store in the one slot that holds no message, so the messages between the
counters stay as they were committed.

Nothing here depends on what the messages are. A message need not even be one
that any consumer can be shown: it is kept, and can be skipped.
-/

namespace Sinew

open Lib

variable {L : Layout} {host : Endian} {types : MsgType → Prop} {base : Nat}
  {s s' : Shared} {T : MsgType} {l : Label} {α : Type}

theorem run_silent {p : Code α} {R : α → Prop} (h : p.Always Ev.Silent Paged R)
    (s : Shared) : R (p.run (Shared.exec L l) s).1 ∧ (p.run (Shared.exec L l) s).2 = s := by
  refine h.run (I := (· = s)) rfl fun t e ht he => ?_
  exact ⟨Shared.exec_paged t e, (Shared.exec_silent he t).trans ht⟩

/-- Bytes have changed in the cells `lo` to `hi`, and nothing that counts has. -/
structure Framed (lo hi : Nat) (s s' : Shared) : Prop extends SameCounts s s' where
  byte : ∀ x, x < lo ∨ hi ≤ x → s'.byte x = s.byte x

theorem Framed.mono {lo hi hi' : Nat} (h : Framed lo hi s s') (hle : hi ≤ hi') :
    Framed lo hi' s s' :=
  ⟨h.toSameCounts, fun x hx => h.byte x (hx.imp_right fun hx => Nat.le_trans hle hx)⟩

theorem run_storesIn {lo hi : Nat} {p : Code α} (h : StoresIn lo hi p) (s : Shared) :
    Framed lo hi s (p.run (Shared.exec L l) s).2 := by
  refine (h.run (I := Framed lo hi s) ⟨⟨rfl, rfl, rfl⟩, fun _ _ => rfl⟩ ?_).2
  intro t e ht he
  refine ⟨Shared.exec_paged t e, ?_⟩
  cases e with
  | store q b =>
      refine ⟨⟨ht.word, ht.committed, ht.taken⟩, fun x hx => ?_⟩
      have hne : x ≠ q.off := by
        have := he.1
        have := he.2
        omega
      exact (Function.update_of_ne hne _ _).trans (ht.byte x hx)
  | storeWord q v => exact he.elim
  | _ => exact ⟨⟨ht.word, ht.committed, ht.taken⟩, ht.byte⟩

theorem run_bytesIn {lo hi : Nat} {p : Code α}
    (h : p.Along Mem.machine (BytesIn lo hi) s.bytes) :
    p.run (Shared.exec L l) s = ((p.run Mem.machine s.bytes).1,
      { s with byte := (p.run Mem.machine s.bytes).2.byte }) := by
  induction p generalizing s with
  | ret a => rfl
  | op e k ih =>
      cases e with
      | load q => exact ih _ h.2
      | store q b => exact ih () (s := { s with byte := Function.update s.byte q.off b }) h.2
      | _ => exact h.1.elim

/-! ## What is kept -/

/-- The messages that are not taken yet are as they were committed. -/
structure Shared.Kept (L : Layout) (types : MsgType → Prop) (s : Shared) : Prop where
  counts : s.Counts L
  typed : ∀ e ∈ s.committed, types e.1
  payload : ∀ k T payload, s.taken.length ≤ k → s.committed[k]? = some (T, payload) →
    slice s.byte (L.slotOff k + Header.size) T.size = payload

namespace Shared.Kept

variable (h : s.Kept L types)

include h

theorem framed (hL : L.Sane) (hfits : ∀ T, types T → Header.size + T.size ≤ L.slotSize)
    (hroom : s.Room L) (hf : Framed (L.slotOff s.committed.length)
      (L.slotOff s.committed.length + L.slotSize) s s') : s'.Kept L types := by
  refine ⟨h.counts.same hf.toSameCounts, ?_, fun k T payload hk hget => ?_⟩
  · rw [hf.committed]
    exact h.typed
  · rw [hf.taken] at hk
    rw [hf.committed] at hget
    have hlt := (List.getElem?_eq_some_iff.mp hget).1
    have hsize := hfits T (h.typed _ (List.mem_of_getElem? hget))
    have hroom' : s.committed.length < s.taken.length + L.capacity := hroom
    rw [← h.payload k T payload hk hget]
    refine slice_congr fun x hx hx' => hf.byte x ?_
    rcases hL.slots_disjoint hlt (by omega) with hd | hd
    · exact .inl (by omega)
    · exact .inr (by omega)

theorem commit (hL : L.Sane) (hroom : s.Room L) (hT : types T) :
    let s' := s.storeWord L (some T) L.headOff ((s.word L.headOff + 1) % 2 ^ L.w)
    s'.Kept L types ∧ s'.committed = s.committed ++
      [(T, slice s.byte (L.slotOff s.committed.length + Header.size) T.size)] := by
  obtain ⟨hcounts, htaken, -⟩ := h.counts.commit hL hroom T
  have hslot : slotAt L (s.word L.headOff) = L.slotOff s.committed.length := by
    rw [h.counts.head, hL.slotAt]
  have hcom : (s.storeWord L (some T) L.headOff
      ((s.word L.headOff + 1) % 2 ^ L.w)).committed = s.committed ++
        [(T, slice s.byte (L.slotOff s.committed.length + Header.size) T.size)] := by
    simp only [storeWord, if_pos, hslot]
  have hbyte : (s.storeWord L (some T) L.headOff
      ((s.word L.headOff + 1) % 2 ^ L.w)).byte = s.byte := by
    simp only [storeWord, if_pos]
  refine ⟨⟨hcounts, ?_, fun k U payload hk hget => ?_⟩, hcom⟩
  · intro e he
    rw [hcom] at he
    rcases List.mem_append.mp he with he | he
    · exact h.typed e he
    · rw [List.mem_singleton.mp he]
      exact hT
  · rw [htaken] at hk
    rw [hcom] at hget
    rw [hbyte]
    rcases List.getElem?_concat_some hget with hget | ⟨hkeq, he⟩
    · exact h.payload k U payload hk hget
    · obtain ⟨rfl, rfl⟩ := Prod.mk.inj he
      rw [hkeq]

theorem take (hL : L.Sane) (hwaiting : s.Waiting) (writes : Option MsgType) :
    let s' := s.storeWord L writes L.tailOff ((s.word L.tailOff + 1) % 2 ^ L.w)
    s'.Kept L types ∧ s'.committed = s.committed ∧ s'.byte = s.byte := by
  obtain ⟨hcounts, hcom, htaken⟩ := h.counts.take hL hwaiting writes
  have hbyte : (s.storeWord L writes L.tailOff
      ((s.word L.tailOff + 1) % 2 ^ L.w)).byte = s.byte := by
    simp only [storeWord, if_neg hL.cursors.symm, if_pos]
  refine ⟨⟨hcounts, ?_, fun k U payload hk hget => ?_⟩, hcom, hbyte⟩
  · rw [hcom]
    exact h.typed
  · rw [htaken] at hk
    rw [hcom] at hget
    rw [hbyte]
    exact h.payload k U payload (by omega) hget

end Shared.Kept

/-- The slot at `head` holds the draft's payload. -/
structure Draft.Kept (L : Layout) (base : Nat) (types : MsgType → Prop) (d : Draft)
    (s : Shared) : Prop where
  typed : types d.T
  room : s.Room L
  payload : d.payload = ⟨base, L.slotOff s.committed.length + Header.size⟩
  bytes : slice s.byte (L.slotOff s.committed.length + Header.size) d.T.size = d.bytes

/-- A ring and its producer, between calls. -/
structure Producer.Kept (L : Layout) (base : Nat) (types : MsgType → Prop) (p : Producer)
    (s : Shared) : Prop where
  ring : s.Kept L types
  sent : s.committed = p.sent
  draft : ∀ d, p.draft = some d → d.Kept L base types s

section Producer

variable (hL : L.Sane) (hfits : ∀ T, types T → Header.size + T.size ≤ L.slotSize)

include hL hfits

/-- `prepare_write` fails for want of room, or because the slot is not aligned
for the type. -/
theorem run_prepareWrite (h : s.Kept L types) (hT : types T) (host : Endian) (base : Nat)
    (l : Label) :
    let run := ((L.at base).prepareWrite host T).run (Shared.exec L l) s
    run.2.Kept L types ∧ SameCounts s run.2 ∧
      (∀ q, run.1 = some q → Draft.Kept L base types ⟨T, q, T.fresh⟩ run.2) ∧
      (s.Room L → (base + L.slotOff s.committed.length + Header.size) % T.align = 0 →
        run.1.isSome) := by
  have hsize := hfits T hT
  have hslot : (L.at base).slot (s.word L.headOff) =
      ⟨base, L.slotOff s.committed.length⟩ := by
    rw [h.counts.head, hL.slot]
  have hrun : ((L.at base).prepareWrite host T).run (Shared.exec L l) s =
      if s.unread ≥ L.capacity then (none, s)
      else (prepare host T (some ⟨base, L.slotOff s.committed.length⟩) L.slotSize).run
        (Shared.exec L l) s := by
    rw [← hslot, ← h.counts.distance hL base]
    exact Prog.run_ite _ _ _ _
  dsimp only
  rw [hrun]
  have hle := h.counts.le
  split
  · next hfull =>
      have hnone : ¬ s.Room L := fun hroom => by
        have hroom' : s.committed.length < s.taken.length + L.capacity := hroom
        unfold Shared.unread at hfull
        omega
      exact ⟨h, ⟨rfl, rfl, rfl⟩, (fun q hq => by cases hq), fun hroom => absurd hroom hnone⟩
  · next hfull =>
      have hroom : s.Room L := by
        unfold Shared.unread at hfull
        unfold Shared.Room
        omega
      have hstores : StoresIn (L.slotOff s.committed.length)
          (L.slotOff s.committed.length + (Header.size + T.size))
          (prepare host T (some ⟨base, L.slotOff s.committed.length⟩) L.slotSize) :=
        prepare_within (p := ⟨base, L.slotOff s.committed.length⟩) L.slotSize
      have hframed : Framed _ _ s _ := run_storesIn (L := L) (l := l) hstores s
      refine ⟨h.framed hL hfits hroom (hframed.mono (Nat.add_le_add_left hsize _)),
        hframed.toSameCounts, ?_⟩
      have hbytes := run_bytesIn (L := L) (l := l) (s := s)
        (p := prepare host T (some ⟨base, L.slotOff s.committed.length⟩) L.slotSize)
        (prepare_bytesIn L.slotSize)
      rw [hbytes]
      by_cases hal : ((⟨base, L.slotOff s.committed.length⟩ : Ptr).addr + Header.size) %
          T.align = 0
      · rw [run_prepare_ok host T hsize hal]
        refine ⟨fun q hq => ?_, fun _ _ => rfl⟩
        obtain rfl := Option.some.inj hq
        refine ⟨hT, hroom, rfl, ?_⟩
        exact slice_payload host T _ _ 0 (by simp)
      · rw [prepare, Prog.run_bind, run_prepareResult_misaligned host T hsize hal]
        exact ⟨(fun q hq => by cases hq), fun _ h => absurd h hal⟩

/-- A commit publishes what the slot holds; the header it fixes is in front. -/
theorem run_commitWith (h : s.Kept L types) {d : Draft}
    (hd : d.Kept L base types s) {finish : Ptr → Code α}
    (hfinish : ∀ q : Ptr, StoresIn q.off (q.off + Header.size) (finish q)) (os : OsAnswers) :
    let run := (do
        let head ← loadWord (L.at base).head
        let _ ← finish ((L.at base).slot head)
        storeWord (L.at base).head ((head + 1) % 2 ^ (L.at base).w) : Code Unit).run
      (Shared.exec L { writes := some d.T, os := os }) s
    run.2.Kept L types ∧ run.2.committed = s.committed ++ [(d.T, d.bytes)] := by
  have hslot : (L.at base).slot (s.word L.headOff) =
      ⟨base, L.slotOff s.committed.length⟩ := by
    rw [h.counts.head, hL.slot]
  have hsize := hfits d.T hd.typed
  have hstores : StoresIn (L.slotOff s.committed.length)
      (L.slotOff s.committed.length + Header.size)
      (finish ⟨base, L.slotOff s.committed.length⟩) :=
    hfinish ⟨base, L.slotOff s.committed.length⟩
  have hframed := run_storesIn (L := L) (l := { writes := some d.T, os := os }) hstores s
  generalize hs₁ : ((finish ⟨base, L.slotOff s.committed.length⟩).run
    (Shared.exec L { writes := some d.T, os := os }) s).2 = s₁ at hframed
  have hkept := h.framed hL hfits hd.room (hframed.mono (by omega))
  have hroom : s₁.Room L := by
    unfold Shared.Room
    rw [hframed.committed, hframed.taken]
    exact hd.room
  have hpayload : slice s₁.byte (L.slotOff s₁.committed.length + Header.size) d.T.size =
      d.bytes := by
    rw [hframed.committed, ← hd.bytes]
    exact slice_congr fun x hx _ => hframed.byte x (.inr hx)
  obtain ⟨hkept', hcom⟩ := hkept.commit hL hroom hd.typed
  rw [hpayload, hframed.committed] at hcom
  have hrun : (do
        let head ← loadWord (L.at base).head
        let _ ← finish ((L.at base).slot head)
        storeWord (L.at base).head ((head + 1) % 2 ^ (L.at base).w) : Code Unit).run
      (Shared.exec L { writes := some d.T, os := os }) s =
      ((), s₁.storeWord L (some d.T) L.headOff ((s₁.word L.headOff + 1) % 2 ^ L.w)) := by
    rw [hframed.word, ← hs₁, ← hslot]
    simp only [Prog.run_bind]
    rfl
  dsimp only
  rw [hrun]
  exact ⟨hkept', hcom⟩

omit hL in
theorem Draft.Kept.writeByte {d : Draft} (hd : d.Kept L base types s) {i : Nat}
    (hi : i < d.T.size) (b : UInt8) :
    Framed (L.slotOff s.committed.length) (L.slotOff s.committed.length + L.slotSize) s
        { s with byte := Function.update s.byte (d.payload.add i).off b } ∧
      Draft.Kept L base types { d with bytes := d.bytes.set i b }
        { s with byte := Function.update s.byte (d.payload.add i).off b } := by
  have hsize := hfits d.T hd.typed
  rw [hd.payload]
  refine ⟨⟨⟨rfl, rfl, rfl⟩, fun x hx => Function.update_of_ne ?_ _ _⟩,
    hd.typed, hd.room, rfl, ?_⟩
  · simp only [Ptr.add_off]
    omega
  · rw [← hd.bytes]
    exact slice_update hi

theorem run_pushWith (h : s.Kept L types) (hT : types T) {value : List UInt8}
    (hlen : value.length = T.size) {commit : Code Unit} {os : OsAnswers}
    (hcommit : ∀ s : Shared, ∀ q, s.Kept L types → Draft.Kept L base types ⟨T, q, value⟩ s →
      let run := commit.run (Shared.exec L { writes := some T, os := os }) s
      run.2.Kept L types ∧ run.2.committed = s.committed ++ [(T, value)]) :
    let run := ((L.at base).pushWith host commit T value).run
      (Shared.exec L { writes := some T, os := os }) s
    run.2.Kept L types ∧ run.2.committed =
      if run.1 then s.committed ++ [(T, value)] else s.committed := by
  have hprepare := run_prepareWrite hL hfits h hT host base { writes := some T, os := os }
  rw [Ring.pushWith, Prog.run_bind]
  generalize ((L.at base).prepareWrite host T).run
    (Shared.exec L { writes := some T, os := os }) s = r at hprepare ⊢
  obtain ⟨payload, s₁⟩ := r
  obtain ⟨hkept, hsame, hdraft, -⟩ := hprepare
  cases payload with
  | none => exact ⟨hkept, hsame.committed⟩
  | some q =>
      have hd := hdraft q rfl
      have hsize := hfits T hT
      have hq : q = ⟨base, L.slotOff s₁.committed.length + Header.size⟩ := hd.payload
      have hstores : StoresIn (L.slotOff s₁.committed.length)
          (L.slotOff s₁.committed.length + L.slotSize) (storeBytes q value) := by
        rw [hq]
        exact storeBytes_within (Nat.le_add_right _ _) (by dsimp only; omega)
      have hframed := run_storesIn (L := L) (l := { writes := some T, os := os }) hstores s₁
      have hfoot : (storeBytes q value).Along Mem.machine
          (BytesIn q.off (q.off + value.length)) s₁.bytes :=
        storeBytes_bytesIn (Nat.le_refl _) (Nat.le_refl _)
      have hbytes := run_bytesIn (L := L) (l := { writes := some T, os := os }) hfoot
      have hd₂ : Draft.Kept L base types ⟨T, q, value⟩
          ((storeBytes q value).run (Shared.exec L { writes := some T, os := os }) s₁).2 := by
        refine ⟨hT, ?_, ?_, ?_⟩
        · unfold Shared.Room
          rw [hframed.committed, hframed.taken]
          exact hd.room
        · rw [hframed.committed]
          exact hq
        · rw [hframed.committed, hbytes, run_storeBytes, hq]
          exact slice_patch_eq hlen
      dsimp only
      rw [Prog.run_bind, Prog.run_bind]
      obtain ⟨hkept₃, hcom₃⟩ := hcommit _ q (hkept.framed hL hfits hd.room hframed) hd₂
      refine ⟨hkept₃, hcom₃.trans ?_⟩
      rw [hframed.committed, hsame.committed]
      rfl

theorem ProducerCall.kept {ops : ProducerOps} (hops : ops.On L host types base)
    {p : Producer} {call : Code Producer} (hcall : ProducerCall ops types p l call)
    (h : p.Kept L base types s) :
    (call.run (Shared.exec L l) s).1.Kept L base types (call.run (Shared.exec L l) s).2 := by
  have hcommit : ∀ (T : MsgType) (c : Bool) (os : OsAnswers) (s : Shared) (d : Draft),
      d.T = T → s.Kept L types → d.Kept L base types s →
      let run := (ops.commitWrite T c).run (Shared.exec L { writes := some T, os := os }) s
      run.2.Kept L types ∧ run.2.committed = s.committed ++ [(T, d.bytes)] := by
    intro T c os s d hdT hs hd
    subst hdT
    obtain ⟨α, finish, hfinish, heq⟩ := hops.commitWrite d.T c
    rw [heq]
    exact run_commitWith hL hfits hs hd hfinish os
  cases hcall with
  | prepareWrite T hT =>
      rw [hops.prepareWrite T hT, Prog.run_bind]
      obtain ⟨hkept, hsame, hdraft, -⟩ :=
        run_prepareWrite hL hfits h.ring hT host base { writes := some T }
      refine ⟨hkept, hsame.committed.trans h.sent, fun d hd => ?_⟩
      obtain ⟨q, hq, rfl⟩ := Option.map_eq_some_iff.mp hd
      exact hdraft q hq
  | writeByte d i b hd hi =>
      obtain ⟨hframed, hdraft⟩ := (h.draft d hd).writeByte hfits hi b
      refine ⟨h.ring.framed hL hfits (h.draft d hd).room hframed, h.sent, fun d' hd' => ?_⟩
      obtain rfl := Option.some.inj hd'
      exact hdraft
  | commitWrite d c hd =>
      obtain ⟨hkept, hcom⟩ := hcommit d.T c _ s d rfl h.ring (h.draft d hd)
      rw [Prog.run_bind]
      refine ⟨hkept, hcom.trans ?_, fun d' hd' => by cases hd'⟩
      rw [h.sent]
      rfl
  | push T value c hT hlen =>
      rw [hops.push T value c hT, Prog.run_bind]
      obtain ⟨hkept, hcom⟩ := run_pushWith hL hfits h.ring hT hlen
        fun s q hs hd => hcommit T c _ s ⟨T, q, value⟩ rfl hs hd
      refine ⟨hkept, hcom.trans ?_, fun d' hd' => by cases hd'⟩
      rw [h.sent]
      rfl

end Producer

end Sinew
