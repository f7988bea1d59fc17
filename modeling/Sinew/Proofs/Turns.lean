import Sinew.Proofs.Calls

/-!
# A consumer's call by itself

Each way to consume is a look at the slot of `tail`, by a program that only
reads, and then a commit where the look succeeded. So a call hands out that
slot or nothing, and it takes the message in it or leaves everything as it was.
-/

namespace Sinew

open Lib

variable {L : Layout} {host : Endian} {types : MsgType → Prop} {base : Nat}
  {s : Shared} {T : MsgType} {l : Label} {α : Type}

/-- What is handed out is the oldest message that is not taken, as it was
committed. -/
def Handed.Oldest (L : Layout) (base : Nat) (s : Shared) : Handed → Prop
  | .place p => p = ⟨base, L.slotOff s.taken.length + Header.size⟩ ∧
      ∃ T payload, s.Front T payload ∧ slice s.byte p.off T.size = payload
  | .copy bytes => ∃ T, s.Front T bytes

/-- A consumer's call hands out the oldest message or nothing, by its answer or
to its callback, and takes it or leaves everything as it was. -/
structure CallSound (L : Layout) (base : Nat) (s : Shared)
    (call : Visitor → Code (Option Handed)) : Prop where
  hands : ∀ func, func.OnlyReads → ∀ x, ((call func).run (Shared.exec L {}) s).1 = some x →
    x.Oldest L base s
  calls : ∀ f g, f.OnlyReads → g.OnlyReads →
    (∀ T p, (Handed.place p).Oldest L base s → f T p = g T p) →
    (call f).run (Shared.exec L {}) s = (call g).run (Shared.exec L {}) s
  takes : ∀ func, func.OnlyReads → ((call func).run (Shared.exec L {}) s).2 = s ∨
    s.Waiting ∧ ((call func).run (Shared.exec L {}) s).2 =
      ((L.at base).commitRead.run (Shared.exec L {}) s).2

theorem view_place (slot : Ptr) (size : Nat) (v : Bool) :
    (view host T (some slot) size v).Always Ev.Silent Paged
      fun r => ∀ q, r = some q → q = slot.add Header.size := by
  refine .seq (validate_always (fun _ => trivial) _ _ _) fun err => ?_
  split
  · intro q hq
    cases hq
  · intro q hq
    exact (Option.some.inj hq).symm

theorem inspectPacket_place (slot : Ptr) (size : Nat) :
    (inspectPacket host (some slot) size {}).Always Ev.Silent Paged
      fun r => ∀ q, r.2.payload = some q → q = slot.add Header.size := by
  have hload : ∀ q, Ev.Silent (.load q) := fun _ => trivial
  have hempty : ∀ q, (none : Option Ptr) = some q → q = slot.add Header.size := by
    intro q hq
    cases hq
  simp only [inspectPacket]
  split
  · exact hempty
  refine .seq (load32_always hload host _) fun magic => ?_
  split
  · exact hempty
  refine .seq (load32_always hload host _) fun payloadLen => ?_
  split
  · exact hempty
  refine .seq (loadHeader_always hload _) fun header =>
    .seq (load32_always hload host _) fun _ => fun q hq => ?_
  exact (Option.some.inj hq).symm

theorem packetAt_place (slot : Ptr) (size : Nat) (v : Bool) :
    (IpcEnvelopeRingBuffer.packetAt host slot size v).Always Ev.Silent Paged
      fun pv => ∀ q, pv.payload = some q → q = slot.add Header.size := by
  have hempty : ∀ q, (none : Option Ptr) = some q → q = slot.add Header.size := by
    intro q hq
    cases hq
  refine .bind ((inspectPacket_place slot size).mono fun r hr => ?_)
  dsimp only
  split
  · exact hempty
  split
  · refine .seq (crc32OfView_always (fun _ => trivial) _) fun computed => ?_
    split
    · exact hempty
    · exact hr
  · exact hr

theorem view_bind {slot : Ptr} {size : Nat} {v : Bool} {f g : Option Ptr → Code α}
    (hnone : f none = g none) (hsome : f (some (slot.add Header.size)) =
      g (some (slot.add Header.size))) :
    (view host T (some slot) size v >>= f) = view host T (some slot) size v >>= g := by
  simp only [view, bind_assoc]
  refine congrArg _ (funext fun err => ?_)
  split
  · exact hnone
  · exact hsome

theorem dispatch_congr {f g : Visitor} {slot : Ptr} {size : Nat} {v : Bool}
    (h : ∀ T, f T (slot.add Header.size) = g T (slot.add Header.size))
    (msgTypes : List MsgType) :
    dispatch host msgTypes (some slot) size f v = dispatch host msgTypes (some slot) size g v := by
  have hsingle : ∀ T msgId, tryDispatchSingle host T msgId (some slot) size f v =
      tryDispatchSingle host T msgId (some slot) size g v := by
    intro T msgId
    unfold tryDispatchSingle
    split
    · refine view_bind rfl ?_
      simp only [callVisitor, h T]
    · rfl
  have heach : tryDispatchEach host slot size f v msgTypes =
      tryDispatchEach host slot size g v msgTypes := by
    induction msgTypes with
    | nil => rfl
    | cons T rest ih => simp only [tryDispatchEach, hsingle, ih]
  simp only [dispatch, heach]

/-- A callback's own run changes nothing. -/
theorem run_callback {func : Visitor} (hfunc : func.OnlyReads) (T : MsgType) (p : Ptr) :
    ((func T p).run (Shared.exec L l) s).2 = s :=
  (run_silent (hfunc.always (fun _ => trivial) T p) s).2

section Consumer

variable (hL : L.Sane) (hs : s.Kept L types)

include hL hs

theorem run_look_waiting (hwaiting : s.Waiting) {empty : α} {look : Nat → Code α} :
    (do
      let tail ← loadWord (L.at base).tail
      let head ← loadWord (L.at base).head
      if tail = head then
        return empty
      look tail : Code α).run (Shared.exec L l) s =
      (look (s.word L.tailOff)).run (Shared.exec L l) s := by
  have hne : ¬ s.word L.tailOff = s.word L.headOff := by
    rw [hs.counts.cursors_eq_iff hL]
    exact Nat.ne_of_lt hwaiting
  simp only [Prog.run_bind]
  exact (Prog.run_ite _ _ _ _).trans (if_neg hne)

theorem run_look_drained (hdrained : ¬ s.Waiting) {empty : α} {look : Nat → Code α} :
    (do
      let tail ← loadWord (L.at base).tail
      let head ← loadWord (L.at base).head
      if tail = head then
        return empty
      look tail : Code α).run (Shared.exec L l) s = (empty, s) := by
  have heq : s.word L.tailOff = s.word L.headOff := by
    rw [hs.counts.cursors_eq_iff hL]
    exact Nat.le_antisymm hs.counts.le (Nat.le_of_not_lt hdrained)
  simp only [Prog.run_bind]
  exact (Prog.run_ite _ _ _ _).trans (if_pos heq)

theorem slot_tail : (L.at base).slot (s.word L.tailOff) =
    ⟨base, L.slotOff s.taken.length⟩ := by
  rw [hs.counts.tail, hL.slot]

theorem place_oldest (hwaiting : s.Waiting) {p : Ptr}
    (hp : p = ((L.at base).slot (s.word L.tailOff)).add Header.size) :
    (Handed.place p).Oldest L base s := by
  rw [slot_tail hL hs] at hp
  obtain ⟨T, payload, hf⟩ := Shared.exists_front hwaiting
  refine ⟨hp, T, payload, hf, ?_⟩
  rw [hp]
  exact hs.payload _ T payload (Nat.le_refl _) hf

theorem run_peekRead (host : Endian) (T : MsgType) (v : Bool) :
    let run := ((L.at base).peekRead host T v).run (Shared.exec L l) s
    run.2 = s ∧ ∀ p, run.1 = some p → s.Waiting ∧ (Handed.place p).Oldest L base s := by
  dsimp only
  by_cases hwaiting : s.Waiting
  · rw [Ring.peekRead, run_look_waiting hL hs hwaiting]
    obtain ⟨hplace, hsame⟩ := run_silent (L := L) (l := l) (view_place
      ((L.at base).slot (s.word L.tailOff)) (L.at base).slotSize v) s
    exact ⟨hsame, fun p hp => ⟨hwaiting, place_oldest hL hs hwaiting (hplace p hp)⟩⟩
  · rw [Ring.peekRead, run_look_drained hL hs hwaiting]
    exact ⟨rfl, fun p hp => by cases hp⟩

theorem peekRead_sound (host : Endian) (T : MsgType) (v : Bool) :
    CallSound L base s fun _ => do
      let payload ← (L.at base).peekRead host T v
      return payload.map .place := by
  obtain ⟨hsame, hplace⟩ := @run_peekRead L types base s {} hL hs host T v
  refine ⟨fun _ _ x hx => ?_, fun _ _ _ _ _ => rfl, fun _ _ => .inl ?_⟩
  · rw [Prog.run_bind] at hx
    obtain ⟨p, hp, rfl⟩ := Option.map_eq_some_iff.mp hx
    exact (hplace p hp).2
  · rw [Prog.run_bind]
    exact hsame

theorem run_pop (host : Endian) (T : MsgType) (v : Bool) :
    ((L.at base).pop host T v).run (Shared.exec L {}) s =
      match (((L.at base).peekRead host T v).run (Shared.exec L {}) s).1 with
      | none => (none, s)
      | some p => (some (slice s.byte p.off T.size),
          ((L.at base).commitRead.run (Shared.exec L {}) s).2) := by
  obtain ⟨hsame, -⟩ := run_peekRead (l := {}) hL hs host T v
  rw [Ring.pop, Prog.run_bind, hsame]
  cases (((L.at base).peekRead host T v).run (Shared.exec L {}) s).1 with
  | none => rfl
  | some p =>
      have hfoot : (loadBytes p T.size).Along Mem.machine
          (BytesIn p.off (p.off + T.size)) s.bytes :=
        loadBytes_bytesIn (Nat.le_refl _) (Nat.le_refl _)
      have hload := run_bytesIn (L := L) (l := {}) hfoot
      rw [run_loadBytes] at hload
      dsimp only
      rw [Prog.run_bind, hload, Prog.run_bind]
      rfl

theorem pop_sound (host : Endian) (v : Bool) (honly : ∀ U, types U → U = T) :
    CallSound L base s fun _ => do
      let value ← (L.at base).pop host T v
      return value.map .copy := by
  obtain ⟨-, hplace⟩ := @run_peekRead L types base s {} hL hs host T v
  refine ⟨fun _ _ x hx => ?_, fun _ _ _ _ _ => rfl, fun _ _ => ?_⟩
  · rw [Prog.run_bind, run_pop hL hs] at hx
    cases hpeek : (((L.at base).peekRead host T v).run (Shared.exec L {}) s).1 with
    | none =>
        rw [hpeek] at hx
        cases hx
    | some p =>
        rw [hpeek] at hx
        obtain rfl := Option.some.inj hx
        obtain ⟨_, _, U, payload, hf, hslice⟩ := hplace p hpeek
        obtain rfl := honly U (hs.typed _ (List.mem_of_getElem? hf))
        refine ⟨U, ?_⟩
        rw [hslice]
        exact hf
  · rw [Prog.run_bind, run_pop hL hs]
    cases hpeek : (((L.at base).peekRead host T v).run (Shared.exec L {}) s).1 with
    | none => exact .inl rfl
    | some p => exact .inr ⟨(hplace p hpeek).1, rfl⟩

theorem run_consume (host : Endian) (T : MsgType) (v : Bool) {func : Visitor}
    (hfunc : func.OnlyReads) :
    ((L.at base).consume host T func v).run (Shared.exec L {}) s =
      match (((L.at base).peekRead host T v).run (Shared.exec L {}) s).1 with
      | none => (some false, s)
      | some p => match ((func T p).run (Shared.exec L {}) s).1 with
          | .threw => (none, s)
          | .returned =>
              (some true, ((L.at base).commitRead.run (Shared.exec L {}) s).2) := by
  obtain ⟨hsame, -⟩ := run_peekRead (l := {}) hL hs host T v
  rw [Ring.consume, Prog.run_bind, hsame]
  cases (((L.at base).peekRead host T v).run (Shared.exec L {}) s).1 with
  | none => rfl
  | some p =>
      dsimp only
      rw [Prog.run_bind, run_callback hfunc]
      cases ((func T p).run (Shared.exec L {}) s).1 with
      | threw => rfl
      | returned => exact Prog.run_bind _ _ _

theorem consume_sound (host : Endian) (T : MsgType) (v : Bool) :
    CallSound L base s fun func => do
      let _ ← (L.at base).consume host T func v
      return none := by
  obtain ⟨-, hplace⟩ := @run_peekRead L types base s {} hL hs host T v
  refine ⟨fun func _ x hx => ?_, fun f g hf hg hfg => ?_, fun func hfunc => ?_⟩
  · rw [Prog.run_bind] at hx
    cases hx
  · rw [Prog.run_bind, Prog.run_bind, run_consume hL hs host T v hf,
      run_consume hL hs host T v hg]
    cases hpeek : (((L.at base).peekRead host T v).run (Shared.exec L {}) s).1 with
    | none => rfl
    | some p =>
        dsimp only
        rw [hfg T p (hplace p hpeek).2]
  · rw [Prog.run_bind, run_consume hL hs host T v hfunc]
    cases hpeek : (((L.at base).peekRead host T v).run (Shared.exec L {}) s).1 with
    | none => exact .inl rfl
    | some p =>
        dsimp only
        cases ((func T p).run (Shared.exec L {}) s).1 with
        | threw => exact .inl rfl
        | returned => exact .inr ⟨(hplace p hpeek).1, rfl⟩

theorem peekPacket_sound (host : Endian) (v : Bool) :
    CallSound L base s fun _ => do
      let pv ← IpcEnvelopeRingBuffer.peekPacketAt host (L.at base) v
      return pv.payload.map .place := by
  refine ⟨fun _ _ x hx => ?_, fun _ _ _ _ _ => rfl, fun _ _ => .inl ?_⟩
  · rw [Prog.run_bind] at hx
    obtain ⟨p, hp, rfl⟩ := Option.map_eq_some_iff.mp hx
    by_cases hwaiting : s.Waiting
    · rw [IpcEnvelopeRingBuffer.peekPacketAt, run_look_waiting hL hs hwaiting] at hp
      obtain ⟨hplace, -⟩ := run_silent (L := L) (l := {}) (packetAt_place
        ((L.at base).slot (s.word L.tailOff)) (L.at base).slotSize v) s
      exact place_oldest hL hs hwaiting (hplace p hp)
    · rw [IpcEnvelopeRingBuffer.peekPacketAt, run_look_drained hL hs hwaiting] at hp
      cases hp
  · rw [Prog.run_bind]
    by_cases hwaiting : s.Waiting
    · rw [IpcEnvelopeRingBuffer.peekPacketAt, run_look_waiting hL hs hwaiting]
      exact (run_silent (packetAt_place _ _ v) s).2
    · rw [IpcEnvelopeRingBuffer.peekPacketAt, run_look_drained hL hs hwaiting]
      rfl

/-- `dispatch` by itself: it is silent, says `true` only where there is a
message, and calls its visitor at that message only. -/
theorem run_dispatchAt (host : Endian) (msgTypes : List MsgType) (v : Bool) :
    (∀ func : Visitor, func.OnlyReads →
      let run := (IpcEnvelopeRingBuffer.dispatchAt host (L.at base) msgTypes func v).run
        (Shared.exec L {}) s
      run.2 = s ∧ (run.1 = some true → s.Waiting)) ∧
    ∀ f g : Visitor, (∀ T p, (Handed.place p).Oldest L base s → f T p = g T p) →
      (IpcEnvelopeRingBuffer.dispatchAt host (L.at base) msgTypes f v).run
        (Shared.exec L {}) s =
      (IpcEnvelopeRingBuffer.dispatchAt host (L.at base) msgTypes g v).run
        (Shared.exec L {}) s := by
  by_cases hwaiting : s.Waiting
  · refine ⟨fun func hfunc => ?_, fun f g hfg => ?_⟩
    · rw [IpcEnvelopeRingBuffer.dispatchAt, run_look_waiting hL hs hwaiting]
      exact ⟨(run_silent (dispatch_always (fun _ => trivial)
        (hfunc.always fun _ => trivial) _ _ _ _) s).2, fun _ => hwaiting⟩
    · rw [IpcEnvelopeRingBuffer.dispatchAt, IpcEnvelopeRingBuffer.dispatchAt,
        run_look_waiting hL hs hwaiting, run_look_waiting hL hs hwaiting,
        dispatch_congr fun T => hfg T _ (place_oldest hL hs hwaiting rfl)]
  · refine ⟨fun func hfunc => ?_, fun f g _ => ?_⟩
    · rw [IpcEnvelopeRingBuffer.dispatchAt, run_look_drained hL hs hwaiting]
      exact ⟨rfl, fun h => by cases h⟩
    · rw [IpcEnvelopeRingBuffer.dispatchAt, IpcEnvelopeRingBuffer.dispatchAt,
        run_look_drained hL hs hwaiting, run_look_drained hL hs hwaiting]

theorem dispatch_sound (host : Endian) (msgTypes : List MsgType) (v : Bool) :
    CallSound L base s fun visitor => do
      let _ ← IpcEnvelopeRingBuffer.dispatchAt host (L.at base) msgTypes visitor v
      return none := by
  obtain ⟨hsilent, hcongr⟩ := @run_dispatchAt L types base s hL hs host msgTypes v
  refine ⟨fun func _ x hx => ?_, fun f g _ _ hfg => ?_, fun func hfunc => .inl ?_⟩
  · rw [Prog.run_bind] at hx
    cases hx
  · rw [Prog.run_bind, Prog.run_bind, hcongr f g hfg]
  · rw [Prog.run_bind]
    exact (hsilent func hfunc).1

theorem dispatchAndCommit_sound (host : Endian) (msgTypes : List MsgType) (v : Bool) :
    CallSound L base s fun visitor => do
      let _ ← (do
        let dispatched ←
          IpcEnvelopeRingBuffer.dispatchAt host (L.at base) msgTypes visitor v
        if dispatched = some true then
          (L.at base).commitRead
          return some true
        return dispatched : Code (Option Bool))
      return none := by
  obtain ⟨hsilent, hcongr⟩ := @run_dispatchAt L types base s hL hs host msgTypes v
  refine ⟨fun func _ x hx => ?_, fun f g _ _ hfg => ?_, fun func hfunc => ?_⟩
  · rw [Prog.run_bind] at hx
    cases hx
  · rw [Prog.run_bind, Prog.run_bind, Prog.run_bind, Prog.run_bind, hcongr f g hfg]
  · obtain ⟨hsame, htrue⟩ := hsilent func hfunc
    rw [Prog.run_bind, Prog.run_bind, hsame]
    split
    · next h => exact .inr ⟨htrue h, by rw [Prog.run_bind]; rfl⟩
    · exact .inl rfl

end Consumer

end Sinew
