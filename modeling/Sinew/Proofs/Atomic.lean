import Mathlib.Data.List.Find
import Sinew.Lib.Trace
import Sinew.Proofs.Dispatch
import Sinew.Proofs.Wordless

/-!
# Operations that fail leave nothing behind

Every operation of the library checks before it stores. Here that is a property
of its traces: one that ends in a failure loads and does nothing else. So it holds
whatever the memory is and whatever other threads do to it meanwhile, and a call
that runs alone and fails has changed nothing. A callback comes after the checks
as the stores do, and a failure does not depend on which callback it would have
been.

A callback that throws is no failure of these but an end of its own, in which the
cursors are where they were. If the callback has kept its hands off the ring, the
next call meets the same slot with the same bytes and hands on the same message.
-/

namespace Sinew

open Lib

/-- Loads of bytes and of counters. -/
def Ev.Looks : Ev → Prop
  | .load _ => True
  | .loadWord _ => True
  | _ => False

theorem Mem.exec_looks (m : Mem) (e : Ev) (h : e.Looks) : (Mem.machine m e).2 = m := by
  cases e with
  | load p => rfl
  | loadWord p => rfl
  | _ => exact h.elim

/-- An operation that fails having looked only, so that alone it changes nothing. -/
structure FailsClean {α : Type} (p : Code α) (failed : α → Prop) : Prop where
  looks : p.Refuses Ev.Looks failed
  unchanged : ∀ m, failed (p.run Mem.machine m).1 → (p.run Mem.machine m).2 = m

variable {α : Type} {host : Endian} {T : MsgType}

theorem FailsClean.of_refuses {p : Code α} {failed : α → Prop}
    (h : p.Refuses Ev.Looks failed) : FailsClean p failed :=
  ⟨h, fun _ hfail => h.run Mem.exec_looks hfail⟩

theorem Ev.looks_load (q : Ptr) : Ev.Looks (.load q) := trivial

/-- Once `prepare_result` has begun to store it does not fail. -/
theorem prepareResult_refuses {failed : PtrResult → Prop}
    (hok : ∀ payload, ¬ failed ⟨some payload, .ok⟩) (buffer : Option Ptr) (capacity : Nat) :
    (prepareResult host T buffer capacity).Refuses Ev.Looks failed := by
  cases buffer with
  | none => exact .pure _
  | some hdr =>
      refine .ite (fun _ => .pure _) fun _ => .ite (fun _ => .pure _) fun _ => ?_
      refine Prog.Succeeds.refuses ?_
      exact .seq fun _ => .seq fun _ => .seq fun _ => .seq fun _ => .seq fun _ =>
        .seq fun _ => .seq fun _ => hok _

theorem prepare_refuses (buffer : Option Ptr) (capacity : Nat) :
    (prepare host T buffer capacity).Refuses Ev.Looks (· = none) := by
  have hresult : (prepareResult host T buffer capacity).Refuses Ev.Looks (·.value = none) :=
    prepareResult_refuses (fun _ h => nomatch h) buffer capacity
  exact hresult.bind (fun _ _ => .pure _) fun _ hr => hr

theorem portableEncode_refuses (shape : Shape) (dest : Option Ptr) (destCapacity : Nat)
    (source : List UInt8) (computeCrc : Bool) :
    (portableEncode host T shape dest destCapacity source computeCrc).Refuses Ev.Looks
      (· = 0) := by
  have hsize : ¬ Header.size + T.size = 0 := by
    have := T.size_pos
    omega
  cases dest with
  | none => exact .pure _
  | some hdr =>
      have hcrc : (if computeCrc then do
            let crc ← crc32At (hdr.add Header.size) T.size
            store32 host (hdr.add Header.crcOff) (toLittleEndian32 host crc)
            return Header.size + T.size
          else do
            store32 host (hdr.add Header.crcOff) 0
            return Header.size + T.size : Code Nat).Succeeds (· = 0) :=
        .ite (.seq fun _ => .seq fun _ => hsize) (.seq fun _ => hsize)
      refine .ite (fun _ => .pure _) fun _ => Prog.Succeeds.refuses ?_
      refine .seq fun _ => .seq fun _ => .seq fun _ => .seq fun _ => .seq fun _ => ?_
      exact .ite (.seq fun _ => hcrc) hcrc

theorem portableDecode_refuses (shape : Shape) (src : Option Ptr) (srcLen : Nat)
    (dest : Ptr) (verifyCrc : Bool) :
    (portableDecode host T shape src srcLen dest verifyCrc).Refuses Ev.Looks (· ≠ .ok) := by
  have h32 : ∀ q, (load32 host q).Always Ev.Looks (fun _ _ => True) fun _ => True :=
    load32_always Ev.looks_load host
  have h16 : ∀ q, (load16 host q).Always Ev.Looks (fun _ _ => True) fun _ => True :=
    load16_always Ev.looks_load
  cases src with
  | none => exact .pure _
  | some hdr =>
      have hcopy : (do
          let bytes ← loadBytes (hdr.add Header.size) T.size
          storeBytes dest bytes
          if host = .big then
            portableSwap host shape dest
          return .ok : Code ErrorCode).Refuses Ev.Looks (· ≠ .ok) :=
        Prog.Succeeds.refuses (.seq fun bytes => .seq fun _ =>
          .ite (.seq fun _ h => h rfl) fun h => h rfl)
      refine .ite (fun _ => .pure _) fun _ => .seq (h32 _) fun magic => ?_
      refine .ite (fun _ => .pure _) fun _ => .seq (h16 _) fun msgId => ?_
      refine .ite (fun _ => .pure _) fun _ => .seq (h16 _) fun ver => ?_
      refine .ite (fun _ => .pure _) fun _ => .seq (h32 _) fun plen => ?_
      refine .ite (fun _ => .pure _) fun _ => .ite (fun _ => ?_) fun _ => hcopy
      refine .seq (h32 _) fun crc => .ite (fun _ => ?_) fun _ => hcopy
      refine .seq (crc32At_always Ev.looks_load _ _) fun computed => ?_
      exact .seq (h32 _) fun crc => .ite (fun _ => .pure _) fun _ => hcopy

theorem inspectPacket_refuses (buffer : Option Ptr) (size : Nat) (out : PacketView) :
    (inspectPacket host buffer size out).Refuses Ev.Looks (·.1 ≠ .ok) :=
  .of_always (inspectPacket_always Ev.looks_load buffer size out)

theorem inspectPacket_view (buffer : Option Ptr) (size : Nat) (out : PacketView) :
    (inspectPacket host buffer size out).Always (fun _ => True) (fun _ _ => True)
      fun r => r.1 ≠ .ok → r.2 = out := by
  cases buffer with
  | none => exact fun _ => rfl
  | some hdr =>
      simp only [inspectPacket]
      split
      · exact fun _ => rfl
      refine .seq (Prog.always_any _) fun magic => ?_
      split
      · exact fun _ => rfl
      refine .seq (Prog.always_any _) fun payloadLen => ?_
      split
      · exact fun _ => rfl
      exact .seq (Prog.always_any _) fun header => .seq (Prog.always_any _) fun _ h =>
        absurd rfl h

namespace Ring

variable {R : Ring}

theorem peekRead_looks (verifyCrc : Bool) :
    (R.peekRead host T verifyCrc).Always Ev.Looks (fun _ _ => True) fun _ => True := by
  refine .event_bind trivial fun tail _ => .event_bind trivial fun head _ => ?_
  split
  · trivial
  · exact view_always Ev.looks_load _ _ _

theorem prepareWrite_refuses : (R.prepareWrite host T).Refuses Ev.Looks (· = none) := by
  refine .seq ⟨trivial, fun _ _ => trivial⟩ fun head => ?_
  refine .seq ⟨trivial, fun _ _ => trivial⟩ fun tail => ?_
  split
  · exact .pure _
  · exact prepare_refuses _ _

theorem pushWith_refuses (commitWrite : Code Unit) (value : List UInt8) :
    (R.pushWith host commitWrite T value).Refuses Ev.Looks (· = false) := by
  refine prepareWrite_refuses.bind (fun slot hslot => ?_) fun slot hslot => ?_
  · rw [hslot]
    exact .pure _
  · cases slot with
    | none => exact absurd rfl hslot
    | some slot => exact .seq fun _ => .seq fun _ h => nomatch h

theorem popInto_refuses (outValue : Ptr) (verifyCrc : Bool) :
    (R.popInto host T outValue verifyCrc).Refuses Ev.Looks (· = false) := by
  refine .seq (peekRead_looks verifyCrc) fun item => ?_
  cases item with
  | none => exact .pure _
  | some item =>
      exact Prog.Succeeds.refuses (.seq fun _ => .seq fun _ => .seq fun _ h => nomatch h)

theorem run_popInto (outValue : Ptr) (verifyCrc : Bool) (m : Mem) :
    (R.popInto host T outValue verifyCrc).run Mem.machine m =
      match (R.pop host T verifyCrc).run Mem.machine m with
      | (none, m') => (false, m')
      | (some value, m') => (true, m'.write outValue.off value) := by
  rw [popInto, pop, Prog.run_bind, Prog.run_bind]
  match (R.peekRead host T verifyCrc).run Mem.machine m with
  | (none, m') => rfl
  | (some item, m') =>
      simp only [Prog.run_bind, run_loadBytes, run_storeBytes]
      rfl

end Ring

/-- A call with a callback that fails as cleanly whatever the callback is, and does so
without calling it. -/
structure CallsClean (call : Visitor → Code (Option Bool)) : Prop where
  clean : ∀ visitor, FailsClean (call visitor) (· = some false)
  uncalled : ∀ visitor other t, (call visitor).Trace t (some false) →
    (call other).Trace t (some false)
  uncalled_run : ∀ visitor other m,
    ((call visitor).run Mem.machine m).1 = some false →
      (call other).run Mem.machine m = (some false, m)

theorem CallsClean.of_refuses {call : Visitor → Code (Option Bool)}
    (hclean : ∀ visitor, (call visitor).Refuses Ev.Looks (· = some false))
    (huncalled : ∀ visitor other t, (call visitor).Trace t (some false) →
      (call other).Trace t (some false)) : CallsClean call where
  clean visitor := .of_refuses (hclean visitor)
  uncalled := huncalled
  uncalled_run visitor other m hfail := by
    have hsame := (hclean visitor).run Mem.exec_looks hfail
    obtain ⟨t, ht, hplays⟩ := Prog.run_eq_iff.mp (Prod.ext hfail hsame)
    exact Prog.run_eq_iff.mpr ⟨t, huncalled visitor other t ht, hplays⟩

theorem consumed_succeeds (visitor : Visitor) (commitRead : Code Unit) (item : Ptr) :
    (do
      let outcome ← visitor T item
      match outcome with
      | .threw => return none
      | .returned => do
          commitRead
          return some true : Code (Option Bool)).Succeeds (· = some false) := by
  refine .seq fun outcome => ?_
  cases outcome with
  | threw => exact fun h => nomatch h
  | returned => exact .seq fun _ h => nomatch h

theorem callVisitor_succeeds (visitor : Visitor) (msg : Ptr) :
    (callVisitor visitor T msg).Succeeds (· = some false) := by
  refine .seq fun outcome => ?_
  cases outcome <;> exact fun h => nomatch h

theorem Ring.consume_clean (R : Ring) (verifyCrc : Bool) :
    CallsClean fun visitor => R.consume host T visitor verifyCrc := by
  refine .of_refuses (fun visitor => ?_) fun visitor other t ht => ?_
  · refine .seq (peekRead_looks verifyCrc) fun item => ?_
    cases item with
    | none => exact .pure _
    | some item => exact (consumed_succeeds visitor R.commitRead item).refuses
  · refine ht.bind_mono fun item t h => ?_
    cases item with
    | none => exact h
    | some item =>
        exact absurd rfl ((consumed_succeeds visitor R.commitRead item).trace h).2

theorem tryDispatchSingle_refuses (msgId : UInt16) (buffer : Option Ptr) (size : Nat)
    (visitor : Visitor) (verifyCrc : Bool) :
    (tryDispatchSingle host T msgId buffer size visitor verifyCrc).Refuses Ev.Looks
      (· = some false) := by
  unfold tryDispatchSingle
  split
  · refine .seq (view_always Ev.looks_load _ _ _) fun msg => ?_
    cases msg with
    | none => exact .pure _
    | some msg => exact (callVisitor_succeeds visitor msg).refuses
  · exact .pure _

theorem tryDispatchSingle_uncalled {msgId : UInt16} {buffer : Option Ptr} {size : Nat}
    {visitor : Visitor} (other : Visitor) {verifyCrc : Bool} {t : List sys.Seen}
    (ht : (tryDispatchSingle host T msgId buffer size visitor verifyCrc).Trace t
      (some false)) :
    (tryDispatchSingle host T msgId buffer size other verifyCrc).Trace t (some false) := by
  unfold tryDispatchSingle at ht ⊢
  split at ht
  · rw [if_pos ‹_›]
    refine ht.bind_mono fun msg t h => ?_
    cases msg with
    | none => exact h
    | some msg => exact absurd rfl ((callVisitor_succeeds visitor msg).trace h).2
  · rw [if_neg ‹_›]
    exact ht

/-- Each type in turn: one that does not fit leaves the next to be tried. -/
theorem tryDispatchEach_uncalled {hdr : Ptr} {size : Nat}
    {visitor : Visitor} (other : Visitor) {verifyCrc : Bool} {msgTypes : List MsgType}
    {t : List sys.Seen}
    (ht : (tryDispatchEach host hdr size visitor verifyCrc msgTypes).Trace t (some false)) :
    (tryDispatchEach host hdr size other verifyCrc msgTypes).Trace t (some false) := by
  induction msgTypes generalizing t with
  | nil => exact ht
  | cons T rest ih =>
      refine ht.bind_mono fun msgId t ht => ?_
      obtain ⟨r, t₁, t₂, h₁, h₂, happ⟩ := (Prog.trace_bind _ _ _ _).mp ht
      by_cases hr : r = some false
      · rw [if_pos hr] at h₂
        rw [hr] at h₁
        exact (Prog.trace_bind _ _ _ _).mpr
          ⟨_, t₁, t₂, tryDispatchSingle_uncalled other h₁, ih h₂, happ⟩
      · rw [if_neg hr] at h₂
        exact absurd h₂.2 hr

theorem dispatch_refuses (msgTypes : List MsgType) (buffer : Option Ptr) (size : Nat)
    (visitor : Visitor) (verifyCrc : Bool) :
    (dispatch host msgTypes buffer size visitor verifyCrc).Refuses Ev.Looks
      (· = some false) := by
  cases buffer with
  | none => exact .pure _
  | some hdr =>
      simp only [dispatch]
      split
      · exact .pure _
      refine .seq (load32_always Ev.looks_load host _) fun magic => ?_
      split
      · exact .pure _
      induction msgTypes with
      | nil => exact .pure _
      | cons T rest ih =>
          refine .seq (load16_always Ev.looks_load _) fun msgId => ?_
          refine (tryDispatchSingle_refuses _ _ _ _ _).bind (fun r hr => ?_) fun r hr => ?_
          · rw [if_pos hr]
            exact ih
          · rw [if_neg hr]
            exact hr

theorem dispatch_uncalled {msgTypes : List MsgType} {buffer : Option Ptr} {size : Nat}
    {visitor : Visitor} (other : Visitor) {verifyCrc : Bool} {t : List sys.Seen}
    (ht : (dispatch host msgTypes buffer size visitor verifyCrc).Trace t (some false)) :
    (dispatch host msgTypes buffer size other verifyCrc).Trace t (some false) := by
  cases buffer with
  | none => exact ht
  | some hdr =>
      simp only [dispatch] at ht ⊢
      split at ht
      · rw [if_pos ‹_›]
        exact ht
      rw [if_neg ‹_›]
      refine ht.bind_mono fun magic t ht => ?_
      split at ht
      · rw [if_pos ‹_›]
        exact ht
      rw [if_neg ‹_›]
      exact tryDispatchEach_uncalled other ht

namespace IpcEnvelopeRingBuffer

variable {MaxPayloadSize Capacity : Nat} {h : IpcHandle}

theorem dispatchAt_clean (R : Ring) (msgTypes : List MsgType) (verifyCrc : Bool) :
    CallsClean fun visitor => dispatchAt host R msgTypes visitor verifyCrc := by
  refine .of_refuses (fun visitor => ?_) fun visitor other t ht => ?_
  · refine .seq ⟨trivial, fun _ _ => trivial⟩ fun tail => ?_
    refine .seq ⟨trivial, fun _ _ => trivial⟩ fun head => ?_
    split
    · exact .pure _
    · exact dispatch_refuses _ _ _ _ _
  · refine ht.bind_mono fun tail t ht => ht.bind_mono fun head t ht => ?_
    split at ht
    · rw [if_pos ‹_›]
      exact ht
    · rw [if_neg ‹_›]
      exact dispatch_uncalled other ht

theorem dispatch_clean (msgTypes : List MsgType) (verifyCrc : Bool) :
    CallsClean fun visitor =>
      dispatch MaxPayloadSize Capacity host h msgTypes visitor verifyCrc := by
  unfold dispatch
  cases h.ring (params MaxPayloadSize Capacity) with
  | none => exact .of_refuses (fun _ => .pure _) fun _ _ _ ht => ht
  | some R => exact dispatchAt_clean R msgTypes verifyCrc

theorem dispatchAndCommit_clean (msgTypes : List MsgType) (verifyCrc : Bool) :
    CallsClean fun visitor =>
      dispatchAndCommit MaxPayloadSize Capacity host h msgTypes visitor verifyCrc := by
  have hclean : CallsClean fun visitor =>
      dispatch MaxPayloadSize Capacity host h msgTypes visitor verifyCrc :=
    dispatch_clean msgTypes verifyCrc
  refine .of_refuses (fun visitor => ?_) fun visitor other t ht => ?_
  · refine (hclean.clean visitor).looks.bind (fun r hr => ?_) fun r hr => ?_
    · rw [hr]
      exact .pure _
    · split
      · exact .seq fun _ h => nomatch h
      · exact hr
  · obtain ⟨r, t₁, t₂, h₁, h₂, happ⟩ := (Prog.trace_bind _ _ _ _).mp ht
    refine (Prog.trace_bind _ _ _ _).mpr ⟨r, t₁, t₂, ?_, h₂, happ⟩
    have hr : r = some false := by
      split at h₂
      · obtain ⟨_, _, _, _, h₂, _⟩ := (Prog.trace_bind _ _ _ _).mp h₂
        exact nomatch h₂.2
      · exact h₂.2
    rw [hr] at h₁ ⊢
    exact hclean.uncalled visitor other t₁ h₁

end IpcEnvelopeRingBuffer

/-- What one memory holds of the ring another holds too: the cursors and every byte
of every slot. -/
structure Ring.Same (R : Ring) (m m' : Mem) : Prop where
  head : m'.word R.head.off = m.word R.head.off
  tail : m'.word R.tail.off = m.word R.tail.off
  slots : ∀ cursor i, i < R.slotSize →
    m'.byte ((R.slot cursor).off + i) = m.byte ((R.slot cursor).off + i)

/-- A call whose callback may throw. If no callback touches the ring, then after
one that threw the ring is as it was, and the next call, whatever its callback, is
handed the same message. -/
def PresentsAgain (R : Ring) (call : Visitor → Code (Option Bool)) : Prop :=
  ∀ visitor m, (∀ U item, R.Same m ((visitor U item).run Mem.machine m).2) →
    ((call visitor).run Mem.machine m).1 = none →
      let m' := ((call visitor).run Mem.machine m).2
      R.Same m m' ∧ ∃ U item, (visitor U item).run Mem.machine m = (.threw, m') ∧
        slice m'.byte item.off U.size = slice m.byte item.off U.size ∧
        ∀ next : Visitor, (call next).run Mem.machine m' =
          match (next U item).run Mem.machine m' with
          | (.threw, m'') => (none, m'')
          | (.returned, m'') => (some true, (R.commitRead.run Mem.machine m'').2)

namespace Ring

variable {R : Ring} {m m' : Mem} {msgTypes : List MsgType} {verifyCrc : Bool}

/-- The type that the message at the tail is found to be of. -/
def found (R : Ring) (host : Endian) (msgTypes : List MsgType) (verifyCrc : Bool) (m : Mem) :
    Option MsgType :=
  if m.word R.tail.off = m.word R.head.off then none
  else accepted host msgTypes (R.slot (m.word R.tail.off)) m.byte R.slotSize verifyCrc

/-- Where the payload at the tail is. -/
def item (R : Ring) (m : Mem) : Ptr := (R.slot (m.word R.tail.off)).add Header.size

/-- What a consumer does about what it has found. -/
def handOn (R : Ring) (visitor : Visitor) (m : Mem) : Option MsgType → Option Bool × Mem
  | none => (some false, m)
  | some U =>
      match (visitor U (R.item m)).run Mem.machine m with
      | (.threw, m') => (none, m')
      | (.returned, m') => (some true, (R.commitRead.run Mem.machine m').2)

theorem Same.carries (hsame : R.Same m m') {U : MsgType} {cursor : Nat}
    (hc : Carries host U (R.slot cursor).off m.byte R.slotSize verifyCrc) :
    Carries host U (R.slot cursor).off m'.byte R.slotSize verifyCrc := by
  refine hc.congr (slice_congr fun x hlo hhi => ?_)
  have hfits : 16 + U.size ≤ R.slotSize := hc.fits
  have hx := hsame.slots cursor (x - (R.slot cursor).off) (by omega)
  rw [Nat.add_sub_cancel' hlo] at hx
  exact hx.symm

theorem Same.symm (hsame : R.Same m m') : R.Same m' m :=
  ⟨hsame.head.symm, hsame.tail.symm, fun cursor i hi => (hsame.slots cursor i hi).symm⟩

theorem Same.accepted (hsame : R.Same m m') (cursor : Nat) :
    accepted host msgTypes (R.slot cursor) m'.byte R.slotSize verifyCrc =
      accepted host msgTypes (R.slot cursor) m.byte R.slotSize verifyCrc := by
  refine List.find?_congr fun U _ => decide_eq_decide.mpr ?_
  rw [validateMem_eq_ok, validateMem_eq_ok]
  exact and_congr_left fun _ => ⟨hsame.symm.carries, hsame.carries⟩

theorem Same.found (hsame : R.Same m m') :
    R.found host msgTypes verifyCrc m' = R.found host msgTypes verifyCrc m := by
  rw [Ring.found, Ring.found, hsame.head, hsame.tail, hsame.accepted]

theorem Same.item (hsame : R.Same m m') : R.item m' = R.item m := by
  rw [Ring.item, Ring.item, hsame.tail]

theorem slice_item (hsame : R.Same m m') {U : MsgType}
    (hfound : R.found host msgTypes verifyCrc m = some U) :
    slice m'.byte (R.item m).off U.size = slice m.byte (R.item m).off U.size := by
  have haccepted : Sinew.accepted host msgTypes (R.slot (m.word R.tail.off)) m.byte
      R.slotSize verifyCrc = some U := by
    rw [found] at hfound
    split at hfound
    · cases hfound
    · exact hfound
  have hok : validateMem host U (R.slot (m.word R.tail.off)) m.byte R.slotSize verifyCrc =
      .ok := by simpa using List.find?_some haccepted
  have hfits := (validateMem_eq_ok.mp hok).1.fits
  refine slice_congr fun x hlo hhi => ?_
  rw [item, Ptr.add_off] at hlo hhi
  have hx := hsame.slots (m.word R.tail.off) (x - (R.slot (m.word R.tail.off)).off) (by omega)
  rw [Nat.add_sub_cancel' (by omega)] at hx
  exact hx

theorem presents_of_handOn {call : Visitor → Code (Option Bool)}
    (hrun : ∀ visitor m, (call visitor).run Mem.machine m =
      R.handOn visitor m (R.found host msgTypes verifyCrc m)) : PresentsAgain R call := by
  intro visitor m hspares hthrew
  dsimp only
  rw [hrun] at hthrew ⊢
  cases hfound : R.found host msgTypes verifyCrc m with
  | none =>
      rw [hfound] at hthrew
      cases hthrew
  | some U =>
      rw [hfound] at hthrew
      have hsame := hspares U (R.item m)
      simp only [handOn] at hthrew ⊢
      match hback : (visitor U (R.item m)).run Mem.machine m with
      | (.returned, m') =>
          rw [hback] at hthrew
          cases hthrew
      | (.threw, m') =>
          rw [hback] at hsame
          refine ⟨hsame, U, R.item m, hback, slice_item hsame hfound, fun next => ?_⟩
          rw [hrun, hsame.found, hfound]
          simp only [handOn, hsame.item]

theorem run_consume (visitor : Visitor) (m : Mem) :
    (R.consume host T visitor verifyCrc).run Mem.machine m =
      R.handOn visitor m (R.found host [T] verifyCrc m) := by
  rw [consume, peekRead, Prog.run_bind, Prog.run_bind, run_loadWord, Prog.run_bind,
    run_loadWord, Prog.run_ite]
  dsimp only
  by_cases hempty : m.word R.tail.off = m.word R.head.off
  · rw [if_pos hempty, found, if_pos hempty]
    rfl
  · rw [if_neg hempty, found, if_neg hempty, run_view, Sinew.accepted, List.find?_singleton]
    simp only [decide_eq_true_eq]
    by_cases hok : validateMem host T (R.slot (m.word R.tail.off)) m.byte R.slotSize
        verifyCrc = .ok
    · simp only [if_pos hok, Prog.run_bind, handOn, item]
      generalize (visitor T ((R.slot (m.word R.tail.off)).add Header.size)).run
        Mem.machine m = called
      obtain ⟨outcome, m'⟩ := called
      cases outcome with
      | threw => rfl
      | returned => rfl
    · simp only [if_neg hok]
      rfl

end Ring

namespace IpcEnvelopeRingBuffer

variable {MaxPayloadSize Capacity : Nat} {h : IpcHandle} {R : Ring}
  {msgTypes : List MsgType} {verifyCrc : Bool}

theorem run_dispatchAt_found (visitor : Visitor) (m : Mem) :
    (dispatchAt host R msgTypes visitor verifyCrc).run Mem.machine m =
      (callAccepted visitor (R.item m) (R.found host msgTypes verifyCrc m)).run
        Mem.machine m := by
  rw [dispatchAt, Prog.run_bind, run_loadWord, Prog.run_bind, run_loadWord, Ring.found]
  dsimp only
  by_cases hempty : m.word R.tail.off = m.word R.head.off
  · rw [if_pos hempty, if_pos hempty]
    rfl
  · rw [if_neg hempty, if_neg hempty, run_dispatch]
    rfl

theorem run_dispatchAndCommit (hR : h.ring (params MaxPayloadSize Capacity) = some R)
    (visitor : Visitor) (m : Mem) :
    (dispatchAndCommit MaxPayloadSize Capacity host h msgTypes visitor verifyCrc).run
        Mem.machine m =
      R.handOn visitor m (R.found host msgTypes verifyCrc m) := by
  simp only [dispatchAndCommit, dispatch, commitRead, hR, Prog.run_bind, run_dispatchAt_found]
  cases R.found host msgTypes verifyCrc m with
  | none => rfl
  | some U =>
      simp only [callAccepted, callVisitor, Prog.run_bind, Ring.handOn]
      generalize (visitor U (R.item m)).run Mem.machine m = called
      obtain ⟨outcome, m'⟩ := called
      cases outcome with
      | threw => rfl
      | returned => rfl

end IpcEnvelopeRingBuffer

/-! ## Every operation -/

theorem IpcRingBuffer.consume_clean (Capacity : Nat) (h : IpcHandle) (verifyCrc : Bool) :
    CallsClean fun func => consume T Capacity host h func verifyCrc := by
  unfold consume
  cases h.ring (params T Capacity) with
  | none => exact .of_refuses (fun _ => .pure _) fun _ _ _ ht => ht
  | some R => exact R.consume_clean verifyCrc

theorem IpcEnvelopeRingBuffer.consume_clean (MaxPayloadSize Capacity : Nat) (h : IpcHandle)
    (verifyCrc : Bool) :
    CallsClean fun func => consume MaxPayloadSize Capacity host h T func verifyCrc := by
  unfold consume
  cases h.ring (params MaxPayloadSize Capacity) with
  | none => exact .of_refuses (fun _ => .pure _) fun _ _ _ ht => ht
  | some R => exact R.consume_clean verifyCrc

/-- **Failed operations are atomic.** Whatever the input and the memory, an operation
that fails has stored nothing, given nothing to its caller and called no callback;
and a callback that throws leaves the ring and the message as they were for the next
call. -/
theorem failures_are_atomic (host : Endian) (T : MsgType) :
    (∀ buffer capacity,
      FailsClean (prepareResult host T buffer capacity) (·.error ≠ .ok)) ∧
    (∀ shape dest destCapacity source computeCrc,
      FailsClean (portableEncode host T shape dest destCapacity source computeCrc)
        (· = 0)) ∧
    (∀ shape src srcLen dest verifyCrc,
      FailsClean (portableDecode host T shape src srcLen dest verifyCrc) (· ≠ .ok)) ∧
    (∀ buffer size outView,
      FailsClean (inspectPacket host buffer size outView) (·.1 ≠ .ok) ∧
        ∀ t err view, (inspectPacket host buffer size outView).Trace t (err, view) →
          err ≠ .ok → view = outView) ∧
    (∀ w Capacity this,
      (∀ value computeCrc,
        FailsClean (SpscRingBuffer.push w T Capacity host this value computeCrc)
          (· = false)) ∧
      ∀ verifyCrc,
        (∀ outValue,
          FailsClean (SpscRingBuffer.popInto w T Capacity host this outValue verifyCrc)
            (· = false)) ∧
        (CallsClean fun func =>
          SpscRingBuffer.consume w T Capacity host this func verifyCrc) ∧
        PresentsAgain ((SpscRingBuffer.layout w T Capacity).at this) fun func =>
          SpscRingBuffer.consume w T Capacity host this func verifyCrc) ∧
    (∀ Capacity h,
      (∀ value computeCrc,
        FailsClean (IpcRingBuffer.push T Capacity host h value computeCrc) (· = false)) ∧
      ∀ verifyCrc,
        (∀ outValue,
          FailsClean (IpcRingBuffer.popInto T Capacity host h outValue verifyCrc)
            (· = false)) ∧
        (CallsClean fun func => IpcRingBuffer.consume T Capacity host h func verifyCrc) ∧
        ∀ R, h.ring (IpcRingBuffer.params T Capacity) = some R →
          PresentsAgain R fun func =>
            IpcRingBuffer.consume T Capacity host h func verifyCrc) ∧
    ∀ MaxPayloadSize Capacity h,
      (∀ value computeCrc,
        FailsClean (IpcEnvelopeRingBuffer.push MaxPayloadSize Capacity host h T value
          computeCrc) (· = false)) ∧
      ∀ verifyCrc,
        (CallsClean fun func =>
          IpcEnvelopeRingBuffer.consume MaxPayloadSize Capacity host h T func verifyCrc) ∧
        (∀ msgTypes, CallsClean fun visitor =>
          IpcEnvelopeRingBuffer.dispatchAndCommit MaxPayloadSize Capacity host h msgTypes
            visitor verifyCrc) ∧
        ∀ R, h.ring (IpcEnvelopeRingBuffer.params MaxPayloadSize Capacity) = some R →
          (PresentsAgain R fun func =>
            IpcEnvelopeRingBuffer.consume MaxPayloadSize Capacity host h T func
              verifyCrc) ∧
          ∀ msgTypes, PresentsAgain R fun visitor =>
            IpcEnvelopeRingBuffer.dispatchAndCommit MaxPayloadSize Capacity host h msgTypes
              visitor verifyCrc := by
  refine ⟨fun buffer capacity => ?_, fun shape dest destCapacity source computeCrc => ?_,
    fun shape src srcLen dest verifyCrc => ?_, fun buffer size outView => ⟨?_, ?_⟩,
    fun w Capacity this => ?_, fun Capacity h => ?_, fun MaxPayloadSize Capacity h => ?_⟩
  · exact .of_refuses (prepareResult_refuses (fun _ h => h rfl) buffer capacity)
  · exact .of_refuses (portableEncode_refuses shape dest destCapacity source computeCrc)
  · exact .of_refuses (portableDecode_refuses shape src srcLen dest verifyCrc)
  · exact .of_refuses (inspectPacket_refuses buffer size outView)
  · intro t err view ht herr
    exact ((inspectPacket_view buffer size outView).trace ht).2 herr
  · refine ⟨fun value computeCrc => .of_refuses (Ring.pushWith_refuses _ value),
      fun verifyCrc => ⟨fun outValue => .of_refuses (Ring.popInto_refuses outValue verifyCrc),
        Ring.consume_clean _ verifyCrc, Ring.presents_of_handOn Ring.run_consume⟩⟩
  · refine ⟨fun value computeCrc => .of_refuses ?_,
      fun verifyCrc => ⟨fun outValue => .of_refuses ?_,
        IpcRingBuffer.consume_clean Capacity h verifyCrc, fun R hR => ?_⟩⟩
    · unfold IpcRingBuffer.push
      cases h.ring (IpcRingBuffer.params T Capacity) with
      | none => exact .pure _
      | some R => exact Ring.pushWith_refuses _ value
    · unfold IpcRingBuffer.popInto
      cases h.ring (IpcRingBuffer.params T Capacity) with
      | none => exact .pure _
      | some R => exact Ring.popInto_refuses outValue verifyCrc
    · simp only [IpcRingBuffer.consume, hR]
      exact Ring.presents_of_handOn Ring.run_consume
  · refine ⟨fun value computeCrc => .of_refuses ?_,
      fun verifyCrc => ⟨IpcEnvelopeRingBuffer.consume_clean MaxPayloadSize Capacity h verifyCrc,
        fun msgTypes => IpcEnvelopeRingBuffer.dispatchAndCommit_clean msgTypes verifyCrc,
        fun R hR => ⟨?_, fun msgTypes => ?_⟩⟩⟩
    · unfold IpcEnvelopeRingBuffer.push
      cases h.ring (IpcEnvelopeRingBuffer.params MaxPayloadSize Capacity) with
      | none => exact .pure _
      | some R => exact Ring.pushWith_refuses _ value
    · simp only [IpcEnvelopeRingBuffer.consume, hR]
      exact Ring.presents_of_handOn Ring.run_consume
    · exact Ring.presents_of_handOn (IpcEnvelopeRingBuffer.run_dispatchAndCommit hR)

theorem failures_are_atomic_ping :
    let m := { zeroMem.write 128 (packet .little pingMsg 0 [42, 0, 0, 0]) with
      word := Function.update zeroMem.word 0 1 }
    let call := fun func => SpscRingBuffer.consume 64 pingMsg 2 .little 0 func false
    let thrown := (call fun _ _ => pure .threw).run Mem.machine m
    thrown.1 = none ∧ ((SpscRingBuffer.layout 64 pingMsg 2).at 0).Same m thrown.2 ∧
      (prepareResult .little pingMsg (some ⟨0, 0⟩) 19).run Mem.machine m =
        (⟨none, .bufferTooSmall⟩, m) := by
  intro m call thrown
  have hnone : thrown.1 = none := by decide +kernel
  obtain ⟨hprepare, -, -, -, hspsc, -⟩ := failures_are_atomic .little pingMsg
  refine ⟨hnone, ?_, Prod.ext rfl ((hprepare (some ⟨0, 0⟩) 19).unchanged m (by decide))⟩
  exact (((hspsc 64 2 0).2 false).2.2 _ m (fun _ _ => ⟨rfl, rfl, fun _ _ _ => rfl⟩) hnone).1

end Sinew
