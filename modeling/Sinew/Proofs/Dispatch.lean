import Mathlib.Data.List.Nodup
import Sinew.Model.Dispatch
import Sinew.Proofs.WireRoundTrip

/-!
# Dispatch finds the one type that fits

`tryDispatchEach` is a search: it ends in the visitor call of the first type
that `validate` accepts. With no two ids alike there is at most one such type,
so the order of the list does not matter, and the length at which the packet is
looked at does not either, as long as the packet fits.
-/

namespace Sinew

open Lib

variable {host : Endian} {ts : List MsgType} {p : Ptr} {size : Nat}
  {verifyCrc : Bool} {visitor : Visitor}

theorem hasDuplicateMessageIds_eq_false_iff :
    hasDuplicateMessageIds ts = false ↔ (ts.map (·.id)).Nodup := by
  rw [List.nodup_iff_getElem?_ne_getElem?]
  simp only [hasDuplicateMessageIds, List.any_eq_false, List.any_eq_true,
    List.mem_range, List.mem_range'_1, beq_iff_eq, not_exists, not_and]
  constructor
  · intro h i j hij hj
    exact h i (by omega) j ⟨by omega, by omega⟩
  · intro h i hi j hj
    exact h i j (by omega) (by omega)

/-- The first type in the list whose `validate` accepts the packet. -/
def accepted (host : Endian) (ts : List MsgType) (p : Ptr) (f : Nat → UInt8)
    (size : Nat) (verifyCrc : Bool) : Option MsgType :=
  ts.find? fun T => validateMem host T p f size verifyCrc = .ok

/-- What is done about the type that was found. -/
def callAccepted (visitor : Visitor) (msg : Ptr) : Option MsgType → Code (Option Bool)
  | none => pure (some false)
  | some T => callVisitor visitor T msg

theorem run_tryDispatchSingle (T : MsgType) (m : Mem) :
    (tryDispatchSingle host T (Header.ofMem host m.byte p.off).msgId (some p) size
      visitor verifyCrc).run Mem.machine m =
      if validateMem host T p m.byte size verifyCrc = .ok then
        (callVisitor visitor T (p.add Header.size)).run Mem.machine m
      else (some false, m) := by
  unfold tryDispatchSingle
  by_cases hid : T.id = (Header.ofMem host m.byte p.off).msgId
  · rw [if_pos hid, Prog.run_bind, run_view]
    by_cases hok : validateMem host T p m.byte size verifyCrc = .ok
    · simp only [if_pos hok]
    · simp only [if_neg hok, Prog.run_pure]
  · rw [if_neg hid, if_neg]
    · rfl
    · intro hok
      exact hid (validateMem_eq_ok.mp hok).1.msgId.symm

theorem callVisitor_ne_false (T : MsgType) (msg : Ptr) (m : Mem) :
    ((callVisitor visitor T msg).run Mem.machine m).1 ≠ some false := by
  rw [callVisitor, Prog.run_bind]
  cases ((visitor T msg).run Mem.machine m).1 <;> simp

theorem run_tryDispatchEach (ts : List MsgType) (m : Mem) :
    (tryDispatchEach host p size visitor verifyCrc ts).run Mem.machine m =
      (callAccepted visitor (p.add Header.size)
        (accepted host ts p m.byte size verifyCrc)).run Mem.machine m := by
  induction ts with
  | nil => rfl
  | cons T rest ih =>
      have hsingle : (tryDispatchSingle host T (u16At host m.byte (p.off + Header.msgIdOff))
          (some p) size visitor verifyCrc).run Mem.machine m =
          if validateMem host T p m.byte size verifyCrc = .ok then
            (callVisitor visitor T (p.add Header.size)).run Mem.machine m
          else (some false, m) := run_tryDispatchSingle T m
      rw [tryDispatchEach, Prog.run_bind, run_load16, Prog.run_bind]
      dsimp only
      rw [Ptr.add_off, hsingle, accepted, List.find?_cons]
      by_cases hok : validateMem host T p m.byte size verifyCrc = .ok
      · rw [if_pos hok, if_neg (callVisitor_ne_false T _ m)]
        simp only [hok, decide_true]
        rfl
      · rw [if_neg hok, if_pos rfl, ih]
        simp only [hok, decide_false]
        rfl

theorem run_dispatch (m : Mem) :
    (dispatch host ts (some p) size visitor verifyCrc).run Mem.machine m =
      (callAccepted visitor (p.add Header.size)
        (accepted host ts p m.byte size verifyCrc)).run Mem.machine m := by
  have hnone : (∀ T ∈ ts, ¬ Carries host T p.off m.byte size verifyCrc) →
      accepted host ts p m.byte size verifyCrc = none := by
    intro h
    refine List.find?_eq_none.mpr fun T hT => ?_
    simp only [decide_eq_true_eq]
    exact fun hok => h T hT (validateMem_eq_ok.mp hok).1
  unfold dispatch
  dsimp only
  split
  · next hsize =>
      rw [hnone fun T _ hc => by have := hc.fits; omega]
      rfl
  · rw [Prog.run_bind, run_load32]
    dsimp only
    split
    · next hmagic =>
        rw [hnone fun T _ hc => hmagic hc.magic]
        rfl
    · exact run_tryDispatchEach ts m

/-- With distinct ids the search does not depend on the order it is made in. -/
theorem accepted_eq_some_iff (hdup : hasDuplicateMessageIds ts = false) {f : Nat → UInt8}
    {T : MsgType} :
    accepted host ts p f size verifyCrc = some T ↔
      T ∈ ts ∧ validateMem host T p f size verifyCrc = .ok := by
  have hnodup := hasDuplicateMessageIds_eq_false_iff.mp hdup
  constructor
  · intro h
    exact ⟨List.mem_of_find?_eq_some h, by simpa using List.find?_some h⟩
  · rintro ⟨hT, hok⟩
    cases hfind : accepted host ts p f size verifyCrc with
    | none =>
        have := List.find?_eq_none.mp hfind T hT
        simp [hok] at this
    | some U =>
        have hU := List.mem_of_find?_eq_some hfind
        have hokU : validateMem host U p f size verifyCrc = .ok := by
          simpa using List.find?_some hfind
        have hid : U.id = T.id := (validateMem_eq_ok.mp hokU).1.msgId.symm.trans
          (validateMem_eq_ok.mp hok).1.msgId
        rw [List.inj_on_of_nodup_map hnodup hU hT hid]

theorem accepted_ext {ts' : List MsgType} {size' : Nat} {f : Nat → UInt8}
    (hdup : hasDuplicateMessageIds ts = false)
    (hdup' : hasDuplicateMessageIds ts' = false)
    (h : ∀ T, (T ∈ ts ∧ validateMem host T p f size verifyCrc = .ok) ↔
      (T ∈ ts' ∧ validateMem host T p f size' verifyCrc = .ok)) :
    accepted host ts p f size verifyCrc = accepted host ts' p f size' verifyCrc :=
  Option.ext fun T => by
    rw [accepted_eq_some_iff hdup, accepted_eq_some_iff hdup', h]

@[simp] theorem run_loadHeader (m : Mem) :
    (loadHeader host p).run Mem.machine m = (Header.ofMem host m.byte p.off, m) := by
  simp [loadHeader, Header.ofMem]

theorem run_inspectPacket (out : PacketView) (m : Mem) :
    (inspectPacket host (some p) size out).run Mem.machine m =
      (if size < Header.size then (.bufferTooSmall, out)
       else if (Header.ofMem host m.byte p.off).magic ≠ sinewMagic then (.badMagic, out)
       else if (Header.ofMem host m.byte p.off).payloadLen.toNat > size - Header.size then
         (.bufferTooSmall, out)
       else (.ok, ⟨Header.ofMem host m.byte p.off, some (p.add Header.size),
         (Header.ofMem host m.byte p.off).payloadLen.toNat⟩), m) := by
  unfold inspectPacket
  by_cases h1 : size < Header.size
  · simp [h1]
  by_cases h2 : u32At host m.byte (p.off + Header.magicOff) = sinewMagic
  swap
  · simp [h1, h2, Header.ofMem]
  by_cases h3 : (u32At host m.byte (p.off + Header.payloadLenOff)).toNat >
      size - Header.size
  · simp [h1, h2, h3, Header.ofMem]
  · simp [h1, h2, h3, Header.ofMem]

/-- A packet that a type accepts is one `inspect_packet` lets through. -/
theorem inspect_ok_of_validate {T : MsgType} {f : Nat → UInt8}
    (hok : validateMem host T p f size verifyCrc = .ok) :
    ¬ size < Header.size ∧ (Header.ofMem host f p.off).magic = sinewMagic ∧
      ¬ (Header.ofMem host f p.off).payloadLen.toNat > size - Header.size := by
  have hc := (validateMem_eq_ok.mp hok).1
  have hfits := hc.fits
  have hlen := hc.payloadLen
  exact ⟨by omega, hc.magic, by omega⟩

theorem validateMem_own_length {T : MsgType} {f : Nat → UInt8}
    (hle : Header.size + (Header.ofMem host f p.off).payloadLen.toNat ≤ size) :
    validateMem host T p f (Header.size + (Header.ofMem host f p.off).payloadLen.toNat)
        verifyCrc = .ok ↔
      validateMem host T p f size verifyCrc = .ok := by
  rw [validateMem_eq_ok, validateMem_eq_ok]
  constructor
  · rintro ⟨hc, hal⟩
    exact ⟨⟨by have := hc.fits; omega, hc.magic, hc.payloadLen, hc.msgId, hc.version,
      hc.crc⟩, hal⟩
  · rintro ⟨hc, hal⟩
    exact ⟨⟨by rw [hc.payloadLen], hc.magic, hc.payloadLen, hc.msgId, hc.version,
      hc.crc⟩, hal⟩

/-- **Dispatch is exact.** The visitor is called with the one type of the list
that accepts the buffer, whatever the order of the list, and the route over a
`PacketView` makes the same call. -/
theorem dispatch_exact (host : Endian) (ts : List MsgType)
    (hdup : hasDuplicateMessageIds ts = false) (buffer : Option Ptr) (size : Nat)
    (v : Bool) (visitor : Visitor) (out : PacketView) (m : Mem) :
    let direct := (dispatch host ts buffer size visitor v).run Mem.machine m
    let inspected := (inspectPacket host buffer size out).run Mem.machine m
    (∃ called : Option (MsgType × Ptr),
      (∀ T msg, called = some (T, msg) ↔
        T ∈ ts ∧ ((validate host T buffer size v).run Mem.machine m).1 = .ok ∧
          ((view host T buffer size v).run Mem.machine m).1 = some msg) ∧
      direct = match called with
        | none => (some false, m)
        | some (T, msg) =>
            let back := (visitor T msg).run Mem.machine m
            (if back.1 = .returned then some true else none, back.2)) ∧
    (∀ ts', ts.Perm ts' →
      (dispatch host ts' buffer size visitor v).run Mem.machine m = direct) ∧
    (inspected.1.1 = .ok → ∀ w, w = 32 ∨ w = 64 → size < 2 ^ w →
      Header.size + inspected.1.2.payloadLen ≤ size ∧
      (Header.size + inspected.1.2.payloadLen) % 2 ^ w =
        Header.size + inspected.1.2.payloadLen ∧
      (dispatchView w host ts inspected.1.2 visitor v).run Mem.machine m = direct) ∧
    (inspected.1.1 ≠ .ok → direct = (some false, m)) := by
  cases buffer with
  | none =>
      refine ⟨⟨none, by simp, rfl⟩, fun _ _ => rfl, ?_, fun _ => rfl⟩
      intro h
      cases h
  | some p =>
      dsimp only
      refine ⟨⟨(accepted host ts p m.byte size v).map fun T => (T, p.add Header.size),
        fun T msg => ?_, ?_⟩, fun ts' hperm => ?_, ?_, ?_⟩
      · rw [run_validate, run_view]
        simp only [Option.map_eq_some_iff, Prod.mk.injEq]
        constructor
        · rintro ⟨U, hU, rfl, rfl⟩
          obtain ⟨hmem, hok⟩ := (accepted_eq_some_iff hdup).mp hU
          exact ⟨hmem, hok, if_pos hok⟩
        · rintro ⟨hmem, hok, hmsg⟩
          rw [if_pos hok] at hmsg
          exact ⟨T, (accepted_eq_some_iff hdup).mpr ⟨hmem, hok⟩, rfl, Option.some.inj hmsg⟩
      · rw [run_dispatch]
        cases accepted host ts p m.byte size v with
        | none => rfl
        | some T =>
            simp only [callAccepted, callVisitor, Prog.run_bind, Option.map_some]
            cases ((visitor T (p.add Header.size)).run Mem.machine m).1 <;> rfl
      · have hdup' : hasDuplicateMessageIds ts' = false := by
          rw [hasDuplicateMessageIds_eq_false_iff] at hdup ⊢
          exact (hperm.map _).nodup_iff.mp hdup
        rw [run_dispatch, run_dispatch,
          accepted_ext hdup' hdup fun T => by rw [hperm.mem_iff]]
      · rw [run_inspectPacket]
        dsimp only
        split
        · intro h; cases h
        split
        · intro h; cases h
        split
        · intro h; cases h
        next hsize hmagic hlen =>
          rintro - w hw hlt
          have hle : Header.size + (Header.ofMem host m.byte p.off).payloadLen.toNat ≤
              size := by omega
          have hmod := Nat.mod_eq_of_lt (Nat.lt_of_le_of_lt hle hlt)
          refine ⟨hle, hmod, ?_⟩
          have hvalid : PacketView.isValid ⟨Header.ofMem host m.byte p.off,
              some (p.add Header.size),
              (Header.ofMem host m.byte p.off).payloadLen.toNat⟩ = true := by
            simpa [PacketView.isValid] using hmagic
          rw [dispatchView, if_pos hvalid]
          dsimp only [Option.map_some]
          have hsame : accepted host ts p m.byte (Header.size +
              (Header.ofMem host m.byte p.off).payloadLen.toNat) v =
              accepted host ts p m.byte size v :=
            accepted_ext hdup hdup fun T => by rw [validateMem_own_length hle]
          rw [hmod, Ptr.add_sub, run_dispatch, run_dispatch, hsame]
      · rw [run_inspectPacket]
        dsimp only
        intro hbad
        rw [run_dispatch, accepted, List.find?_eq_none.mpr]
        · rfl
        · intro T _
          simp only [decide_eq_true_eq]
          intro hok
          obtain ⟨h1, h2, h3⟩ := inspect_ok_of_validate hok
          rw [if_neg h1, if_neg (not_not.mpr h2), if_neg h3] at hbad
          exact hbad rfl

theorem dispatch_exact_ping :
    let m := zeroMem.write 0 (packet .little pingMsg 0 [42, 0, 0, 0])
    (dispatch .little [pongMsg, pingMsg] (some ⟨0x1000, 0⟩) 20 record true).run
        Mem.machine m =
      (dispatch .little [pingMsg, pongMsg] (some ⟨0x1000, 0⟩) 20 record true).run
        Mem.machine m :=
  (dispatch_exact .little [pingMsg, pongMsg] (by decide) (some ⟨0x1000, 0⟩) 20 true
    record {} _).2.1 _ (List.Perm.swap _ _ _)

end Sinew
