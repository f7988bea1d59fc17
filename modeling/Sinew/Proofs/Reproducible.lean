import Sinew.Proofs.Fields
import Sinew.Proofs.Padding

/-!
# What decides a packet that is filled in place

`prepare` makes every payload of a type the same, padding included, and an edit
stores nothing outside its member. So two packets differ in nothing that
`prepare` has set and no member owns; and two members of the same value differ
only in what the edits have left where the value does not show.
-/

namespace Sinew

open Lib

namespace Record

variable {ι : Type} {size : Nat} (R : Record ι size)

/-- What is known of all members after some edits. -/
def track [DecidableEq ι] : List R.Edit → ((i : ι) → Field.Track (R.field i)) →
    Option ((i : ι) → Field.Track (R.field i))
  | [], ts => some ts
  | e :: es, ts => do
      let t ← (ts e.1).next e.2
      track es (Function.update ts e.1 t)

/-- What is known of a payload that has just been prepared, where `init` is what the
members' initialisers put into them. -/
def fresh (bytes : List UInt8) (init : (i : ι) → (R.field i).Contents) (i : ι) :
    Field.Track (R.field i) :=
  ⟨init i, (R.field i).cellAt (object bytes) (R.off i)⟩

variable {R} {host : Endian} {w : Nat} {hasExceptions : Bool} {f g : Nat → UInt8} {a : Nat}

/-- One edit, as far as another member can tell. -/
theorem edit_apart {i j : ι} (hij : i ≠ j) {e : (R.field i).Edit}
    (hedit : (R.field i).edit host w hasExceptions e f (a + R.off i) = some g) :
    ∀ y, (R.field j).owns y = true → f (a + R.off j + y) = g (a + R.off j + y) := by
  intro y hy
  refine (Field.edit_frame hedit fun z hz heq => hij ?_).symm
  exact R.apart i j z y hz hy (by omega)

/-- A sequence of edits: what is known of every member afterwards, and that no other
byte is touched. -/
theorem track_sound [DecidableEq ι] (hw : 32 ≤ w) (hasExceptions : Bool)
    (hcounted : ∀ i, (R.field i).Counted)
    {edits : List R.Edit} {ts ts' : (i : ι) → Field.Track (R.field i)}
    (hts : ∀ i, (R.field i).Tracks host f (a + R.off i) (ts i))
    (htrack : R.track edits ts = some ts') :
    ∃ g, R.edit host w hasExceptions edits f a = some g ∧
      (∀ i, (R.field i).Tracks host g (a + R.off i) (ts' i)) ∧
      ∀ x, (∀ i y, (R.field i).owns y = true → a + R.off i + y ≠ x) → g x = f x := by
  induction edits generalizing f ts with
  | nil =>
      obtain rfl := Option.some.inj htrack
      exact ⟨f, rfl, hts, fun _ _ => rfl⟩
  | cons e edits ih =>
      obtain ⟨t, hnext, htrack⟩ := Option.bind_eq_some_iff.mp htrack
      obtain ⟨g, hedit, htracks⟩ := (hts e.1).step hw hasExceptions (hcounted e.1) hnext
      have hstep : ∀ i, (R.field i).Tracks host g (a + R.off i)
          (Function.update ts e.1 t i) := by
        intro i
        by_cases hi : i = e.1
        · subst hi
          rwa [Function.update_self]
        · rw [Function.update_of_ne hi]
          exact (hts i).congr (edit_apart (Ne.symm hi) hedit)
      obtain ⟨g', hrest, htracks', hframe⟩ := ih hstep htrack
      refine ⟨g', ?_, htracks', fun x hx => ?_⟩
      · rw [Record.edit, hedit]
        exact hrest
      · rw [hframe x hx]
        exact Field.edit_frame hedit (hx e.1)

end Record

section Send

variable {ι : Type} [DecidableEq ι] {host : Endian} {w : Nat} {hasExceptions : Bool}
  {T : MsgType} {R : Record ι T.size} {init : (i : ι) → (R.field i).Contents}
  {edits : List R.Edit} {ts : (i : ι) → Field.Track (R.field i)} {p : Ptr} {capacity n : Nat}
  {computeCrc : Bool} {m sent : Mem}

theorem byte_prepared {f : Nat → UInt8} {x : Nat} (hx : x < T.size) :
    patch f p.off (packet host T 0 T.fresh) (p.off + Header.size + x) =
      object T.fresh (0 + x) := by
  have hpayload := slice_payload host T f p.off 0 T.fresh_length
  have hobject : slice (object T.fresh) 0 T.size = T.fresh :=
    slice_patch_eq T.fresh_length
  exact slice_eq_iff.mp (hpayload.trans hobject.symm) x hx

theorem Record.send_spec (hw : 32 ≤ w) (hcounted : ∀ i, (R.field i).Counted)
    (hinit : ∀ i, (R.field i).Holds host (object T.fresh) (R.off i) (init i))
    (htrack : R.track edits (R.fresh T.fresh init) = some ts)
    (hsend : R.send host w hasExceptions T edits (some p) capacity computeCrc m =
      some (n, sent)) :
    let payload := slice sent.byte (p.off + Header.size) T.size
    slice sent.byte p.off (Header.size + T.size) =
        packet host T (crcField computeCrc payload) payload ∧
      (∀ i, (R.field i).Tracks host sent.byte (p.off + Header.size + R.off i) (ts i)) ∧
      ∀ x < T.size, (∀ i y, (R.field i).owns y = true → R.off i + y ≠ x) →
        sent.byte (p.off + Header.size + x) = object T.fresh (0 + x) := by
  have hprep : Header.size + T.size ≤ capacity ∧ (p.addr + Header.size) % T.align = 0 := by
    by_contra hno
    have hnull : (prepare host T (some p) capacity).run Mem.machine m = (none, m) := by
      rw [prepare, Prog.run_bind]
      rcases Nat.lt_or_ge capacity (Header.size + T.size) with hcap | hcap
      · rw [run_prepareResult_small host T hcap]
        rfl
      · rw [run_prepareResult_misaligned host T hcap fun hal => hno ⟨hcap, hal⟩]
        rfl
    rw [Record.send, hnull] at hsend
    cases hsend
  rw [Record.send, run_prepare_ok host T hprep.1 hprep.2] at hsend
  simp only [Option.bind_eq_bind, Option.bind_some, Option.bind_eq_some_iff, Option.pure_def,
    Option.some.injEq, Mem.write_byte, Ptr.add_off] at hsend
  obtain ⟨g, hedit, hfinal⟩ := hsend
  have hts : ∀ i, (R.field i).Tracks host (patch m.byte p.off (packet host T 0 T.fresh))
      (p.off + Header.size + R.off i) (R.fresh T.fresh init i) := by
    intro i
    have hobject : (R.field i).Tracks host (object T.fresh) (R.off i)
        (R.fresh T.fresh init i) := ⟨hinit i, fun _ _ => rfl⟩
    refine hobject.congr fun y hy => ?_
    rw [Nat.add_assoc, byte_prepared (R.within i y hy), Nat.zero_add]
  obtain ⟨g', hedit', htracks, hframe⟩ :=
    Record.track_sound hw hasExceptions hcounted hts htrack
  obtain rfl : g = g' := Option.some.inj (hedit.symm.trans hedit')
  -- Nothing of the header is touched before `finalize`.
  have hheader : slice g p.off 16 = (T.header 0).encode host := by
    rw [← slice_header host T m.byte p.off 0 T.fresh]
    refine slice_congr fun x _ hx => hframe x fun i y _ => ?_
    rw [Header.size]
    omega
  have hpacket : slice g p.off (Header.size + T.size) =
      packet host T 0 (slice g (p.off + Header.size) T.size) := by
    rw [slice_add, show Header.size = 16 from rfl, hheader]
    rfl
  rw [run_finalize, Prod.mk.injEq] at hfinal
  obtain ⟨-, rfl⟩ := hfinal
  have hrest : ∀ x, Header.size ≤ x → patch g (p.off + Header.crcOff) (host.bytes 4
      (crcField computeCrc (slice g (p.off + Header.size) T.size)).toNat) (p.off + x) =
        g (p.off + x) := by
    intro x hx
    refine patch_of_ge ?_
    rw [Endian.bytes_length, Header.crcOff]
    rw [Header.size] at hx
    omega
  simp only [Mem.write_byte, Ptr.add_off, Nat.add_sub_cancel]
  have hpayload : slice (patch g (p.off + Header.crcOff) (host.bytes 4
      (crcField computeCrc (slice g (p.off + Header.size) T.size)).toNat))
        (p.off + Header.size) T.size = slice g (p.off + Header.size) T.size := by
    refine slice_eq_iff.mpr fun x _ => ?_
    rw [Nat.add_assoc]
    exact hrest _ (Nat.le_add_right ..)
  refine ⟨?_, fun i => (htracks i).congr fun y _ => ?_, fun x hx hnone => ?_⟩
  · rw [hpayload]
    exact slice_write_crc host T hpacket _
  · rw [Nat.add_assoc, Nat.add_assoc]
    exact (hrest _ (Nat.le_add_right ..)).symm
  · rw [Nat.add_assoc, hrest _ (Nat.le_add_right ..), ← Nat.add_assoc]
    exact (hframe _ fun i y hy heq => hnone i y hy (by omega)).trans (byte_prepared hx)

end Send

/-- **When packets filled in place are the same.** Two runs of `prepare`, edits and
`finalize` that end with equal members send the same packet, checksum included, exactly
if the edits have left the same in what the comparison of the members does not look at:
the cells of each container behind its contents. -/
theorem in_place_same_iff {ι : Type} [DecidableEq ι] (host : Endian) {w : Nat} (hw : 32 ≤ w)
    (hasExceptions : Bool) (T : MsgType) (R : Record ι T.size)
    (hcounted : ∀ i, (R.field i).Counted) (init : (i : ι) → (R.field i).Contents)
    (hinit : ∀ i, (R.field i).Holds host (object T.fresh) (R.off i) (init i))
    (edits edits' : List R.Edit) (ts ts' : (i : ι) → Field.Track (R.field i))
    (htrack : R.track edits (R.fresh T.fresh init) = some ts)
    (htrack' : R.track edits' (R.fresh T.fresh init) = some ts')
    (p p' : Ptr) (capacity capacity' : Nat) (computeCrc : Bool) (m m' sent sent' : Mem)
    (n n' : Nat)
    (hsend : R.send host w hasExceptions T edits (some p) capacity computeCrc m =
      some (n, sent))
    (hsend' : R.send host w hasExceptions T edits' (some p') capacity' computeCrc m' =
      some (n', sent'))
    (hequal : ∀ i, (R.field i).equal host sent.byte (p.off + Header.size + R.off i)
      sent'.byte (p'.off + Header.size + R.off i) = some true) :
    slice sent.byte p.off (Header.size + T.size) =
        slice sent'.byte p'.off (Header.size + T.size) ↔
      ∀ i, (R.field i).LeftAlike (ts i) (ts' i) := by
  obtain ⟨hpacket, htracks, hrest⟩ := Record.send_spec hw hcounted hinit htrack hsend
  obtain ⟨hpacket', htracks', hrest'⟩ := Record.send_spec hw hcounted hinit htrack' hsend'
  have hpayload : slice sent.byte p.off (Header.size + T.size) =
        slice sent'.byte p'.off (Header.size + T.size) ↔
      ∀ x < T.size, sent.byte (p.off + Header.size + x) =
        sent'.byte (p'.off + Header.size + x) := by
    rw [hpacket, hpacket', ← slice_eq_iff]
    exact ⟨packet_inj, fun h => by rw [h]⟩
  have hmembers : ∀ i, (∀ y, (R.field i).owns y = true →
      sent.byte (p.off + Header.size + R.off i + y) =
        sent'.byte (p'.off + Header.size + R.off i + y)) ↔
      (R.field i).LeftAlike (ts i) (ts' i) := fun i =>
    (htracks i).same_iff (htracks' i) (hequal i)
  rw [hpayload]
  simp only [← hmembers, Nat.add_assoc]
  constructor
  · intro h i y hy
    exact h _ (R.within i y hy)
  · intro h x hx
    by_cases howned : ∃ i y, (R.field i).owns y = true ∧ R.off i + y = x
    · obtain ⟨i, y, hy, rfl⟩ := howned
      exact h i y hy
    · have hnone : ∀ i y, (R.field i).owns y = true → R.off i + y ≠ x :=
        fun i y hy heq => howned ⟨i, y, hy, heq⟩
      have hfresh := (hrest x hx hnone).trans (hrest' x hx hnone).symm
      rwa [Nat.add_assoc, Nat.add_assoc] at hfresh

/-- A byte, three bytes of padding, and a `StaticVector<uint8_t, 4>`. -/
def readings : MsgType where
  size := 12
  align := 4
  id := 9
  version := 1
  ctor := []
  size_pos := by decide
  align_pow := MsgType.four_pow
  align_dvd := by decide
  ctor_lt := by simp

def readingsRecord : Record Bool readings.size where
  field
    | false => .plain (.scalar 1)
    | true => .vector (.scalar 1) 4
  off
    | false => 0
    | true => 4
  within i x hx := by
    cases i <;> simp [Field.owns, ElemType.scalar, ElemType.sizeOff, roundUp] at hx <;>
      simp only [readings] <;> omega
  apart i j x y hx hy heq := by
    cases i <;> cases j <;> first
      | rfl
      | (simp [Field.owns, ElemType.scalar] at hx hy heq
         omega)

def pushReading (x : UInt8) : readingsRecord.Edit :=
  ⟨true, .call (.pushBack (.object fun _ => x))⟩

def popReading : readingsRecord.Edit := ⟨true, .call .popBack⟩

/-- What is sent after these edits, from a clean buffer. -/
def sentReadings (edits : List readingsRecord.Edit) : Option (Nat × Mem) :=
  readingsRecord.send .little 64 true readings edits (some ⟨0x1000, 0⟩) 28 true zeroMem

theorem readingsRecord_counted : ∀ i, (readingsRecord.field i).Counted
  | false => trivial
  | true => show 4 < 2 ^ 32 by decide

/-- A fresh payload holds an empty vector. -/
def readingsInit : (i : Bool) → (readingsRecord.field i).Contents
  | false => ()
  | true => Bounded.empty

theorem readingsInit_holds : ∀ i, (readingsRecord.field i).Holds .little
    (object readings.fresh) (readingsRecord.off i) (readingsInit i)
  | false => trivial
  | true => rfl

theorem in_place_same_iff_readings :
    (sentReadings [pushReading 7, popReading, pushReading 8]).map
        (fun r => slice r.2.byte 0 28) =
      (sentReadings [pushReading 8]).map fun r => slice r.2.byte 0 28 := by
  have hsent : (sentReadings [pushReading 7, popReading, pushReading 8]).isSome = true ∧
      (sentReadings [pushReading 8]).isSome = true ∧
        ∀ h h' i, (readingsRecord.field i).equal .little
          ((sentReadings [pushReading 7, popReading, pushReading 8]).get h).2.byte
          (16 + readingsRecord.off i) ((sentReadings [pushReading 8]).get h').2.byte
          (16 + readingsRecord.off i) = some true := by
    decide +kernel
  obtain ⟨h, h', hequal⟩ := hsent
  have htrack : ((readingsRecord.track [pushReading 7, popReading, pushReading 8]
      (readingsRecord.fresh readings.fresh readingsInit)).isSome = true) := rfl
  have htrack' : ((readingsRecord.track [pushReading 8]
      (readingsRecord.fresh readings.fresh readingsInit)).isSome = true) := rfl
  have hiff := in_place_same_iff .little (w := 64) (by decide) true readings readingsRecord
    readingsRecord_counted readingsInit readingsInit_holds
    [pushReading 7, popReading, pushReading 8] [pushReading 8] _ _
    (Option.some_get htrack).symm (Option.some_get htrack').symm ⟨0x1000, 0⟩
    ⟨0x1000, 0⟩ 28 28 true zeroMem zeroMem ((sentReadings _).get h).2
    ((sentReadings _).get h').2 _ _ (Option.some_get h).symm (Option.some_get h').symm
    (hequal h h')
  have hsame := hiff.mpr ?_
  · rw [← Option.some_get h, ← Option.some_get h']
    exact congrArg some hsame
  · intro i
    cases i with
    | false => exact fun hunlawful => absurd (ElemType.scalar_lawful 1) hunlawful
    | true =>
        intro k hk hside
        have hlive : k ≠ 0 := by
          intro hzero
          subst hzero
          cases hside with
          | inl hle =>
              have hone : 1 ≤ 0 := hle
              omega
          | inr hunlawful => exact hunlawful (ElemType.scalar_lawful 1)
        obtain ⟨k, rfl⟩ := Nat.exists_eq_succ_of_ne_zero hlive
        rfl

/-- One reading pushed and popped, and no reading at all. -/
theorem in_place_leftovers :
    let popped := sentReadings [pushReading 7, popReading]
    let unused := sentReadings []
    (∀ i, (do
      let r ← popped
      let r' ← unused
      (readingsRecord.field i).equal .little r.2.byte (16 + readingsRecord.off i) r'.2.byte
        (16 + readingsRecord.off i)) = some true) ∧
      (popped.map fun r => slice r.2.byte 0 28) ≠ unused.map fun r => slice r.2.byte 0 28 := by
  decide +kernel

end Sinew
