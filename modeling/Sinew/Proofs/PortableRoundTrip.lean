import Sinew.Proofs.Portable

/-!
# The portable path against the in-place path, and against itself

On a little-endian host the portable functions are the in-place ones: the same
packet out, the same packets in.

From host to host the message survives, except for what `portable_swap` does
not reach. A C array goes through in the byte order it was written in, so its
elements arrive backwards on a host of the other order, and the round trip
holds exactly where that makes no difference.
-/

namespace Sinew

open Lib

/-- **The two paths agree.** On a buffer aligned for `T`, the portable encoder
succeeds when `prepare_result` does and leaves what the in-place path leaves;
the portable decoder accepts what `validate` accepts and copies what `view`
points at. -/
theorem portable_agrees_with_wire (T : MsgType) (shape : Shape) (buf : Option Ptr)
    (hal : ∀ p, buf = some p → (p.addr + Header.size) % T.align = 0) (m : Mem) :
    (∀ (cap : Nat) (source : List UInt8) (c : Bool), source.length = T.size →
      let enc := (portableEncode .little T shape buf cap source c).run Mem.machine m
      (enc.1 ≠ 0 ↔
        ((prepareResult .little T buf cap).run Mem.machine m).1.isOk = true) ∧
      enc = (writeInPlace .little T buf cap source c).run Mem.machine m) ∧
    (∀ (size : Nat) (v : Bool) (dest : Ptr),
      let dec := (portableDecode .little T shape buf size dest v).run Mem.machine m
      (dec.1 = .ok ↔
        ((validate .little T buf size v).run Mem.machine m).1 = .ok) ∧
      (dec.1 = .ok →
        ∃ r, ((view .little T buf size v).run Mem.machine m).1 = some r ∧
          slice dec.2.byte dest.off T.size = slice m.byte r.off T.size)) := by
  have hfits : shape.Fits .little T := fun h => by cases h
  refine ⟨fun cap source c hlen => ?_, fun size v dest => ?_⟩
  · cases buf with
    | none =>
        exact ⟨by simp [portableEncode, prepareResult, PtrResult.isOk],
          by simp [portableEncode, writeInPlace, prepare, prepareResult]⟩
    | some p =>
        have hp := hal p rfl
        rcases Nat.lt_or_ge cap (Header.size + T.size) with hcap | hcap
        · have hfail := run_prepareResult_small .little T hcap (p := p) m
          dsimp only
          rw [run_portableEncode_small hcap, hfail, run_writeInPlace_fail hfail]
          exact ⟨by simp [PtrResult.isOk], rfl⟩
        · dsimp only
          rw [run_portableEncode hfits hcap hlen, run_prepareResult_ok _ _ hcap hp,
            run_writeInPlace hcap hp hlen]
          exact ⟨by simp [PtrResult.isOk, Header.size], rfl⟩
  · cases buf with
    | none => exact ⟨by simp [portableDecode], by simp [portableDecode]⟩
    | some p =>
        have hp := hal p rfl
        have hval : validateMem .little T p m.byte size v = .ok ↔
            Carries .little T p.off m.byte size v := by
          rw [validateMem_eq_ok, and_iff_left hp]
        dsimp only
        rw [run_portableDecode hfits, run_validate]
        refine ⟨decodeMem_eq_ok.trans hval.symm, fun hok => ?_⟩
        refine ⟨p.add Header.size, ?_, ?_⟩
        · rw [run_view]
          exact if_pos (hval.mpr (decodeMem_eq_ok.mp hok))
        · dsimp only at hok ⊢
          rw [if_pos hok, Mem.write_byte, slice_patch_eq (by simp)]
          rfl

theorem portable_agrees_with_wire_imu :
    ((portableEncode .little mcuImuSample (.other 24 4) (some ⟨0x1000, 0⟩) 40
      (List.replicate 24 7) true).run Mem.machine zeroMem) =
    ((writeInPlace .little mcuImuSample (some ⟨0x1000, 0⟩) 40
      (List.replicate 24 7) true).run Mem.machine zeroMem) :=
  ((portable_agrees_with_wire mcuImuSample (.other 24 4) (some ⟨0x1000, 0⟩)
    (fun p hp => by cases hp; decide) zeroMem).1 40 (List.replicate 24 7) true
    (by decide)).2

section CrossEndian

variable {A B : Endian} {T : MsgType} {shape : Shape} {source : List UInt8}

/-- One conversion turns a value in one order into the same value in the other,
its C arrays apart. -/
theorem value_converted (o o' : Endian) (hne : o ≠ o') (ea : Endian)
    (hw : shape.WF) (hlen : source.length = shape.size)
    (hsized : shape.Sized o (object source) 0) :
    shape.value o' ea (object (shape.converted .big source)) 0 =
      shape.value o ea (object source) 0 := by
  have hcells := Shape.slice_swapped hw.laid hlen (f := object source) (a := 0)
    (slice_patch_eq hlen)
  rw [← Shape.swapped_value hne ea shape 0 (object source) hw hsized]
  refine Shape.value_congr o' ea shape 0 0 hw.laid ?_
  rw [hcells, object, slice_patch_eq (by simp [hlen])]

/-- What arrives says the same as what was sent exactly where no C array says
something else backwards. -/
theorem valueOf_converted_iff (hw : shape.WF) (hlen : source.length = shape.size)
    (hsized : shape.Sized A (object source) 0) :
    shape.valueOf B (shape.converted B (shape.converted A source)) =
        shape.valueOf A source ↔
      A = B ∨ shape.Palindromic A (object source) 0 := by
  have harrays := Shape.value_arrays_iff A (object source) shape 0
  cases A with
  | little =>
      cases B with
      | little => exact ⟨fun _ => .inl rfl, fun _ => rfl⟩
      | big =>
          have hval := value_converted .little .big (by decide) .big
            hw hlen hsized
          rw [Shape.valueOf, Shape.valueOf,
            show shape.converted .little source = source from rfl, hval]
          exact eq_comm.trans (harrays.trans ⟨.inr, fun h => h.resolve_left (by decide)⟩)
  | big =>
      have hval := fun ea => value_converted .big .little (by decide) ea
        hw hlen hsized
      cases B with
      | little =>
          rw [Shape.valueOf, Shape.valueOf, Shape.converted, hval]
          exact harrays.trans ⟨.inr, fun h => h.resolve_left (by decide)⟩
      | big =>
          -- The second conversion undoes the first, C arrays included: they
          -- were not touched by either.
          have hsized' := Shape.sized_of_value shape 0 0 (hval .big).symm hsized
          have hback := value_converted .little .big (by decide) .big
            hw (by simp [hlen]) hsized'
          rw [Shape.valueOf, Shape.valueOf, hback, hval]
          simp

theorem run_decode_encoded (hw : shape.WF) (hsize : shape.size = T.size)
    (hlen : source.length = T.size) (c v : Bool) {m m' : Mem} {p q dest : Ptr}
    {cap len : Nat} (hcap : Header.size + T.size ≤ cap)
    (hlen' : Header.size + T.size ≤ len)
    (hcopy : slice m'.byte q.off (16 + T.size) =
      slice ((portableEncode A T shape (some p) cap source c).run Mem.machine m).2.byte
        p.off (16 + T.size)) :
    (portableDecode B T shape (some q) len dest v).run Mem.machine m' =
      if T.size < 2 ^ 32 then
        (.ok, m'.write dest.off (shape.converted B (shape.converted A source)))
      else (.bufferTooSmall, m') := by
  have hfits : ∀ host, shape.Fits host T := fun host _ => ⟨hw.laid, hsize⟩
  rw [run_portableEncode (hfits A) hcap hlen, Mem.write_byte,
    slice_patch_eq (by simp [hlen])] at hcopy
  rw [run_portableDecode (hfits B)]
  have hparts := hcopy
  rw [slice_add, packet] at hparts
  obtain ⟨hhdr, hpay⟩ := List.append_inj hparts (by simp)
  by_cases hT : T.size < 2 ^ 32
  · have hok : decodeMem T q.off m'.byte len v = .ok := decodeMem_eq_ok.mpr
      ((carries_packet hT hcopy (crcField_eq c _)).mpr ⟨hlen', rfl, rfl, rfl⟩)
    rw [hok, if_pos rfl, if_pos hT, show q.off + Header.size = q.off + 16 from rfl, hpay]
  · have hbad : decodeMem T q.off m'.byte len v = .bufferTooSmall := by
      have hne : (UInt32.ofNat T.size).toNat ≠ T.size := by
        have := (UInt32.ofNat T.size).toNat_lt
        omega
      unfold decodeMem
      dsimp only
      rw [if_neg (Nat.not_lt.mpr hlen'), Header.ofMem_encode hhdr]
      simp only [MsgType.header, ne_eq, not_true_eq_false, if_false, hne,
        not_false_eq_true, if_true]
    rw [hbad, if_neg (by decide), if_neg hT]

/-- **Cross-endian round trip.** What `portable_encode` wrote on a host `A`,
`portable_decode` on a host `B` reads as the same message exactly when its size
fits the header's length field and the hosts agree or every element of every C
array in it is the same backwards. -/
theorem cross_endian_round_trip_iff (A B : Endian) (T : MsgType) (shape : Shape)
    (hw : shape.WF) (hsize : shape.size = T.size) (source : List UInt8)
    (hlen : source.length = T.size) (hsized : shape.Sized A (object source) 0)
    (c v : Bool) (m m' : Mem) (p q dest : Ptr) (cap len : Nat)
    (hcap : Header.size + T.size ≤ cap) (hlen' : Header.size + T.size ≤ len)
    (hcopy : slice m'.byte q.off (16 + T.size) =
      slice ((portableEncode A T shape (some p) cap source c).run Mem.machine m).2.byte
        p.off (16 + T.size)) :
    let dec := (portableDecode B T shape (some q) len dest v).run Mem.machine m'
    (dec.1 = .ok ∧
        shape.valueOf B (slice dec.2.byte dest.off T.size) = shape.valueOf A source) ↔
      T.size < 2 ^ 32 ∧ (A = B ∨ shape.Palindromic A (object source) 0) := by
  dsimp only
  rw [run_decode_encoded hw hsize hlen c v hcap hlen' hcopy,
    ← valueOf_converted_iff hw (hlen.trans hsize.symm) hsized]
  split
  · next hT =>
      rw [Mem.write_byte, slice_patch_eq (by simp [hlen])]
      exact ⟨fun h => ⟨hT, h.2⟩, fun h => ⟨rfl, h.2⟩⟩
  · next hT => exact ⟨fun h => by simp at h, fun h => absurd h.1 hT⟩

/-- A sample whose only non-zero field is `accel_raw[0]`, which is 1, as a
big-endian host has it. -/
def bigImuSample : List UInt8 :=
  [0, 0, 0, 0, 0, 1] ++ List.replicate 18 0

theorem mcuImuShape_wf : mcuImuShape.WF := by
  simp [mcuImuShape, Shape.WF, Members.WF, Members.Avoid, Shape.size]

theorem mcuImuShape_sized (host : Endian) (f : Nat → UInt8) :
    mcuImuShape.Sized host f 0 := by
  simp [mcuImuShape, Shape.Sized, Members.Sized]

theorem cross_endian_round_trip_iff_imu :
    let enc := (portableEncode .big mcuImuSample mcuImuShape (some ⟨0x1000, 0⟩) 40
      bigImuSample true).run Mem.machine zeroMem
    let dec := (portableDecode .big mcuImuSample mcuImuShape (some ⟨0x1000, 0⟩) 40
      ⟨0x2000, 100⟩ true).run Mem.machine enc.2
    dec.1 = .ok ∧ mcuImuShape.valueOf .big (slice dec.2.byte 100 24) =
      mcuImuShape.valueOf .big bigImuSample :=
  (cross_endian_round_trip_iff .big .big mcuImuSample mcuImuShape mcuImuShape_wf rfl
    bigImuSample (by decide) (mcuImuShape_sized _ _) true true zeroMem _
    ⟨0x1000, 0⟩ ⟨0x1000, 0⟩ ⟨0x2000, 100⟩ 40 40 (by decide) (by decide) rfl).mpr
    ⟨by decide, .inl rfl⟩

/-- From a big-endian host to a little-endian one, `accel_raw[0]` arrives as 256. -/
theorem cross_endian_array_backwards :
    let enc := (portableEncode .big mcuImuSample mcuImuShape (some ⟨0x1000, 0⟩) 40
      bigImuSample true).run Mem.machine zeroMem
    let dec := (portableDecode .little mcuImuSample mcuImuShape (some ⟨0x1000, 0⟩) 40
      ⟨0x2000, 100⟩ true).run Mem.machine enc.2
    ¬ (dec.1 = .ok ∧ mcuImuShape.valueOf .little (slice dec.2.byte 100 24) =
      mcuImuShape.valueOf .big bigImuSample) := by
  dsimp only
  rw [run_decode_encoded mcuImuShape_wf rfl (by decide) true true
    (show Header.size + mcuImuSample.size ≤ 40 by decide) (by decide) rfl]
  rw [if_pos (by decide), Mem.write_byte]
  dsimp only
  rw [slice_patch_eq (by simp; rfl),
    valueOf_converted_iff mcuImuShape_wf rfl (mcuImuShape_sized _ _)]
  rintro ⟨_, hval⟩
  rcases hval with h | h
  · cases h
  · simp only [mcuImuShape, Shape.Palindromic, Members.Palindromic] at h
    exact absurd (h.2.1 0 (by decide)) (by decide)

end CrossEndian

end Sinew
