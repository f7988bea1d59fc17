import Sinew.Model.Objects
import Sinew.Proofs.Portable
import Sinew.Proofs.PortableTwice

/-!
# What an accepted packet says about its containers

Neither decoder looks at a payload, but for its checksum: a container that an
accepted packet holds has the count that the packet gives it. So it is well
formed exactly when the packet's count is, read in the order the payload is in.
For `portable_decode` on a big-endian host that is an induction over the type:
the count of a vector decides which of its elements are swapped, and with them
the counts of containers in those elements.
-/

namespace Sinew

open Lib

/-- Every element that an accessor reaches lies in `data_`: through `at`, and between
`begin` and `end`. -/
structure StaticVector.Contained {α : Type} {Capacity : Nat}
    (v : StaticVector α Capacity) : Prop where
  size : v.size.toNat ≤ Capacity
  atIndex : ∀ hasExceptions index i, index < v.size → v.atIndex hasExceptions index = .ok i →
    (v.load i).isSome
  positions : ∀ i < v.size.toNat, (v.load i).isSome

/-- The same for a string, whose `view` is read through, and the room that `append`
makes out for itself; `w` is the width of `size_t`. -/
structure StaticString.Contained {Capacity : Nat} (s : StaticString Capacity) : Prop where
  size : s.size.toNat ≤ Capacity
  atIndex : ∀ hasExceptions index i, index < s.size → s.atIndex hasExceptions index = .ok i →
    (s.load i).isSome
  positions : ∀ i < s.size.toNat, (s.load i).isSome
  view : s.view.isSome
  room : ∀ w, Capacity < 2 ^ w → s.size.toNat + s.available w ≤ Capacity

theorem StaticVector.contained_iff {α : Type} {Capacity : Nat}
    {v : StaticVector α Capacity} : v.Contained ↔ v.size.toNat ≤ Capacity := by
  refine ⟨fun h => h.size, fun h => ?_⟩
  have hload : ∀ i < v.size.toNat, (v.load i).isSome := by
    intro i hi
    rw [load, if_pos (by omega)]
    rfl
  refine ⟨h, fun hasExceptions index i hlt hat => ?_, hload⟩
  have hnat := UInt32.lt_iff_toNat_lt.mp hlt
  rw [atIndex, if_neg (by rw [ge_iff_le, UInt32.le_iff_toNat_le]; omega)] at hat
  cases hat
  exact hload _ hnat

/-- A view is read through without leaving `data_` if it ends there. -/
theorem StaticString.viewFrom_isSome_iff {Capacity : Nat} {s : StaticString Capacity}
    {count i : Nat} (hi : i ≤ Capacity + 1) :
    (s.viewFrom count i).isSome ↔ i + count ≤ Capacity + 1 := by
  induction count generalizing i with
  | zero => exact iff_of_true rfl hi
  | succ count ih =>
      rw [viewFrom, load]
      split
      · have hrest := ih (i := i + 1) (by omega)
        rw [Option.bind_eq_bind, Option.bind_some, ← Nat.add_assoc, Nat.add_right_comm,
          ← hrest]
        cases s.viewFrom count (i + 1) <;> rfl
      · next hout => exact iff_of_false (fun h => by cases h) (by omega)

theorem StaticString.contained_iff {Capacity : Nat} {s : StaticString Capacity} :
    s.Contained ↔ s.size.toNat ≤ Capacity := by
  refine ⟨fun h => h.size, fun h => ?_⟩
  have hload : ∀ i < s.size.toNat, (s.load i).isSome := by
    intro i hi
    rw [load, if_pos (by omega)]
    rfl
  refine ⟨h, fun hasExceptions index i hlt hat => ?_, hload,
    (viewFrom_isSome_iff (by omega)).mpr (by omega), fun w hw => ?_⟩
  · have hnat := UInt32.lt_iff_toNat_lt.mp hlt
    rw [atIndex, if_neg (by rw [ge_iff_le, UInt32.le_iff_toNat_le]; omega)] at hat
    cases hat
    exact hload _ hnat
  · rw [available, show Capacity + 2 ^ w - s.size.toNat = Capacity - s.size.toNat + 2 ^ w by
      omega, Nat.add_mod_right, Nat.mod_eq_of_lt (by omega)]
    omega

mutual

/-- Every container of the message is contained, in live elements and in nested structs
too. -/
def Shape.Contained (host : Endian) (f : Nat → UInt8) : Shape → Nat → Prop
  | .staticString capacity, a =>
      (StaticString.ofMem host f a : StaticString capacity).Contained
  | .staticVector elem capacity, a =>
      let v : StaticVector (List UInt8) capacity :=
        .ofMem host (slice · · elem.size) elem.size (Shape.vectorSizeOff elem capacity) f a
      v.Contained ∧ ∀ i < v.size.toNat, elem.Contained host f (a + elem.size * i)
  | .reflected _ _ members, a => members.Contained host f a
  | .scalar _, _ => True
  | .array _ _, _ => True
  | .other _ _, _ => True

def Members.Contained (host : Endian) (f : Nat → UInt8) : Members → Nat → Prop
  | .nil, _ => True
  | .cons off field rest, a => field.Contained host f (a + off) ∧ rest.Contained host f a

end

mutual

/-- Every container's `size_`, read in this order, is within its capacity. -/
def Shape.InRange (order : Endian) (f : Nat → UInt8) : Shape → Nat → Prop
  | .staticString capacity, a =>
      order.word (slice f (a + Shape.stringSizeOff capacity) 4) ≤ capacity
  | .staticVector elem capacity, a =>
      order.word (slice f (a + Shape.vectorSizeOff elem capacity) 4) ≤ capacity ∧
        ∀ i < order.word (slice f (a + Shape.vectorSizeOff elem capacity) 4),
          elem.InRange order f (a + elem.size * i)
  | .reflected _ _ members, a => members.InRange order f a
  | .scalar _, _ => True
  | .array _ _, _ => True
  | .other _ _, _ => True

def Members.InRange (order : Endian) (f : Nat → UInt8) : Members → Nat → Prop
  | .nil, _ => True
  | .cons off field rest, a => field.InRange order f (a + off) ∧ rest.InRange order f a

end

mutual

theorem Shape.contained_iff (host : Endian) (f : Nat → UInt8) :
    ∀ (sh : Shape) (a : Nat), sh.Contained host f a ↔ sh.InRange host f a
  | .staticString capacity, a => by
      rw [Shape.Contained, Shape.InRange, StaticString.contained_iff, StaticString.ofMem,
        toNat_u32At]
  | .staticVector elem capacity, a => by
      simp only [Shape.Contained, Shape.InRange, StaticVector.contained_iff,
        StaticVector.ofMem, toNat_u32At, Shape.contained_iff host f elem]
  | .reflected _ _ members, a => by
      rw [Shape.Contained, Shape.InRange]
      exact Members.contained_iff host f members a
  | .scalar _, _ => by rw [Shape.Contained, Shape.InRange]
  | .array _ _, _ => by rw [Shape.Contained, Shape.InRange]
  | .other _ _, _ => by rw [Shape.Contained, Shape.InRange]

theorem Members.contained_iff (host : Endian) (f : Nat → UInt8) :
    ∀ (ms : Members) (a : Nat), ms.Contained host f a ↔ ms.InRange host f a
  | .nil, _ => by rw [Members.Contained, Members.InRange]
  | .cons off field rest, a => by
      rw [Members.Contained, Members.InRange, Shape.contained_iff host f field,
        Members.contained_iff host f rest]

end

section Congr

variable {f g : Nat → UInt8}

mutual

theorem Shape.inRange_congr (order : Endian) :
    ∀ (sh : Shape) (a b : Nat), sh.Laid → slice f a sh.size = slice g b sh.size →
      (sh.InRange order f a ↔ sh.InRange order g b)
  | .scalar _, _, _, _, _ => by rw [Shape.InRange, Shape.InRange]
  | .array _ _, _, _, _, _ => by rw [Shape.InRange, Shape.InRange]
  | .other _ _, _, _, _, _ => by rw [Shape.InRange, Shape.InRange]
  | .staticString capacity, a, b, _, h => by
      have hend : Shape.stringSizeOff capacity + 4 ≤ (Shape.staticString capacity).size :=
        Nat.le_refl _
      rw [Shape.InRange, Shape.InRange, slice_part h hend]
  | .staticVector elem capacity, a, b, hw, h => by
      rw [Shape.Laid] at hw
      rw [Shape.InRange, Shape.InRange, slice_part h (Shape.vectorSizeOff_lt elem capacity)]
      refine and_congr_right fun hle => forall₂_congr fun i hi => ?_
      exact Shape.inRange_congr order elem _ _ hw
        (slice_part h (Shape.vectorElem_le (by omega)))
  | .reflected size _ members, a, b, hw, h => by
      rw [Shape.Laid] at hw
      rw [Shape.InRange, Shape.InRange]
      exact Members.inRange_congr order size members a b hw h

theorem Members.inRange_congr (order : Endian) (size : Nat) :
    ∀ (ms : Members) (a b : Nat), ms.Laid size → slice f a size = slice g b size →
      (ms.InRange order f a ↔ ms.InRange order g b)
  | .nil, _, _, _, _ => by rw [Members.InRange, Members.InRange]
  | .cons off field rest, a, b, hw, h => by
      rw [Members.Laid] at hw
      rw [Members.InRange, Members.InRange,
        Shape.inRange_congr order field _ _ hw.1 (slice_part h hw.2.1),
        Members.inRange_congr order size rest a b hw.2.2 h]

end

end Congr

/-- What becomes of one field is nothing to the others. -/
theorem Members.inRange_outside {order : Endian} {f g : Nat → UInt8} {size lo n a : Nat} :
    ∀ (ms : Members), ms.Laid size → ms.Avoid lo n →
      (∀ x, x < a + lo ∨ a + lo + n ≤ x → f x = g x) →
      (ms.InRange order f a ↔ ms.InRange order g a)
  | .nil, _, _, _ => by rw [Members.InRange, Members.InRange]
  | .cons off field rest, hw, hav, hfg => by
      rw [Members.Laid] at hw
      rw [Members.Avoid] at hav
      have hsame : slice f (a + off) field.size = slice g (a + off) field.size :=
        slice_congr fun x _ _ => hfg x (by omega)
      rw [Members.InRange, Members.InRange, Shape.inRange_congr order field _ _ hw.1 hsame,
        Members.inRange_outside rest hw.2.2 hav.2 hfg]

section Swapped

variable {o o' : Endian}

theorem word_reverse_of_ne (hne : o ≠ o') (xs : List UInt8) :
    o'.word xs.reverse = o.word xs := by
  cases o <;> cases o' <;> first | exact absurd rfl hne | simp [Endian.word]

/-- A count of 16 bits is not less as a big-endian host reads it. -/
theorem word_le_big {xs : List UInt8} (hlen : xs.length = 4) (hlt : o.word xs < 65536) :
    o.word xs ≤ Endian.big.word xs := by
  cases o with
  | big => exact Nat.le_refl _
  | little => exact word_le_word_reverse .little hlen hlt

mutual

/-- On a big-endian host `portable_swap` turns counts that are in range in one byte
order into counts that are in range in the other. -/
theorem Shape.inRange_swapped (hne : o ≠ o') :
    ∀ (sh : Shape) (a : Nat) (f : Nat → UInt8), sh.WF →
      (sh.InRange o' (sh.swapped .big a f) a ↔ sh.InRange o f a)
  | .scalar _, _, _, _ => by rw [Shape.InRange, Shape.InRange]
  | .array _ _, _, _, _ => by rw [Shape.InRange, Shape.InRange]
  | .staticString capacity, a, f, _ => by
      rw [Shape.swapped, Shape.InRange, Shape.InRange, slice_swapCells,
        byteSwap_eq_reverse (by simp), word_reverse_of_ne hne]
  | .staticVector elem capacity, a, f, hw => by
      rw [Shape.WF] at hw
      have hlen := slice_length f (a + Shape.vectorSizeOff elem capacity) 4
      rw [Shape.InRange, Shape.InRange, Shape.swapped_vector_size hw.1.laid,
        word_reverse_of_ne hne]
      refine and_congr_right fun hle => forall₂_congr fun i hi => ?_
      have hlive := word_le_big (o := o) hlen (by omega)
      rw [← Shape.inRange_swapped hne elem _ f hw.1]
      exact Shape.inRange_congr o' elem _ _ hw.1.laid
        (Shape.swapped_vector_elem hw.1.laid (by omega) f a (by omega) (by omega))
  | .reflected size _ members, a, f, hw => by
      rw [Shape.WF] at hw
      rw [Shape.swapped, Shape.InRange, Shape.InRange]
      exact Members.inRange_swapped hne size members a f hw
  | .other _ _, _, _, hw => by rw [Shape.WF] at hw; exact hw.elim

theorem Members.inRange_swapped (hne : o ≠ o') (size : Nat) :
    ∀ (ms : Members) (a : Nat) (f : Nat → UInt8), ms.WF size →
      (ms.InRange o' (ms.swapped .big a f) a ↔ ms.InRange o f a)
  | .nil, _, _, _ => by rw [Members.InRange, Members.InRange]
  | .cons off field rest, a, f, hw => by
      rw [Members.WF] at hw
      obtain ⟨hfield, _, hav, hrest⟩ := hw
      have hothers := @Members.inRange_outside o _ f size off field.size a rest hrest.laid
        hav ((Shape.swapped_local .big field hfield.laid).frame (a + off) f)
      rw [Members.swapped, Members.InRange, Members.InRange,
        Members.inRange_swapped hne size rest a _ hrest, hothers,
        Shape.inRange_congr o' field _ _ hfield.laid
          (Members.swapped_avoid rest _ hrest.laid hav),
        Shape.inRange_swapped hne field (a + off) f hfield]

end

end Swapped

/-! ## The decoders -/

/-- **What acceptance says about containers**: nothing. When `validate` accepts, every
container of the payload is contained exactly if the counts in the packet are in range
as the host reads them; when `portable_decode` accepts, every container of the message
it has made is, exactly if the counts that `portable_swap` has left there are in range.
Those are the packet's own in little-endian order, wherever all members are swapped.

`layout` has the members of the message, listed by `SINEW_REFLECT` or not; `shape` is
what `portable_swap` can tell of it. -/
theorem accepted_contained_iff (host : Endian) (T : MsgType) (layout shape : Shape)
    (hlaid : layout.Laid) (hsize : layout.size = T.size) (hfits : shape.Fits host T)
    (p : Ptr) (size : Nat) (verifyCrc : Bool) (m : Mem) :
    (∀ m', (validate host T (some p) size verifyCrc).run Mem.machine m = (.ok, m') →
      (layout.Contained host m'.byte (p.off + Header.size) ↔
        layout.InRange host m.byte (p.off + Header.size))) ∧
    ∀ dest m',
      (portableDecode host T shape (some p) size dest verifyCrc).run Mem.machine m =
        (.ok, m') →
      (layout.Contained host m'.byte dest.off ↔ layout.InRange host
        (object (shape.converted host (slice m.byte (p.off + Header.size) T.size))) 0) ∧
      ((host = .big → shape = layout ∧ layout.WF) →
        (layout.Contained host m'.byte dest.off ↔
          layout.InRange .little m.byte (p.off + Header.size))) := by
  constructor
  · intro m' hrun
    rw [run_validate] at hrun
    obtain ⟨-, rfl⟩ := Prod.mk.inj hrun
    exact Shape.contained_iff host m.byte layout _
  · intro dest m' hrun
    rw [run_portableDecode hfits] at hrun
    obtain ⟨hok, hm'⟩ := Prod.mk.inj hrun
    rw [if_pos hok] at hm'
    have hpayload := slice_length m.byte (p.off + Header.size) T.size
    generalize hbytes : slice m.byte (p.off + Header.size) T.size = bytes at hm' hpayload ⊢
    have hlen : (shape.converted host bytes).length = layout.size := by
      rw [Shape.converted_length, hpayload, hsize]
    have hleft : layout.Contained host m'.byte dest.off ↔
        layout.InRange host (object (shape.converted host bytes)) 0 := by
      rw [Shape.contained_iff]
      refine Shape.inRange_congr host layout _ _ hlaid ?_
      rw [← hm', object, slice_patch_eq hlen, Mem.write_byte, slice_patch_eq hlen]
    refine ⟨hleft, fun hwf => hleft.trans ?_⟩
    have hobject : layout.InRange .little (object bytes) 0 ↔
        layout.InRange .little m.byte (p.off + Header.size) := by
      refine Shape.inRange_congr .little layout _ _ hlaid ?_
      rw [object, slice_patch_eq (hpayload.trans hsize.symm), hsize, hbytes]
    rw [← hobject]
    cases host with
    | little => rfl
    | big =>
        obtain ⟨hshape, hwf⟩ := hwf rfl
        subst hshape
        rw [← Shape.inRange_swapped (show Endian.little ≠ .big by decide) shape 0
          (object bytes) hwf]
        refine Shape.inRange_congr .big shape _ _ hlaid ?_
        rw [object, slice_patch_eq hlen]
        exact (Shape.slice_swapped hlaid (hpayload.trans hsize.symm)
          (slice_patch_eq (hpayload.trans hsize.symm))).symm

/-- A message of that shape. -/
def telemetry : MsgType where
  size := 48
  align := 4
  id := 42
  version := 1
  ctor := []
  size_pos := by decide
  align_pow := MsgType.four_pow
  align_dvd := by decide
  ctor_lt := by simp

/-- A payload of zeros, but for the string's count. -/
def namedPayload (count : UInt8) : List UInt8 := (List.replicate 48 0).set 24 count

/-- A finished packet of it, and nothing else. -/
def namedMem (count : UInt8) : Mem where
  byte := patch (fun _ => 0) 0
    (packet .little telemetry (crc32 (namedPayload count)) (namedPayload count))
  word _ := 0
  visits := []

theorem namedMem_carries (count : UInt8) :
    Carries .little telemetry 0 (namedMem count).byte 64 true :=
  (carries_packet (by decide) (slice_patch_eq rfl) (.inr rfl)).mpr
    ⟨by decide, rfl, rfl, rfl⟩

theorem run_validate_named (count : UInt8) :
    (validate .little telemetry (some ⟨0x1000, 0⟩) 64 true).run Mem.machine
      (namedMem count) = (.ok, namedMem count) := by
  rw [run_validate, validateMem_eq_ok.mpr ⟨namedMem_carries count, by decide⟩]

theorem run_portableDecode_named (count : UInt8) :
    (portableDecode .little telemetry telemetryShape (some ⟨0x1000, 0⟩) 64
      ⟨0x1000, 100⟩ true).run Mem.machine (namedMem count) =
        (.ok, (namedMem count).write 100
          (slice (namedMem count).byte Header.size telemetry.size)) := by
  rw [run_portableDecode fun h => (by cases h),
    decodeMem_eq_ok.mpr (namedMem_carries count), if_pos rfl]
  simp only [Shape.converted, Nat.zero_add]

theorem slice_namedMem (count : UInt8) :
    slice (namedMem count).byte Header.size telemetry.size = namedPayload count :=
  slice_payload .little telemetry (fun _ => 0) 0 _ rfl

theorem size_named {f : Nat → UInt8} {a : Nat} {count : UInt8}
    (h : slice f a telemetry.size = namedPayload count) :
    (StaticString.ofMem .little f (a + 4) : StaticString 16).size = count.toUInt32 := by
  have hcount : slice f (a + 24) 4 = [count, 0, 0, 0] := by
    have hobject : slice f a telemetry.size = slice (object (namedPayload count)) 0 48 :=
      h.trans (slice_patch_eq rfl).symm
    exact (slice_part hobject (d := 24) (k := 4) (by decide)).trans rfl
  rw [StaticString.ofMem, Nat.add_assoc, show 4 + Shape.stringSizeOff 16 = 24 from rfl]
  apply UInt32.toNat_inj.mp
  rw [toNat_u32At, hcount, UInt8.toNat_toUInt32]
  simp [Endian.word, ofLeBytes]

theorem accepted_contained_iff_named :
    telemetryShape.Contained .little (namedMem 16).byte 16 ∧
      telemetryShape.Contained .little ((namedMem 16).write 100
        (slice (namedMem 16).byte Header.size telemetry.size)).byte 100 := by
  have hiff := accepted_contained_iff .little telemetry telemetryShape telemetryShape
    telemetryShape_wf.laid rfl (fun h => by cases h) ⟨0x1000, 0⟩ 64 true (namedMem 16)
  have hrange : telemetryShape.InRange .little (namedMem 16).byte 16 := by
    refine (Shape.inRange_congr .little telemetryShape 16 0 telemetryShape_wf.laid
      (show _ = slice (object (namedPayload 16)) 0 48 from
        (slice_namedMem 16).trans (slice_patch_eq rfl).symm)).mpr ?_
    simp only [telemetryShape, Shape.InRange, Members.InRange]
    decide
  exact ⟨(hiff.1 _ (run_validate_named 16)).mpr hrange,
    ((hiff.2 ⟨0x1000, 100⟩ _ (run_portableDecode_named 16)).2 fun h => by cases h).mpr hrange⟩

/-- A string of eighteen characters in sixteen: both decoders accept the packet, checksum
and all, and the `view` of the string they hand out leaves `data_`. -/
theorem accepted_not_contained :
    let seen : StaticString 16 := .ofMem .little (namedMem 18).byte (16 + 4)
    let decoded := (portableDecode .little telemetry telemetryShape (some ⟨0x1000, 0⟩) 64
      ⟨0x1000, 100⟩ true).run Mem.machine (namedMem 18)
    let copied : StaticString 16 := .ofMem .little decoded.2.byte (100 + 4)
    ((validate .little telemetry (some ⟨0x1000, 0⟩) 64 true).run Mem.machine
        (namedMem 18)).1 = .ok ∧ seen.size = 18 ∧ seen.view = none ∧
      decoded.1 = .ok ∧ copied.size = 18 ∧ copied.view = none := by
  have hview : ∀ {t : StaticString 16}, t.size = 18 → t.view = none := by
    intro t ht
    rw [← Option.not_isSome_iff_eq_none, StaticString.view, ht,
      StaticString.viewFrom_isSome_iff (Nat.zero_le _)]
    decide
  have hseen := size_named (slice_namedMem 18)
  have hcopied : (StaticString.ofMem .little ((namedMem 18).write 100
      (slice (namedMem 18).byte Header.size telemetry.size)).byte (100 + 4) :
        StaticString 16).size = (18 : UInt8).toUInt32 := by
    refine size_named ?_
    rw [slice_namedMem]
    exact slice_patch_eq rfl
  dsimp only
  rw [run_validate_named, run_portableDecode_named]
  exact ⟨rfl, hseen, hview hseen, rfl, hcopied, hview hcopied⟩

end Sinew
