import Sinew.Proofs.Portable
import Sinew.Proofs.PortableTwice

/-!
# What `portable_encode` makes of padding

The encoder copies the whole object, padding and all, and `portable_swap` moves
none of it: over scalars the swap is a permutation of the object's bytes that is
the same for every object. So two packets are the same exactly when the two
objects were, byte for byte, and objects with the same fields differ in nothing
but padding.
-/

namespace Sinew

open Lib

mutual

/-- Scalars, and structs that list scalars and such structs. -/
def Shape.Scalars : Shape → Prop
  | .scalar _ => True
  | .reflected _ _ members => members.Scalars
  | _ => False

def Members.Scalars : Members → Prop
  | .nil => True
  | .cons _ field rest => field.Scalars ∧ rest.Scalars

end

mutual

/-- The byte at this offset belongs to a field; any other byte is padding. -/
def Shape.ofField : Shape → Nat → Bool
  | .reflected _ _ members, i => members.ofField i
  | shape, i => decide (i < shape.size)

def Members.ofField : Members → Nat → Bool
  | .nil, _ => false
  | .cons off field rest, i =>
      (decide (off ≤ i) && field.ofField (i - off)) || rest.ofField i

end

theorem swapCells_involutive (n a : Nat) : Function.Involutive (swapCells n a) := by
  intro f
  have hlen : (byteSwap (slice f a n)).length = n := by
    rw [byteSwap_length, slice_length]
  rw [swapCells, slice_swapCells, byteSwap_byteSwap, swapCells,
    patch_patch _ _ (by rw [hlen, slice_length]), patch_slice]

mutual

theorem Shape.swapped_injective (host : Endian) :
    ∀ (sh : Shape), sh.Scalars → ∀ a, Function.Injective (sh.swapped host a)
  | .scalar size, _, a => by
      simpa only [Shape.swapped] using (swapCells_involutive size a).injective
  | .reflected _ _ members, h, a => by
      rw [Shape.Scalars] at h
      simpa only [Shape.swapped] using Members.swapped_injective host members h a

theorem Members.swapped_injective (host : Endian) :
    ∀ (ms : Members), ms.Scalars → ∀ a, Function.Injective (ms.swapped host a)
  | .nil, _, _ => fun _ _ h => h
  | .cons off field rest, h, a => by
      rw [Members.Scalars] at h
      intro f g hfg
      simp only [Members.swapped] at hfg
      exact Shape.swapped_injective host field h.1 (a + off)
        (Members.swapped_injective host rest h.2 a hfg)

end

theorem Shape.converted_inj {host : Endian} {shape : Shape} (hscalars : shape.Scalars)
    (hlaid : shape.Laid) {xs ys : List UInt8} (hxs : xs.length = shape.size)
    (hys : ys.length = shape.size)
    (h : shape.converted host xs = shape.converted host ys) : xs = ys := by
  cases host with
  | little => exact h
  | big =>
      have hlocal := Shape.swapped_local .big shape hlaid
      have hcells : ∀ {bytes : List UInt8}, bytes.length = shape.size →
          shape.swapped .big 0 (object bytes) =
            patch (object bytes) 0 (shape.converted .big bytes) := by
        intro bytes hlen
        rw [Shape.converted, hlen]
        exact hlocal.eq_patch 0 (object bytes)
      have hobject : object xs = object ys := by
        refine Shape.swapped_injective .big shape hscalars 0 ?_
        rw [hcells hxs, hcells hys, h, object, object, patch_patch _ _ (by simp [hxs, hys]),
          patch_patch _ _ (by simp)]
      have hslice := congrArg (fun f => slice f 0 shape.size) hobject
      simpa only [object, slice_patch_eq hxs, slice_patch_eq hys] using hslice

section Fields

variable {host : Endian} {f g : Nat → UInt8}

mutual

/-- Objects of the same value have the same bytes in their fields. -/
theorem Shape.byte_of_value :
    ∀ (sh : Shape) {a b : Nat}, sh.Scalars →
      sh.value host host f a = sh.value host host g b →
      ∀ i, sh.ofField i = true → f (a + i) = g (b + i)
  | .scalar size, a, b, _, h, i, hi => by
      simp only [Shape.value, Value.int.injEq] at h
      have hbytes := host.word_inj (by rw [slice_length, slice_length]) h
      exact slice_eq_iff.mp hbytes i (of_decide_eq_true hi)
  | .reflected _ _ members, a, b, hs, h, i, hi => by
      simp only [Shape.value, Value.record.injEq] at h
      rw [Shape.Scalars] at hs
      rw [Shape.ofField] at hi
      exact Members.byte_of_values members hs h i hi

theorem Members.byte_of_values :
    ∀ (ms : Members) {a b : Nat}, ms.Scalars →
      ms.values host host f a = ms.values host host g b →
      ∀ i, ms.ofField i = true → f (a + i) = g (b + i)
  | .nil, _, _, _, _, i, hi => by cases hi
  | .cons off field rest, a, b, hs, h, i, hi => by
      simp only [Members.values, List.cons.injEq] at h
      rw [Members.Scalars] at hs
      rw [Members.ofField, Bool.or_eq_true, Bool.and_eq_true, decide_eq_true_iff] at hi
      cases hi with
      | inl hfield =>
          have hbyte := Shape.byte_of_value field hs.1 h.1 (i - off) hfield.2
          rwa [Nat.add_assoc, Nat.add_assoc, Nat.add_sub_cancel' hfield.1] at hbyte
      | inr hrest => exact Members.byte_of_values rest hs.2 h.2 i hrest

end

/-- Of two objects with the same fields, only the padding can tell which is which. -/
theorem eq_iff_padding {shape : Shape} (hscalars : shape.Scalars) {xs ys : List UInt8}
    (hxs : xs.length = shape.size) (hys : ys.length = shape.size)
    (hvalue : shape.valueOf host xs = shape.valueOf host ys) :
    xs = ys ↔ ∀ i < shape.size, shape.ofField i = false → xs[i]? = ys[i]? := by
  refine ⟨fun h _ _ _ => by rw [h], fun hpad => ?_⟩
  have hobject : ∀ {bytes : List UInt8} {i : Nat}, i < bytes.length →
      bytes[i]? = some (object bytes (0 + i)) := by
    intro bytes i hi
    rw [object, patch_of_mem hi, List.getElem?_eq_getElem hi]
  refine List.ext_getElem? fun i => ?_
  by_cases hi : i < shape.size
  · cases hfield : shape.ofField i with
    | true =>
        rw [hobject (hxs ▸ hi), hobject (hys ▸ hi),
          Shape.byte_of_value shape hscalars hvalue i hfield]
    | false => exact hpad i hi hfield
  · rw [List.getElem?_eq_none (by omega), List.getElem?_eq_none (by omega)]

end Fields

theorem packet_inj {host : Endian} {T : MsgType} {crc crc' : UInt32}
    {payload payload' : List UInt8}
    (h : packet host T crc payload = packet host T crc' payload') : payload = payload' :=
  (List.append_inj h (by rw [Header.encode_length, Header.encode_length])).2

/-- **The packet depends on the fields and on the padding.** Two objects with the
same fields, encoded with the same flag wherever there is room, give the same packet
if and only if they agree on every byte that belongs to no field. -/
theorem portable_encode_same_iff (host : Endian) (T : MsgType) (shape : Shape)
    (hscalars : shape.Scalars) (hlaid : shape.Laid) (hsize : shape.size = T.size)
    (p p' : Ptr) (cap cap' : Nat) (hcap : Header.size + T.size ≤ cap)
    (hcap' : Header.size + T.size ≤ cap') (source source' : List UInt8)
    (hlen : source.length = T.size) (hlen' : source'.length = T.size)
    (hfields : shape.valueOf host source = shape.valueOf host source')
    (computeCrc : Bool) (m m' : Mem) :
    slice ((portableEncode host T shape (some p) cap source computeCrc).run
          Mem.machine m).2.byte p.off (Header.size + T.size) =
        slice ((portableEncode host T shape (some p') cap' source' computeCrc).run
          Mem.machine m').2.byte p'.off (Header.size + T.size) ↔
      ∀ i < T.size, shape.ofField i = false → source[i]? = source'[i]? := by
  have hfits : shape.Fits host T := fun _ => ⟨hlaid, hsize⟩
  have hpacket : ∀ {q : Ptr} {n : Mem} {crc : UInt32} {bytes : List UInt8},
      bytes.length = T.size →
      slice (n.write q.off (packet .little T crc (shape.converted host bytes))).byte q.off
        (Header.size + T.size) = packet .little T crc (shape.converted host bytes) := by
    intro q n crc bytes hbytes
    refine slice_patch_eq ?_
    rw [packet, List.length_append, Header.encode_length, Shape.converted_length, hbytes]
    rfl
  rw [run_portableEncode hfits hcap hlen, run_portableEncode hfits hcap' hlen',
    hpacket hlen, hpacket hlen', ← hsize,
    ← eq_iff_padding hscalars (hlen.trans hsize.symm) (hlen'.trans hsize.symm) hfields]
  constructor
  · intro h
    exact Shape.converted_inj hscalars hlaid (hlen.trans hsize.symm)
      (hlen'.trans hsize.symm) (packet_inj h)
  · intro h
    rw [h]

/-- `StructWithPadding` of the wire tests: a byte, a `uint64_t`, a byte and a `double`,
with seven bytes of padding behind each byte. -/
def structWithPadding : MsgType where
  size := 32
  align := 8
  id := 777
  version := 1
  ctor := []
  size_pos := by decide
  align_pow := MsgType.eight_pow
  align_dvd := by decide
  ctor_lt := by simp

/-- Its members, were they reflected. -/
def structWithPaddingShape : Shape :=
  .reflected 32 8 <|
    .cons 0 (.scalar 1) <|
    .cons 8 (.scalar 8) <|
    .cons 16 (.scalar 1) <|
    .cons 24 (.scalar 8) .nil

theorem structWithPaddingShape_scalars : structWithPaddingShape.Scalars := by
  simp [structWithPaddingShape, Shape.Scalars, Members.Scalars]

theorem structWithPaddingShape_laid : structWithPaddingShape.Laid := by
  simp [structWithPaddingShape, Shape.Laid, Members.Laid, Shape.size]

/-- Such a struct with 1, 2, 3 and zero in its fields, the padding behind the first
filled with one byte. -/
def padded (b : UInt8) : List UInt8 :=
  1 :: List.replicate 7 b ++ [2, 0, 0, 0, 0, 0, 0, 0] ++ 3 :: List.replicate 15 0

theorem padded_value (b : UInt8) : structWithPaddingShape.valueOf .little (padded b) =
    .record [.int 1, .int 2, .int 3, .int 0] := by
  simp [structWithPaddingShape, Shape.valueOf, Shape.value, Members.values, padded, object,
    patch, slice, Function.update]
  decide

theorem portable_encode_same_iff_padded :
    slice ((portableEncode .little structWithPadding structWithPaddingShape
          (some ⟨0x1000, 0⟩) 48 (padded 0) true).run Mem.machine zeroMem).2.byte 0 48 =
      slice ((portableEncode .little structWithPadding structWithPaddingShape
          (some ⟨0x2000, 8⟩) 64 (padded 0) true).run Mem.machine zeroMem).2.byte 8 48 :=
  (portable_encode_same_iff .little structWithPadding structWithPaddingShape
    structWithPaddingShape_scalars structWithPaddingShape_laid rfl ⟨0x1000, 0⟩ ⟨0x2000, 8⟩
    48 64 (by decide) (by decide) (padded 0) (padded 0) rfl rfl rfl true zeroMem
    zeroMem).mpr fun _ _ _ => rfl

/-- Two such structs with the same fields, in a clean buffer each, and two packets. -/
theorem portable_encode_leaks_padding :
    let packetOf (b : UInt8) := slice ((portableEncode .little structWithPadding
      structWithPaddingShape (some ⟨0x1000, 0⟩) 48 (padded b) true).run Mem.machine
        zeroMem).2.byte 0 48
    structWithPaddingShape.valueOf .little (padded 0) =
        structWithPaddingShape.valueOf .little (padded 0xFF) ∧
      packetOf 0 ≠ packetOf 0xFF := by
  refine ⟨by rw [padded_value, padded_value], fun hsame => ?_⟩
  have hfits : structWithPaddingShape.Fits .little structWithPadding := fun h => by cases h
  have hpacket : ∀ b crc, slice (zeroMem.write 0 (packet .little structWithPadding crc
      (padded b))).byte 0 48 = packet .little structWithPadding crc (padded b) := by
    intro b crc
    exact slice_patch_eq rfl
  dsimp only at hsame
  rw [run_portableEncode hfits (by decide) rfl, run_portableEncode hfits (by decide) rfl]
    at hsame
  have hpadding := packet_inj ((hpacket 0 _).symm.trans (hsame.trans (hpacket 0xFF _)))
  cases hpadding

end Sinew
