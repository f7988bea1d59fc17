import Sinew.Proofs.PortableSwap

/-!
# `portable_swap` applied twice

The second application undoes the first wherever it gets to. It reads the size
of a vector backwards, and where that is less than the size it stops short of
the last elements, which the first application has swapped. So an object comes
back exactly where what is left out is the same in either byte order, and what
is not left out comes back for its part.
-/

namespace Sinew

open Lib

theorem byteSwap_eq_reverse {xs : List UInt8}
    (h : xs.length = 1 ∨ xs.length = 2 ∨ xs.length = 4 ∨ xs.length = 8) :
    byteSwap xs = xs.reverse := by
  rcases h with h | h
  · obtain ⟨x, rfl⟩ := List.length_eq_one_iff.mp h
    rw [byteSwap_one (by simp)]
    rfl
  · rw [byteSwap, if_pos h]

theorem byteSwap_byteSwap (xs : List UInt8) : byteSwap (byteSwap xs) = xs := by
  by_cases h : xs.length = 2 ∨ xs.length = 4 ∨ xs.length = 8
  · rw [byteSwap_eq_reverse (by simp [h]), byteSwap_eq_reverse (by simp [h]),
      List.reverse_reverse]
  · have hsame : byteSwap xs = xs := by rw [byteSwap, if_neg h]
    rw [hsame, hsame]

theorem slice_swapCells (n a : Nat) (f : Nat → UInt8) :
    slice (swapCells n a f) a n = byteSwap (slice f a n) := by
  rw [swapCells, slice_patch_eq (by simp)]

theorem word_reverse_iff (host : Endian) (xs : List UInt8) :
    host.word xs.reverse = host.word xs ↔ xs.reverse = xs :=
  ⟨host.word_inj (by simp), fun h => by rw [h]⟩

mutual

theorem Shape.Swappable.laid : ∀ {sh : Shape}, sh.Swappable → sh.Laid
  | .scalar _, _ => by rw [Shape.Laid]; trivial
  | .array _ _, _ => by rw [Shape.Laid]; trivial
  | .staticString _, _ => by rw [Shape.Laid]; trivial
  | .staticVector elem _, h => by
      rw [Shape.Swappable] at h
      rw [Shape.Laid]
      exact h.1.laid
  | .reflected size _ members, h => by
      rw [Shape.Swappable] at h
      rw [Shape.Laid]
      exact h.laid
  | .other _ _, h => by rw [Shape.Swappable] at h; exact h.elim

theorem Members.Swappable.laid {size : Nat} :
    ∀ {ms : Members}, ms.Swappable size → ms.Laid size
  | .nil, _ => by rw [Members.Laid]; trivial
  | .cons _ _ _, h => by
      rw [Members.Swappable] at h
      rw [Members.Laid]
      exact ⟨h.1.laid, h.2.1, h.2.2.2.laid⟩

end

section Vector

variable {host : Endian} {elem : Shape} {capacity i : Nat} (helem : elem.Laid)
  (hcap : capacity < 2 ^ 32) (f : Nat → UInt8) (a : Nat)

include helem

theorem Shape.swapped_vector_size :
    slice ((Shape.staticVector elem capacity).swapped host a f)
        (a + Shape.vectorSizeOff elem capacity) 4 =
      (slice f (a + Shape.vectorSizeOff elem capacity) 4).reverse := by
  have hoff := Shape.le_vectorSizeOff elem capacity
  rw [Shape.swapped, slice_swapCells, byteSwap_eq_reverse (by simp)]
  generalize hcount : swapCount _ capacity = count
  have hle : elem.size * count ≤ elem.size * capacity := by
    rw [← hcount]
    exact Nat.mul_le_mul_left _ (swapCount_le _ _)
  congr 1
  exact slice_congr fun x _ _ =>
    (swapElems_local (Shape.swapped_local host elem helem) count).frame a f x (by omega)

include hcap

theorem Shape.swapped_vector_elem (hi : i < capacity)
    (hlive : i < host.word (slice f (a + Shape.vectorSizeOff elem capacity) 4)) :
    slice ((Shape.staticVector elem capacity).swapped host a f)
        (a + elem.size * i) elem.size =
      slice (elem.swapped host (a + elem.size * i) f) (a + elem.size * i) elem.size := by
  have hoff := Shape.le_vectorSizeOff elem capacity
  have hin := mul_add_le (k := elem.size) hi
  rw [Shape.swapped, swapCount_eq host hcap, swapCells, slice_patch_of_disjoint (by omega)]
  exact swapElems_cells (Shape.swapped_local host elem helem) _ a f i
    (Nat.lt_min.mpr ⟨hlive, hi⟩)

theorem Shape.swapped_vector_rest (hi : i < capacity)
    (hrest : host.word (slice f (a + Shape.vectorSizeOff elem capacity) 4) ≤ i) :
    slice ((Shape.staticVector elem capacity).swapped host a f)
        (a + elem.size * i) elem.size = slice f (a + elem.size * i) elem.size := by
  have hoff := Shape.le_vectorSizeOff elem capacity
  have hin := mul_add_le (k := elem.size) hi
  rw [Shape.swapped, swapCount_eq host hcap, swapCells, slice_patch_of_disjoint (by omega),
    Nat.min_eq_left (by omega)]
  have hstop := Nat.mul_le_mul_left elem.size hrest
  exact slice_congr fun x _ _ =>
    (swapElems_local (Shape.swapped_local host elem helem) _).frame a f x (by omega)

end Vector

mutual

theorem Shape.value_swapped_iff (host ea : Endian) :
    ∀ (sh : Shape) (a : Nat) (f : Nat → UInt8), sh.Swappable → sh.Sized host f a →
      (sh.value host ea (sh.swapped host a f) a = sh.value host ea f a ↔
        sh.Symmetric host f a)
  | .scalar size, a, f, hw, _ => by
      rw [Shape.Swappable] at hw
      rw [Shape.swapped, Shape.value, Shape.value, Shape.Symmetric, slice_swapCells,
        byteSwap_eq_reverse (by simpa using hw), Value.int.injEq, word_reverse_iff]
  | .array _ _, a, f, _, _ => by simp only [Shape.swapped, Shape.Symmetric]
  | .staticString capacity, a, f, _, _ => by
      have hoff := Shape.le_stringSizeOff capacity
      rw [Shape.swapped, Shape.value, Shape.value, Shape.Symmetric, slice_swapCells,
        byteSwap_eq_reverse (by simp), Value.string.injEq, word_reverse_iff]
      refine ⟨fun h => h.1, fun h => ⟨h, ?_⟩⟩
      rw [h, swapCells, slice_patch_of_disjoint (by omega)]
  | .staticVector elem capacity, a, f, hw, hs => by
      rw [Shape.Swappable] at hw
      rw [Shape.Sized] at hs
      rw [Shape.value, Shape.value, Shape.Symmetric, Value.vector.injEq,
        Shape.swapped_vector_size hw.1.laid, word_reverse_iff]
      refine and_congr_right fun hsame => ?_
      rw [hsame, List.map_inj_left]
      simp only [List.mem_range, Nat.min_eq_left hs.1]
      refine forall₂_congr fun i hi => ?_
      rw [← Shape.value_swapped_iff host ea elem _ f hw.1 (hs.2 i hi)]
      rw [Shape.value_congr host ea elem _ _ hw.1.laid
        (Shape.swapped_vector_elem hw.1.laid hw.2 f a (by omega) hi)]
  | .reflected size _ members, a, f, hw, hs => by
      rw [Shape.Swappable] at hw
      rw [Shape.Sized] at hs
      rw [Shape.swapped, Shape.value, Shape.value, Shape.Symmetric, Value.record.injEq,
        Members.values_swapped_iff host ea size members a f hw hs]
  | .other _ _, _, _, hw, _ => by rw [Shape.Swappable] at hw; exact hw.elim

theorem Members.values_swapped_iff (host ea : Endian) (size : Nat) :
    ∀ (ms : Members) (a : Nat) (f : Nat → UInt8), ms.Swappable size → ms.Sized host f a →
      (ms.values host ea (ms.swapped host a f) a = ms.values host ea f a ↔
        ms.Symmetric host f a)
  | .nil, _, _, _, _ => by simp only [Members.values, Members.Symmetric]
  | .cons off field rest, a, f, hw, hs => by
      rw [Members.Swappable] at hw
      obtain ⟨hfield, _, hav, hrest⟩ := hw
      rw [Members.Sized] at hs
      have hfirst := Shape.value_congr host ea field _ _ hfield.laid
        (@Members.swapped_avoid host size off field.size a rest
          (field.swapped host (a + off) f) hrest.laid hav)
      obtain ⟨hothers, -⟩ := @Members.values_outside host size off field.size a _ _ ea rest
        hrest.laid hav (@Members.swapped_outside host size off field.size a rest
          (field.swapped host (a + off) f) f hrest.laid hav
          ((Shape.swapped_local host field hfield.laid).frame _ f))
      rw [Members.swapped, Members.values, Members.values, Members.Symmetric,
        List.cons.injEq, hfirst, hothers,
        Shape.value_swapped_iff host ea field _ f hfield hs.1,
        Members.values_swapped_iff host ea size rest a f hrest hs.2]

end

/-- An element that both applications get to is one to which `portable_swap` is
applied twice by itself. -/
theorem Shape.swapped_twice_elem {host : Endian} {elem : Shape} {capacity i a : Nat}
    {f : Nat → UInt8} (helem : elem.Laid) (hcap : capacity < 2 ^ 32) (hi : i < capacity)
    (hlive : i < host.word (slice f (a + Shape.vectorSizeOff elem capacity) 4))
    (hback : i < host.word (slice f (a + Shape.vectorSizeOff elem capacity) 4).reverse) :
    let t := (Shape.staticVector elem capacity).swapped host a
    slice (t (t f)) (a + elem.size * i) elem.size =
      slice (elem.swapped host (a + elem.size * i) (elem.swapped host (a + elem.size * i) f))
        (a + elem.size * i) elem.size := by
  dsimp only
  rw [← Shape.swapped_vector_size helem f a] at hback
  rw [Shape.swapped_vector_elem helem hcap _ a hi hback]
  exact (Shape.swapped_local host elem helem).cells _ _ _ _
    (Shape.swapped_vector_elem helem hcap f a hi hlive)

/-- One that only the first gets to is swapped. -/
theorem Shape.swapped_once_elem {host : Endian} {elem : Shape} {capacity i a : Nat}
    {f : Nat → UInt8} (helem : elem.Laid) (hcap : capacity < 2 ^ 32) (hi : i < capacity)
    (hlive : i < host.word (slice f (a + Shape.vectorSizeOff elem capacity) 4))
    (hstop : host.word (slice f (a + Shape.vectorSizeOff elem capacity) 4).reverse ≤ i) :
    let t := (Shape.staticVector elem capacity).swapped host a
    slice (t (t f)) (a + elem.size * i) elem.size =
      slice (elem.swapped host (a + elem.size * i) f) (a + elem.size * i) elem.size := by
  dsimp only
  rw [← Shape.swapped_vector_size helem f a] at hstop
  rw [Shape.swapped_vector_rest helem hcap _ a hi hstop,
    Shape.swapped_vector_elem helem hcap f a hi hlive]

mutual

theorem Shape.value_swapped_twice_iff (host ea : Endian) :
    ∀ (sh : Shape) (a : Nat) (f : Nat → UInt8), sh.Swappable → sh.Sized host f a →
      (sh.value host ea (sh.swapped host a (sh.swapped host a f)) a =
        sh.value host ea f a ↔ sh.Reversible host f a)
  | .scalar size, a, f, _, _ => by
      simp only [Shape.swapped, Shape.value, Shape.Reversible, slice_swapCells,
        byteSwap_byteSwap]
  | .array _ _, a, f, _, _ => by simp only [Shape.swapped, Shape.Reversible]
  | .staticString capacity, a, f, _, _ => by
      have hoff := Shape.le_stringSizeOff capacity
      have hchars : ∀ n ≤ capacity, slice (swapCells 4 (a + Shape.stringSizeOff capacity)
          (swapCells 4 (a + Shape.stringSizeOff capacity) f)) a n = slice f a n := by
        intro n hn
        rw [swapCells, slice_patch_of_disjoint (by omega), swapCells,
          slice_patch_of_disjoint (by omega)]
      simp only [Shape.swapped, Shape.value, Shape.Reversible, slice_swapCells,
        byteSwap_byteSwap, hchars _ (Nat.min_le_right _ _)]
  | .staticVector elem capacity, a, f, hw, hs => by
      rw [Shape.Swappable] at hw
      rw [Shape.Sized] at hs
      rw [Shape.value, Shape.value, Shape.Reversible, Value.vector.injEq,
        Shape.swapped_vector_size hw.1.laid, Shape.swapped_vector_size hw.1.laid,
        List.reverse_reverse, and_iff_right rfl, List.map_inj_left]
      simp only [List.mem_range, Nat.min_eq_left hs.1]
      refine forall₂_congr fun i hi => ?_
      have hin : i < capacity := by omega
      split
      · next hback =>
          rw [← Shape.value_swapped_twice_iff host ea elem _ f hw.1 (hs.2 i hi)]
          rw [Shape.value_congr host ea elem _ _ hw.1.laid
            (Shape.swapped_twice_elem hw.1.laid hw.2 hin hi hback)]
      · next hstop =>
          rw [← Shape.value_swapped_iff host ea elem _ f hw.1 (hs.2 i hi)]
          rw [Shape.value_congr host ea elem _ _ hw.1.laid
            (Shape.swapped_once_elem hw.1.laid hw.2 hin hi (Nat.le_of_not_lt hstop))]
  | .reflected size _ members, a, f, hw, hs => by
      rw [Shape.Swappable] at hw
      rw [Shape.Sized] at hs
      rw [Shape.swapped, Shape.swapped, Shape.value, Shape.value, Shape.Reversible,
        Value.record.injEq, Members.values_swapped_twice_iff host ea size members a f hw hs]
  | .other _ _, _, _, hw, _ => by rw [Shape.Swappable] at hw; exact hw.elim

theorem Members.values_swapped_twice_iff (host ea : Endian) (size : Nat) :
    ∀ (ms : Members) (a : Nat) (f : Nat → UInt8), ms.Swappable size → ms.Sized host f a →
      (ms.values host ea (ms.swapped host a (ms.swapped host a f)) a =
        ms.values host ea f a ↔ ms.Reversible host f a)
  | .nil, _, _, _, _ => by simp only [Members.values, Members.Reversible]
  | .cons off field rest, a, f, hw, hs => by
      rw [Members.Swappable] at hw
      obtain ⟨hfield, _, hav, hrest⟩ := hw
      rw [Members.Sized] at hs
      have hlocal := Shape.swapped_local host field hfield.laid
      have hleave := @Members.swapped_avoid host size off field.size a rest
      have houtside := @Members.swapped_outside host size off field.size a rest
      generalize hg : rest.swapped host a (field.swapped host (a + off) f) = g
      -- The field is swapped twice by itself.
      have hcells : slice (field.swapped host (a + off) g) (a + off) field.size =
          slice (field.swapped host (a + off) (field.swapped host (a + off) f))
            (a + off) field.size := by
        refine hlocal.cells _ _ _ _ ?_
        rw [← hg]
        exact hleave _ hrest.laid hav
      have hfirst := Shape.value_congr host ea field _ _ hfield.laid
        ((hleave (field.swapped host (a + off) g) hrest.laid hav).trans hcells)
      -- And so are the others, as far as they can tell.
      have hstep : ∀ x, x < a + off ∨ a + off + field.size ≤ x →
          field.swapped host (a + off) g x = rest.swapped host a f x := by
        intro x hx
        rw [hlocal.frame _ g x hx, ← hg]
        exact houtside _ f hrest.laid hav (hlocal.frame _ f) x hx
      obtain ⟨hothers, -⟩ := @Members.values_outside host size off field.size a _ _ ea rest
        hrest.laid hav (houtside _ _ hrest.laid hav hstep)
      rw [Members.swapped, Members.swapped, hg, Members.values, Members.values,
        Members.Reversible, List.cons.injEq, hfirst, hothers,
        Shape.value_swapped_twice_iff host ea field _ f hfield hs.1,
        Members.values_swapped_twice_iff host ea size rest a f hrest hs.2]

end

theorem word_le_word_reverse (host : Endian) {xs : List UInt8} (hlen : xs.length = 4)
    (hlt : host.word xs < 65536) : host.word xs ≤ host.word xs.reverse := by
  rcases Nat.eq_zero_or_pos (host.word xs) with hzero | hpos
  · omega
  cases host with
  | little =>
      have hback : Endian.little.word xs.reverse = Endian.big.word xs := rfl
      have hlarge := big_word_ge hlen hpos hlt
      omega
  | big =>
      have hback : Endian.little.word xs.reverse = Endian.big.word xs := rfl
      rw [← hback] at hpos hlt ⊢
      have hlarge := @big_word_ge xs.reverse (by simpa using hlen) hpos hlt
      omega

mutual

/-- Where no vector has a capacity of 65536 or more every object comes back. -/
theorem Shape.WF.reversible {host : Endian} {f : Nat → UInt8} :
    ∀ {sh : Shape} {a : Nat}, sh.WF → sh.Sized host f a → sh.Reversible host f a
  | .scalar _, _, _, _ => by rw [Shape.Reversible]; trivial
  | .array _ _, _, _, _ => by rw [Shape.Reversible]; trivial
  | .staticString _, _, _, _ => by rw [Shape.Reversible]; trivial
  | .staticVector elem capacity, a, hw, hs => by
      rw [Shape.WF] at hw
      rw [Shape.Sized] at hs
      rw [Shape.Reversible]
      intro i hi
      have hback := word_le_word_reverse host
        (slice_length f (a + Shape.vectorSizeOff elem capacity) 4) (by omega)
      rw [if_pos (by omega)]
      exact hw.1.reversible (hs.2 i hi)
  | .reflected size _ members, a, hw, hs => by
      rw [Shape.WF] at hw
      rw [Shape.Sized] at hs
      rw [Shape.Reversible]
      exact hw.reversible hs
  | .other _ _, _, _, _ => by rw [Shape.Reversible]; trivial

theorem Members.WF.reversible {host : Endian} {f : Nat → UInt8} {size : Nat} :
    ∀ {ms : Members} {a : Nat}, ms.WF size → ms.Sized host f a → ms.Reversible host f a
  | .nil, _, _, _ => by rw [Members.Reversible]; trivial
  | .cons _ _ _, _, hw, hs => by
      rw [Members.WF] at hw
      rw [Members.Sized] at hs
      rw [Members.Reversible]
      exact ⟨hw.1.reversible hs.1, hw.2.2.2.reversible hs.2⟩

end

/-! ## The program twice -/

theorem run_portableSwap_twice (host : Endian) (shape : Shape) (val : Ptr) (m : Mem) :
    (do
      portableSwap host shape val
      portableSwap host shape val : Code Unit).run Mem.machine m =
      ((), { m with byte :=
        shape.swapped host val.off (shape.swapped host val.off m.byte) }) := by
  rw [Prog.run_bind, run_portableSwap, run_portableSwap]

/-- **When `portable_swap` undoes itself.** Applied twice it restores every scalar,
every string, and every vector's size and elements, exactly where of every live
vector the elements from `bswap32(size_)` on are the same in either byte order. -/
theorem portable_swap_involutive_iff (host : Endian) (shape : Shape) (hw : shape.Swappable)
    (val : Ptr) (m : Mem) (hsized : shape.Sized host m.byte val.off) :
    let twice := (do
      portableSwap host shape val
      portableSwap host shape val : Code Unit).run Mem.machine m
    shape.value host host twice.2.byte val.off = shape.value host host m.byte val.off ↔
      shape.Reversible host m.byte val.off := by
  dsimp only
  rw [run_portableSwap_twice]
  exact Shape.value_swapped_twice_iff host host shape val.off m.byte hw hsized

/-- A struct of a `uint32_t`, a `StaticString<16>` and a `StaticVector<float, 4>`. -/
def telemetryShape : Shape :=
  .reflected 48 4 <|
    .cons 0 (.scalar 4) <|
    .cons 4 (.staticString 16) <|
    .cons 28 (.staticVector (.scalar 4) 4) .nil

theorem telemetryShape_wf : telemetryShape.WF := by
  simp [telemetryShape, Shape.WF, Members.WF, Members.Avoid, Shape.size, roundUp,
    Shape.align]

theorem telemetryShape_swappable : telemetryShape.Swappable := by
  simp [telemetryShape, Shape.Swappable, Members.Swappable, Members.Avoid, Shape.size,
    roundUp, Shape.align]

/-- A memory with three elements in the vector. -/
def threeVoltages : Mem where
  byte a := if a < 44 then UInt8.ofNat a else if a = 44 then 3 else 0
  word _ := 0
  visits := []

theorem telemetryShape_sized : telemetryShape.Sized .little threeVoltages.byte 0 := by
  have hsize : slice threeVoltages.byte (0 + 28 + Shape.vectorSizeOff (.scalar 4) 4) 4 =
      [3, 0, 0, 0] := by decide +kernel
  simp only [telemetryShape, Shape.Sized, Members.Sized, hsize, and_true, true_and,
    implies_true]
  decide

theorem portable_swap_involutive_iff_telemetry :
    let twice := (do
      portableSwap .little telemetryShape ⟨0x1000, 0⟩
      portableSwap .little telemetryShape ⟨0x1000, 0⟩ : Code Unit).run Mem.machine
        threeVoltages
    telemetryShape.value .little .little twice.2.byte 0 =
      telemetryShape.value .little .little threeVoltages.byte 0 :=
  (portable_swap_involutive_iff .little telemetryShape telemetryShape_swappable
    ⟨0x1000, 0⟩ threeVoltages telemetryShape_sized).mpr
      (telemetryShape_wf.reversible telemetryShape_sized)

/-- A `StaticVector<uint16_t, 65536>` that is full, on a little-endian host: element
256 is 1 and the others are zero. -/
def fullVector : Mem where
  byte a := if a = 512 ∨ a = 131074 then 1 else 0
  word _ := 0
  visits := []

/-- The size is 256 backwards, and element 256 comes back as 256. -/
theorem portable_swap_not_involutive :
    let shape := Shape.staticVector (.scalar 2) 65536
    let twice := (do
      portableSwap .little shape ⟨0x1000, 0⟩
      portableSwap .little shape ⟨0x1000, 0⟩ : Code Unit).run Mem.machine fullVector
    shape.Swappable ∧ shape.Sized .little fullVector.byte 0 ∧
      shape.value .little .little twice.2.byte 0 ≠
        shape.value .little .little fullVector.byte 0 := by
  have hsize : slice fullVector.byte (0 + Shape.vectorSizeOff (.scalar 2) 65536) 4 =
      [0, 0, 1, 0] := by decide +kernel
  have hswappable : (Shape.staticVector (.scalar 2) 65536).Swappable := by
    simp [Shape.Swappable]
  have hsized : (Shape.staticVector (.scalar 2) 65536).Sized .little fullVector.byte 0 := by
    rw [Shape.Sized, hsize]
    refine ⟨by decide, fun i _ => ?_⟩
    rw [Shape.Sized]
    trivial
  refine ⟨hswappable, hsized, fun hsame => ?_⟩
  rw [run_portableSwap_twice] at hsame
  have hback := (Shape.value_swapped_twice_iff .little .little _ 0 fullVector.byte
    hswappable hsized).mp hsame
  rw [Shape.Reversible, hsize] at hback
  have helem := hback 256 (by decide)
  rw [if_neg (by decide), Shape.Symmetric] at helem
  revert helem
  decide +kernel

end Sinew
