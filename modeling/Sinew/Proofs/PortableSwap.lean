import Sinew.Proofs.Wire
import Sinew.Model.Portable

/-!
# What `portable_swap` does to an object

Run alone, `portable_swap` is a transformer of the object's bytes: `swapped`
is that transformer, shape by shape. It is `Local`, which is most of what the
containers and structs need, since elements and members are swapped one after
the other and must not disturb each other.

The one theorem of substance is `swapped_value`: on a big-endian host, an
object whose fields are in one byte order holds the same value in the other
order afterwards. It is one statement for both directions. In one of them the
element loop of a vector reads a size that is already in host order; in the
other it reads it backwards, and what saves the loop is that a size below 2^16
read backwards is either zero or larger than any capacity, so that the loop
covers at least the elements there are.
-/

namespace Sinew

open Lib

def swapElems (body : Nat → (Nat → UInt8) → Nat → UInt8) (stride : Nat) :
    Nat → Nat → (Nat → UInt8) → Nat → UInt8
  | 0, _, f => f
  | count + 1, a, f => swapElems body stride count (a + stride) (body a f)

/-- `byte_swap` of the `n` bytes at `a`, on memory. -/
def swapCells (n a : Nat) (f : Nat → UInt8) : Nat → UInt8 :=
  patch f a (byteSwap (slice f a n))

/-- The bound of a vector's element loop, from the size field as it is read. -/
def swapCount (size : UInt32) (capacity : Nat) : Nat :=
  (if size ≤ UInt32.ofNat capacity then size else UInt32.ofNat capacity).toNat

mutual

def Shape.swapped (host : Endian) :
    Shape → Nat → (Nat → UInt8) → Nat → UInt8
  | .scalar size, a, f => swapCells size a f
  | .staticString capacity, a, f =>
      swapCells 4 (a + Shape.stringSizeOff capacity) f
  | .staticVector elem capacity, a, f =>
      swapCells 4 (a + Shape.vectorSizeOff elem capacity)
        (swapElems (elem.swapped host) elem.size
          (swapCount (u32At host f (a + Shape.vectorSizeOff elem capacity)) capacity)
          a f)
  | .reflected _ _ members, a, f => members.swapped host a f
  | .array _ _, _, f => f
  | .other _ _, _, f => f

def Members.swapped (host : Endian) :
    Members → Nat → (Nat → UInt8) → Nat → UInt8
  | .nil, _, f => f
  | .cons off field rest, a, f =>
      rest.swapped host a (field.swapped host (a + off) f)

end

@[simp] theorem byteSwap_length (xs : List UInt8) :
    (byteSwap xs).length = xs.length := by
  unfold byteSwap
  split <;> simp

theorem byteSwap_one {xs : List UInt8} (h : xs.length ≤ 1) : byteSwap xs = xs := by
  unfold byteSwap
  rw [if_neg (by omega)]

theorem run_swapField (m : Mem) (p : Ptr) (n : Nat) :
    (swapField p n).run Mem.machine m =
      ((), { m with byte := swapCells n p.off m.byte }) := by
  simp [swapField, swapCells, Mem.write]

theorem run_forElems {body : Ptr → Code Unit}
    {t : Nat → (Nat → UInt8) → Nat → UInt8}
    (hbody : ∀ p m, (body p).run Mem.machine m =
      ((), { m with byte := t p.off m.byte })) (stride : Nat) :
    ∀ (count : Nat) (p : Ptr) (m : Mem),
      (forElems body stride count p).run Mem.machine m =
        ((), { m with byte := swapElems t stride count p.off m.byte }) := by
  intro count
  induction count with
  | zero => intro p m; rfl
  | succ count ih =>
      intro p m
      rw [forElems, Prog.run_bind, hbody, ih]
      rfl

mutual

theorem run_portableSwap (host : Endian) :
    ∀ (sh : Shape) (p : Ptr) (m : Mem),
      (portableSwap host sh p).run Mem.machine m =
        ((), { m with byte := sh.swapped host p.off m.byte })
  | .scalar size, p, m => by
      rw [portableSwap, Shape.swapped]
      split
      · exact run_swapField m p size
      · next h =>
          rw [swapCells, byteSwap_one (by rw [slice_length]; omega), patch_slice]
          rfl
  | .staticString capacity, p, m => by
      rw [portableSwap, Shape.swapped]
      exact run_swapField m _ 4
  | .staticVector elem capacity, p, m => by
      rw [portableSwap, Shape.swapped, Prog.run_bind, run_load32, Prog.run_bind,
        run_forElems (fun p m => run_portableSwap host elem p m), run_swapField]
      rfl
  | .reflected _ _ members, p, m => by
      rw [portableSwap, Shape.swapped]
      exact run_portableSwapMembers host members p m
  | .array _ _, p, m => by rw [portableSwap, Shape.swapped]; rfl
  | .other _ _, p, m => by rw [portableSwap, Shape.swapped]; rfl

theorem run_portableSwapMembers (host : Endian) :
    ∀ (ms : Members) (p : Ptr) (m : Mem),
      (portableSwapMembers host ms p).run Mem.machine m =
        ((), { m with byte := ms.swapped host p.off m.byte })
  | .nil, p, m => by rw [portableSwapMembers, Members.swapped]; rfl
  | .cons off field rest, p, m => by
      rw [portableSwapMembers, Members.swapped, Prog.run_bind,
        run_portableSwap host field, run_portableSwapMembers host rest]
      rfl

end

theorem Shape.le_stringSizeOff (capacity : Nat) :
    capacity + 1 ≤ Shape.stringSizeOff capacity := le_roundUp _ (by omega)

theorem Shape.le_vectorSizeOff (elem : Shape) (capacity : Nat) :
    elem.size * capacity ≤ Shape.vectorSizeOff elem capacity :=
  le_roundUp _ (by omega)

theorem Shape.vectorSizeOff_lt (elem : Shape) (capacity : Nat) :
    Shape.vectorSizeOff elem capacity + 4 ≤
      (Shape.staticVector elem capacity).size := by
  rw [Shape.size]
  exact le_roundUp _ (by omega)

theorem swapCount_le (size : UInt32) (capacity : Nat) :
    swapCount size capacity ≤ capacity := by
  have hcap : (UInt32.ofNat capacity).toNat ≤ capacity := by
    rw [UInt32.toNat_ofNat']
    exact Nat.mod_le _ _
  unfold swapCount
  split
  · next h => exact Nat.le_trans (UInt32.le_iff_toNat_le.mp h) hcap
  · exact hcap

theorem swapCells_local (n : Nat) : Local n (swapCells n) :=
  local_patch byteSwap byteSwap_length

theorem swapElems_local {t : Nat → (Nat → UInt8) → Nat → UInt8} {stride : Nat}
    (ht : Local stride t) :
    ∀ count, Local (stride * count) (swapElems t stride count) := by
  intro count
  induction count with
  | zero => exact Local.id
  | succ count ih =>
      have hfirst : Local (stride * (count + 1)) t := ht.within (d := 0) (by
        rw [Nat.mul_succ]; omega)
      exact hfirst.comp (ih.within (d := stride) (by rw [Nat.mul_succ]; omega))

mutual

theorem Shape.WF.laid : ∀ {sh : Shape}, sh.WF → sh.Laid
  | .scalar _, _ => by rw [Shape.Laid]; trivial
  | .array _ _, _ => by rw [Shape.Laid]; trivial
  | .staticString _, _ => by rw [Shape.Laid]; trivial
  | .staticVector elem _, h => by
      rw [Shape.WF] at h
      rw [Shape.Laid]
      exact h.1.laid
  | .reflected size _ members, h => by
      rw [Shape.WF] at h
      rw [Shape.Laid]
      exact h.laid
  | .other _ _, h => by rw [Shape.WF] at h; exact h.elim

theorem Members.WF.laid {size : Nat} : ∀ {ms : Members}, ms.WF size → ms.Laid size
  | .nil, _ => by rw [Members.Laid]; trivial
  | .cons _ _ _, h => by
      rw [Members.WF] at h
      rw [Members.Laid]
      exact ⟨h.1.laid, h.2.1, h.2.2.2.laid⟩

end

mutual

theorem Shape.swapped_local (host : Endian) :
    ∀ (sh : Shape), sh.Laid → Local sh.size (sh.swapped host)
  | .scalar size, _ => by
      simpa only [Shape.size, Shape.swapped] using swapCells_local size
  | .staticString capacity, _ =>
      (swapCells_local 4).within (d := Shape.stringSizeOff capacity)
        (Nat.le_refl _)
  | .staticVector elem capacity, h => by
      have helem := Shape.swapped_local host elem (by rwa [Shape.Laid] at h)
      have hoff := Shape.le_vectorSizeOff elem capacity
      have hend := Shape.vectorSizeOff_lt elem capacity
      -- The element loop's bound is read from the object, so it is the same
      -- for two objects of the same bytes.
      have hfix : ∀ size : UInt32, Local (Shape.staticVector elem capacity).size
          fun a f => swapCells 4 (a + Shape.vectorSizeOff elem capacity)
            (swapElems (elem.swapped host) elem.size (swapCount size capacity) a f) := by
        intro size
        have hle := Nat.mul_le_mul_left elem.size (swapCount_le size capacity)
        exact ((swapElems_local helem _).within (d := 0) (by omega)).comp
          ((swapCells_local 4).within (by omega))
      refine ⟨fun a f x hx => (hfix _).frame a f x hx, fun a b f g hfg => ?_⟩
      have hsize : u32At host f (a + Shape.vectorSizeOff elem capacity) =
          u32At host g (b + Shape.vectorSizeOff elem capacity) :=
        u32At_congr host (slice_part hfg hend)
      simp only [Shape.swapped, hsize]
      exact (hfix _).cells a b f g hfg
  | .reflected size _ members, h => by
      rw [Shape.Laid] at h
      exact Members.swapped_local host size members h
  | .array _ _, _ => Local.id
  | .other _ _, _ => Local.id

theorem Members.swapped_local (host : Endian) (size : Nat) :
    ∀ (ms : Members), ms.Laid size → Local size (ms.swapped host)
  | .nil, _ => Local.id
  | .cons off field rest, h => by
      rw [Members.Laid] at h
      obtain ⟨hfield, hoff, hrest⟩ := h
      exact ((Shape.swapped_local host field hfield).within hoff).comp
        (Members.swapped_local host size rest hrest)

end

/-! ## Reading an object

The value, the size bounds and the palindrome condition all read nothing but
the object. -/

section Congr

variable {f g : Nat → UInt8}

theorem mul_add_le {k n i : Nat} (h : i < n) : k * i + k ≤ k * n := by
  rw [← Nat.mul_succ]
  exact Nat.mul_le_mul_left k h

theorem Shape.vectorElem_le {elem : Shape} {capacity i : Nat} (h : i < capacity) :
    elem.size * i + elem.size ≤ (Shape.staticVector elem capacity).size := by
  have h1 := mul_add_le (k := elem.size) h
  have h2 := Shape.le_vectorSizeOff elem capacity
  have h3 := Shape.vectorSizeOff_lt elem capacity
  omega

mutual

theorem Shape.value_congr (host ea : Endian) :
    ∀ (sh : Shape) (a b : Nat), sh.Laid → slice f a sh.size = slice g b sh.size →
      sh.value host ea f a = sh.value host ea g b
  | .scalar size, a, b, _, h => by
      rw [Shape.size] at h
      rw [Shape.value, Shape.value, h]
  | .array size count, a, b, _, h => by
      rw [Shape.size] at h
      rw [Shape.value, Shape.value]
      congr 1
      refine List.map_congr_left fun i hi => ?_
      rw [slice_part h (mul_add_le (List.mem_range.mp hi))]
  | .staticString capacity, a, b, _, h => by
      rw [Shape.size] at h
      have hoff := Shape.le_stringSizeOff capacity
      have hsize := slice_part h (d := Shape.stringSizeOff capacity) (Nat.le_refl _)
      rw [Shape.value, Shape.value, hsize]
      have hchars : ∀ n, n ≤ capacity → slice f a n = slice g b n := fun n hn =>
        slice_part h (d := 0) (by
          rw [Shape.stringSizeOff] at hoff
          omega)
      rw [hchars _ (Nat.min_le_right _ _)]
  | .staticVector elem capacity, a, b, hw, h => by
      rw [Shape.Laid] at hw
      rw [Shape.value, Shape.value,
        slice_part h (Shape.vectorSizeOff_lt elem capacity)]
      congr 1
      refine List.map_congr_left fun i hi => ?_
      have hi' := List.mem_range.mp hi
      exact Shape.value_congr host ea elem _ _ hw
        (slice_part h (Shape.vectorElem_le (by omega)))
  | .reflected size _ members, a, b, hw, h => by
      rw [Shape.Laid] at hw
      rw [Shape.value, Shape.value,
        Members.values_congr host ea size members a b hw h]
  | .other _ _, _, _, _, _ => by rw [Shape.value, Shape.value]

theorem Members.values_congr (host ea : Endian) (size : Nat) :
    ∀ (ms : Members) (a b : Nat), ms.Laid size → slice f a size = slice g b size →
      ms.values host ea f a = ms.values host ea g b
  | .nil, _, _, _, _ => by rw [Members.values, Members.values]
  | .cons off field rest, a, b, hw, h => by
      rw [Members.Laid] at hw
      obtain ⟨hfield, hoff, hrest⟩ := hw
      rw [Members.values, Members.values,
        Shape.value_congr host ea field _ _ hfield (slice_part h hoff),
        Members.values_congr host ea size rest a b hrest h]

end

mutual

theorem Shape.sized_congr (host : Endian) :
    ∀ (sh : Shape) (a b : Nat), sh.Laid → slice f a sh.size = slice g b sh.size →
      sh.Sized host f a → sh.Sized host g b
  | .scalar _, _, _, _, _, _ => by rw [Shape.Sized]; trivial
  | .array _ _, _, _, _, _, _ => by rw [Shape.Sized]; trivial
  | .staticString _, _, _, _, _, _ => by rw [Shape.Sized]; trivial
  | .staticVector elem capacity, a, b, hw, h, hs => by
      rw [Shape.Laid] at hw
      rw [Shape.Sized] at hs ⊢
      rw [← slice_part h (Shape.vectorSizeOff_lt elem capacity)]
      refine ⟨hs.1, fun i hi => ?_⟩
      exact Shape.sized_congr host elem _ _ hw
        (slice_part h (Shape.vectorElem_le (by omega))) (hs.2 i hi)
  | .reflected size _ members, a, b, hw, h, hs => by
      rw [Shape.Laid] at hw
      rw [Shape.Sized] at hs ⊢
      exact Members.sized_congr host size members a b hw h hs
  | .other _ _, _, _, _, _, _ => by rw [Shape.Sized]; trivial

theorem Members.sized_congr (host : Endian) (size : Nat) :
    ∀ (ms : Members) (a b : Nat), ms.Laid size → slice f a size = slice g b size →
      ms.Sized host f a → ms.Sized host g b
  | .nil, _, _, _, _, _ => by rw [Members.Sized]; trivial
  | .cons off field rest, a, b, hw, h, hs => by
      rw [Members.Laid] at hw
      rw [Members.Sized] at hs ⊢
      exact ⟨Shape.sized_congr host field _ _ hw.1 (slice_part h hw.2.1) hs.1,
        Members.sized_congr host size rest a b hw.2.2 h hs.2⟩

end

end Congr

/-! ## The value survives in the other byte order -/

theorem word_byteSwap {o o' : Endian} (hne : o ≠ o') {xs : List UInt8}
    (h : xs.length = 1 ∨ xs.length = 2 ∨ xs.length = 4 ∨ xs.length = 8) :
    o'.word (byteSwap xs) = o.word xs := by
  have hrev : o'.word xs.reverse = o.word xs := by
    cases o <;> cases o' <;> simp_all [Endian.word]
  rcases h with h | h
  · obtain ⟨x, rfl⟩ := List.length_eq_one_iff.mp h
    rw [byteSwap_one (by simp)]
    exact hrev
  · rw [byteSwap, if_pos h, hrev]

/-- Element `i` of the loop comes out as if it had been swapped alone. -/
theorem swapElems_cells {t : Nat → (Nat → UInt8) → Nat → UInt8} {stride : Nat}
    (ht : Local stride t) :
    ∀ (count a : Nat) (f : Nat → UInt8) (i : Nat), i < count →
      slice (swapElems t stride count a f) (a + stride * i) stride =
        slice (t (a + stride * i) f) (a + stride * i) stride := by
  intro count
  induction count with
  | zero => intro a f i hi; omega
  | succ count ih =>
      intro a f i hi
      rw [swapElems]
      cases i with
      | zero =>
          rw [Nat.mul_zero, Nat.add_zero]
          exact slice_congr fun x _ hx =>
            (swapElems_local ht count).frame _ _ x (.inl hx)
      | succ i =>
          rw [Nat.mul_succ, Nat.add_comm (stride * i) stride, ← Nat.add_assoc,
            ih (a + stride) (t a f) i (by omega)]
          refine ht.cells _ _ _ _ (slice_congr fun x hx _ => ?_)
          exact ht.frame a f x (.inr (by omega))

/-- A 16-bit size read backwards in 32 bits is zero or large. -/
theorem big_word_ge {xs : List UInt8} (hlen : xs.length = 4)
    (hpos : 0 < Endian.little.word xs) (hlt : Endian.little.word xs < 65536) :
    65536 ≤ Endian.big.word xs := by
  match xs, hlen with
  | [b₀, b₁, b₂, b₃], _ =>
      simp only [Endian.word, ofLeBytes, List.reverse_cons, List.reverse_nil,
        List.nil_append, List.cons_append] at hpos hlt ⊢
      have h₂ : b₂.toNat = 0 := by omega
      have h₃ : b₃.toNat = 0 := by omega
      omega

theorem swapCount_eq (host : Endian) {f : Nat → UInt8} {a capacity : Nat}
    (hcap : capacity < 2 ^ 32) :
    swapCount (u32At host f a) capacity = min (host.word (slice f a 4)) capacity := by
  have hcap' : (UInt32.ofNat capacity).toNat = capacity := by
    rw [UInt32.toNat_ofNat']
    exact Nat.mod_eq_of_lt hcap
  unfold swapCount
  split
  · next hle =>
      rw [UInt32.le_iff_toNat_le, hcap', toNat_u32At] at hle
      rw [toNat_u32At, Nat.min_eq_left hle]
  · next hgt =>
      rw [UInt32.le_iff_toNat_le, hcap', toNat_u32At] at hgt
      rw [hcap']
      exact (Nat.min_eq_right (by omega)).symm

/-- In either direction the element loop reaches every element there is. -/
theorem le_swapCount (o : Endian) {f : Nat → UInt8} {a capacity : Nat}
    (hcap : capacity < 65536) (hn : o.word (slice f a 4) ≤ capacity) :
    o.word (slice f a 4) ≤ swapCount (u32At .big f a) capacity := by
  rw [swapCount_eq .big (by omega)]
  refine Nat.le_min.mpr ⟨?_, hn⟩
  cases o with
  | big => exact Nat.le_refl _
  | little =>
      rcases Nat.eq_zero_or_pos (Endian.little.word (slice f a 4)) with h | h
      · omega
      · have := big_word_ge (slice_length f a 4) h (by omega)
        omega

section Outside

variable {host o : Endian} {size lo n a : Nat} {f g : Nat → UInt8}

theorem Members.swapped_avoid : ∀ (ms : Members) (f : Nat → UInt8), ms.Laid size →
    ms.Avoid lo n → slice (ms.swapped host a f) (a + lo) n = slice f (a + lo) n
  | .nil, f, _, _ => by rw [Members.swapped]
  | .cons off field rest, f, hw, hav => by
      rw [Members.Laid] at hw
      rw [Members.Avoid] at hav
      rw [Members.swapped, Members.swapped_avoid rest _ hw.2.2 hav.2]
      refine slice_congr fun x _ _ => ?_
      exact (Shape.swapped_local host field hw.1).frame _ _ x (by omega)

/-- What becomes of the rest of an object does not depend on the field. -/
theorem Members.swapped_outside : ∀ (ms : Members) (f g : Nat → UInt8), ms.Laid size →
    ms.Avoid lo n → (∀ x, x < a + lo ∨ a + lo + n ≤ x → f x = g x) →
    ∀ x, x < a + lo ∨ a + lo + n ≤ x → ms.swapped host a f x = ms.swapped host a g x
  | .nil, f, g, _, _, hfg, x, hx => by
      rw [Members.swapped, Members.swapped]
      exact hfg x hx
  | .cons off field rest, f, g, hw, hav, hfg, x, hx => by
      rw [Members.Laid] at hw
      rw [Members.Avoid] at hav
      rw [Members.swapped, Members.swapped]
      refine Members.swapped_outside rest _ _ hw.2.2 hav.2 (fun y hy => ?_) x hx
      have hlocal := Shape.swapped_local host field hw.1
      by_cases hin : a + off ≤ y ∧ y < a + off + field.size
      · exact slice_inj (hlocal.cells _ _ f g
          (slice_congr fun z _ _ => hfg z (by omega))) y hin.1 hin.2
      · rw [hlocal.frame _ f y (by omega), hlocal.frame _ g y (by omega)]
        exact hfg y hy

/-- Nor does what the rest says. -/
theorem Members.values_outside (ea : Endian) : ∀ (ms : Members), ms.Laid size →
    ms.Avoid lo n → (∀ x, x < a + lo ∨ a + lo + n ≤ x → f x = g x) →
    ms.values o ea f a = ms.values o ea g a ∧ (ms.Sized o f a → ms.Sized o g a)
  | .nil, _, _, _ => by
      simp only [Members.values, Members.Sized, true_and]
      exact fun h => h
  | .cons off field rest, hw, hav, hfg => by
      rw [Members.Laid] at hw
      rw [Members.Avoid] at hav
      have hsame : slice f (a + off) field.size = slice g (a + off) field.size :=
        slice_congr fun x _ _ => hfg x (by omega)
      obtain ⟨hvals, hsized⟩ := Members.values_outside ea rest hw.2.2 hav.2 hfg
      rw [Members.values, Members.values, hvals, Shape.value_congr o ea field _ _ hw.1 hsame]
      refine ⟨rfl, fun h => ?_⟩
      rw [Members.Sized] at h ⊢
      exact ⟨Shape.sized_congr o field _ _ hw.1 hsame h.1, hsized h.2⟩

end Outside

mutual

/-- On a big-endian host, `portable_swap` turns an object in one byte order
into the same value in the other. C arrays keep the order they were in. -/
theorem Shape.swapped_value {o o' : Endian} (hne : o ≠ o') (ea : Endian) :
    ∀ (sh : Shape) (a : Nat) (f : Nat → UInt8), sh.WF → sh.Sized o f a →
      sh.value o' ea (sh.swapped .big a f) a = sh.value o ea f a
  | .scalar size, a, f, hw, _ => by
      rw [Shape.WF] at hw
      rw [Shape.swapped, Shape.value, Shape.value, swapCells,
        slice_patch_eq (by simp), word_byteSwap hne (by simpa using hw)]
  | .array _ _, a, f, _, _ => by rw [Shape.swapped, Shape.value, Shape.value]
  | .staticString capacity, a, f, _, _ => by
      have hoff := Shape.le_stringSizeOff capacity
      rw [Shape.swapped, Shape.value, Shape.value, swapCells,
        slice_patch_eq (by simp), word_byteSwap hne (by simp)]
      rw [slice_patch_of_disjoint (by omega)]
  | .staticVector elem capacity, a, f, hw, hs => by
      rw [Shape.WF] at hw
      rw [Shape.Sized] at hs
      obtain ⟨hle, helems⟩ := hs
      have hoff := Shape.le_vectorSizeOff elem capacity
      have hlocal := Shape.swapped_local .big elem hw.1.laid
      have hcover := le_swapCount o hw.2 hle
      have hcount := Nat.mul_le_mul_left elem.size
        (swapCount_le (u32At .big f (a + Shape.vectorSizeOff elem capacity)) capacity)
      rw [Shape.swapped, Shape.value, Shape.value, swapCells]
      generalize swapCount _ capacity = count at hcover hcount ⊢
      generalize hg : swapElems (elem.swapped .big) elem.size count a f = g
      have hsize : slice g (a + Shape.vectorSizeOff elem capacity) 4 =
          slice f (a + Shape.vectorSizeOff elem capacity) 4 := by
        rw [← hg]
        exact slice_congr fun x _ _ =>
          (swapElems_local hlocal count).frame a f x (by omega)
      rw [slice_patch_eq (by simp), word_byteSwap hne (by simp), hsize]
      congr 1
      refine List.map_congr_left fun i hi => ?_
      have hi' := List.mem_range.mp hi
      have hin := mul_add_le (k := elem.size) (show i < capacity by omega)
      rw [← Shape.swapped_value hne ea elem _ f hw.1 (helems i (by omega))]
      refine Shape.value_congr o' ea elem _ _ hw.1.laid ?_
      rw [slice_patch_of_disjoint (by omega), ← hg]
      exact swapElems_cells hlocal count a f i (by omega)
  | .reflected size _ members, a, f, hw, hs => by
      rw [Shape.WF] at hw
      rw [Shape.Sized] at hs
      rw [Shape.swapped, Shape.value, Shape.value,
        Members.swapped_values hne ea size members a f hw hs]
  | .other _ _, _, _, hw, _ => by rw [Shape.WF] at hw; exact hw.elim

theorem Members.swapped_values {o o' : Endian} (hne : o ≠ o') (ea : Endian)
    (size : Nat) :
    ∀ (ms : Members) (a : Nat) (f : Nat → UInt8), ms.WF size → ms.Sized o f a →
      ms.values o' ea (ms.swapped .big a f) a = ms.values o ea f a
  | .nil, _, _, _, _ => by rw [Members.values, Members.values]
  | .cons off field rest, a, f, hw, hs => by
      rw [Members.WF] at hw
      obtain ⟨hfield, _, hav, hrest⟩ := hw
      rw [Members.Sized] at hs
      obtain ⟨hvals, hsz⟩ := @Members.values_outside o size off field.size a f _ ea rest
        hrest.laid hav fun x hx =>
          ((Shape.swapped_local .big field hfield.laid).frame _ f x hx).symm
      rw [Members.swapped, Members.values, Members.values,
        Members.swapped_values hne ea size rest a _ hrest (hsz hs.2), ← hvals,
        ← Shape.swapped_value hne ea field (a + off) f hfield hs.1]
      congr 1
      exact Shape.value_congr o' ea field _ _ hfield.laid
        (Members.swapped_avoid rest _ hrest.laid hav)

end

mutual

/-- Reading the C arrays in one order or the other makes a difference exactly
where an element is not the same backwards. -/
theorem Shape.value_arrays_iff (host : Endian) (f : Nat → UInt8) :
    ∀ (sh : Shape) (a : Nat),
      sh.value host .little f a = sh.value host .big f a ↔ sh.Palindromic host f a
  | .scalar _, _ => by simp only [Shape.value, Shape.Palindromic]
  | .array size count, a => by
      simp only [Shape.value, Shape.Palindromic, Value.array.injEq,
        List.map_inj_left, List.mem_range, Endian.little_word_eq_big]
  | .staticString _, _ => by simp only [Shape.value, Shape.Palindromic]
  | .staticVector elem capacity, a => by
      simp only [Shape.value, Shape.Palindromic, Value.vector.injEq, true_and,
        List.map_inj_left, List.mem_range, Shape.value_arrays_iff host f elem]
  | .reflected _ _ members, a => by
      simp only [Shape.value, Shape.Palindromic, Value.record.injEq,
        Members.values_arrays_iff host f members]
  | .other _ _, _ => by simp only [Shape.value, Shape.Palindromic]

theorem Members.values_arrays_iff (host : Endian) (f : Nat → UInt8) :
    ∀ (ms : Members) (a : Nat),
      ms.values host .little f a = ms.values host .big f a ↔ ms.Palindromic host f a
  | .nil, _ => by simp only [Members.values, Members.Palindromic]
  | .cons off field rest, a => by
      simp only [Members.values, Members.Palindromic, List.cons.injEq,
        Shape.value_arrays_iff host f field, Members.values_arrays_iff host f rest]

end

mutual

theorem Shape.sized_of_value {o o' ea ea' : Endian} {f g : Nat → UInt8} :
    ∀ (sh : Shape) (a b : Nat), sh.value o ea f a = sh.value o' ea' g b →
      sh.Sized o f a → sh.Sized o' g b
  | .scalar _, _, _, _, _ => by rw [Shape.Sized]; trivial
  | .array _ _, _, _, _, _ => by rw [Shape.Sized]; trivial
  | .staticString _, _, _, _, _ => by rw [Shape.Sized]; trivial
  | .staticVector elem capacity, a, b, h, hs => by
      rw [Shape.value, Shape.value, Value.vector.injEq] at h
      obtain ⟨hsize, helems⟩ := h
      rw [Shape.Sized] at hs ⊢
      rw [← hsize] at helems ⊢
      rw [List.map_inj_left] at helems
      refine ⟨hs.1, fun i hi => ?_⟩
      exact Shape.sized_of_value elem _ _
        (helems i (List.mem_range.mpr (by omega))) (hs.2 i hi)
  | .reflected _ _ members, a, b, h, hs => by
      rw [Shape.value, Shape.value, Value.record.injEq] at h
      rw [Shape.Sized] at hs ⊢
      exact Members.sized_of_values members a b h hs
  | .other _ _, _, _, _, _ => by rw [Shape.Sized]; trivial

theorem Members.sized_of_values {o o' ea ea' : Endian} {f g : Nat → UInt8} :
    ∀ (ms : Members) (a b : Nat), ms.values o ea f a = ms.values o' ea' g b →
      ms.Sized o f a → ms.Sized o' g b
  | .nil, _, _, _, _ => by rw [Members.Sized]; trivial
  | .cons off field rest, a, b, h, hs => by
      rw [Members.values, Members.values, List.cons.injEq] at h
      rw [Members.Sized] at hs ⊢
      exact ⟨Shape.sized_of_value field _ _ h.1 hs.1,
        Members.sized_of_values rest a b h.2 hs.2⟩

end

end Sinew
