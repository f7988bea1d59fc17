import Sinew.Model.Objects
import Sinew.Proofs.Leftover

/-!
# Members of a message, edited in place

A member is a count and some cells; padding apart, its bytes are those of the
two. What a program does to a member in a payload is what it does to the
contents, and to what the calls before have left in the cells: `Track` follows
both through the edits, without a payload.
-/

namespace Sinew

open Lib

theorem ElemType.read_write (E : ElemType) (x : E.Object) (f : Nat → UInt8) (a : Nat) :
    E.read (E.write x f a) a = x := by
  funext i
  have howns : a ≤ a + i.1 ∧ E.owns (a + i.1 - a) = true :=
    ⟨Nat.le_add_right .., by rw [Nat.add_sub_cancel_left]; exact i.2⟩
  rw [read, write, dif_pos howns]
  exact congrArg x (Subtype.ext (Nat.add_sub_cancel_left ..))

theorem ElemType.read_congr {E : ElemType} {f g : Nat → UInt8} {a b : Nat} :
    E.read f a = E.read g b ↔ ∀ i, E.owns i = true → f (a + i) = g (b + i) := by
  constructor
  · intro h i hi
    exact congrFun h ⟨i, hi⟩
  · intro h
    funext i
    exact h i.1 i.2

theorem ElemType.le_sizeOff (E : ElemType) (capacity : Nat) :
    E.size * capacity ≤ E.sizeOff capacity := le_roundUp _ (by decide)

section Elements

variable {E : ElemType} {Capacity k i : Nat}

theorem ElemType.cell_div (hi : E.owns i = true) : (E.size * k + i) / E.size = k := by
  have hlt := E.owns_lt i hi
  rw [Nat.mul_add_div (by omega), Nat.div_eq_of_lt hlt, Nat.add_zero]

theorem ElemType.cell_mod (hi : E.owns i = true) : (E.size * k + i) % E.size = i := by
  rw [Nat.mul_add_mod, Nat.mod_eq_of_lt (E.owns_lt i hi)]

theorem ElemType.cell_lt (hk : k < Capacity) (hi : E.owns i = true) :
    E.size * k + i < E.sizeOff Capacity := by
  have hlt := E.owns_lt i hi
  have hcell := Nat.mul_le_mul_left E.size (Nat.succ_le_of_lt hk)
  rw [Nat.mul_succ] at hcell
  have hoff := E.le_sizeOff Capacity
  omega

variable {host : Endian} {v : StaticVector E.Object Capacity} {f : Nat → UInt8} {a : Nat}

theorem StaticVector.toMem_size :
    u32At host (v.toMem host f a) (a + E.sizeOff Capacity) = v.size :=
  u32At_of_slice host (slice_patch_eq (by rw [Endian.bytes_length]))

theorem StaticVector.toMem_cell (hk : k < Capacity) :
    E.read (v.toMem host f a) (a + E.size * k) = v.data k := by
  funext i
  have hlt := ElemType.cell_lt hk i.2
  have hsub : a + E.size * k + i.1 - a = E.size * k + i.1 := by omega
  have hdiv := ElemType.cell_div (k := k) i.2
  have hmod := ElemType.cell_mod (k := k) i.2
  have hcell : a ≤ a + E.size * k + i.1 ∧ (a + E.size * k + i.1 - a) / E.size < Capacity ∧
      E.owns ((a + E.size * k + i.1 - a) % E.size) = true := by
    rw [hsub, hdiv, hmod]
    exact ⟨by omega, hk, i.2⟩
  have hsame : ∀ {k' i' : Nat} (h : E.owns i' = true), k' = k → i' = i.1 →
      v.data k' ⟨i', h⟩ = v.data k i := by
    intro k' i' h hk' hi'
    subst hk'
    exact congrArg _ (Subtype.ext hi')
  rw [ElemType.read, StaticVector.toMem, patch_of_lt (by omega), dif_pos hcell]
  exact hsame _ (by rw [hsub, hdiv]) (by rw [hsub, hmod])

end Elements

theorem StaticString.toMem_size {Capacity : Nat} {host : Endian} {s : StaticString Capacity}
    {f : Nat → UInt8} {a : Nat} :
    u32At host (s.toMem host f a) (a + Shape.stringSizeOff Capacity) = s.size :=
  u32At_of_slice host (slice_patch_eq (by rw [Endian.bytes_length]))

theorem StaticString.toMem_cell {Capacity k : Nat} {host : Endian}
    {s : StaticString Capacity} {f : Nat → UInt8} {a : Nat} (hk : k < Capacity + 1) :
    s.toMem host f a (a + k) = s.data k := by
  have hoff : Capacity + 1 ≤ Shape.stringSizeOff Capacity := le_roundUp _ (by decide)
  have hget := slice_getElem? s.data 0 (Capacity + 1) k
  rw [if_pos hk, Nat.zero_add] at hget
  rw [StaticString.toMem, patch_of_lt (by omega), patch_apply, if_pos (by omega),
    Nat.add_sub_cancel_left, hget, Option.getD_some]

namespace Field

def Cell : Field → Type
  | .plain E => E.Object
  | .vector E _ => E.Object
  | .string _ => UInt8

def cells : Field → Nat
  | .plain _ => 1
  | .vector _ capacity => capacity
  | .string capacity => capacity + 1

def cellAt : (F : Field) → (Nat → UInt8) → Nat → Nat → F.Cell
  | .plain E, f, a, _ => E.read f a
  | .vector E _, f, a, k => E.read f (a + E.size * k)
  | .string _, f, a, k => f (a + k)

def countAt (host : Endian) : Field → (Nat → UInt8) → Nat → UInt32
  | .plain _, _, _ => 0
  | .vector E capacity, f, a => u32At host f (a + E.sizeOff capacity)
  | .string capacity, f, a => u32At host f (a + Shape.stringSizeOff capacity)

theorem u32At_eq_iff {host : Endian} {f g : Nat → UInt8} {a b : Nat} :
    u32At host f a = u32At host g b ↔ ∀ i < 4, f (a + i) = g (b + i) := by
  rw [← slice_eq_iff]
  refine ⟨fun h => ?_, u32At_congr host⟩
  rw [slice_of_u32At host f a, slice_of_u32At host g b, h]

/-- Members are the same bytes, padding apart, exactly if they are the same count and
the same cells. -/
theorem agree_iff (host : Endian) (F : Field) {f g : Nat → UInt8} {a b : Nat} :
    (∀ y, F.owns y = true → f (a + y) = g (b + y)) ↔
      F.countAt host f a = F.countAt host g b ∧
        ∀ k < F.cells, F.cellAt f a k = F.cellAt g b k := by
  cases F with
  | plain E =>
      simp only [countAt, cellAt, cells, true_and]
      rw [show (∀ y, (Field.plain E).owns y = true → f (a + y) = g (b + y)) ↔ _ from
        ElemType.read_congr.symm]
      exact ⟨fun h _ _ => h, fun h => h 0 (by decide)⟩
  | vector E capacity =>
      simp only [countAt, cellAt, cells, owns, Bool.or_eq_true, Bool.and_eq_true,
        decide_eq_true_iff, u32At_eq_iff, Nat.add_assoc]
      constructor
      · intro h
        refine ⟨fun i hi => h _ (.inr ⟨by omega, by omega⟩), fun k hk => ?_⟩
        refine ElemType.read_congr.mpr fun i hi => ?_
        rw [Nat.add_assoc, Nat.add_assoc]
        refine h _ (.inl ⟨?_, ?_⟩)
        · rw [ElemType.cell_div hi]
          exact hk
        · rw [ElemType.cell_mod hi]
          exact hi
      · intro h y hy
        cases hy with
        | inl hcell =>
            have hbyte := ElemType.read_congr.mp (h.2 _ hcell.1) _ hcell.2
            rwa [Nat.add_assoc, Nat.add_assoc, Nat.div_add_mod] at hbyte
        | inr hcount =>
            have hbyte := h.1 (y - E.sizeOff capacity) (by omega)
            rwa [Nat.add_sub_cancel' hcount.1] at hbyte
  | string capacity =>
      simp only [countAt, cellAt, cells, owns, Bool.or_eq_true, Bool.and_eq_true,
        decide_eq_true_iff, u32At_eq_iff, Nat.add_assoc]
      constructor
      · intro h
        exact ⟨fun i hi => h _ (.inr ⟨by omega, by omega⟩), fun k hk => h k (.inl hk)⟩
      · intro h y hy
        cases hy with
        | inl hcell => exact h.2 y hcell
        | inr hcount =>
            have hbyte := h.1 (y - Shape.stringSizeOff capacity) (by omega)
            rwa [Nat.add_sub_cancel' hcount.1] at hbyte

theorem edit_frame {host : Endian} {w : Nat} {hasExceptions : Bool} {F : Field} {e : F.Edit}
    {f g : Nat → UInt8} {a : Nat} (hedit : F.edit host w hasExceptions e f a = some g)
    {x : Nat} (hx : ∀ y, F.owns y = true → a + y ≠ x) : g x = f x := by
  have hvector : ∀ {E : ElemType} {capacity : Nat} {v : StaticVector E.Object capacity},
      (∀ y, (Field.vector E capacity).owns y = true → a + y ≠ x) →
      v.toMem host f a x = f x := by
    intro E capacity v hx
    simp only [owns, Bool.or_eq_true, Bool.and_eq_true, decide_eq_true_iff] at hx
    have hcount := fun i (hi : i < 4) =>
      hx (E.sizeOff capacity + i) (.inr ⟨by omega, by omega⟩)
    have hlast := hcount (x - (a + E.sizeOff capacity))
    rw [StaticVector.toMem, patch_outside (by rw [Endian.bytes_length]; omega)]
    exact dif_neg fun hcell => hx (x - a) (.inl hcell.2) (by omega)
  have hstring : ∀ {capacity : Nat} {s : StaticString capacity},
      (∀ y, (Field.string capacity).owns y = true → a + y ≠ x) →
      s.toMem host f a x = f x := by
    intro capacity s hx
    simp only [owns, Bool.or_eq_true, Bool.and_eq_true, decide_eq_true_iff] at hx
    have hcount := fun i (hi : i < 4) =>
      hx (Shape.stringSizeOff capacity + i) (.inr ⟨by omega, by omega⟩)
    have hlast := hcount (x - (a + Shape.stringSizeOff capacity))
    have hchar := fun hi => hx (x - a) (.inl hi)
    rw [StaticString.toMem, patch_outside (by rw [Endian.bytes_length]; omega),
      patch_outside (by rw [slice_length]; omega)]
  cases F with
  | plain E =>
      obtain rfl := Option.some.inj hedit
      exact dif_neg fun howns => hx (x - a) howns.2 (by omega)
  | vector E capacity =>
      cases e with
      | call op =>
          simp only [edit, Option.bind_eq_bind, Option.bind_eq_some_iff, Option.pure_def,
            Option.some.injEq] at hedit
          obtain ⟨r, -, rfl⟩ := hedit
          exact hvector hx
      | copy v =>
          obtain rfl := Option.some.inj hedit
          exact hvector hx
  | string capacity =>
      cases e with
      | call op =>
          simp only [edit, Option.bind_eq_bind, Option.bind_eq_some_iff, Option.pure_def,
            Option.some.injEq] at hedit
          obtain ⟨r, -, rfl⟩ := hedit
          exact hstring hx
      | copy s =>
          obtain rfl := Option.some.inj hedit
          exact hstring hx

/-! ## Contents and leftovers -/

def Contents : Field → Type
  | .plain _ => Unit
  | .vector E capacity => Bounded E.Object capacity
  | .string capacity => Bounded UInt8 capacity

/-- The contents of the member at `a`. -/
def Holds (host : Endian) : (F : Field) → (Nat → UInt8) → Nat → F.Contents → Prop
  | .plain _, _, _, _ => True
  | .vector E capacity, f, a, b => (vectorAt host E capacity f a).Refines b
  | .string capacity, f, a, b =>
      (StaticString.ofMem host f a : StaticString capacity).Refines b

/-- An edit of the contents, where it is one that a program may make: an object that is
copied is well formed, and a member is not constructed again. -/
def onContents : (F : Field) → F.Contents → F.Edit → Option F.Contents
  | .plain _, _, _ => some ()
  | .vector _ _, b, .call op => (op.onList b).map (·.2)
  | .vector _ capacity, _, .copy v =>
      if h : v.size.toNat ≤ capacity then
        some ⟨v.elements, by rw [StaticVector.elements, slice_length]; exact h⟩
      else none
  | .string _, b, .call op =>
      if op.isCall = true then (op.onContents b).map (·.2) else none
  | .string capacity, _, .copy s =>
      if h : s.size.toNat ≤ capacity ∧ s.data s.size.toNat = 0 then
        some ⟨s.contents, by rw [StaticString.contents, slice_length]; exact h.1⟩
      else none

/-- The cells that an edit stores to: where they begin, and what is stored. -/
def stores : (F : Field) → F.Contents → F.Edit → Nat × List F.Cell
  | .plain _, _, x => (0, [x])
  | .vector _ _, b, .call op => op.stores b
  | .vector _ capacity, _, .copy v => (0, slice v.data 0 capacity)
  | .string _, b, .call op => op.stores b
  | .string capacity, _, .copy s => (0, slice s.data 0 (capacity + 1))

/-- What is known of a member without looking at it: its contents, and what the edits
so far have left in each of its cells. -/
structure Track (F : Field) where
  contents : F.Contents
  left : Nat → F.Cell

def Track.next {F : Field} (t : Track F) (e : F.Edit) : Option (Track F) :=
  (F.onContents t.contents e).map fun b =>
    ⟨b, patch t.left (F.stores t.contents e).1 (F.stores t.contents e).2⟩

structure Tracks (host : Endian) (F : Field) (f : Nat → UInt8) (a : Nat) (t : Track F) :
    Prop where
  holds : F.Holds host f a t.contents
  cells : ∀ k < F.cells, F.cellAt f a k = t.left k

/-- The capacity is one that the count can hold. -/
def Counted : Field → Prop
  | .plain _ => True
  | .vector _ capacity => capacity < 2 ^ 32
  | .string capacity => capacity < 2 ^ 32

section Tracks

variable {host : Endian} {F : Field} {f g : Nat → UInt8} {a b : Nat} {t t' : Track F}

theorem Tracks.congr (h : ∀ y, F.owns y = true → f (a + y) = g (b + y))
    (ht : F.Tracks host f a t) : F.Tracks host g b t := by
  obtain ⟨hcount, hcells⟩ := (agree_iff host F).mp h
  refine ⟨?_, fun k hk => (hcells k hk).symm.trans (ht.cells k hk)⟩
  cases F with
  | plain E => trivial
  | vector E capacity =>
      have hholds : (vectorAt host E capacity f a).Refines t.contents := ht.holds
      have hle := hholds.le
      refine Eq.trans ?_ hholds
      have hsize : (vectorAt host E capacity g b).size = (vectorAt host E capacity f a).size :=
        hcount.symm
      rw [StaticVector.elements, hsize]
      exact slice_congr fun k _ hk => (hcells k (by rw [Field.cells]; omega)).symm
  | string capacity =>
      have hholds : (StaticString.ofMem host f a : StaticString capacity).Refines t.contents :=
        ht.holds
      have hle := hholds.le
      have hsize : (StaticString.ofMem host g b : StaticString capacity).size =
          (StaticString.ofMem host f a : StaticString capacity).size := hcount.symm
      refine ⟨Eq.trans ?_ hholds.contents, Eq.trans ?_ hholds.terminated⟩
      · rw [StaticString.contents, hsize]
        exact slice_congr fun k _ hk => (hcells k (by rw [Field.cells]; omega)).symm
      · rw [hsize]
        exact (hcells _ (Nat.lt_succ_of_le hle)).symm

theorem tracks_vector {E : ElemType} {capacity : Nat} {v : StaticVector E.Object capacity}
    {contents : Bounded E.Object capacity} {left : Nat → E.Object}
    (hrefines : v.Refines contents) (hcells : ∀ k < capacity, v.data k = left k) :
    (Field.vector E capacity).Tracks host (v.toMem host f a) a ⟨contents, left⟩ := by
  have hle := hrefines.le
  have hsize : (vectorAt host E capacity (v.toMem host f a) a).size = v.size :=
    StaticVector.toMem_size
  refine ⟨Eq.trans ?_ hrefines, fun k hk => StaticVector.toMem_cell hk |>.trans (hcells k hk)⟩
  rw [StaticVector.elements, hsize]
  exact slice_congr fun k _ hk => StaticVector.toMem_cell (by omega)

theorem tracks_string {capacity : Nat} {s : StaticString capacity}
    {contents : Bounded UInt8 capacity} {left : Nat → UInt8}
    (hrefines : s.Refines contents) (hcells : ∀ k < capacity + 1, s.data k = left k) :
    (Field.string capacity).Tracks host (s.toMem host f a) a ⟨contents, left⟩ := by
  have hle := hrefines.le
  have hsize : (StaticString.ofMem host (s.toMem host f a) a : StaticString capacity).size =
      s.size := StaticString.toMem_size
  refine ⟨⟨Eq.trans ?_ hrefines.contents, Eq.trans ?_ hrefines.terminated⟩,
    fun k hk => (StaticString.toMem_cell hk).trans (hcells k hk)⟩
  · rw [StaticString.contents, hsize]
    exact slice_congr fun k _ hk => StaticString.toMem_cell (by omega)
  · rw [hsize]
    exact StaticString.toMem_cell (Nat.lt_succ_of_le hle)

theorem patch_slice_apply {α : Type} {left data : Nat → α} {n k : Nat} (hk : k < n) :
    data k = patch left 0 (slice data 0 n) k := by
  have hcells := slice_eq_iff.mp (slice_patch_eq (f := left) (a := 0) (slice_length data 0 n))
  simpa only [Nat.zero_add] using (hcells k hk).symm

theorem Tracks.step {w : Nat} (hw : 32 ≤ w) (hasExceptions : Bool) (hcounted : F.Counted)
    (ht : F.Tracks host f a t) {e : F.Edit} (hnext : t.next e = some t') :
    ∃ g, F.edit host w hasExceptions e f a = some g ∧ F.Tracks host g a t' := by
  obtain ⟨b', hon, rfl⟩ := Option.map_eq_some_iff.mp hnext
  cases F with
  | plain E =>
      refine ⟨_, rfl, trivial, fun k hk => ?_⟩
      obtain rfl : k = 0 := Nat.lt_one_iff.mp hk
      exact E.read_write e f a
  | vector E capacity =>
      cases e with
      | call op =>
          obtain ⟨r, hop, rfl⟩ := Option.map_eq_some_iff.mp hon
          have hholds : (vectorAt host E capacity f a).Refines t.contents := ht.holds
          obtain ⟨v, hstep, hrefines⟩ := hholds.step hcounted hasExceptions hop
          have hdata := hholds.step_data hcounted hop hstep
          refine ⟨v.toMem host f a, ?_, tracks_vector hrefines fun k hk => ?_⟩
          · rw [edit, hstep]
            rfl
          · rw [hdata]
            exact patch_congr (ht.cells k hk) _ _
      | copy v =>
          rw [onContents] at hon
          split at hon
          · obtain rfl := Option.some.inj hon
            exact ⟨_, rfl, tracks_vector rfl fun k hk => patch_slice_apply hk⟩
          · cases hon
  | string capacity =>
      cases e with
      | call op =>
          rw [onContents] at hon
          split at hon
          · next hcall =>
              obtain ⟨r, hop, rfl⟩ := Option.map_eq_some_iff.mp hon
              have hholds : (StaticString.ofMem host f a : StaticString capacity).Refines
                t.contents := ht.holds
              obtain ⟨s, hstep, hrefines⟩ := hholds.step hcounted hw hasExceptions hop
              have hdata := hholds.step_data hcounted hw hcall hop hstep
              refine ⟨s.toMem host f a, ?_, tracks_string hrefines fun k hk => ?_⟩
              · rw [edit, hstep]
                rfl
              · rw [hdata]
                exact patch_congr (ht.cells k hk) _ _
          · cases hon
      | copy s =>
          rw [onContents] at hon
          split at hon
          · next hformed =>
              obtain rfl := Option.some.inj hon
              exact ⟨_, rfl, tracks_string ⟨rfl, hformed.2⟩ fun k hk => patch_slice_apply hk⟩
          · cases hon

end Tracks

end Field

/-- Objects that compare equal are the same bytes, padding apart. -/
def ElemType.Lawful (E : ElemType) : Prop := ∀ x y : E.Object, (x == y) = true → x = y

theorem ElemType.scalar_lawful (size : Nat) : (ElemType.scalar size).Lawful := by
  intro x y h
  funext ⟨i, hi⟩
  have hbytes := List.all_eq_true.mp h i (List.mem_range.mpr (of_decide_eq_true hi))
  have hbyte : (x ⟨i, hi⟩ == y ⟨i, hi⟩) = true := (dif_pos hi).symm.trans hbytes
  exact eq_of_beq hbyte

theorem ElemType.Lawful.list {E : ElemType} (h : E.Lawful) {xs ys : List E.Object}
    (heq : (xs == ys) = true) : xs = ys := by
  induction xs generalizing ys with
  | nil =>
      cases ys with
      | nil => rfl
      | cons y ys => cases heq
  | cons x xs ih =>
      cases ys with
      | nil => cases heq
      | cons y ys =>
          rw [List.cons_beq_cons, Bool.and_eq_true] at heq
          rw [h x y heq.1, ih heq.2]

theorem left_of_contents {α : Type} {data left : Nat → α} {l : List α} {n k : Nat}
    (hcontents : slice data 0 l.length = l) (hcells : ∀ k < n, data k = left k)
    (hk : k < l.length) (hle : l.length ≤ n) : l[k]? = some (left k) := by
  rw [← hcontents, slice_getElem?, if_pos hk, Nat.zero_add, hcells k (by omega)]

theorem left_eq_of_contents {α : Type} {data data' left left' : Nat → α} {l : List α}
    {n k : Nat} (hcontents : slice data 0 l.length = l)
    (hcontents' : slice data' 0 l.length = l) (hcells : ∀ k < n, data k = left k)
    (hcells' : ∀ k < n, data' k = left' k) (hk : k < l.length) (hle : l.length ≤ n) :
    left k = left' k :=
  Option.some.inj ((left_of_contents hcontents hcells hk hle).symm.trans
    (left_of_contents hcontents' hcells' hk hle))

theorem StaticVector.Refines.same_iff {E : ElemType} {capacity : Nat}
    {v v' : StaticVector E.Object capacity} {c c' : Bounded E.Object capacity}
    {left left' : Nat → E.Object} (hv : v.Refines c) (hv' : v'.Refines c')
    (hcells : ∀ k < capacity, v.data k = left k)
    (hcells' : ∀ k < capacity, v'.data k = left' k) (hequal : v.equal v' = some true) :
    (v.size = v'.size ∧ ∀ k < capacity, left k = left' k) ↔
      ∀ k < capacity, c.toList.length ≤ k ∨ ¬ E.Lawful → left k = left' k := by
  have hbeq : (c.toList == c'.toList) = true := by
    rw [StaticVector.equal_eq hv.le, hv, hv'] at hequal
    exact Option.some.inj hequal
  have hlen := List.length_eq_of_beq hbeq
  have hsize : v.size = v'.size := UInt32.toNat_inj.mp (by rw [hv.size, hv'.size, hlen])
  constructor
  · intro h k hk _
    exact h.2 k hk
  · intro h
    refine ⟨hsize, fun k hk => ?_⟩
    by_cases hlawful : E.Lawful
    · rcases Nat.lt_or_ge k c.toList.length with hlt | hge
      · have hlists := hlawful.list hbeq
        refine left_eq_of_contents ?_ ?_ hcells hcells' hlt c.le
        · rw [← hv.size]
          exact hv
        · rw [← hv.size, hsize]
          exact hv'.trans hlists.symm
      · exact h k hk (.inl hge)
    · exact h k hk (.inr hlawful)

theorem StaticString.Refines.same_iff {capacity : Nat} {s s' : StaticString capacity}
    {c c' : Bounded UInt8 capacity} {left left' : Nat → UInt8} (hs : s.Refines c)
    (hs' : s'.Refines c') (hcells : ∀ k < capacity + 1, s.data k = left k)
    (hcells' : ∀ k < capacity + 1, s'.data k = left' k) (hequal : s.equal s' = some true) :
    (s.size = s'.size ∧ ∀ k < capacity + 1, left k = left' k) ↔
      ∀ k < capacity + 1, c.toList.length < k → left k = left' k := by
  have hlists : c.toList = c'.toList := by
    rw [StaticString.equal_eq hs.le hs'.le, hs.contents, hs'.contents] at hequal
    exact eq_of_beq (Option.some.inj hequal)
  have hsize : s.size = s'.size := UInt32.toNat_inj.mp (by rw [hs.size, hs'.size, hlists])
  have hle := hs.le
  constructor
  · intro h k hk _
    exact h.2 k hk
  · intro h
    refine ⟨hsize, fun k hk => ?_⟩
    rw [← hs.size] at h
    rcases Nat.lt_trichotomy k s.size.toNat with hlt | heq | hgt
    · refine left_eq_of_contents ?_ ?_ hcells hcells' (hs.size ▸ hlt)
        (Nat.le_succ_of_le c.le)
      · rw [← hs.size]
        exact hs.contents
      · rw [← hs.size, hsize]
        exact hs'.contents.trans hlists.symm
    · -- The terminator.
      rw [← hcells k hk, ← hcells' k hk, heq, hs.terminated, hsize, hs'.terminated]
    · exact h k hk hgt

namespace Field

/-- Where `operator==` does not look, the edits have left the same: in the cells behind
the contents, and in all cells if objects of the type can be equal without being the
same. -/
def LeftAlike : (F : Field) → Track F → Track F → Prop
  | .plain E, t, t' => ¬ E.Lawful → t.left 0 = t'.left 0
  | .vector E capacity, t, t' => ∀ k < capacity,
      t.contents.toList.length ≤ k ∨ ¬ E.Lawful → t.left k = t'.left k
  | .string capacity, t, t' => ∀ k < capacity + 1,
      t.contents.toList.length < k → t.left k = t'.left k

/-- Members that compare equal are the same bytes exactly if the edits have left the
same where the comparison does not look. -/
theorem Tracks.same_iff {host : Endian} {f g : Nat → UInt8} {a b : Nat} {F : Field}
    {t t' : Track F} (ht : F.Tracks host f a t) (ht' : F.Tracks host g b t')
    (hequal : F.equal host f a g b = some true) :
    (∀ y, F.owns y = true → f (a + y) = g (b + y)) ↔ F.LeftAlike t t' := by
  rw [agree_iff host F]
  have hcells : (∀ k < F.cells, F.cellAt f a k = F.cellAt g b k) ↔
      ∀ k < F.cells, t.left k = t'.left k := by
    refine forall₂_congr fun k hk => ?_
    rw [ht.cells k hk, ht'.cells k hk]
  rw [hcells]
  cases F with
  | plain E =>
      have hsame : (E.read f a == E.read g b) = true := Option.some.inj hequal
      have hzero : E.Lawful → t.left 0 = t'.left 0 := by
        intro hlawful
        have hcell : E.read f a = E.read g b := hlawful _ _ hsame
        exact (ht.cells 0 Nat.one_pos).symm.trans (hcell.trans (ht'.cells 0 Nat.one_pos))
      constructor
      · intro h _
        exact h.2 0 Nat.one_pos
      · intro h
        refine ⟨rfl, fun k hk => ?_⟩
        obtain rfl : k = 0 := Nat.lt_one_iff.mp hk
        exact (Classical.em E.Lawful).elim hzero h
  | vector E capacity =>
      exact StaticVector.Refines.same_iff (v := vectorAt host E capacity f a)
        (c := t.contents) ht.holds ht'.holds ht.cells ht'.cells hequal
  | string capacity =>
      exact StaticString.Refines.same_iff (s := .ofMem host f a) (c := t.contents) ht.holds
        ht'.holds ht.cells ht'.cells hequal

end Field

end Sinew
