import Sinew.Lib.Steps
import Sinew.Model.Containers

/-!
# A vector is a bounded list

The elements of a vector are the first `size_` cells of its array; what lies
behind them is of no consequence. Every call that succeeds overwrites one run of
cells: a push the next cell, a growing `resize` the cells it adds, an assignment
the one it names. A call that takes elements off only lowers the count, and what
it leaves behind is overwritten before it is counted again.
-/

namespace Sinew

open Lib

def Ref.ofList {α : Type} (l : List α) : Ref α → Option α
  | .object value => some value
  | .element index => l[index]?

namespace StaticVector

variable {α : Type} {Capacity : Nat} {v w : StaticVector α Capacity} {value : Ref α} {x : α}
  {i j : Nat}

def elements (v : StaticVector α Capacity) : List α := slice v.data 0 v.size.toNat

/-- The argument reads as `x` and does not lie in the cells from `i` on. -/
def Reads (v : StaticVector α Capacity) (value : Ref α) (x : α) (i : Nat) : Prop :=
  v.read value = some x ∧ ∀ k, value = .element k → k < i

theorem Reads.store (h : v.Reads value x i) (hj : i ≤ j) (y : α) :
    Reads (⟨Function.update v.data j y, v.size⟩ : StaticVector α Capacity) value x i := by
  refine ⟨?_, h.2⟩
  cases value with
  | object value => exact h.1
  | element k =>
      have hk := h.2 k rfl
      have hread := h.1
      simp only [read, load] at hread ⊢
      rw [Function.update_of_ne (by omega)]
      exact hread

theorem Reads.mono (h : v.Reads value x i) (hij : i ≤ j) : v.Reads value x j :=
  ⟨h.1, fun k hk => Nat.lt_of_lt_of_le (h.2 k hk) hij⟩

theorem store_eq (hi : i < Capacity) (x : α) :
    v.store i x = some { v with data := patch v.data i [x] } := if_pos hi

theorem pushBack_full (hfull : Capacity ≤ v.size.toNat) :
    v.pushBack value = some (false, v) := if_pos hfull

theorem pushBack_eq (hroom : v.size.toNat < Capacity) (hx : v.read value = some x) :
    v.pushBack value = some (true, ⟨patch v.data v.size.toNat [x], v.size + 1⟩) := by
  rw [pushBack, if_neg (Nat.not_le.mpr hroom), hx, Option.bind_eq_bind, Option.bind_some,
    store_eq hroom]
  rfl

theorem emplaceBack_eq_pushBack : v.emplaceBack value = v.pushBack value := rfl

theorem fill_eq (hcap : Capacity < 2 ^ 32) {count : Nat} {i : UInt32}
    (hfits : i.toNat + count ≤ Capacity) (hx : v.Reads value x i.toNat) :
    fill value count i v =
      some { v with data := patch v.data i.toNat (List.replicate count x) } := by
  induction count generalizing i v with
  | zero => rfl
  | succ count ih =>
      have hnext : (i + 1).toNat = i.toNat + 1 := by
        rw [UInt32.toNat_add, UInt32.toNat_one, Nat.mod_eq_of_lt (by omega)]
      have hx' := (hx.store (Nat.le_refl _) x).mono (Nat.le_succ i.toNat)
      rw [fill, hx.1, Option.bind_eq_bind, Option.bind_some, store_eq (by omega),
        Option.bind_eq_bind, Option.bind_some]
      refine (ih (by omega) (by rw [hnext]; exact hx')).trans ?_
      rw [hnext]
      rfl

theorem resize_large {newSize : UInt32} (hlarge : Capacity < newSize.toNat) :
    v.resize newSize value = some (false, v) := if_pos hlarge

theorem resize_eq (hcap : Capacity < 2 ^ 32) {newSize : UInt32}
    (hfits : newSize.toNat ≤ Capacity) (hx : v.Reads value x v.size.toNat) :
    v.resize newSize value =
      some (true, ⟨patch v.data v.size.toNat
        (List.replicate (newSize.toNat - v.size.toNat) x), newSize⟩) := by
  rw [resize, if_neg (Nat.not_lt.mpr hfits)]
  rcases Nat.le_total v.size.toNat newSize.toNat with hle | hge
  · rw [fill_eq hcap (by omega) hx]
    rfl
  · rw [Nat.sub_eq_zero_of_le hge]
    rfl

theorem assign_eq (hi : i < Capacity) (hx : v.read value = some x) :
    v.assign i value = some (true, ⟨patch v.data i [x], v.size⟩) := by
  rw [assign, hx, Option.bind_eq_bind, Option.bind_some, store_eq hi]
  rfl

/-! ## The list -/

/-- A call on the list, where the call is one a program may make: what it refers to
and what it assigns to are elements. -/
def Op.onList (b : Bounded α Capacity) : Op α → Option (Bool × Bounded α Capacity)
  | .pushBack value => (value.ofList b.toList).map b.pushBack
  | .emplaceBack value => (value.ofList b.toList).map b.pushBack
  | .popBack => some b.popBack
  | .resize newSize value => (value.ofList b.toList).map (b.resize newSize.toNat)
  | .clear => some (true, .empty)
  | .assignAt index value => setElement b index.toNat value
  | .assignIndex index value => setElement b index.toNat value
  | .assignIterator position value => setElement b position value
where
  setElement (b : Bounded α Capacity) (i : Nat) (value : Ref α) :
      Option (Bool × Bounded α Capacity) :=
    if i < b.toList.length then (value.ofList b.toList).map fun x => (true, b.set i x)
    else none

def runList (b : Bounded α Capacity) :
    List (Op α) → Option (List Bool × Bounded α Capacity)
  | [] => some ([], b)
  | op :: ops => do
      let (answer, b) ← op.onList b
      let (answers, b) ← runList b ops
      return (answer :: answers, b)

/-- The elements are the list's. -/
def Refines (v : StaticVector α Capacity) (b : Bounded α Capacity) : Prop :=
  v.elements = b.toList

variable {b : Bounded α Capacity}

theorem Refines.size (h : v.Refines b) : v.size.toNat = b.toList.length := by
  rw [← h, elements, slice_length]

theorem Refines.le (h : v.Refines b) : v.size.toNat ≤ Capacity := by
  rw [h.size]
  exact b.le

theorem Refines.reads (h : v.Refines b) (hx : value.ofList b.toList = some x) :
    v.Reads value x v.size.toNat := by
  cases value with
  | object value => exact ⟨hx, fun k hk => by cases hk⟩
  | element k =>
      rw [Ref.ofList, ← h, elements, slice_getElem?] at hx
      split at hx
      · next hk =>
          refine ⟨?_, fun j hj => by cases hj; exact hk⟩
          rw [read, load, if_pos (Nat.lt_of_lt_of_le hk h.le), ← hx, Nat.zero_add]
      · cases hx

theorem Refines.extend (h : v.Refines b) {xs : List α} {size : UInt32}
    (hsize : size.toNat = v.size.toNat + xs.length) :
    elements (⟨patch v.data v.size.toNat xs, size⟩ : StaticVector α Capacity) =
      b.toList ++ xs := by
  rw [elements, hsize, slice_add, Nat.zero_add, slice_patch,
    slice_patch_of_disjoint (.inl (by omega)), ← h]
  rfl

theorem elements_take {data : Nat → α} {size size' : UInt32}
    (hle : size'.toNat ≤ size.toNat) :
    elements (⟨data, size'⟩ : StaticVector α Capacity) =
      (elements (⟨data, size⟩ : StaticVector α Capacity)).take size'.toNat := by
  obtain ⟨d, hd⟩ := Nat.exists_eq_add_of_le hle
  rw [elements, elements, hd, slice_add, List.take_left' (slice_length ..)]

theorem Refines.pushBack (hcap : Capacity < 2 ^ 32) (h : v.Refines b)
    (hx : value.ofList b.toList = some x) :
    ∃ w, v.pushBack value = some ((b.pushBack x).1, w) ∧ w.Refines (b.pushBack x).2 := by
  have hsize := h.size
  rw [Bounded.pushBack]
  split
  · next hroom =>
      have hnext : (v.size + 1).toNat = v.size.toNat + 1 := by
        rw [UInt32.toNat_add, UInt32.toNat_one, Nat.mod_eq_of_lt (by omega)]
      have hpushed : (v.size + 1).toNat = v.size.toNat + [x].length := hnext
      exact ⟨_, pushBack_eq (by omega) (h.reads hx).1, h.extend hpushed⟩
  · next hfull => exact ⟨v, pushBack_full (by omega), h⟩

theorem Refines.popBack (h : v.Refines b) :
    ∃ w, v.popBack = (b.popBack.1, w) ∧ w.Refines b.popBack.2 := by
  have hsize := h.size
  have hzero : v.size = 0 ↔ b.toList = [] := by
    rw [← List.length_eq_zero_iff, ← hsize, ← UInt32.toNat_inj]
    rfl
  rw [StaticVector.popBack, Bounded.popBack]
  by_cases hempty : b.toList = []
  · rw [if_pos (hzero.mpr hempty), if_pos hempty]
    exact ⟨v, rfl, h⟩
  · rw [if_neg (mt hzero.mp hempty), if_neg hempty]
    refine ⟨_, rfl, ?_⟩
    have hpos : 0 < b.toList.length := List.length_pos_iff.mpr hempty
    have hone : (v.size - 1).toNat = v.size.toNat - 1 := by
      rw [UInt32.toNat_sub_of_le _ _ (by rw [UInt32.le_iff_toNat_le, UInt32.toNat_one]; omega),
        UInt32.toNat_one]
    refine (elements_take (Nat.le_of_lt (by omega : (v.size - 1).toNat < v.size.toNat))).trans ?_
    show _ = b.toList.dropLast
    rw [List.dropLast_eq_take, hone, hsize, ← h]

theorem Refines.resize (hcap : Capacity < 2 ^ 32) (h : v.Refines b) (newSize : UInt32)
    (hx : value.ofList b.toList = some x) :
    ∃ w, v.resize newSize value = some ((b.resize newSize.toNat x).1, w) ∧
      w.Refines (b.resize newSize.toNat x).2 := by
  have hsize := h.size
  rw [Bounded.resize]
  split
  · next hfits =>
      refine ⟨_, resize_eq hcap hfits (h.reads hx), ?_⟩
      rcases Nat.le_total v.size.toNat newSize.toNat with hle | hge
      · have hall : b.toList.take newSize.toNat = b.toList :=
          List.take_of_length_le (by omega)
        show _ = b.toList.take newSize.toNat ++ _
        rw [hall, ← hsize]
        exact h.extend (by rw [List.length_replicate]; omega)
      · show _ = b.toList.take newSize.toNat ++ _
        rw [← hsize, Nat.sub_eq_zero_of_le hge, List.replicate_zero, List.append_nil, ← h]
        exact elements_take hge
  · next hlarge => exact ⟨v, resize_large (by omega), h⟩

theorem Refines.assign (h : v.Refines b) {i : Nat} (hi : i < b.toList.length)
    (hx : value.ofList b.toList = some x) :
    ∃ w, v.assign i value = some (true, w) ∧ w.Refines (b.set i x) := by
  have hsize := h.size
  have hle := h.le
  refine ⟨_, assign_eq (by omega) (h.reads hx).1, ?_⟩
  have hset := slice_update (f := v.data) (a := 0) (n := v.size.toNat) (i := i)
    (by omega) (x := x)
  rw [Nat.zero_add] at hset
  exact hset.trans (congrArg (List.set · i x) h)

theorem Refines.setElement (h : v.Refines b) {i : Nat} {answer : Bool}
    {b' : Bounded α Capacity} (hop : Op.onList.setElement b i value = some (answer, b')) :
    i < v.size.toNat ∧ ∃ w, v.assign i value = some (answer, w) ∧ w.Refines b' := by
  rw [Op.onList.setElement] at hop
  split at hop
  · next hi =>
      cases hx : value.ofList b.toList with
      | none => rw [hx] at hop; cases hop
      | some x =>
          rw [hx] at hop
          obtain ⟨rfl, rfl⟩ := Prod.mk.inj (Option.some.inj hop)
          exact ⟨by rw [h.size]; exact hi, h.assign hi hx⟩
  · cases hop

theorem Refines.step (hcap : Capacity < 2 ^ 32) (hasExceptions : Bool) (h : v.Refines b)
    {op : Op α} {answer : Bool} {b' : Bounded α Capacity}
    (hop : op.onList b = some (answer, b')) :
    ∃ w, v.step hasExceptions op = some (answer, w) ∧ w.Refines b' := by
  cases op with
  | pushBack value =>
      obtain ⟨x, hx, heq⟩ := Option.map_eq_some_iff.mp hop
      have hpush := h.pushBack hcap hx
      rw [heq] at hpush
      exact hpush
  | emplaceBack value =>
      obtain ⟨x, hx, heq⟩ := Option.map_eq_some_iff.mp hop
      have hpush := h.pushBack hcap hx
      rw [heq] at hpush
      exact hpush
  | popBack =>
      obtain ⟨w, hw, hrefines⟩ := h.popBack
      rw [Option.some.inj hop] at hw hrefines
      exact ⟨w, congrArg some hw, hrefines⟩
  | resize newSize value =>
      obtain ⟨x, hx, heq⟩ := Option.map_eq_some_iff.mp hop
      have hresize := h.resize hcap newSize hx
      rw [heq] at hresize
      exact hresize
  | clear =>
      obtain ⟨rfl, rfl⟩ := Prod.mk.inj (Option.some.inj hop)
      exact ⟨v.clear, rfl, rfl⟩
  | assignAt index value =>
      obtain ⟨hlt, hassign⟩ := h.setElement hop
      have hat : v.atIndex hasExceptions index = .ok index.toNat := if_neg (by
        rw [ge_iff_le, UInt32.le_iff_toNat_le]
        omega)
      simp only [StaticVector.step, hat]
      exact hassign
  | assignIndex index value => exact (h.setElement hop).2
  | assignIterator position value => exact (h.setElement hop).2

theorem runList_runs : Runs (fun (b : Bounded α Capacity) op => op.onList b) runList :=
  ⟨fun _ => rfl, fun _ _ _ => rfl⟩

theorem run_runs (hasExceptions : Bool) :
    Runs (fun (v : StaticVector α Capacity) op => v.step hasExceptions op)
      fun v ops => v.run hasExceptions ops :=
  ⟨fun _ => rfl, fun _ _ _ => rfl⟩

theorem Refines.run (hcap : Capacity < 2 ^ 32) (hasExceptions : Bool) {ops : List (Op α)}
    (h : v.Refines b) {answers : List Bool} {b' : Bounded α Capacity}
    (hops : runList b ops = some (answers, b')) :
    ∃ w, v.run hasExceptions ops = some (answers, w) ∧ w.Refines b' :=
  (run_runs hasExceptions).simulates runList_runs
    (fun _ _ _ _ _ h hop => h.step hcap hasExceptions hop) h hops

/-- What is refused changes nothing, whatever the vector. -/
theorem step_refused {hasExceptions : Bool} {op : Op α}
    (h : v.step hasExceptions op = some (false, w)) : w = v := by
  have hpush : ∀ value, v.pushBack value = some (false, w) → w = v := by
    intro value hpush
    rw [StaticVector.pushBack] at hpush
    split at hpush
    · exact (Prod.mk.inj (Option.some.inj hpush)).2.symm
    · simp [Option.bind_eq_some_iff] at hpush
  have hassign : ∀ i value, v.assign i value = some (false, w) → w = v := by
    intro i value hassign
    simp [StaticVector.assign, Option.bind_eq_some_iff] at hassign
  cases op with
  | pushBack value => exact hpush value h
  | emplaceBack value => exact hpush value h
  | popBack =>
      simp only [StaticVector.step, StaticVector.popBack] at h
      split at h
      · exact (Prod.mk.inj (Option.some.inj h)).2.symm
      · cases h
  | resize newSize value =>
      simp only [StaticVector.step, StaticVector.resize] at h
      split at h
      · exact (Prod.mk.inj (Option.some.inj h)).2.symm
      · simp [Option.bind_eq_some_iff] at h
  | clear => cases h
  | assignAt index value =>
      simp only [StaticVector.step] at h
      split at h
      · exact (Prod.mk.inj (Option.some.inj h)).2.symm
      · exact hassign _ _ h
  | assignIndex index value => exact hassign _ _ h
  | assignIterator position value => exact hassign _ _ h

theorem equalFrom_eq [BEq α] {count i : Nat} (hfits : i + count ≤ Capacity) :
    equalFrom v w count i = some (slice v.data i count == slice w.data i count) := by
  induction count generalizing i with
  | zero => rfl
  | succ count ih =>
      have hload : ∀ u : StaticVector α Capacity, u.load i = some (u.data i) :=
        fun u => if_pos (by omega)
      rw [equalFrom, hload, hload]
      simp only [Option.bind_eq_bind, Option.bind_some, slice, List.cons_beq_cons]
      cases v.data i == w.data i with
      | false => rfl
      | true => exact ih (by omega)

theorem equal_eq [BEq α] (hle : v.size.toNat ≤ Capacity) :
    v.equal w = some (v.elements == w.elements) := by
  rw [equal]
  split
  · next hne =>
      have hlen : v.elements.length ≠ w.elements.length := by
        rw [elements, elements, slice_length, slice_length]
        exact fun heq => hne (UInt32.toNat_inj.mp heq)
      have hfalse : (v.elements == w.elements) = false := by
        by_contra htrue
        exact hlen (List.length_eq_of_beq (by simpa using htrue))
      rw [hfalse]
  · next heq =>
      rw [equalFrom_eq (by omega), elements, elements, not_not.mp heq]

/-- **Vectors refine bounded lists**: through any calls a program may make, from the
default vector on, the answers and the elements are those of a list that refuses to
grow past the capacity, which the count never passes; a call that answers `false`
changes nothing at all; and two vectors compare as their lists do. -/
theorem static_vector_refines [BEq α] (hcap : Capacity < 2 ^ 32) (hasExceptions : Bool)
    (zero : α) :
    (∀ ops answers (b : Bounded α Capacity), runList .empty ops = some (answers, b) →
      ∃ v : StaticVector α Capacity,
        (construct zero).run hasExceptions ops = some (answers, v) ∧
          v.size.toNat ≤ Capacity ∧ v.elements = b.toList) ∧
    (∀ (v w : StaticVector α Capacity) op, v.step hasExceptions op = some (false, w) →
      w = v) ∧
    ∀ ops ops' answers answers' (b b' : Bounded α Capacity) (v v' : StaticVector α Capacity),
      runList .empty ops = some (answers, b) →
      runList .empty ops' = some (answers', b') →
      (construct zero).run hasExceptions ops = some (answers, v) →
      (construct zero).run hasExceptions ops' = some (answers', v') →
      v.equal v' = some (b.toList == b'.toList) ∧
        ∀ [LawfulBEq α], v.equal v' = some true ↔ b.toList = b'.toList := by
  have hrun : ∀ ops answers (b : Bounded α Capacity),
      runList .empty ops = some (answers, b) →
      ∃ v : StaticVector α Capacity,
        (construct zero).run hasExceptions ops = some (answers, v) ∧ v.Refines b := by
    intro ops answers b hops
    have hempty : (construct zero : StaticVector α Capacity).Refines .empty := rfl
    exact hempty.run hcap hasExceptions hops
  refine ⟨fun ops answers b hops => ?_, fun v w op => step_refused, ?_⟩
  · obtain ⟨v, hv, hrefines⟩ := hrun ops answers b hops
    exact ⟨v, hv, hrefines.le, hrefines⟩
  · intro ops ops' answers answers' b b' v v' hops hops' hv hv'
    obtain ⟨u, hu, hrefines⟩ := hrun ops answers b hops
    obtain ⟨u', hu', hrefines'⟩ := hrun ops' answers' b' hops'
    rw [hv] at hu
    rw [hv'] at hu'
    obtain ⟨-, rfl⟩ := Prod.mk.inj (Option.some.inj hu)
    obtain ⟨-, rfl⟩ := Prod.mk.inj (Option.some.inj hu')
    have hequal : v.equal v' = some (b.toList == b'.toList) := by
      rw [equal_eq hrefines.le, hrefines, hrefines']
    refine ⟨hequal, ?_⟩
    intro
    rw [hequal, Option.some.injEq, beq_iff_eq]

theorem static_vector_refines_bytes :
    ∃ v : StaticVector UInt8 2,
      (construct 0).run true [.pushBack (.object 1), .pushBack (.element 0),
        .pushBack (.object 3), .popBack, .pushBack (.object 4)] =
          some ([true, true, false, true, true], v) ∧
      v.size.toNat ≤ 2 ∧ v.elements = [1, 4] :=
  (static_vector_refines (by decide) true (0 : UInt8)).1 _ _ ⟨[1, 4], by decide⟩ rfl

end StaticVector

end Sinew
