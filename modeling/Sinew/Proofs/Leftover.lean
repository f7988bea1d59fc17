import Sinew.Proofs.StaticString
import Sinew.Proofs.StaticVector

/-!
# What a container is left with

The cells behind the contents are of no consequence to any member function, but
they are bytes of the object all the same. A call stores one run of cells, which
can be told from the contents before it, and it erases nothing: so each cell
holds what the last call to store to it has left there.
-/

namespace Sinew

open Lib

namespace StaticVector

variable {α : Type} {Capacity : Nat} {v w : StaticVector α Capacity} {value : Ref α} {x : α}
  {b b' : Bounded α Capacity} {hasExceptions answer : Bool}

/-- The cells a call stores to: where they begin, and what is stored. -/
def Op.stores (b : Bounded α Capacity) : Op α → Nat × List α
  | .pushBack value => push value
  | .emplaceBack value => push value
  | .popBack => (0, [])
  | .resize newSize value =>
      (b.toList.length,
        if newSize.toNat ≤ Capacity then
          (value.ofList b.toList).elim []
            (List.replicate (newSize.toNat - b.toList.length))
        else [])
  | .clear => (0, [])
  | .assignAt index value => (index.toNat, (value.ofList b.toList).toList)
  | .assignIndex index value => (index.toNat, (value.ofList b.toList).toList)
  | .assignIterator position value => (position, (value.ofList b.toList).toList)
where
  push (value : Ref α) : Nat × List α :=
    (b.toList.length,
      if b.toList.length < Capacity then (value.ofList b.toList).toList else [])

theorem Refines.pushBack_data (h : v.Refines b) (hx : value.ofList b.toList = some x)
    (hpush : v.pushBack value = some (answer, w)) :
    w.data = patch v.data (Op.stores.push b value).1 (Op.stores.push b value).2 := by
  have hsize := h.size
  rw [Op.stores.push, hx, ← hsize]
  split
  · next hroom =>
      rw [pushBack_eq hroom (h.reads hx).1] at hpush
      obtain ⟨-, rfl⟩ := Prod.mk.inj (Option.some.inj hpush)
      rfl
  · next hfull =>
      rw [pushBack_full (Nat.le_of_not_lt hfull)] at hpush
      obtain ⟨-, rfl⟩ := Prod.mk.inj (Option.some.inj hpush)
      rfl

theorem Refines.setElement_data (h : v.Refines b) {i : Nat} {r : Bool × Bounded α Capacity}
    (hop : Op.onList.setElement b i value = some r)
    (hassign : v.assign i value = some (answer, w)) :
    w.data = patch v.data i (value.ofList b.toList).toList := by
  have hle := h.le
  have hsize := h.size
  rw [Op.onList.setElement] at hop
  split at hop
  · next hi =>
      obtain ⟨x, hx, -⟩ := Option.map_eq_some_iff.mp hop
      rw [assign_eq (by omega) (h.reads hx).1] at hassign
      obtain ⟨-, rfl⟩ := Prod.mk.inj (Option.some.inj hassign)
      rw [hx]
      rfl
  · cases hop

/-- A call that a program may make stores this run of cells, and no other. -/
theorem Refines.step_data (hcap : Capacity < 2 ^ 32) (h : v.Refines b) {op : Op α}
    {r : Bool × Bounded α Capacity} (hop : op.onList b = some r)
    (hstep : v.step hasExceptions op = some (answer, w)) :
    w.data = patch v.data (op.stores b).1 (op.stores b).2 := by
  cases op with
  | pushBack value =>
      obtain ⟨x, hx, -⟩ := Option.map_eq_some_iff.mp hop
      exact h.pushBack_data hx hstep
  | emplaceBack value =>
      obtain ⟨x, hx, -⟩ := Option.map_eq_some_iff.mp hop
      exact h.pushBack_data hx hstep
  | popBack =>
      simp only [StaticVector.step, StaticVector.popBack, Option.some.injEq] at hstep
      split at hstep
      · obtain ⟨-, rfl⟩ := Prod.mk.inj hstep
        rfl
      · obtain ⟨-, rfl⟩ := Prod.mk.inj hstep
        rfl
  | resize newSize value =>
      obtain ⟨x, hx, -⟩ := Option.map_eq_some_iff.mp hop
      have hsize := h.size
      rw [Op.stores, hx, ← hsize]
      split
      · next hfits =>
          have hresize := resize_eq hcap hfits (h.reads hx)
          obtain ⟨-, rfl⟩ := Prod.mk.inj (Option.some.inj (hresize.symm.trans hstep))
          rfl
      · next hlarge =>
          have hresize : v.resize newSize value = some (false, v) :=
            resize_large (Nat.lt_of_not_le hlarge)
          obtain ⟨-, rfl⟩ := Prod.mk.inj (Option.some.inj (hresize.symm.trans hstep))
          rfl
  | clear =>
      obtain ⟨-, rfl⟩ := Prod.mk.inj (Option.some.inj hstep)
      rfl
  | assignAt index value =>
      obtain ⟨hlt, -⟩ := h.setElement hop
      have hat : v.atIndex hasExceptions index = .ok index.toNat := if_neg (by
        rw [ge_iff_le, UInt32.le_iff_toNat_le]
        omega)
      simp only [StaticVector.step, hat] at hstep
      exact h.setElement_data hop hstep
  | assignIndex index value => exact h.setElement_data hop hstep
  | assignIterator position value => exact h.setElement_data hop hstep

end StaticVector

namespace StaticString

variable {Capacity w : Nat} {s t : StaticString Capacity} {sv : StringView}
  {chars : List UInt8} {b : Bounded UInt8 Capacity} {hasExceptions answer : Bool}

/-- The cells a call stores to: characters and the terminator behind them. A
constructor makes an object anew, which is not a call on one. -/
def Op.stores (b : Bounded UInt8 Capacity) : Op → Nat × List UInt8
  | .construct => (0, [])
  | .constructView _ => (0, [])
  | .constructPtr _ => (0, [])
  | .assignView sv => replace (sv.ofContents b.toList)
  | .assignPtr p => replace (p.ofContents b.toList)
  | .assign sv => replace (sv.ofContents b.toList)
  | .append sv =>
      (b.toList.length,
        ((sv.ofContents b.toList).getD []).take (Capacity - b.toList.length) ++ [0])
  | .clear => (0, [0])
  | .setAt index c => (index.toNat, [c])
  | .setIndex index c => (index.toNat, [c])
  | .setIterator position c => (position, [c])
where
  replace (chars : Option (List UInt8)) : Nat × List UInt8 :=
    (0, (chars.getD []).take Capacity ++ [0])

def Op.isCall : Op → Bool
  | .construct => false
  | .constructView _ => false
  | .constructPtr _ => false
  | _ => true

theorem assigned_data (hsv : s.Views sv chars) (hassign : s.assignView sv = some t) :
    t.data = patch s.data 0 (chars.take Capacity ++ [0]) := by
  rw [assignView, assign_eq hsv] at hassign
  obtain rfl := Option.some.inj hassign
  rfl

theorem clear_data (hclear : s.clear = some t) : t.data = patch s.data 0 [0] := by
  rw [clear_eq] at hclear
  obtain rfl := Option.some.inj hclear
  rfl

theorem Refines.setChar_data (h : s.Refines b) {i : Nat} {c : UInt8}
    {r : Bool × Bounded UInt8 Capacity} (hop : Op.onContents.setChar b i c = some r)
    (hassign : s.assignChar i c = some (answer, t)) : t.data = patch s.data i [c] := by
  obtain ⟨hlt, -⟩ := h.setChar hop
  have hle := h.le
  rw [assignChar_eq (by omega)] at hassign
  obtain ⟨-, rfl⟩ := Prod.mk.inj (Option.some.inj hassign)
  rfl

/-- A call that a program may make stores this run of cells, and no other. -/
theorem Refines.step_data (hcap : Capacity < 2 ^ 32) (hw : 32 ≤ w) (h : s.Refines b)
    {op : Op} (hcall : op.isCall = true) {r : Bool × Bounded UInt8 Capacity}
    (hop : op.onContents b = some r)
    (hstep : s.step w hasExceptions op = some (answer, t)) :
    t.data = patch s.data (op.stores b).1 (op.stores b).2 := by
  have hanswers : ∀ {call : Option (StaticString Capacity)},
      (do return (true, ← call)) = some (answer, t) → call = some t := by
    intro call hcalled
    simp only [Option.bind_eq_bind, Option.bind_eq_some_iff, Option.pure_def,
      Option.some.injEq, Prod.mk.injEq] at hcalled
    obtain ⟨u, hu, -, rfl⟩ := hcalled
    exact hu
  cases op with
  | construct => cases hcall
  | constructView sv => cases hcall
  | constructPtr p => cases hcall
  | assignView sv =>
      obtain ⟨l, hl, -⟩ := Option.map_eq_some_iff.mp hop
      rw [Op.stores, hl]
      exact assigned_data (h.views hl) (hanswers hstep)
  | assignPtr p =>
      obtain hnull | ⟨l, hl, -⟩ := onContents_assignPtr hop
      · obtain ⟨rfl, -⟩ := hnull
        rw [Op.stores, Op.stores.replace, CharPtr.ofContents, Option.getD_none, List.take_nil]
        exact clear_data (hanswers hstep)
      · obtain ⟨sv, hsv, hviews⟩ := h.viewOfPtr hl
        rw [Op.stores, hl]
        exact assigned_data hviews ((assignPtr_eq hsv).symm.trans (hanswers hstep))
  | assign sv =>
      obtain ⟨l, hl, -⟩ := Option.map_eq_some_iff.mp hop
      have hassign := assign_eq (h.views hl)
      obtain ⟨-, rfl⟩ := Prod.mk.inj (Option.some.inj (hassign.symm.trans hstep))
      rw [Op.stores, hl]
      rfl
  | append sv =>
      obtain ⟨l, hl, -⟩ := Option.map_eq_some_iff.mp hop
      have happend := append_eq hcap hw h.le (h.views hl)
      obtain ⟨-, rfl⟩ := Prod.mk.inj (Option.some.inj (happend.symm.trans hstep))
      rw [Op.stores, hl, ← h.size]
      rfl
  | clear => exact clear_data (hanswers hstep)
  | setAt index c =>
      obtain ⟨hlt, -⟩ := h.setChar hop
      have hat : s.atIndex hasExceptions index = .ok index.toNat := if_neg (by
        rw [ge_iff_le, UInt32.le_iff_toNat_le]
        omega)
      simp only [StaticString.step, hat] at hstep
      exact h.setChar_data hop hstep
  | setIndex index c => exact h.setChar_data hop hstep
  | setIterator position c => exact h.setChar_data hop hstep

end StaticString

end Sinew
