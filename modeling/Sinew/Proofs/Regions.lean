import Mathlib.Logic.Equiv.Basic
import Sinew.Proofs.Kernel

/-!
# Regions that own their mappings

Of the live regions of a process, each that is valid has its pages mapped, all
to one segment, and shares them with no other. What objects there are, and in
which process, is an owner table; the invariant survives a new mapping, the end
of one, and any change of the table that does not hand one region to two
owners.
-/

namespace Sinew

open Lib

/-- The live objects: for each its process and its region. -/
abbrev Owners := Nat → Option (Nat × SharedMemoryRegion)

/-- A region that is not valid and unlinks nothing when it goes. -/
structure SharedMemoryRegion.Blank (r : SharedMemoryRegion) : Prop where
  data : r.data = none
  isCreator : r.isCreator = false

theorem SharedMemoryRegion.blank_movedFrom (r : SharedMemoryRegion) : r.movedFrom.Blank :=
  ⟨rfl, rfl⟩

theorem SharedMemoryRegion.blank_closed (r : SharedMemoryRegion) : r.closed.Blank :=
  ⟨rfl, rfl⟩

theorem SharedMemoryRegion.blank_default : SharedMemoryRegion.Blank {} := ⟨rfl, rfl⟩

structure Regions (k : Kernel) (owners : Owners) : Prop where
  live : ∀ x pid r, owners x = some (pid, r) → r.data ≠ none →
    0 < r.size ∧ (∃ page, 0 < page ∧ r.data = some ⟨page * pageSize, 0⟩) ∧
      ∃ seg, ∀ i, r.Covers i → (k.processes pid).pages i = some seg
  apart : ∀ x y pid r r' i, x ≠ y → owners x = some (pid, r) →
    owners y = some (pid, r') → r.Covers i → ¬ r'.Covers i

namespace Regions

variable {k k' : Kernel} {owners : Owners} {pid : Nat} {r : SharedMemoryRegion}

theorem empty (k : Kernel) : Regions k fun _ => none where
  live _ _ _ h := by cases h
  apart _ _ _ _ _ _ _ h := by cases h

theorem samePages (h : Regions k owners) (hk : Kernel.SamePages k k') :
    Regions k' owners where
  live x pid r hx hr := by
    obtain ⟨hsize, hdata, seg, hseg⟩ := h.live x pid r hx hr
    exact ⟨hsize, hdata, seg, fun i hi => (hk pid i).trans (hseg i hi)⟩
  apart := h.apart

/-- A valid region has a page of its own. -/
theorem covers_first (h : Regions k owners) {x : Nat} (hx : owners x = some (pid, r))
    {p : Ptr} (hp : r.data = some p) : r.Covers (p.addr / pageSize) := by
  obtain ⟨hsize, -⟩ := h.live x pid r hx (by rw [hp]; exact Option.some_ne_none p)
  refine ⟨p, hp, Nat.le_refl _, ?_⟩
  have hpos : 0 < pageCount r.size := Nat.div_pos (by
    show pageSize ≤ r.size + (pageSize - 1)
    have : pageSize = 4096 := rfl
    omega) (show 0 < 4096 by decide)
  omega

/-- Whatever the owners do with their regions, as long as no region gets into
two hands. -/
theorem rename (h : Regions k owners) {owners' : Owners} (f : Nat → Nat)
    (hf : Function.Injective f)
    (hfrom : ∀ x pid r, owners' x = some (pid, r) →
      r.data = none ∨ owners (f x) = some (pid, r)) : Regions k owners' where
  live x pid r hx hr := by
    rcases hfrom x pid r hx with hnone | hold
    · exact absurd hnone hr
    · exact h.live (f x) pid r hold hr
  apart x y pid r r' i hne hx hy hi hi' := by
    rcases hfrom x pid r hx with hnone | hold
    · exact SharedMemoryRegion.not_covers hnone i hi
    rcases hfrom y pid r' hy with hnone | hold'
    · exact SharedMemoryRegion.not_covers hnone i hi'
    exact h.apart (f x) (f y) pid r r' i (fun he => hne (hf he)) hold hold' hi hi'

theorem update_none (h : Regions k owners) (x : Nat) {v : Option (Nat × SharedMemoryRegion)}
    (hv : ∀ pid r, v = some (pid, r) → r.data = none) :
    Regions k (Function.update owners x v) := by
  refine h.rename id Function.injective_id fun y pid r hy => ?_
  by_cases hyx : y = x
  · subst hyx
    rw [Function.update_self] at hy
    exact .inl (hv pid r hy)
  · rw [Function.update_of_ne hyx] at hy
    exact .inr hy

theorem mapped_clear (h : Regions k owners) {seg : Nat} (hm : Kernel.Mapped k k' pid r seg)
    {y pid' : Nat} {r' : SharedMemoryRegion} (hy : owners y = some (pid', r')) {i : Nat}
    (hi : r'.Covers i) : ¬ (pid' = pid ∧ r.Covers i) := by
  rintro ⟨rfl, hi'⟩
  have hdata : r'.data ≠ none := fun hnone => SharedMemoryRegion.not_covers hnone i hi
  obtain ⟨-, -, seg', hseg'⟩ := h.live y pid' r' hy hdata
  have hfree := hm.free i hi'
  rw [hseg' i hi] at hfree
  cases hfree

theorem mapped_other (h : Regions k owners) {seg : Nat} (hm : Kernel.Mapped k k' pid r seg)
    {y pid' : Nat} {r' : SharedMemoryRegion} (hy : owners y = some (pid', r')) {i : Nat}
    (hi : r'.Covers i) :
    (k'.processes pid').pages i = (k.processes pid').pages i :=
  hm.other pid' i (h.mapped_clear hm hy hi)

theorem mapped (h : Regions k owners) {seg : Nat} (hm : Kernel.Mapped k k' pid r seg)
    {x : Nat} : Regions k' (Function.update owners x (some (pid, r))) := by
  constructor
  · intro y pid' r' hy hr
    by_cases hyx : y = x
    · subst hyx
      rw [Function.update_self] at hy
      obtain ⟨rfl, rfl⟩ := Prod.mk.inj (Option.some.inj hy)
      exact ⟨hm.size, hm.data, seg, hm.covered⟩
    · rw [Function.update_of_ne hyx] at hy
      obtain ⟨hsize, hdata, seg', hseg'⟩ := h.live y pid' r' hy hr
      exact ⟨hsize, hdata, seg', fun i hi => (h.mapped_other hm hy hi).trans (hseg' i hi)⟩
  · intro y z pid' r₁ r₂ i hne hy hz hi hi'
    by_cases hyx : y = x
    · subst hyx
      rw [Function.update_self] at hy
      obtain ⟨rfl, rfl⟩ := Prod.mk.inj (Option.some.inj hy)
      rw [Function.update_of_ne hne.symm] at hz
      exact h.mapped_clear hm hz hi' ⟨rfl, hi⟩
    · rw [Function.update_of_ne hyx] at hy
      by_cases hzx : z = x
      · subst hzx
        rw [Function.update_self] at hz
        obtain ⟨rfl, rfl⟩ := Prod.mk.inj (Option.some.inj hz)
        exact h.mapped_clear hm hy hi ⟨rfl, hi'⟩
      · rw [Function.update_of_ne hzx] at hz
        exact h.apart y z pid' r₁ r₂ i hne hy hz hi hi'

theorem released_other (h : Regions k owners) {x y pid' : Nat} {r' : SharedMemoryRegion}
    (hx : owners x = some (pid, r)) (hy : owners y = some (pid', r')) (hne : x ≠ y)
    {i : Nat} (hi : r'.Covers i) :
    ((k.released pid r).processes pid').pages i = (k.processes pid').pages i := by
  refine Kernel.released_other k fun ⟨hpid, hi'⟩ => ?_
  subst hpid
  exact h.apart x y pid' r r' i hne hx hy hi' hi

theorem released (h : Regions k owners) {x : Nat} (hx : owners x = some (pid, r))
    {v : Option (Nat × SharedMemoryRegion)}
    (hv : ∀ pid r, v = some (pid, r) → r.data = none) :
    Regions (k.released pid r) (Function.update owners x v) := by
  have hup := h.update_none x hv
  refine ⟨fun y pid' r' hy hr => ?_, hup.apart⟩
  obtain ⟨hsize, hdata, seg, hseg⟩ := hup.live y pid' r' hy hr
  refine ⟨hsize, hdata, seg, fun i hi => ?_⟩
  have hne : x ≠ y := by
    rintro rfl
    rw [Function.update_self] at hy
    exact hr (hv pid' r' hy)
  rw [Function.update_of_ne hne.symm] at hy
  rw [h.released_other hx hy hne hi]
  exact hseg i hi

end Regions

end Sinew
