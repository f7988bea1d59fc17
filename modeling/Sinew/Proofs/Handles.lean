import Sinew.Lib.Steps
import Sinew.Model.Handles
import Sinew.Proofs.Regions
import Sinew.Proofs.Segment

/-!
# Valid handles

A handle is valid when its two pointers are not null. It is good when they
point into a mapping its own region owns. The calls that get or drop a handle
keep all handles good, and so does moving one that is not valid. Moving a valid
one does not: the region knows how to be moved from, but the pointers are
copied, and the source stays valid with nothing behind it. So the runs in which
every valid handle is good are those in which no valid handle is moved from.
-/

namespace Sinew

open Lib

namespace IpcHandle

/-- The pointers are where the region is mapped, if it is mapped at all. -/
structure Tied (P : IpcParams) (h : IpcHandle) : Prop where
  hdr : h.hdr = h.shm.data
  slotsBase : h.slotsBase = h.shm.data.map (·.add IpcRingHeader.size)
  size : h.shm.data ≠ none → h.shm.size = P.totalShmSize

theorem Tied.default {P : IpcParams} : Tied P {} := ⟨rfl, rfl, fun h => absurd rfl h⟩

theorem Tied.data_none {P : IpcParams} {h : IpcHandle} (ht : h.Tied P)
    (hvalid : ¬ h.isValid) : h.shm.data = none := by
  cases hdata : h.shm.data with
  | none => rfl
  | some data =>
      refine absurd ?_ hvalid
      rw [isValid, ht.hdr, ht.slotsBase, hdata]
      rfl

theorem Tied.moved {P : IpcParams} {h : IpcHandle} (ht : h.Tied P)
    (hdata : h.shm.data = none) : Tied P { h with shm := h.shm.movedFrom } where
  hdr := ht.hdr.trans hdata
  slotsBase := by
    rw [ht.slotsBase, hdata]
    rfl
  size h := absurd rfl h

/-- What a valid handle is meant to be: its pointers are into a live mapping
that its own region owns, and the whole ring with them. -/
def Owns (h : IpcHandle) (k : Kernel) (pid : Nat) (P : IpcParams) : Prop :=
  ∃ data seg, h.shm.data = some data ∧ h.hdr = some data ∧
    h.slotsBase = some (data.add IpcRingHeader.size) ∧ h.shm.size = P.totalShmSize ∧
    k.Sees pid data P.totalShmSize seg

end IpcHandle

namespace HandleWorld

/-- Every valid handle owns what it points to, and no two share a mapping. -/
structure Sound (w : World (IpcParams × IpcHandle)) : Prop where
  owned : ∀ x pid P h, w.objects x = some (pid, P, h) → h.isValid →
    h.Owns w.kernel pid P
  apart : ∀ x y pid P P' h h', x ≠ y → w.objects x = some (pid, P, h) →
    w.objects y = some (pid, P', h') → h.isValid → h'.isValid →
    ∀ i, ¬ (h.shm.Covers i ∧ h'.shm.Covers i)

/-- A call that does not move from a valid handle. Moves of a handle to itself,
to another process or to another type are no calls. -/
def Allowed (w : World (IpcParams × IpcHandle)) : HandleOp → Prop
  | .moveConstruct j => ∀ pid P other, w.objects j = some (pid, P, other) →
      ¬ other.isValid
  | .moveAssign i j => ∀ pid P this other, i ≠ j → w.objects i = some (pid, P, this) →
      w.objects j = some (pid, P, other) → ¬ other.isValid
  | _ => True

def regions (objects : Nat → Option (Nat × IpcParams × IpcHandle)) : Owners :=
  fun x => (objects x).map fun o => (o.1, o.2.2.shm)

variable {objects : Nat → Option (Nat × IpcParams × IpcHandle)} {x pid : Nat}
  {P : IpcParams} {h : IpcHandle}

theorem regions_some (hx : objects x = some (pid, P, h)) :
    regions objects x = some (pid, h.shm) := by
  rw [regions, hx]
  rfl

theorem regions_update (objects : Nat → Option (Nat × IpcParams × IpcHandle)) (x : Nat)
    (o : Option (Nat × IpcParams × IpcHandle)) :
    regions (Function.update objects x o) =
      Function.update (regions objects) x (o.map fun o => (o.1, o.2.2.shm)) := by
  funext y
  by_cases hy : y = x
  · subst hy
    simp only [regions, Function.update_self]
  · simp only [regions, Function.update_of_ne hy]

/-- The invariant: the regions own their mappings, and every handle is tied to
its region. -/
structure Tidy (w : World (IpcParams × IpcHandle)) : Prop where
  regions : Regions w.kernel (regions w.objects)
  tied : ∀ x pid P h, w.objects x = some (pid, P, h) → h.Tied P
  fresh : ∀ x, w.count ≤ x → w.objects x = none

variable {w : World (IpcParams × IpcHandle)}

theorem Tidy.sound (hw : Tidy w) : Sound w where
  owned x pid P h hx hvalid := by
    have ht := hw.tied x pid P h hx
    obtain ⟨data, hdata⟩ : ∃ data, h.shm.data = some data := by
      refine Option.ne_none_iff_exists'.mp fun hnone => ?_
      rw [IpcHandle.isValid, ht.hdr, hnone] at hvalid
      cases hvalid
    have hne : h.shm.data ≠ none := by
      rw [hdata]
      exact Option.some_ne_none data
    obtain ⟨-, ⟨page, -, hpage⟩, seg, hseg⟩ :=
      hw.regions.live x pid h.shm (regions_some hx) hne
    obtain rfl : ⟨page * pageSize, 0⟩ = data := Option.some.inj (hpage.symm.trans hdata)
    refine ⟨_, seg, hdata, ht.hdr.trans hdata, ?_, ht.size hne, fun a ha => ?_⟩
    · rw [ht.slotsBase, hdata]
      rfl
    · rw [← ht.size hne] at ha
      exact hseg _ (Kernel.covers_add hpage ha)
  apart x y pid P P' h h' hne hx hy _ _ i := by
    intro ⟨hi, hi'⟩
    exact hw.regions.apart x y pid h.shm h'.shm i hne (regions_some hx) (regions_some hy)
      hi hi'

theorem Tidy.lt (hw : Tidy w) {o : Nat × IpcParams × IpcHandle}
    (hx : w.objects x = some o) : x < w.count := by
  by_contra hge
  rw [hw.fresh x (by omega)] at hx
  cases hx

theorem tied_update
    (hw : ∀ x pid P h, objects x = some (pid, P, h) → IpcHandle.Tied P h) (i : Nat)
    {o : Option (Nat × IpcParams × IpcHandle)}
    (ho : ∀ pid P h, o = some (pid, P, h) → IpcHandle.Tied P h) :
    ∀ x pid P h, Function.update objects i o x = some (pid, P, h) →
      IpcHandle.Tied P h := by
  intro x pid P h hx
  by_cases hxi : x = i
  · subst hxi
    rw [Function.update_self] at hx
    exact ho pid P h hx
  · rw [Function.update_of_ne hxi] at hx
    exact hw x pid P h hx

theorem tied_some {pid' : Nat} {P' : IpcParams} {h' : IpcHandle} (ht : h.Tied P)
    (heq : some (pid, P, h) = some (pid', P', h')) : h'.Tied P' := by
  obtain ⟨-, heq⟩ := Prod.mk.inj (Option.some.inj heq)
  obtain ⟨rfl, rfl⟩ := Prod.mk.inj heq
  exact ht

theorem Tidy.construct (hw : Tidy w) {k' : Kernel} (ht : h.Tied P)
    (hk : Regions k' (Function.update (HandleWorld.regions w.objects) w.count
      (some (pid, h.shm)))) :
    Tidy (w.construct pid ((P, h), k')) where
  regions := by
    show Regions k' (HandleWorld.regions (Function.update w.objects w.count _))
    rw [regions_update]
    exact hk
  tied := tied_update hw.tied _ fun _ _ _ => tied_some ht
  fresh x hx := by
    have hlt : w.count < x := hx
    exact (Function.update_of_ne (Nat.ne_of_gt hlt) _ _).trans
      (hw.fresh x (Nat.le_of_lt hlt))

theorem Tidy.construct_default (hw : Tidy w) {k' : Kernel}
    (hk : Kernel.SamePages w.kernel k') : Tidy (w.construct pid ((P, {}), k')) :=
  hw.construct .default ((hw.regions.samePages hk).update_none _ fun _ _ hr => by
    obtain ⟨-, rfl⟩ := Prod.mk.inj (Option.some.inj hr)
    rfl)

theorem Tidy.construct_attach (hw : Tidy w) {k' : Kernel} {shm : SharedMemoryRegion}
    {data : Ptr} {seg : Nat} {isProducer : Bool} (hdata : shm.data = some data)
    (hsize : shm.size = P.totalShmSize) (hm : Kernel.Mapped w.kernel k' pid shm seg) :
    Tidy (w.construct pid ((P, .attach shm data isProducer), k')) := by
  refine hw.construct ⟨hdata.symm, ?_, fun _ => hsize⟩ (hw.regions.mapped hm)
  show some (data.add IpcRingHeader.size) = shm.data.map (·.add IpcRingHeader.size)
  rw [hdata]
  rfl

theorem Tidy.update_none (hw : Tidy w) (i : Nat)
    {o : Option (Nat × IpcParams × IpcHandle)}
    (ho : ∀ pid P h, o = some (pid, P, h) → IpcHandle.Tied P h ∧ h.shm.data = none)
    (hi : i < w.count) : Tidy { w with objects := Function.update w.objects i o } where
  regions := by
    rw [regions_update]
    refine hw.regions.update_none i fun pid r hr => ?_
    obtain ⟨⟨pid', P, h⟩, ho', heq⟩ := Option.map_eq_some_iff.mp hr
    obtain ⟨-, rfl⟩ := Prod.mk.inj heq
    exact (ho pid' P h ho').2
  tied := tied_update hw.tied i fun pid P h heq => (ho pid P h heq).1
  fresh x hx := by
    have hle : w.count ≤ x := hx
    exact (Function.update_of_ne (by omega) _ _).trans (hw.fresh x hle)

/-- An object whose region is closed first. -/
theorem Tidy.released (hw : Tidy w) (hx : w.objects x = some (pid, P, h))
    {o : Option (Nat × IpcParams × IpcHandle)}
    (ho : ∀ pid P h, o = some (pid, P, h) → IpcHandle.Tied P h ∧ h.shm.data = none) :
    Tidy { w with
      kernel := w.kernel.released pid h.shm
      objects := Function.update w.objects x o } where
  regions := by
    rw [regions_update]
    refine hw.regions.released (regions_some hx) fun pid r hr => ?_
    obtain ⟨⟨pid', P, h⟩, ho', heq⟩ := Option.map_eq_some_iff.mp hr
    obtain ⟨-, rfl⟩ := Prod.mk.inj heq
    exact (ho pid' P h ho').2
  tied := tied_update hw.tied x fun pid P h heq => (ho pid P h heq).1
  fresh y hy := by
    have hle : w.count ≤ y := hy
    have hlt := hw.lt hx
    exact (Function.update_of_ne (by omega) _ _).trans (hw.fresh y hle)

theorem Tidy.moveConstruct (hw : Tidy w) (hj : w.objects x = some (pid, P, h))
    (hvalid : ¬ h.isValid) :
    Tidy ((w.assign x pid (P, h.moveConstruct.2)).construct pid
      ((P, h.moveConstruct.1), w.kernel)) := by
  have ht := hw.tied x pid P h hj
  have hdata := ht.data_none hvalid
  have hrest : Tidy (w.assign x pid (P, h.moveConstruct.2)) := by
    refine hw.update_none x (fun pid' P' h' heq => ?_) (hw.lt hj)
    obtain ⟨-, heq⟩ := Prod.mk.inj (Option.some.inj heq)
    obtain ⟨rfl, rfl⟩ := Prod.mk.inj heq
    exact ⟨ht.moved hdata, rfl⟩
  refine hrest.construct ht (hrest.regions.update_none _ fun pid' r hr => ?_)
  obtain ⟨-, rfl⟩ := Prod.mk.inj (Option.some.inj hr)
  exact hdata

theorem run_moveAssign (k : Kernel) (pid : Nat) (this other : IpcHandle) :
    (this.moveAssign other).run (Kernel.machine pid) k =
      ((other, { other with shm := other.shm.movedFrom }), k.released pid this.shm) := by
  unfold IpcHandle.moveAssign
  rw [Prog.run_bind, Kernel.run_moveAssign]
  rfl

theorem run_destroy (k : Kernel) (pid : Nat) (h : IpcHandle) :
    (h.destroy.run (Kernel.machine pid) k).2 = k.released pid h.shm := by
  unfold IpcHandle.destroy
  rw [Prog.run_bind, Kernel.run_close]
  rfl

theorem Tidy.moveAssign (hw : Tidy w) {i j : Nat} {this other : IpcHandle}
    (hi : w.objects i = some (pid, P, this)) (hj : w.objects j = some (pid, P, other))
    (hvalid : ¬ other.isValid) :
    Tidy (({ w with kernel := w.kernel.released pid this.shm }.assign i pid
      (P, other)).assign j pid (P, { other with shm := other.shm.movedFrom })) := by
  have ht := hw.tied j pid P other hj
  have hdata := ht.data_none hvalid
  have hclosed : Tidy ({ w with kernel := w.kernel.released pid this.shm }.assign i pid
      (P, other)) := by
    refine hw.released hi fun pid' P' h' heq => ?_
    obtain ⟨-, heq⟩ := Prod.mk.inj (Option.some.inj heq)
    obtain ⟨rfl, rfl⟩ := Prod.mk.inj heq
    exact ⟨ht, hdata⟩
  refine hclosed.update_none j (fun pid' P' h' heq => ?_) (hw.lt hj)
  obtain ⟨-, heq⟩ := Prod.mk.inj (Option.some.inj heq)
  obtain ⟨rfl, rfl⟩ := Prod.mk.inj heq
  exact ⟨ht.moved hdata, rfl⟩

variable {host : Endian}

theorem Tidy.step (hw : Tidy w) {op : HandleOp} (hok : Allowed w op) :
    Tidy (step host w op) := by
  cases op with
  | create pid kind name =>
      simp only [HandleWorld.step]
      rcases IpcHandle.create_cases w.kernel pid name kind.params host with
        ⟨k', hrun, hpages⟩ | ⟨p, fd, seg, k', hrun, hmapped, -⟩
      · rw [hrun]
        exact hw.construct_default hpages
      · rw [hrun]
        exact hw.construct_attach rfl rfl hmapped
  | openRing pid kind name =>
      simp only [HandleWorld.step]
      rcases IpcHandle.openHandle_cases w.kernel pid name kind.params host with
        ⟨k', hrun, hpages⟩ | ⟨p, fd, seg, k', hrun, hmapped, -⟩
      · rw [hrun]
        exact hw.construct_default hpages
      · rw [hrun]
        exact hw.construct_attach rfl rfl hmapped
  | moveConstruct j =>
      simp only [HandleWorld.step]
      split
      · exact hw
      · next pid P other hj => exact hw.moveConstruct hj (hok pid P other hj)
  | moveAssign i j =>
      simp only [HandleWorld.step]
      split
      · next pid P this pid' P' other hi hj =>
          split
          · exact hw
          · next hmove =>
              obtain ⟨hne, hmove⟩ := not_or.mp hmove
              obtain ⟨hpid, hP⟩ := not_or.mp hmove
              obtain rfl := not_not.mp hpid
              obtain rfl := not_not.mp hP
              rw [run_moveAssign]
              exact hw.moveAssign hi hj (hok pid P this other hne hi hj)
      · exact hw
  | destroy i =>
      simp only [HandleWorld.step]
      split
      · exact hw
      · next pid P h hi =>
          rw [run_destroy]
          exact hw.released hi fun pid P h heq => by cases heq

/-- A valid handle that was moved from is still valid, and owns nothing. -/
theorem not_sound_moved {w : World (IpcParams × IpcHandle)} {other : IpcHandle}
    (hvalid : other.isValid)
    (hx : w.objects x = some (pid, P, { other with shm := other.shm.movedFrom })) :
    ¬ Sound w := by
  intro hsound
  obtain ⟨data, seg, hdata, -⟩ := hsound.owned x pid P _ hx hvalid
  cases hdata

theorem not_sound_step (hw : Tidy w) {op : HandleOp} (hbad : ¬ Allowed w op) :
    ¬ Sound (step host w op) := by
  cases op with
  | moveConstruct j =>
      simp only [Allowed, not_forall, not_not] at hbad
      obtain ⟨pid, P, other, hj, hvalid⟩ := hbad
      have hne : j ≠ w.count := Nat.ne_of_lt (hw.lt hj)
      have hmoved : (HandleWorld.step host w (.moveConstruct j)).objects j =
          some (pid, P, { other with shm := other.shm.movedFrom }) := by
        simp only [HandleWorld.step, hj]
        show Function.update (Function.update w.objects j _) w.count _ j = _
        rw [Function.update_of_ne hne, Function.update_self]
        rfl
      exact not_sound_moved hvalid hmoved
  | moveAssign i j =>
      simp only [Allowed, not_forall, not_not] at hbad
      obtain ⟨pid, P, this, other, hne, hi, hj, hvalid⟩ := hbad
      have hmoved : (HandleWorld.step host w (.moveAssign i j)).objects j =
          some (pid, P, { other with shm := other.shm.movedFrom }) := by
        simp only [HandleWorld.step, hi, hj]
        rw [if_neg (by simp [hne]), run_moveAssign]
        exact Function.update_self ..
      exact not_sound_moved hvalid hmoved
  | _ => exact absurd trivial hbad

theorem tidy_start (k : Kernel) : Tidy { kernel := k } where
  regions := .empty k
  tied _ _ _ _ h := by cases h
  fresh _ _ := rfl

theorem tidy_after {k : Kernel} {ops : List HandleOp} {n : Nat}
    (hok : ∀ m < n, ∀ op, ops[m]? = some op → Allowed (after host k ops m) op) :
    Tidy (after host k ops n) :=
  foldl_take_invariant (tidy_start k) fun m hm op hop ih => ih.step (hok m hm op hop)

end HandleWorld

end Sinew
