import Sinew.Lib.Steps
import Sinew.Proofs.Regions

/-!
# Exclusive creation

A creator holds its name: while it lives the name leads to its segment, and no
other creator has the name. Every call keeps this up but one. A
`create_exclusive` that finds the name taken fails, and on the way out destroys
a local region that has the name and the creator flag, which takes the name
away from whoever holds it. So the calls that keep the promise are exactly
those that do not find their name taken.
-/

namespace Sinew

open Lib

theorem toOff_of_lt {size : Nat} (h : size < 2 ^ 63) : toOff size = size := by
  unfold toOff
  rw [Int.bmod_eq_of_le (by omega) (by omega)]

theorem lt_of_toOff_nonneg {size : Nat} (h : 0 ≤ toOff size) (hsize : size < 2 ^ 64) :
    size < 2 ^ 63 := by
  by_contra hge
  have hneg : toOff size = (size : Int) - 2 ^ 64 := by
    unfold toOff
    rw [Int.bmod_def]
    omega
  omega

/-- Each creator holds its name. -/
structure Creators (k : Kernel) (owners : Owners) : Prop where
  regions : Regions k owners
  known : ∀ n seg, k.names n = some seg → seg < k.created
  named : ∀ x pid r, owners x = some (pid, r) → r.isCreator = true →
    r.data ≠ none ∧ r.size < 2 ^ 64 ∧ 0 ≤ toOff r.size ∧
      ∃ seg, k.names (osName r.name) = some seg ∧
        (k.segments seg).length = toOff r.size ∧
        ∀ i, r.Covers i → (k.processes pid).pages i = some seg
  unique : ∀ x y pid pid' r r', owners x = some (pid, r) → owners y = some (pid', r') →
    r.isCreator = true → r'.isCreator = true → osName r.name = osName r'.name → x = y

namespace Creators

variable {k k' : Kernel} {owners : Owners} {pid : Nat} {r : SharedMemoryRegion} {x : Nat}

theorem empty (hknown : ∀ n seg, k.names n = some seg → seg < k.created) :
    Creators k fun _ => none where
  regions := .empty k
  known := hknown
  named _ _ _ h := by cases h
  unique _ _ _ _ _ _ h := by cases h

theorem rename (h : Creators k owners) {owners' : Owners} (f : Nat → Nat)
    (hf : Function.Injective f)
    (hfrom : ∀ x pid r, owners' x = some (pid, r) →
      r.Blank ∨ owners (f x) = some (pid, r)) : Creators k owners' where
  regions := h.regions.rename f hf fun x pid r hx =>
    (hfrom x pid r hx).imp_left SharedMemoryRegion.Blank.data
  known := h.known
  named x pid r hx hr := by
    rcases hfrom x pid r hx with hblank | hold
    · rw [hblank.isCreator] at hr
      cases hr
    · exact h.named (f x) pid r hold hr
  unique x y pid pid' r r' hx hy hr hr' hname := by
    rcases hfrom x pid r hx with hblank | hold
    · rw [hblank.isCreator] at hr
      cases hr
    rcases hfrom y pid' r' hy with hblank | hold'
    · rw [hblank.isCreator] at hr'
      cases hr'
    exact hf (h.unique (f x) (f y) pid pid' r r' hold hold' hr hr' hname)

theorem update_blank (h : Creators k owners) (x : Nat)
    {v : Option (Nat × SharedMemoryRegion)} (hv : ∀ pid r, v = some (pid, r) → r.Blank) :
    Creators k (Function.update owners x v) := by
  refine h.rename id Function.injective_id fun y pid r hy => ?_
  by_cases hyx : y = x
  · subst hyx
    rw [Function.update_self] at hy
    exact .inl (hv pid r hy)
  · rw [Function.update_of_ne hyx] at hy
    exact .inr hy

theorem move (h : Creators k owners) {i j : Nat} (hne : i ≠ j)
    (hj : owners j = some (pid, r)) (hi : owners i = none) :
    Creators k (Function.update (Function.update owners j (some (pid, r.movedFrom))) i
      (some (pid, r))) := by
  refine h.rename (Equiv.swap i j) (Equiv.swap i j).injective fun x pid' r' hx => ?_
  by_cases hxi : x = i
  · subst hxi
    rw [Function.update_self] at hx
    rw [Equiv.swap_apply_left, hj]
    exact .inr hx
  rw [Function.update_of_ne hxi] at hx
  by_cases hxj : x = j
  · subst hxj
    rw [Function.update_self] at hx
    obtain ⟨-, rfl⟩ := Prod.mk.inj (Option.some.inj hx)
    exact .inl r.blank_movedFrom
  · rw [Function.update_of_ne hxj] at hx
    rw [Equiv.swap_apply_of_ne_of_ne hxi hxj]
    exact .inr hx

theorem frame (h : Creators k owners) (hpages : Kernel.SamePages k k')
    (hnames : k'.names = k.names) (hcreated : k.created ≤ k'.created)
    (hsegments : ∀ s < k.created, k'.segments s = k.segments s) : Creators k' owners where
  regions := h.regions.samePages hpages
  known n seg hn := Nat.lt_of_lt_of_le (h.known n seg (hnames ▸ hn)) hcreated
  named x pid r hx hr := by
    obtain ⟨hdata, hsize, hoff, seg, hname, hlen, hseg⟩ := h.named x pid r hx hr
    refine ⟨hdata, hsize, hoff, seg, hnames ▸ hname, ?_, fun i hi => ?_⟩
    · rw [hsegments seg (h.known _ seg hname)]
      exact hlen
    · exact (hpages pid i).trans (hseg i hi)
  unique := h.unique

theorem opened (h : Creators k owners) {seg : Nat} (hm : Kernel.Mapped k k' pid r seg)
    (hnames : k'.names = k.names) (hsegments : k'.segments = k.segments)
    (hcreated : k'.created = k.created) (hr : r.isCreator = false) :
    Creators k' (Function.update owners x (some (pid, r))) where
  regions := h.regions.mapped hm
  known n seg hn := by
    rw [hcreated]
    exact h.known n seg (hnames ▸ hn)
  named y pid' r' hy hr' := by
    by_cases hyx : y = x
    · subst hyx
      rw [Function.update_self] at hy
      obtain ⟨rfl, rfl⟩ := Prod.mk.inj (Option.some.inj hy)
      rw [hr] at hr'
      cases hr'
    · rw [Function.update_of_ne hyx] at hy
      obtain ⟨hdata, hsize, hoff, seg', hname, hlen, hseg'⟩ := h.named y pid' r' hy hr'
      exact ⟨hdata, hsize, hoff, seg', hnames ▸ hname, hsegments ▸ hlen,
        fun i hi => (h.regions.mapped_other hm hy hi).trans (hseg' i hi)⟩
  unique y z pid₁ pid₂ r₁ r₂ hy hz hr₁ hr₂ hname := by
    have hold : ∀ y pid' r', Function.update owners x (some (pid, r)) y = some (pid', r') →
        r'.isCreator = true → owners y = some (pid', r') := by
      intro y pid' r' hy hr'
      by_cases hyx : y = x
      · subst hyx
        rw [Function.update_self] at hy
        obtain ⟨rfl, rfl⟩ := Prod.mk.inj (Option.some.inj hy)
        rw [hr] at hr'
        cases hr'
      · rwa [Function.update_of_ne hyx] at hy
    exact h.unique y z pid₁ pid₂ r₁ r₂ (hold y pid₁ r₁ hy hr₁) (hold z pid₂ r₂ hz hr₂)
      hr₁ hr₂ hname

theorem created (h : Creators k owners) {seg : Nat} (hm : Kernel.Mapped k k' pid r seg)
    (hmade : Kernel.Made k k' (osName r.name) seg) (hnone : k.names (osName r.name) = none)
    (hlength : (k'.segments seg).length = toOff r.size) (hoff : 0 ≤ toOff r.size)
    (hsize : r.size < 2 ^ 64) :
    Creators k' (Function.update owners x (some (pid, r))) := by
  obtain ⟨hseg, hcreated⟩ : seg = k.created ∧ k'.created = k.created + 1 := by
    rcases hmade.created with ⟨-, hseg, hcreated⟩ | ⟨hsome, -⟩
    · exact ⟨hseg, hcreated⟩
    · rw [hnone] at hsome
      cases hsome
  have hother : ∀ n seg', k.names n = some seg' → n ≠ osName r.name := by
    rintro n seg' hn rfl
    rw [hnone] at hn
    cases hn
  refine ⟨h.regions.mapped hm, fun n seg' hn => ?_, fun y pid' r' hy hr' => ?_,
    fun y z pid₁ pid₂ r₁ r₂ hy hz hr₁ hr₂ hname => ?_⟩
  · rw [hmade.names] at hn
    rw [hcreated]
    by_cases hnn : n = osName r.name
    · rw [hnn, Function.update_self] at hn
      have := Option.some.inj hn
      omega
    · rw [Function.update_of_ne hnn] at hn
      exact Nat.lt_succ_of_lt (h.known n seg' hn)
  · by_cases hyx : y = x
    · subst hyx
      rw [Function.update_self] at hy
      obtain ⟨rfl, rfl⟩ := Prod.mk.inj (Option.some.inj hy)
      obtain ⟨page, -, hdata⟩ := hm.data
      refine ⟨by rw [hdata]; exact Option.some_ne_none _, hsize, hoff, seg, ?_, hlength,
        hm.covered⟩
      rw [hmade.names, Function.update_self]
    · rw [Function.update_of_ne hyx] at hy
      obtain ⟨hdata, hsize', hoff', seg', hname, hlen, hseg'⟩ := h.named y pid' r' hy hr'
      refine ⟨hdata, hsize', hoff', seg', ?_, ?_,
        fun i hi => (h.regions.mapped_other hm hy hi).trans (hseg' i hi)⟩
      · rw [hmade.names, Function.update_of_ne (hother _ seg' hname)]
        exact hname
      · have hne : seg' ≠ seg := by
          have := h.known _ seg' hname
          omega
        rw [hmade.segments seg' hne]
        exact hlen
  · have hnew : ∀ y pid' r', owners y = some (pid', r') → r'.isCreator = true →
        osName r'.name ≠ osName r.name := by
      intro y pid' r' hy hr'
      obtain ⟨-, -, -, seg', hname, -⟩ := h.named y pid' r' hy hr'
      exact hother _ seg' hname
    by_cases hyx : y = x <;> by_cases hzx : z = x
    · rw [hyx, hzx]
    · rw [hyx, Function.update_self] at hy
      rw [Function.update_of_ne hzx] at hz
      obtain ⟨rfl, rfl⟩ := Prod.mk.inj (Option.some.inj hy)
      exact absurd hname.symm (hnew z pid₂ r₂ hz hr₂)
    · rw [Function.update_of_ne hyx] at hy
      rw [hzx, Function.update_self] at hz
      obtain ⟨rfl, rfl⟩ := Prod.mk.inj (Option.some.inj hz)
      exact absurd hname (hnew y pid₁ r₁ hy hr₁)
    · rw [Function.update_of_ne hyx] at hy
      rw [Function.update_of_ne hzx] at hz
      exact h.unique y z pid₁ pid₂ r₁ r₂ hy hz hr₁ hr₂ hname

/-- A region that is closed takes away its own name and nobody else's. -/
theorem released (h : Creators k owners) (hx : owners x = some (pid, r))
    {v : Option (Nat × SharedMemoryRegion)} (hv : ∀ pid r, v = some (pid, r) → r.Blank) :
    Creators (k.released pid r) (Function.update owners x v) := by
  have hup := h.update_blank x hv
  have hnames : ∀ n seg, (k.released pid r).names n = some seg → k.names n = some seg := by
    intro n seg hn
    rw [Kernel.released_names] at hn
    split at hn
    · by_cases hnn : n = osName r.name
      · rw [hnn, Function.update_self] at hn
        cases hn
      · rwa [Function.update_of_ne hnn] at hn
    · exact hn
  refine ⟨h.regions.released hx fun pid r hr => (hv pid r hr).data, fun n seg hn => ?_,
    fun y pid' r' hy hr' => ?_, hup.unique⟩
  · rw [Kernel.released_created]
    exact h.known n seg (hnames n seg hn)
  · obtain ⟨hdata, hsize, hoff, seg, hname, hlen, hseg⟩ := hup.named y pid' r' hy hr'
    have hne : x ≠ y := by
      rintro rfl
      rw [Function.update_self] at hy
      exact hdata (hv pid' r' hy).data
    rw [Function.update_of_ne hne.symm] at hy
    refine ⟨hdata, hsize, hoff, seg, ?_, ?_, fun i hi => ?_⟩
    · rw [Kernel.released_names]
      split
      · next hcreator =>
          have hother : osName r'.name ≠ osName r.name := fun hsame =>
            hne (h.unique x y pid pid' r r' hx hy hcreator.1 hr' hsame.symm)
          rw [Function.update_of_ne hother]
          exact hname
      · exact hname
    · rw [Kernel.released_segments]
      exact hlen
    · rw [h.regions.released_other hx hy hne hi]
      exact hseg i hi

end Creators

/-! ## The calls -/

theorem exists_occupied {k : Kernel} {name : Name} (size pid : Nat) (hname : name ≠ [])
    (htaken : k.names (osName name) ≠ none) :
    ∃ k', (SharedMemoryRegion.createExclusive name size).run (Kernel.machine pid) k =
      ({}, k') ∧ k'.names = Function.update k.names (osName name) none := by
  rcases Kernel.createWith_cases k pid { creat := true, excl := true, trunc := false } rfl name
      size with
    ⟨k', hrun, -, hnames⟩ | ⟨_, _, _, _, _, _, _, _, _, hnone⟩
  · refine ⟨k', hrun, (hnames rfl).1.trans ?_⟩
    rw [Kernel.unlinked, if_neg hname]
  · exact absurd (hnone rfl) htaken

namespace RegionWorld

structure Sound (w : World SharedMemoryRegion) : Prop where
  creators : Creators w.kernel w.objects
  fresh : ∀ x, w.count ≤ x → w.objects x = none

/-- A call that does not look for a name that is taken in order to create it. -/
def Allowed (w : World SharedMemoryRegion) : RegionOp → Prop
  | .createExclusive _ name _ => name = [] ∨ w.kernel.names (osName name) = none
  | _ => True

/-- A call that answers a region that is not valid has left the names alone. -/
def FailureLeavesNames (w : World SharedMemoryRegion) : RegionOp → Prop
  | .createExclusive pid name size =>
      let r := (SharedMemoryRegion.createExclusive name size.toNat).run
        (Kernel.machine pid) w.kernel
      r.1.isValid = false → r.2.names = w.kernel.names
  | .openRegion pid name size =>
      let r := (SharedMemoryRegion.openRegion name size.toNat).run (Kernel.machine pid)
        w.kernel
      r.1.isValid = false → r.2.names = w.kernel.names
  | _ => True

/-- No two live creators have one name. -/
def OneCreator (w : World SharedMemoryRegion) : Prop :=
  ∀ x y pid pid' r r', w.objects x = some (pid, r) → w.objects y = some (pid', r') →
    r.isValid → r'.isValid → r.isCreator → r'.isCreator →
    osName r.name = osName r'.name → x = y

/-- What a live creator created is found under its name, in any process and with
any size up to its own, unless the kernel refuses a call. -/
def Findable (w : World SharedMemoryRegion) : Prop :=
  ∀ x pid r, w.objects x = some (pid, r) → r.isValid → r.isCreator →
    ∀ pid' name size, osName name = osName r.name → size ≤ r.size →
      let found := (SharedMemoryRegion.openRegion name size).run (Kernel.machine pid')
        w.kernel
      (∃ p p' seg, r.data = some p ∧ found.1.data = some p' ∧
        w.kernel.segmentAt pid p = some seg ∧ found.2.segmentAt pid' p' = some seg) ∨
      w.kernel.refusals < found.2.refusals

theorem Sound.construct {w : World SharedMemoryRegion} (h : Sound w) {k' : Kernel}
    {pid : Nat} {r : SharedMemoryRegion}
    (hk : Creators k' (Function.update w.objects w.count (some (pid, r)))) :
    Sound (w.construct pid (r, k')) where
  creators := hk
  fresh x hx := by
    have hlt : w.count < x := hx
    exact (Function.update_of_ne (Nat.ne_of_gt hlt) _ _).trans (h.fresh x (Nat.le_of_lt hlt))

theorem Sound.lt {w : World SharedMemoryRegion} (h : Sound w) {x : Nat}
    {o : Nat × SharedMemoryRegion} (hx : w.objects x = some o) : x < w.count := by
  by_contra hge
  rw [h.fresh x (by omega)] at hx
  cases hx

theorem blank_some {pid pid' : Nat} {r r' : SharedMemoryRegion} (hr : r.Blank)
    (h : some (pid, r) = some (pid', r')) : r'.Blank := by
  obtain ⟨-, rfl⟩ := Prod.mk.inj (Option.some.inj h)
  exact hr

theorem Sound.createExclusive {w : World SharedMemoryRegion} (h : Sound w) {pid : Nat}
    {name : Name} {size : UInt64} (hok : Allowed w (.createExclusive pid name size)) :
    Sound (step w (.createExclusive pid name size)) ∧
      FailureLeavesNames w (.createExclusive pid name size) := by
  rcases Kernel.createWith_cases w.kernel pid { creat := true, excl := true, trunc := false }
      rfl name size.toNat with
    ⟨k', hrun, hpages, hx⟩ | ⟨p, fd, seg, k', hrun, hmade, hmapped, hlen, hoff, hnone⟩
  · have hrun : (SharedMemoryRegion.createExclusive name size.toNat).run
        (Kernel.machine pid) w.kernel = ({}, k') := hrun
    obtain ⟨hnames, hcreated, hsegments⟩ := hx rfl
    have hsame : k'.names = w.kernel.names := by
      rw [hnames, Kernel.unlinked]
      split
      · rfl
      · next hne =>
          have hnone := hok.resolve_left hne
          rw [← hnone, Function.update_eq_self]
    constructor
    · simp only [RegionWorld.step, hrun]
      exact h.construct ((h.creators.frame hpages hsame hcreated hsegments).update_blank
        _ fun pid r => blank_some SharedMemoryRegion.blank_default)
    · simp only [FailureLeavesNames, hrun]
      exact fun _ => hsame
  · have hrun : (SharedMemoryRegion.createExclusive name size.toNat).run
        (Kernel.machine pid) w.kernel =
        (⟨name, some p, size.toNat, true, some fd⟩, k') := hrun
    constructor
    · simp only [RegionWorld.step, hrun]
      exact h.construct (h.creators.created hmapped hmade (hnone rfl) hlen hoff
        size.toNat_lt)
    · simp only [FailureLeavesNames, hrun]
      intro hinvalid
      cases hinvalid

theorem Sound.openRegion {w : World SharedMemoryRegion} (h : Sound w) (pid : Nat)
    (name : Name) (size : UInt64) :
    Sound (step w (.openRegion pid name size)) ∧
      FailureLeavesNames w (.openRegion pid name size) := by
  rcases Kernel.openRegion_cases w.kernel pid name size.toNat with
    ⟨k', hrun, hf, -⟩ | ⟨p, fd, seg, k', hrun, hnames, hsegments, hcreated, -, hmapped⟩
  · constructor
    · simp only [RegionWorld.step, hrun]
      refine h.construct ((h.creators.frame hf.pages hf.names
        (Nat.le_of_eq hf.created.symm) fun s _ => ?_).update_blank _ fun pid r =>
          blank_some SharedMemoryRegion.blank_default)
      rw [hf.segments]
    · simp only [FailureLeavesNames, hrun]
      exact fun _ => hf.names
  · constructor
    · simp only [RegionWorld.step, hrun]
      exact h.construct (h.creators.opened hmapped hnames hsegments hcreated rfl)
    · simp only [FailureLeavesNames, hrun]
      exact fun _ => hnames

theorem Sound.step {w : World SharedMemoryRegion} (h : Sound w) {op : RegionOp}
    (hok : Allowed w op) : Sound (step w op) ∧ FailureLeavesNames w op := by
  cases op with
  | createExclusive pid name size => exact h.createExclusive hok
  | openRegion pid name size => exact h.openRegion pid name size
  | moveConstruct j =>
      refine ⟨?_, trivial⟩
      simp only [RegionWorld.step]
      split
      · exact h
      · next pid r hj =>
          have hne : w.count ≠ j := Nat.ne_of_gt (h.lt hj)
          have hmoved := h.creators.move hne hj (h.fresh _ (Nat.le_refl _))
          refine ⟨hmoved, fun x hx => ?_⟩
          have hlt : w.count < x := hx
          have hlt' := h.lt hj
          exact (Function.update_of_ne (Nat.ne_of_gt hlt) _ _).trans
            ((Function.update_of_ne (by omega) _ _).trans (h.fresh x (Nat.le_of_lt hlt)))
  | moveAssign i j =>
      refine ⟨?_, trivial⟩
      simp only [RegionWorld.step]
      split
      · next pid r pid' other hi hj =>
          split
          · exact h
          · next hok =>
              obtain ⟨hne, hpid⟩ := not_or.mp hok
              obtain rfl := not_not.mp hpid
              rw [Kernel.run_moveAssign]
              have hclosed := h.creators.released hi (v := none) fun _ _ hv => by cases hv
              have hj' : Function.update w.objects i none j = some (pid, other) := by
                rw [Function.update_of_ne (Ne.symm hne)]
                exact hj
              have hmoved := hclosed.move hne hj' (Function.update_self ..)
              rw [Function.update_comm hne, Function.update_idem,
                Function.update_comm (Ne.symm hne)] at hmoved
              refine ⟨hmoved, fun x hx => ?_⟩
              have hxi := h.lt hi
              have hxj := h.lt hj
              have hle : w.count ≤ x := hx
              exact (Function.update_of_ne (by omega) _ _).trans
                ((Function.update_of_ne (by omega) _ _).trans (h.fresh x hle))
      · exact h
  | close i =>
      refine ⟨?_, trivial⟩
      simp only [RegionWorld.step]
      split
      · exact h
      · next pid r hi =>
          rw [Kernel.run_close]
          refine ⟨h.creators.released hi fun _ _ => blank_some r.blank_closed,
            fun x hx => ?_⟩
          have hxi := h.lt hi
          have hle : w.count ≤ x := hx
          exact (Function.update_of_ne (by omega) _ _).trans (h.fresh x hle)
  | destroy i =>
      refine ⟨?_, trivial⟩
      simp only [RegionWorld.step]
      split
      · exact h
      · next pid r hi =>
          rw [Kernel.run_close]
          refine ⟨h.creators.released hi (fun _ _ hv => by cases hv), fun x hx => ?_⟩
          have hxi := h.lt hi
          have hle : w.count ≤ x := hx
          exact (Function.update_of_ne (by omega) _ _).trans (h.fresh x hle)

theorem Sound.oneCreator {w : World SharedMemoryRegion} (h : Sound w) : OneCreator w :=
  fun x y pid pid' r r' hx hy _ _ hr hr' hname =>
    h.creators.unique x y pid pid' r r' hx hy hr hr' hname

theorem Sound.findable {w : World SharedMemoryRegion} (h : Sound w) : Findable w := by
  intro x pid r hx _ hr pid' name size hname hsize
  obtain ⟨hdata, hsize64, hoff, seg, hseg, hlen, hpages⟩ :=
    h.creators.named x pid r hx hr
  obtain ⟨p, hp⟩ := Option.ne_none_iff_exists'.mp hdata
  have hat : w.kernel.segmentAt pid p = some seg :=
    hpages _ (h.creators.regions.covers_first hx hp)
  have hlt := lt_of_toOff_nonneg hoff hsize64
  rcases Kernel.openRegion_cases w.kernel pid' name size with
    ⟨k', hrun, hf, hwhy⟩ | ⟨p', fd, seg', k', hrun, hnames, -, -, hseg', hmapped⟩
  · dsimp only
    rw [hrun]
    refine .inr ?_
    rcases hwhy with hnone | hmore | ⟨seg', hseg', hshort⟩
    · rw [hname, hseg] at hnone
      cases hnone
    · exact hmore
    · rw [hname, hseg] at hseg'
      obtain rfl := Option.some.inj hseg'
      rw [hlen, toOff_of_lt hlt, toOff_of_lt (by omega)] at hshort
      omega
  · dsimp only
    rw [hrun]
    rw [hname, hseg] at hseg'
    obtain rfl := Option.some.inj hseg'
    have hsound := h.creators.regions.mapped hmapped (x := x)
    exact .inl ⟨p, p', seg, hp, rfl, hat,
      hmapped.covered _ (hsound.covers_first (Function.update_self ..) rfl)⟩

theorem sound_start {k : Kernel} (hknown : ∀ n seg, k.names n = some seg → seg < k.created) :
    Sound { kernel := k } where
  creators := .empty hknown
  fresh _ _ := rfl

def after (k : Kernel) (ops : List RegionOp) (n : Nat) : World SharedMemoryRegion :=
  run { kernel := k } (ops.take n)

/-- **Exclusive creation.** In a run of any processes' calls, one whole call after the
other, every failed call leaves the names alone, and in every state each name has at
most one creator and leads to what it created, exactly if no call of the run tries to
create a name that is taken. Of calls that overlap nothing is said: one that fails in
`ftruncate` or `mmap` removes its name twice, and the second time the name may be one
that another call has made in between. -/
theorem exclusive_creation_iff (k : Kernel)
    (hknown : ∀ n seg, k.names n = some seg → seg < k.created) (ops : List RegionOp) :
    ((∀ n op, ops[n]? = some op → FailureLeavesNames (after k ops n) op) ∧
      ∀ n, OneCreator (after k ops n) ∧ Findable (after k ops n)) ↔
    ∀ n op, ops[n]? = some op → Allowed (after k ops n) op := by
  constructor
  · rintro ⟨hleaves, -⟩ n op hop
    cases op with
    | createExclusive pid name size =>
        by_contra hbad
        obtain ⟨hname, htaken⟩ := not_or.mp hbad
        obtain ⟨k', hrun, hnames⟩ := exists_occupied size.toNat pid hname htaken
        have hsame := hleaves n _ hop
        simp only [FailureLeavesNames, hrun] at hsame
        refine htaken ?_
        rw [← hsame rfl, hnames, Function.update_self]
    | _ => trivial
  · intro hallowed
    have hsound : ∀ n, Sound (after k ops n) := fun n =>
      foldl_take_invariant (sound_start hknown) fun m _ op hop ih =>
        (ih.step (hallowed m op hop)).1
    exact ⟨fun n op hop => ((hsound n).step (hallowed n op hop)).2,
      fun n => ⟨(hsound n).oneCreator, (hsound n).findable⟩⟩

/-- A name that is given back may be taken again. -/
theorem exclusive_creation_again :
    let calls := [RegionOp.createExclusive 1 [0x61] 64, .openRegion 2 [0x61] 32, .destroy 0,
      .createExclusive 2 [0x61] 8]
    OneCreator (after .obliging calls 4) ∧ Findable (after .obliging calls 4) := by
  intro calls
  refine ((exclusive_creation_iff .obliging (fun _ _ h => by cases h) calls).mpr
    fun n op hop => ?_).2 4
  match n, hop with
  | 0, hop =>
      obtain rfl := Option.some.inj hop
      exact .inr (by decide +kernel)
  | 1, hop =>
      obtain rfl := Option.some.inj hop
      trivial
  | 2, hop =>
      obtain rfl := Option.some.inj hop
      trivial
  | 3, hop =>
      obtain rfl := Option.some.inj hop
      exact .inr (by decide +kernel)
  | _ + 4, hop => cases hop

/-- The second `create_exclusive` of a name fails and takes the name away, and
so the third is a second creator of it. -/
theorem exclusive_creation_unlinks :
    let calls := [RegionOp.createExclusive 1 [0x61] 64, .createExclusive 2 [0x61] 64,
      .createExclusive 3 [0x61] 64]
    ¬ FailureLeavesNames (after .obliging calls 1) (.createExclusive 2 [0x61] 64) ∧
      ¬ OneCreator (after .obliging calls 3) := by
  intro calls
  constructor
  · intro h
    have hnames := congrFun (h (by decide +kernel)) [0x2F, 0x61]
    revert hnames
    decide +kernel
  · intro h
    have hsame := h 0 2 1 3 ⟨[0x61], some ⟨0x5000, 0⟩, 64, true, some 3⟩
      ⟨[0x61], some ⟨0x9000, 0⟩, 64, true, some 7⟩ (by decide +kernel) (by decide +kernel)
      rfl rfl rfl rfl rfl
    cases hsame

end RegionWorld

end Sinew
