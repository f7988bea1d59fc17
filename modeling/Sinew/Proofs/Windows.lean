import Sinew.Model.Windows

/-!
# Regions on Windows keep to what is theirs

Between any two system calls, what a thread has open is what its regions say, each
handle and each view in one of them (`Tied`). The others cannot change that: a handle
that is in use is not given out again, so a thread that closes only what its regions
hold closes nobody else's. The region a function is making, and the temporary that an
assignment moves from, count as regions too, so there is one rule for each call of the
kernel and the functions follow from those.
-/

namespace Sinew.Windows

open Lib

variable {ι : Type} {process : ι → Process} {i j : ι} {k k' : Kernel ι}

structure Kernel.Inv (process : ι → Process) (k : Kernel ι) : Prop where
  register : k.register.Sound FileMapping.path
  handles : ∀ g ∈ k.register.grants, g.key.1 = process g.holder
  keyed : Keyed View.key k.views
  views : ∀ w ∈ k.views, w.key.1 = process w.holder
  within : ∀ w ∈ k.views, w.object < k.register.count ∧
    w.length ≤ (k.register.objects w.object).size
  strays : k.strays = 0

/-- What the others may do to the kernel, as the thread `i` sees it. -/
structure Kernel.Quiet (i : ι) (k k' : Kernel ι) : Prop where
  register : k.register.Apart i k'.register
  views : Keeps View.holder i k.views k'.views
  lastError : k'.lastError i = k.lastError i

theorem Kernel.Quiet.refl (k : Kernel ι) : k.Quiet i k :=
  ⟨.refl _, .refl _, rfl⟩

theorem Kernel.Quiet.trans {k'' : Kernel ι} (h : k.Quiet i k') (h' : k'.Quiet i k'') :
    k.Quiet i k'' :=
  ⟨h.register.trans h'.register, h.views.trans h'.views, h'.lastError.trans h.lastError⟩

def threadEnv (process : ι → Process) (i : ι) : Env (Kernel ι) where
  inv := Kernel.Inv process
  rely := Kernel.Quiet i
  guar k k' := ∀ j, j ≠ i → k.Quiet j k'
  rely_refl := Kernel.Quiet.refl
  rely_trans _ _ _ := Kernel.Quiet.trans

def Variable.handle (x : Variable) : Option Nat := x.region.handle

def Variable.data (x : Variable) : Option Ptr := x.region.data

def Variable.Blank (x : Variable) : Prop := x.handle = none ∧ x.data = none

/-- The handle is open and of the object of the region's name, the view is of the same
object and long enough. -/
structure Backed (process : ι → Process) (i : ι) (k : Kernel ι) (x : Variable) : Prop where
  handle : ∀ v, x.handle = some v → ∃ g ∈ k.register.grants, g.holder = i ∧
    g.key = (process i, v) ∧
    (k.register.objects g.object).path =
      ((process i).session, cStr (localName x.region.name)) ∧
    (x.exclusive = true → g.first = true)
  data : ∀ p, x.data = some p → ∃ w ∈ k.views, w.holder = i ∧ w.key = (process i, p) ∧
    x.region.size ≤ w.length ∧ ∃ v, x.handle = some v ∧
      ∀ g ∈ k.register.grants, g.holder = i → g.key = (process i, v) → g.object = w.object

/-- What the thread has open is what these regions say. -/
structure Tied {κ : Type} (process : ι → Process) (i : ι) (f : κ → Variable) (k : Kernel ι) :
    Prop where
  backed : ∀ x, Backed process i k (f x)
  handles : ∀ g ∈ k.register.grants, g.holder = i → Has Variable.handle f g.key.2
  views : ∀ w ∈ k.views, w.holder = i → Has Variable.data f w.key.2
  handleOnce : Once Variable.handle f
  viewOnce : Once Variable.data f
  made : ∀ g ∈ k.register.grants, g.holder = i → g.object < k.register.count

namespace Tied

variable {κ κ' : Type} {f : κ → Variable} {f' : κ' → Variable}

theorem start [DecidableEq ι] (answers : Nat → Option Nat) :
    Tied process i (fun _ : κ => {}) { answers := answers } where
  backed _ := ⟨fun _ hv => (by cases hv), fun _ hp => (by cases hp)⟩
  handles _ hg := (by cases hg)
  views _ hw := (by cases hw)
  handleOnce _ _ _ hv := (by cases hv)
  viewOnce _ _ _ hp := (by cases hp)
  made _ hg := (by cases hg)

theorem quiet (h : Tied process i f k) (hq : k.Quiet i k') : Tied process i f k' where
  backed x := by
    refine ⟨fun v hv => ?_, fun p hp => ?_⟩
    · obtain ⟨g, hg, hi, hkey, hname, hfirst⟩ := (h.backed x).handle v hv
      refine ⟨g, (hq.register.grants g hi).mpr hg, hi, hkey, ?_, hfirst⟩
      rw [hq.register.objects _ (h.made g hg hi)]
      exact hname
    · obtain ⟨w, hw, hi, hkey, hsize, v, hv, hobj⟩ := (h.backed x).data p hp
      exact ⟨w, (hq.views w hi).mpr hw, hi, hkey, hsize, v, hv, fun g hg hgi =>
        hobj g ((hq.register.grants g hgi).mp hg) hgi⟩
  handles g hg hi := h.handles g ((hq.register.grants g hi).mp hg) hi
  views w hw hi := h.views w ((hq.views w hi).mp hw) hi
  handleOnce := h.handleOnce
  viewOnce := h.viewOnce
  made g hg hi :=
    Nat.lt_of_lt_of_le (h.made g ((hq.register.grants g hi).mp hg) hi) hq.register.count

/-- Regions change places, and blank ones come or go. -/
theorem transfer (h : Tied process i f k) (back : κ' → κ)
    (hsame : ∀ x, (f' x).Blank ∨ f' x = f (back x))
    (hinj : ∀ x y, ¬(f' x).Blank → ¬(f' y).Blank → back x = back y → x = y)
    (hall : ∀ x, ¬(f x).Blank → ∃ y, back y = x ∧ f' y = f x) : Tied process i f' k := by
  have hhandle : ∀ {z : Variable} {v}, z.handle = some v → ¬z.Blank := by
    intro z v hv hb
    rw [hb.1] at hv
    cases hv
  have hdata : ∀ {z : Variable} {p}, z.data = some p → ¬z.Blank := by
    intro z p hp hb
    rw [hb.2] at hp
    cases hp
  refine ⟨fun x => ?_, fun g hg hi => ?_, fun w hw hi => ?_, fun x y v hx hy => ?_,
    fun x y p hx hy => ?_, h.made⟩
  · rcases hsame x with hb | heq
    · refine ⟨fun v hv => ?_, fun p hp => ?_⟩
      · rw [hb.1] at hv
        cases hv
      · rw [hb.2] at hp
        cases hp
    · rw [heq]
      exact h.backed (back x)
  · obtain ⟨x, hx⟩ := h.handles g hg hi
    obtain ⟨y, -, hy⟩ := hall x (hhandle hx)
    exact ⟨y, by rw [hy, hx]⟩
  · obtain ⟨x, hx⟩ := h.views w hw hi
    obtain ⟨y, -, hy⟩ := hall x (hdata hx)
    exact ⟨y, by rw [hy, hx]⟩
  · refine hinj x y (hhandle hx) (hhandle hy) (h.handleOnce _ _ v ?_ ?_)
    · rw [← (hsame x).resolve_left (hhandle hx), hx]
    · rw [← (hsame y).resolve_left (hhandle hy), hy]
  · refine hinj x y (hdata hx) (hdata hy) (h.viewOnce _ _ p ?_ ?_)
    · rw [← (hsame x).resolve_left (hdata hx), hx]
    · rw [← (hsame y).resolve_left (hdata hy), hy]

variable [DecidableEq κ]

/-- One blank region is as good as another. -/
theorem blank (h : Tied process i f k) {x : κ} {y : Variable} (hx : (f x).Blank)
    (hy : y.Blank) : Tied process i (Function.update f x y) k := by
  refine h.transfer id (fun z => ?_) (fun _ _ _ _ heq => heq) fun z hz => ⟨z, rfl, ?_⟩
  · by_cases hzx : z = x
    · subst hzx
      rw [Function.update_self]
      exact .inl hy
    · exact .inr (Function.update_of_ne hzx _ _)
  · refine Function.update_of_ne ?_ _ _
    rintro rfl
    exact hz hx

theorem move (h : Tied process i f k) {x y : κ} (rest : Variable) (hxy : x ≠ y)
    (hx : (f x).Blank) (hrest : rest.Blank) :
    Tied process i (Function.update (Function.update f x (f y)) y rest) k := by
  refine h.transfer (Equiv.swap x y) (fun z => ?_) (fun z z' _ _ heq => ?_) fun z hz => ?_
  · by_cases hzy : z = y
    · subst hzy
      rw [Function.update_self]
      exact .inl hrest
    · rw [Function.update_of_ne hzy]
      by_cases hzx : z = x
      · subst hzx
        rw [Function.update_self, Equiv.swap_apply_left]
        exact .inr rfl
      · rw [Function.update_of_ne hzx, Equiv.swap_apply_of_ne_of_ne hzx hzy]
        exact .inr rfl
  · exact (Equiv.swap x y).injective heq
  · have hzx : z ≠ x := by
      rintro rfl
      exact hz hx
    by_cases hzy : z = y
    · subst hzy
      refine ⟨x, Equiv.swap_apply_left x z, ?_⟩
      rw [Function.update_of_ne hxy, Function.update_self]
    · refine ⟨z, Equiv.swap_apply_of_ne_of_ne hzx hzy, ?_⟩
      rw [Function.update_of_ne hzy, Function.update_of_ne hzx]

end Tied

/-! ## What each call does -/

section Calls

/-- The thread `i` has been given the handle `v` of the object `o`. -/
structure Kernel.Granted (process : ι → Process) (i : ι) (k k' : Kernel ι) (v o : Nat)
    (first : Bool) : Prop where
  grants : k'.register.grants = ⟨i, (process i, v), o, first⟩ :: k.register.grants
  fresh : ∀ g ∈ k.register.grants, g.key ≠ (process i, v)
  objects : ∀ x < k.register.count, k'.register.objects x = k.register.objects x
  views : k'.views = k.views

theorem Kernel.Inv.congr (h : k.Inv process) (hr : k'.register = k.register)
    (hv : k'.views = k.views) (hs : k'.strays = k.strays) : k'.Inv process := by
  refine ⟨?_, ?_, ?_, ?_, ?_, hs.trans h.strays⟩
  · rw [hr]
    exact h.register
  · rw [hr]
    exact h.handles
  · rw [hv]
    exact h.keyed
  · rw [hv]
    exact h.views
  · rw [hr, hv]
    exact h.within

theorem Kernel.Inv.answered (h : k.Inv process) : k.answered.Inv process :=
  h.congr rfl rfl rfl

theorem Kernel.quiet_answered : k.Quiet j k.answered :=
  ⟨.refl _, .refl _, rfl⟩

theorem Kernel.Inv.granted {v o : Nat} {first : Bool} (h : k.Inv process)
    (hg : k.Granted process i k' v o first) (hsound : k'.register.Sound FileMapping.path)
    (hcount : k.register.count ≤ k'.register.count) (hs : k'.strays = k.strays) :
    k'.Inv process where
  register := hsound
  handles g hmem := by
    rw [hg.grants] at hmem
    rcases List.mem_cons.mp hmem with rfl | hmem
    · rfl
    · exact h.handles g hmem
  keyed := by
    rw [hg.views]
    exact h.keyed
  views := by
    rw [hg.views]
    exact h.views
  within w hw := by
    rw [hg.views] at hw
    obtain ⟨hlt, hle⟩ := h.within w hw
    rw [hg.objects _ hlt]
    exact ⟨Nat.lt_of_lt_of_le hlt hcount, hle⟩
  strays := hs.trans h.strays

theorem Kernel.freeHandle_some {v : Nat} (h : k.freeHandle process i = some v) :
    ∀ g ∈ k.register.grants, g.key ≠ (process i, v) := by
  intro g hg hkey
  rw [Kernel.freeHandle] at h
  cases hans : k.answers k.calls with
  | none =>
      rw [hans] at h
      cases h
  | some n =>
      simp only [hans, Option.bind_eq_bind, Option.bind_some] at h
      split at h
      · cases h
      · next hfree =>
          cases h
          exact hfree (List.any_eq_true.mpr ⟨g, hg, decide_eq_true hkey⟩)

theorem Kernel.freeAddress_some {p : Ptr} (h : k.freeAddress process i = some p) :
    ∀ w ∈ k.views, w.key ≠ (process i, p) := by
  intro w hw hkey
  rw [Kernel.freeAddress] at h
  cases hans : k.answers k.calls with
  | none =>
      rw [hans] at h
      cases h
  | some n =>
      simp only [hans, Option.bind_eq_bind, Option.bind_some] at h
      split at h
      · cases h
      · next hfree =>
          cases h
          exact hfree (List.any_eq_true.mpr ⟨w, hw, decide_eq_true hkey⟩)

theorem Kernel.granted_join {v : Nat} {g : Grant ι (Process × Nat)} {e : ι → Nat}
    (h : k.Inv process) (hfree : ∀ g ∈ k.register.grants, g.key ≠ (process i, v))
    (hg : g ∈ k.register.grants) (he : ∀ j, j ≠ i → e j = k.lastError j) :
    let k' := { k.answered with
      register := k.register.join i (process i, v) g.object, lastError := e }
    k'.Inv process ∧ (∀ j, j ≠ i → k.Quiet j k') ∧
      k.Granted process i k' v g.object false := by
  intro k'
  have hgranted : k.Granted process i k' v g.object false :=
    ⟨rfl, hfree, fun _ _ => rfl, rfl⟩
  exact ⟨h.granted hgranted (h.register.join hfree hg) (Nat.le_refl _) rfl,
    fun j hj => ⟨.join hj.symm, .refl _, he j hj⟩, hgranted⟩

theorem Kernel.granted_make {v : Nat} {o : FileMapping} {e : ι → Nat} (h : k.Inv process)
    (hfree : ∀ g ∈ k.register.grants, g.key ≠ (process i, v))
    (hname : ∀ g ∈ k.register.grants, (k.register.objects g.object).path ≠ o.path)
    (he : ∀ j, j ≠ i → e j = k.lastError j) :
    let k' := { k.answered with register := k.register.make i (process i, v) o, lastError := e }
    k'.Inv process ∧ (∀ j, j ≠ i → k.Quiet j k') ∧
      k.Granted process i k' v k.register.count true := by
  intro k'
  have hgranted : k.Granted process i k' v k.register.count true :=
    ⟨rfl, hfree, fun _ hx => Function.update_of_ne (Nat.ne_of_lt hx) _ _, rfl⟩
  exact ⟨h.granted hgranted (h.register.make hfree hname) (Nat.le_succ _) rfl,
    fun j hj => ⟨.make hj.symm, .refl _, he j hj⟩, hgranted⟩

variable [DecidableEq ι]

/-- `CreateFileMappingA` is refused, or gives a handle of the object of that name. Either
the error code says that there was one or this is its first handle. -/
theorem Kernel.createFileMappingA_cases (h : k.Inv process) (size : Nat) (name : Name) :
    let r := k.createFileMappingA process i size name
    r.2.Inv process ∧ (∀ j, j ≠ i → k.Quiet j r.2) ∧
      ((r.1 = none ∧ r.2 = k.answered) ∨ ∃ v o first, r.1 = some v ∧
        k.Granted process i r.2 v o first ∧
        (r.2.register.objects o).path = ((process i).session, name) ∧
        (r.2.lastError i ≠ errorAlreadyExists → first = true)) := by
  have hupdate : ∀ (v : Nat) (j : ι), j ≠ i →
      Function.update k.lastError i v j = k.lastError j := fun v j hj =>
    Function.update_of_ne hj _ _
  simp only [Kernel.createFileMappingA]
  cases hfree : if size = 0 then none else k.freeHandle process i with
  | none => exact ⟨h.answered, fun _ _ => quiet_answered, .inl ⟨rfl, rfl⟩⟩
  | some v =>
      have hv : k.freeHandle process i = some v := by
        split at hfree
        · cases hfree
        · exact hfree
      cases hfind : k.find process i name with
      | some x =>
          obtain ⟨g, hg, hx, hname⟩ := Register.find_some hfind
          subst hx
          obtain ⟨hinv, hquiet, hgranted⟩ := granted_join (i := i) h (freeHandle_some hv) hg
            (hupdate errorAlreadyExists)
          refine ⟨hinv, hquiet, .inr ⟨v, _, _, rfl, hgranted, hname, fun hne => ?_⟩⟩
          exact absurd (Function.update_self ..) hne
      | none =>
          obtain ⟨hinv, hquiet, hgranted⟩ := granted_make (i := i)
            (o := ⟨(process i).session, name, size⟩) h (freeHandle_some hv)
            (Register.find_eq_none.mp hfind) (hupdate 0)
          refine ⟨hinv, hquiet, .inr ⟨v, _, _, rfl, hgranted, ?_, fun _ => rfl⟩⟩
          simp only [Register.make, Function.update_self, FileMapping.path]

omit [DecidableEq ι] in
theorem Kernel.openFileMappingA_cases (h : k.Inv process) (name : Name) :
    let r := k.openFileMappingA process i name
    r.2.Inv process ∧ (∀ j, j ≠ i → k.Quiet j r.2) ∧
      ((r.1 = none ∧ r.2 = k.answered) ∨ ∃ v o, r.1 = some v ∧
        k.Granted process i r.2 v o false ∧
        (r.2.register.objects o).path = ((process i).session, name)) := by
  simp only [Kernel.openFileMappingA]
  cases hv : k.freeHandle process i with
  | none => exact ⟨h.answered, fun _ _ => quiet_answered, .inl ⟨rfl, rfl⟩⟩
  | some v =>
      cases hfind : k.find process i name with
      | none => exact ⟨h.answered, fun _ _ => quiet_answered, .inl ⟨rfl, rfl⟩⟩
      | some x =>
          obtain ⟨g, hg, hx, hname⟩ := Register.find_some hfind
          subst hx
          obtain ⟨hinv, hquiet, hgranted⟩ := granted_join (i := i) h (freeHandle_some hv) hg
            fun _ _ => rfl
          exact ⟨hinv, hquiet, .inr ⟨v, _, rfl, hgranted, hname⟩⟩

omit [DecidableEq ι] in
/-- `MapViewOfFile` is refused, or gives a view of the handle's object that is as long as
was asked. -/
theorem Kernel.mapViewOfFile_cases (h : k.Inv process) (handle length : Nat) :
    let r := k.mapViewOfFile process i handle length
    r.2.Inv process ∧ (∀ j, j ≠ i → k.Quiet j r.2) ∧
      ((r.1 = none ∧ r.2 = k.answered) ∨ ∃ p g n, r.1 = some p ∧ g ∈ k.register.grants ∧
        g.key = (process i, handle) ∧ length ≤ n ∧ r.2.register = k.register ∧
        r.2.views = ⟨i, (process i, p), g.object, n⟩ :: k.views ∧
        ∀ w ∈ k.views, w.key ≠ (process i, p)) := by
  simp only [Kernel.mapViewOfFile]
  cases hp : k.freeAddress process i with
  | none => exact ⟨h.answered, fun _ _ => quiet_answered, .inl ⟨rfl, rfl⟩⟩
  | some p =>
      cases hfind : k.register.grants.find? (·.key = (process i, handle)) with
      | none => exact ⟨h.answered, fun _ _ => quiet_answered, .inl ⟨rfl, rfl⟩⟩
      | some g =>
          have hg := List.mem_of_find?_eq_some hfind
          have hkey := List.find?_some hfind
          simp only [decide_eq_true_eq] at hkey
          dsimp only
          split
          swap
          · exact ⟨h.answered, fun _ _ => quiet_answered, .inl ⟨rfl, rfl⟩⟩
          next hle =>
            have hfree := freeAddress_some hp
            have hlen : ∀ n, n = (if length = 0 then (k.register.objects g.object).size
                else length) → length ≤ n ∧ n ≤ (k.register.objects g.object).size := by
              intro n hn
              split at hn <;> omega
            obtain ⟨hle', hwithin⟩ := hlen _ rfl
            refine ⟨⟨h.register, h.handles, h.keyed.cons hfree, fun w hw => ?_, fun w hw => ?_,
              h.strays⟩, fun j hj => ⟨.refl _, .cons hj.symm, rfl⟩,
              .inr ⟨p, g, _, rfl, hg, hkey, hle', rfl, rfl, hfree⟩⟩
            · rcases List.mem_cons.mp hw with rfl | hw
              · rfl
              · exact h.views w hw
            · rcases List.mem_cons.mp hw with rfl | hw
              · exact ⟨h.register.made g hg, hwithin⟩
              · exact h.within w hw

omit [DecidableEq ι] in
theorem Kernel.unmapViewOfFile_cases {w : View ι} {p : Ptr} (h : k.Inv process)
    (hw : w ∈ k.views) (hi : w.holder = i) (hkey : w.key = (process i, p)) :
    let k' := k.unmapViewOfFile process i p
    k'.Inv process ∧ (∀ j, j ≠ i → k.Quiet j k') ∧ k'.register = k.register ∧
      k'.views = k.views.filter (·.key ≠ (process i, p)) := by
  have hany : k.views.any (·.key = (process i, p)) = true :=
    List.any_eq_true.mpr ⟨w, hw, decide_eq_true hkey⟩
  simp only [Kernel.unmapViewOfFile, hany, if_true]
  refine ⟨⟨h.register, h.handles, h.keyed.filter _, fun w hw => ?_, fun w hw => ?_, h.strays⟩,
    fun j hj => ⟨.refl _, ?_, rfl⟩, trivial, trivial⟩
  · exact h.views w (List.mem_filter.mp hw).1
  · exact h.within w (List.mem_filter.mp hw).1
  · rw [← hkey]
    exact .filter h.keyed hw (hi ▸ hj.symm)

omit [DecidableEq ι] in
theorem Kernel.closeHandle_cases {g : Grant ι (Process × Nat)} {v : Nat} (h : k.Inv process)
    (hg : g ∈ k.register.grants) (hi : g.holder = i) (hkey : g.key = (process i, v)) :
    let k' := k.closeHandle process i v
    k'.Inv process ∧ (∀ j, j ≠ i → k.Quiet j k') ∧
      k'.register = k.register.drop (process i, v) ∧ k'.views = k.views := by
  have hany : k.register.grants.any (·.key = (process i, v)) = true :=
    List.any_eq_true.mpr ⟨g, hg, decide_eq_true hkey⟩
  simp only [Kernel.closeHandle, hany, if_true]
  refine ⟨⟨h.register.drop _, fun g hg => ?_, h.keyed, h.views, h.within, h.strays⟩,
    fun j hj => ⟨?_, .refl _, rfl⟩, trivial, trivial⟩
  · exact h.handles g (List.mem_filter.mp hg).1
  · rw [← hkey]
    exact .drop h.register.keyed hg (hi ▸ hj.symm)

end Calls

namespace Tied

variable {κ : Type} [DecidableEq κ] {f : κ → Variable} {x : κ} {y : Variable}

theorem granted {v o : Nat} {first : Bool} (h : Tied process i f k) (hinv : k'.Inv process)
    (hg : k.Granted process i k' v o first) (hx : (f x).Blank)
    (hhandle : y.handle = some v) (hdata : y.data = none)
    (hname : (k'.register.objects o).path =
      ((process i).session, cStr (localName y.region.name)))
    (hex : y.exclusive = true → first = true) :
    Tied process i (Function.update f x y) k' := by
  -- no region has had the new handle
  have hnew : ∀ z, (f z).handle ≠ some v := by
    intro z hz
    obtain ⟨g, hmem, -, hkey, -⟩ := (h.backed z).handle v hz
    exact hg.fresh g hmem hkey
  refine ⟨fun z => ?_, fun g hmem hi => ?_, fun w hw hi => ?_, ?_, ?_,
    fun g hmem _ => hinv.register.made g hmem⟩
  · by_cases hzx : z = x
    · subst hzx
      rw [Function.update_self]
      refine ⟨fun u hu => ?_, fun p hp => ?_⟩
      · rw [hhandle] at hu
        cases hu
        exact ⟨_, hg.grants ▸ List.mem_cons_self, rfl, rfl, hname, hex⟩
      · rw [hdata] at hp
        cases hp
    · rw [Function.update_of_ne hzx]
      refine ⟨fun u hu => ?_, fun p hp => ?_⟩
      · obtain ⟨g, hmem, hi, hkey, hold, hfirst⟩ := (h.backed z).handle u hu
        refine ⟨g, hg.grants ▸ List.mem_cons_of_mem _ hmem, hi, hkey, ?_, hfirst⟩
        rw [hg.objects _ (h.made g hmem hi)]
        exact hold
      · obtain ⟨w, hw, hi, hkey, hsize, u, hu, hobj⟩ := (h.backed z).data p hp
        refine ⟨w, hg.views ▸ hw, hi, hkey, hsize, u, hu, fun g hmem hgi hgkey => ?_⟩
        rw [hg.grants] at hmem
        rcases List.mem_cons.mp hmem with rfl | hmem
        · cases hgkey
          exact absurd hu (hnew z)
        · exact hobj g hmem hgi hgkey
  · rw [hg.grants] at hmem
    rcases List.mem_cons.mp hmem with rfl | hmem
    · exact .self hhandle
    · refine (h.handles g hmem hi).update ?_
      rw [hx.1]
      exact nofun
  · rw [hg.views] at hw
    refine (h.views w hw hi).update ?_
    rw [hx.2]
    exact nofun
  · refine h.handleOnce.update fun u hu => ?_
    rw [hhandle] at hu
    cases hu
    exact hnew
  · refine h.viewOnce.update_le fun p hp => ?_
    rw [hdata] at hp
    cases hp

theorem mapped {v n : Nat} {p : Ptr} {g : Grant ι (Process × Nat)} (h : Tied process i f k)
    (hreg : k'.register = k.register)
    (hviews : k'.views = ⟨i, (process i, p), g.object, n⟩ :: k.views)
    (hfree : ∀ w ∈ k.views, w.key ≠ (process i, p)) (hinv : k.Inv process)
    (hg : g ∈ k.register.grants) (hkey : g.key = (process i, v))
    (hx : (f x).handle = some v) (hdata : (f x).data = none) (hy : y.handle = some v)
    (hyp : y.data = some p) (hsize : y.region.size ≤ n)
    (hsame : y.region.name = (f x).region.name) (hex : y.exclusive = (f x).exclusive) :
    Tied process i (Function.update f x y) k' := by
  have hmem : ∀ {w}, w ∈ k.views → w ∈ k'.views := fun hw => hviews ▸ List.mem_cons_of_mem _ hw
  refine ⟨fun z => ?_, fun g' hg' hi => ?_, fun w hw hi => ?_, ?_, ?_, fun g' hg' hi => ?_⟩
  · by_cases hzx : z = x
    · subst hzx
      rw [Function.update_self]
      refine ⟨fun u hu => ?_, fun q hq => ?_⟩
      · rw [hy] at hu
        cases hu
        rw [hreg, hsame, hex]
        exact (h.backed z).handle v hx
      · rw [hyp] at hq
        cases hq
        refine ⟨_, hviews ▸ List.mem_cons_self, rfl, rfl, hsize, v, hy, fun g' hg' _ hkey' => ?_⟩
        rw [hreg] at hg'
        rw [hinv.register.keyed g' hg' g hg (hkey'.trans hkey.symm)]
    · rw [Function.update_of_ne hzx]
      refine ⟨fun u hu => ?_, fun q hq => ?_⟩
      · rw [hreg]
        exact (h.backed z).handle u hu
      · obtain ⟨w, hw, hi, hwkey, hle, u, hu, hobj⟩ := (h.backed z).data q hq
        refine ⟨w, hmem hw, hi, hwkey, hle, u, hu, fun g' hg' => ?_⟩
        rw [hreg] at hg'
        exact hobj g' hg'
  · rw [hreg] at hg'
    obtain ⟨z, hz⟩ := h.handles g' hg' hi
    by_cases hzx : z = x
    · subst hzx
      rw [hx] at hz
      exact .self (hy.trans hz)
    · exact ⟨z, by rw [Function.update_of_ne hzx, hz]⟩
  · rw [hviews] at hw
    rcases List.mem_cons.mp hw with rfl | hw
    · exact .self hyp
    · refine (h.views w hw hi).update ?_
      rw [hdata]
      exact nofun
  · exact h.handleOnce.update_le fun u hu => hx.trans (hy.symm.trans hu)
  · refine h.viewOnce.update fun q hq z hz => ?_
    rw [hyp] at hq
    cases hq
    obtain ⟨w, hw, -, hwkey, -⟩ := (h.backed z).data p hz
    exact hfree w hw hwkey
  · rw [hreg] at hg' ⊢
    exact h.made g' hg' hi

theorem unmapped {p : Ptr} (h : Tied process i f k) (hinv : k.Inv process)
    (hreg : k'.register = k.register)
    (hviews : k'.views = k.views.filter (·.key ≠ (process i, p)))
    (hx : (f x).data = some p) (hy : y.handle = (f x).handle) (hdata : y.data = none)
    (hsame : y.region.name = (f x).region.name) (hex : y.exclusive = (f x).exclusive) :
    Tied process i (Function.update f x y) k' := by
  refine ⟨fun z => ?_, fun g hg hi => ?_, fun w hw hi => ?_, ?_, ?_, fun g hg hi => ?_⟩
  · by_cases hzx : z = x
    · subst hzx
      rw [Function.update_self]
      refine ⟨fun u hu => ?_, fun q hq => ?_⟩
      · rw [hreg, hsame, hex]
        exact (h.backed z).handle u (hy ▸ hu)
      · rw [hdata] at hq
        cases hq
    · rw [Function.update_of_ne hzx]
      refine ⟨fun u hu => ?_, fun q hq => ?_⟩
      · rw [hreg]
        exact (h.backed z).handle u hu
      · obtain ⟨w, hw, hi, hkey, hle, u, hu, hobj⟩ := (h.backed z).data q hq
        have hne : w.key ≠ (process i, p) := by
          rw [hkey]
          intro heq
          rw [(Prod.mk.inj heq).2] at hq
          exact hzx (h.viewOnce z x p hq hx)
        refine ⟨w, ?_, hi, hkey, hle, u, hu, fun g hg => ?_⟩
        · rw [hviews]
          exact List.mem_filter.mpr ⟨hw, decide_eq_true hne⟩
        · rw [hreg] at hg
          exact hobj g hg
  · rw [hreg] at hg
    obtain ⟨z, hz⟩ := h.handles g hg hi
    by_cases hzx : z = x
    · subst hzx
      exact .self (hy.trans hz)
    · exact ⟨z, by rw [Function.update_of_ne hzx, hz]⟩
  · rw [hviews] at hw
    obtain ⟨hw, hne⟩ := List.mem_filter.mp hw
    refine (h.views w hw hi).update fun heq => ?_
    rw [hx] at heq
    refine of_decide_eq_true hne (Prod.ext ?_ (Option.some.inj heq).symm)
    rw [hinv.views w hw, hi]
  · exact h.handleOnce.update_le fun u hu => hy ▸ hu
  · refine h.viewOnce.update_le fun q hq => ?_
    rw [hdata] at hq
    cases hq
  · rw [hreg] at hg ⊢
    exact h.made g hg hi

theorem closed {v : Nat} (h : Tied process i f k) (hinv : k.Inv process)
    (hreg : k'.register = k.register.drop (process i, v)) (hviews : k'.views = k.views)
    (hx : (f x).handle = some v) (hdata : (f x).data = none) (hy : y.Blank) :
    Tied process i (Function.update f x y) k' := by
  have hgrants : ∀ g ∈ k'.register.grants, g ∈ k.register.grants ∧ g.key ≠ (process i, v) := by
    intro g hg
    rw [hreg] at hg
    obtain ⟨hg, hne⟩ := List.mem_filter.mp hg
    exact ⟨hg, of_decide_eq_true hne⟩
  refine ⟨fun z => ?_, fun g hg hi => ?_, fun w hw hi => ?_, ?_, ?_, fun g hg hi => ?_⟩
  · by_cases hzx : z = x
    · subst hzx
      rw [Function.update_self]
      refine ⟨fun u hu => ?_, fun q hq => ?_⟩
      · rw [hy.1] at hu
        cases hu
      · rw [hy.2] at hq
        cases hq
    · rw [Function.update_of_ne hzx]
      refine ⟨fun u hu => ?_, fun q hq => ?_⟩
      · obtain ⟨g, hg, hi, hkey, hname, hfirst⟩ := (h.backed z).handle u hu
        have hne : g.key ≠ (process i, v) := by
          rw [hkey]
          intro heq
          rw [(Prod.mk.inj heq).2] at hu
          exact hzx (h.handleOnce z x v hu hx)
        rw [hreg]
        exact ⟨g, List.mem_filter.mpr ⟨hg, decide_eq_true hne⟩, hi, hkey, hname, hfirst⟩
      · obtain ⟨w, hw, hi, hkey, hle, u, hu, hobj⟩ := (h.backed z).data q hq
        exact ⟨w, hviews ▸ hw, hi, hkey, hle, u, hu, fun g hg => hobj g (hgrants g hg).1⟩
  · obtain ⟨hg, hne⟩ := hgrants g hg
    refine (h.handles g hg hi).update fun heq => ?_
    rw [hx] at heq
    refine hne (Prod.ext ?_ (Option.some.inj heq).symm)
    rw [hinv.handles g hg, hi]
  · rw [hviews] at hw
    refine (h.views w hw hi).update ?_
    rw [hdata]
    exact nofun
  · refine h.handleOnce.update_le fun u hu => ?_
    rw [hy.1] at hu
    cases hu
  · refine h.viewOnce.update_le fun q hq => ?_
    rw [hy.2] at hq
    cases hq
  · rw [hreg]
    exact h.made g (hgrants g hg).1 hi

end Tied

/-! ## The functions -/

/-- A handle comes with a view, between calls. -/
def SharedMemoryRegion.Whole (r : SharedMemoryRegion) : Prop :=
  r.handle = none ↔ r.data = none

def SharedMemoryRegion.ended (r : SharedMemoryRegion) : SharedMemoryRegion :=
  { r with data := none, handle := none, size := 0, isCreator := false }

section Functions

variable [DecidableEq ι] {κ : Type} [DecidableEq κ] {f : κ → Variable} {x : κ} {y : Variable}
  {s : Kernel ι} {α : Type} {Q : α → Kernel ι → Prop}

theorem wp_unmapViewOfFile {p : Ptr} {q : Unit → Code α} (h : Tied process i f s)
    (hx : (f x).data = some p) (hy : y.handle = (f x).handle) (hdata : y.data = none)
    (hsame : y.region.name = (f x).region.name) (hex : y.exclusive = (f x).exclusive)
    (hq : ∀ s', Tied process i (Function.update f x y) s' →
      (threadEnv process i).wp (Kernel.machine process i) (q ()) Q s') :
    (threadEnv process i).wp (Kernel.machine process i) (unmapViewOfFile p >>= q) Q s := by
  refine Env.wp_event_bind fun s' hquiet hinv => ?_
  have h' := h.quiet hquiet
  obtain ⟨w, hw, hi, hkey, -⟩ := (h'.backed x).data p hx
  obtain ⟨hinv', hguar, hreg, hviews⟩ := Kernel.unmapViewOfFile_cases hinv hw hi hkey
  exact ⟨hinv', hguar, hq _ (h'.unmapped hinv hreg hviews hx hy hdata hsame hex)⟩

theorem wp_closeHandle {v : Nat} {q : Unit → Code α} (h : Tied process i f s)
    (hx : (f x).handle = some v) (hdata : (f x).data = none) (hy : y.Blank)
    (hq : ∀ s', Tied process i (Function.update f x y) s' →
      (threadEnv process i).wp (Kernel.machine process i) (q ()) Q s') :
    (threadEnv process i).wp (Kernel.machine process i) (closeHandle v >>= q) Q s := by
  refine Env.wp_event_bind fun s' hquiet hinv => ?_
  have h' := h.quiet hquiet
  obtain ⟨g, hg, hi, hkey, -⟩ := (h'.backed x).handle v hx
  obtain ⟨hinv', hguar, hreg, hviews⟩ := Kernel.closeHandle_cases hinv hg hi hkey
  exact ⟨hinv', hguar, hq _ (h'.closed hinv hreg hviews hx hdata hy)⟩

omit [DecidableEq κ] in
theorem wp_done {a : α} (h : Tied process i f s)
    (hQ : ∀ s', Tied process i f s' → Q a s') :
    (threadEnv process i).wp (Kernel.machine process i) (pure a : Code α) Q s :=
  Env.wp_ret fun s' hquiet _ => hQ s' (h.quiet hquiet)

theorem wp_close (h : Tied process i f s) :
    (threadEnv process i).wp (Kernel.machine process i) (f x).region.close
      (fun r s' => r = (f x).region.ended ∧
        Tied process i (Function.update f x ⟨r, false⟩) s') s := by
  have hblank : (Variable.mk (f x).region.ended false).Blank := ⟨rfl, rfl⟩
  cases hdata : (f x).region.data with
  | none =>
      cases hhandle : (f x).region.handle with
      | none =>
          simp only [SharedMemoryRegion.close, hdata, hhandle]
          exact wp_done (h.blank ⟨hhandle, hdata⟩ hblank) fun s' h' => ⟨rfl, h'⟩
      | some v =>
          simp only [SharedMemoryRegion.close, hdata, hhandle]
          exact wp_closeHandle h hhandle hdata hblank fun s' h' =>
            wp_done h' fun s'' h'' => ⟨rfl, h''⟩
  | some p =>
      obtain ⟨-, -, -, -, -, v, hv, -⟩ := (h.backed x).data p hdata
      have hhandle : (f x).region.handle = some v := hv
      simp only [SharedMemoryRegion.close, hdata, hhandle]
      refine wp_unmapViewOfFile h hdata (y := ⟨{ (f x).region with data := none },
        (f x).exclusive⟩) rfl rfl rfl rfl fun s₁ h₁ => ?_
      refine wp_closeHandle h₁ (x := x) (v := v) (by rw [Function.update_self]; exact hhandle)
        (by rw [Function.update_self]; rfl) hblank fun s₂ h₂ => wp_done h₂ fun s₃ h₃ => ⟨rfl, ?_⟩
      rwa [Function.update_idem] at h₃

/-- A region that has nothing yet ends without a call. -/
theorem SharedMemoryRegion.fail_eq {r : SharedMemoryRegion} (hhandle : r.handle = none)
    (hdata : r.data = none) : r.fail = pure {} := by
  simp only [fail, close, hhandle, hdata]
  rfl

theorem wp_fail {r : SharedMemoryRegion} (ex : Bool) (h : Tied process i f s)
    (hx : (f x).Blank) (hhandle : r.handle = none) (hdata : r.data = none) :
    (threadEnv process i).wp (Kernel.machine process i) r.fail
      (fun r' s' => r'.Whole ∧ Tied process i (Function.update f x ⟨r', ex⟩) s') s := by
  rw [SharedMemoryRegion.fail_eq hhandle hdata]
  have hwhole : ({} : SharedMemoryRegion).Whole := ⟨fun _ => rfl, fun _ => rfl⟩
  exact wp_done (h.blank (y := ⟨{}, ex⟩) hx ⟨rfl, rfl⟩) fun s' h' => ⟨hwhole, h'⟩

theorem wp_closeHandle_fail {r : SharedMemoryRegion} {v : Nat} (ex : Bool)
    (h : Tied process i f s) (hx : (f x).handle = some v) (hd : (f x).data = none)
    (hhandle : r.handle = none) (hdata : r.data = none) :
    (threadEnv process i).wp (Kernel.machine process i) (closeHandle v >>= fun _ => r.fail)
      (fun r' s' => r'.Whole ∧ Tied process i (Function.update f x ⟨r', ex⟩) s') s := by
  refine wp_closeHandle h hx hd (y := {}) ⟨rfl, rfl⟩ fun s₁ h₁ => ?_
  have hfail := wp_fail ex h₁ (x := x) (by rw [Function.update_self]; exact ⟨rfl, rfl⟩)
    hhandle hdata
  simp only [Function.update_idem] at hfail
  exact hfail

theorem wp_mapWhole {r : SharedMemoryRegion} {v size : Nat} {ex : Bool} (h : Tied process i f s)
    (hx : f x = ⟨{ r with handle := some v }, ex⟩) (hhandle : r.handle = none)
    (hdata : r.data = none) (hsize : r.size = size) :
    (threadEnv process i).wp (Kernel.machine process i) (r.mapWhole v size)
      (fun r' s' => r'.Whole ∧ Tied process i (Function.update f x ⟨r', ex⟩) s') s := by
  have hv : (f x).handle = some v := by rw [hx]; rfl
  have hd : (f x).data = none := by rw [hx]; exact hdata
  refine Env.wp_event_bind fun s' hquiet hinv => ?_
  have h' := h.quiet hquiet
  obtain ⟨hinv', hguar, hcases⟩ := Kernel.mapViewOfFile_cases (i := i) hinv v size
  refine ⟨hinv', hguar, ?_⟩
  have hans : (s'.exec process i (.mapViewOfFile v size)).1 =
      (s'.mapViewOfFile process i v size).1 := rfl
  rcases hcases with ⟨hnone, hstate⟩ | ⟨p, g, n, hsome, hg, hkey, hle, hreg, hviews, hfree⟩
  · rw [hans, hnone]
    have hsame : Tied process i f (s'.mapViewOfFile process i v size).2 := by
      rw [hstate]
      exact h'.quiet Kernel.quiet_answered
    exact wp_closeHandle_fail ex hsame hv hd hhandle hdata
  · rw [hans, hsome]
    refine wp_done (h'.mapped (y := ⟨{ r with handle := some v, data := some p }, ex⟩) hreg hviews
      hfree hinv hg hkey hv hd rfl rfl (hsize ▸ hle) ?_ ?_) fun s₂ h₂ => ⟨?_, h₂⟩
    · rw [hx]
    · rw [hx]
    · exact ⟨nofun, nofun⟩

theorem wp_createFileMappingA {r : SharedMemoryRegion} {high low : Nat}
    {q : Option Nat → Code α} (h : Tied process i f s) (hx : (f x).Blank) (hdata : r.data = none)
    (hnone : ∀ s', Tied process i f s' →
      (threadEnv process i).wp (Kernel.machine process i) (q none) Q s')
    (hsome : ∀ s' v, (∀ ex, (ex = true → s'.lastError i ≠ errorAlreadyExists) →
      Tied process i (Function.update f x ⟨{ r with handle := some v }, ex⟩) s') →
      (threadEnv process i).wp (Kernel.machine process i) (q (some v)) Q s') :
    (threadEnv process i).wp (Kernel.machine process i)
      (createFileMappingA high low (cStr (localName r.name)) >>= q) Q s := by
  refine Env.wp_event_bind fun s' hquiet hinv => ?_
  have h' := h.quiet hquiet
  have hcases := Kernel.createFileMappingA_cases (i := i) hinv (2 ^ 32 * high + low)
    (cStr (localName r.name))
  obtain ⟨hinv', hguar, hcases⟩ := hcases
  refine ⟨hinv', hguar, ?_⟩
  have hans : Kernel.machine process i s' (.createFileMappingA high low (cStr (localName r.name))) =
      s'.createFileMappingA process i (2 ^ 32 * high + low) (cStr (localName r.name)) := rfl
  rw [hans]
  generalize 2 ^ 32 * high + low = size at *
  rcases hcases with ⟨hrefused, hstate⟩ | ⟨v, o, first, hgiven, hgranted, hname, hfirst⟩
  · rw [hrefused, hstate]
    exact hnone _ (h'.quiet Kernel.quiet_answered)
  · rw [hgiven]
    exact hsome _ v fun ex hex =>
      h'.granted hinv' hgranted hx rfl hdata hname fun hyes => hfirst (hex hyes)

theorem wp_openFileMappingA {r : SharedMemoryRegion} {q : Option Nat → Code α}
    (h : Tied process i f s) (hx : (f x).Blank) (hdata : r.data = none)
    (hnone : ∀ s', Tied process i f s' →
      (threadEnv process i).wp (Kernel.machine process i) (q none) Q s')
    (hsome : ∀ s' v,
      Tied process i (Function.update f x ⟨{ r with handle := some v }, false⟩) s' →
      (threadEnv process i).wp (Kernel.machine process i) (q (some v)) Q s') :
    (threadEnv process i).wp (Kernel.machine process i)
      (openFileMappingA (cStr (localName r.name)) >>= q) Q s := by
  refine Env.wp_event_bind fun s' hquiet hinv => ?_
  have h' := h.quiet hquiet
  obtain ⟨hinv', hguar, hcases⟩ := Kernel.openFileMappingA_cases (i := i) hinv
    (cStr (localName r.name))
  refine ⟨hinv', hguar, ?_⟩
  have hans : Kernel.machine process i s' (.openFileMappingA (cStr (localName r.name))) =
      s'.openFileMappingA process i (cStr (localName r.name)) := rfl
  rw [hans]
  rcases hcases with ⟨hrefused, hstate⟩ | ⟨v, o, hgiven, hgranted, hname⟩
  · rw [hrefused, hstate]
    exact hnone _ (h'.quiet Kernel.quiet_answered)
  · rw [hgiven]
    exact hsome _ v (h'.granted hinv' hgranted hx rfl hdata hname nofun)

/-- Whichever function makes a region, it comes with all that it holds and nothing else is
left open. -/
theorem wp_make (h : Tied process i f s) (hx : (f x).Blank) (maker : Maker) (name : Name)
    (size : Nat) :
    (threadEnv process i).wp (Kernel.machine process i) (maker.make name size)
      (fun r s' => r.Whole ∧
        Tied process i (Function.update f x ⟨r, maker = .createExclusive⟩) s') s := by
  have hmap : ∀ {r : SharedMemoryRegion} {v : Nat} {ex : Bool} {s' : Kernel ι},
      r.handle = none → r.data = none → r.size = size →
      Tied process i (Function.update f x ⟨{ r with handle := some v }, ex⟩) s' →
      (threadEnv process i).wp (Kernel.machine process i) (r.mapWhole v size)
        (fun r s' => r.Whole ∧ Tied process i (Function.update f x ⟨r, ex⟩) s') s' := by
    intro r v ex s' hhandle hdata hsize h'
    have hwp := wp_mapWhole h' (Function.update_self ..) hhandle hdata hsize
    simp only [Function.update_idem] at hwp
    exact hwp
  cases maker with
  | create =>
      refine wp_createFileMappingA (r := { name := name, size := size, isCreator := true }) h hx
        rfl (fun s' h' => wp_fail _ h' hx rfl rfl) fun s' v h' => ?_
      exact hmap rfl rfl rfl (h' false nofun)
  | createExclusive =>
      refine wp_createFileMappingA (r := { name := name, size := size, isCreator := true }) h hx
        rfl (fun s' h' => wp_fail _ h' hx rfl rfl) fun s' v h' => ?_
      refine Env.wp_event_bind fun s'' hquiet hinv => ⟨hinv, fun j _ => .refl _, ?_⟩
      have hans : Kernel.machine process i s'' .getLastError = (s''.lastError i, s'') := rfl
      rw [hans]
      dsimp only
      -- nobody else has changed the error code since
      rw [hquiet.lastError]
      split
      · have hclose := wp_closeHandle_fail true ((h' false nofun).quiet hquiet) (x := x)
          (r := { name := name, size := size, isCreator := true }) (v := v)
          (by rw [Function.update_self]; rfl) (by rw [Function.update_self]; rfl) rfl rfl
        simp only [Function.update_idem] at hclose
        exact hclose
      · next hnew => exact hmap rfl rfl rfl ((h' true fun _ => hnew).quiet hquiet)
  | openRegion =>
      refine wp_openFileMappingA (r := { name := name, size := size }) h hx rfl
        (fun s' h' => wp_fail _ h' hx rfl rfl) fun s' v h' => ?_
      exact hmap rfl rfl rfl h'

end Functions

end Sinew.Windows
