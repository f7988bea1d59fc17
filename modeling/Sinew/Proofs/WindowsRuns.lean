import Sinew.Proofs.Windows

/-!
# Regions on Windows, over whole runs

Any number of threads in any number of processes, each making, moving and ending
regions, one system call of one of them at a time. Every call leaves the thread's
regions tied to what it has open, so that is so whenever a thread is between calls, and
what follows is read off it: nothing leaks and nothing is closed twice, regions of one
name are over the same memory, and a name is taken exactly as long as some region has
it.
-/

namespace Sinew.Windows

open Lib

variable {ι : Type} [DecidableEq ι] {process : ι → Process} {i j : ι} {k k' s : Kernel ι}

structure Kept (process : ι → Process) (i : ι) (c : Client) (k : Kernel ι) : Prop where
  tied : Tied process i c k
  whole : ∀ n, (c n).region.Whole

/-- The regions of a thread and a temporary. -/
def Client.more (c : Client) : Option Nat → Variable := fun x => x.elim {} c

omit [DecidableEq ι] in
theorem Tied.more {c : Client} (h : Tied process i c s) : Tied process i c.more s := by
  refine h.transfer (fun x => x.getD 0) (fun x => ?_) (fun x y hx hy heq => ?_) fun n _ =>
    ⟨some n, rfl, rfl⟩
  · cases x with
    | none => exact .inl ⟨rfl, rfl⟩
    | some n => exact .inr rfl
  · cases x with
    | none => exact absurd ⟨rfl, rfl⟩ hx
    | some n =>
        cases y with
        | none => exact absurd ⟨rfl, rfl⟩ hy
        | some m => exact congrArg some heq

omit [DecidableEq ι] in
theorem Tied.settle {f : Option Nat → Variable} {c : Client} (h : Tied process i f s) {n : Nat}
    (hn : (f (some n)).Blank) (hself : c n = f none)
    (hother : ∀ m, m ≠ n → c m = f (some m)) : Tied process i c s := by
  refine h.transfer (fun m => if m = n then none else some m) (fun m => .inr ?_)
    (fun m m' _ _ heq => ?_) fun x hx => ?_
  · by_cases hm : m = n
    · rw [hm, if_pos rfl, hself]
    · rw [if_neg hm, hother m hm]
  · split at heq <;> split at heq
    · next hm hm' => exact hm.trans hm'.symm
    · cases heq
    · cases heq
    · exact Option.some.inj heq
  · cases x with
    | none => exact ⟨n, if_pos rfl, hself⟩
    | some m =>
        have hm : m ≠ n := by
          rintro rfl
          exact hx hn
        exact ⟨m, if_neg hm, hother m hm⟩

theorem SharedMemoryRegion.close_eq {r : SharedMemoryRegion} (hhandle : r.handle = none)
    (hdata : r.data = none) : r.close = pure r.ended := by
  simp only [close, hhandle, hdata]
  rfl

theorem whole_update {c : Client} (hc : ∀ n, (c n).region.Whole) {x : Variable}
    (hx : x.region.Whole) (n m : Nat) : (Function.update c n x m).region.Whole := by
  by_cases hm : m = n
  · rw [hm, Function.update_self]
    exact hx
  · rw [Function.update_of_ne hm]
    exact hc m

theorem SharedMemoryRegion.whole_ended (r : SharedMemoryRegion) : r.ended.Whole :=
  ⟨fun _ => rfl, fun _ => rfl⟩

theorem RegionCall.kept {c : Client} {l : Unit} {p : Code Client} (hcall : RegionCall c l p)
    (h : Kept process i c s) :
    (threadEnv process i).wp (Kernel.machine process i) p (Kept process i) s := by
  obtain ⟨h, hwhole⟩ := h
  cases hcall with
  | assign n maker name size =>
      refine Env.wp_bind (Env.wp_mono
        (wp_make h.more (x := none) ⟨rfl, rfl⟩ maker name size) ?_)
      intro temporary s₁ _ hmade
      obtain ⟨hnew, h₁⟩ := hmade
      -- the region that was there before the assignment ends
      have hclose := wp_close h₁ (x := some n)
      rw [Function.update_of_ne (Option.some_ne_none n)] at hclose
      refine Env.wp_bind (Env.wp_bind (Env.wp_mono hclose ?_))
      intro r s₂ _ hclosed
      obtain ⟨rfl, h₂⟩ := hclosed
      refine wp_done h₂ fun s₃ h₃ => ?_
      dsimp only
      rw [SharedMemoryRegion.close_eq (r := temporary.movedFrom) rfl rfl]
      refine wp_done h₃ fun s₄ h₄ => ⟨?_, whole_update hwhole hnew n⟩
      refine h₄.settle (n := n) ?_ ?_ fun m hm => ?_
      · rw [Function.update_self]
        exact ⟨rfl, rfl⟩
      · rw [Function.update_self, Function.update_of_ne (Option.some_ne_none n).symm,
          Function.update_self]
      · rw [Function.update_of_ne hm, Function.update_of_ne fun heq => hm (Option.some.inj heq),
          Function.update_of_ne (Option.some_ne_none m)]
        rfl
  | moveAssign n m hnm =>
      refine Env.wp_bind (Env.wp_bind (Env.wp_mono (wp_close h (x := n)) ?_))
      intro r s₁ _ hclosed
      obtain ⟨rfl, h₁⟩ := hclosed
      refine wp_done h₁ fun s₂ h₂ => wp_done h₂ fun s₃ h₃ => ?_
      have hmoved := h₃.move ⟨(c m).region.movedFrom, false⟩ hnm
        (by rw [Function.update_self]; exact ⟨rfl, rfl⟩) ⟨rfl, rfl⟩
      rw [Function.update_idem, Function.update_of_ne hnm.symm] at hmoved
      exact ⟨hmoved, whole_update (whole_update hwhole (hwhole m) n)
        ⟨fun _ => rfl, fun _ => rfl⟩ m⟩
  | moveConstruct n m hnm =>
      refine Env.wp_bind (Env.wp_mono (wp_close h (x := n)) ?_)
      intro r s₁ _ hclosed
      obtain ⟨rfl, h₁⟩ := hclosed
      refine wp_done h₁ fun s₂ h₂ => ?_
      have hmoved := h₂.move ⟨(c m).region.movedFrom, false⟩ hnm
        (by rw [Function.update_self]; exact ⟨rfl, rfl⟩) ⟨rfl, rfl⟩
      rw [Function.update_idem, Function.update_of_ne hnm.symm] at hmoved
      exact ⟨hmoved, whole_update (whole_update hwhole (hwhole m) n)
        ⟨fun _ => rfl, fun _ => rfl⟩ m⟩
  | close n =>
      refine Env.wp_bind (Env.wp_mono (wp_close h (x := n)) ?_)
      intro r s₁ _ hclosed
      obtain ⟨rfl, h₁⟩ := hclosed
      exact wp_done h₁ fun s₂ h₂ => ⟨h₂, whole_update hwhole (c n).region.whole_ended n⟩

def threadLogic (process : ι → Process) : Logic (threads process) where
  env := threadEnv process
  idle i c k := Kept process i c k
  inv_all _ _ _ h := h
  compat _ j _ _ hij hguar := hguar j hij.symm
  idle_stable _ _ _ _ h hquiet _ := ⟨h.tied.quiet hquiet, h.whole⟩

theorem threadLogic_sound : (threadLogic process).Sound :=
  fun _ _ _ _ _ hcall _ h => RegionCall.kept hcall h

omit [DecidableEq ι] in
theorem Kernel.Inv.start (answers : Nat → Option Nat) :
    Kernel.Inv process ({ answers := answers } : Kernel ι) where
  register := .empty _
  handles _ hg := (by cases hg)
  keyed := .nil
  views _ hw := (by cases hw)
  within _ hw := (by cases hw)
  strays := rfl

variable {answers : Nat → Option Nat} {cfg : Config (threads process)}

theorem threads_good (hreach : Reach (start process answers) cfg) :
    (threadLogic process).Good cfg := by
  have hstart : (threadLogic process).Good (start process answers) := by
    refine ⟨fun _ => show Kernel.Inv process _ from Kernel.Inv.start answers, fun i => ?_⟩
    exact ⟨Tied.start answers, fun _ => ⟨fun _ => rfl, fun _ => rfl⟩⟩
  exact hstart.reach threadLogic_sound hreach

theorem threads_kept (hreach : Reach (start process answers) cfg) {c : Client}
    (hi : cfg.thread i = .idle c) : Kept process i c cfg.state :=
  (threads_good hreach).idle hi

/-- What a thread has open is what its valid regions hold, each in one of them: a handle
and a view of its object for each, and the view at least as long as the region says. -/
structure Owns (process : ι → Process) (i : ι) (c : Client) (k : Kernel ι) : Prop where
  region : ∀ n, (c n).region.isValid = true → ∃ g ∈ k.register.grants, ∃ w ∈ k.views,
    (c n).region.handle = some g.key.2 ∧ g.key.1 = process i ∧
    (c n).region.data = some w.key.2 ∧ w.key.1 = process i ∧ g.object = w.object ∧
    (c n).region.size ≤ w.length ∧ w.length ≤ (k.register.objects w.object).size
  invalid : ∀ n, (c n).region.isValid = false → (c n).region.handle = none
  handles : ∀ g ∈ k.register.grants, g.holder = i → ∃! n, (c n).region.handle = some g.key.2
  views : ∀ w ∈ k.views, w.holder = i → ∃! n, (c n).region.data = some w.key.2

omit [DecidableEq ι] in
theorem Kept.valid {c : Client} (h : Kept process i c k) {n : Nat}
    (hn : (c n).region.isValid = true) : ∃ g ∈ k.register.grants, ∃ w ∈ k.views,
      g.holder = i ∧ (c n).region.handle = some g.key.2 ∧ g.key.1 = process i ∧
      (c n).region.data = some w.key.2 ∧ w.key.1 = process i ∧ g.object = w.object ∧
      (c n).region.size ≤ w.length ∧
      (k.register.objects g.object).path =
        ((process i).session, cStr (localName (c n).region.name)) ∧
      ((c n).exclusive = true → g.first = true) := by
  obtain ⟨p, hp⟩ := Option.isSome_iff_exists.mp hn
  obtain ⟨w, hw, -, hwkey, hsize, v, hv, hobj⟩ := (h.tied.backed n).data p hp
  obtain ⟨g, hg, hi, hkey, hname, hfirst⟩ := (h.tied.backed n).handle v hv
  refine ⟨g, hg, w, hw, hi, ?_, ?_, ?_, ?_, hobj g hg hi hkey, hsize, hname, hfirst⟩
  · rw [hkey]
    exact hv
  · rw [hkey]
  · rw [hwkey]
    exact hp
  · rw [hwkey]

omit [DecidableEq ι] in
theorem Kept.owns {c : Client} (h : Kept process i c k) (hinv : k.Inv process) :
    Owns process i c k where
  region n hn := by
    obtain ⟨g, hg, w, hw, -, hv, hgi, hp, hwi, hobj, hsize, -⟩ := h.valid hn
    exact ⟨g, hg, w, hw, hv, hgi, hp, hwi, hobj, hsize, (hinv.within w hw).2⟩
  invalid n hn := (h.whole n).mpr (Option.not_isSome_iff_eq_none.mp (Bool.eq_false_iff.mp hn))
  handles g hg hi := by
    obtain ⟨n, hn⟩ := h.tied.handles g hg hi
    exact ⟨n, hn, fun m hm => h.tied.handleOnce m n _ hm hn⟩
  views w hw hi := by
    obtain ⟨n, hn⟩ := h.tied.views w hw hi
    exact ⟨n, hn, fun m hm => h.tied.viewOnce m n _ hm hn⟩

theorem no_strays (hreach : Reach (start process answers) cfg) : cfg.state.strays = 0 := by
  rcases isEmpty_or_nonempty ι with hnone | hsome
  · -- with no thread there is no step
    have hstay : cfg = start process answers := by
      cases hreach with
      | refl => rfl
      | tail _ hstep => cases hstep <;> exact hnone.elim ‹ι›
    rw [hstay]
    rfl
  · exact ((threads_good hreach).inv hsome.some).strays

/-- **Handles and views are given back once.** However the system calls of the threads come
to lie between each other, whatever is refused and whichever handles and addresses are
given out again, nothing is closed or unmapped that is not open, and a thread between
calls has open what its valid regions hold and nothing else. -/
theorem windows_regions_own (answers : Nat → Option Nat) :
    ∀ cfg : Config (threads process), Reach (start process answers) cfg →
      cfg.state.strays = 0 ∧
      ∀ i c, cfg.thread i = .idle c → Owns process i c cfg.state := by
  intro cfg hreach
  refine ⟨no_strays hreach, fun i c hi => ?_⟩
  exact (threads_kept hreach hi).owns ((threads_good hreach).inv i)

def twoProcesses (i : Bool) : Process := ⟨0, i.toNat⟩

theorem windows_regions_own_first : ∃ (cfg : Config (threads twoProcesses)) (c : Client),
    cfg.thread false = .idle c ∧ (c 0).region.isValid = true ∧
      Owns twoProcesses false c cfg.state := by
  have hcall := Reach.call (i := false)
    (rfl : (start twoProcesses some).thread false = .idle fun _ => {})
    (.assign _ 0 .create [0x61] 4096)
  exact ⟨_, _, rfl, by decide, (windows_regions_own some _ hcall).2 false _ rfl⟩

/-! ## Names -/

omit [DecidableEq ι] in
theorem Kept.object {c : Client} (h : Kept process i c k) (hinv : k.Inv process) {n : Nat}
    (hn : (c n).region.isValid = true) : ∃ g ∈ k.register.grants,
      k.objectOf process i (c n).region = some g.object ∧
      g.holder = i ∧ (c n).region.handle = some g.key.2 ∧
      (k.register.objects g.object).path =
        ((process i).session, cStr (localName (c n).region.name)) ∧
      (c n).region.size ≤ (k.register.objects g.object).size ∧
      ((c n).exclusive = true → g.first = true) := by
  obtain ⟨g, hg, w, hw, hi, hv, hgi, -, -, hobj, hsize, hname, hfirst⟩ := h.valid hn
  refine ⟨g, hg, ?_, hi, hv, hname, ?_, hfirst⟩
  · have hkey : (process i, g.key.2) = g.key := by rw [← hgi]
    simp only [Kernel.objectOf, hv, Option.bind_eq_bind, Option.bind_some, hkey,
      hinv.register.keyed.find?_eq hg]
    rfl
  · rw [hobj]
    exact Nat.le_trans hsize (hinv.within w hw).2

omit [DecidableEq ι] in
theorem Kernel.Inv.names (h : k.Inv process) {g g' : Grant ι (Process × Nat)}
    (hg : g ∈ k.register.grants) (hg' : g' ∈ k.register.grants) {s t : Nat} {a b : Name}
    (ha : (k.register.objects g.object).path = (s, cStr (localName a)))
    (hb : (k.register.objects g'.object).path = (t, cStr (localName b))) :
    g.object = g'.object ↔ s = t ∧ cStr a = cStr b := by
  have hlocal : cStr (localName a) = cStr (localName b) ↔ cStr a = cStr b := by
    constructor
    · intro heq
      have happ : localName [] ++ cStr a = localName [] ++ cStr b := heq
      exact List.append_cancel_left happ
    · exact fun heq => congrArg (localName [] ++ ·) heq
  rw [← hlocal, ← Prod.mk.injEq, ← ha, ← hb]
  exact ⟨fun heq => by rw [heq], h.register.names g hg g' hg'⟩

/-- **Exclusive names.** However `create_exclusive` is interleaved with whatever else is
done, no two of the regions it has made in one session have one name as long as they are
valid. -/
theorem windows_exclusive_apart (answers : Nat → Option Nat) :
    ∀ cfg : Config (threads process), Reach (start process answers) cfg →
      ∀ i c n j d m, cfg.thread i = .idle c → cfg.thread j = .idle d → (i, n) ≠ (j, m) →
        (c n).region.isValid = true → (d m).region.isValid = true →
        (c n).exclusive = true → (d m).exclusive = true →
        (process i).session = (process j).session →
        cStr (c n).region.name ≠ cStr (d m).region.name := by
  intro cfg hreach i c n j d m hi hj hne hn hm hex hex' hsession heq
  have hinv := (threads_good hreach).inv i
  obtain ⟨g, hg, -, hgi, hv, hname, -, hfirst⟩ := (threads_kept hreach hi).object hinv hn
  obtain ⟨g', hg', -, hgj, hv', hname', -, hfirst'⟩ := (threads_kept hreach hj).object hinv hm
  -- the two are the first handle of one object, so they are one handle
  have hsame : g = g' := hinv.register.first g hg g' hg' (hfirst hex) (hfirst' hex')
    ((hinv.names hg hg' hname hname').mpr ⟨hsession, heq⟩)
  subst hsame
  have hij : i = j := hgi.symm.trans hgj
  subst hij
  have hcd : c = d := Thread.idle.inj (hi.symm.trans hj)
  subst hcd
  exact hne (congrArg (i, ·) ((threads_kept hreach hi).tied.handleOnce n m _ hv hv'))

theorem windows_exclusive_apart_pair : ∃ (cfg : Config (threads twoProcesses)) (c d : Client),
    cfg.thread false = .idle c ∧ cfg.thread true = .idle d ∧
      (c 0).region.isValid = true ∧ (d 0).region.isValid = true ∧
      cStr (c 0).region.name ≠ cStr (d 0).region.name := by
  have hfirst := Reach.call (i := false)
    (rfl : (start twoProcesses some).thread false = .idle fun _ => {})
    (.assign _ 0 .createExclusive [0x61] 4096)
  have hboth := hfirst.trans (Reach.call (i := true) (c := fun _ => {}) rfl
    (.assign _ 0 .createExclusive [0x62] 4096))
  obtain ⟨cfg, c, d, hreach, hc, hd, hn, hm, hex, hex'⟩ : ∃ (cfg : Config (threads twoProcesses))
      (c d : Client), Reach (start twoProcesses some) cfg ∧ cfg.thread false = .idle c ∧
      cfg.thread true = .idle d ∧ (c 0).region.isValid = true ∧ (d 0).region.isValid = true ∧
      (c 0).exclusive = true ∧ (d 0).exclusive = true :=
    ⟨_, _, _, hboth, rfl, rfl, by decide, by decide, by decide, by decide⟩
  exact ⟨cfg, c, d, hc, hd, hn, hm, windows_exclusive_apart some cfg hreach false c 0 true d 0 hc hd
    (by decide) hn hm hex hex' rfl⟩

theorem reach_first : ∃ (cfg : Config (threads twoProcesses)) (clients : Bool → Client),
    Reach (start twoProcesses some) cfg ∧ (∀ i, cfg.thread i = .idle (clients i)) ∧
      (clients false 0).region.isValid = true ∧ cStr (clients false 0).region.name = [0x61] ∧
      cfg.state.objectOf twoProcesses false (clients false 0).region = some 0 ∧
      (cfg.state.register.objects 0).size = 4096 ∧ cfg.state.Obliges twoProcesses true := by
  have hfirst := Reach.call (i := false)
    (rfl : (start twoProcesses some).thread false = .idle fun _ => {})
    (.assign _ 0 .createExclusive [0x61] 4096)
  obtain ⟨cfg, c, hreach, hc, hd, hstate⟩ : ∃ (cfg : Config (threads twoProcesses)) (c : Client),
      Reach (start twoProcesses some) cfg ∧ cfg.thread false = .idle c ∧
      cfg.thread true = .idle (fun _ => {}) ∧ (c 0).region.isValid = true ∧
      cStr (c 0).region.name = [0x61] ∧
      cfg.state.objectOf twoProcesses false (c 0).region = some 0 ∧
      (cfg.state.register.objects 0).size = 4096 ∧ cfg.state.Obliges twoProcesses true :=
    ⟨_, _, hfirst, rfl, rfl, by decide, by decide, by decide, by decide, by decide⟩
  refine ⟨cfg, fun i => if i then fun _ => {} else c, hreach, fun i => ?_, hstate⟩
  cases i with
  | false => exact hc
  | true => exact hd

/-- Some valid region of a process of the session has the name. -/
def Held (process : ι → Process) (clients : ι → Client) (session : Nat) (name : Name) : Prop :=
  ∃ j n, (process j).session = session ∧ (clients j n).region.isValid = true ∧
    cStr (clients j n).region.name = cStr name

omit [DecidableEq ι] in
/-- Where all threads are between calls, a name means an object in a session exactly if some
region there has that name. -/
theorem find_iff {clients : ι → Client} (h : ∀ i, Kept process i (clients i) k)
    (hinv : k.Inv process) (i : ι) (name : Name) (x : Nat) :
    k.find process i (cStr (localName name)) = some x ↔
      ∃ j n, (process j).session = (process i).session ∧
        (clients j n).region.isValid = true ∧
        cStr (clients j n).region.name = cStr name ∧
        k.objectOf process j (clients j n).region = some x := by
  constructor
  · intro hfind
    obtain ⟨g, hg, rfl, hname⟩ := Register.find_some hfind
    obtain ⟨n, hn⟩ := (h g.holder).tied.handles g hg rfl
    have hvalid : (clients g.holder n).region.isValid = true := by
      cases hv : (clients g.holder n).region.isValid with
      | true => rfl
      | false =>
          exact nomatch ((h g.holder).owns hinv |>.invalid n hv).symm.trans hn
    obtain ⟨g', hg', hobj, hi', hv', hname', -⟩ := (h g.holder).object hinv hvalid
    -- the region's handle is this very one
    have hsame : g' = g := by
      refine hinv.register.keyed g' hg' g hg (Prod.ext ?_ ?_)
      · rw [hinv.handles g' hg', hinv.handles g hg, hi']
      · exact Option.some.inj (hv'.symm.trans hn)
    subst hsame
    obtain ⟨hsession, hsame⟩ := (hinv.names hg' hg' hname' hname).mp rfl
    exact ⟨_, n, hsession, hvalid, hsame, hobj⟩
  · rintro ⟨j, n, hsession, hvalid, hname, hobj⟩
    obtain ⟨g, hg, hobj', -, -, hname', -⟩ := (h j).object hinv hvalid
    have hlocal : (k.register.objects g.object).path =
        ((process i).session, cStr (localName name)) := by
      rw [hname', hsession]
      exact congrArg (fun rest => ((process i).session, localName [] ++ rest)) hname
    rw [Kernel.find, ← hlocal, hinv.register.find_eq hg, ← hobj', hobj]

omit [DecidableEq ι] in
theorem find_none_iff {clients : ι → Client} (h : ∀ i, Kept process i (clients i) k)
    (hinv : k.Inv process) (i : ι) (name : Name) :
    k.find process i (cStr (localName name)) = none ↔
      ¬Held process clients (process i).session name := by
  rw [Option.eq_none_iff_forall_ne_some]
  constructor
  · rintro hnone ⟨j, n, hsession, hvalid, hname⟩
    obtain ⟨g, -, hobj, -⟩ := (h j).object hinv hvalid
    exact hnone g.object
      ((find_iff h hinv i name g.object).mpr ⟨j, n, hsession, hvalid, hname, hobj⟩)
  · intro hno x hx
    obtain ⟨j, n, hsession, hvalid, hname, -⟩ := (find_iff h hinv i name x).mp hx
    exact hno ⟨j, n, hsession, hvalid, hname⟩

omit [DecidableEq ι] in
theorem closeHandle_granted {v o : Nat} {first : Bool}
    (hg : k.Granted process i k' v o first) :
    (k'.closeHandle process i v).register.grants = k.register.grants ∧
      (k'.closeHandle process i v).views = k.views := by
  have hany : k'.register.grants.any (·.key = (process i, v)) = true := by
    rw [hg.grants]
    exact List.any_eq_true.mpr ⟨_, List.mem_cons_self, decide_eq_true rfl⟩
  simp only [Kernel.closeHandle, hany, if_true, Register.drop]
  refine ⟨?_, hg.views⟩
  rw [hg.grants, List.filter_cons_of_neg (by simp), List.filter_eq_self]
  exact fun g hmem => decide_eq_true (hg.fresh g hmem)

theorem run_mapWhole {r : SharedMemoryRegion} {v o : Nat} {first : Bool} (size : Nat)
    (hg : k.Granted process i k' v o first) (hhandle : r.handle = none) (hdata : r.data = none) :
    let out := (r.mapWhole v size).run (Kernel.machine process i) k'
    (out.1.isValid = true ↔ (k'.freeAddress process i).isSome = true ∧
      size ≤ (k'.register.objects o).size) ∧
    (out.1.isValid = false →
      out.2.register.grants = k.register.grants ∧ out.2.views = k.views) := by
  have hfind : k'.register.grants.find? (·.key = (process i, v)) =
      some ⟨i, (process i, v), o, first⟩ := by
    rw [hg.grants]
    exact List.find?_cons_of_pos (decide_eq_true rfl)
  have hrun : (r.mapWhole v size).run (Kernel.machine process i) k' =
      match k'.mapViewOfFile process i v size with
      | (none, k₁) => ({}, k₁.closeHandle process i v)
      | (some p, k₁) => ({ r with handle := some v, data := some p }, k₁) := by
    simp only [SharedMemoryRegion.mapWhole, Prog.run_bind, Kernel.run_mapViewOfFile]
    cases hmap : k'.mapViewOfFile process i v size with
    | mk ptr k₁ =>
        cases ptr with
        | none =>
            simp only [Prog.run_bind, Kernel.run_closeHandle,
              SharedMemoryRegion.fail_eq hhandle hdata, Prog.run_pure]
        | some p => rfl
  have hanswered : k.Granted process i k'.answered v o first :=
    ⟨hg.grants, hg.fresh, hg.objects, hg.views⟩
  intro out
  have hout : out = _ := hrun
  simp only [Kernel.mapViewOfFile, hfind] at hout
  cases hfree : k'.freeAddress process i with
  | none =>
      rw [hfree] at hout
      rw [hout]
      exact ⟨⟨fun h => absurd h Bool.false_ne_true, fun h => absurd h.1 Bool.false_ne_true⟩,
        fun _ => closeHandle_granted hanswered⟩
  | some p =>
      rw [hfree] at hout
      dsimp only at hout
      by_cases hle : size ≤ (k'.register.objects o).size
      · rw [if_pos hle] at hout
        rw [hout]
        exact ⟨⟨fun _ => ⟨rfl, hle⟩, fun _ => rfl⟩, fun h => absurd h.symm Bool.false_ne_true⟩
      · rw [if_neg hle] at hout
        rw [hout]
        exact ⟨⟨fun h => absurd h Bool.false_ne_true, fun h => absurd h.2 hle⟩,
          fun _ => closeHandle_granted hanswered⟩

theorem parts_size {size : Nat} (h : size < 2 ^ 64) :
    2 ^ 32 * (SharedMemoryRegion.parts size).1 + (SharedMemoryRegion.parts size).2 = size := by
  simp only [SharedMemoryRegion.parts]
  omega

omit [DecidableEq ι] in
theorem obliges_iff {v : Nat} (h : k.freeHandle process i = some v) :
    k.Obliges process i ↔ (k.answered.freeAddress process i).isSome = true := by
  rw [Kernel.Obliges, h]
  exact and_iff_right rfl

theorem run_createExclusive (name : Name) {size : Nat} (hsize : size < 2 ^ 64) :
    let out := (SharedMemoryRegion.createExclusive name size).run (Kernel.machine process i) k
    (out.1.isValid = true ↔ size ≠ 0 ∧ k.Obliges process i ∧
      k.find process i (cStr (localName name)) = none) ∧
    (out.1.isValid = false →
      out.2.register.grants = k.register.grants ∧ out.2.views = k.views) := by
  have hblank : (({ name := name, size := size, isCreator := true } :
      SharedMemoryRegion).fail) = pure {} := SharedMemoryRegion.fail_eq rfl rfl
  simp only [SharedMemoryRegion.createExclusive, Prog.run_bind, Kernel.run_createFileMappingA,
    parts_size hsize, hblank, Kernel.createFileMappingA]
  cases hfree : if size = 0 then none else k.freeHandle process i with
  | none =>
      refine ⟨⟨fun h => absurd h Bool.false_ne_true, fun h => ?_⟩, fun _ => ⟨rfl, rfl⟩⟩
      rw [if_neg h.1] at hfree
      have hsome := h.2.1.1
      rw [hfree] at hsome
      cases hsome
  | some v =>
      have hne : size ≠ 0 := by
        rintro rfl
        cases hfree
      rw [if_neg hne] at hfree
      have hnew := Kernel.freeHandle_some hfree
      cases hfind : k.find process i (cStr (localName name)) with
      | some x =>
          have hgranted : k.Granted process i { k.answered with
              register := k.register.join i (process i, v) x
              lastError := Function.update k.lastError i errorAlreadyExists } v x false :=
            ⟨rfl, hnew, fun _ _ => rfl, rfl⟩
          simp only [Prog.run_bind, Kernel.run_getLastError, Function.update_self, if_true,
            Kernel.run_closeHandle, Prog.run_pure]
          exact ⟨⟨fun h => absurd h Bool.false_ne_true,
            fun h => absurd h.2.2 (Option.some_ne_none x)⟩, fun _ => closeHandle_granted hgranted⟩
      | none =>
          have hgranted : k.Granted process i { k.answered with
              register := k.register.make i (process i, v)
                ⟨(process i).session, cStr (localName name), size⟩
              lastError := Function.update k.lastError i 0 } v k.register.count true :=
            ⟨rfl, hnew, fun _ hx => Function.update_of_ne (Nat.ne_of_lt hx) _ _, rfl⟩
          obtain ⟨hvalid, hsame⟩ := run_mapWhole size
            (r := { name := name, size := size, isCreator := true }) hgranted rfl rfl
          have hfits : size ≤ ((k.register.make i (process i, v)
              ⟨(process i).session, cStr (localName name), size⟩).objects
                k.register.count).size := by
            simp only [Register.make, Function.update_self, Nat.le_refl]
          simp only [Prog.run_bind, Kernel.run_getLastError, Function.update_self,
            errorAlreadyExists, OfNat.zero_ne_ofNat, if_false]
          refine ⟨hvalid.trans ?_, hsame⟩
          rw [obliges_iff hfree]
          exact ⟨fun h => ⟨hne, h.1, trivial⟩, fun h => ⟨h.2.1, hfits⟩⟩

theorem run_openRegion (name : Name) (size : Nat) :
    let out := (SharedMemoryRegion.openRegion name size).run (Kernel.machine process i) k
    (out.1.isValid = true ↔ k.Obliges process i ∧ ∃ x,
      k.find process i (cStr (localName name)) = some x ∧
      size ≤ (k.register.objects x).size) ∧
    (out.1.isValid = false →
      out.2.register.grants = k.register.grants ∧ out.2.views = k.views) := by
  have hblank : (({ name := name, size := size } : SharedMemoryRegion).fail) = pure {} :=
    SharedMemoryRegion.fail_eq rfl rfl
  simp only [SharedMemoryRegion.openRegion, Prog.run_bind, Kernel.run_openFileMappingA, hblank,
    Kernel.openFileMappingA]
  cases hfree : k.freeHandle process i with
  | none =>
      refine ⟨⟨fun h => absurd h Bool.false_ne_true, fun h => ?_⟩, fun _ => ⟨rfl, rfl⟩⟩
      have hsome := h.1.1
      rw [hfree] at hsome
      cases hsome
  | some v =>
      cases hfind : k.find process i (cStr (localName name)) with
      | none =>
          refine ⟨⟨fun h => absurd h Bool.false_ne_true, fun h => ?_⟩, fun _ => ⟨rfl, rfl⟩⟩
          obtain ⟨-, x, hx, -⟩ := h
          exact absurd hx.symm (Option.some_ne_none x)
      | some x =>
          have hgranted : k.Granted process i
              { k.answered with register := k.register.join i (process i, v) x } v x false :=
            ⟨rfl, Kernel.freeHandle_some hfree, fun _ _ => rfl, rfl⟩
          obtain ⟨hvalid, hsame⟩ := run_mapWhole size
            (r := { name := name, size := size }) hgranted rfl rfl
          refine ⟨hvalid.trans ?_, hsame⟩
          rw [obliges_iff hfree]
          constructor
          · exact fun h => ⟨h.1, x, rfl, h.2⟩
          · rintro ⟨haddress, y, hy, hle⟩
            cases hy
            exact ⟨haddress, hle⟩

end Sinew.Windows
