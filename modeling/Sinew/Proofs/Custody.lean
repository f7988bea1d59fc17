import Sinew.Lib.Steps
import Sinew.Model.Custody
import Sinew.Model.Kernel

/-!
# Every resource is given back once

Each call adds to the ledger what it was given and what it gave back, and there
are three ways for a call that makes a region: it was given nothing, it gave back
the descriptor it was given, or both that and a mapping are the new region's. To
end a region is to give back what it owns, and a move makes two accounts change
hands. So at every moment what is held is what the regions own, each thing in one
of them, and when there are no regions left nothing is held.
-/

namespace Sinew

open Lib

variable {S : Type} {M : Machine sys S}

@[simp] theorem SharedMemoryRegion.owned_default : SharedMemoryRegion.owned {} = [] := rfl

@[simp] theorem SharedMemoryRegion.owned_movedFrom (r : SharedMemoryRegion) :
    r.movedFrom.owned = [] := rfl

theorem SharedMemoryRegion.owned_nodup (r : SharedMemoryRegion) : r.owned.Nodup := by
  unfold owned
  cases r.data <;> cases r.fd <;> simp

@[simp] theorem run_shmUnlink_ledgered (name : Name) (s : S) (log : List (Entry Resource)) :
    (shmUnlink name).run (ledgered M) (s, log) =
      ((), (M s (.shmUnlink name)).2, log) := by
  exact congrArg (fun log => ((), _, log)) (List.append_nil log)

@[simp] theorem run_munmap_ledgered (p : Ptr) (length : Nat) (s : S)
    (log : List (Entry Resource)) :
    (munmap p length).run (ledgered M) (s, log) =
      ((), (M s (.munmap p length)).2, log ++ [.released (.mapping p length)]) := rfl

@[simp] theorem run_closeFd_ledgered (fd : Nat) (s : S) (log : List (Entry Resource)) :
    (closeFd fd).run (ledgered M) (s, log) =
      ((), (M s (.closeFd fd)).2, log ++ [.released (.descriptor fd)]) := rfl

@[simp] theorem run_ftruncate_ledgered (fd : Nat) (length : Int) (s : S)
    (log : List (Entry Resource)) :
    (ftruncate fd length).run (ledgered M) (s, log) =
      ((M s (.ftruncate fd length)).1, (M s (.ftruncate fd length)).2, log) := by
  exact congrArg (fun log => (_, _, log)) (List.append_nil log)

@[simp] theorem run_fstat_ledgered (fd : Nat) (s : S) (log : List (Entry Resource)) :
    (fstat fd).run (ledgered M) (s, log) =
      ((M s (.fstat fd)).1, (M s (.fstat fd)).2, log) := by
  exact congrArg (fun log => (_, _, log)) (List.append_nil log)

theorem run_shmOpen_ledgered (name : Name) (flags : OpenFlags) (s : S)
    (log : List (Entry Resource)) :
    ∃ s', (shmOpen name flags).run (ledgered M) (s, log) = (none, s', log) ∨
      ∃ fd, (shmOpen name flags).run (ledgered M) (s, log) =
        (some fd, s', log ++ [.acquired (.descriptor fd)]) := by
  have hrun : ∀ r : Option Nat × S, M s (.shmOpen name flags) = r →
      (shmOpen name flags).run (ledgered M) (s, log) =
        (r.1, r.2, log ++ (Ev.entry (.shmOpen name flags) r.1).toList) :=
    fun r hr => hr ▸ rfl
  match hr : M s (.shmOpen name flags) with
  | (none, s') =>
      refine ⟨s', .inl ((hrun _ hr).trans ?_)⟩
      exact congrArg (fun log => (none, s', log)) (List.append_nil log)
  | (some fd, s') => exact ⟨s', .inr ⟨fd, hrun _ hr⟩⟩

theorem run_mmap_ledgered (length fd : Nat) (s : S) (log : List (Entry Resource)) :
    ∃ s', (mmap length fd).run (ledgered M) (s, log) = (none, s', log) ∨
      ∃ p, (mmap length fd).run (ledgered M) (s, log) =
        (some p, s', log ++ [.acquired (.mapping p length)]) := by
  have hrun : ∀ r : Option Ptr × S, M s (.mmap length fd) = r →
      (mmap length fd).run (ledgered M) (s, log) =
        (r.1, r.2, log ++ (Ev.entry (.mmap length fd) r.1).toList) :=
    fun r hr => hr ▸ rfl
  match hr : M s (.mmap length fd) with
  | (none, s') =>
      refine ⟨s', .inl ((hrun _ hr).trans ?_)⟩
      exact congrArg (fun log => (none, s', log)) (List.append_nil log)
  | (some p, s') => exact ⟨s', .inr ⟨p, hrun _ hr⟩⟩

/-- Whatever a program does, the ledger only grows. -/
theorem run_ledgered_grows {α : Type} (p : Code α) (s : S × List (Entry Resource)) :
    s.2 <+: (p.run (ledgered M) s).2.2 := by
  induction p generalizing s with
  | ret a => exact List.prefix_rfl
  | op e k ih => exact (List.prefix_append _ _).trans (ih _ (ledgered M s e).2)

/-- To close a region is to give back what it owns. -/
theorem run_close_ledgered (r : SharedMemoryRegion) (s : S) (log : List (Entry Resource)) :
    (r.close.run (ledgered M) (s, log)).1.owned = [] ∧
      (r.close.run (ledgered M) (s, log)).2.2 = log ++ r.owned.map .released := by
  unfold SharedMemoryRegion.close SharedMemoryRegion.owned
  cases r.data <;> cases r.fd <;> by_cases hunlink : r.isCreator ∧ r.name ≠ [] <;>
    simp [hunlink]

/-- What a call that makes a region may come to. -/
inductive Makes (log : List (Entry Resource)) :
    SharedMemoryRegion → List (Entry Resource) → Prop
  | refused {r : SharedMemoryRegion} (hr : r.owned = []) : Makes log r log
  | cleaned {r : SharedMemoryRegion} (fd : Nat) (hr : r.owned = []) : Makes log r
      (log ++ [.acquired (.descriptor fd)] ++ [.released (.descriptor fd)])
  | made {r : SharedMemoryRegion} {fd : Nat} {p : Ptr} {length : Nat}
      (hr : r.owned = [.mapping p length, .descriptor fd]) : Makes log r
      (log ++ [.acquired (.descriptor fd)] ++ [.acquired (.mapping p length)])

/-- Such a call gives back only what it has been given. -/
theorem Makes.new {log log' : List (Entry Resource)} {r : SharedMemoryRegion}
    (h : Makes log r log') :
    ∃ new, log' = log ++ new ∧ ∀ res, .released res ∈ new → .acquired res ∈ new := by
  cases h with
  | refused _ =>
      exact ⟨[], (List.append_nil log).symm, fun _ h => nomatch h⟩
  | cleaned fd _ =>
      refine ⟨[.acquired (.descriptor fd), .released (.descriptor fd)], by simp, fun res h => ?_⟩
      simpa using h
  | @made fd p length _ =>
      refine ⟨[.acquired (.descriptor fd), .acquired (.mapping p length)], by simp,
        fun res h => ?_⟩
      simp at h

theorem run_fail_ledgered {r : SharedMemoryRegion} (hr : r.owned = []) (s : S)
    (log : List (Entry Resource)) :
    ∃ s', r.fail.run (ledgered M) (s, log) = ({}, s', log) := by
  have hclose := (run_close_ledgered (M := M) r s log).2
  rw [hr, List.map_nil, List.append_nil] at hclose
  rw [SharedMemoryRegion.fail, Prog.run_bind]
  exact ⟨_, congrArg (fun log => (_, _, log)) hclose⟩

/-- From the call of `mmap` on: either the region is made or, on the way out, the
descriptor is given back. -/
theorem mmap_makes (region : SharedMemoryRegion) {fd : Nat}
    {giveUp : Code SharedMemoryRegion}
    (hgiveUp : ∀ s log, ∃ s', giveUp.run (ledgered M) (s, log) =
      ({}, s', log ++ [.released (.descriptor fd)])) (s : S) (log : List (Entry Resource)) :
    let out := (do
      let ptr ← mmap region.size fd
      match ptr with
      | none => giveUp
      | some ptr => return { region with fd := some fd, data := some ptr } :
        Code SharedMemoryRegion).run (ledgered M) (s, log ++ [.acquired (.descriptor fd)])
    Makes log out.1 out.2.2 := by
  dsimp only
  rw [Prog.run_bind]
  obtain ⟨s₁, hmap | ⟨p, hmap⟩⟩ := run_mmap_ledgered (M := M) region.size fd s
    (log ++ [.acquired (.descriptor fd)])
  · rw [hmap]
    obtain ⟨s₂, hrun⟩ := hgiveUp s₁ (log ++ [.acquired (.descriptor fd)])
    dsimp only
    rw [hrun]
    exact .cleaned fd rfl
  · rw [hmap]
    exact .made rfl

theorem createWith_makes (flags : OpenFlags) (name : Name) (size : Nat) (s : S)
    (log : List (Entry Resource)) :
    let out := (SharedMemoryRegion.createWith flags name size).run (ledgered M) (s, log)
    Makes log out.1 out.2.2 := by
  have hfail := run_fail_ledgered (M := M) (show SharedMemoryRegion.owned
    { name := name, size := size, isCreator := true } = [] from rfl)
  have hgiveUp : ∀ fd s log, ∃ s', (do
      closeFd fd
      shmUnlink (cStr (normalizePosixShmName name))
      SharedMemoryRegion.fail { name := name, size := size, isCreator := true }).run
        (ledgered M) (s, log) = ({}, s', log ++ [.released (.descriptor fd)]) := by
    intro fd s log
    rw [Prog.run_bind, run_closeFd_ledgered, Prog.run_bind, run_shmUnlink_ledgered]
    exact hfail _ _
  dsimp only
  rw [SharedMemoryRegion.createWith, Prog.run_bind]
  obtain ⟨s₁, hopen | ⟨fd, hopen⟩⟩ := run_shmOpen_ledgered (M := M)
    (cStr (normalizePosixShmName name)) flags s log
  · obtain ⟨s₂, hrun⟩ := hfail s₁ log
    rw [hopen]
    dsimp only
    rw [hrun]
    exact .refused rfl
  rw [hopen]
  dsimp only
  rw [Prog.run_bind, run_ftruncate_ledgered]
  dsimp only
  split
  · obtain ⟨s₂, hrun⟩ := hgiveUp fd _ (log ++ [.acquired (.descriptor fd)])
    rw [hrun]
    exact .cleaned fd rfl
  · exact mmap_makes { name := name, size := size, isCreator := true } (hgiveUp fd) _ log

theorem openRegion_makes (name : Name) (size : Nat) (s : S) (log : List (Entry Resource)) :
    let out := (SharedMemoryRegion.openRegion name size).run (ledgered M) (s, log)
    Makes log out.1 out.2.2 := by
  have hfail := run_fail_ledgered (M := M)
    (show SharedMemoryRegion.owned { name := name, size := size } = [] from rfl)
  have hgiveUp : ∀ fd s log, ∃ s', (do
      closeFd fd
      SharedMemoryRegion.fail { name := name, size := size }).run
        (ledgered M) (s, log) = ({}, s', log ++ [.released (.descriptor fd)]) := by
    intro fd s log
    rw [Prog.run_bind, run_closeFd_ledgered]
    exact hfail _ _
  dsimp only
  rw [SharedMemoryRegion.openRegion, Prog.run_bind]
  obtain ⟨s₁, hopen | ⟨fd, hopen⟩⟩ := run_shmOpen_ledgered (M := M)
    (cStr (normalizePosixShmName name)) { creat := false, excl := false, trunc := false } s log
  · obtain ⟨s₂, hrun⟩ := hfail s₁ log
    rw [hopen]
    dsimp only
    rw [hrun]
    exact .refused rfl
  rw [hopen]
  dsimp only
  rw [Prog.run_bind, run_fstat_ledgered]
  dsimp only
  split
  · obtain ⟨s₂, hrun⟩ := hgiveUp fd _ (log ++ [.acquired (.descriptor fd)])
    rw [hrun]
    exact .cleaned fd rfl
  · exact mmap_makes { name := name, size := size } (hgiveUp fd) _ log

/-! ## Regions over time -/

namespace Custody

def Owns (regions : Nat → Option SharedMemoryRegion) (x : Nat) (res : Resource) : Prop :=
  ∃ r, regions x = some r ∧ res ∈ r.owned

/-- The invariant: every resource that is held is owned by one region, and every
other by none. -/
structure Kept (w : Custody S) : Prop where
  accounted : Ledger.Accounted Resource.key w.ledger (Owns w.regions)
  unused : ∀ x, w.count ≤ x → w.regions x = none

/-- What is given back on the way from `w` to `w'` belonged to the region that the
call closes, or was acquired in the same call. -/
def OwnHands (w : Custody S) (op : CustodyOp) (w' : Custody S) : Prop :=
  ∃ new, w'.ledger = w.ledger ++ new ∧ ∀ res, .released res ∈ new →
    .acquired res ∈ new ∨ ∃ i, op.closes = some i ∧ Owns w.regions i res

variable {w : Custody S} {regions : Nat → Option SharedMemoryRegion} {x y : Nat}
  {r : SharedMemoryRegion} {res : Resource}

theorem owns_update_some : Owns (Function.update regions x (some r)) y res ↔
    y ≠ x ∧ Owns regions y res ∨ y = x ∧ res ∈ r.owned := by
  unfold Owns
  by_cases hyx : y = x
  · subst hyx
    simp
  · simp [hyx]

theorem owns_update_none : Owns (Function.update regions x none) y res ↔
    y ≠ x ∧ Owns regions y res := by
  unfold Owns
  by_cases hyx : y = x
  · subst hyx
    simp
  · simp [hyx]

theorem Kept.start (k : S) : Kept ({ kernel := k } : Custody S) where
  accounted := Ledger.Accounted.empty.congr fun _ _ =>
    ⟨fun ⟨_, hx, _⟩ => (nomatch hx), False.elim⟩
  unused _ _ := rfl

theorem Kept.construct (h : Kept w) {log : List (Entry Resource)}
    (hmakes : Makes w.ledger r log) (hfresh : Ledger.Fresh Resource.key log) (s : S) :
    Kept (Custody.construct { w with kernel := s, ledger := log } r) := by
  have hnew : ∀ y res, Owns (Function.update w.regions w.count (some r)) y res ↔
      Owns w.regions y res ∨ y = w.count ∧ res ∈ r.owned := by
    intro y res
    have hne : Owns w.regions y res → y ≠ w.count := by
      intro ⟨r', hr', _⟩ hy
      rw [hy, h.unused w.count (Nat.le_refl _)] at hr'
      cases hr'
    rw [owns_update_some]
    exact or_congr_left ⟨And.right, fun hy => ⟨hne hy, hy⟩⟩
  refine ⟨?_, fun x hx => ?_⟩
  · cases hmakes with
    | refused hr =>
        refine h.accounted.congr fun y res => ?_
        simp [Custody.construct, hnew, hr]
    | cleaned fd hr =>
        have hlent := (Ledger.each_concat.mp hfresh).1
        have hback := (h.accounted.acquire w.count hlent).release (.inr ⟨rfl, rfl⟩)
        refine hback.congr fun y res => ?_
        have hother : Owns w.regions y res → res ≠ .descriptor fd := by
          intro hy heq
          have hheld := (h.accounted.held res).mpr ⟨y, hy⟩
          exact (Ledger.each_concat.mp hlent).2 res hheld (by rw [heq])
        rw [Custody.construct, hnew, hr]
        constructor
        · intro hy
          rcases hy with hy | ⟨-, hmem⟩
          · exact ⟨.inl hy, hother hy⟩
          · cases hmem
        · intro ⟨hy, hne⟩
          exact .inl (hy.resolve_right fun h => hne h.2)
    | made hr =>
        have hlent := (Ledger.each_concat.mp hfresh).1
        refine ((h.accounted.acquire w.count hlent).acquire w.count hfresh).congr fun y res => ?_
        rw [Custody.construct, hnew, hr, List.mem_cons, List.mem_singleton]
        tauto
  · have hlt : w.count < x := hx
    exact (Function.update_of_ne (Nat.ne_of_gt hlt) _ _).trans (h.unused x (Nat.le_of_lt hlt))

theorem Kept.closed (h : Kept w) (hx : w.regions x = some r) (s : S)
    {v : Option SharedMemoryRegion} (hv : ∀ r', v = some r' → r'.owned = []) :
    Kept { w with
      kernel := s
      ledger := w.ledger ++ r.owned.map .released
      regions := Function.update w.regions x v } := by
  have hall := h.accounted.releaseAll r.owned_nodup fun res hres =>
    (⟨r, hx, hres⟩ : Owns w.regions x res)
  refine ⟨hall.congr fun y res => ?_, fun y hy => ?_⟩
  · have hrest : Owns (Function.update w.regions x v) y res ↔ y ≠ x ∧ Owns w.regions y res := by
      cases v with
      | none => exact owns_update_none
      | some r' =>
          rw [owns_update_some, hv r' rfl]
          exact ⟨fun h => h.resolve_right fun h => (nomatch h.2), .inl⟩
    rw [hrest]
    constructor
    · intro ⟨hyx, hy⟩
      refine ⟨hy, fun hres => hyx ?_⟩
      exact (h.accounted.apart y x res res hy ⟨r, hx, hres⟩ rfl).1
    · intro ⟨hy, hres⟩
      refine ⟨fun hyx => hres ?_, hy⟩
      obtain ⟨r', hr', hres'⟩ := hy
      rw [hyx, hx] at hr'
      cases hr'
      exact hres'
  · have hne : y ≠ x := by
      intro hyx
      rw [← hyx, h.unused y hy] at hx
      cases hx
    exact (Function.update_of_ne hne _ _).trans (h.unused y hy)

theorem Kept.move (h : Kept w) {i j : Nat} {other : SharedMemoryRegion} (hij : i ≠ j)
    (hj : w.regions j = some other) (hi : ∀ res, ¬ Owns w.regions i res) :
    Ledger.Accounted Resource.key w.ledger
      (Owns (Function.update (Function.update w.regions j (some other.movedFrom)) i
        (some other))) := by
  refine (h.accounted.rename (Equiv.swap i j)).congr fun y res => ?_
  rw [owns_update_some, owns_update_some, SharedMemoryRegion.owned_movedFrom]
  have hown : Owns w.regions j res ↔ res ∈ other.owned := by
    unfold Owns
    rw [hj]
    simp
  by_cases hyi : y = i
  · subst hyi
    rw [Equiv.swap_apply_left, hown]
    simp
  · by_cases hyj : y = j
    · subst hyj
      rw [Equiv.swap_apply_right]
      simp [hyi, hi res]
    · rw [Equiv.swap_apply_of_ne_of_ne hyi hyj]
      simp [hyi, hyj]

theorem Kept.makes (h : Kept w) {make : Code SharedMemoryRegion} {op : CustodyOp}
    (hmakes : ∀ s log, let out := make.run (ledgered M) (s, log)
      Makes log out.1 out.2.2)
    (hstep : step M w op = (w.call M make).2.construct (w.call M make).1)
    (hfresh : Ledger.Fresh Resource.key (step M w op).ledger) :
    Kept (step M w op) ∧ OwnHands w op (step M w op) := by
  rw [hstep] at hfresh ⊢
  have hmade : Makes w.ledger (w.call M make).1 (w.call M make).2.ledger :=
    hmakes w.kernel w.ledger
  refine ⟨h.construct hmade hfresh _, ?_⟩
  obtain ⟨new, hnew, hback⟩ := hmade.new
  exact ⟨new, hnew, fun res hres => .inl (hback res hres)⟩

theorem OwnHands.of_eq {op : CustodyOp} {w' : Custody S} (h : w'.ledger = w.ledger) :
    OwnHands w op w' :=
  ⟨[], h.trans (List.append_nil _).symm, fun _ h => nomatch h⟩

theorem OwnHands.of_closes {op : CustodyOp} {w' : Custody S} {i : Nat}
    (hop : op.closes = some i) (hi : w.regions i = some r)
    (h : w'.ledger = w.ledger ++ r.owned.map .released) : OwnHands w op w' := by
  refine ⟨_, h, fun res hres => .inr ⟨i, hop, r, hi, ?_⟩⟩
  obtain ⟨res', hres', heq⟩ := List.mem_map.mp hres
  cases heq
  exact hres'

theorem call_close (w : Custody S) (r : SharedMemoryRegion) :
    ∃ s r', r'.owned = [] ∧ w.call M r.close =
      (r', { w with kernel := s, ledger := w.ledger ++ r.owned.map .released }) := by
  obtain ⟨hr, hlog⟩ := run_close_ledgered (M := M) r w.kernel w.ledger
  refine ⟨(r.close.run (ledgered M) (w.kernel, w.ledger)).2.1,
    (r.close.run (ledgered M) (w.kernel, w.ledger)).1, hr, ?_⟩
  rw [call, ← hlog]

theorem call_moveAssign (w : Custody S) (this other : SharedMemoryRegion) :
    ∃ s, w.call M (this.moveAssign other) = ((other, other.movedFrom),
      { w with kernel := s, ledger := w.ledger ++ this.owned.map .released }) := by
  obtain ⟨s, r', -, hcall⟩ := call_close (M := M) w this
  refine ⟨s, Prod.ext ?_ ?_⟩
  · rw [call, SharedMemoryRegion.moveAssign, Prog.run_bind]
    rfl
  · rw [← congrArg Prod.snd hcall, call, call, SharedMemoryRegion.moveAssign, Prog.run_bind]
    rfl

theorem Kept.step (h : Kept w) {op : CustodyOp}
    (hfresh : Ledger.Fresh Resource.key (step M w op).ledger) :
    Kept (step M w op) ∧ OwnHands w op (step M w op) := by
  cases op with
  | construct =>
      have hlog : Ledger.Fresh Resource.key w.ledger := hfresh
      exact ⟨h.construct (.refused rfl) hlog w.kernel, .of_eq rfl⟩
  | create name size => exact h.makes (createWith_makes _ name size) rfl hfresh
  | createExclusive name size => exact h.makes (createWith_makes _ name size) rfl hfresh
  | openRegion name size => exact h.makes (openRegion_makes name size) rfl hfresh
  | moveConstruct j =>
      simp only [Custody.step]
      split
      · exact ⟨h, .of_eq rfl⟩
      next other hj =>
        have hlt : j < w.count := by
          by_contra hge
          rw [h.unused j (by omega)] at hj
          cases hj
        have hnone : ∀ res, ¬ Owns w.regions w.count res := by
          intro res ⟨r, hr, _⟩
          rw [h.unused w.count (Nat.le_refl _)] at hr
          cases hr
        refine ⟨⟨h.move (Nat.ne_of_gt hlt) hj hnone, fun x hx => ?_⟩, .of_eq rfl⟩
        have hx : w.count < x := hx
        refine (Function.update_of_ne (Nat.ne_of_gt hx) _ _).trans ?_
        refine (Function.update_of_ne (Nat.ne_of_gt (Nat.lt_trans hlt hx)) _ _).trans ?_
        exact h.unused x (Nat.le_of_lt hx)
  | moveAssign i j =>
      simp only [Custody.step]
      split
      · next this other hi hj =>
          split
          · exact ⟨h, .of_eq rfl⟩
          next hij =>
            obtain ⟨s, hcall⟩ := call_moveAssign (M := M) w this other
            rw [hcall]
            have hclosed := h.closed hi s (v := none) fun _ h => nomatch h
            have hmoved := hclosed.move hij ((Function.update_of_ne (Ne.symm hij) _ _).trans hj)
              fun res hres => (owns_update_none.mp hres).1 rfl
            dsimp only at hmoved
            rw [Function.update_comm (Ne.symm hij), Function.update_idem] at hmoved
            refine ⟨⟨hmoved, fun x hx => ?_⟩, .of_closes (if_neg hij) hi rfl⟩
            have hxi : x ≠ i := by
              intro hxi
              rw [← hxi, h.unused x hx] at hi
              cases hi
            have hxj : x ≠ j := by
              intro hxj
              rw [← hxj, h.unused x hx] at hj
              cases hj
            refine (Function.update_of_ne hxj _ _).trans ?_
            exact (Function.update_of_ne hxi _ _).trans (h.unused x hx)
      · exact ⟨h, .of_eq rfl⟩
  | close i =>
      simp only [Custody.step]
      split
      · exact ⟨h, .of_eq rfl⟩
      next r hi =>
        obtain ⟨s, r', hr', hcall⟩ := call_close (M := M) w r
        rw [hcall]
        refine ⟨h.closed hi s fun r hr => ?_, .of_closes rfl hi rfl⟩
        cases hr
        exact hr'
  | destroy i =>
      simp only [Custody.step]
      split
      · exact ⟨h, .of_eq rfl⟩
      next r hi =>
        obtain ⟨s, r', hr', hcall⟩ := call_close (M := M) w r
        rw [hcall]
        exact ⟨h.closed hi s fun r hr => (nomatch hr), .of_closes rfl hi rfl⟩

theorem step_grows (w : Custody S) (op : CustodyOp) : w.ledger <+: (step M w op).ledger := by
  have hcall : ∀ {α : Type} (p : Code α), w.ledger <+: (w.call M p).2.ledger := fun p =>
    run_ledgered_grows p (w.kernel, w.ledger)
  cases op with
  | construct => exact List.prefix_rfl
  | create name size => exact hcall _
  | createExclusive name size => exact hcall _
  | openRegion name size => exact hcall _
  | moveConstruct j =>
      simp only [Custody.step]
      split <;> exact List.prefix_rfl
  | moveAssign i j =>
      simp only [Custody.step]
      split
      · split
        · exact List.prefix_rfl
        · exact hcall _
      · exact List.prefix_rfl
  | close i =>
      simp only [Custody.step]
      split
      · exact List.prefix_rfl
      · exact hcall _
  | destroy i =>
      simp only [Custody.step]
      split
      · exact List.prefix_rfl
      · exact hcall _

theorem after_grows (k : S) (ops : List CustodyOp) (n : Nat) :
    (after M k ops n).ledger <+: (after M k ops ops.length).ledger := by
  have hrest : ∀ (ops : List CustodyOp) (w : Custody S),
      w.ledger <+: (ops.foldl (step M) w).ledger := by
    intro ops
    induction ops with
    | nil => exact fun w => List.prefix_rfl
    | cons op ops ih => exact fun w => (step_grows w op).trans (ih _)
  have hall : after M k ops ops.length = (ops.drop n).foldl (step M) (after M k ops n) := by
    rw [after, after, List.take_length, ← List.foldl_append, List.take_append_drop]
  rw [hall]
  exact hrest _ _

theorem kept_after {k : S} {ops : List CustodyOp}
    (hfresh : Ledger.Fresh Resource.key (after M k ops ops.length).ledger) (n : Nat) :
    Kept (after M k ops n) ∧ ∀ op, ops[n]? = some op →
      OwnHands (after M k ops n) op (after M k ops (n + 1)) := by
  have hnext : ∀ m op, ops[m]? = some op →
      Ledger.Fresh Resource.key (step M (after M k ops m) op).ledger := by
    intro m op hop
    have hgrows := after_grows (M := M) k ops (m + 1)
    rw [after, foldl_take_succ hop] at hgrows
    exact hfresh.of_prefix hgrows
  have hkept : Kept (after M k ops n) := foldl_take_invariant (.start k)
    fun m _ op hop ih => (ih.step (hnext m op hop)).1
  refine ⟨hkept, fun op hop => ?_⟩
  have hsucc : after M k ops (n + 1) = step M (after M k ops n) op := foldl_take_succ hop
  rw [hsucc]
  exact (hkept.step (hnext n op hop)).2

/-- **Every resource is given back once.** On any kernel that gives out no mapping
and no descriptor that is already out, and whichever of its calls fail, no two
regions ever own the same resource and what is held is what they own; each resource
is given back by the region that owns it, or by the call it was just given to; and
when there are no regions left, every entry of the ledger has exactly one that
settles it. -/
theorem resources_released_once (M : Machine sys S) (k : S) (ops : List CustodyOp)
    (hfresh : Ledger.Fresh Resource.key (after M k ops ops.length).ledger) :
    (∀ n, let w := after M k ops n
      (∀ x y r r' res res', w.regions x = some r → w.regions y = some r' →
        res ∈ r.owned → res' ∈ r'.owned → res.key = res'.key → x = y ∧ res = res') ∧
      ∀ res, res ∈ Ledger.held w.ledger ↔ ∃ x r, w.regions x = some r ∧ res ∈ r.owned) ∧
    (∀ n op, ops[n]? = some op → ∃ new,
      (after M k ops (n + 1)).ledger = (after M k ops n).ledger ++ new ∧
      ∀ res, .released res ∈ new → .acquired res ∈ new ∨
        ∃ i r, op.closes = some i ∧ (after M k ops n).regions i = some r ∧
          res ∈ r.owned) ∧
    ((∀ x, (after M k ops ops.length).regions x = none) →
      let log := (after M k ops ops.length).ledger
      (∀ i res, log[i]? = some (.acquired res) → ∃! j, Ledger.Settles log res i j) ∧
      ∀ j res, log[j]? = some (.released res) → ∃! i, Ledger.Settles log res i j) := by
  have hrun := kept_after hfresh
  refine ⟨fun n => ⟨?_, (hrun n).1.accounted.held⟩, fun n op hop => ?_, fun hnone => ?_⟩
  · intro x y r r' res res' hx hy hres hres' hkey
    exact (hrun n).1.accounted.apart x y res res' ⟨r, hx, hres⟩ ⟨r', hy, hres'⟩ hkey
  · obtain ⟨new, hnew, hback⟩ := (hrun n).2 op hop
    refine ⟨new, hnew, fun res hres => (hback res hres).imp_right ?_⟩
    intro ⟨i, hi, r, hr, hmem⟩
    exact ⟨i, r, hi, hr, hmem⟩
  · have haccounted := (hrun ops.length).1.accounted
    refine ⟨fun i res hi => hfresh.settles hi fun hheld => ?_,
      fun j res hj => hfresh.settled haccounted.owed hj⟩
    obtain ⟨x, r, hr, -⟩ := (haccounted.held res).mp hheld
    rw [hnone x] at hr
    cases hr

/-- A region that is created, one that is opened and takes it over, one that cannot be
created because the name is taken, and one that is assigned to itself. -/
theorem resources_released_once_moved :
    let ops := [CustodyOp.create [0x61] 64, .openRegion [0x61] 32, .createExclusive [0x61] 8,
      .moveAssign 1 0, .moveAssign 1 1, .moveConstruct 1, .close 3, .destroy 0, .destroy 1,
      .destroy 2, .destroy 3]
    let log := (after (Kernel.machine 0) .obliging ops ops.length).ledger
    log.length = 8 ∧ ∀ i res, log[i]? = some (.acquired res) →
      ∃! j, Ledger.Settles log res i j := by
  intro ops log
  have hfresh : Ledger.Fresh Resource.key log := by decide +kernel
  have hcount : (after (Kernel.machine 0) .obliging ops ops.length).count = 4 := by
    decide +kernel
  have hnone : ∀ x < 4, (after (Kernel.machine 0) .obliging ops ops.length).regions x = none := by
    decide +kernel
  refine ⟨by decide +kernel, ((resources_released_once (Kernel.machine 0) .obliging ops
    hfresh).2.2 fun x => ?_).1⟩
  rcases Nat.lt_or_ge x 4 with hx | hx
  · exact hnone x hx
  · exact (kept_after hfresh ops.length).1.unused x (by rw [hcount]; exact hx)

end Custody

end Sinew
