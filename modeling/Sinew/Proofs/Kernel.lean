import Sinew.Model.Kernel

/-!
# What a region's calls do to the kernel

Each system call has few outcomes, and each of the region's functions few ways
through them. A call that fails leaves the page tables and the segments as they
were; what it does to the table of names is `unlinked`, because the local region
has its name and its creator flag from the start and is destroyed on the way
out. A call that succeeds maps one segment at pages that were free.
-/

namespace Sinew

open Lib

/-- The key of a name in the kernel's table. -/
def osName (name : Name) : Name := cStr (normalizePosixShmName name)

namespace SharedMemoryRegion

/-- The page `i` is one of the region's. -/
def Covers (r : SharedMemoryRegion) (i : Nat) : Prop :=
  ∃ p, r.data = some p ∧ p.addr / pageSize ≤ i ∧
    i < p.addr / pageSize + pageCount r.size

theorem not_covers {r : SharedMemoryRegion} (h : r.data = none) (i : Nat) :
    ¬ r.Covers i := by
  rintro ⟨p, hp, -⟩
  rw [h] at hp
  cases hp

def closed (r : SharedMemoryRegion) : SharedMemoryRegion :=
  { r with data := none, fd := none, size := 0, isCreator := false }

end SharedMemoryRegion

namespace Kernel

variable {k : Kernel} {pid : Nat} {name : Name} {flags : OpenFlags}

/-- The page tables of all processes are as they were. -/
def SamePages (k k' : Kernel) : Prop :=
  ∀ pid i, (k'.processes pid).pages i = (k.processes pid).pages i

theorem SamePages.refl (k : Kernel) : SamePages k k := fun _ _ => rfl

theorem SamePages.trans {k' k'' : Kernel} (h : SamePages k k') (h' : SamePages k' k'') :
    SamePages k k'' := fun pid i => (h' pid i).trans (h pid i)

theorem SamePages.of_processes {k' : Kernel} (h : k'.processes = k.processes) :
    SamePages k k' := fun _ _ => by rw [h]

theorem setFd_pages (k : Kernel) (pid fd : Nat) (seg : Option Nat) :
    SamePages k (k.setFd pid fd seg) := by
  intro pid' i
  by_cases h : pid' = pid
  · subst h
    simp only [setFd, setProcess, Function.update_self]
  · simp only [setFd, setProcess, Function.update_of_ne h]

theorem setFd_fd (k : Kernel) (pid fd : Nat) (seg : Option Nat) :
    ((k.setFd pid fd seg).processes pid).fds fd = seg := by
  simp only [setFd, setProcess, Function.update_self]

theorem setPages_inside (k : Kernel) (pid : Nat) {page length i : Nat}
    (seg : Option Nat) (hi : page ≤ i ∧ i < page + pageCount length) :
    ((k.setPages pid page length seg).processes pid).pages i = seg := by
  simp only [setPages, setProcess, Function.update_self, if_pos hi]

theorem setPages_outside (k : Kernel) {pid pid' page length i : Nat}
    (seg : Option Nat) (hi : ¬ (pid' = pid ∧ page ≤ i ∧ i < page + pageCount length)) :
    ((k.setPages pid page length seg).processes pid').pages i =
      (k.processes pid').pages i := by
  by_cases h : pid' = pid
  · subst h
    have hi' : ¬ (page ≤ i ∧ i < page + pageCount length) := fun hp => hi ⟨rfl, hp⟩
    simp only [setPages, setProcess, Function.update_self, if_neg hi']
  · simp only [setPages, setProcess, Function.update_of_ne h]

/-- The region is a mapping of the segment at pages that were free before. -/
structure Mapped (k k' : Kernel) (pid : Nat) (r : SharedMemoryRegion) (seg : Nat) :
    Prop where
  data : ∃ page, 0 < page ∧ r.data = some ⟨page * pageSize, 0⟩
  size : 0 < r.size
  free : ∀ i, r.Covers i → (k.processes pid).pages i = none
  covered : ∀ i, r.Covers i → (k'.processes pid).pages i = some seg
  other : ∀ pid' i, ¬ (pid' = pid ∧ r.Covers i) →
    (k'.processes pid').pages i = (k.processes pid').pages i

theorem Mapped.of_samePages {k₀ k' : Kernel} {r : SharedMemoryRegion} {seg : Nat}
    (h : SamePages k₀ k) (hm : Mapped k k' pid r seg) : Mapped k₀ k' pid r seg where
  data := hm.data
  size := hm.size
  free i hi := by rw [← h pid i]; exact hm.free i hi
  covered := hm.covered
  other pid' i hi := (hm.other pid' i hi).trans (h pid' i)

/-! ## The system calls -/

/-- Another call took the kernel from `k` to `k'`, which changed at most who
holds a descriptor. -/
structure Frame (k k' : Kernel) : Prop where
  names : k'.names = k.names
  segments : k'.segments = k.segments
  created : k'.created = k.created
  pages : SamePages k k'
  refusals : k.refusals ≤ k'.refusals

theorem Frame.refl (k : Kernel) : Frame k k :=
  ⟨rfl, rfl, rfl, .refl k, Nat.le_refl _⟩

theorem Frame.trans {k' k'' : Kernel} (h : Frame k k') (h' : Frame k' k'') :
    Frame k k'' :=
  ⟨h'.names.trans h.names, h'.segments.trans h.segments, h'.created.trans h.created,
    h.pages.trans h'.pages, Nat.le_trans h.refusals h'.refusals⟩

theorem frame_refuse (k : Kernel) : Frame k k.refuse :=
  ⟨rfl, rfl, rfl, .refl k, Nat.le_succ _⟩

theorem frame_answered (k : Kernel) : Frame k k.answered :=
  ⟨rfl, rfl, rfl, .refl k, Nat.le_refl _⟩

theorem frame_setFd (k : Kernel) (pid fd : Nat) (seg : Option Nat) :
    Frame k (k.setFd pid fd seg) :=
  ⟨rfl, rfl, rfl, setFd_pages k pid fd seg, Nat.le_refl _⟩

theorem shmOpen_cases (k : Kernel) (pid : Nat) (name : Name) (flags : OpenFlags)
    (hcreat : flags.creat = false) (htrunc : flags.trunc = false) :
    (∃ k', k.shmOpen pid name flags = (none, k') ∧ Frame k k' ∧
      (k.names name = none ∨ k.refusals < k'.refusals)) ∨
    ∃ fd seg k', k.shmOpen pid name flags = (some fd, k') ∧ Frame k k' ∧
      k.names name = some seg ∧ (k'.processes pid).fds fd = some seg := by
  unfold shmOpen
  split
  · exact .inl ⟨_, rfl, frame_refuse k, .inr (Nat.lt_succ_self _)⟩
  · next fd _ =>
      split
      · exact .inl ⟨_, rfl, frame_refuse k, .inr (Nat.lt_succ_self _)⟩
      · split
        · next seg hseg =>
            rw [if_neg (by simp [hcreat])]
            refine .inr ⟨fd, seg, _, rfl, ?_, hseg, setFd_fd ..⟩
            have hsame : k.answered.setSegment seg
                (if flags.trunc then (k.segments seg).resize 0 else k.segments seg) =
                k.answered := by
              simp [htrunc, setSegment, answered]
            rw [hsame]
            exact (frame_answered k).trans (frame_setFd ..)
        · next hname =>
            rw [if_neg (by simp [hcreat])]
            exact .inl ⟨_, rfl, frame_answered k, .inl hname⟩

/-- A segment has this name, and no other segment has changed. -/
structure Made (k k' : Kernel) (name : Name) (seg : Nat) : Prop where
  names : k'.names = Function.update k.names name (some seg)
  segments : ∀ s, s ≠ seg → k'.segments s = k.segments s
  created : (k.names name = none ∧ seg = k.created ∧ k'.created = k.created + 1) ∨
    (k.names name = some seg ∧ k'.created = k.created)

theorem Made.frame {k' k'' : Kernel} {seg : Nat} (h : Made k k' name seg)
    (hf : Frame k' k'') : Made k k'' name seg where
  names := hf.names.trans h.names
  segments s hs := by rw [hf.segments, h.segments s hs]
  created := by rw [hf.created]; exact h.created

/-- Opening to create. With `O_EXCL` the segment is a new one. -/
theorem shmOpen_creat_cases (k : Kernel) (pid : Nat) (name : Name) {flags : OpenFlags}
    (hcreat : flags.creat = true) :
    (∃ k', k.shmOpen pid name flags = (none, k') ∧ Frame k k') ∨
    ∃ fd seg k', k.shmOpen pid name flags = (some fd, k') ∧ Made k k' name seg ∧
      SamePages k k' ∧ (k'.processes pid).fds fd = some seg ∧
      (flags.excl = true → k.names name = none) := by
  unfold shmOpen
  split
  · exact .inl ⟨_, rfl, frame_refuse k⟩
  · next fd _ =>
      split
      · exact .inl ⟨_, rfl, frame_refuse k⟩
      · split
        · next seg hseg =>
            split
            · exact .inl ⟨_, rfl, frame_answered k⟩
            · next hexcl =>
                refine .inr ⟨fd, seg, _, rfl, ⟨?_, fun s hs => ?_, .inr ⟨hseg, rfl⟩⟩,
                  (SamePages.of_processes rfl).trans (setFd_pages _ _ _ _), setFd_fd ..,
                  fun h => absurd ⟨hcreat, h⟩ hexcl⟩
                · rw [← hseg, Function.update_eq_self]
                  rfl
                · exact Function.update_of_ne hs ..
        · next hname =>
            exact .inr ⟨fd, k.created, _, rfl, ⟨rfl,
              fun s hs => Function.update_of_ne hs .., .inl ⟨hname, rfl, rfl⟩⟩,
              (SamePages.of_processes rfl).trans (setFd_pages _ _ _ _), setFd_fd ..,
              fun _ => hname⟩

variable {fd seg : Nat}

theorem ftruncate_cases (hfd : (k.processes pid).fds fd = some seg) (length : Int) :
    (∃ k', k.ftruncate pid fd length = (false, k') ∧ Frame k k') ∨
    (0 ≤ length ∧ ∃ k', k.ftruncate pid fd length = (true, k') ∧
      k'.names = k.names ∧ k'.created = k.created ∧ k'.processes = k.processes ∧
      (k'.segments seg).length = length ∧
      ∀ s, s ≠ seg → k'.segments s = k.segments s) := by
  unfold ftruncate
  rw [hfd]
  split
  · next hseg =>
      obtain rfl := Option.some.inj hseg
      split
      · next hlen =>
          refine .inr ⟨hlen, _, rfl, rfl, rfl, rfl, ?_, fun s hs => ?_⟩
          · show ((k.answered.setSegment _ _).segments _).length = length
            simp only [setSegment, Function.update_self]
            rfl
          · exact Function.update_of_ne hs ..
      · exact .inl ⟨_, rfl, frame_refuse k⟩
  · exact .inl ⟨_, rfl, frame_refuse k⟩

theorem fstat_cases (hfd : (k.processes pid).fds fd = some seg) :
    (∃ k', k.fstat pid fd = (none, k') ∧ Frame k k' ∧ k.refusals < k'.refusals) ∨
    ∃ k', k.fstat pid fd = (some (k.segments seg).length, k') ∧ Frame k k' ∧
      k'.processes = k.processes := by
  unfold fstat
  rw [hfd]
  split
  · next hseg =>
      obtain rfl := Option.some.inj hseg
      exact .inr ⟨_, rfl, frame_answered k, rfl⟩
  · exact .inl ⟨_, rfl, frame_refuse k, Nat.lt_succ_self _⟩

theorem addr_div_pageSize (page : Nat) :
    (⟨page * pageSize, 0⟩ : Ptr).addr / pageSize = page := by
  show (page * pageSize + 0) / pageSize = page
  rw [Nat.add_zero]
  exact Nat.mul_div_cancel page (show 0 < 4096 by decide)

theorem mmap_cases (hfd : (k.processes pid).fds fd = some seg) (r : SharedMemoryRegion) :
    (∃ k', k.mmap pid r.size fd = (none, k') ∧ Frame k k' ∧ k.refusals < k'.refusals) ∨
    ∃ p k', k.mmap pid r.size fd = (some p, k') ∧ k'.names = k.names ∧
      k'.segments = k.segments ∧ k'.created = k.created ∧
      Mapped k k' pid { r with fd := some fd, data := some p } seg := by
  unfold mmap
  rw [hfd]
  split
  · next page _ _ hseg =>
      obtain rfl := Option.some.inj hseg
      split
      · next h =>
          obtain ⟨hpage, hlen, hfree⟩ := h
          refine .inr ⟨_, _, rfl, rfl, rfl, rfl, ⟨page, hpage, rfl⟩, hlen, ?_, ?_, ?_⟩
          · rintro i ⟨p, hp, hlo, hhi⟩
            obtain rfl := Option.some.inj hp
            rw [addr_div_pageSize] at hlo hhi
            have h := hfree (i - page) (by dsimp only at hhi; omega)
            rwa [Nat.add_sub_cancel' hlo] at h
          · rintro i ⟨p, hp, hlo, hhi⟩
            obtain rfl := Option.some.inj hp
            rw [addr_div_pageSize] at hlo hhi
            exact setPages_inside _ pid _ ⟨hlo, hhi⟩
          · intro pid' i hi
            refine setPages_outside _ _ fun ⟨hpid, hlo, hhi⟩ => hi ⟨hpid, _, rfl, ?_, ?_⟩
            · rw [addr_div_pageSize]
              exact hlo
            · rw [addr_div_pageSize]
              exact hhi
      · exact .inl ⟨_, rfl, frame_refuse k, Nat.lt_succ_self _⟩
  · exact .inl ⟨_, rfl, frame_refuse k, Nat.lt_succ_self _⟩

def released (k : Kernel) (pid : Nat) (r : SharedMemoryRegion) : Kernel :=
  let k := match r.data with
    | some p => k.munmap pid p r.size
    | none => k
  let k := match r.fd with
    | some fd => k.setFd pid fd none
    | none => k
  if r.isCreator ∧ r.name ≠ [] then k.setName (osName r.name) none else k

theorem run_close (k : Kernel) (pid : Nat) (r : SharedMemoryRegion) :
    r.close.run (machine pid) k = (r.closed, k.released pid r) := by
  unfold SharedMemoryRegion.close released
  by_cases h : r.isCreator ∧ r.name ≠ []
  · cases r.data <;> cases r.fd <;> simp only [if_pos h] <;> rfl
  · cases r.data <;> cases r.fd <;> simp only [if_neg h] <;> rfl

theorem run_moveAssign (k : Kernel) (pid : Nat) (r other : SharedMemoryRegion) :
    (r.moveAssign other).run (machine pid) k =
      ((other, other.movedFrom), k.released pid r) := by
  unfold SharedMemoryRegion.moveAssign
  rw [Prog.run_bind, run_close]
  rfl

theorem released_names (k : Kernel) (pid : Nat) (r : SharedMemoryRegion) :
    (k.released pid r).names = if r.isCreator ∧ r.name ≠ [] then
      Function.update k.names (osName r.name) none else k.names := by
  unfold released
  by_cases h : r.isCreator ∧ r.name ≠ []
  · cases r.data <;> cases r.fd <;> simp only [if_pos h] <;> rfl
  · cases r.data <;> cases r.fd <;> simp only [if_neg h] <;> rfl

theorem released_segments (k : Kernel) (pid : Nat) (r : SharedMemoryRegion) :
    (k.released pid r).segments = k.segments := by
  unfold released
  by_cases h : r.isCreator ∧ r.name ≠ []
  · cases r.data <;> cases r.fd <;> simp only [if_pos h] <;> rfl
  · cases r.data <;> cases r.fd <;> simp only [if_neg h] <;> rfl

theorem released_created (k : Kernel) (pid : Nat) (r : SharedMemoryRegion) :
    (k.released pid r).created = k.created := by
  unfold released
  by_cases h : r.isCreator ∧ r.name ≠ []
  · cases r.data <;> cases r.fd <;> simp only [if_pos h] <;> rfl
  · cases r.data <;> cases r.fd <;> simp only [if_neg h] <;> rfl

/-- But for what `munmap` does, closing leaves the page tables alone. -/
theorem released_pages (k : Kernel) (pid : Nat) (r : SharedMemoryRegion) :
    SamePages (match r.data with
      | some p => k.munmap pid p r.size
      | none => k) (k.released pid r) := by
  unfold released
  dsimp only
  generalize (match r.data with
    | some p => k.munmap pid p r.size
    | none => k) = k₁
  have hfd : SamePages k₁ (match r.fd with
      | some fd => k₁.setFd pid fd none
      | none => k₁) := by
    split
    · exact setFd_pages _ _ _ _
    · exact .refl k₁
  split
  · exact hfd.trans (.of_processes rfl)
  · exact hfd

theorem released_covered (k : Kernel) (pid : Nat) {r : SharedMemoryRegion} {i : Nat}
    (hi : r.Covers i) : ((k.released pid r).processes pid).pages i = none := by
  obtain ⟨p, hp, hlo, hhi⟩ := hi
  have h := released_pages k pid r pid i
  rw [hp] at h
  exact h.trans (setPages_inside k pid none ⟨hlo, hhi⟩)

theorem released_other (k : Kernel) {pid pid' : Nat} {r : SharedMemoryRegion} {i : Nat}
    (hi : ¬ (pid' = pid ∧ r.Covers i)) :
    ((k.released pid r).processes pid').pages i = (k.processes pid').pages i := by
  rw [released_pages k pid r pid' i]
  split
  · next p hp => exact setPages_outside k none fun ⟨h, hlo, hhi⟩ => hi ⟨h, p, hp, hlo, hhi⟩
  · rfl

theorem released_samePages (k : Kernel) (pid : Nat) {r : SharedMemoryRegion}
    (h : r.data = none) : SamePages k (k.released pid r) := fun _ i =>
  released_other k fun hi => SharedMemoryRegion.not_covers h i hi.2

/-! ## The region's functions -/

/-- The table of names after the local region of a `create` that failed is
destroyed: its name is taken out, whoever put it there. -/
def unlinked (k : Kernel) (name : Name) : Name → Option Nat :=
  if name = [] then k.names else Function.update k.names (osName name) none

theorem run_fail (k : Kernel) (pid : Nat) (r : SharedMemoryRegion) :
    r.fail.run (machine pid) k = ({}, k.released pid r) := by
  unfold SharedMemoryRegion.fail
  rw [Prog.run_bind, run_close]
  rfl

theorem createWith_cases (k : Kernel) (pid : Nat) (flags : OpenFlags)
    (hcreat : flags.creat = true) (name : Name) (size : Nat) :
    (∃ k', (SharedMemoryRegion.createWith flags name size).run (machine pid) k = ({}, k') ∧
      SamePages k k' ∧ (flags.excl = true → k'.names = k.unlinked name ∧
        k.created ≤ k'.created ∧ ∀ s < k.created, k'.segments s = k.segments s)) ∨
    ∃ p fd seg k', (SharedMemoryRegion.createWith flags name size).run (machine pid) k =
        (⟨name, some p, size, true, some fd⟩, k') ∧
      Made k k' (osName name) seg ∧ Mapped k k' pid ⟨name, some p, size, true, some fd⟩ seg ∧
      (k'.segments seg).length = toOff size ∧ 0 ≤ toOff size ∧
      (flags.excl = true → k.names (osName name) = none) := by
  have hfail : ∀ k₁, SamePages k k₁ → k.created ≤ k₁.created →
      (flags.excl = true → k₁.unlinked name = k.unlinked name ∧
        ∀ s < k.created, k₁.segments s = k.segments s) →
      ∃ k', (SharedMemoryRegion.fail { name := name, size := size, isCreator := true }).run
          (machine pid) k₁ = ({}, k') ∧
        SamePages k k' ∧ (flags.excl = true → k'.names = k.unlinked name ∧
          k.created ≤ k'.created ∧ ∀ s < k.created, k'.segments s = k.segments s) := by
    intro k₁ hpages hcreated h
    refine ⟨_, run_fail k₁ pid _, hpages.trans (released_samePages k₁ pid rfl),
      fun hexcl => ⟨?_, ?_, ?_⟩⟩
    · rw [← (h hexcl).1, released_names, unlinked]
      by_cases hname : name = [] <;> simp [hname]
    · rw [released_created]
      exact hcreated
    · rw [released_segments]
      exact (h hexcl).2
  unfold SharedMemoryRegion.createWith
  rw [Prog.run_bind]
  rcases shmOpen_creat_cases k pid (osName name) hcreat with
    ⟨k₁, hopen, hf⟩ | ⟨fd, seg, k₁, hopen, hmade, hpages, hfd, hexcl⟩
  · have hrun : (Sinew.shmOpen (cStr (normalizePosixShmName name)) flags).run
      (machine pid) k = (none, k₁) := hopen
    rw [hrun]
    refine .inl (hfail k₁ hf.pages (Nat.le_of_eq hf.created.symm) fun _ => ⟨?_, ?_⟩)
    · simp only [unlinked, hf.names]
    · rw [hf.segments]
      exact fun _ _ => rfl
  · have hrun : (Sinew.shmOpen (cStr (normalizePosixShmName name)) flags).run
      (machine pid) k = (some fd, k₁) := hopen
    rw [hrun]
    have hundo : ∀ k₂, Made k k₂ (osName name) seg → SamePages k k₂ →
        ∃ k', (SharedMemoryRegion.fail { name := name, size := size, isCreator := true }).run
          (machine pid) ((k₂.setFd pid fd none).setName (osName name) none) = ({}, k') ∧
        SamePages k k' ∧ (flags.excl = true → k'.names = k.unlinked name ∧
          k.created ≤ k'.created ∧ ∀ s < k.created, k'.segments s = k.segments s) := by
      intro k₂ hmade hpages
      have hcreated : k.created ≤ k₂.created := by
        rcases hmade.created with ⟨-, -, h⟩ | ⟨-, h⟩ <;> omega
      refine hfail _ ((hpages.trans (setFd_pages _ _ _ _)).trans (.of_processes rfl))
        hcreated fun hx => ⟨?_, fun s hs => hmade.segments s ?_⟩
      · have hnone := hexcl hx
        have hnames : ((k₂.setFd pid fd none).setName (osName name) none).names =
            k.names := by
          show Function.update k₂.names (osName name) none = k.names
          rw [hmade.names, Function.update_idem, ← hnone, Function.update_eq_self]
        simp only [unlinked, hnames]
      · rcases hmade.created with ⟨-, h, -⟩ | ⟨h, -⟩
        · omega
        · rw [hexcl hx] at h
          cases h
    dsimp only
    rw [Prog.run_bind]
    rcases ftruncate_cases hfd (toOff size) with
      ⟨k₂, htrunc, hf⟩ | ⟨hlen, k₂, htrunc, hnames, hcreated, hproc, hlength, hsegs⟩
    · have hrun : (Sinew.ftruncate fd (toOff size)).run (machine pid) k₁ = (false, k₂) :=
        htrunc
      rw [hrun]
      exact .inl (hundo k₂ (hmade.frame hf) (hpages.trans hf.pages))
    · have hrun : (Sinew.ftruncate fd (toOff size)).run (machine pid) k₁ = (true, k₂) :=
        htrunc
      rw [hrun]
      have hmade₂ : Made k k₂ (osName name) seg :=
        ⟨hnames.trans hmade.names, fun s hs => (hsegs s hs).trans (hmade.segments s hs),
          by rw [hcreated]; exact hmade.created⟩
      have hpages₂ : SamePages k k₂ := hpages.trans (.of_processes hproc)
      have hfd₂ : (k₂.processes pid).fds fd = some seg := by
        rw [hproc]
        exact hfd
      rw [if_neg (fun h => by cases h), Prog.run_bind]
      rcases mmap_cases hfd₂ { name := name, size := size, isCreator := true } with
        ⟨k₃, hmap, hf, _⟩ | ⟨p, k₃, hmap, hnames₃, hsegs₃, hcreated₃, hmapped⟩
      · have hrun : (Sinew.mmap size fd).run (machine pid) k₂ = (none, k₃) := hmap
        rw [hrun]
        exact .inl (hundo k₃ (hmade₂.frame hf) (hpages₂.trans hf.pages))
      · have hrun : (Sinew.mmap size fd).run (machine pid) k₂ = (some p, k₃) := hmap
        rw [hrun]
        refine .inr ⟨p, fd, seg, k₃, rfl, ⟨hnames₃.trans hmade₂.names, ?_, ?_⟩,
          hmapped.of_samePages hpages₂, ?_, hlen, hexcl⟩
        · exact fun s hs => by rw [hsegs₃, hmade₂.segments s hs]
        · rw [hcreated₃]
          exact hmade₂.created
        · rw [hsegs₃]
          exact hlength

theorem openRegion_cases (k : Kernel) (pid : Nat) (name : Name) (size : Nat) :
    (∃ k', (SharedMemoryRegion.openRegion name size).run (machine pid) k = ({}, k') ∧
      Frame k k' ∧ (k.names (osName name) = none ∨ k.refusals < k'.refusals ∨
        ∃ seg, k.names (osName name) = some seg ∧
          (k.segments seg).length < toOff size)) ∨
    ∃ p fd seg k', (SharedMemoryRegion.openRegion name size).run (machine pid) k =
        (⟨name, some p, size, false, some fd⟩, k') ∧
      k'.names = k.names ∧ k'.segments = k.segments ∧ k'.created = k.created ∧
      k.names (osName name) = some seg ∧
      Mapped k k' pid ⟨name, some p, size, false, some fd⟩ seg := by
  have hfail : ∀ k₁ : Kernel,
      (SharedMemoryRegion.fail { name := name, size := size }).run (machine pid) k₁ =
        ({}, k₁) := by
    intro k₁
    rw [run_fail]
    simp [released]
  unfold SharedMemoryRegion.openRegion
  rw [Prog.run_bind]
  rcases shmOpen_cases k pid (osName name)
      { creat := false, excl := false, trunc := false } rfl rfl with
    ⟨k₁, hopen, hf, hwhy⟩ | ⟨fd, seg, k₁, hopen, hf, hname, hfd⟩
  · have hrun : (Sinew.shmOpen (cStr (normalizePosixShmName name))
      { creat := false, excl := false, trunc := false }).run (machine pid) k =
        (none, k₁) := hopen
    rw [hrun]
    exact .inl ⟨k₁, hfail k₁, hf, hwhy.imp_right .inl⟩
  · have hrun : (Sinew.shmOpen (cStr (normalizePosixShmName name))
      { creat := false, excl := false, trunc := false }).run (machine pid) k =
        (some fd, k₁) := hopen
    rw [hrun]
    dsimp only
    rw [Prog.run_bind]
    rcases fstat_cases hfd with ⟨k₂, hstat, hf₂, hmore⟩ | ⟨k₂, hstat, hf₂, hproc⟩
    · have hrun : (Sinew.fstat fd).run (machine pid) k₁ = (none, k₂) := hstat
      rw [hrun]
      refine .inl ⟨_, hfail _, (hf.trans hf₂).trans (frame_setFd _ _ _ _),
        .inr (.inl (Nat.lt_of_le_of_lt hf.refusals hmore))⟩
    · have hrun : (Sinew.fstat fd).run (machine pid) k₁ =
          (some (k₁.segments seg).length, k₂) := hstat
      rw [hrun]
      have hframe := hf.trans hf₂
      by_cases hshort : (k₁.segments seg).length < toOff size
      · rw [if_pos (by rw [Option.all_some]; exact decide_eq_true hshort)]
        rw [hf.segments] at hshort
        exact .inl ⟨_, hfail _, hframe.trans (frame_setFd _ _ _ _),
          .inr (.inr ⟨seg, hname, hshort⟩)⟩
      · rw [if_neg (by rw [Option.all_some]; exact mt of_decide_eq_true hshort),
          Prog.run_bind]
        have hfd₂ : (k₂.processes pid).fds fd = some seg := by
          rw [hproc]
          exact hfd
        rcases mmap_cases hfd₂ { name := name, size := size } with
          ⟨k₃, hmap, hf₃, hmore⟩ | ⟨p, k₃, hmap, hnames₃, hsegs₃, hcreated₃, hmapped⟩
        · have hrun : (Sinew.mmap size fd).run (machine pid) k₂ = (none, k₃) := hmap
          rw [hrun]
          exact .inl ⟨_, hfail _, (hframe.trans hf₃).trans (frame_setFd _ _ _ _),
            .inr (.inl (Nat.lt_of_le_of_lt hframe.refusals hmore))⟩
        · have hrun : (Sinew.mmap size fd).run (machine pid) k₂ = (some p, k₃) := hmap
          rw [hrun]
          exact .inr ⟨p, fd, seg, k₃, rfl, hnames₃.trans hframe.names,
            hsegs₃.trans hframe.segments, hcreated₃.trans hframe.created, hname,
            hmapped.of_samePages hframe.pages⟩

end Kernel

end Sinew
