import Mathlib.Data.List.GetD
import Mathlib.Logic.Function.Basic

/-!
# Words that are released and acquired

Threads share words and bytes. A word is atomic. Its stores are all kept, in their
order, and a load finds one of them, though not always the last: any that is not older
than what the thread has seen of the word before. A store goes to the end, and releases
what its thread has seen by then and has done; a load that acquires takes this over.

A byte is plain. It has one value, and a record of who has accessed it and when. An
access is a race if an earlier one, of another thread and with a store among the two,
is not known to the thread: no chain of stores and loads that acquire leads from the
one to the other. Where there is no race the one value is all a load could find.

The time of a thread is how many stores it has released. How late a load of a word is
is not for the program to choose. `late` says of the loads to come how many stores each
of them misses, if it may miss so many, and nothing is known of `late`.
-/

namespace Sinew.Lib

variable {ι : Type}

/-- What a thread has seen: of each word, which of its stores; and of each thread, how
many of the stores that it has released. -/
structure View (ι : Type) where
  stamp : Nat → Nat := fun _ => 0
  clock : ι → Nat := fun _ => 0

def View.join (v v' : View ι) : View ι where
  stamp a := max (v.stamp a) (v'.stamp a)
  clock i := max (v.clock i) (v'.clock i)

/-- A store to a word, and what its thread had seen. -/
structure Released (ι : Type) where
  value : Nat := 0
  view : View ι := {}

/-- A memory, with an account of what each thread knows. An access is a thread and its
time. -/
structure Weak (ι : Type) where
  byte : Nat → UInt8
  stored : Nat → List (ι × Nat) := fun _ => []
  loaded : Nat → List (ι × Nat) := fun _ => []
  word : Nat → List (Released ι) := fun _ => [{}]
  view : ι → View ι := fun _ => {}
  racy : Bool := false
  late : Nat → Nat

namespace Weak

section

variable (m : Weak ι)

def value (a n : Nat) : Nat := ((m.word a).getD n {}).value

def newest (a : Nat) : Nat := m.value a ((m.word a).length - 1)

/-- What a thread would find that is as late as it may be. -/
def sees (i : ι) (a : Nat) : Nat := m.value a ((m.view i).stamp a)

variable [DecidableEq ι]

/-- The access came before whatever the thread does next. -/
def knows (i : ι) (e : ι × Nat) : Bool := e.1 = i || e.2 < (m.view i).clock e.1

def load (i : ι) (x : Nat) : UInt8 × Weak ι :=
  (m.byte x, { m with
    loaded := Function.update m.loaded x ((i, (m.view i).clock i) :: m.loaded x)
    racy := m.racy || !(m.stored x).all (m.knows i) })

def store (i : ι) (x : Nat) (b : UInt8) : Weak ι :=
  { m with
    byte := Function.update m.byte x b
    stored := Function.update m.stored x ((i, (m.view i).clock i) :: m.stored x)
    racy := m.racy || !(m.stored x ++ m.loaded x).all (m.knows i) }

def found (i : ι) (a : Nat) : Nat :=
  max ((m.view i).stamp a) ((m.word a).length - 1 - m.late 0)

/-- What the thread has seen of the word by then. -/
def looking (i : ι) (a : Nat) : View ι :=
  { m.view i with stamp := Function.update (m.view i).stamp a (m.found i a) }

def loadWord (i : ι) (acquire : Bool) (a : Nat) : Nat × Weak ι :=
  (m.value a (m.found i a), { m with
    view := Function.update m.view i (if acquire then
        (m.looking i a).join ((m.word a).getD (m.found i a) {}).view
      else m.looking i a)
    late := fun k => m.late (k + 1) })

/-- The thread's own store is the last it has seen of the word. -/
def storing (i : ι) (a : Nat) : View ι where
  stamp := Function.update (m.view i).stamp a (m.word a).length
  clock := Function.update (m.view i).clock i ((m.view i).clock i + 1)

def storeWord (i : ι) (a v : Nat) : Weak ι :=
  { m with
    word := Function.update m.word a (m.word a ++ [⟨v, m.storing i a⟩])
    view := Function.update m.view i (m.storing i a) }

end

/-! ## Races -/

section Races

variable [DecidableEq ι] {m : Weak ι} {i : ι} {x : Nat}

theorem knows_of_lt {e : ι × Nat} (h : e.2 < (m.view i).clock e.1) : m.knows i e = true := by
  simp [knows, h]

theorem knows_own {e : ι × Nat} (h : e.1 = i) : m.knows i e = true := by
  simp [knows, h]

theorem load_racy (hm : m.racy = false) (h : ∀ e ∈ m.stored x, m.knows i e = true) :
    (m.load i x).2.racy = false := by
  have hall : (m.stored x).all (m.knows i) = true := List.all_eq_true.mpr h
  simp [load, hm, hall]

theorem store_racy {b : UInt8} (hm : m.racy = false)
    (hstored : ∀ e ∈ m.stored x, m.knows i e = true)
    (hloaded : ∀ e ∈ m.loaded x, m.knows i e = true) :
    (m.store i x b).racy = false := by
  have hall : (m.stored x ++ m.loaded x).all (m.knows i) = true :=
    List.all_eq_true.mpr fun e he => (List.mem_append.mp he).elim (hstored e) (hloaded e)
  simp only [store, hm, hall]
  rfl

/-- A flag hands a byte over, if it is loaded to acquire. -/
example :
    let m : Weak Bool := { byte := fun _ => 0, late := fun _ => 0 }
    let m := (m.store false 7 1).storeWord false 0 1
    ((m.loadWord true true 0).2.load true 7).2.racy = false ∧
      ((m.loadWord true false 0).2.load true 7).2.racy = true := by decide

theorem mem_update_cons {α : Type} {f : Nat → List α} {y : Nat} {a b : α}
    (h : b ∈ Function.update f x (a :: f x) y) : b ∈ f y ∨ y = x ∧ b = a := by
  by_cases hy : y = x
  · subst hy
    rw [Function.update_self] at h
    rcases List.mem_cons.mp h with rfl | h
    · exact .inr ⟨rfl, rfl⟩
    · exact .inl h
  · rw [Function.update_of_ne hy] at h
    exact .inl h

end Races

section Stores

variable [DecidableEq ι] {m : Weak ι} {i j : ι} {a a' v : Nat}

theorem storeWord_view_self : (m.storeWord i a v).view i = m.storing i a := by
  simp only [storeWord, Function.update_self]

theorem storeWord_view_of_ne (hj : j ≠ i) : (m.storeWord i a v).view j = m.view j :=
  Function.update_of_ne hj _ _

theorem storeWord_stamp_of_ne (ha : a' ≠ a) (j : ι) :
    ((m.storeWord i a v).view j).stamp a' = (m.view j).stamp a' := by
  by_cases hj : j = i
  · subst hj
    rw [storeWord_view_self]
    exact Function.update_of_ne ha _ _
  · rw [storeWord_view_of_ne hj]

/-- Of the other words everyone sees what they saw. -/
theorem storeWord_sees_of_ne (ha : a' ≠ a) (j : ι) :
    (m.storeWord i a v).sees j a' = m.sees j a' := by
  have hword : (m.storeWord i a v).word a' = m.word a' := Function.update_of_ne ha _ _
  unfold sees value
  rw [storeWord_stamp_of_ne ha, hword]

end Stores

/-! ## Nothing late

Where no load is late every load finds the last store, and the words are just words. -/

/-- What has been seen is there. -/
structure Bounded (m : Weak ι) : Prop where
  stamp : ∀ i a, (m.view i).stamp a < (m.word a).length
  released : ∀ a r, r ∈ m.word a → ∀ b, r.view.stamp b < (m.word b).length

namespace Bounded

variable {m : Weak ι}

theorem start (byte : Nat → UInt8) (late : Nat → Nat) :
    Bounded ({ byte := byte, late := late } : Weak ι) where
  stamp _ _ := Nat.zero_lt_one
  released _ r hr _ := by
    obtain rfl := List.mem_singleton.mp hr
    exact Nat.zero_lt_one

theorem found (h : m.Bounded) (hlate : m.late 0 = 0) (i : ι) (a : Nat) :
    m.found i a = (m.word a).length - 1 := by
  have hstamp := h.stamp i a
  unfold Weak.found
  omega

variable [DecidableEq ι]

theorem load (h : m.Bounded) (i : ι) (x : Nat) : (m.load i x).2.Bounded :=
  ⟨h.stamp, h.released⟩

theorem store (h : m.Bounded) (i : ι) (x : Nat) (b : UInt8) : (m.store i x b).Bounded :=
  ⟨h.stamp, h.released⟩

theorem loadWord (h : m.Bounded) (i : ι) (acquire : Bool) (a : Nat) :
    (m.loadWord i acquire a).2.Bounded := by
  refine ⟨fun j b => ?_, h.released⟩
  have hlooking : ∀ b, (m.looking i a).stamp b < (m.word b).length := by
    intro b
    by_cases hb : b = a
    · subst hb
      have hstamp := h.stamp i b
      simp only [looking, Function.update_self, Weak.found]
      omega
    · simp only [looking, Function.update_of_ne hb]
      exact h.stamp i b
  by_cases hj : j = i
  · subst hj
    simp only [Weak.loadWord, Function.update_self]
    split
    · have hstamp := hlooking a
      simp only [looking, Function.update_self] at hstamp
      rw [List.getD_eq_getElem _ _ hstamp]
      exact Nat.max_lt.mpr ⟨hlooking b, h.released a _ (List.getElem_mem hstamp) b⟩
    · exact hlooking b
  · simp only [Weak.loadWord, Function.update_of_ne hj]
    exact h.stamp j b

theorem storeWord (h : m.Bounded) (i : ι) (a v : Nat) : (m.storeWord i a v).Bounded := by
  have hmore : ∀ b, (m.word b).length ≤ ((m.storeWord i a v).word b).length := by
    intro b
    by_cases hb : b = a
    · subst hb
      simp only [Weak.storeWord, Function.update_self, List.length_append]
      exact Nat.le_add_right _ _
    · simp only [Weak.storeWord, Function.update_of_ne hb]
      exact Nat.le_refl _
  have hstoring : ∀ b, (m.storing i a).stamp b < ((m.storeWord i a v).word b).length := by
    intro b
    by_cases hb : b = a
    · subst hb
      simp only [storing, Weak.storeWord, Function.update_self, List.length_append,
        List.length_singleton]
      exact Nat.lt_succ_self _
    · simp only [storing, Function.update_of_ne hb]
      exact Nat.lt_of_lt_of_le (h.stamp i b) (hmore b)
  refine ⟨fun j b => ?_, fun b r hr c => ?_⟩
  · by_cases hj : j = i
    · subst hj
      rw [storeWord_view_self]
      exact hstoring b
    · rw [storeWord_view_of_ne hj]
      exact Nat.lt_of_lt_of_le (h.stamp j b) (hmore b)
  · by_cases hb : b = a
    · subst hb
      simp only [Weak.storeWord, Function.update_self] at hr
      rcases List.mem_append.mp hr with hr | hr
      · exact Nat.lt_of_lt_of_le (h.released b r hr c) (hmore c)
      · obtain rfl := List.mem_singleton.mp hr
        exact hstoring c
    · simp only [Weak.storeWord, Function.update_of_ne hb] at hr
      exact Nat.lt_of_lt_of_le (h.released b r hr c) (hmore c)

end Bounded

theorem newest_storeWord [DecidableEq ι] (m : Weak ι) (i : ι) (a v : Nat) :
    (m.storeWord i a v).newest = Function.update m.newest a v := by
  funext b
  by_cases hb : b = a
  · subst hb
    simp only [newest, value, storeWord, Function.update_self, List.length_append,
      List.length_singleton, Nat.add_sub_cancel]
    rw [List.getD_append_right _ _ _ _ (Nat.le_refl _), Nat.sub_self]
    rfl
  · simp only [newest, value, storeWord, Function.update_of_ne hb]

/-! ## A word each

Where each thread stores to one word, its cursor, and stores there how often it has
done so, what a thread has seen of another's cursor is all it knows of that thread. -/

section Cursors

variable (cursor : ι → Nat) (modulus : Nat) (count : ι → Nat)

/-- A view of the cursors. -/
structure View.Known (v : View ι) : Prop where
  clock : ∀ j, v.clock j = v.stamp (cursor j)
  le : ∀ j, v.stamp (cursor j) ≤ count j

/-- Each thread has stored to its cursor so many times, and knows it. -/
structure Counted (m : Weak ι) : Prop where
  length : ∀ i, (m.word (cursor i)).length = count i + 1
  value : ∀ i n, n ≤ count i → m.value (cursor i) n = n % modulus
  stamp : ∀ i n, n ≤ count i →
    ((m.word (cursor i)).getD n {}).view.stamp (cursor i) = n
  released : ∀ i n, n ≤ count i →
    View.Known cursor count ((m.word (cursor i)).getD n {}).view
  known : ∀ i, View.Known cursor count (m.view i)
  own : ∀ i, (m.view i).stamp (cursor i) = count i

variable {cursor modulus count} {m : Weak ι} {i j : ι}

theorem View.Known.mono {v : View ι} (h : View.Known cursor count v) {count' : ι → Nat}
    (hle : ∀ j, count j ≤ count' j) : View.Known cursor count' v :=
  ⟨h.clock, fun j => Nat.le_trans (h.le j) (hle j)⟩

theorem Counted.newest (h : Counted cursor modulus count m) (i : ι) :
    m.newest (cursor i) = count i % modulus := by
  rw [Weak.newest, h.length]
  exact h.value i _ (Nat.le_refl _)

theorem Counted.sees (h : Counted cursor modulus count m) (i j : ι) :
    m.sees i (cursor j) = (m.view i).stamp (cursor j) % modulus :=
  h.value j _ ((h.known i).le j)

theorem Counted.start (byte : Nat → UInt8) (late : Nat → Nat) :
    Counted cursor modulus (fun _ => 0) { byte := byte, late := late } where
  length _ := rfl
  value _ n hn := by
    obtain rfl := Nat.le_zero.mp hn
    exact (Nat.zero_mod modulus).symm
  stamp _ n hn := by
    obtain rfl := Nat.le_zero.mp hn
    rfl
  released _ n hn := by
    obtain rfl := Nat.le_zero.mp hn
    exact ⟨fun _ => rfl, fun _ => Nat.le_refl 0⟩
  known _ := ⟨fun _ => rfl, fun _ => Nat.le_refl 0⟩
  own _ := rfl

theorem Counted.found_le (h : Counted cursor modulus count m) (i j : ι) :
    (m.view i).stamp (cursor j) ≤ m.found i (cursor j) ∧
      m.found i (cursor j) ≤ count j := by
  have hseen := (h.known i).le j
  have hlen := h.length j
  unfold found
  omega

variable [DecidableEq ι]

theorem Counted.loadWord_own (h : Counted cursor modulus count m) (i : ι) :
    m.loadWord i false (cursor i) =
      (count i % modulus, { m with late := fun k => m.late (k + 1) }) := by
  have hfound : m.found i (cursor i) = count i := by
    have hle := h.found_le i i
    rw [h.own i] at hle
    omega
  have hlooking : m.looking i (cursor i) = m.view i := by
    rw [looking, hfound, ← h.own i, Function.update_eq_self]
  rw [loadWord, hfound, h.value i _ (Nat.le_refl _), hlooking]
  simp only [Bool.false_eq_true, if_false, Function.update_eq_self]

/-- Of another's it finds a store that is not older than the one it has seen, and
then knows of that thread all that came before it. -/
theorem Counted.loadWord_other (h : Counted cursor modulus count m) (hij : i ≠ j)
    (hcursor : ∀ i j, cursor i = cursor j → i = j) :
    ∃ v, m.loadWord i true (cursor j) = (m.found i (cursor j) % modulus,
        { m with view := Function.update m.view i v, late := fun k => m.late (k + 1) }) ∧
      View.Known cursor count v ∧ v.stamp (cursor i) = count i ∧
      v.stamp (cursor j) = m.found i (cursor j) := by
  obtain ⟨hle, hlast⟩ := h.found_le i j
  have hfound := h.released j _ hlast
  have hstamp := h.stamp j _ hlast
  have hknown := h.known i
  have hown := h.own i
  have hnew : ∀ l, Function.update (m.view i).stamp (cursor j) (m.found i (cursor j))
      (cursor l) = if l = j then m.found i (cursor j) else (m.view i).stamp (cursor l) := by
    intro l
    split
    · next hl => rw [hl, Function.update_self]
    · next hl => exact Function.update_of_ne (fun heq => hl (hcursor l j heq)) _ _
  refine ⟨(m.looking i (cursor j)).join
    ((m.word (cursor j)).getD (m.found i (cursor j)) {}).view, ?_,
    ⟨fun l => ?_, fun l => ?_⟩, ?_, ?_⟩
  · rw [loadWord, h.value j _ hlast]
    rfl
  · simp only [View.join, looking, hnew, hfound.clock l, hknown.clock l]
    split
    · next hl =>
        subst hl
        rw [hstamp]
        omega
    · rfl
  · simp only [View.join, looking, hnew]
    have hl := hfound.le l
    have hl' := hknown.le l
    split
    · next hl =>
        subst hl
        omega
    · omega
  · simp only [View.join, looking, hnew, if_neg hij, hown]
    exact Nat.max_eq_left (hfound.le i)
  · simp only [View.join, looking, hnew, if_true, hstamp, Nat.max_self]

theorem Counted.load (h : Counted cursor modulus count m) (i : ι) (x : Nat) :
    Counted cursor modulus count (m.load i x).2 :=
  ⟨h.length, h.value, h.stamp, h.released, h.known, h.own⟩

theorem Counted.store (h : Counted cursor modulus count m) (i : ι) (x : Nat) (b : UInt8) :
    Counted cursor modulus count (m.store i x b) :=
  ⟨h.length, h.value, h.stamp, h.released, h.known, h.own⟩

theorem Counted.learn (h : Counted cursor modulus count m) {v : View ι}
    (hv : View.Known cursor count v) (hown : v.stamp (cursor i) = count i)
    (late : Nat → Nat) :
    Counted cursor modulus count
      { m with view := Function.update m.view i v, late := late } where
  length := h.length
  value := h.value
  stamp := h.stamp
  released := h.released
  known j := by
    by_cases hj : j = i
    · subst hj
      simp only [Function.update_self]
      exact hv
    · simp only [Function.update_of_ne hj]
      exact h.known j
  own j := by
    by_cases hj : j = i
    · subst hj
      simp only [Function.update_self]
      exact hown
    · simp only [Function.update_of_ne hj]
      exact h.own j

theorem Counted.storeWord (h : Counted cursor modulus count m)
    (hcursor : ∀ i j, cursor i = cursor j → i = j) (i : ι) :
    Counted cursor modulus (Function.update count i (count i + 1))
      (m.storeWord i (cursor i) ((count i + 1) % modulus)) := by
  have hmore : ∀ j, count j ≤ Function.update count i (count i + 1) j := by
    intro j
    by_cases hj : j = i
    · subst hj
      rw [Function.update_self]
      omega
    · exact Nat.le_of_eq (Function.update_of_ne hj _ _).symm
  have hother : ∀ j, j ≠ i → cursor j ≠ cursor i := fun j hj heq => hj (hcursor j i heq)
  have hlen := h.length i
  have hclock := (h.known i).clock
  have hview : View.Known cursor (Function.update count i (count i + 1))
      (m.storing i (cursor i)) := by
    refine ⟨fun j => ?_, fun j => ?_⟩
    · by_cases hj : j = i
      · subst hj
        simp only [storing, Function.update_self, hclock, h.own, hlen]
      · simp only [storing, Function.update_of_ne hj, Function.update_of_ne (hother j hj), hclock]
    · by_cases hj : j = i
      · subst hj
        simp only [storing, Function.update_self, hlen]
        exact Nat.le_refl _
      · simp only [storing, Function.update_of_ne hj, Function.update_of_ne (hother j hj)]
        exact (h.known i).le j
  -- an old store is where it was, and the new one is the last
  have hword : ∀ j n, n ≤ Function.update count i (count i + 1) j →
      (n ≤ count j ∧ ((m.storeWord i (cursor i) ((count i + 1) % modulus)).word
          (cursor j)).getD n {} = (m.word (cursor j)).getD n {}) ∨
      (j = i ∧ n = count i + 1 ∧ ((m.storeWord i (cursor i) ((count i + 1) % modulus)).word
          (cursor j)).getD n {} = ⟨(count i + 1) % modulus, m.storing i (cursor i)⟩) := by
    intro j n hn
    by_cases hj : j = i
    · subst hj
      rw [Function.update_self] at hn
      simp only [Weak.storeWord, Function.update_self]
      rcases Nat.lt_or_ge n (count j + 1) with hlt | hge
      · refine .inl ⟨by omega, ?_⟩
        rw [List.getD_append _ _ _ _ (by omega)]
      · obtain rfl : n = count j + 1 := by omega
        refine .inr ⟨trivial, rfl, ?_⟩
        rw [List.getD_append_right _ _ _ _ (by omega), hlen, Nat.sub_self]
        rfl
    · rw [Function.update_of_ne hj] at hn
      refine .inl ⟨hn, ?_⟩
      simp only [Weak.storeWord, Function.update_of_ne (hother j hj)]
  refine ⟨fun j => ?_, fun j n hn => ?_, fun j n hn => ?_, fun j n hn => ?_, fun j => ?_,
    fun j => ?_⟩
  · by_cases hj : j = i
    · subst hj
      simp only [Weak.storeWord, Function.update_self, List.length_append, List.length_singleton,
        hlen]
    · simp only [Weak.storeWord, Function.update_of_ne (hother j hj), Function.update_of_ne hj]
      exact h.length j
  · rcases hword j n hn with ⟨hle, hsame⟩ | ⟨rfl, rfl, hlast⟩
    · rw [Weak.value, hsame]
      exact h.value j n hle
    · rw [Weak.value, hlast]
  · rcases hword j n hn with ⟨hle, hsame⟩ | ⟨rfl, rfl, hlast⟩
    · rw [hsame]
      exact h.stamp j n hle
    · rw [hlast]
      simp only [storing, Function.update_self, hlen]
  · rcases hword j n hn with ⟨hle, hsame⟩ | ⟨rfl, rfl, hlast⟩
    · rw [hsame]
      exact (h.released j n hle).mono hmore
    · rw [hlast]
      exact hview
  · by_cases hj : j = i
    · subst hj
      simp only [Weak.storeWord, Function.update_self]
      exact hview
    · simp only [Weak.storeWord, Function.update_of_ne hj]
      exact (h.known j).mono hmore
  · by_cases hj : j = i
    · subst hj
      simp only [Weak.storeWord, Function.update_self, storing, hlen]
    · simp only [Weak.storeWord, Function.update_of_ne hj]
      exact h.own j

end Cursors

end Weak

end Sinew.Lib
