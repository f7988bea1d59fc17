import Sinew.Lib.Steps
import Sinew.Model.Containers

/-!
# A string is a truncating string

`assign` and `append` copy forwards, one character at a time, and may read what
they are about to overwrite: the argument may be a view of the string itself.
`assign` copies towards the front of its own array, so a cell has been read by
the time it is overwritten; `append` copies behind the contents, where no view of
them reaches. Either way the characters copied are those the view had at the
call, cut at the capacity, and a terminator is stored behind them.
-/

namespace Sinew

open Lib

/-- The characters of a view that a program may hold of `contents`. -/
def StringView.ofContents (contents : List UInt8) : StringView → Option (List UInt8)
  | .external chars => some chars
  | .own offset length =>
      if offset + length ≤ contents.length then some ((contents.drop offset).take length)
      else none

/-- The characters up to the terminator, of a pointer that is not null. -/
def CharPtr.ofContents (contents : List UInt8) : CharPtr → Option (List UInt8)
  | .null => none
  | .external chars => some (chars.takeWhile (· ≠ 0))
  | .own offset =>
      if offset ≤ contents.length then some ((contents.drop offset).takeWhile (· ≠ 0))
      else none

namespace StaticString

variable {Capacity w : Nat} {s t : StaticString Capacity} {sv : StringView}
  {chars : List UInt8}

def contents (s : StaticString Capacity) : List UInt8 := slice s.data 0 s.size.toNat

theorem store_eq {i : Nat} (hi : i ≤ Capacity) (c : UInt8) :
    s.store i c = some { s with data := patch s.data i [c] } :=
  if_pos (Nat.lt_succ_of_le hi)

/-- The loop does not overwrite what it has yet to read. -/
def Ahead (sv : StringView) (start i count : Nat) : Prop :=
  ∀ offset length, sv = .own offset length → start ≤ offset ∨ offset + i + count ≤ start

theorem charAt_store {start i j : Nat} (hahead : Ahead sv start i (j - i + 1))
    (hij : i < j) (c : UInt8) :
    charAt (⟨patch s.data (start + i) [c], s.size⟩ : StaticString Capacity) j sv =
      s.charAt j sv := by
  cases sv with
  | external chars => rfl
  | own offset length =>
      have hside := hahead offset length rfl
      have hne : offset + j ≠ start + i := by omega
      simp only [charAt, load, patch, Function.update_of_ne hne]

/-- The loop stores the characters that the view had when it started. -/
theorem copy_eq {start i : Nat} (hfits : start + i + chars.length ≤ Capacity + 1)
    (hahead : Ahead sv start i chars.length)
    (hchars : ∀ j < chars.length, s.charAt (i + j) sv = chars[j]?) :
    copy sv start chars.length i s =
      some { s with data := patch s.data (start + i) chars } := by
  induction chars generalizing i s with
  | nil => rfl
  | cons c chars ih =>
      rw [List.length_cons] at hfits hahead hchars
      have hfirst := hchars 0 (Nat.succ_pos _)
      rw [List.getElem?_cons_zero, Nat.add_zero] at hfirst
      rw [List.length_cons, copy, hfirst, Option.bind_eq_bind, Option.bind_some,
        store_eq (by omega), Option.bind_eq_bind, Option.bind_some]
      refine ih (by omega) (fun offset length h => ?_) (fun j hj => ?_)
      · have hside := hahead offset length h
        omega
      · have hnext := hchars (j + 1) (by omega)
        rw [List.getElem?_cons_succ, show i + (j + 1) = i + 1 + j by omega] at hnext
        rw [charAt_store (fun offset length h => ?_) (by omega), hnext]
        have hside := hahead offset length h
        omega

/-- The view has these characters, and lies within the contents if it is one of
them. -/
structure Views (s : StaticString Capacity) (sv : StringView) (chars : List UInt8) :
    Prop where
  size : sv.size = chars.length
  charAt : ∀ j < chars.length, s.charAt j sv = chars[j]?
  within : ∀ offset length, sv = .own offset length → offset + length ≤ s.size.toNat

theorem min_size {n : Nat} (h : sv.size = chars.length) :
    (if sv.size < n then sv.size else n) = (chars.take n).length := by
  rw [List.length_take, h]
  split <;> omega

theorem Views.charAt_take (h : s.Views sv chars) (n : Nat) :
    ∀ j < (chars.take n).length, s.charAt (0 + j) sv = (chars.take n)[j]? := by
  intro j hj
  rw [List.length_take] at hj
  rw [Nat.zero_add, h.charAt j (by omega), List.getElem?_take, if_pos (by omega)]

theorem assign_eq (h : s.Views sv chars) :
    s.assign sv = some (decide (chars.length ≤ Capacity),
      ⟨patch s.data 0 (chars.take Capacity ++ [0]),
        UInt32.ofNat (chars.take Capacity).length⟩) := by
  have hle : (chars.take Capacity).length ≤ Capacity := List.length_take_le ..
  have hahead : Ahead sv 0 0 (chars.take Capacity).length :=
    fun _ _ _ => .inl (Nat.zero_le _)
  rw [assign, min_size h.size, copy_eq (by omega) hahead (h.charAt_take Capacity),
    Option.bind_eq_bind, Option.bind_some, store_eq hle, Option.bind_some, patch_append,
    h.size]
  simp only [Nat.zero_add, Option.pure_def]

theorem available_eq (hcap : Capacity < 2 ^ 32) (hw : 32 ≤ w)
    (hle : s.size.toNat ≤ Capacity) : s.available w = Capacity - s.size.toNat := by
  have hpow : 2 ^ 32 ≤ 2 ^ w := Nat.pow_le_pow_right (by decide) hw
  rw [available, show Capacity + 2 ^ w - s.size.toNat = Capacity - s.size.toNat + 2 ^ w by
    omega, Nat.add_mod_right, Nat.mod_eq_of_lt (by omega)]

theorem append_eq (hcap : Capacity < 2 ^ 32) (hw : 32 ≤ w) (hle : s.size.toNat ≤ Capacity)
    (h : s.Views sv chars) :
    let added := chars.take (Capacity - s.size.toNat)
    s.append w sv = some (decide (chars.length ≤ Capacity - s.size.toNat),
      ⟨patch s.data s.size.toNat (added ++ [0]), s.size + UInt32.ofNat added.length⟩) := by
  intro added
  have hadded : added.length ≤ Capacity - s.size.toNat := List.length_take_le ..
  have hsize : (s.size + UInt32.ofNat added.length).toNat = s.size.toNat + added.length := by
    rw [UInt32.toNat_add, UInt32.toNat_ofNat', Nat.mod_eq_of_lt (by omega),
      Nat.mod_eq_of_lt (by omega)]
  have hahead : Ahead sv s.size.toNat 0 added.length := by
    intro offset length hown
    have hwithin := h.within offset length hown
    have hlen := h.size
    rw [hown] at hlen
    have htake : added.length ≤ chars.length := List.length_take_le' ..
    exact .inr (by simp only [StringView.size] at hlen; omega)
  rw [append, available_eq hcap hw hle, min_size h.size]
  dsimp only
  rw [copy_eq (by omega) hahead (h.charAt_take _), Option.bind_eq_bind, Option.bind_some,
    hsize, store_eq (by omega), Option.bind_some, patch_append, h.size, Nat.add_zero]
  rfl

theorem clear_eq : s.clear = some ⟨patch s.data 0 [0], 0⟩ := by
  rw [clear, store_eq (Nat.zero_le _)]
  rfl

theorem construct_eq : (construct : Option (StaticString Capacity)) = some zero := by
  rw [construct, store_eq (Nat.zero_le _)]
  refine congrArg some ?_
  simp only [zero, patch, Function.update_eq_self]

theorem assignChar_eq {i : Nat} (hi : i ≤ Capacity) (c : UInt8) :
    s.assignChar i c = some (true, ⟨patch s.data i [c], s.size⟩) := by
  rw [assignChar, store_eq hi]
  rfl

/-! ## The contents -/

/-- A call on the contents, where the call is one a program may make: a view of the
string lies within the contents, and a character assigned to is one of them. A string
under construction has no contents. -/
def Op.onContents (b : Bounded UInt8 Capacity) : Op → Option (Bool × Bounded UInt8 Capacity)
  | .construct => some (true, .empty)
  | .constructView sv => (sv.ofContents []).map fun l => (true, (Bounded.truncate l).2)
  | .constructPtr .null => some (true, .empty)
  | .constructPtr p => (p.ofContents []).map fun l => (true, (Bounded.truncate l).2)
  | .assignView sv => (sv.ofContents b.toList).map fun l => (true, (Bounded.truncate l).2)
  | .assignPtr .null => some (true, .empty)
  | .assignPtr p => (p.ofContents b.toList).map fun l => (true, (Bounded.truncate l).2)
  | .assign sv => (sv.ofContents b.toList).map Bounded.truncate
  | .append sv => (sv.ofContents b.toList).map b.append
  | .clear => some (true, .empty)
  | .setAt index c => setChar b index.toNat c
  | .setIndex index c => setChar b index.toNat c
  | .setIterator position c => setChar b position c
where
  setChar (b : Bounded UInt8 Capacity) (i : Nat) (c : UInt8) :
      Option (Bool × Bounded UInt8 Capacity) :=
    if i < b.toList.length then some (true, b.set i c) else none

def runContents (b : Bounded UInt8 Capacity) :
    List Op → Option (List Bool × Bounded UInt8 Capacity)
  | [] => some ([], b)
  | op :: ops => do
      let (answer, b) ← op.onContents b
      let (answers, b) ← runContents b ops
      return (answer :: answers, b)

/-- The contents, and the terminator behind them. -/
structure Refines (s : StaticString Capacity) (b : Bounded UInt8 Capacity) : Prop where
  contents : s.contents = b.toList
  terminated : s.data s.size.toNat = 0

variable {b : Bounded UInt8 Capacity}

theorem Refines.size (h : s.Refines b) : s.size.toNat = b.toList.length := by
  rw [← h.contents, StaticString.contents, slice_length]

theorem Refines.le (h : s.Refines b) : s.size.toNat ≤ Capacity := by
  rw [h.size]
  exact b.le

theorem refines_zero : (zero : StaticString Capacity).Refines .empty := ⟨rfl, rfl⟩

/-- Storing characters and a terminator behind the first `n` of the contents, and
counting up to the terminator. -/
theorem Refines.terminate (h : s.Refines b) {n : Nat} (hn : n ≤ s.size.toNat)
    {added : List UInt8} {size : UInt32} (hsize : size.toNat = n + added.length)
    {b' : Bounded UInt8 Capacity} (hb : b'.toList = b.toList.take n ++ added) :
    (⟨patch s.data n (added ++ [0]), size⟩ : StaticString Capacity).Refines b' where
  contents := by
    have hfront : slice (patch s.data n (added ++ [0])) 0 n = b.toList.take n := by
      obtain ⟨d, hd⟩ := Nat.exists_eq_add_of_le hn
      rw [slice_patch_of_disjoint (.inl (by omega)), ← h.contents, StaticString.contents, hd,
        slice_add, List.take_left' (slice_length ..)]
    rw [StaticString.contents, hsize, slice_add, hfront, hb, Nat.zero_add, patch_append,
      slice_patch_of_disjoint (.inl (Nat.le_refl _)), slice_patch]
  terminated := by
    show patch s.data n (added ++ [0]) size.toNat = 0
    rw [hsize, patch_of_mem (by simp)]
    simp

theorem Refines.views (h : s.Refines b) (hsv : sv.ofContents b.toList = some chars) :
    s.Views sv chars := by
  have hle := h.le
  have hsize := h.size
  cases sv with
  | external cs =>
      obtain rfl := Option.some.inj hsv
      exact ⟨rfl, fun j _ => rfl, fun _ _ h => by cases h⟩
  | own offset length =>
      rw [StringView.ofContents] at hsv
      split at hsv
      · next hwithin =>
          obtain rfl := Option.some.inj hsv
          refine ⟨?_, fun j hj => ?_, fun o l hown => ?_⟩
          · rw [StringView.size, List.length_take, List.length_drop]
            omega
          · rw [List.length_take, List.length_drop] at hj
            rw [charAt, load, if_pos (by omega), List.getElem?_take, if_pos (by omega),
              List.getElem?_drop, ← h.contents, StaticString.contents, slice_getElem?,
              if_pos (by omega), Nat.zero_add]
          · cases hown
            omega
      · cases hsv

theorem Refines.assign (hcap : Capacity < 2 ^ 32) (h : s.Refines b)
    (hsv : s.Views sv chars) :
    ∃ t, s.assign sv =
        some ((Bounded.truncate chars : Bool × Bounded UInt8 Capacity).1, t) ∧
      t.Refines (Bounded.truncate chars).2 := by
  have htake : (chars.take Capacity).length ≤ Capacity := List.length_take_le ..
  refine ⟨_, assign_eq hsv, h.terminate (Nat.zero_le _) ?_ rfl⟩
  rw [UInt32.toNat_ofNat', Nat.mod_eq_of_lt (by omega), Nat.zero_add]

theorem Refines.append (hcap : Capacity < 2 ^ 32) (hw : 32 ≤ w) (h : s.Refines b)
    (hsv : s.Views sv chars) :
    ∃ t, s.append w sv = some ((b.append chars).1, t) ∧ t.Refines (b.append chars).2 := by
  have hle := h.le
  have hsize := h.size
  have htake : (chars.take (Capacity - s.size.toNat)).length ≤ Capacity - s.size.toNat :=
    List.length_take_le ..
  have hanswer : (b.append chars).1 = decide (chars.length ≤ Capacity - s.size.toNat) := by
    show decide ((b.toList ++ chars).length ≤ Capacity) = _
    rw [List.length_append]
    exact decide_eq_decide.mpr (by omega)
  refine ⟨_, (append_eq hcap hw hle hsv).trans (by rw [hanswer]), ?_⟩
  refine h.terminate (Nat.le_refl _) ?_ ?_
  · rw [UInt32.toNat_add, UInt32.toNat_ofNat', Nat.mod_eq_of_lt (by omega),
      Nat.mod_eq_of_lt (by omega)]
  · show (b.toList ++ chars).take Capacity = _
    rw [List.take_append, hsize, List.take_of_length_le (Nat.le_refl b.toList.length),
      List.take_of_length_le (by omega)]

theorem strlen_eq {n extra i : Nat} (hterm : s.data (i + n) = 0) :
    s.strlen (n + 1 + extra) i = some ((slice s.data i n).takeWhile (· ≠ 0)).length := by
  induction n generalizing i with
  | zero =>
      rw [Nat.zero_add, Nat.add_comm, strlen, if_pos (by simpa using hterm)]
      rfl
  | succ n ih =>
      rw [show n + 1 + 1 + extra = n + 1 + extra + 1 by omega, strlen, slice]
      split
      · next hzero => rw [List.takeWhile_cons_of_neg (by simpa using hzero), List.length_nil]
      · next hne =>
          rw [List.takeWhile_cons_of_pos (by simpa using hne), List.length_cons,
            ih (by rw [Nat.add_right_comm]; exact hterm)]
          rfl

theorem Refines.viewOfPtr (h : s.Refines b) {p : CharPtr}
    (hp : p.ofContents b.toList = some chars) :
    ∃ sv, s.viewOfPtr p = some sv ∧ s.Views sv chars := by
  cases p with
  | null => cases hp
  | external cs => exact ⟨_, rfl, h.views hp⟩
  | own offset =>
      rw [CharPtr.ofContents] at hp
      split at hp
      · next hle =>
          obtain rfl := Option.some.inj hp
          have hcap := h.le
          have hsize := h.size
          obtain ⟨n, hn⟩ := Nat.exists_eq_add_of_le hle
          have hdrop : slice s.data offset n = b.toList.drop offset := by
            rw [← h.contents, StaticString.contents, hsize, hn, slice_add, Nat.zero_add,
              List.drop_left' (slice_length ..)]
          have hterm : s.data (offset + n) = 0 := by
            rw [← hn, ← hsize]
            exact h.terminated
          obtain ⟨extra, hextra⟩ : ∃ extra, Capacity + 1 - offset = n + 1 + extra :=
            ⟨Capacity - offset - n, by omega⟩
          have hlen : s.strlen (n + 1 + extra) offset = _ := strlen_eq hterm
          rw [hdrop] at hlen
          refine ⟨_, by rw [StaticString.viewOfPtr, hextra, hlen]; rfl, h.views ?_⟩
          have hprefix := List.takeWhile_prefix (l := b.toList.drop offset) (· ≠ 0)
          have hshort := hprefix.length_le
          rw [List.length_drop] at hshort
          rw [StringView.ofContents, if_pos (by omega), ← List.prefix_iff_eq_take.mp hprefix]
      · cases hp

theorem Refines.clear (h : s.Refines b) : ∃ t, s.clear = some t ∧ t.Refines .empty := by
  have hempty : (⟨patch s.data 0 ([] ++ [0]), 0⟩ : StaticString Capacity).Refines .empty :=
    h.terminate (Nat.zero_le _) rfl rfl
  exact ⟨_, clear_eq, hempty⟩

theorem Refines.setChar (h : s.Refines b) {i : Nat} {c : UInt8} {answer : Bool}
    {b' : Bounded UInt8 Capacity} (hop : Op.onContents.setChar b i c = some (answer, b')) :
    i < s.size.toNat ∧ ∃ t, s.assignChar i c = some (answer, t) ∧ t.Refines b' := by
  have hle := h.le
  have hsize := h.size
  rw [Op.onContents.setChar] at hop
  split at hop
  · next hi =>
      obtain ⟨rfl, rfl⟩ := Prod.mk.inj (Option.some.inj hop)
      refine ⟨by omega, _, assignChar_eq (by omega) c, ?_, ?_⟩
      · have hset := slice_update (f := s.data) (a := 0) (n := s.size.toNat) (i := i)
          (by omega) (x := c)
        rw [Nat.zero_add] at hset
        exact hset.trans (congrArg (List.set · i c) h.contents)
      · show Function.update s.data i c s.size.toNat = 0
        rw [Function.update_of_ne (by omega)]
        exact h.terminated
  · cases hop

theorem Refines.assigned (hcap : Capacity < 2 ^ 32) (h : s.Refines b)
    (hsv : s.Views sv chars) :
    ∃ t, s.assignView sv = some t ∧
      t.Refines (Bounded.truncate chars : Bool × Bounded UInt8 Capacity).2 := by
  obtain ⟨t, ht, hrefines⟩ := h.assign hcap hsv
  exact ⟨t, by rw [assignView, ht]; rfl, hrefines⟩

theorem constructView_eq : (constructView sv : Option (StaticString Capacity)) =
    (zero : StaticString Capacity).assignView sv := rfl

theorem assignPtr_eq {p : CharPtr} (hsv : s.viewOfPtr p = some sv) :
    s.assignPtr p = s.assignView sv := by
  cases p with
  | null => cases hsv
  | external cs =>
      show ((s.viewOfPtr (.external cs)).bind fun sv => s.assignView sv) = _
      rw [hsv, Option.bind_some]
  | own offset =>
      show ((s.viewOfPtr (.own offset)).bind fun sv => s.assignView sv) = _
      rw [hsv, Option.bind_some]

theorem Refines.assignedPtr (hcap : Capacity < 2 ^ 32) (h : s.Refines b) {p : CharPtr}
    (hp : p.ofContents b.toList = some chars) :
    ∃ t, s.assignPtr p = some t ∧
      t.Refines (Bounded.truncate chars : Bool × Bounded UInt8 Capacity).2 := by
  obtain ⟨sv, hsv, hviews⟩ := h.viewOfPtr hp
  obtain ⟨t, ht, hrefines⟩ := h.assigned hcap hviews
  exact ⟨t, (assignPtr_eq hsv).trans ht, hrefines⟩

/-- A pointer that is not null constructs what it would assign. -/
theorem constructPtr_eq {p : CharPtr} {l : List UInt8} (hp : p.ofContents l = some chars)
    {u : StaticString Capacity} (h : (zero : StaticString Capacity).assignPtr p = some u) :
    constructPtr p = some u := by
  cases p with
  | null => cases hp
  | external cs => exact h
  | own offset => exact h

theorem onContents_assignPtr {p : CharPtr} {r : Bool × Bounded UInt8 Capacity}
    (hop : Op.onContents b (.assignPtr p) = some r) :
    (p = .null ∧ (true, .empty) = r) ∨
      ∃ l, p.ofContents b.toList = some l ∧ (true, (Bounded.truncate l).2) = r := by
  cases p with
  | null => exact .inl ⟨rfl, Option.some.inj hop⟩
  | external cs => exact .inr ⟨_, rfl, Option.some.inj hop⟩
  | own offset => exact .inr (Option.map_eq_some_iff.mp hop)

/-- To construct is to assign to a string without contents. -/
theorem onContents_constructPtr (p : CharPtr) :
    Op.onContents b (.constructPtr p) = Op.onContents .empty (.assignPtr p) := by
  cases p <;> rfl

theorem Refines.step (hcap : Capacity < 2 ^ 32) (hw : 32 ≤ w) (hasExceptions : Bool)
    (h : s.Refines b) {op : Op} {answer : Bool} {b' : Bounded UInt8 Capacity}
    (hop : op.onContents b = some (answer, b')) :
    ∃ t, s.step w hasExceptions op = some (answer, t) ∧ t.Refines b' := by
  -- What has no answer of its own answers `true`.
  have hanswers : ∀ {u : StaticString Capacity} {call : Option (StaticString Capacity)}
      {c : Bounded UInt8 Capacity}, call = some u → u.Refines c → (true, c) = (answer, b') →
      ∃ t, (do return (true, ← call)) = some (answer, t) ∧ t.Refines b' := by
    intro u call c hcall hu heq
    obtain ⟨rfl, rfl⟩ := Prod.mk.inj heq
    exact ⟨u, by rw [hcall]; rfl, hu⟩
  cases op with
  | construct => exact hanswers construct_eq refines_zero (Option.some.inj hop)
  | constructView sv =>
      obtain ⟨l, hl, heq⟩ := Option.map_eq_some_iff.mp hop
      obtain ⟨u, hu, hrefines⟩ := refines_zero.assigned hcap (refines_zero.views hl)
      exact hanswers (constructView_eq.trans hu) hrefines heq
  | constructPtr p =>
      rw [onContents_constructPtr] at hop
      obtain hnull | ⟨l, hl, heq⟩ := onContents_assignPtr hop
      · obtain ⟨rfl, heq⟩ := hnull
        exact hanswers rfl refines_zero heq
      · obtain ⟨u, hu, hrefines⟩ := refines_zero.assignedPtr hcap hl
        exact hanswers (constructPtr_eq hl hu) hrefines heq
  | assignView sv =>
      obtain ⟨l, hl, heq⟩ := Option.map_eq_some_iff.mp hop
      obtain ⟨u, hu, hrefines⟩ := h.assigned hcap (h.views hl)
      exact hanswers hu hrefines heq
  | assignPtr p =>
      obtain hnull | ⟨l, hl, heq⟩ := onContents_assignPtr hop
      · obtain ⟨rfl, heq⟩ := hnull
        obtain ⟨u, hu, hrefines⟩ := h.clear
        exact hanswers hu hrefines heq
      · obtain ⟨u, hu, hrefines⟩ := h.assignedPtr hcap hl
        exact hanswers hu hrefines heq
  | assign sv =>
      obtain ⟨l, hl, heq⟩ := Option.map_eq_some_iff.mp hop
      have hassign := h.assign hcap (h.views hl)
      rw [heq] at hassign
      exact hassign
  | append sv =>
      obtain ⟨l, hl, heq⟩ := Option.map_eq_some_iff.mp hop
      have happend := h.append hcap hw (h.views hl)
      rw [heq] at happend
      exact happend
  | clear =>
      obtain ⟨u, hu, hrefines⟩ := h.clear
      exact hanswers hu hrefines (Option.some.inj hop)
  | setAt index c =>
      obtain ⟨hlt, hset⟩ := h.setChar hop
      have hat : s.atIndex hasExceptions index = .ok index.toNat := if_neg (by
        rw [ge_iff_le, UInt32.le_iff_toNat_le]
        omega)
      simp only [StaticString.step, hat]
      exact hset
  | setIndex index c => exact (h.setChar hop).2
  | setIterator position c => exact (h.setChar hop).2

theorem runContents_runs :
    Runs (fun (b : Bounded UInt8 Capacity) op => op.onContents b) runContents :=
  ⟨fun _ => rfl, fun _ _ _ => rfl⟩

theorem run_runs (w : Nat) (hasExceptions : Bool) :
    Runs (fun (s : StaticString Capacity) op => s.step w hasExceptions op)
      fun s ops => s.run w hasExceptions ops :=
  ⟨fun _ => rfl, fun _ _ _ => rfl⟩

theorem Refines.run (hcap : Capacity < 2 ^ 32) (hw : 32 ≤ w) (hasExceptions : Bool)
    {ops : List Op} (h : s.Refines b) {answers : List Bool} {b' : Bounded UInt8 Capacity}
    (hops : runContents b ops = some (answers, b')) :
    ∃ t, s.run w hasExceptions ops = some (answers, t) ∧ t.Refines b' :=
  (run_runs w hasExceptions).simulates runContents_runs
    (fun _ _ _ _ _ h hop => h.step hcap hw hasExceptions hop) h hops

theorem viewFrom_eq {count i : Nat} (hfits : i + count ≤ Capacity + 1) :
    s.viewFrom count i = some (slice s.data i count) := by
  induction count generalizing i with
  | zero => rfl
  | succ count ih =>
      have hload : s.load i = some (s.data i) := if_pos (by omega)
      rw [viewFrom, hload, Option.bind_eq_bind, Option.bind_some, ih (by omega)]
      rfl

theorem view_eq (hle : s.size.toNat ≤ Capacity) : s.view = some s.contents :=
  viewFrom_eq (by omega)

theorem equal_eq (hs : s.size.toNat ≤ Capacity) (ht : t.size.toNat ≤ Capacity) :
    s.equal t = some (s.contents == t.contents) := by
  rw [equal, view_eq hs, view_eq ht]
  rfl

/-- **Strings refine truncating strings**, also where they are assigned or appended
views of themselves: through any calls a program may make, the answers and the
contents are those of a string that keeps the first `Capacity` characters of what it
is given; the count never passes the capacity and the contents are terminated; and two
strings compare as their contents do. -/
theorem static_string_refines (hcap : Capacity < 2 ^ 32) (hw : 32 ≤ w)
    (hasExceptions : Bool) :
    (∀ ops answers (b : Bounded UInt8 Capacity), runContents .empty ops = some (answers, b) →
      ∃ s : StaticString Capacity,
        (zero : StaticString Capacity).run w hasExceptions ops = some (answers, s) ∧
          s.size.toNat ≤ Capacity ∧ s.data s.size.toNat = 0 ∧ s.contents = b.toList) ∧
    ∀ ops ops' answers answers' (b b' : Bounded UInt8 Capacity) (s s' : StaticString Capacity),
      runContents .empty ops = some (answers, b) →
      runContents .empty ops' = some (answers', b') →
      (zero : StaticString Capacity).run w hasExceptions ops = some (answers, s) →
      (zero : StaticString Capacity).run w hasExceptions ops' = some (answers', s') →
      s.equal s' = some (decide (b.toList = b'.toList)) := by
  have hrun : ∀ ops answers (b : Bounded UInt8 Capacity),
      runContents .empty ops = some (answers, b) →
      ∃ s : StaticString Capacity,
        (zero : StaticString Capacity).run w hasExceptions ops = some (answers, s) ∧
          s.Refines b :=
    fun ops answers b hops => refines_zero.run hcap hw hasExceptions hops
  refine ⟨fun ops answers b hops => ?_, ?_⟩
  · obtain ⟨s, hs, hrefines⟩ := hrun ops answers b hops
    exact ⟨s, hs, hrefines.le, hrefines.terminated, hrefines.contents⟩
  · intro ops ops' answers answers' b b' s s' hops hops' hs hs'
    obtain ⟨u, hu, hrefines⟩ := hrun ops answers b hops
    obtain ⟨u', hu', hrefines'⟩ := hrun ops' answers' b' hops'
    rw [hs] at hu
    rw [hs'] at hu'
    obtain ⟨-, rfl⟩ := Prod.mk.inj (Option.some.inj hu)
    obtain ⟨-, rfl⟩ := Prod.mk.inj (Option.some.inj hu')
    rw [equal_eq hrefines.le hrefines'.le, hrefines.contents, hrefines'.contents]
    refine congrArg some ?_
    rw [Bool.eq_iff_iff, beq_iff_eq, decide_eq_true_iff]

/-- `"abc"` in four characters, its own last two assigned to it, and then twice
appended to itself. -/
theorem static_string_refines_self :
    ∃ s : StaticString 4,
      (zero : StaticString 4).run 64 true [.constructPtr (.external [0x61, 0x62, 0x63, 0]),
        .assign (.own 1 2), .append (.own 0 2), .append (.own 0 4)] =
          some ([true, true, true, false], s) ∧
      s.size.toNat ≤ 4 ∧ s.data s.size.toNat = 0 ∧
        s.contents = [0x62, 0x63, 0x62, 0x63] :=
  (static_string_refines (by decide) (by decide) true).1 _ _
    ⟨[0x62, 0x63, 0x62, 0x63], by decide⟩ rfl

end StaticString

end Sinew
