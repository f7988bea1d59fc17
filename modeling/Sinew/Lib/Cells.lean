import Mathlib.Logic.Function.Basic
import Mathlib.Tactic.Common

/-!
# A flat memory of cells

A memory is a function from addresses to cells. `slice` reads a run of
consecutive cells and `patch` overwrites one; everything said here is about how
the two meet: on the same run, on disjoint runs, and on runs cut in pieces.
-/

namespace Sinew.Lib

variable {α : Type}

/-- The `n` cells from `a` on. -/
def slice (f : Nat → α) (a : Nat) : Nat → List α
  | 0 => []
  | n + 1 => f a :: slice f (a + 1) n

/-- The memory with `xs` written from `a` on. -/
def patch (f : Nat → α) (a : Nat) : List α → Nat → α
  | [] => f
  | x :: xs => patch (Function.update f a x) (a + 1) xs

@[simp] theorem slice_zero (f : Nat → α) (a : Nat) : slice f a 0 = [] := rfl

@[simp] theorem patch_nil (f : Nat → α) (a : Nat) : patch f a [] = f := rfl

@[simp] theorem slice_length (f : Nat → α) (a n : Nat) : (slice f a n).length = n := by
  induction n generalizing a with
  | zero => rfl
  | succ n ih => rw [slice, List.length_cons, ih]

theorem slice_getElem? (f : Nat → α) (a n i : Nat) :
    (slice f a n)[i]? = if i < n then some (f (a + i)) else none := by
  induction n generalizing a i with
  | zero => simp
  | succ n ih =>
      cases i with
      | zero => simp [slice]
      | succ i =>
          rw [slice, List.getElem?_cons_succ, ih, Nat.add_right_comm a 1 i,
            Nat.add_assoc a i 1]
          simp only [Nat.add_lt_add_iff_right]

theorem slice_add (f : Nat → α) (a m n : Nat) :
    slice f a (m + n) = slice f a m ++ slice f (a + m) n := by
  induction m generalizing a with
  | zero => simp
  | succ m ih =>
      rw [Nat.succ_add, slice, ih, slice, List.cons_append, Nat.add_right_comm a 1 m,
        Nat.add_assoc a m 1]

theorem slice_congr {f g : Nat → α} {a n : Nat}
    (h : ∀ x, a ≤ x → x < a + n → f x = g x) : slice f a n = slice g a n := by
  refine List.ext_getElem? fun i => ?_
  rw [slice_getElem?, slice_getElem?]
  split
  · next hi => rw [h (a + i) (by omega) (by omega)]
  · rfl

theorem slice_update {f : Nat → α} {a n i : Nat} (hi : i < n) {x : α} :
    slice (Function.update f (a + i) x) a n = (slice f a n).set i x := by
  refine List.ext_getElem? fun k => ?_
  rw [List.getElem?_set, slice_length, slice_getElem?, slice_getElem?]
  by_cases hk : i = k
  · subst hk
    rw [if_pos hi, if_pos rfl, if_pos hi, Function.update_self]
  · rw [if_neg hk, Function.update_of_ne (by omega)]

theorem slice_inj {f g : Nat → α} {a n : Nat} (h : slice f a n = slice g a n) :
    ∀ x, a ≤ x → x < a + n → f x = g x := by
  intro x hlo hhi
  have := congrArg (fun l => l[x - a]?) h
  simp only [slice_getElem?] at this
  rw [if_pos (by omega), if_pos (by omega), Nat.add_sub_cancel' hlo] at this
  exact Option.some.inj this

theorem slice_eq_iff {f g : Nat → α} {a b n : Nat} :
    slice f a n = slice g b n ↔ ∀ i < n, f (a + i) = g (b + i) := by
  constructor
  · intro h i hi
    have hget := congrArg (·[i]?) h
    simpa only [slice_getElem?, if_pos hi, Option.some.injEq] using hget
  · intro h
    refine List.ext_getElem? fun i => ?_
    rw [slice_getElem?, slice_getElem?]
    split
    · next hi => rw [h i hi]
    · rfl

theorem slice_part {f g : Nat → α} {a b n d k : Nat}
    (h : slice f a n = slice g b n) (hk : d + k ≤ n) :
    slice f (a + d) k = slice g (b + d) k := by
  obtain ⟨r, rfl⟩ : ∃ r, n = d + k + r := ⟨n - (d + k), by omega⟩
  simp only [slice_add] at h
  exact (List.append_inj (List.append_inj h (by simp)).1 (by simp)).2

theorem patch_apply (f : Nat → α) (a : Nat) (xs : List α) (y : Nat) :
    patch f a xs y = if a ≤ y then xs[y - a]?.getD (f y) else f y := by
  induction xs generalizing f a with
  | nil => simp
  | cons x xs ih =>
      rw [patch, ih]
      rcases Nat.lt_trichotomy y a with h | h | h
      · rw [if_neg (by omega), if_neg (by omega),
          Function.update_of_ne (by omega)]
      · subst h
        rw [if_neg (by omega), if_pos (Nat.le_refl y)]
        simp
      · obtain ⟨d, rfl⟩ : ∃ d, y = a + 1 + d := ⟨y - a - 1, by omega⟩
        rw [if_pos (by omega), if_pos (by omega),
          Function.update_of_ne (by omega),
          show a + 1 + d - (a + 1) = d by omega,
          show a + 1 + d - a = d + 1 by omega, List.getElem?_cons_succ]

theorem patch_congr {f g : Nat → α} {y : Nat} (h : f y = g y) (a : Nat) (xs : List α) :
    patch f a xs y = patch g a xs y := by
  rw [patch_apply, patch_apply, h]

theorem patch_of_lt {f : Nat → α} {a y : Nat} {xs : List α} (h : y < a) :
    patch f a xs y = f y := by
  rw [patch_apply, if_neg (by omega)]

theorem patch_of_ge {f : Nat → α} {a y : Nat} {xs : List α}
    (h : a + xs.length ≤ y) : patch f a xs y = f y := by
  rw [patch_apply, if_pos (by omega), List.getElem?_eq_none (by omega),
    Option.getD_none]

theorem patch_outside {f : Nat → α} {a y : Nat} {xs : List α}
    (h : y < a ∨ a + xs.length ≤ y) : patch f a xs y = f y :=
  h.elim patch_of_lt patch_of_ge

theorem patch_of_mem {f : Nat → α} {a i : Nat} {xs : List α}
    (h : i < xs.length) : patch f a xs (a + i) = xs[i] := by
  rw [patch_apply, if_pos (by omega), Nat.add_sub_cancel_left,
    List.getElem?_eq_getElem h, Option.getD_some]

theorem patch_append (f : Nat → α) (a : Nat) (xs ys : List α) :
    patch f a (xs ++ ys) = patch (patch f a xs) (a + xs.length) ys := by
  induction xs generalizing f a with
  | nil => rfl
  | cons x xs ih =>
      rw [List.cons_append, patch, ih, patch, List.length_cons,
        Nat.add_right_comm a 1, Nat.add_assoc a xs.length 1]

@[simp] theorem slice_patch (f : Nat → α) (a : Nat) (xs : List α) :
    slice (patch f a xs) a xs.length = xs := by
  refine List.ext_getElem? fun i => ?_
  rw [slice_getElem?]
  split
  · next hi => rw [patch_of_mem hi, List.getElem?_eq_getElem hi]
  · next hi => rw [List.getElem?_eq_none (by omega)]

theorem slice_patch_eq {f : Nat → α} {a n : Nat} {xs : List α}
    (h : xs.length = n) : slice (patch f a xs) a n = xs := by
  subst h; exact slice_patch f a xs

theorem slice_patch_of_disjoint {f : Nat → α} {a b n : Nat} {xs : List α}
    (h : a + n ≤ b ∨ b + xs.length ≤ a) : slice (patch f b xs) a n = slice f a n := by
  refine slice_congr fun x hlo hhi => ?_
  rcases h with h | h
  · exact patch_of_lt (by omega)
  · exact patch_of_ge (by omega)

theorem patch_middle (f : Nat → α) (a : Nat) (xs ys ys' zs : List α)
    (h : ys.length = ys'.length) :
    patch (patch f a (xs ++ ys ++ zs)) (a + xs.length) ys' =
      patch f a (xs ++ ys' ++ zs) := by
  funext y
  rcases Nat.lt_or_ge y a with hlt | hge
  · rw [patch_of_lt (by omega), patch_of_lt hlt, patch_of_lt hlt]
  · obtain ⟨i, rfl⟩ : ∃ i, y = a + i := ⟨y - a, by omega⟩
    rcases Nat.lt_or_ge i (xs ++ ys ++ zs).length with hi | hi
    · simp only [List.length_append] at hi
      rw [patch_of_mem (show i < (xs ++ ys' ++ zs).length by simp; omega), patch_apply]
      split
      · next hmid =>
          obtain ⟨j, rfl⟩ : ∃ j, i = xs.length + j := ⟨i - xs.length, by omega⟩
          rw [show a + (xs.length + j) - (a + xs.length) = j by omega]
          rcases Nat.lt_or_ge j ys'.length with hj | hj
          · simp [hj]
          · rw [List.getElem?_eq_none hj, Option.getD_none,
              patch_of_mem (by simp; omega)]
            simp [List.getElem_append, h, show ¬ j < ys'.length by omega]
      · next hbefore =>
          rw [patch_of_mem (by simp; omega)]
          simp [show i < xs.length by omega]
    · simp only [List.length_append] at hi
      rw [patch_of_ge (by omega), patch_of_ge (by simp; omega),
        patch_of_ge (by simp; omega)]

theorem update_patch (f : Nat → α) (a : Nat) {xs : List α} {i : Nat}
    (h : i < xs.length) (x : α) :
    Function.update (patch f a xs) (a + i) x = patch f a (xs.set i x) := by
  funext y
  rcases Nat.lt_or_ge y a with hlt | hge
  · rw [Function.update_of_ne (by omega), patch_of_lt hlt, patch_of_lt hlt]
  · obtain ⟨j, rfl⟩ : ∃ j, y = a + j := ⟨y - a, by omega⟩
    rcases Nat.lt_or_ge j xs.length with hj | hj
    · rw [patch_of_mem (show j < (xs.set i x).length by simpa using hj),
        List.getElem_set]
      rcases Nat.decEq i j with hne | heq
      · rw [Function.update_of_ne (by omega), patch_of_mem hj, if_neg hne]
      · rw [if_pos heq, heq, Function.update_self]
    · rw [Function.update_of_ne (by omega), patch_of_ge (by omega),
        patch_of_ge (by simp; omega)]

theorem patch_slice (f : Nat → α) (a n : Nat) : patch f a (slice f a n) = f := by
  funext y
  rw [patch_apply, slice_getElem?]
  split
  · next h =>
      split
      · rw [Option.getD_some, Nat.add_sub_cancel' h]
      · rfl
  · rfl

theorem patch_patch (f : Nat → α) (a : Nat) {xs ys : List α}
    (h : xs.length = ys.length) : patch (patch f a xs) a ys = patch f a ys := by
  funext y
  rcases Nat.lt_or_ge y a with hlt | hge
  · rw [patch_of_lt hlt, patch_of_lt hlt, patch_of_lt hlt]
  · obtain ⟨i, rfl⟩ : ∃ i, y = a + i := ⟨y - a, by omega⟩
    rcases Nat.lt_or_ge i ys.length with hi | hi
    · rw [patch_of_mem hi, patch_of_mem hi]
    · rw [patch_of_ge (by omega), patch_of_ge (by omega), patch_of_ge (by omega)]

/-! ## Transformers of a run

What a procedure working on an object of `n` cells does to memory, for every
place the object may be at: it leaves the rest of memory alone, and what it
makes of the object depends on the object's cells and not on where they are. -/

/-- Only the `n` cells from `a` on change, and they change the same way
wherever they are. -/
structure Local (n : Nat) (t : Nat → (Nat → α) → Nat → α) : Prop where
  frame : ∀ a f x, x < a ∨ a + n ≤ x → t a f x = f x
  cells : ∀ a b f g, slice f a n = slice g b n →
    slice (t a f) a n = slice (t b g) b n

namespace Local

variable {n k : Nat} {t u : Nat → (Nat → α) → Nat → α}

theorem id : Local n (fun _ (f : Nat → α) => f) := ⟨fun _ _ _ _ => rfl,
  fun _ _ _ _ h => h⟩

theorem comp (ht : Local n t) (hu : Local n u) :
    Local n fun a f => u a (t a f) :=
  ⟨fun a f x hx => (hu.frame a (t a f) x hx).trans (ht.frame a f x hx),
    fun a b f g h => hu.cells a b _ _ (ht.cells a b f g h)⟩

theorem within (ht : Local k t) {d : Nat} (h : d + k ≤ n) :
    Local n fun a => t (a + d) := by
  refine ⟨fun a f x hx => ht.frame _ f x (by omega), fun a b f g hfg => ?_⟩
  obtain ⟨r, rfl⟩ : ∃ r, n = d + k + r := ⟨n - (d + k), by omega⟩
  simp only [slice_add] at hfg ⊢
  obtain ⟨hab, hc⟩ := List.append_inj hfg (by simp)
  obtain ⟨ha, hb⟩ := List.append_inj hab (by simp)
  have hbefore : ∀ a f, slice (t (a + d) f) a d = slice f a d :=
    fun a f => slice_congr fun x _ _ => ht.frame _ f x (by omega)
  have hafter : ∀ a f, slice (t (a + d) f) (a + (d + k)) r =
      slice f (a + (d + k)) r :=
    fun a f => slice_congr fun x _ _ => ht.frame _ f x (by omega)
  rw [hbefore, hbefore, hafter, hafter, ha, hc, ht.cells _ _ f g hb]

/-- The transformed memory is the old one with the object's cells replaced. -/
theorem eq_patch (ht : Local n t) (a : Nat) (f : Nat → α) :
    t a f = patch f a (slice (t a f) a n) := by
  funext x
  rcases Nat.lt_or_ge x a with hlt | hge
  · rw [patch_of_lt hlt, ht.frame a f x (.inl hlt)]
  rcases Nat.lt_or_ge x (a + n) with hlt | hge'
  · rw [patch_apply, if_pos hge, slice_getElem?, if_pos (by omega),
      Option.getD_some, Nat.add_sub_cancel' hge]
  · rw [patch_of_ge (by simpa using hge'), ht.frame a f x (.inr hge')]

end Local

theorem local_patch {n : Nat} (g : List α → List α)
    (hg : ∀ xs, (g xs).length = xs.length) :
    Local n fun a f => patch f a (g (slice f a n)) := by
  refine ⟨fun a f x hx => ?_, fun a b f f' h => ?_⟩
  · rcases hx with hx | hx
    · exact patch_of_lt hx
    · exact patch_of_ge (by rw [hg, slice_length]; exact hx)
  · rw [slice_patch_eq (by rw [hg, slice_length]),
      slice_patch_eq (by rw [hg, slice_length]), h]

end Sinew.Lib
