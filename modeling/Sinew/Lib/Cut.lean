import Mathlib.Data.List.TakeDrop

/-!
# Strings cut to a length

A string that is too long keeps its first places and ends in a tag made from all
of it; one that is short enough stays as it is. What comes out is never too long,
so cutting it again changes nothing, and all that can become of a string is a
string that is short enough itself. So no tag keeps all strings apart: a long one
becomes the same as what it becomes.
-/

namespace Sinew.Lib

/-- Strings of more than `limit` places keep the first `keep` of them, and the tag
takes up the rest. -/
structure Cut (α : Type) where
  limit : Nat
  keep : Nat
  tag : List α → List α
  fills : ∀ s, keep + (tag s).length = limit

namespace Cut

variable {α : Type} {c : Cut α} {s t : List α}

def apply (c : Cut α) (s : List α) : List α :=
  if c.limit < s.length then s.take c.keep ++ c.tag s else s

theorem apply_of_le (h : s.length ≤ c.limit) : c.apply s = s := if_neg (Nat.not_lt.mpr h)

theorem apply_of_lt (h : c.limit < s.length) : c.apply s = s.take c.keep ++ c.tag s :=
  if_pos h

theorem length_take_of_lt (h : c.limit < s.length) : (s.take c.keep).length = c.keep := by
  have hfills := c.fills s
  rw [List.length_take]
  omega

theorem length_apply_of_lt (h : c.limit < s.length) : (c.apply s).length = c.limit := by
  rw [apply_of_lt h, List.length_append, length_take_of_lt h, c.fills]

theorem length_apply_le : (c.apply s).length ≤ c.limit := by
  rcases Nat.lt_or_ge c.limit s.length with h | h
  · exact Nat.le_of_eq (length_apply_of_lt h)
  · rw [apply_of_le h]
    exact h

@[simp] theorem apply_apply : c.apply (c.apply s) = c.apply s := apply_of_le length_apply_le

theorem head?_apply (hkeep : 0 < c.keep) : (c.apply s).head? = s.head? := by
  rcases Nat.lt_or_ge c.limit s.length with h | h
  · have hne : c.keep ≠ 0 := Nat.ne_of_gt hkeep
    rw [apply_of_lt h, List.head?_append, List.head?_take, if_neg hne]
    cases s with
    | nil => cases h
    | cons a s => rfl
  · rw [apply_of_le h]

theorem apply_eq_iff_of_le (hs : s.length ≤ c.limit) (ht : t.length ≤ c.limit) :
    c.apply s = c.apply t ↔ s = t := by
  rw [apply_of_le hs, apply_of_le ht]

theorem apply_eq_iff_of_lt (hs : c.limit < s.length) (ht : c.limit < t.length) :
    c.apply s = c.apply t ↔ s.take c.keep = t.take c.keep ∧ c.tag s = c.tag t := by
  rw [apply_of_lt hs, apply_of_lt ht]
  constructor
  · intro h
    exact List.append_inj h ((length_take_of_lt hs).trans (length_take_of_lt ht).symm)
  · intro ⟨hfront, htag⟩
    rw [hfront, htag]

theorem apply_eq_iff_of_lt_of_le (hs : c.limit < s.length) (ht : t.length ≤ c.limit) :
    c.apply s = c.apply t ↔ t = s.take c.keep ++ c.tag s := by
  rw [apply_of_lt hs, apply_of_le ht]
  exact eq_comm

end Cut

end Sinew.Lib
