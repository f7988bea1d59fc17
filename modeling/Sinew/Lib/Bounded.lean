import Mathlib.Data.List.Basic
import Mathlib.Tactic.Common

/-!
# Sequences of bounded length

A list with room for `cap` elements. Growing past the bound is refused, or cuts
off what does not fit; either way the answer says whether all of it fitted.
-/

namespace Sinew.Lib

/-- A list of at most `cap` elements. -/
@[ext]
structure Bounded (α : Type) (cap : Nat) where
  toList : List α
  le : toList.length ≤ cap

namespace Bounded

variable {α : Type} {cap : Nat}

def empty : Bounded α cap := ⟨[], Nat.zero_le _⟩

def length (b : Bounded α cap) : Nat := b.toList.length

/-- Refused when there is no room. -/
def pushBack (b : Bounded α cap) (x : α) : Bool × Bounded α cap :=
  if h : b.toList.length < cap then
    (true, ⟨b.toList ++ [x], by rw [List.length_append]; exact h⟩)
  else (false, b)

/-- Refused when there is nothing to take off. -/
def popBack (b : Bounded α cap) : Bool × Bounded α cap :=
  if b.toList = [] then (false, b)
  else (true, ⟨b.toList.dropLast, by rw [List.length_dropLast]; have := b.le; omega⟩)

/-- Cut to `n` elements, or grown to as many with copies of `x`; refused past the
bound. -/
def resize (b : Bounded α cap) (n : Nat) (x : α) : Bool × Bounded α cap :=
  if h : n ≤ cap then
    (true, ⟨b.toList.take n ++ List.replicate (n - b.toList.length) x, by
      rw [List.length_append, List.length_take, List.length_replicate]; omega⟩)
  else (false, b)

def set (b : Bounded α cap) (i : Nat) (x : α) : Bounded α cap :=
  ⟨b.toList.set i x, by rw [List.length_set]; exact b.le⟩

/-- As much of `l` as there is room for. -/
def truncate (l : List α) : Bool × Bounded α cap :=
  (decide (l.length ≤ cap), ⟨l.take cap, by rw [List.length_take]; omega⟩)

/-- As much of `l` behind what is there as there is room for. -/
def append (b : Bounded α cap) (l : List α) : Bool × Bounded α cap :=
  truncate (b.toList ++ l)

end Bounded

end Sinew.Lib
