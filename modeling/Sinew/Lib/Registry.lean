import Mathlib.Logic.Function.Basic
import Mathlib.Tactic.Common

/-!
# Registers of named objects

Objects have names and are held through grants. A grant has a key by which it is
given back, and a holder who alone should do that. Beside the grants there is no
table of names: a name means the object that some grant is of, and an object is gone
with the last grant of it.

`Sound` is what whoever keeps the register maintains, with a lemma for each thing that
can happen to it. `Apart` is what one holder may rely on while the others are at work:
its own grants are where they were, and no object has changed.
-/

namespace Sinew.Lib

section Keyed

variable {α κ ι : Type}

/-- No key is that of two entries. -/
def Keyed (key : α → κ) (l : List α) : Prop :=
  ∀ x ∈ l, ∀ y ∈ l, key x = key y → x = y

/-- What is one holder's in the one list is that in the other. -/
def Keeps (holder : α → ι) (i : ι) (l l' : List α) : Prop :=
  ∀ x, holder x = i → (x ∈ l' ↔ x ∈ l)

variable {key : α → κ} {holder : α → ι} {l l' l'' : List α} {a : α} {i : ι}

theorem Keyed.nil : Keyed key ([] : List α) := by
  intro x hx
  cases hx

theorem Keyed.cons (h : Keyed key l) (hnew : ∀ x ∈ l, key x ≠ key a) : Keyed key (a :: l) := by
  intro x hx y hy hkey
  rcases List.mem_cons.mp hx with hxa | hxl <;> rcases List.mem_cons.mp hy with hya | hyl
  · exact hxa.trans hya.symm
  · exact absurd (hxa ▸ hkey.symm) (hnew y hyl)
  · exact absurd (hya ▸ hkey) (hnew x hxl)
  · exact h x hxl y hyl hkey

theorem Keyed.filter (h : Keyed key l) (p : α → Bool) : Keyed key (l.filter p) :=
  fun x hx y hy => h x ((List.mem_filter.mp hx).1) y ((List.mem_filter.mp hy).1)

theorem Keeps.refl (l : List α) : Keeps holder i l l := fun _ _ => Iff.rfl

theorem Keeps.trans (h : Keeps holder i l l') (h' : Keeps holder i l' l'') :
    Keeps holder i l l'' := fun x hx => (h' x hx).trans (h x hx)

theorem Keeps.cons (ha : holder a ≠ i) : Keeps holder i l (a :: l) := by
  intro x hx
  rw [List.mem_cons, or_iff_right]
  rintro rfl
  exact ha hx

theorem Keeps.filter [DecidableEq κ] (h : Keyed key l) (hmem : a ∈ l) (ha : holder a ≠ i) :
    Keeps holder i l (l.filter (key · ≠ key a)) := by
  intro x hx
  rw [List.mem_filter, decide_eq_true_eq]
  refine ⟨fun hmem' => hmem'.1, fun hmem' => ⟨hmem', fun hkey => ?_⟩⟩
  rw [h x hmem' a hmem hkey] at hx
  exact ha hx

theorem Keyed.find?_eq [DecidableEq κ] (h : Keyed key l) (hmem : a ∈ l) :
    l.find? (key · = key a) = some a := by
  cases hfind : l.find? (key · = key a) with
  | none =>
      have hno := List.find?_eq_none.mp hfind a hmem
      simp at hno
  | some b =>
      have hkey := List.find?_some hfind
      simp only [decide_eq_true_eq] at hkey
      rw [h b (List.mem_of_find?_eq_some hfind) a hmem hkey]

end Keyed

section Has

variable {α β κ : Type}

def Once (get : α → Option β) (f : κ → α) : Prop :=
  ∀ x y b, get (f x) = some b → get (f y) = some b → x = y

def Has (get : α → Option β) (f : κ → α) (b : β) : Prop := ∃ x, get (f x) = some b

variable [DecidableEq κ] {get : α → Option β} {f : κ → α} {x : κ} {a : α} {b : β}

theorem Once.update (h : Once get f) (ha : ∀ b, get a = some b → ∀ y, get (f y) ≠ some b) :
    Once get (Function.update f x a) := by
  intro y z b hy hz
  by_cases hyx : y = x <;> by_cases hzx : z = x
  · exact hyx.trans hzx.symm
  · rw [hyx, Function.update_self] at hy
    rw [Function.update_of_ne hzx] at hz
    exact absurd hz (ha b hy z)
  · rw [hzx, Function.update_self] at hz
    rw [Function.update_of_ne hyx] at hy
    exact absurd hy (ha b hz y)
  · rw [Function.update_of_ne hyx] at hy
    rw [Function.update_of_ne hzx] at hz
    exact h y z b hy hz

theorem Once.update_le (h : Once get f) (ha : ∀ b, get a = some b → get (f x) = some b) :
    Once get (Function.update f x a) := by
  have hget : ∀ {y b}, get (Function.update f x a y) = some b → get (f y) = some b := by
    intro y b hy
    by_cases hyx : y = x
    · subst hyx
      rw [Function.update_self] at hy
      exact ha b hy
    · rwa [Function.update_of_ne hyx] at hy
  exact fun y z b hy hz => h y z b (hget hy) (hget hz)

theorem Has.self (ha : get a = some b) : Has get (Function.update f x a) b :=
  ⟨x, by rw [Function.update_self, ha]⟩

theorem Has.update (h : Has get f b) (hx : get (f x) ≠ some b) :
    Has get (Function.update f x a) b := by
  obtain ⟨y, hy⟩ := h
  refine ⟨y, ?_⟩
  rw [Function.update_of_ne, hy]
  rintro rfl
  exact hx hy

end Has

/-! ## Registers -/

structure Grant (ι κ : Type) where
  holder : ι
  key : κ
  object : Nat
  /-- Whether the object was made for this grant. -/
  first : Bool
  deriving DecidableEq, Repr

structure Register (ι κ ο : Type) where
  objects : Nat → ο
  count : Nat := 0
  grants : List (Grant ι κ) := []

namespace Register

variable {ι κ ο ν : Type}

/-- What a name means. -/
def find [DecidableEq ν] (named : ο → ν) (R : Register ι κ ο) (n : ν) : Option Nat :=
  (R.grants.find? fun g => named (R.objects g.object) = n).map (·.object)

def make (R : Register ι κ ο) (i : ι) (k : κ) (o : ο) : Register ι κ ο where
  objects := Function.update R.objects R.count o
  count := R.count + 1
  grants := ⟨i, k, R.count, true⟩ :: R.grants

def join (R : Register ι κ ο) (i : ι) (k : κ) (x : Nat) : Register ι κ ο :=
  { R with grants := ⟨i, k, x, false⟩ :: R.grants }

/-- The grant with the key `k` is given back. -/
def drop [DecidableEq κ] (R : Register ι κ ο) (k : κ) : Register ι κ ο :=
  { R with grants := R.grants.filter (·.key ≠ k) }

/-- What is kept: a key for each grant, an object for each name, one first grant at
most of each object. -/
structure Sound (named : ο → ν) (R : Register ι κ ο) : Prop where
  keyed : Keyed Grant.key R.grants
  names : ∀ g ∈ R.grants, ∀ g' ∈ R.grants,
    named (R.objects g.object) = named (R.objects g'.object) → g.object = g'.object
  first : ∀ g ∈ R.grants, ∀ g' ∈ R.grants, g.first = true → g'.first = true →
    g.object = g'.object → g = g'
  made : ∀ g ∈ R.grants, g.object < R.count

/-- The holder `i` need not mind what has come between. -/
structure Apart (i : ι) (R R' : Register ι κ ο) : Prop where
  grants : Keeps Grant.holder i R.grants R'.grants
  count : R.count ≤ R'.count
  objects : ∀ x < R.count, R'.objects x = R.objects x

variable {named : ο → ν} {R R' R'' : Register ι κ ο} {i j : ι} {k : κ} {o : ο} {g : Grant ι κ}
  {x : Nat}

theorem Apart.refl (R : Register ι κ ο) : Apart i R R :=
  ⟨Keeps.refl _, Nat.le_refl _, fun _ _ => rfl⟩

theorem Apart.trans (h : Apart i R R') (h' : Apart i R' R'') : Apart i R R'' where
  grants := h.grants.trans h'.grants
  count := Nat.le_trans h.count h'.count
  objects x hx := by rw [h'.objects x (Nat.lt_of_lt_of_le hx h.count), h.objects x hx]

theorem Apart.make (hij : j ≠ i) : Apart i R (R.make j k o) where
  grants := .cons hij
  count := Nat.le_succ _
  objects _ hx := Function.update_of_ne (Nat.ne_of_lt hx) _ _

theorem Apart.join (hij : j ≠ i) : Apart i R (R.join j k x) :=
  ⟨.cons hij, Nat.le_refl _, fun _ _ => rfl⟩

theorem Apart.drop [DecidableEq κ] (h : Keyed Grant.key R.grants) (hg : g ∈ R.grants)
    (hi : g.holder ≠ i) : Apart i R (R.drop g.key) :=
  ⟨.filter h hg hi, Nat.le_refl _, fun _ _ => rfl⟩

namespace Sound

theorem empty (o : Nat → ο) : Sound named ({ objects := o } : Register ι κ ο) where
  keyed := .nil
  names _ hg := by cases hg
  first _ hg := by cases hg
  made _ hg := by cases hg

variable (h : R.Sound named)
include h

theorem make (hkey : ∀ g ∈ R.grants, g.key ≠ k)
    (hname : ∀ g ∈ R.grants, named (R.objects g.object) ≠ named o) :
    (R.make i k o).Sound named := by
  have hne : ∀ g ∈ R.grants, g.object ≠ R.count := fun g hg => Nat.ne_of_lt (h.made g hg)
  have hold : ∀ g ∈ R.grants, Function.update R.objects R.count o g.object =
      R.objects g.object := fun g hg => Function.update_of_ne (hne g hg) _ _
  refine ⟨h.keyed.cons hkey, fun g hg g' hg' heq => ?_, fun g hg g' hg' hf hf' heq => ?_,
    fun g hg => ?_⟩
  · simp only [Register.make] at heq
    rcases List.mem_cons.mp hg with rfl | hg <;> rcases List.mem_cons.mp hg' with rfl | hg'
    · rfl
    · rw [Function.update_self, hold g' hg'] at heq
      exact absurd heq.symm (hname g' hg')
    · rw [Function.update_self, hold g hg] at heq
      exact absurd heq (hname g hg)
    · rw [hold g hg, hold g' hg'] at heq
      exact h.names g hg g' hg' heq
  · rcases List.mem_cons.mp hg with rfl | hg <;> rcases List.mem_cons.mp hg' with rfl | hg'
    · rfl
    · exact absurd heq.symm (hne g' hg')
    · exact absurd heq (hne g hg)
    · exact h.first g hg g' hg' hf hf' heq
  · rcases List.mem_cons.mp hg with rfl | hg
    · exact Nat.lt_succ_self _
    · exact Nat.lt_succ_of_lt (h.made g hg)

theorem join (hkey : ∀ g ∈ R.grants, g.key ≠ k) (hg : g ∈ R.grants) :
    (R.join i k g.object).Sound named := by
  -- the new grant is of the object of an old one, and it is no first one
  have hold : ∀ g' ∈ (R.join i k g.object).grants, ∃ g₀ ∈ R.grants, g₀.object = g'.object := by
    intro g' hg'
    rcases List.mem_cons.mp hg' with rfl | hg'
    · exact ⟨g, hg, rfl⟩
    · exact ⟨g', hg', rfl⟩
  refine ⟨h.keyed.cons hkey, fun g₁ h₁ g₂ h₂ heq => ?_, fun g₁ h₁ g₂ h₂ hf₁ hf₂ heq => ?_,
    fun g₁ h₁ => ?_⟩
  · obtain ⟨g₁', h₁', e₁⟩ := hold g₁ h₁
    obtain ⟨g₂', h₂', e₂⟩ := hold g₂ h₂
    rw [← e₁, ← e₂] at heq ⊢
    exact h.names g₁' h₁' g₂' h₂' heq
  · rcases List.mem_cons.mp h₁ with rfl | h₁
    · cases hf₁
    · rcases List.mem_cons.mp h₂ with rfl | h₂
      · cases hf₂
      · exact h.first g₁ h₁ g₂ h₂ hf₁ hf₂ heq
  · obtain ⟨g₁', h₁', e₁⟩ := hold g₁ h₁
    rw [← e₁]
    exact h.made g₁' h₁'

theorem drop [DecidableEq κ] (k : κ) : (R.drop k).Sound named := by
  have hold : ∀ g ∈ (R.drop k).grants, g ∈ R.grants := fun g hg => (List.mem_filter.mp hg).1
  exact ⟨h.keyed.filter _, fun g hg g' hg' => h.names g (hold g hg) g' (hold g' hg'),
    fun g hg g' hg' => h.first g (hold g hg) g' (hold g' hg'), fun g hg => h.made g (hold g hg)⟩

theorem find_eq [DecidableEq ν] (hg : g ∈ R.grants) :
    R.find named (named (R.objects g.object)) = some g.object := by
  rw [find]
  cases hfind : R.grants.find? fun g' => named (R.objects g'.object) =
      named (R.objects g.object) with
  | none =>
      have hno := List.find?_eq_none.mp hfind g hg
      simp at hno
  | some g' =>
      have hname := List.find?_some hfind
      simp only [decide_eq_true_eq] at hname
      rw [Option.map_some, h.names g' (List.mem_of_find?_eq_some hfind) g hg hname]

end Sound

variable [DecidableEq ν] {n : ν}

theorem find_some (h : R.find named n = some x) :
    ∃ g ∈ R.grants, g.object = x ∧ named (R.objects x) = n := by
  obtain ⟨g, hfind, hx⟩ := Option.map_eq_some_iff.mp h
  have hname := List.find?_some hfind
  simp only [decide_eq_true_eq] at hname
  exact ⟨g, List.mem_of_find?_eq_some hfind, hx, hx ▸ hname⟩

theorem find_eq_none : R.find named n = none ↔
    ∀ g ∈ R.grants, named (R.objects g.object) ≠ n := by
  rw [find, Option.map_eq_none_iff, List.find?_eq_none]
  simp only [decide_eq_true_eq, ne_eq]

end Register

end Sinew.Lib
