import Mathlib.Data.List.Induction
import Mathlib.Data.Nat.Find
import Mathlib.Logic.Equiv.Basic
import Mathlib.Logic.ExistsUnique

/-!
# Ledgers of things to be given back

Whoever is lent things keeps a ledger: an entry when a thing is acquired, an entry
when it is released. What is held after some entries can be read off them. The
lender promises that a thing it lends is not already out, where two things are the
same if their keys are (`Fresh`); the borrower, that it releases only what it holds
(`Owed`).

Then every entry of either kind has exactly one that settles it, if nothing is
held in the end. And a borrower that is many parties keeps its promise as long as
each thing that is held is in the account of exactly one of them (`Accounted`),
which has one rule for each thing that can happen to an account.
-/

namespace Sinew.Lib

inductive Entry (ρ : Type) where
  | acquired (r : ρ)
  | released (r : ρ)
  deriving DecidableEq, Repr

namespace Ledger

variable {ρ κ ι : Type} [DecidableEq ρ]

/-- What is held after one more entry. -/
def book (held : List ρ) : Entry ρ → List ρ
  | .acquired r => r :: held
  | .released r => held.filter (· ≠ r)

/-- What is held after all entries. -/
def held (log : List (Entry ρ)) : List ρ := log.foldl book []

/-- `Q` holds of each entry and what was held before it. -/
def Each (Q : List ρ → Entry ρ → Prop) (log : List (Entry ρ)) : Prop :=
  ∀ i x, log[i]? = some x → Q (held (log.take i)) x

/-- An entry does not lend what is out already. -/
def FreshOn (key : ρ → κ) (held : List ρ) : Entry ρ → Prop
  | .acquired r => ∀ r' ∈ held, key r' ≠ key r
  | .released _ => True

/-- An entry does not give back what is not held. -/
def OwedOn (held : List ρ) : Entry ρ → Prop
  | .acquired _ => True
  | .released r => r ∈ held

/-- The lender's promise. -/
abbrev Fresh (key : ρ → κ) : List (Entry ρ) → Prop := Each (FreshOn key)

/-- The borrower's promise. -/
abbrev Owed : List (Entry ρ) → Prop := Each OwedOn

instance [DecidableEq κ] (key : ρ → κ) (held : List ρ) :
    DecidablePred (FreshOn key held)
  | .acquired r => inferInstanceAs (Decidable (∀ r' ∈ held, key r' ≠ key r))
  | .released _ => inferInstanceAs (Decidable True)

instance {Q : List ρ → Entry ρ → Prop} [∀ held, DecidablePred (Q held)]
    (log : List (Entry ρ)) : Decidable (Each Q log) :=
  decidable_of_iff (∀ i : Fin log.length, Q (held (log.take i)) log[i])
    ⟨fun h i x hi => by
      obtain ⟨hlt, hx⟩ := List.getElem?_eq_some_iff.mp hi
      exact hx ▸ h ⟨i, hlt⟩, fun h i => h i _ (List.getElem?_eq_getElem i.isLt)⟩

/-- What was acquired at `i` is released at `j`, and nothing happens to it between. -/
def Settles (log : List (Entry ρ)) (r : ρ) (i j : Nat) : Prop :=
  i < j ∧ log[i]? = some (.acquired r) ∧ log[j]? = some (.released r) ∧
    ∀ k, i < k → k < j → log[k]? ≠ some (.acquired r) ∧ log[k]? ≠ some (.released r)

variable {key : ρ → κ} {log : List (Entry ρ)} {r : ρ} {e x : Entry ρ} {i j : Nat}

@[simp] theorem held_nil : held ([] : List (Entry ρ)) = [] := rfl

@[simp] theorem held_concat (log : List (Entry ρ)) (e : Entry ρ) :
    held (log ++ [e]) = book (held log) e := by
  rw [held, List.foldl_append]
  rfl

omit [DecidableEq ρ] in
theorem getElem?_concat :
    (log ++ [e])[i]? = some x ↔ log[i]? = some x ∨ i = log.length ∧ e = x := by
  rcases Nat.lt_trichotomy i log.length with hi | hi | hi
  · rw [List.getElem?_append_left hi]
    exact ⟨.inl, fun h => h.resolve_right fun h => by omega⟩
  · subst hi
    simp
  · rw [List.getElem?_eq_none (by simp; omega), List.getElem?_eq_none (by omega)]
    constructor
    · intro h
      cases h
    · intro h
      rcases h with h | ⟨hend, -⟩
      · cases h
      · omega

theorem Each.nil {Q : List ρ → Entry ρ → Prop} : Each Q [] := by
  intro i x hi
  cases hi

theorem each_concat {Q : List ρ → Entry ρ → Prop} :
    Each Q (log ++ [e]) ↔ Each Q log ∧ Q (held log) e := by
  have htake : ∀ i ≤ log.length, (log ++ [e]).take i = log.take i := fun i hi =>
    List.take_append_of_le_length hi
  constructor
  · intro h
    refine ⟨fun i x hi => ?_, ?_⟩
    · have hx := h i x (getElem?_concat.mpr (.inl hi))
      rwa [htake i (Nat.le_of_lt (List.getElem?_eq_some_iff.mp hi).1)] at hx
    · have hx := h log.length e (getElem?_concat.mpr (.inr ⟨rfl, rfl⟩))
      rwa [htake _ (Nat.le_refl _), List.take_length] at hx
  · intro ⟨hlog, hlast⟩ i x hi
    rcases getElem?_concat.mp hi with hi | ⟨hi, he⟩
    · rw [htake i (Nat.le_of_lt (List.getElem?_eq_some_iff.mp hi).1)]
      exact hlog i x hi
    · rw [hi, htake _ (Nat.le_refl _), List.take_length, ← he]
      exact hlast

theorem Each.of_prefix {Q : List ρ → Entry ρ → Prop} {part : List (Entry ρ)} (h : Each Q log)
    (hpart : part <+: log) : Each Q part := by
  intro i x hi
  have hlt := (List.getElem?_eq_some_iff.mp hi).1
  obtain ⟨rest, happ⟩ := hpart
  have hx := h i x (by rw [← happ, List.getElem?_append_left hlt, hi])
  rwa [← happ, List.take_append_of_le_length (Nat.le_of_lt hlt)] at hx

/-- What is held is what was acquired and not released since. -/
theorem mem_held_iff : r ∈ held log ↔ ∃ i : Nat, log[i]? = some (.acquired r) ∧
    ∀ j : Nat, i < j → log[j]? ≠ some (.released r) := by
  induction log using List.reverseRecOn with
  | nil => simp
  | append_singleton log e ih =>
      have hend : ∀ {i : Nat}, log[i]? = some (.acquired r) → i < log.length := fun hi =>
        (List.getElem?_eq_some_iff.mp hi).1
      rw [held_concat]
      cases e with
      | acquired a =>
          rw [book, List.mem_cons, ih]
          constructor
          · intro h
            rcases h with hra | ⟨i, hi, hsince⟩
            · subst hra
              refine ⟨log.length, getElem?_concat.mpr (.inr ⟨rfl, rfl⟩), fun j hj h => ?_⟩
              rcases getElem?_concat.mp h with h | ⟨-, h⟩
              · exact absurd (List.getElem?_eq_some_iff.mp h).1 (by omega)
              · cases h
            · refine ⟨i, getElem?_concat.mpr (.inl hi), fun j hj h => ?_⟩
              rcases getElem?_concat.mp h with h | ⟨-, h⟩
              · exact hsince j hj h
              · cases h
          · intro ⟨i, hi, hsince⟩
            rcases getElem?_concat.mp hi with hi | ⟨-, hi⟩
            · exact .inr ⟨i, hi, fun j hj h => hsince j hj (getElem?_concat.mpr (.inl h))⟩
            · cases hi
              exact .inl rfl
      | released a =>
          rw [book, List.mem_filter, ih, decide_eq_true_eq]
          constructor
          · intro ⟨⟨i, hi, hsince⟩, hra⟩
            refine ⟨i, getElem?_concat.mpr (.inl hi), fun j hj h => ?_⟩
            rcases getElem?_concat.mp h with h | ⟨-, h⟩
            · exact hsince j hj h
            · cases h
              exact hra rfl
          · intro ⟨i, hi, hsince⟩
            rcases getElem?_concat.mp hi with hi' | ⟨-, hi'⟩
            · refine ⟨⟨i, hi', fun j hj h => hsince j hj (getElem?_concat.mpr (.inl h))⟩, ?_⟩
              intro hra
              subst hra
              exact hsince log.length (hend hi') (getElem?_concat.mpr (.inr ⟨rfl, rfl⟩))
            · cases hi'

theorem Fresh.not_acquired (hfresh : Fresh key log) (hi : log[i]? = some (.acquired r))
    {k : Nat} (hik : i < k) (hsince : ∀ j : Nat, i < j → j < k → log[j]? ≠ some (.released r)) :
    log[k]? ≠ some (.acquired r) := by
  intro hk
  have hheld : r ∈ held (log.take k) := by
    refine mem_held_iff.mpr ⟨i, ?_, fun j hj h => ?_⟩
    · rw [List.getElem?_take, if_pos hik]
      exact hi
    · rw [List.getElem?_take] at h
      split at h
      · next hjk => exact hsince j hj hjk h
      · cases h
  exact hfresh k (.acquired r) hk r hheld rfl

theorem Fresh.settles (hfresh : Fresh key log) (hi : log[i]? = some (.acquired r))
    (hdone : r ∉ held log) : ∃! j, Settles log r i j := by
  have hback : ∃ j : Nat, i < j ∧ log[j]? = some (.released r) := by
    by_contra hnone
    exact hdone (mem_held_iff.mpr ⟨i, hi, fun j hj h => hnone ⟨j, hj, h⟩⟩)
  obtain ⟨hij, hj⟩ := Nat.find_spec hback
  have hfirst : ∀ k, i < k → k < Nat.find hback → log[k]? ≠ some (.released r) :=
    fun k hik hkj h => Nat.find_min hback hkj ⟨hik, h⟩
  refine ⟨Nat.find hback, ⟨hij, hi, hj, fun k hik hkj => ⟨?_, hfirst k hik hkj⟩⟩, ?_⟩
  · exact hfresh.not_acquired hi hik fun j hj hjk => hfirst j hj (Nat.lt_trans hjk hkj)
  · intro j' ⟨hij', _, hj', hbetween⟩
    rcases Nat.lt_trichotomy j' (Nat.find hback) with hlt | heq | hlt
    · exact absurd hj' (hfirst j' hij' hlt)
    · exact heq
    · exact absurd hj (hbetween _ hij hlt).2

/-- What is given back was lent once before. -/
theorem Fresh.settled (hfresh : Fresh key log) (howed : Owed log)
    (hj : log[j]? = some (.released r)) : ∃! i, Settles log r i j := by
  obtain ⟨i, hi, hsince⟩ := mem_held_iff.mp (howed j (.released r) hj)
  rw [List.getElem?_take] at hi
  split at hi
  swap
  · cases hi
  next hij =>
    have hbetween : ∀ k, i < k → k < j → log[k]? ≠ some (.released r) := by
      intro k hik hkj h
      refine hsince k hik ?_
      rw [List.getElem?_take, if_pos hkj]
      exact h
    refine ⟨i, ⟨hij, hi, hj, fun k hik hkj => ⟨?_, hbetween k hik hkj⟩⟩, ?_⟩
    · exact hfresh.not_acquired hi hik fun k' hik' hk' => hbetween k' hik' (Nat.lt_trans hk' hkj)
    · intro i' ⟨hij', hi', _, hbetween'⟩
      rcases Nat.lt_trichotomy i' i with hlt | heq | hlt
      · exact absurd hi (hbetween' i hlt hij).1
      · exact heq
      · have hnot := hfresh.not_acquired hi hlt fun k hik hk =>
          hbetween k hik (Nat.lt_trans hk hij')
        exact absurd hi' hnot

/-! ## Accounts -/

/-- Each thing that is held is in one account, and what is in an account is held.
Things in two accounts have two keys. -/
structure Accounted (key : ρ → κ) (log : List (Entry ρ)) (owned : ι → ρ → Prop) : Prop where
  owed : Owed log
  held : ∀ r, r ∈ held log ↔ ∃ x, owned x r
  apart : ∀ x y r r', owned x r → owned y r' → key r = key r' → x = y ∧ r = r'

namespace Accounted

variable {owned : ι → ρ → Prop} (h : Accounted key log owned)

theorem empty : Accounted key ([] : List (Entry ρ)) fun (_ : ι) _ => False where
  owed := .nil
  held r := by simp
  apart _ _ _ _ hr := hr.elim

include h

theorem congr {owned' : ι → ρ → Prop} (heq : ∀ x r, owned' x r ↔ owned x r) :
    Accounted key log owned' := by
  have : owned' = owned := funext fun x => funext fun r => propext (heq x r)
  rw [this]
  exact h

/-- Accounts that change hands. -/
theorem rename (f : Equiv.Perm ι) : Accounted key log fun x => owned (f x) where
  owed := h.owed
  held r := by
    rw [h.held]
    exact ⟨fun ⟨x, hx⟩ => ⟨f.symm x, by rwa [f.apply_symm_apply]⟩, fun ⟨x, hx⟩ => ⟨f x, hx⟩⟩
  apart x y r r' hr hr' hkey := by
    obtain ⟨hxy, hrr⟩ := h.apart (f x) (f y) r r' hr hr' hkey
    exact ⟨f.injective hxy, hrr⟩

theorem acquire (x : ι) (hfresh : Fresh key (log ++ [.acquired r])) :
    Accounted key (log ++ [.acquired r]) fun y r' => owned y r' ∨ y = x ∧ r' = r where
  owed := each_concat.mpr ⟨h.owed, trivial⟩
  held r' := by
    rw [held_concat, book, List.mem_cons, h.held]
    constructor
    · intro hr'
      rcases hr' with hr' | ⟨y, hy⟩
      · exact ⟨x, .inr ⟨rfl, hr'⟩⟩
      · exact ⟨y, .inl hy⟩
    · intro ⟨y, hy⟩
      rcases hy with hy | ⟨-, hr'⟩
      · exact .inr ⟨y, hy⟩
      · exact .inl hr'
  apart y z r₁ r₂ h₁ h₂ hkey := by
    have hnew : ∀ y r', owned y r' → key r' ≠ key r := fun y r' hy =>
      (each_concat.mp hfresh).2 r' ((h.held r').mpr ⟨y, hy⟩)
    rcases h₁ with h₁ | ⟨hy, h₁⟩ <;> rcases h₂ with h₂ | ⟨hz, h₂⟩
    · exact h.apart y z r₁ r₂ h₁ h₂ hkey
    · exact absurd (h₂ ▸ hkey) (hnew y r₁ h₁)
    · exact absurd (h₁ ▸ hkey.symm) (hnew z r₂ h₂)
    · exact ⟨hy.trans hz.symm, h₁.trans h₂.symm⟩

theorem release {x : ι} (hx : owned x r) :
    Accounted key (log ++ [.released r]) fun y r' => owned y r' ∧ r' ≠ r where
  owed := each_concat.mpr ⟨h.owed, (h.held r).mpr ⟨x, hx⟩⟩
  held r' := by
    rw [held_concat, book, List.mem_filter, h.held, decide_eq_true_eq]
    exact ⟨fun ⟨⟨y, hy⟩, hne⟩ => ⟨y, hy, hne⟩, fun ⟨y, hy, hne⟩ => ⟨⟨y, hy⟩, hne⟩⟩
  apart y z r₁ r₂ h₁ h₂ hkey := h.apart y z r₁ r₂ h₁.1 h₂.1 hkey

theorem releaseAll {rs : List ρ} (hrs : rs.Nodup) {x : ι} (hx : ∀ r ∈ rs, owned x r) :
    Accounted key (log ++ rs.map .released) fun y r' => owned y r' ∧ r' ∉ rs := by
  induction rs generalizing log owned with
  | nil => simpa using h
  | cons r rs ih =>
      obtain ⟨hr, hrs⟩ := List.nodup_cons.mp hrs
      have hall := ih (h.release (hx r List.mem_cons_self)) hrs fun r' hr' =>
        ⟨hx r' (List.mem_cons_of_mem r hr'), fun heq => hr (heq ▸ hr')⟩
      rw [List.map_cons, List.append_cons]
      refine hall.congr fun y r' => ?_
      rw [List.mem_cons, not_or, and_assoc]

end Accounted

end Ledger

end Sinew.Lib
