import Mathlib.Tactic.Common

/-!
# Programs as trees of events

A program is written once and read under several machines: run to the end by
one of them, or taken one event at a time between the events of other
programs. So a program here is neither a function on states nor a transition
relation but a finite tree: it answers, or it performs an event and goes on
with whatever the machine returns for it. The events and what they return are
the signature, a machine is one reading of the signature, and nothing below
knows more about either.

`Along` says of a run that every event in it was allowed in the state it met.
It is how a program's footprint is stated: which cells a call touches is a
property of its events, and only of them.
-/

namespace Sinew.Lib

/-- The events a program may perform, and the answer each one gets. -/
structure Sig where
  Ev : Type
  Res : Ev → Type

/-- A program over a signature: an answer, or an event and a continuation. -/
inductive Prog (σ : Sig) (α : Type) : Type
  | ret (a : α) : Prog σ α
  | op (e : σ.Ev) (k : σ.Res e → Prog σ α) : Prog σ α

/-- One reading of a signature: what each event answers in a state, and the
state it leaves. -/
abbrev Machine (σ : Sig) (S : Type) := S → (e : σ.Ev) → σ.Res e × S

namespace Prog

variable {σ : Sig} {S α β γ : Type}

def bind : Prog σ α → (α → Prog σ β) → Prog σ β
  | .ret a, f => f a
  | .op e k, f => .op e fun r => (k r).bind f

instance : Monad (Prog σ) where
  pure := .ret
  bind := bind

def event (e : σ.Ev) : Prog σ (σ.Res e) := .op e .ret

@[simp] theorem ret_bind (a : α) (f : α → Prog σ β) :
    (ret a : Prog σ α) >>= f = f a := rfl

@[simp] theorem op_bind (e : σ.Ev) (k : σ.Res e → Prog σ α)
    (f : α → Prog σ β) : op e k >>= f = op e fun r => k r >>= f := rfl

@[simp] theorem event_bind (e : σ.Ev) (f : σ.Res e → Prog σ β) :
    event e >>= f = op e f := rfl

theorem bind_ret (p : Prog σ α) : p.bind .ret = p := by
  induction p with
  | ret a => rfl
  | op e k ih => simp only [bind, ih]

theorem bind_bind (p : Prog σ α) (f : α → Prog σ β) (g : β → Prog σ γ) :
    (p.bind f).bind g = p.bind fun a => (f a).bind g := by
  induction p with
  | ret a => rfl
  | op e k ih => simp only [bind, ih]

instance : LawfulMonad (Prog σ) :=
  LawfulMonad.mk' (Prog σ) bind_ret (fun _ _ => rfl) bind_bind

/-- The whole run of a program, with no other program's events in between. -/
def run (M : Machine σ S) : Prog σ α → S → α × S
  | .ret a, s => (a, s)
  | .op e k, s => (k (M s e).1).run M (M s e).2

variable {M : Machine σ S}

@[simp] theorem run_ret (a : α) (s : S) : (ret a : Prog σ α).run M s = (a, s) :=
  rfl

@[simp] theorem run_pure (a : α) (s : S) :
    (pure a : Prog σ α).run M s = (a, s) := rfl

@[simp] theorem run_op (e : σ.Ev) (k : σ.Res e → Prog σ α) (s : S) :
    (op e k).run M s = (k (M s e).1).run M (M s e).2 := rfl

@[simp] theorem run_event (e : σ.Ev) (s : S) : (event e).run M s = M s e := rfl

@[simp] theorem run_bind (p : Prog σ α) (f : α → Prog σ β) (s : S) :
    (p >>= f).run M s = (f (p.run M s).1).run M (p.run M s).2 := by
  induction p generalizing s with
  | ret a => rfl
  | op e k ih => exact ih (M s e).1 (M s e).2

@[simp] theorem run_map (g : α → β) (p : Prog σ α) (s : S) :
    (g <$> p).run M s = (g (p.run M s).1, (p.run M s).2) := by
  rw [map_eq_pure_bind, run_bind, run_pure]

theorem run_ite (c : Prop) [Decidable c] (p q : Prog σ α) (s : S) :
    (if c then p else q).run M s = if c then p.run M s else q.run M s := by
  split <;> rfl

/-- What is left of a program after `n` events, and the state by then. -/
def after (M : Machine σ S) : Nat → Prog σ α → S → Prog σ α × S
  | 0, p, s => (p, s)
  | _ + 1, .ret a, s => (.ret a, s)
  | n + 1, .op e k, s => (k (M s e).1).after M n (M s e).2

/-- What a program answers whose events meet the states of the list, one each:
the state moves on between its events, and it does nothing to the state itself. -/
def watch (M : Machine σ S) : Prog σ α → List S → Option α
  | .ret a, [] => some a
  | .op e k, s :: ss => (k (M s e).1).watch M ss
  | _, _ => none

@[simp] theorem watch_pure (a : α) : (pure a : Prog σ α).watch M [] = some a := rfl

@[simp] theorem watch_event_bind (e : σ.Ev) (f : σ.Res e → Prog σ α) (s : S) (ss : List S) :
    (event e >>= f).watch M (s :: ss) = (f (M s e).1).watch M ss := rfl

/-! ## Footprints -/

/-- Every event of the run from `s` is allowed in the state it meets. -/
def Along (M : Machine σ S) (ok : S → σ.Ev → Prop) : Prog σ α → S → Prop
  | .ret _, _ => True
  | .op e k, s => ok s e ∧ (k (M s e).1).Along M ok (M s e).2

variable {ok ok' : S → σ.Ev → Prop}

@[simp] theorem along_ret (a : α) (s : S) :
    (ret a : Prog σ α).Along M ok s := trivial

@[simp] theorem along_pure (a : α) (s : S) :
    (pure a : Prog σ α).Along M ok s := trivial

@[simp] theorem along_op (e : σ.Ev) (k : σ.Res e → Prog σ α) (s : S) :
    (op e k).Along M ok s ↔ ok s e ∧ (k (M s e).1).Along M ok (M s e).2 :=
  Iff.rfl

@[simp] theorem along_event (e : σ.Ev) (s : S) :
    (event e).Along M ok s ↔ ok s e :=
  ⟨fun h => h.1, fun h => ⟨h, trivial⟩⟩

@[simp] theorem along_bind (p : Prog σ α) (f : α → Prog σ β) (s : S) :
    (p >>= f).Along M ok s ↔
      p.Along M ok s ∧ (f (p.run M s).1).Along M ok (p.run M s).2 := by
  induction p generalizing s with
  | ret a => exact ⟨fun h => ⟨trivial, h⟩, fun h => h.2⟩
  | op e k ih =>
      simp only [op_bind, along_op, run_op, ih, and_assoc]

@[simp] theorem along_map (g : α → β) (p : Prog σ α) (s : S) :
    (g <$> p).Along M ok s ↔ p.Along M ok s := by
  rw [map_eq_pure_bind, along_bind]
  exact ⟨fun h => h.1, fun h => ⟨h, trivial⟩⟩

theorem along_ite (c : Prop) [Decidable c] (p q : Prog σ α) (s : S) :
    (if c then p else q).Along M ok s ↔
      if c then p.Along M ok s else q.Along M ok s := by
  split <;> rfl

theorem Along.mono {p : Prog σ α} {s : S} (h : p.Along M ok s)
    (hok : ∀ s e, ok s e → ok' s e) : p.Along M ok' s := by
  induction p generalizing s with
  | ret a => trivial
  | op e k ih => exact ⟨hok s e h.1, ih (M s e).1 h.2⟩

/-- On any machine whose answers are as `ans` says, every event is one of `ok`
and the program ends within `R`. -/
def Always (ok : σ.Ev → Prop) (ans : (e : σ.Ev) → σ.Res e → Prop) :
    Prog σ α → (α → Prop) → Prop
  | .ret a, R => R a
  | .op e k, R => ok e ∧ ∀ r, ans e r → (k r).Always ok ans R

section Always

variable {ok : σ.Ev → Prop} {ans : (e : σ.Ev) → σ.Res e → Prop}

@[simp] theorem always_pure (a : α) (R : α → Prop) :
    (pure a : Prog σ α).Always ok ans R ↔ R a := Iff.rfl

@[simp] theorem always_event (e : σ.Ev) (R : σ.Res e → Prop) :
    (event e).Always ok ans R ↔ ok e ∧ ∀ r, ans e r → R r := Iff.rfl

@[simp] theorem always_bind (p : Prog σ α) (f : α → Prog σ β) (R : β → Prop) :
    (p >>= f).Always ok ans R ↔ p.Always ok ans fun a => (f a).Always ok ans R := by
  induction p with
  | ret a => exact Iff.rfl
  | op e k ih =>
      constructor
      · exact fun h => ⟨h.1, fun r hr => (ih r).mp (h.2 r hr)⟩
      · exact fun h => ⟨h.1, fun r hr => (ih r).mpr (h.2 r hr)⟩

theorem Always.bind {p : Prog σ α} {f : α → Prog σ β} {R : β → Prop}
    (h : p.Always ok ans fun a => (f a).Always ok ans R) :
    (p >>= f).Always ok ans R := (always_bind p f R).mpr h

theorem Always.mono {p : Prog σ α} {R R' : α → Prop} (h : p.Always ok ans R)
    (hR : ∀ a, R a → R' a) : p.Always ok ans R' := by
  induction p with
  | ret a => exact hR a h
  | op e k ih => exact ⟨h.1, fun r hr => ih r (h.2 r hr)⟩

theorem Always.weaken {ok' : σ.Ev → Prop} {ans' : (e : σ.Ev) → σ.Res e → Prop}
    {p : Prog σ α} {R : α → Prop} (h : p.Always ok ans R) (hok : ∀ e, ok e → ok' e)
    (hans : ∀ e r, ans' e r → ans e r) : p.Always ok' ans' R := by
  induction p with
  | ret a => exact h
  | op e k ih => exact ⟨hok e h.1, fun r hr => ih r (h.2 r (hans e r hr))⟩

theorem Always.seq {p : Prog σ α} {f : α → Prog σ β} {R : β → Prop}
    (hp : p.Always ok ans fun _ => True) (hf : ∀ a, (f a).Always ok ans R) :
    (p >>= f).Always ok ans R := .bind (hp.mono fun a _ => hf a)

theorem Always.ite {c : Prop} [Decidable c] {p q : Prog σ α} {R : α → Prop}
    (hp : p.Always ok ans R) (hq : q.Always ok ans R) :
    (if c then p else q).Always ok ans R := by
  split
  · exact hp
  · exact hq

theorem Always.event_bind {e : σ.Ev} {f : σ.Res e → Prog σ β} {R : β → Prop}
    (he : ok e) (h : ∀ r, ans e r → (f r).Always ok ans R) :
    (event e >>= f).Always ok ans R := ⟨he, h⟩

/-- On one machine: what every event preserves holds at the end, and the answer
is within `R`. -/
theorem Always.run {p : Prog σ α} {R : α → Prop} {I : S → Prop} {s : S}
    (h : p.Always ok ans R) (hs : I s)
    (hstep : ∀ s e, I s → ok e → ans e (M s e).1 ∧ I (M s e).2) :
    R (p.run M s).1 ∧ I (p.run M s).2 := by
  induction p generalizing s with
  | ret a => exact ⟨h, hs⟩
  | op e k ih =>
      obtain ⟨hans, hI⟩ := hstep s e hs h.1
      exact ih _ (h.2 _ hans) hI

end Always

end Prog

end Sinew.Lib
