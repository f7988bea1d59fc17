import Sinew.Lib.Prog

/-!
# Traces

What a program can be seen to do: its events in their order, each with the answer
it got, and then what the program itself answered. Nothing is said of where the
answers came from, so what holds of every trace holds on every machine, and with
any events of other programs in between. A run is a trace that the machine plays
by itself (`run_eq_iff`).

A program refuses cleanly if nothing but looking leads it to a failure. That is
the discipline of checking everything before the first store, and it composes
(`Refuses.bind`): a first part that fails must be the end of it, and what comes
after a first part that succeeds may do anything, as long as it cannot fail.

A program is confined if every trace of it is of bounded length and keeps to some
events. Whoever else is at work on the same state, and whatever they do to it,
such a program comes to its end and harms nothing else.

A program that trusts what it has seen can be misled: the state is changed behind its
back, once, and then it does what it would not have done.
-/

namespace Sinew.Lib

variable {σ : Sig} {S α β : Type}

/-- An event and its answer. -/
abbrev Sig.Seen (σ : Sig) : Type := (e : σ.Ev) × σ.Res e

namespace Prog

/-- The program may perform these events, answered so, and then answer `a`. -/
def Trace : Prog σ α → List σ.Seen → α → Prop
  | .ret b, t, a => t = [] ∧ b = a
  | .op e k, t, a => ∃ r t', t = ⟨e, r⟩ :: t' ∧ (k r).Trace t' a

@[simp] theorem trace_pure (b : α) (t : List σ.Seen) (a : α) :
    (pure b : Prog σ α).Trace t a ↔ t = [] ∧ b = a := Iff.rfl

@[simp] theorem trace_bind (p : Prog σ α) (f : α → Prog σ β) (t : List σ.Seen) (b : β) :
    (p >>= f).Trace t b ↔ ∃ a t₁ t₂, p.Trace t₁ a ∧ (f a).Trace t₂ b ∧ t = t₁ ++ t₂ := by
  induction p generalizing t with
  | ret a =>
      constructor
      · intro h
        exact ⟨a, [], t, ⟨rfl, rfl⟩, h, rfl⟩
      · intro ⟨a', t₁, t₂, ⟨ht₁, ha⟩, h, ht⟩
        subst ht₁ ha ht
        exact h
  | op e k ih =>
      constructor
      · intro ⟨r, t', ht, h⟩
        obtain ⟨a, t₁, t₂, h₁, h₂, ht'⟩ := (ih r t').mp h
        exact ⟨a, ⟨e, r⟩ :: t₁, t₂, ⟨r, t₁, rfl, h₁⟩, h₂, by rw [ht, ht', List.cons_append]⟩
      · intro ⟨a, t₁, t₂, ⟨r, t', ht₁, h₁⟩, h₂, ht⟩
        exact ⟨r, t' ++ t₂, by rw [ht, ht₁, List.cons_append],
          (ih r (t' ++ t₂)).mpr ⟨a, t', t₂, h₁, h₂, rfl⟩⟩

theorem Trace.bind_mono {p : Prog σ α} {f g : α → Prog σ β} {t : List σ.Seen} {b : β}
    (h : (p >>= f).Trace t b) (hfg : ∀ a t, (f a).Trace t b → (g a).Trace t b) :
    (p >>= g).Trace t b := by
  obtain ⟨a, t₁, t₂, h₁, h₂, ht⟩ := (trace_bind p f t b).mp h
  exact (trace_bind p g t b).mpr ⟨a, t₁, t₂, h₁, hfg a t₂ h₂, ht⟩

theorem Always.trace {ok : σ.Ev → Prop} {p : Prog σ α} {R : α → Prop}
    (h : p.Always ok (fun _ _ => True) R) {t : List σ.Seen} {a : α} (ht : p.Trace t a) :
    (∀ x ∈ t, ok x.1) ∧ R a := by
  induction p generalizing t with
  | ret b =>
      obtain ⟨ht, hb⟩ := ht
      subst ht hb
      exact ⟨fun x hx => absurd hx List.not_mem_nil, h⟩
  | op e k ih =>
      obtain ⟨r, t', ht, h'⟩ := ht
      obtain ⟨hrest, ha⟩ := ih r (h.2 r trivial) h'
      subst ht
      exact ⟨List.forall_mem_cons.mpr ⟨h.1, hrest⟩, ha⟩

/-- From `s` the machine gives the answers that were seen, and ends at `s'`. -/
def Plays (M : Machine σ S) : S → List σ.Seen → S → Prop
  | s, [], s' => s = s'
  | s, x :: t, s' => (M s x.1).1 = x.2 ∧ Plays M (M s x.1).2 t s'

variable {M : Machine σ S}

theorem run_eq_iff {p : Prog σ α} {s s' : S} {a : α} :
    p.run M s = (a, s') ↔ ∃ t, p.Trace t a ∧ Plays M s t s' := by
  induction p generalizing s with
  | ret b =>
      constructor
      · intro h
        obtain ⟨hb, hs⟩ := Prod.mk.inj h
        exact ⟨[], ⟨rfl, hb⟩, hs⟩
      · intro ⟨t, ⟨ht, hb⟩, hs⟩
        subst ht
        exact Prod.ext hb hs
  | op e k ih =>
      rw [run_op, ih]
      constructor
      · intro ⟨t, ht, hplays⟩
        exact ⟨⟨e, (M s e).1⟩ :: t, ⟨_, t, rfl, ht⟩, rfl, hplays⟩
      · intro ⟨t, ⟨r, t', ht, h⟩, hplays⟩
        subst ht
        obtain ⟨hr, hrest⟩ := hplays
        dsimp only at hr
        subst hr
        exact ⟨t', h, hrest⟩

theorem Plays.append {s s' s'' : S} {t t' : List σ.Seen} (h : Plays M s t s')
    (h' : Plays M s' t' s'') : Plays M s (t ++ t') s'' := by
  induction t generalizing s with
  | nil =>
      rw [show s = s' from h]
      exact h'
  | cons x t ih => exact ⟨h.1, ih h.2⟩

theorem Plays.same {look : σ.Ev → Prop} (hlook : ∀ s e, look e → (M s e).2 = s)
    {s s' : S} {t : List σ.Seen} (h : Plays M s t s') (ht : ∀ x ∈ t, look x.1) : s' = s := by
  induction t with
  | nil => exact Eq.symm h
  | cons x t ih =>
      obtain ⟨hx, hrest⟩ := List.forall_mem_cons.mp ht
      have h' := h.2
      rw [hlook s x.1 hx] at h'
      exact ih h' hrest

/-! ## Clean refusals -/

/-- A program that ends in a failure has only looked. -/
def Refuses (look : σ.Ev → Prop) (p : Prog σ α) (failed : α → Prop) : Prop :=
  ∀ t a, p.Trace t a → failed a → ∀ x ∈ t, look x.1

/-- A program that does not end in a failure. -/
abbrev Succeeds (p : Prog σ α) (failed : α → Prop) : Prop :=
  p.Always (fun _ => True) (fun _ _ => True) fun a => ¬ failed a

variable {look : σ.Ev → Prop} {failed : α → Prop}

theorem Refuses.pure (a : α) : (Pure.pure a : Prog σ α).Refuses look failed := by
  intro t b h _ x hx
  rw [h.1] at hx
  exact absurd hx List.not_mem_nil

theorem Refuses.ite {c : Prop} [Decidable c] {p q : Prog σ α}
    (hp : c → p.Refuses look failed) (hq : ¬ c → q.Refuses look failed) :
    (if c then p else q).Refuses look failed := by
  split
  · next h => exact hp h
  · next h => exact hq h

theorem Succeeds.ite {c : Prop} [Decidable c] {p q : Prog σ α} (hp : p.Succeeds failed)
    (hq : q.Succeeds failed) : (if c then p else q).Succeeds failed := Always.ite hp hq

theorem Refuses.of_always {p : Prog σ α} {R : α → Prop}
    (h : p.Always look (fun _ _ => True) R) : p.Refuses look failed :=
  fun _ _ ht _ => (h.trace ht).1

theorem Succeeds.refuses {p : Prog σ α} (h : p.Succeeds failed) : p.Refuses look failed :=
  fun _ _ ht ha => absurd ha (h.trace ht).2

theorem always_any (p : Prog σ α) :
    p.Always (fun _ => True) (fun _ _ => True) fun _ => True := by
  induction p with
  | ret a => trivial
  | op e k ih => exact ⟨trivial, fun r _ => ih r⟩

theorem Succeeds.seq {p : Prog σ α} {f : α → Prog σ β} {failed' : β → Prop}
    (hf : ∀ a, (f a).Succeeds failed') : (p >>= f).Succeeds failed' :=
  Always.seq (always_any p) hf

/-- What follows a failure may only look, and what follows a success may not fail. -/
theorem Refuses.bind {p : Prog σ α} {f : α → Prog σ β} {failed' : β → Prop}
    (hp : p.Refuses look failed) (hfail : ∀ a, failed a → (f a).Refuses look failed')
    (hgo : ∀ a, ¬ failed a → (f a).Succeeds failed') : (p >>= f).Refuses look failed' := by
  intro t b ht hb x hx
  obtain ⟨a, t₁, t₂, h₁, h₂, happ⟩ := (trace_bind p f t b).mp ht
  by_cases ha : failed a
  · rw [happ] at hx
    rcases List.mem_append.mp hx with hx | hx
    · exact hp t₁ a h₁ ha x hx
    · exact hfail a ha t₂ b h₂ hb x hx
  · exact absurd hb ((hgo a ha).trace h₂).2

theorem Refuses.seq {p : Prog σ α} {f : α → Prog σ β} {failed' : β → Prop}
    (hp : p.Always look (fun _ _ => True) fun _ => True)
    (hf : ∀ a, (f a).Refuses look failed') : (p >>= f).Refuses look failed' :=
  Refuses.bind (.of_always hp : p.Refuses look fun _ => True) (fun a _ => hf a)
    fun _ ha => absurd trivial ha

/-- Run alone on a machine where looking changes nothing, a program that fails has
changed nothing. -/
theorem Refuses.run {p : Prog σ α} (h : p.Refuses look failed)
    (hlook : ∀ s e, look e → (M s e).2 = s) {s : S} (hfail : failed (p.run M s).1) :
    (p.run M s).2 = s := by
  obtain ⟨t, ht, hplays⟩ := run_eq_iff.mp (show p.run M s = (_, _) from rfl)
  exact hplays.same hlook (h t _ ht hfail)

/-! ## Bounded calls -/

/-- Whatever it is answered, the program ends after at most `n` events, all of them
`ok`, and answers within `R`. -/
def Confined (p : Prog σ α) (ok : σ.Ev → Prop) (n : Nat) (R : α → Prop) : Prop :=
  ∀ t a, p.Trace t a → t.length ≤ n ∧ (∀ x ∈ t, ok x.1) ∧ R a

section Confined

variable {ok ok' : σ.Ev → Prop} {m n : Nat} {R : α → Prop}

theorem Confined.pure {a : α} (h : R a) : (Pure.pure a : Prog σ α).Confined ok n R := by
  intro t b ⟨ht, hb⟩
  subst ht hb
  exact ⟨Nat.zero_le n, fun x hx => absurd hx List.not_mem_nil, h⟩

theorem Confined.event {e : σ.Ev} (he : ok e) : (event e).Confined ok 1 fun _ => True := by
  intro t a ⟨r, t', ht, ht', _⟩
  subst ht' ht
  exact ⟨Nat.le_refl 1, fun x hx => by rw [List.mem_singleton.mp hx]; exact he, trivial⟩

theorem Confined.mono {p : Prog σ α} (h : p.Confined ok m R) (hle : m ≤ n)
    {R' : α → Prop} (hR : ∀ a, R a → R' a) : p.Confined ok n R' := by
  intro t a ht
  obtain ⟨hlen, hok, ha⟩ := h t a ht
  exact ⟨Nat.le_trans hlen hle, hok, hR a ha⟩

theorem Confined.weaken {p : Prog σ α} (h : p.Confined ok n R)
    (hok : ∀ e, ok e → ok' e) : p.Confined ok' n R := by
  intro t a ht
  obtain ⟨hlen, hall, ha⟩ := h t a ht
  exact ⟨hlen, fun x hx => hok x.1 (hall x hx), ha⟩

theorem Confined.bind {p : Prog σ α} {f : α → Prog σ β} {R : α → Prop} {R' : β → Prop}
    (hp : p.Confined ok m R) (hf : ∀ a, R a → (f a).Confined ok n R') :
    (p >>= f).Confined ok (m + n) R' := by
  intro t b ht
  obtain ⟨a, t₁, t₂, h₁, h₂, happ⟩ := (trace_bind p f t b).mp ht
  obtain ⟨hlen₁, hok₁, ha⟩ := hp t₁ a h₁
  obtain ⟨hlen₂, hok₂, hb⟩ := hf a ha t₂ b h₂
  subst happ
  refine ⟨by rw [List.length_append]; exact Nat.add_le_add hlen₁ hlen₂, fun x hx => ?_, hb⟩
  rcases List.mem_append.mp hx with hx | hx
  · exact hok₁ x hx
  · exact hok₂ x hx

theorem Confined.ite {c : Prop} [Decidable c] {p q : Prog σ α}
    (hp : c → p.Confined ok n R) (hq : ¬ c → q.Confined ok n R) :
    (if c then p else q).Confined ok n R := by
  split
  · next h => exact hp h
  · next h => exact hq h

end Confined

/-! ## Programs that are misled -/

/-- Once in the course of the program the state is changed from `s` to `s'`, and after
that the program comes to a `bad` event. -/
def Misled (p : Prog σ α) (M : Machine σ S) (s s' : S) (bad : σ.Ev → Prop) : Prop :=
  ∃ t₁ t₂ a s'', p.Trace (t₁ ++ t₂) a ∧ Plays M s t₁ s ∧ Plays M s' t₂ s'' ∧ ∃ x ∈ t₂, bad x.1

section Misled

variable {M : Machine σ S} {s s' : S} {bad : σ.Ev → Prop} {p : Prog σ α} {f : α → Prog σ β}

theorem along_of_traces {ok : σ.Ev → Prop}
    (h : ∀ t a s', p.Trace t a → Plays M s t s' → ∀ x ∈ t, ok x.1) :
    p.Along M (fun _ => ok) s := by
  induction p generalizing s with
  | ret a => trivial
  | op e k ih =>
      have hnext : ∀ t a s', (k (M s e).1).Trace t a → Plays M (M s e).2 t s' →
          ∀ x ∈ (⟨e, (M s e).1⟩ : σ.Seen) :: t, ok x.1 := fun t a s' ht hplays =>
        h _ a s' ⟨_, t, rfl, ht⟩ ⟨rfl, hplays⟩
      refine ⟨?_, ih _ fun t a s' ht hplays => (List.forall_mem_cons.mp
        (hnext t a s' ht hplays)).2⟩
      obtain ⟨t, ht, hplays⟩ := run_eq_iff.mp
        (show (k (M s e).1).run M (M s e).2 = (_, _) from rfl)
      exact hnext t _ _ ht hplays _ List.mem_cons_self

theorem Misled.at_once (h : ¬ p.Along M (fun _ e => ¬ bad e) s') : p.Misled M s s' bad := by
  by_contra hnot
  refine h (along_of_traces fun t a s'' ht hplays x hx hbad => hnot ?_)
  exact ⟨[], t, a, s'', ht, rfl, hplays, x, hx, hbad⟩

theorem Misled.later {a : α} (hp : p.run M s = (a, s)) (h : (f a).Misled M s s' bad) :
    (p >>= f).Misled M s s' bad := by
  obtain ⟨t, ht, hplays⟩ := run_eq_iff.mp hp
  obtain ⟨t₁, t₂, b, s'', htrace, h₁, h₂, hbad⟩ := h
  refine ⟨t ++ t₁, t₂, b, s'', ?_, hplays.append h₁, h₂, hbad⟩
  rw [List.append_assoc]
  exact (trace_bind p f _ b).mpr ⟨a, t, t₁ ++ t₂, ht, htrace, rfl⟩

theorem Misled.bind (h : p.Misled M s s' bad) : (p >>= f).Misled M s s' bad := by
  obtain ⟨t₁, t₂, a, s'', ht, h₁, h₂, x, hx, hbad⟩ := h
  obtain ⟨t, hrest, hplays⟩ := run_eq_iff.mp (show (f a).run M s'' = (_, _) from rfl)
  have htrace : (p >>= f).Trace (t₁ ++ (t₂ ++ t)) ((f a).run M s'').1 := by
    rw [← List.append_assoc]
    exact (trace_bind p f _ _).mpr ⟨a, t₁ ++ t₂, t, ht, hrest, rfl⟩
  exact ⟨t₁, t₂ ++ t, _, _, htrace, h₁, h₂.append hplays, x, List.mem_append_left t hx, hbad⟩

/-- Where the change makes no difference to an event, it may as well come after it. -/
theorem Misled.of_event {e : σ.Ev} {k : σ.Res e → Prog σ α} {r : σ.Res e}
    (h : (event e >>= k).Misled M s s' bad) (he : ¬ bad e) (hs : M s e = (r, s))
    (hs' : M s' e = (r, s')) : (k r).Misled M s s' bad := by
  obtain ⟨t₁, t₂, a, s'', ⟨r', t, happ, ht⟩, h₁, h₂, x, hx, hbad⟩ := h
  cases t₁ with
  | nil =>
      rw [List.nil_append] at happ
      subst happ
      obtain ⟨hr, hrest⟩ := h₂
      rw [hs'] at hr hrest
      dsimp only at hr
      subst hr
      refine ⟨[], t, a, s'', ht, rfl, hrest, x, ?_, hbad⟩
      rcases List.mem_cons.mp hx with hx | hx
      · subst hx
        exact absurd hbad he
      · exact hx
  | cons y t₁ =>
      obtain ⟨hy, hsame⟩ := List.cons.inj happ
      subst hy hsame
      obtain ⟨hr, hrest⟩ := h₁
      rw [hs] at hr hrest
      dsimp only at hr
      subst hr
      exact ⟨t₁, t₂, a, s'', ht, hrest, h₂, x, hx, hbad⟩

theorem Confined.not_misled {ok : σ.Ev → Prop} {n : Nat} {R : α → Prop}
    (h : p.Confined ok n R) (hok : ∀ e, ok e → ¬ bad e) : ¬ p.Misled M s s' bad := by
  intro ⟨t₁, t₂, a, _, ht, _, _, x, hx, hbad⟩
  exact hok x.1 ((h (t₁ ++ t₂) a ht).2.1 x (List.mem_append_right t₁ hx)) hbad

end Misled

end Prog

end Sinew.Lib
