import Sinew.Lib.Rely

/-!
# What a program touches under interference, and what it observes

`Env.wp` says what a program makes of a state, and nothing of how. `Env.Allows`
says which events it performs on the way, each in the state it meets. It goes
along with `wp`: what comes after a call is looked at from the states that the
call is known to leave.

Both together carry over from one machine to another where a party's observation of
the one is a state of the other. What was proved of a program on the observed
machine then holds of it on the machine below, whatever else there is to that
machine, as long as the events that are allowed do below what they do above.
-/

namespace Sinew.Lib.Env

variable {σ : Sig} {S V α β : Type} {E : Env S} {M : Machine σ S} {ok ok' : S → σ.Ev → Prop}
  {s s' : S}

/-- Under interference every event of the program is allowed in the state it meets. -/
def Allows (E : Env S) (M : Machine σ S) (ok : S → σ.Ev → Prop) : Prog σ α → S → Prop
  | .ret _, _ => True
  | .op e k, s => ∀ s', E.rely s s' → E.inv s' →
      ok s' e ∧ E.Allows M ok (k (M s' e).1) (M s' e).2

theorem allows_pure (a : α) (s : S) : E.Allows M ok (pure a : Prog σ α) s := trivial

theorem allows_event_bind {e : σ.Ev} {f : σ.Res e → Prog σ α}
    (h : ∀ s', E.rely s s' → E.inv s' →
      ok s' e ∧ E.Allows M ok (f (M s' e).1) (M s' e).2) :
    E.Allows M ok (Prog.event e >>= f) s := h

theorem allows_event {e : σ.Ev} (h : ∀ s', E.rely s s' → E.inv s' → ok s' e) :
    E.Allows M ok (Prog.event e) s := fun s' hr hi => ⟨h s' hr hi, trivial⟩

theorem allows_bind {p : Prog σ α} {f : α → Prog σ β} (hp : E.Allows M ok p s)
    (hf : E.wp M p (fun a s' => E.Allows M ok (f a) s') s) : E.Allows M ok (p >>= f) s := by
  induction p generalizing s with
  | ret a =>
      have hnext : ∀ s', E.rely s s' → E.inv s' → E.Allows M ok (f a) s' := hf
      rw [Prog.ret_bind]
      cases hfa : f a with
      | ret b => trivial
      | op e k =>
          intro s' hr hi
          have hop := hnext s' hr hi
          rw [hfa] at hop
          exact hop s' (E.rely_refl s') hi
  | op e k ih =>
      intro s' hr hi
      obtain ⟨hok, hp'⟩ := hp s' hr hi
      exact ⟨hok, ih _ hp' (hf s' hr hi).2.2⟩

theorem allows_seq {p : Prog σ α} {f : α → Prog σ β} (hp : E.Allows M ok p s)
    (hf : ∀ a s, E.Allows M ok (f a) s) : E.Allows M ok (p >>= f) s := by
  induction p generalizing s with
  | ret a => exact hf a s
  | op e k ih => exact fun s' hr hi => ⟨(hp s' hr hi).1, ih _ (hp s' hr hi).2⟩

theorem allows_ite {c : Prop} [Decidable c] {p q : Prog σ α}
    (hp : c → E.Allows M ok p s) (hq : ¬ c → E.Allows M ok q s) :
    E.Allows M ok (if c then p else q) s := by
  split
  · next h => exact hp h
  · next h => exact hq h

/-- A program that keeps to the part `view` of the state does what it does when it
runs on that part by itself, and so touches what it touches there. -/
theorem allows_along {N : Machine σ V} {allowed : V → σ.Ev → Prop} (view : S → V)
    (own : S → Prop)
    (hstable : ∀ s s', own s → E.rely s s' → E.inv s' → own s' ∧ view s' = view s)
    (hstep : ∀ s e, E.inv s → own s → allowed (view s) e →
      ok s e ∧ (M s e).1 = (N (view s) e).1 ∧ view (M s e).2 = (N (view s) e).2 ∧
      own (M s e).2)
    {p : Prog σ α} (hown : own s) (hal : p.Along N allowed (view s)) :
    E.Allows M ok p s := by
  induction p generalizing s with
  | ret a => trivial
  | op e k ih =>
      intro s' hr hi
      obtain ⟨ho, hv⟩ := hstable s s' hown hr hi
      rw [← hv] at hal
      obtain ⟨hok, hans, hview, hown'⟩ := hstep s' e hi ho hal.1
      refine ⟨hok, ?_⟩
      rw [hans]
      refine ih _ hown' ?_
      rw [hview]
      exact hal.2

/-- What is known of a program on the machine a party observes holds below. What the
party has not noticed yet it may notice with an event. -/
theorem wp_observe {F : Env V} {N : Machine σ V} {ok : V → σ.Ev → Prop} (view : S → V)
    (hrely : ∀ s s', E.rely s s' → E.inv s' → F.rely (view s) (view s') ∧ F.inv (view s'))
    (hstep : ∀ s e, E.inv s → ∃ v, F.rely (view s) v ∧ F.inv v ∧
      (ok v e → F.inv (N v e).2 → F.guar v (N v e).2 →
        (M s e).1 = (N v e).1 ∧ view (M s e).2 = (N v e).2 ∧
        E.inv (M s e).2 ∧ E.guar s (M s e).2))
    {p : Prog σ α} {Q : α → V → Prop} (h : F.wp N p Q (view s))
    (hok : F.Allows N ok p (view s)) :
    E.wp M p (fun a s' => Q a (view s')) s := by
  induction p generalizing s with
  | ret a =>
      intro s' hr hi
      obtain ⟨hr', hi'⟩ := hrely s s' hr hi
      exact h _ hr' hi'
  | op e k ih =>
      intro s' hr hi
      obtain ⟨hr', _⟩ := hrely s s' hr hi
      obtain ⟨v, hv, hiv, hdo⟩ := hstep s' e hi
      have hrv := F.rely_trans _ _ _ hr' hv
      obtain ⟨hinv, hguar, hk⟩ := h v hrv hiv
      obtain ⟨hokv, hokk⟩ := hok v hrv hiv
      obtain ⟨hans, hview, hinv', hguar'⟩ := hdo hokv hinv hguar
      refine ⟨hinv', hguar', ?_⟩
      rw [hans]
      refine ih _ ?_ ?_
      · rw [hview]
        exact hk
      · rw [hview]
        exact hokk

end Sinew.Lib.Env
