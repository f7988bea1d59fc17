import Mathlib.Logic.Function.Basic
import Mathlib.Logic.Relation
import Sinew.Lib.Prog

/-!
# Interleaved programs and a rely-guarantee logic for them

A system is a family of parties over one shared state. A party is a client
that, when idle, may begin any of the calls its client state allows; a call is
a program, and from then on the party moves one event at a time, each event
atomic, with the events of the other parties anywhere in between. The client
state is whatever the client remembers from call to call, and the label of a
call is whatever the machine may know about it (it is how a party's history
variables learn what its client is doing).

The logic gives each party an environment: the invariant of the shared state,
what the others may do to that state, and what the party owes them. `wp`
quantifies over that interference before every event, so an assertion about a
program is stable by construction, and the soundness theorem is an induction
over steps with nothing in it about any particular program. `wp_run` is the
rule that lets a concurrent proof use a sequential fact: while a program keeps
to the part of the state that interference leaves alone, what it does under the
scheduler is what `Prog.run` says it does on its own.
-/

namespace Sinew.Lib

variable {σ : Sig} {S ι : Type}

/-- Where a party stands towards the others: the invariant all keep, what it
relies on, and what it guarantees. -/
structure Env (S : Type) where
  inv : S → Prop
  rely : S → S → Prop
  guar : S → S → Prop
  rely_refl : ∀ s, rely s s
  rely_trans : ∀ s s' s'', rely s s' → rely s' s'' → rely s s''

namespace Env

variable {α β : Type}

/-- From `s` the program keeps the invariant and the guarantee at each of its
events, whatever the others do in between, and answers within `Q`. -/
def wp (E : Env S) (M : Machine σ S) : Prog σ α → (α → S → Prop) → S → Prop
  | .ret a, Q, s => ∀ s', E.rely s s' → E.inv s' → Q a s'
  | .op e k, Q, s => ∀ s', E.rely s s' → E.inv s' →
      E.inv (M s' e).2 ∧ E.guar s' (M s' e).2 ∧
        wp E M (k (M s' e).1) Q (M s' e).2

variable {E : Env S} {M : Machine σ S}

theorem wp_rely {p : Prog σ α} {Q : α → S → Prop} {s s' : S}
    (h : E.wp M p Q s) (hr : E.rely s s') : E.wp M p Q s' := by
  cases p with
  | ret a => exact fun t ht => h t (E.rely_trans s s' t hr ht)
  | op e k => exact fun t ht => h t (E.rely_trans s s' t hr ht)

theorem wp_ret {a : α} {Q : α → S → Prop} {s : S}
    (h : ∀ s', E.rely s s' → E.inv s' → Q a s') : E.wp M (pure a) Q s := h

theorem wp_mono {p : Prog σ α} {Q Q' : α → S → Prop} {s : S}
    (h : E.wp M p Q s) (hQ : ∀ a s, E.inv s → Q a s → Q' a s) :
    E.wp M p Q' s := by
  induction p generalizing s with
  | ret a => exact fun s' hr hi => hQ a s' hi (h s' hr hi)
  | op e k ih =>
      intro s' hr hi
      obtain ⟨h1, h2, h3⟩ := h s' hr hi
      exact ⟨h1, h2, ih _ h3⟩

theorem wp_bind {p : Prog σ α} {f : α → Prog σ β} {Q : β → S → Prop} {s : S}
    (h : E.wp M p (fun a s => E.wp M (f a) Q s) s) : E.wp M (p >>= f) Q s := by
  induction p generalizing s with
  | ret a =>
      have hbase : ∀ s', E.rely s s' → E.inv s' → E.wp M (f a) Q s' := h
      rw [Prog.ret_bind]
      cases hf : f a with
      | ret b =>
          intro s' hr hi
          have := hbase s' hr hi
          rw [hf] at this
          exact this s' (E.rely_refl s') hi
      | op e k =>
          intro s' hr hi
          have := hbase s' hr hi
          rw [hf] at this
          exact this s' (E.rely_refl s') hi
  | op e k ih =>
      intro s' hr hi
      obtain ⟨h1, h2, h3⟩ := h s' hr hi
      exact ⟨h1, h2, ih _ h3⟩

theorem wp_and {p : Prog σ α} {Q Q' : α → S → Prop} {s : S} (h : E.wp M p Q s)
    (h' : E.wp M p Q' s) : E.wp M p (fun a s' => Q a s' ∧ Q' a s') s := by
  induction p generalizing s with
  | ret a => exact fun s' hr hi => ⟨h s' hr hi, h' s' hr hi⟩
  | op e k ih =>
      intro s' hr hi
      obtain ⟨hinv, hguar, hk⟩ := h s' hr hi
      exact ⟨hinv, hguar, ih _ hk (h' s' hr hi).2.2⟩

theorem wp_track {p : Prog σ α} {Q : α → S → Prop} {s : S} (h : E.wp M p Q s)
    {R : S → S → Prop} (hrely : ∀ s s', E.rely s s' → R s s')
    (hguar : ∀ s s', E.guar s s' → R s s')
    (htrans : ∀ s s' s'', R s s' → R s' s'' → R s s'') :
    E.wp M p (fun a s' => Q a s' ∧ R s s') s := by
  have hgo : ∀ t, E.wp M p Q t → R s t → E.wp M p (fun a s' => Q a s' ∧ R s s') t := by
    clear h
    induction p with
    | ret a => exact fun t h ht s' hr hi => ⟨h s' hr hi, htrans _ _ _ ht (hrely _ _ hr)⟩
    | op e k ih =>
        intro t h ht s' hr hi
        obtain ⟨hinv, hg, hk⟩ := h s' hr hi
        have hstep := htrans _ _ _ (hrely _ _ hr) (hguar _ _ hg)
        exact ⟨hinv, hg, ih _ _ hk (htrans _ _ _ ht hstep)⟩
  exact hgo s h (hrely s s (E.rely_refl s))

/-- One event and what comes after it, from every state interference may have
brought about by then. -/
theorem wp_event_bind {e : σ.Ev} {f : σ.Res e → Prog σ α} {Q : α → S → Prop} {s : S}
    (h : ∀ s', E.rely s s' → E.inv s' → E.inv (M s' e).2 ∧ E.guar s' (M s' e).2 ∧
      E.wp M (f (M s' e).1) Q (M s' e).2) :
    E.wp M (Prog.event e >>= f) Q s := h

theorem wp_event {e : σ.Ev} {Q : σ.Res e → S → Prop} {s : S}
    (h : ∀ s', E.rely s s' → E.inv s' → E.inv (M s' e).2 ∧ E.guar s' (M s' e).2 ∧
      ∀ s'', E.rely (M s' e).2 s'' → E.inv s'' → Q (M s' e).1 s'') :
    E.wp M (Prog.event e) Q s := h

/-- What holds under interference holds without any. -/
theorem wp_alone {p : Prog σ α} {Q : α → S → Prop} {s : S} (h : E.wp M p Q s)
    (hi : E.inv s) : E.inv (p.run M s).2 ∧ Q (p.run M s).1 (p.run M s).2 := by
  induction p generalizing s with
  | ret a => exact ⟨hi, h s (E.rely_refl s) hi⟩
  | op e k ih =>
      obtain ⟨hi', _, h'⟩ := h s (E.rely_refl s) hi
      exact ih _ h' hi'

/-- Alone, it keeps whatever its guarantee keeps. -/
theorem guar_alone {p : Prog σ α} {Q : α → S → Prop} {s : S} (h : E.wp M p Q s)
    (hi : E.inv s) {R : S → S → Prop} (hR : ∀ s s', E.guar s s' → R s s')
    (hrefl : ∀ s, R s s) (htrans : ∀ s s' s'', R s s' → R s' s'' → R s s'') :
    R s (p.run M s).2 := by
  induction p generalizing s with
  | ret a => exact hrefl s
  | op e k ih =>
      obtain ⟨hi', hguar, h'⟩ := h s (E.rely_refl s) hi
      exact htrans _ _ _ (hR _ _ hguar) (ih _ h' hi')

/-- A program that keeps to events that do no harm while `I` holds, on a machine
that answers within `ans`. -/
theorem wp_always {ok : σ.Ev → Prop} {ans : (e : σ.Ev) → σ.Res e → Prop}
    {p : Prog σ α} {R : α → Prop} (h : p.Always ok ans R) (I : S → Prop)
    (hstable : ∀ s s', I s → E.rely s s' → E.inv s' → I s')
    (hstep : ∀ s e, E.inv s → I s → ok e → ans e (M s e).1 ∧ E.inv (M s e).2 ∧
      E.guar s (M s e).2 ∧ I (M s e).2) {s : S} (hs : I s) :
    E.wp M p (fun a s' => R a ∧ I s') s := by
  induction p generalizing s with
  | ret a => exact fun s' hr hi => ⟨h, hstable s s' hs hr hi⟩
  | op e k ih =>
      intro s' hr hi
      obtain ⟨hans, hinv, hguar, hI⟩ := hstep s' e hi (hstable s s' hs hr hi) h.1
      exact ⟨hinv, hguar, ih _ (h.2 _ hans) hI⟩

/-- What a program is known to do on an abstraction of the state, it does on the
state. `R` relates the two: interference below is interference above, and an
event that is safe above is answered alike and is safe below. -/
theorem wp_sim {V : Type} {F : Env V} {N : Machine σ V} (R : S → V → Prop)
    (hrely : ∀ s s' v, R s v → E.rely s s' → E.inv s' →
      ∃ v', R s' v' ∧ F.rely v v' ∧ F.inv v')
    (hstep : ∀ s e v, E.inv s → R s v → F.inv (N v e).2 → F.guar v (N v e).2 →
      (M s e).1 = (N v e).1 ∧ R (M s e).2 (N v e).2 ∧ E.inv (M s e).2 ∧ E.guar s (M s e).2)
    {p : Prog σ α} {Q : α → V → Prop} {s : S} {v : V} (hR : R s v) (h : F.wp N p Q v) :
    E.wp M p (fun a s' => ∃ v', R s' v' ∧ F.inv v' ∧ Q a v') s := by
  induction p generalizing s v with
  | ret a =>
      intro s' hr hi
      obtain ⟨v', hR', hrv, hiv⟩ := hrely s s' v hR hr hi
      exact ⟨v', hR', hiv, h v' hrv hiv⟩
  | op e k ih =>
      intro s' hr hi
      obtain ⟨v', hR', hrv, hiv⟩ := hrely s s' v hR hr hi
      obtain ⟨hinv, hguar, hk⟩ := h v' hrv hiv
      obtain ⟨hans, hR'', hinv', hguar'⟩ := hstep s' e v' hi hR' hinv hguar
      rw [hans]
      exact ⟨hinv', hguar', ih _ hR'' hk⟩

/-- A program that keeps to the part `view` of the state, which interference
leaves alone while `own` holds, does under the scheduler what it does when it
runs on that part by itself. -/
theorem wp_run {V : Type} {N : Machine σ V} {ok : V → σ.Ev → Prop}
    (view : S → V) (own : S → Prop)
    (hstable : ∀ s s', own s → E.rely s s' → E.inv s' → own s' ∧ view s' = view s)
    (hstep : ∀ s e, E.inv s → own s → ok (view s) e →
      (M s e).1 = (N (view s) e).1 ∧ view (M s e).2 = (N (view s) e).2 ∧
      own (M s e).2 ∧ E.inv (M s e).2 ∧ E.guar s (M s e).2)
    {p : Prog σ α} {Q : α → S → Prop} {s : S} (hown : own s)
    (hal : p.Along N ok (view s))
    (hQ : ∀ s', E.inv s' → own s' → view s' = (p.run N (view s)).2 →
      Q (p.run N (view s)).1 s') : E.wp M p Q s := by
  induction p generalizing s with
  | ret a =>
      intro s' hr hi
      obtain ⟨ho, hv⟩ := hstable s s' hown hr hi
      exact hQ s' hi ho hv
  | op e k ih =>
      intro s' hr hi
      obtain ⟨ho, hv⟩ := hstable s s' hown hr hi
      rw [← hv] at hal hQ
      obtain ⟨hans, hview, hown', hinv', hguar⟩ := hstep s' e hi ho hal.1
      refine ⟨hinv', hguar, ?_⟩
      rw [hans]
      refine ih _ hown' ?_ ?_
      · rw [hview]; exact hal.2
      · rw [hview]; exact hQ

end Env

/-! ## Systems -/

/-- A party: its client's states, the calls they allow, and how the shared
state answers its events. -/
structure Party (σ : Sig) (S : Type) where
  Client : Type
  Label : Type
  start : Client → Label → Prog σ Client → Prop
  exec : Label → Machine σ S

/-- Where a party stands: between calls, or inside one. -/
inductive Thread (P : Party σ S) where
  | idle (c : P.Client)
  | running (l : P.Label) (p : Prog σ P.Client)

structure Config (party : ι → Party σ S) where
  state : S
  thread : ∀ i, Thread (party i)

section Steps

variable [DecidableEq ι] {party : ι → Party σ S}

/-- One atomic step of one party: it begins a call, performs an event, or
comes back from a call. -/
inductive Step : Config party → Config party → Prop where
  | start {cfg : Config party} {i : ι} {c : (party i).Client}
      {l : (party i).Label} {p : Prog σ (party i).Client} :
      cfg.thread i = .idle c → (party i).start c l p →
      Step cfg ⟨cfg.state, Function.update cfg.thread i (.running l p)⟩
  | event {cfg : Config party} {i : ι} {l : (party i).Label} {e : σ.Ev}
      {k : σ.Res e → Prog σ (party i).Client} :
      cfg.thread i = .running l (.op e k) →
      Step cfg ⟨((party i).exec l cfg.state e).2,
        Function.update cfg.thread i
          (.running l (k ((party i).exec l cfg.state e).1))⟩
  | finish {cfg : Config party} {i : ι} {l : (party i).Label}
      {c : (party i).Client} :
      cfg.thread i = .running l (.ret c) →
      Step cfg ⟨cfg.state, Function.update cfg.thread i (.idle c)⟩

/-- The configurations some run from `init` passes through. -/
abbrev Reach (init cfg : Config party) : Prop := Relation.ReflTransGen Step init cfg

theorem Reach.finish {cfg : Config party} {i : ι} {l : (party i).Label}
    {p : Prog σ (party i).Client} (hi : cfg.thread i = .running l p) :
    Reach cfg ⟨(p.run ((party i).exec l) cfg.state).2,
      Function.update cfg.thread i (.idle (p.run ((party i).exec l) cfg.state).1)⟩ := by
  induction p generalizing cfg with
  | ret a => exact .single (.finish hi)
  | op e k ih =>
      have hrest := @ih _ ⟨((party i).exec l cfg.state e).2, Function.update cfg.thread i
        (.running l (k ((party i).exec l cfg.state e).1))⟩ (Function.update_self ..)
      rw [Function.update_idem] at hrest
      exact .head (.event hi) hrest

theorem Reach.events {cfg : Config party} {i : ι} {l : (party i).Label}
    {p : Prog σ (party i).Client} (hi : cfg.thread i = .running l p) (n : Nat) :
    Reach cfg ⟨(p.after ((party i).exec l) n cfg.state).2, Function.update cfg.thread i
      (.running l (p.after ((party i).exec l) n cfg.state).1)⟩ := by
  have hnone : ∀ (cfg : Config party) p, cfg.thread i = .running l p →
      Reach cfg ⟨cfg.state, Function.update cfg.thread i (.running l p)⟩ := by
    intro cfg p hi
    rw [← hi, Function.update_eq_self]
  induction n generalizing cfg p with
  | zero => exact hnone cfg p hi
  | succ n ih =>
      cases p with
      | ret a => exact hnone cfg _ hi
      | op e k =>
          have hrest := @ih ⟨((party i).exec l cfg.state e).2, Function.update cfg.thread i
            (.running l (k ((party i).exec l cfg.state e).1))⟩ _ (Function.update_self ..)
          rw [Function.update_idem] at hrest
          exact .head (.event hi) hrest

theorem Reach.call {cfg : Config party} {i : ι} {c : (party i).Client}
    {l : (party i).Label} {p : Prog σ (party i).Client}
    (hi : cfg.thread i = .idle c) (hst : (party i).start c l p) :
    Reach cfg ⟨(p.run ((party i).exec l) cfg.state).2,
      Function.update cfg.thread i (.idle (p.run ((party i).exec l) cfg.state).1)⟩ := by
  have hrest := @Reach.finish _ _ _ _ _ ⟨cfg.state, Function.update cfg.thread i
    (.running l p)⟩ i l p (Function.update_self ..)
  rw [Function.update_idem] at hrest
  exact .head (.start hi hst) hrest

/-- A run, moment by moment: from one to the next a party makes a step, or
nothing happens. -/
structure Run (init : Config party) where
  moment : Nat → Config party
  zero : moment 0 = init
  next : ∀ n, moment (n + 1) = moment n ∨ Step (moment n) (moment (n + 1))

theorem Run.reach_add {init : Config party} (r : Run init) (i n : Nat) :
    Reach (r.moment i) (r.moment (i + n)) := by
  induction n with
  | zero => exact .refl
  | succ n ih =>
      rcases r.next (i + n) with h | h
      · rw [← Nat.add_assoc, h]
        exact ih
      · exact ih.tail h

theorem Run.reach_le {init : Config party} (r : Run init) {i j : Nat} (h : i ≤ j) :
    Reach (r.moment i) (r.moment j) := by
  obtain ⟨n, rfl⟩ := Nat.exists_eq_add_of_le h
  exact r.reach_add i n

theorem Run.reach {init : Config party} (r : Run init) (n : Nat) :
    Reach init (r.moment n) := by
  have h := r.reach_le (Nat.zero_le n)
  rwa [r.zero] at h

theorem Reach.exists_run {init cfg : Config party} (h : Reach init cfg) :
    ∃ (r : Run init) (n : Nat), r.moment n = cfg := by
  induction h using Relation.ReflTransGen.head_induction_on with
  | refl => exact ⟨⟨fun _ => cfg, rfl, fun _ => .inl rfl⟩, 0, rfl⟩
  | @head a b hstep _ ih =>
      obtain ⟨r, n, hn⟩ := ih
      refine ⟨⟨fun k => k.casesOn a r.moment, rfl, fun k => ?_⟩, n + 1, hn⟩
      cases k with
      | zero =>
          right
          show Step a (r.moment 0)
          rw [r.zero]
          exact hstep
      | succ k => exact r.next k

end Steps

/-! ## The logic of a system -/

/-- An environment for each party, and what each client state asserts between
calls. The guarantees make the relies good. -/
structure Logic (party : ι → Party σ S) where
  env : ι → Env S
  idle : (i : ι) → (party i).Client → S → Prop
  inv_all : ∀ i j s, (env i).inv s → (env j).inv s
  compat : ∀ i j s s', i ≠ j → (env i).guar s s' → (env j).rely s s'
  idle_stable : ∀ i c s s', idle i c s → (env i).rely s s' → (env i).inv s' →
    idle i c s'

namespace Logic

variable {party : ι → Party σ S} (L : Logic party) {i : ι}

/-- Every call a client may begin is safe from the states it may begin in. -/
def Sound : Prop :=
  ∀ i c l p s, (party i).start c l p → (L.env i).inv s → L.idle i c s →
    (L.env i).wp ((party i).exec l) p (L.idle i) s

/-- What the logic maintains of a configuration: the invariant, and of each
party that it is idle in good order or inside a call that is safe from here. -/
structure Good (cfg : Config party) : Prop where
  inv : ∀ i, (L.env i).inv cfg.state
  thread : ∀ i, match cfg.thread i with
    | .idle c => L.idle i c cfg.state
    | .running l p => (L.env i).wp ((party i).exec l) p (L.idle i) cfg.state

variable {L}

theorem Good.idle {cfg : Config party} (h : L.Good cfg) {c : (party i).Client}
    (hi : cfg.thread i = .idle c) : L.idle i c cfg.state := by
  have := h.thread i
  rw [hi] at this
  exact this

theorem Good.running {cfg : Config party} (h : L.Good cfg)
    {l : (party i).Label} {p : Prog σ (party i).Client}
    (hi : cfg.thread i = .running l p) :
    (L.env i).wp ((party i).exec l) p (L.idle i) cfg.state := by
  have := h.thread i
  rw [hi] at this
  exact this

variable [DecidableEq ι]

/-- Moving one party, and the state within the others' relies, leaves the
others' assertions in place. -/
theorem Good.move {cfg : Config party} (h : L.Good cfg) {s' : S}
    {t : Thread (party i)} (hinv : (L.env i).inv s')
    (hrely : ∀ j, i ≠ j → (L.env j).rely cfg.state s')
    (ht : match t with
      | .idle c => L.idle i c s'
      | .running l p => (L.env i).wp ((party i).exec l) p (L.idle i) s') :
    L.Good ⟨s', Function.update cfg.thread i t⟩ := by
  refine ⟨fun j => L.inv_all i j s' hinv, fun j => ?_⟩
  by_cases hj : j = i
  · subst hj
    simp only [Function.update_self]
    exact ht
  · simp only [Function.update_of_ne hj]
    have hr := hrely j (Ne.symm hj)
    cases hth : cfg.thread j with
    | idle c => exact L.idle_stable j c _ _ (h.idle hth) hr (L.inv_all i j s' hinv)
    | running l p => exact Env.wp_rely (h.running hth) hr

theorem Good.step {cfg cfg' : Config party} (hsound : L.Sound)
    (h : L.Good cfg) (hstep : Step cfg cfg') : L.Good cfg' := by
  cases hstep with
  | start hth hst =>
      exact h.move (h.inv _) (fun j _ => (L.env j).rely_refl _)
        (hsound _ _ _ _ _ hst (h.inv _) (h.idle hth))
  | event hth =>
      obtain ⟨hinv, hguar, hwp⟩ :=
        h.running hth _ ((L.env _).rely_refl _) (h.inv _)
      exact h.move hinv (fun j hj => L.compat _ j _ _ hj hguar) hwp
  | finish hth =>
      exact h.move (h.inv _) (fun j _ => (L.env j).rely_refl _)
        (h.running hth _ ((L.env _).rely_refl _) (h.inv _))

/-- Over every run of a sound system the invariant holds and every party is in
good order. -/
theorem Good.reach {init cfg : Config party} (hsound : L.Sound)
    (h : L.Good init) (hr : Reach init cfg) : L.Good cfg := by
  induction hr with
  | refl => exact h
  | tail _ hstep ih => exact ih.step hsound hstep

end Logic

end Sinew.Lib
