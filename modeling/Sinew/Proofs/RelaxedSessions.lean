import Sinew.Proofs.RelaxedRuns

/-!
# The sessions among the runs of C++

A session in which all sides see one memory is what there is where no load is late. So
the weaker memory takes nothing away: every run of a session is a run there, with the
same calls in the same places, and the segment by what was stored last is the segment.
-/

namespace Sinew

open Lib

variable {L : Layout} {C : Type} {produce : Producer → Label → Code Producer → Prop}
  {consume : C → Label → Code C → Prop}

/-- A client's place in a call is the same on both machines. -/
def relaxedParties.thread : ∀ i, Thread (parties L produce consume i) →
    Thread (relaxedParties L produce consume i)
  | .producer, .idle c => .idle (P := relaxedParties L produce consume .producer) c
  | .producer, .running l p => .running (P := relaxedParties L produce consume .producer) l p
  | .consumer, .idle c => .idle (P := relaxedParties L produce consume .consumer) c
  | .consumer, .running l p => .running (P := relaxedParties L produce consume .consumer) l p

namespace Relaxed

/-- No load is late, and none has been. -/
structure Prompt (s : Relaxed) : Prop where
  bounded : s.mem.Bounded
  late : ∀ n, s.mem.late n = 0

theorem storeWord_latest (s : Relaxed) (i : Side) (l : Label) (p : Ptr) (v : Nat) :
    (exec L i l s (.storeWord p v)).2.latest = s.latest.storeWord L l.writes p.off v := by
  have hbyte : (s.latest.storeWord L l.writes p.off v).byte = s.mem.byte := by
    unfold Shared.storeWord
    split
    · split <;> rfl
    · split <;> rfl
  have hword : (s.latest.storeWord L l.writes p.off v).word =
      Function.update s.mem.newest p.off v := by
    unfold Shared.storeWord
    split
    · split <;> rfl
    · split <;> rfl
  have hseen : (s.latest.storeWord L l.writes p.off v).seen = s.seen := by
    unfold Shared.storeWord
    split
    · split <;> rfl
    · split <;> rfl
  refine shared_eq hbyte.symm ?_ rfl rfl hseen.symm
  rw [hword]
  exact Weak.newest_storeWord s.mem i p.off v

theorem Prompt.exec {s : Relaxed} (h : s.Prompt) (i : Side) (l : Label) (e : Ev) :
    (exec L i l s e).1 = (Shared.exec L l s.latest e).1 ∧
      (exec L i l s e).2.latest = (Shared.exec L l s.latest e).2 ∧
      (exec L i l s e).2.Prompt := by
  cases e with
  | load p => exact ⟨rfl, rfl, h.bounded.load i p.off, h.late⟩
  | store p b => exact ⟨rfl, rfl, h.bounded.store i p.off b, h.late⟩
  | loadWord p =>
      refine ⟨?_, rfl, h.bounded.loadWord i _ p.off, fun n => h.late (n + 1)⟩
      show s.mem.value p.off (s.mem.found i p.off) = s.mem.newest p.off
      rw [h.bounded.found (h.late 0)]
      rfl
  | storeWord p v =>
      exact ⟨rfl, storeWord_latest s i l p v, h.bounded.storeWord i p.off v, h.late⟩
  | _ => exact ⟨rfl, rfl, h.bounded, h.late⟩

/-- A run of the one machine follows one of the other. -/
structure Follows (cfg' : Config (relaxedParties L produce consume))
    (cfg : Config (parties L produce consume)) : Prop where
  prompt : cfg'.state.Prompt
  latest : cfg'.state.latest = cfg.state
  thread : ∀ i, cfg'.thread i = relaxedParties.thread i (cfg.thread i)

theorem thread_update {thread : ∀ i, Thread (parties L produce consume i)}
    {thread' : ∀ i, Thread (relaxedParties L produce consume i)}
    (h : ∀ i, thread' i = relaxedParties.thread i (thread i)) (i : Side)
    (t : Thread (parties L produce consume i)) (j : Side) :
    Function.update thread' i (relaxedParties.thread i t) j =
      relaxedParties.thread j (Function.update thread i t j) := by
  by_cases hj : j = i
  · subst hj
    rw [Function.update_self, Function.update_self]
  · rw [Function.update_of_ne hj, Function.update_of_ne hj, h]

theorem Follows.step {cfg₁ cfg₂ : Config (parties L produce consume)}
    {cfg' : Config (relaxedParties L produce consume)} (h : Follows cfg' cfg₁)
    (hstep : Step cfg₁ cfg₂) : ∃ cfg'', Step cfg' cfg'' ∧ Follows cfg'' cfg₂ := by
  cases hstep with
  | @start i c l p hidle hstart =>
      have hthread := h.thread i
      rw [hidle] at hthread
      refine ⟨⟨cfg'.state, Function.update cfg'.thread i
        (relaxedParties.thread i (.running l p))⟩, ?_, h.prompt, h.latest,
        thread_update h.thread i _⟩
      cases i with
      | producer => exact .start hthread hstart
      | consumer => exact .start hthread hstart
  | @event i l e k hrunning =>
      have hthread := h.thread i
      rw [hrunning] at hthread
      cases i with
      | producer =>
          obtain ⟨hans, hlatest, hprompt⟩ := h.prompt.exec .producer l e
          rw [h.latest] at hans hlatest
          have hnext : k ((relaxedParties L produce consume .producer).exec l cfg'.state e).1 =
              k ((parties L produce consume .producer).exec l cfg₁.state e).1 :=
            congrArg k hans
          refine ⟨_, .event hthread, hprompt, hlatest, fun j => ?_⟩
          dsimp only
          rw [hnext]
          exact thread_update h.thread .producer (.running l _) j
      | consumer =>
          obtain ⟨hans, hlatest, hprompt⟩ := h.prompt.exec .consumer l e
          rw [h.latest] at hans hlatest
          have hnext : k ((relaxedParties L produce consume .consumer).exec l cfg'.state e).1 =
              k ((parties L produce consume .consumer).exec l cfg₁.state e).1 :=
            congrArg k hans
          refine ⟨_, .event hthread, hprompt, hlatest, fun j => ?_⟩
          dsimp only
          rw [hnext]
          exact thread_update h.thread .consumer (.running l _) j
  | @finish i l c hrunning =>
      have hthread := h.thread i
      rw [hrunning] at hthread
      refine ⟨⟨cfg'.state, Function.update cfg'.thread i
        (relaxedParties.thread i (.idle c))⟩, ?_, h.prompt, h.latest,
        thread_update h.thread i _⟩
      cases i with
      | producer => exact .finish hthread
      | consumer => exact .finish hthread

end Relaxed

/-- Whatever the clients, what a session comes to it can also come to in the memory that
C++ promises, if no load is late. -/
theorem session_relaxed (L : Layout) {C : Type}
    (produce : Producer → Label → Code Producer → Prop) (consume : C → Label → Code C → Prop)
    (byte : Nat → UInt8) (p : Producer) (c : C) :
    ∀ cfg : Config (parties L produce consume),
      Reach ⟨{ byte := byte, word := fun _ => 0 }, parties.idle p c⟩ cfg →
      ∃ cfg' : Config (relaxedParties L produce consume),
        Reach ⟨{ mem := { byte := byte, late := fun _ => 0 } }, relaxedParties.idle p c⟩ cfg' ∧
        cfg'.state.latest = cfg.state ∧
        ∀ i, cfg'.thread i = relaxedParties.thread i (cfg.thread i) := by
  intro cfg hreach
  have hfollows : ∃ cfg' : Config (relaxedParties L produce consume),
      Reach ⟨{ mem := { byte := byte, late := fun _ => 0 } }, relaxedParties.idle p c⟩ cfg' ∧
      Relaxed.Follows cfg' cfg := by
    induction hreach with
    | refl =>
        refine ⟨_, .refl, ⟨.start byte _, fun _ => rfl⟩, rfl, fun i => ?_⟩
        cases i <;> rfl
    | tail _ hstep ih =>
        obtain ⟨cfg', hreach', h⟩ := ih
        obtain ⟨cfg'', hstep', h'⟩ := h.step hstep
        exact ⟨cfg'', hreach'.tail hstep', h'⟩
  obtain ⟨cfg', hreach', h⟩ := hfollows
  exact ⟨cfg', hreach', h.latest, h.thread⟩

end Sinew
