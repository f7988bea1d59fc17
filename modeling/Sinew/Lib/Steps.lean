import Mathlib.Data.List.TakeDrop

/-!
# The states along a sequence of calls

Where a run is a fold of a step over a list of calls, its states are the folds over
the first calls of the list. What one call preserves, in the state it meets, holds
in all of them.
-/

namespace Sinew.Lib

variable {α β : Type} {step : β → α → β} {start : β} {calls : List α} {n : Nat}

theorem foldl_take_succ {call : α} (h : calls[n]? = some call) :
    (calls.take (n + 1)).foldl step start = step ((calls.take n).foldl step start) call := by
  obtain ⟨hn, hcall⟩ := List.getElem?_eq_some_iff.mp h
  rw [List.take_succ_eq_append_getElem hn, List.foldl_append, hcall]
  rfl

theorem foldl_take_of_ge (h : calls.length ≤ n) :
    (calls.take (n + 1)).foldl step start = (calls.take n).foldl step start := by
  rw [List.take_of_length_le h, List.take_of_length_le (Nat.le_succ_of_le h)]

/-- The run lemma, up to the call `n`. -/
theorem foldl_take_invariant {I : β → Prop} (hstart : I start)
    (hstep : ∀ m < n, ∀ call, calls[m]? = some call → I ((calls.take m).foldl step start) →
      I (step ((calls.take m).foldl step start) call)) :
    I ((calls.take n).foldl step start) := by
  induction n with
  | zero => exact hstart
  | succ n ih =>
      have hn := ih fun m hm => hstep m (Nat.lt_succ_of_lt hm)
      rcases Nat.lt_or_ge n calls.length with hlt | hge
      · have hcall : calls[n]? = some calls[n] := List.getElem?_eq_getElem hlt
        rw [foldl_take_succ hcall]
        exact hstep n (Nat.lt_succ_self n) _ hcall hn
      · rw [foldl_take_of_ge hge]
        exact hn

section Answers

variable {A S T : Type} {next : S → α → Option (A × S)} {next' : T → α → Option (A × T)}
  {run : S → List α → Option (List A × S)} {run' : T → List α → Option (List A × T)}

/-- A run is its calls, one after the other, and their answers. A call that has no
answer is the end of it. -/
structure Runs (next : S → α → Option (A × S)) (run : S → List α → Option (List A × S)) :
    Prop where
  nil : ∀ s, run s [] = some ([], s)
  cons : ∀ s call calls, run s (call :: calls) = (next s call).bind fun x =>
    (run x.2 calls).bind fun y => some (x.1 :: y.1, y.2)

/-- What follows a specification call by call follows it through any run, and gives
the same answers. -/
theorem Runs.simulates (hrun : Runs next run) (hrun' : Runs next' run') {R : S → T → Prop}
    (hnext : ∀ s t call answer t', R s t → next' t call = some (answer, t') →
      ∃ s', next s call = some (answer, s') ∧ R s' t')
    {s : S} {t t' : T} {calls : List α} {answers : List A} (h : R s t)
    (hcalls : run' t calls = some (answers, t')) :
    ∃ s', run s calls = some (answers, s') ∧ R s' t' := by
  induction calls generalizing s t answers with
  | nil =>
      rw [hrun'.nil] at hcalls
      cases hcalls
      exact ⟨s, hrun.nil s, h⟩
  | cons call calls ih =>
      rw [hrun'.cons, Option.bind_eq_some_iff] at hcalls
      obtain ⟨⟨answer, t₁⟩, hcall, hcalls⟩ := hcalls
      obtain ⟨⟨rest, t₂⟩, hrest, heq⟩ := Option.bind_eq_some_iff.mp hcalls
      cases heq
      obtain ⟨s₁, hs₁, h₁⟩ := hnext s t call answer t₁ h hcall
      obtain ⟨s₂, hs₂, h₂⟩ := ih h₁ hrest
      exact ⟨s₂, by rw [hrun.cons, hs₁, Option.bind_some, hs₂, Option.bind_some], h₂⟩

end Answers

end Sinew.Lib
