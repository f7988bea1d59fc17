import Mathlib.Logic.Function.Iterate
import Mathlib.Tactic.Common

/-!
# Linear feedback registers and the bursts they detect

A register of `n` bits is clocked by shifting it one place towards its low
end and adding the feedback word when a one falls out; a message is fed in
one bit at a time, added to the low end before each clock. Two facts carry
everything a checksum needs. The clock is additive over exclusive or, so what
two messages do to the register differs by what their difference does to it;
and when the feedback word has its top bit set the clock loses nothing, so a
difference in the register never dies out.

Between them they give burst detection. Feeding up to `n` bits is the same as
adding them all at once and then clocking (`feed_eq_iterate`), so a difference
confined to `n` consecutive bits enters the register as a non-zero word and
leaves it non-zero, however long the message goes on.
-/

namespace Sinew.Lib.Lfsr

variable {n : Nat}

/-- One clock of the register under the feedback word `poly`. -/
def step (poly r : BitVec n) : BitVec n :=
  if r.getLsbD 0 then (r >>> 1) ^^^ poly else r >>> 1

/-- One message bit as a register word, at the low end. -/
def bit (b : Bool) : BitVec n := if b then 1#n else 0#n

/-- Feeding a message: each bit is added at the low end, then one clock. -/
def feed (poly : BitVec n) : BitVec n → List Bool → BitVec n
  | r, [] => r
  | r, b :: bs => feed poly (step poly (r ^^^ bit b)) bs

/-- A list of bits as a register word, the first bit at the low end. -/
def word : List Bool → BitVec n
  | [] => 0#n
  | b :: bs => (word bs <<< 1) ^^^ bit b

theorem step_xor (poly a b : BitVec n) :
    step poly (a ^^^ b) = step poly a ^^^ step poly b := by
  unfold step
  rw [BitVec.getLsbD_xor, BitVec.ushiftRight_xor_distrib]
  cases a.getLsbD 0 <;> cases b.getLsbD 0
  · rfl
  · simp only [Bool.false_xor, Bool.false_eq_true, if_true, if_false]
    rw [BitVec.xor_assoc]
  · simp only [Bool.xor_false, Bool.false_eq_true, if_true, if_false]
    rw [BitVec.xor_assoc, BitVec.xor_comm (b >>> 1), BitVec.xor_assoc]
  · simp only [Bool.xor_self, Bool.false_eq_true, if_true, if_false]
    rw [BitVec.xor_comm (b >>> 1), BitVec.xor_assoc,
      ← BitVec.xor_assoc poly, BitVec.xor_self, BitVec.zero_xor]

theorem step_zero (poly : BitVec n) : step poly 0#n = 0#n := by
  simp [step]

/-- Nothing but zero clocks to zero: a one that falls out puts the feedback
word's top bit in a place the shift has just cleared. -/
theorem step_ne_zero {poly r : BitVec n} (hp : poly.msb = true) (hr : r ≠ 0#n) :
    step poly r ≠ 0#n := by
  unfold step
  split
  · next hlow =>
      intro h
      have htop : ((r >>> 1) ^^^ poly).msb = false := by rw [h]; simp
      have hshift : (r >>> 1).msb = false := by
        rw [BitVec.msb_eq_getLsbD_last, BitVec.getLsbD_ushiftRight]
        exact BitVec.getLsbD_of_ge r _ (by omega)
      rw [BitVec.msb_xor, hshift, hp] at htop
      exact Bool.noConfusion htop
  · next hlow =>
      intro h
      refine hr (BitVec.eq_of_getLsbD_eq fun i hi => ?_)
      rw [BitVec.getLsbD_zero]
      cases i with
      | zero => simpa using hlow
      | succ j =>
          have := congrArg (fun x : BitVec n => x.getLsbD j) h
          simpa [Nat.add_comm] using this

theorem iterate_step_xor (poly a b : BitVec n) (k : Nat) :
    (step poly)^[k] (a ^^^ b) = (step poly)^[k] a ^^^ (step poly)^[k] b := by
  induction k generalizing a b with
  | zero => rfl
  | succ k ih => simp only [Function.iterate_succ_apply, step_xor, ih]

theorem iterate_step_ne_zero {poly r : BitVec n} (hp : poly.msb = true)
    (hr : r ≠ 0#n) (k : Nat) : (step poly)^[k] r ≠ 0#n := by
  induction k generalizing r with
  | zero => exact hr
  | succ k ih =>
      rw [Function.iterate_succ_apply]
      exact ih (step_ne_zero hp hr)

theorem step_inj {poly r s : BitVec n} (hp : poly.msb = true)
    (h : step poly r = step poly s) : r = s := by
  by_contra hne
  have hdiff : r ^^^ s ≠ 0#n := fun heq => hne (BitVec.xor_eq_zero_iff.mp heq)
  refine step_ne_zero hp hdiff ?_
  rw [step_xor, h, BitVec.xor_self]

/-- Shifting a word up and clocking gives the word back, as long as its top
bit was clear: no one falls out, so the feedback word stays out of it. -/
theorem step_shiftLeft {poly x : BitVec n} (hx : x.msb = false) :
    step poly (x <<< 1) = x := by
  have hlow : (x <<< 1).getLsbD 0 = false := by simp
  unfold step
  rw [hlow, if_neg (by simp)]
  apply BitVec.eq_of_getLsbD_eq
  intro i hi
  rw [BitVec.getLsbD_ushiftRight, BitVec.getLsbD_shiftLeft]
  rcases Nat.lt_or_ge (1 + i) n with h | h
  · simp [h]
  · have hi' : i = n - 1 := by omega
    subst hi'
    rw [BitVec.msb_eq_getLsbD_last] at hx
    simp [hx, show ¬ 1 + (n - 1) < n by omega]

theorem iterate_step_shiftRight {poly x : BitVec n} (k : Nat)
    (hx : ∀ i < k, x.getLsbD i = false) : (step poly)^[k] x = x >>> k := by
  induction k generalizing x with
  | zero => simp
  | succ k ih =>
      have hone : step poly x = x >>> 1 := by
        unfold step
        rw [hx 0 (by omega), if_neg (by simp)]
      rw [Function.iterate_succ_apply, hone, ih, Nat.add_comm k 1,
        BitVec.shiftRight_add]
      intro i hi
      rw [BitVec.getLsbD_ushiftRight]
      exact hx (1 + i) (by omega)

@[simp] theorem feed_nil (poly r : BitVec n) : feed poly r [] = r := rfl

@[simp] theorem feed_cons (poly r : BitVec n) (b : Bool) (bs : List Bool) :
    feed poly r (b :: bs) = feed poly (step poly (r ^^^ bit b)) bs := rfl

theorem feed_append (poly r : BitVec n) (xs ys : List Bool) :
    feed poly r (xs ++ ys) = feed poly (feed poly r xs) ys := by
  induction xs generalizing r with
  | nil => rfl
  | cons b bs ih => simp only [List.cons_append, feed_cons, ih]

theorem feed_inj {poly r s : BitVec n} (hp : poly.msb = true) {bs : List Bool}
    (h : feed poly r bs = feed poly s bs) : r = s := by
  induction bs generalizing r s with
  | nil => exact h
  | cons b bs ih =>
      have hxor := step_inj hp (ih h)
      exact (BitVec.xor_left_inj (bit b)).mp hxor

theorem bit_xor (a b : Bool) : (bit (a ^^ b) : BitVec n) = bit a ^^^ bit b := by
  cases a <;> cases b <;> simp [bit]

/-- What two messages of one length do to two registers differs by what the
difference of the messages does to the difference of the registers. -/
theorem feed_xor (poly r s : BitVec n) :
    ∀ (xs ys : List Bool), xs.length = ys.length →
      feed poly (r ^^^ s) (List.zipWith xor xs ys) =
        feed poly r xs ^^^ feed poly s ys := by
  intro xs
  induction xs generalizing r s with
  | nil =>
      intro ys h
      cases ys with
      | nil => rfl
      | cons y ys => simp at h
  | cons x xs ih =>
      intro ys h
      cases ys with
      | nil => simp at h
      | cons y ys =>
          have hlen : xs.length = ys.length := by simpa using h
          simp only [List.zipWith_cons_cons, feed_cons]
          rw [← ih _ _ ys hlen, ← step_xor, bit_xor]
          congr 2
          ac_rfl

theorem feed_replicate_false (poly r : BitVec n) (k : Nat) :
    feed poly r (List.replicate k false) = (step poly)^[k] r := by
  induction k generalizing r with
  | zero => rfl
  | succ k ih =>
      rw [List.replicate_succ, feed_cons, ih, Function.iterate_succ_apply]
      simp [bit]

theorem getLsbD_word (bs : List Bool) (i : Nat) :
    (word bs : BitVec n).getLsbD i = (decide (i < n) && bs.getD i false) := by
  induction bs generalizing i with
  | nil => simp [word]
  | cons b bs ih =>
      rw [word, BitVec.getLsbD_xor, BitVec.getLsbD_shiftLeft]
      cases i with
      | zero => cases b <;> simp [bit, BitVec.getLsbD_one]
      | succ j =>
          rw [Nat.add_sub_cancel, ih]
          cases b <;> by_cases hj : j + 1 < n <;>
            simp [bit, BitVec.getLsbD_one, hj, show j + 1 < n → j < n by omega]

theorem msb_word {bs : List Bool} (h : bs.length < n) :
    (word bs : BitVec n).msb = false := by
  rw [BitVec.msb_eq_getLsbD_last, getLsbD_word]
  rw [List.getD_eq_getElem?_getD, List.getElem?_eq_none (by omega)]
  simp

/-- Feeding no more bits than the register holds is adding them as one word
and then clocking once for each. -/
theorem feed_eq_iterate (poly : BitVec n) :
    ∀ (bs : List Bool) (r : BitVec n), bs.length ≤ n →
      feed poly r bs = (step poly)^[bs.length] (r ^^^ word bs) := by
  intro bs
  induction bs with
  | nil => intro r _; simp [word]
  | cons b bs ih =>
      intro r h
      have hlt : bs.length < n := by rw [List.length_cons] at h; omega
      rw [feed_cons, ih _ (by omega), List.length_cons,
        Function.iterate_succ_apply]
      have hsplit : r ^^^ word (b :: bs) = (r ^^^ bit b) ^^^ (word bs <<< 1) := by
        rw [word]; ac_rfl
      rw [hsplit, step_xor poly (r ^^^ bit b), step_shiftLeft (msb_word hlt)]

theorem word_ne_zero {bs : List Bool} (h : bs.length ≤ n) (ht : true ∈ bs) :
    (word bs : BitVec n) ≠ 0#n := by
  obtain ⟨i, hi, hb⟩ := List.mem_iff_getElem.mp ht
  intro hz
  have := congrArg (fun x : BitVec n => x.getLsbD i) hz
  simp only [getLsbD_word, BitVec.getLsbD_zero] at this
  rw [List.getD_eq_getElem?_getD, List.getElem?_eq_getElem hi, hb] at this
  simp at this
  omega

/-! ## Bursts -/

theorem eq_replicate_false {bs : List Bool} (h : true ∉ bs) :
    bs = List.replicate bs.length false := by
  refine List.eq_replicate_iff.mpr ⟨rfl, fun b hb => ?_⟩
  cases b with
  | false => rfl
  | true => exact absurd hb h

/-- A message that is false outside `n` consecutive places, and not inside
them, leaves its mark on the register. -/
theorem feed_burst_ne_zero {poly : BitVec n} (hp : poly.msb = true)
    {pre w post : List Bool} (hpre : true ∉ pre) (hw : w.length ≤ n)
    (ht : true ∈ w) (hpost : true ∉ post) :
    feed poly 0#n (pre ++ w ++ post) ≠ 0#n := by
  have hzero : ∀ k, (step poly)^[k] 0#n = 0#n := by
    intro k
    induction k with
    | zero => rfl
    | succ k ih => rw [Function.iterate_succ_apply, step_zero, ih]
  rw [feed_append, feed_append, eq_replicate_false hpre,
    feed_replicate_false, hzero, feed_eq_iterate poly w _ hw,
    eq_replicate_false hpost, feed_replicate_false, BitVec.zero_xor]
  exact iterate_step_ne_zero hp (iterate_step_ne_zero hp (word_ne_zero hw ht) _) _

/-- Burst detection: two different messages of one length that agree outside
`n` consecutive places leave the register in different states. -/
theorem feed_ne_of_burst {poly r : BitVec n} (hp : poly.msb = true)
    {xs ys : List Bool} (hlen : xs.length = ys.length) (hne : xs ≠ ys)
    (s : Nat) (hwin : ∀ i, xs[i]? ≠ ys[i]? → s ≤ i ∧ i < s + n) :
    feed poly r xs ≠ feed poly r ys := by
  have hagree : ∀ i, (List.zipWith xor xs ys)[i]? = some true → s ≤ i ∧ i < s + n := by
    intro i hi
    refine hwin i fun heq => ?_
    rw [List.getElem?_zipWith, heq] at hi
    cases hy : ys[i]? <;> rw [hy] at hi <;> simp at hi
  have htrue : true ∈ List.zipWith xor xs ys := by
    by_contra hno
    refine hne (List.ext_getElem hlen fun i h1 h2 => ?_)
    have hz : i < (List.zipWith xor xs ys).length := by simp; omega
    have hf : (List.zipWith xor xs ys)[i] = false := by
      cases hb : (List.zipWith xor xs ys)[i] with
      | false => rfl
      | true => exact absurd (hb ▸ List.getElem_mem hz) hno
    rw [List.getElem_zipWith] at hf
    simpa using hf
  -- The difference, cut at the two ends of the window.
  have hcut : List.zipWith xor xs ys =
      (List.zipWith xor xs ys).take s ++ ((List.zipWith xor xs ys).drop s).take n ++
        (List.zipWith xor xs ys).drop (s + n) := by
    rw [List.append_assoc, ← List.drop_drop, List.take_append_drop,
      List.take_append_drop]
  have hpre : true ∉ (List.zipWith xor xs ys).take s := by
    intro h
    obtain ⟨i, hi⟩ := List.mem_iff_getElem?.mp h
    rw [List.getElem?_take] at hi
    split at hi
    · have := (hagree i hi).1; omega
    · cases hi
  have hpost : true ∉ (List.zipWith xor xs ys).drop (s + n) := by
    intro h
    obtain ⟨i, hi⟩ := List.mem_iff_getElem?.mp h
    rw [List.getElem?_drop] at hi
    have := (hagree _ hi).2
    omega
  have hmid : true ∈ ((List.zipWith xor xs ys).drop s).take n := by
    rw [hcut] at htrue
    simp only [List.mem_append] at htrue
    rcases htrue with (h | h) | h
    · exact absurd h hpre
    · exact h
    · exact absurd h hpost
  intro heq
  have hdiff := feed_xor poly r r xs ys hlen
  rw [heq, BitVec.xor_self, BitVec.xor_self, hcut] at hdiff
  have hwidth := List.length_take_le n ((List.zipWith xor xs ys).drop s)
  exact feed_burst_ne_zero hp hpre hwidth hmid hpost hdiff

end Sinew.Lib.Lfsr
