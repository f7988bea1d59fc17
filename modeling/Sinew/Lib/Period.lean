import Mathlib.Data.Nat.Prime.Basic
import Mathlib.Dynamics.PeriodicPts.Defs
import Mathlib.Order.Interval.Finset.Nat
import Sinew.Lib.Lfsr

/-!
# How long a feedback register runs before it repeats

The clock is additive, so a register that starts at a word runs as a sum of the
runs from that word's bits, and every bit's run is the run from the top bit, some
clocks on. That makes the state after `a + b` clocks a product of the states
after `a` and after `b` (`iterate_add_unit`), and the state after any number of
clocks is reached by squaring: that a register comes round after `2 ^ n - 1`
clocks, and no sooner, takes some thousands of clocks to see.

A register that does so goes through every word but zero, whatever word it
starts from. So what one message bit leaves in it is what another bit leaves
exactly when the two are a multiple of `2 ^ n - 1` places apart.
-/

namespace Sinew.Lib.Lfsr

open Function

variable {n : Nat} {poly r : BitVec n}

/-- The top bit alone. -/
def unit : BitVec n := BitVec.twoPow n (n - 1)

/-- The sum of the runs from `x` that the low `k` bits of `w` ask for. -/
def times (poly w x : BitVec n) : Nat → BitVec n
  | 0 => 0#n
  | k + 1 => step poly (times poly w x k) ^^^ if w.getLsbD k then x else 0#n

/-- The state that `k` clocks lead to from the top bit, by squaring. -/
def power (poly : BitVec n) : Nat → Nat → BitVec n
  | 0, _ => unit
  | fuel + 1, k =>
      let half := power poly fuel (k / 2)
      let square := times poly half half n
      if k % 2 = 1 then step poly square else square

/-- A feedback word whose register comes round after `2 ^ n - 1` clocks, and no
sooner. -/
structure Primitive (poly : BitVec n) : Prop where
  msb : poly.msb = true
  period : minimalPeriod (step poly) unit = 2 ^ n - 1

theorem step_times (poly w x : BitVec n) (k : Nat) :
    step poly (times poly w x k) = times poly w (step poly x) k := by
  induction k with
  | zero => exact step_zero poly
  | succ k ih =>
      rw [times, times, step_xor, ih]
      split
      · rfl
      · rw [step_zero]

theorem iterate_step_times (poly w x : BitVec n) (k m : Nat) :
    (step poly)^[m] (times poly w x k) = times poly w ((step poly)^[m] x) k := by
  induction m generalizing x with
  | zero => rfl
  | succ m ih => rw [iterate_succ_apply, step_times, ih, iterate_succ_apply]

/-- The low `k` bits of a word, summed from the top bit, are those bits at the top. -/
theorem times_unit_shift (poly w : BitVec n) {k : Nat} (hk : k ≤ n) :
    times poly w unit k = w <<< (n - k) := by
  induction k with
  | zero => simp [times]
  | succ k ih =>
      have hlow : (w <<< (n - k)).getLsbD 0 = false := by
        rw [BitVec.getLsbD_shiftLeft, decide_eq_true (by omega : 0 < n - k)]
        simp
      have hstep : step poly (w <<< (n - k)) = (w <<< (n - k)) >>> 1 := by
        rw [step, hlow, if_neg Bool.false_ne_true]
      rw [times, ih (by omega), hstep]
      apply BitVec.eq_of_getLsbD_eq
      intro i hi
      rw [BitVec.getLsbD_xor, BitVec.getLsbD_ushiftRight, BitVec.getLsbD_shiftLeft,
        BitVec.getLsbD_shiftLeft]
      -- Only the place at the top is new.
      rcases Nat.lt_or_ge (1 + i) n with hin | hin
      · have htop : (if w.getLsbD k then unit else 0#n : BitVec n).getLsbD i = false := by
          split
          · rw [unit, BitVec.getLsbD_twoPow]
            simp
            omega
          · exact BitVec.getLsbD_zero
        rw [htop, Bool.xor_false, decide_eq_true hin, decide_eq_true hi,
          show 1 + i - (n - k) = i - (n - (k + 1)) by omega]
        congr 2
        exact congrArg _ (decide_eq_decide.mpr (by omega))
      · have hlast : i = n - 1 := by omega
        subst hlast
        have htop : (if w.getLsbD k then unit else 0#n : BitVec n).getLsbD (n - 1) =
            w.getLsbD k := by
          cases w.getLsbD k
          · exact BitVec.getLsbD_zero
          · rw [if_pos rfl, unit, BitVec.getLsbD_twoPow]
            simp
            omega
        rw [htop, decide_eq_false (by omega : ¬ 1 + (n - 1) < n), decide_eq_true hi,
          decide_eq_false (by omega : ¬ n - 1 < n - (k + 1)),
          show n - 1 - (n - (k + 1)) = k by omega]
        simp

theorem times_unit (poly w : BitVec n) : times poly w unit n = w := by
  rw [times_unit_shift poly w (Nat.le_refl n), Nat.sub_self, BitVec.shiftLeft_zero]

theorem iterate_add_unit (poly : BitVec n) (a b : Nat) :
    (step poly)^[a + b] unit =
      times poly ((step poly)^[a] unit) ((step poly)^[b] unit) n := by
  rw [← iterate_step_times, times_unit, ← iterate_add_apply, Nat.add_comm]

theorem power_eq (poly : BitVec n) {fuel k : Nat} (hk : k < 2 ^ fuel) :
    power poly fuel k = (step poly)^[k] unit := by
  induction fuel generalizing k with
  | zero =>
      obtain rfl : k = 0 := by omega
      rfl
  | succ fuel ih =>
      have hhalf : k / 2 < 2 ^ fuel := by
        rw [pow_succ] at hk
        omega
      rw [power, ih hhalf, ← iterate_add_unit]
      split
      · next hodd =>
          rw [← iterate_succ_apply' (step poly), show (k / 2 + k / 2).succ = k by omega]
      · next heven => rw [show k / 2 + k / 2 = k by omega]

/-- A point that comes round after `N` steps, and after none of the proper parts
of `N` that leave out one prime factor, has the period `N`. -/
theorem minimalPeriod_eq_of_div_prime {α : Type*} {f : α → α} {x : α} {N : Nat}
    (hN : IsPeriodicPt f N x)
    (hdiv : ∀ p, p.Prime → p ∣ N → ¬ IsPeriodicPt f (N / p) x) :
    minimalPeriod f x = N := by
  obtain ⟨a, ha⟩ := hN.minimalPeriod_dvd
  by_contra hne
  have ha1 : a ≠ 1 := fun h => hne (by rw [ha, h, mul_one])
  obtain ⟨b, hb⟩ := a.minFac_dvd
  have hfac : N = a.minFac * (minimalPeriod f x * b) := by
    rw [ha]
    conv => lhs; rw [hb]
    exact Nat.mul_left_comm _ _ _
  refine hdiv a.minFac (Nat.minFac_prime ha1) ⟨_, hfac⟩ ?_
  rw [hfac, Nat.mul_div_cancel_left _ a.minFac_pos]
  exact (isPeriodicPt_minimalPeriod f x).mul_const b

theorem unit_ne_zero (hn : 0 < n) : (unit : BitVec n) ≠ 0#n := by
  intro h
  have htop := congrArg (fun x : BitVec n => x.getLsbD (n - 1)) h
  simp only [unit, BitVec.getLsbD_twoPow, BitVec.getLsbD_zero] at htop
  simp at htop
  omega

theorem pos_of_msb (hp : poly.msb = true) : 0 < n := by
  rcases Nat.eq_zero_or_pos n with h | h
  · subst h
    rw [BitVec.eq_nil poly] at hp
    exact absurd hp (by decide)
  · exact h

theorem step_injective (hp : poly.msb = true) : Injective (step poly) :=
  fun _ _ h => step_inj hp h

theorem toNat_mem_Ico (hr : r ≠ 0#n) : r.toNat ∈ Finset.Ico 1 (2 ^ n) := by
  refine Finset.mem_Ico.mpr ⟨Nat.one_le_iff_ne_zero.mpr fun hz => hr ?_, r.isLt⟩
  exact BitVec.eq_of_toNat_eq (by rw [hz]; simp)

/-- There are no more words than a primitive register goes through. -/
theorem Primitive.exists_iterate (h : Primitive poly) (hr : r ≠ 0#n) :
    ∃ k, (step poly)^[k] unit = r := by
  have hn := pos_of_msb h.msb
  have hmaps : Set.MapsTo (fun k => ((step poly)^[k] unit).toNat)
      (Finset.range (2 ^ n - 1)) (Finset.Ico 1 (2 ^ n)) := by
    intro k _
    have hne := iterate_step_ne_zero h.msb (unit_ne_zero hn) k
    exact Finset.mem_coe.mpr (toNat_mem_Ico hne)
  have hinj : Set.InjOn (fun k => ((step poly)^[k] unit).toNat)
      (Finset.range (2 ^ n - 1)) := by
    intro a ha b hb heq
    rw [Finset.mem_coe, Finset.mem_range, ← h.period] at ha hb
    exact iterate_injOn_Iio_minimalPeriod ha hb (BitVec.eq_of_toNat_eq heq)
  obtain ⟨k, _, hk⟩ := Finset.surjOn_of_injOn_of_card_le _ hmaps hinj (by simp)
    (Finset.mem_coe.mpr (toNat_mem_Ico hr))
  exact ⟨k, BitVec.eq_of_toNat_eq hk⟩

/-- Every word but zero comes round when the top bit does. -/
theorem Primitive.iterate_eq_self_iff (h : Primitive poly) (hr : r ≠ 0#n) (k : Nat) :
    (step poly)^[k] r = r ↔ 2 ^ n - 1 ∣ k := by
  obtain ⟨j, rfl⟩ := h.exists_iterate hr
  rw [← iterate_add_apply, Nat.add_comm, iterate_add_apply,
    ((step_injective h.msb).iterate j).eq_iff, ← h.period]
  exact isPeriodicPt_iff_minimalPeriod_dvd

/-! ## Two bits -/

/-- `xs` and `ys` differ in the places `p` and `q` and in no others. -/
def DifferAt (p q : Nat) (xs ys : List Bool) : Prop :=
  ∀ i, xs[i]? ≠ ys[i]? ↔ i = p ∨ i = q

theorem DifferAt.of_lt {p q : Nat} {xs ys : List Bool} (k : Nat)
    (hlen : xs.length = k ∧ ys.length = k) (hlt : p < k ∧ q < k)
    (h : ∀ i < k, xs[i]? ≠ ys[i]? ↔ i = p ∨ i = q) : DifferAt p q xs ys := by
  intro i
  rcases Nat.lt_or_ge i k with hi | hi
  · exact h i hi
  · rw [List.getElem?_eq_none (by omega), List.getElem?_eq_none (by omega)]
    exact iff_of_false (not_not.mpr rfl) (by omega)

theorem differAt_append (common : List Bool) {p q : Nat} {xs ys : List Bool} :
    DifferAt (common.length + p) (common.length + q) (common ++ xs) (common ++ ys) ↔
      DifferAt p q xs ys := by
  constructor
  · intro h i
    have hi := h (common.length + i)
    rw [List.getElem?_append_right (by omega), List.getElem?_append_right (by omega),
      Nat.add_sub_cancel_left] at hi
    rw [hi]
    omega
  · intro h i
    rcases Nat.lt_or_ge i common.length with hi | hi
    · rw [List.getElem?_append_left hi, List.getElem?_append_left hi]
      exact iff_of_false (not_not.mpr rfl) (by omega)
    · rw [List.getElem?_append_right hi, List.getElem?_append_right hi, h]
      omega

theorem feed_two (poly : BitVec n) (p d m : Nat) :
    feed poly 0#n (List.replicate p false ++
        true :: (List.replicate d false ++ true :: List.replicate m false)) =
      (step poly)^[m + 1] ((step poly)^[d + 1] (bit true) ^^^ bit true) := by
  have hzero : (step poly)^[p] 0#n = 0#n := iterate_fixed (step_zero poly) p
  rw [feed_append, feed_replicate_false, hzero, feed_cons, BitVec.zero_xor, feed_append,
    feed_replicate_false, feed_cons, feed_replicate_false]
  rfl

theorem DifferAt.zipWith_eq {p q : Nat} {xs ys : List Bool} (h : DifferAt p q xs ys)
    (hlen : xs.length = ys.length) (hpq : p < q) :
    ∃ m, List.zipWith xor xs ys = List.replicate p false ++
      true :: (List.replicate (q - p - 1) false ++ true :: List.replicate m false) := by
  have hq : q < xs.length := by
    by_contra hge
    refine (h q).mpr (.inr rfl) ?_
    rw [List.getElem?_eq_none (by omega), List.getElem?_eq_none (by omega)]
  refine ⟨xs.length - q - 1, List.ext_getElem (by simp; omega) fun i h1 h2 => ?_⟩
  have hx : i < xs.length := by simp at h1; omega
  have hi := h i
  rw [List.getElem?_eq_getElem hx, List.getElem?_eq_getElem (by omega), ne_eq,
    Option.some.injEq] at hi
  have hne : ∀ a b : Bool, (a ^^ b) = decide (¬ a = b) := by decide
  have hat : (xs[i] ^^ ys[i]) = decide (i = p ∨ i = q) :=
    (hne xs[i] ys[i]).trans (decide_eq_decide.mpr hi)
  rw [List.getElem_zipWith, hat]
  grind

/-- **Two bits**: messages of one length that differ in two places leave the same
word exactly when the places are a multiple of the period apart. -/
theorem Primitive.feed_eq_iff (h : Primitive poly) {p q : Nat} {xs ys : List Bool}
    (hlen : xs.length = ys.length) (hpq : p < q) (hdiff : DifferAt p q xs ys) :
    feed poly r xs = feed poly r ys ↔ 2 ^ n - 1 ∣ q - p := by
  have hn := pos_of_msb h.msb
  have hbit : (bit true : BitVec n) ≠ 0#n := by
    intro hz
    have := congrArg BitVec.toNat hz
    simp [bit] at this
    omega
  obtain ⟨m, hzip⟩ := hdiff.zipWith_eq hlen hpq
  have hxor := feed_xor poly r r xs ys hlen
  rw [BitVec.xor_self, hzip, feed_two, show q - p - 1 + 1 = q - p by omega] at hxor
  rw [← BitVec.xor_eq_zero_iff, ← hxor, ← h.iterate_eq_self_iff hbit (q - p),
    ← BitVec.xor_eq_zero_iff (x := (step poly)^[q - p] (bit true))]
  constructor
  · intro hzero
    by_contra hne
    exact iterate_step_ne_zero h.msb hne (m + 1) hzero
  · intro hzero
    rw [hzero]
    exact iterate_fixed (step_zero poly) (m + 1)

end Sinew.Lib.Lfsr
