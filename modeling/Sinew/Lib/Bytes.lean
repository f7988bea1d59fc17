import Mathlib.Tactic.Common
import Mathlib.Tactic.Ring
import Mathlib.Data.List.Basic

/-!
# Integers as bytes, bytes as bits

`leBytes n v` is the low `n` bytes of `v`, least significant first, and
`ofLeBytes` reads them back; the two are inverse on what fits. A byte order
turns them into what a host keeps in memory: the same bytes, or the same bytes
reversed.

`bits` spells a byte string out as bits, least significant first within each
byte, which is the order a reflected checksum consumes them in.
-/

namespace Sinew.Lib

/-- The order in which a host keeps the bytes of an integer. -/
inductive Endian where
  | little
  | big
  deriving DecidableEq, Repr

def leBytes : Nat → Nat → List UInt8
  | 0, _ => []
  | n + 1, v => UInt8.ofNat v :: leBytes n (v / 256)

def ofLeBytes : List UInt8 → Nat
  | [] => 0
  | b :: bs => b.toNat + 256 * ofLeBytes bs

@[simp] theorem leBytes_length (n v : Nat) : (leBytes n v).length = n := by
  induction n generalizing v with
  | zero => rfl
  | succ n ih => rw [leBytes, List.length_cons, ih]

theorem ofLeBytes_lt (bs : List UInt8) : ofLeBytes bs < 256 ^ bs.length := by
  induction bs with
  | nil => exact Nat.one_pos
  | cons b bs ih =>
      have hb : b.toNat < 256 := b.toNat_lt
      rw [ofLeBytes, List.length_cons, Nat.pow_succ]
      omega

theorem ofLeBytes_leBytes {n v : Nat} (h : v < 256 ^ n) :
    ofLeBytes (leBytes n v) = v := by
  induction n generalizing v with
  | zero => rw [Nat.pow_zero] at h; rw [leBytes, ofLeBytes]; omega
  | succ n ih =>
      have hdiv : v / 256 < 256 ^ n := by
        rw [Nat.pow_succ] at h
        exact Nat.div_lt_of_lt_mul (by omega)
      rw [leBytes, ofLeBytes, ih hdiv, UInt8.toNat_ofNat']
      omega

theorem leBytes_ofLeBytes (bs : List UInt8) :
    leBytes bs.length (ofLeBytes bs) = bs := by
  induction bs with
  | nil => rfl
  | cons b bs ih =>
      have hb : b.toNat < 256 := b.toNat_lt
      have hhead : UInt8.ofNat (b.toNat + 256 * ofLeBytes bs) = b := by
        apply UInt8.toNat_inj.mp
        rw [UInt8.toNat_ofNat']
        omega
      have htail : (b.toNat + 256 * ofLeBytes bs) / 256 = ofLeBytes bs := by omega
      rw [List.length_cons, ofLeBytes, leBytes, hhead, htail, ih]

namespace Endian

/-- The `n` bytes of `v` as a host of this byte order keeps them. -/
def bytes : Endian → Nat → Nat → List UInt8
  | .little, n, v => leBytes n v
  | .big, n, v => (leBytes n v).reverse

/-- The integer a host of this byte order reads in these bytes. -/
def word : Endian → List UInt8 → Nat
  | .little, bs => ofLeBytes bs
  | .big, bs => ofLeBytes bs.reverse

@[simp] theorem bytes_length (e : Endian) (n v : Nat) :
    (e.bytes n v).length = n := by
  cases e <;> simp [bytes]

theorem word_lt (e : Endian) (bs : List UInt8) : e.word bs < 256 ^ bs.length := by
  cases e with
  | little => exact ofLeBytes_lt bs
  | big => simpa [word] using ofLeBytes_lt bs.reverse

theorem word_bytes (e : Endian) {n v : Nat} (h : v < 256 ^ n) :
    e.word (e.bytes n v) = v := by
  cases e <;> simp [word, bytes, ofLeBytes_leBytes h]

theorem bytes_word (e : Endian) (bs : List UInt8) :
    e.bytes bs.length (e.word bs) = bs := by
  cases e with
  | little => exact leBytes_ofLeBytes bs
  | big =>
      have := leBytes_ofLeBytes bs.reverse
      rw [List.length_reverse] at this
      rw [bytes, word, this, List.reverse_reverse]

theorem word_reverse (bs : List UInt8) :
    Endian.big.word bs.reverse = Endian.little.word bs := by
  simp [word]

theorem word_inj (e : Endian) {xs ys : List UInt8} (hlen : xs.length = ys.length)
    (h : e.word xs = e.word ys) : xs = ys := by
  rw [← e.bytes_word xs, ← e.bytes_word ys, hlen, h]

/-- The two orders agree on a string exactly when it reads the same backwards. -/
theorem little_word_eq_big (bs : List UInt8) :
    Endian.little.word bs = Endian.big.word bs ↔ bs.reverse = bs := by
  constructor
  · intro h
    exact (word_inj .little (by simp) h).symm
  · intro h
    rw [← word_reverse, h]

end Endian

/-! ## Bits -/

/-- The eight bits of a byte, least significant first. -/
def byteBits (b : UInt8) : List Bool := (List.range 8).map b.toBitVec.getLsbD

/-- A byte string as bits, in the order a reflected checksum takes them. -/
def bits (bs : List UInt8) : List Bool := bs.flatMap byteBits

@[simp] theorem byteBits_length (b : UInt8) : (byteBits b).length = 8 := rfl

theorem byteBits_inj {a b : UInt8} (h : byteBits a = byteBits b) : a = b := by
  apply UInt8.toBitVec_inj.mp
  apply BitVec.eq_of_getLsbD_eq
  intro i hi
  have := congrArg (fun l => l[i]?) h
  simpa [byteBits, hi] using this

@[simp] theorem bits_nil : bits [] = [] := rfl

@[simp] theorem bits_cons (b : UInt8) (bs : List UInt8) :
    bits (b :: bs) = byteBits b ++ bits bs := rfl

theorem bits_append (xs ys : List UInt8) : bits (xs ++ ys) = bits xs ++ bits ys :=
  List.flatMap_append

@[simp] theorem bits_length (bs : List UInt8) :
    (bits bs).length = 8 * bs.length := by
  induction bs with
  | nil => rfl
  | cons b bs ih =>
      rw [bits_cons, List.length_append, ih, byteBits_length, List.length_cons]
      omega

theorem bits_drop (bs : List UInt8) (k : Nat) :
    bits (bs.drop k) = (bits bs).drop (8 * k) := by
  induction k generalizing bs with
  | zero => rfl
  | succ k ih =>
      cases bs with
      | nil => simp
      | cons b bs =>
          have hpast : (byteBits b).drop (8 * (k + 1)) = [] :=
            List.drop_eq_nil_of_le (by rw [byteBits_length]; omega)
          rw [List.drop_succ_cons, ih, bits_cons, List.drop_append, hpast,
            List.nil_append, byteBits_length]
          congr 1

theorem bits_inj {xs ys : List UInt8} (hlen : xs.length = ys.length)
    (h : bits xs = bits ys) : xs = ys := by
  induction xs generalizing ys with
  | nil => exact (List.eq_nil_of_length_eq_zero hlen.symm).symm
  | cons x xs ih =>
      cases ys with
      | nil => simp at hlen
      | cons y ys =>
          obtain ⟨hb, hbs⟩ := List.append_inj h rfl
          rw [byteBits_inj hb, ih (by simpa using hlen) hbs]

theorem bits_getElem? (bs : List UInt8) {k j : Nat} (hj : j < 8) :
    (bits bs)[8 * k + j]? = bs[k]?.map fun b => b.toBitVec.getLsbD j := by
  induction bs generalizing k with
  | nil => simp
  | cons b bs ih =>
      cases k with
      | zero =>
          rw [bits_cons, List.getElem?_append_left (by simp; omega)]
          simp [byteBits, hj]
      | succ k =>
          rw [bits_cons, List.getElem?_append_right (by simp; omega),
            byteBits_length, List.getElem?_cons_succ, ← ih]
          congr 1
          omega

theorem exists_bit_ne {xs ys : List UInt8} {k : Nat} (h : xs[k]? ≠ ys[k]?) :
    ∃ j < 8, (bits xs)[8 * k + j]? ≠ (bits ys)[8 * k + j]? := by
  by_contra hno
  push Not at hno
  refine h ?_
  have hbit : ∀ j < 8, (xs[k]?.map fun b => b.toBitVec.getLsbD j) =
      ys[k]?.map fun b => b.toBitVec.getLsbD j := by
    intro j hj
    have := hno j hj
    rwa [bits_getElem? xs hj, bits_getElem? ys hj] at this
  cases hx : xs[k]? with
  | none =>
      cases hy : ys[k]? with
      | none => rfl
      | some y => have := hbit 0 (by omega); simp [hx, hy] at this
  | some x =>
      cases hy : ys[k]? with
      | none => have := hbit 0 (by omega); simp [hx, hy] at this
      | some y =>
          congr 1
          apply UInt8.toBitVec_inj.mp
          apply BitVec.eq_of_getLsbD_eq
          intro j hj
          have := hbit j hj
          simpa [hx, hy] using this

end Sinew.Lib
