import Sinew.Lib.Cut
import Sinew.Model.Shm
import Sinew.Proofs.Checksum

/-!
# Which names the kernel cannot tell apart

A name with a slash in front is handed to the kernel as it is, or, if it has more
than 31 bytes, cut down to 22 of them and its checksum in hexadecimal. That is
always a name the kernel takes, and normalising it again changes nothing.

It is not always a name of its own. Two long names that begin alike become the
same if they have one checksum, and a long name becomes the same as the short
name that it is cut down to. These are all: `Confused` lists them.
-/

namespace Sinew

open Lib Polynomial

theorem hexDigit_inj {m n : Nat} (hm : m < 16) (hn : n < 16)
    (h : hexDigit m = hexDigit n) : m = n := by
  have hnat := congrArg UInt8.toNat h
  simp only [hexDigit, UInt8.toNat_ofNat'] at hnat
  split at hnat <;> split at hnat <;> omega

theorem mod_pow_of_digits {a b base k : Nat}
    (h : ∀ i < k, a / base ^ i % base = b / base ^ i % base) :
    a % base ^ k = b % base ^ k := by
  induction k with
  | zero => rw [Nat.pow_zero, Nat.mod_one, Nat.mod_one]
  | succ k ih =>
      rw [Nat.mod_pow_succ, Nat.mod_pow_succ, ih fun i hi => h i (Nat.lt_succ_of_lt hi),
        h k (Nat.lt_succ_self k)]

@[simp] theorem hex08_length (v : UInt32) : (hex08 v).length = 8 := by
  rw [hex08, List.length_map, List.length_range]

theorem hex08_inj {v w : UInt32} (h : hex08 v = hex08 w) : v = w := by
  have hdigits := List.map_inj_left.mp h
  have hmod : v.toNat % 16 ^ 8 = w.toNat % 16 ^ 8 := by
    refine mod_pow_of_digits fun i hi => ?_
    have hdigit := hdigits (7 - i) (List.mem_range.mpr (by omega))
    rw [show 7 - (7 - i) = i by omega] at hdigit
    exact hexDigit_inj (Nat.mod_lt _ (by decide)) (Nat.mod_lt _ (by decide)) hdigit
  have hv := v.toNat_lt
  have hw := w.toNat_lt
  exact UInt32.toNat_inj.mp (by omega)

def slashed (name : Name) : Name :=
  if name.head? = some slash then name else slash :: name

/-- 22 bytes, an underscore, and the checksum. -/
def posixCut : Cut UInt8 where
  limit := 31
  keep := 22
  tag s := 0x5F :: hex08 (crc32 s)
  fills s := by rw [List.length_cons, hex08_length]

theorem normalizePosixShmName_eq (name : Name) :
    normalizePosixShmName name = posixCut.apply (slashed name) := by
  unfold normalizePosixShmName
  simp only [List.append_assoc]
  rfl

theorem head?_slashed (name : Name) : (slashed name).head? = some slash := by
  unfold slashed
  split
  · next h => exact h
  · rfl

theorem slashed_of_head {name : Name} (h : name.head? = some slash) : slashed name = name :=
  if_pos h

theorem head?_normalize (name : Name) :
    (normalizePosixShmName name).head? = some slash := by
  have hkeep : 0 < posixCut.keep := by decide
  rw [normalizePosixShmName_eq, Cut.head?_apply hkeep, head?_slashed]

theorem length_normalize_le (name : Name) : (normalizePosixShmName name).length ≤ 31 := by
  rw [normalizePosixShmName_eq]
  exact Cut.length_apply_le

theorem normalize_normalize (name : Name) :
    normalizePosixShmName (normalizePosixShmName name) = normalizePosixShmName name := by
  rw [normalizePosixShmName_eq (normalizePosixShmName name),
    slashed_of_head (head?_normalize name), normalizePosixShmName_eq, Cut.apply_apply]

/-- What a long name is cut down to, by the definition of the checksum. -/
def cutDown (s : Name) : Name := s.take 22 ++ 0x5F :: hex08 (crc32Bitwise s)

/-- Two different names, slashes in front, that the kernel is given as one. -/
inductive Confused : Name → Name → Prop
  /-- Long names that begin alike, where the generator divides what they add up to. -/
  | long {s t : Name} (hne : s ≠ t) (hs : 31 < s.length) (ht : 31 < t.length)
      (hfront : s.take 22 = t.take 22)
      (hdvd : ieeeGenerator ∣
        X ^ (8 * s.length) * ones + X ^ 32 * Lfsr.message (bits s) +
          (X ^ (8 * t.length) * ones + X ^ 32 * Lfsr.message (bits t))) : Confused s t
  /-- A long name, and the short one that reads as if it had been cut down. -/
  | cutLeft {s t : Name} (hs : 31 < s.length) (ht : t = cutDown s) : Confused s t
  | cutRight {s t : Name} (ht : 31 < t.length) (hs : s = cutDown t) : Confused s t

theorem cutDown_eq (s : Name) : cutDown s = s.take posixCut.keep ++ posixCut.tag s := by
  rw [cutDown, ← crc32_eq_bitwise]
  rfl

theorem length_cutDown {s : Name} (hs : 31 < s.length) : (cutDown s).length = 31 := by
  rw [cutDown_eq, ← Cut.apply_of_lt hs]
  exact Cut.length_apply_of_lt hs

theorem tag_eq_iff {s t : Name} : posixCut.tag s = posixCut.tag t ↔ crc32 s = crc32 t := by
  constructor
  · intro h
    exact hex08_inj (List.cons.inj h).2
  · intro h
    exact congrArg (0x5F :: hex08 ·) h

theorem Confused.length_le {s t : Name} (h : Confused s t) :
    31 ≤ s.length ∧ 31 ≤ t.length := by
  cases h with
  | long hne hs ht => exact ⟨Nat.le_of_lt hs, Nat.le_of_lt ht⟩
  | cutLeft hs ht => exact ⟨Nat.le_of_lt hs, by rw [ht, length_cutDown hs]⟩
  | cutRight ht hs => exact ⟨by rw [hs, length_cutDown ht], Nat.le_of_lt ht⟩

theorem length_ne_of_cutDown {s t : Name} (hs : 31 < s.length) (ht : t = cutDown s) :
    s.length ≠ t.length := by
  rw [ht, length_cutDown hs]
  exact Nat.ne_of_gt hs

theorem Confused.ne {s t : Name} (h : Confused s t) : s ≠ t := by
  intro heq
  cases h with
  | long hne => exact hne heq
  | cutLeft hs ht => exact length_ne_of_cutDown hs ht (congrArg List.length heq)
  | cutRight ht hs => exact length_ne_of_cutDown ht hs (congrArg List.length heq.symm)

theorem apply_eq_iff (s t : Name) :
    posixCut.apply s = posixCut.apply t ↔ s = t ∨ Confused s t := by
  constructor
  · intro h
    rcases Nat.lt_or_ge 31 s.length with hs | hs <;>
      rcases Nat.lt_or_ge 31 t.length with ht | ht
    · by_cases hne : s = t
      · exact .inl hne
      · obtain ⟨hfront, htag⟩ := (Cut.apply_eq_iff_of_lt hs ht).mp h
        exact .inr (.long hne hs ht hfront ((crc32_eq_iff s t).mp (tag_eq_iff.mp htag)))
    · have hcut := (Cut.apply_eq_iff_of_lt_of_le hs ht).mp h
      exact .inr (.cutLeft hs (hcut.trans (cutDown_eq s).symm))
    · have hcut := (Cut.apply_eq_iff_of_lt_of_le ht hs).mp h.symm
      exact .inr (.cutRight ht (hcut.trans (cutDown_eq t).symm))
    · exact .inl ((Cut.apply_eq_iff_of_le hs ht).mp h)
  · intro h
    rcases h with h | h
    · rw [h]
    · cases h with
      | long hne hs ht hfront hdvd =>
          exact (Cut.apply_eq_iff_of_lt hs ht).mpr
            ⟨hfront, tag_eq_iff.mpr ((crc32_eq_iff s t).mpr hdvd)⟩
      | cutLeft hs ht =>
          have hle : t.length ≤ 31 := by rw [ht, length_cutDown hs]
          exact (Cut.apply_eq_iff_of_lt_of_le hs hle).mpr (ht.trans (cutDown_eq s))
      | cutRight ht hs =>
          have hle : s.length ≤ 31 := by rw [hs, length_cutDown ht]
          exact ((Cut.apply_eq_iff_of_lt_of_le ht hle).mpr (hs.trans (cutDown_eq t))).symm

/-- Names of one length are not confused if they differ only in bits within 32 of each
other, as in a number of four digits. -/
theorem not_confused_of_burst {s t : Name} (hlen : s.length = t.length)
    (hburst : Burst 32 (bits s) (bits t)) : ¬ Confused s t := by
  intro h
  cases h with
  | long hne hs ht hfront hdvd =>
      exact crc32_ne_of_burst hlen hne hburst ((crc32_eq_iff s t).mpr hdvd)
  | cutLeft hs ht => exact length_ne_of_cutDown hs ht hlen
  | cutRight ht hs => exact length_ne_of_cutDown ht hs hlen.symm

/-- But every long name is, with one name at least. -/
theorem confused_normalize {name : Name} (h : 31 < (slashed name).length) :
    Confused (slashed name) (slashed (normalizePosixShmName name)) := by
  refine .cutLeft h ?_
  rw [slashed_of_head (head?_normalize name), normalizePosixShmName_eq, cutDown_eq]
  exact Cut.apply_of_lt h

/-- **Names are kept apart**, as far as they are: a normalised name begins with a
slash, has at most 31 bytes and is normal, and two names that are not the same with
a slash in front are normalised to two names exactly if they are not `Confused`. -/
theorem names_apart_iff (name name' : Name) :
    ((normalizePosixShmName name).head? = some slash ∧
      (normalizePosixShmName name).length ≤ 31 ∧
      normalizePosixShmName (normalizePosixShmName name) = normalizePosixShmName name) ∧
    ((slashed name ≠ slashed name' →
        normalizePosixShmName name ≠ normalizePosixShmName name') ↔
      ¬ Confused (slashed name) (slashed name')) := by
  refine ⟨⟨head?_normalize name, length_normalize_le name, normalize_normalize name⟩, ?_⟩
  rw [normalizePosixShmName_eq, normalizePosixShmName_eq, Ne, Ne, apply_eq_iff]
  constructor
  · intro h hconfused
    exact h hconfused.ne (.inr hconfused)
  · intro h hne heq
    exact h (heq.resolve_left hne)

/-- Two channels of one vehicle. -/
theorem names_confused :
    let event := "vehicle_telemetry_bus_port_mono_event".toUTF8.toList
    let torque := "vehicle_telemetry_bus_starboard_torque_filtered".toUTF8.toList
    let shared := "/vehicle_telemetry_bus_2e8e8a6d".toUTF8.toList
    normalizePosixShmName event = shared ∧ normalizePosixShmName torque = shared ∧
      ¬ ∀ name name', slashed name ≠ slashed name' →
        normalizePosixShmName name ≠ normalizePosixShmName name' := by
  intro event torque shared
  have hevent : normalizePosixShmName event = shared := by decide +kernel
  have htorque : normalizePosixShmName torque = shared := by decide +kernel
  refine ⟨hevent, htorque, fun hall => hall event torque (by decide +kernel) ?_⟩
  rw [hevent, htorque]

/-! ## What it is to be confused -/

namespace SharedMemoryRegion

variable {name name' : Name}

/-- What is left of a region when its name is forgotten. -/
def unnamed (r : SharedMemoryRegion) : SharedMemoryRegion := { r with name := [] }

/-- A region that has nothing yet but its name. -/
theorem fail_alike (h : normalizePosixShmName name = normalizePosixShmName name')
    (hempty : name = [] ↔ name' = []) (size : Nat) (isCreator : Bool) :
    fail { name := name, size := size, isCreator := isCreator } =
      fail { name := name', size := size, isCreator := isCreator } := by
  simp only [fail, close, h, ne_eq, hempty]
  split <;> rfl

theorem createWith_alike (h : normalizePosixShmName name = normalizePosixShmName name')
    (hempty : name = [] ↔ name' = []) (flags : OpenFlags) (size : Nat) :
    unnamed <$> createWith flags name size = unnamed <$> createWith flags name' size := by
  have hfail := fail_alike h hempty size true
  simp only [createWith, map_bind, h]
  congr 1
  funext fd
  cases fd with
  | none => rw [hfail]
  | some fd =>
      simp only [map_bind, hfail]
      congr 1
      funext resized
      cases resized with
      | false => rfl
      | true =>
          simp only [map_bind, Bool.true_eq_false, if_false]
          congr 1
          funext ptr
          cases ptr with
          | none => rfl
          | some ptr => rfl

theorem openRegion_alike (h : normalizePosixShmName name = normalizePosixShmName name')
    (hempty : name = [] ↔ name' = []) (size : Nat) :
    unnamed <$> openRegion name size = unnamed <$> openRegion name' size := by
  have hfail := fail_alike h hempty size false
  simp only [openRegion, map_bind, h]
  congr 1
  funext fd
  cases fd with
  | none => rw [hfail]
  | some fd =>
      simp only [map_bind, hfail]
      congr 1
      funext stSize
      split
      · rfl
      · simp only [map_bind]
        congr 1
        funext ptr
        cases ptr with
        | none => rfl
        | some ptr => rfl

end SharedMemoryRegion

open SharedMemoryRegion in
/-- **The regions of confused names**: creating or opening one under the one name is
creating or opening it under the other. The system calls are the same, and so is the
region, but for the name it remembers. -/
theorem Confused.regions {name name' : Name}
    (h : Confused (slashed name) (slashed name')) :
    (∀ flags size,
      unnamed <$> createWith flags name size = unnamed <$> createWith flags name' size) ∧
    ∀ size, unnamed <$> openRegion name size = unnamed <$> openRegion name' size := by
  have hnormal : normalizePosixShmName name = normalizePosixShmName name' := by
    rw [normalizePosixShmName_eq, normalizePosixShmName_eq]
    exact (apply_eq_iff _ _).mpr (.inr h)
  have hne : ∀ {n : Name}, 31 ≤ (slashed n).length → n ≠ [] := by
    intro n hlength hempty
    subst hempty
    exact absurd hlength (by decide)
  have hempty : name = [] ↔ name' = [] :=
    iff_of_false (hne h.length_le.1) (hne h.length_le.2)
  exact ⟨createWith_alike hnormal hempty, openRegion_alike hnormal hempty⟩

end Sinew
