import Sinew.Model.Wire
import Sinew.Proofs.Portable

/-!
# Messages told apart by the hash of their name

A packet of one macro-defined message meets every check of another of the same
size but the one of the id, and the id is sixteen bits of a hash. So the decoders
tell the two apart exactly if the hash does. It never answers zero, the id of a
type that is not registered; it does answer one value for two names.
-/

namespace Sinew

open Lib

/-- No macro-defined message has the id of an unregistered type. -/
theorem fnv1a16_ne_zero (name : Name) : fnv1a16 name ≠ 0 := by
  unfold fnv1a16
  dsimp only
  split
  · decide
  · next h => exact h

/-- A packet that was prepared and finalised as one type is rejected for the
other, wherever it lies and however it is decoded. -/
def Rejected (A B : MsgType) : Prop :=
  ∀ (host : Endian) (p : Ptr) (capacity : Nat) (payload : List UInt8) (computeCrc : Bool)
    (m : Mem), payload.length = A.size →
    let r := (writeInPlace host A (some p) capacity payload computeCrc).run Mem.machine m
    r.1 ≠ 0 → ∀ (size : Nat) (verifyCrc : Bool),
      ((validate host B (some p) size verifyCrc).run Mem.machine r.2).1 ≠ .ok ∧
      ((view host B (some p) size verifyCrc).run Mem.machine r.2).1 = none ∧
      ∀ (shape : Shape) (dest : Ptr), shape.Fits host B →
        ((portableDecode host B shape (some p) size dest verifyCrc).run Mem.machine
          r.2).1 ≠ .ok

section Packets

variable {host : Endian} {A B : MsgType} {p : Ptr} {capacity : Nat}
  {payload : List UInt8} {c : Bool} {m : Mem}

theorem packet_of_writeInPlace (hlen : payload.length = A.size)
    (h : ((writeInPlace host A (some p) capacity payload c).run Mem.machine m).1 ≠ 0) :
    slice ((writeInPlace host A (some p) capacity payload c).run Mem.machine m).2.byte
      p.off (16 + A.size) = packet host A (crcField c payload) payload := by
  rcases Nat.lt_or_ge capacity (Header.size + A.size) with hcap | hcap
  · rw [run_writeInPlace_fail (run_prepareResult_small host A hcap m)] at h
    exact absurd rfl h
  by_cases hal : (p.addr + Header.size) % A.align = 0
  · rw [run_writeInPlace hcap hal hlen]
    exact slice_patch_eq (by simp [hlen])
  · rw [run_writeInPlace_fail (run_prepareResult_misaligned host A hcap hal m)] at h
    exact absurd rfl h

theorem Carries.size_lt {T : MsgType} {a : Nat} {f : Nat → UInt8} {size : Nat} {v : Bool}
    (h : Carries host T a f size v) : T.size < 2 ^ 32 := by
  rw [← h.payloadLen]
  exact (Header.ofMem host f a).payloadLen.toNat_lt

theorem Carries.id_eq {reader : Endian} {f : Nat → UInt8} {a size : Nat} {crc : UInt32}
    {v : Bool} (hf : slice f a (16 + A.size) = packet host A crc payload)
    (h : Carries reader B a f size v) : A.id = B.id := by
  have hof := (packet_parts hf).1
  have hbytes : slice f a 4 = host.bytes 4 sinewMagic.toNat := by
    have hmagic := slice_of_u32At host f a
    have hfield : u32At host f a = sinewMagic := congrArg Header.magic hof
    rwa [hfield] at hmagic
  obtain rfl := magic_order hbytes h.magic
  rw [← h.msgId, hof]
  rfl

end Packets

/-- Two types of one size under two ids are never confused. -/
theorem rejected_of_ne {A B : MsgType} (h : A.id ≠ B.id ∨ 2 ^ 32 ≤ B.size) :
    Rejected A B := by
  intro host p capacity payload c m hlen r hr size v
  have hf := packet_of_writeInPlace hlen hr
  have hnot : ∀ reader, ¬ Carries reader B p.off r.2.byte size v := by
    intro reader hcarries
    rcases h with hid | hsize
    · exact hid (hcarries.id_eq hf)
    · exact absurd hcarries.size_lt (Nat.not_lt.mpr hsize)
  have hvalidate : validateMem host B p r.2.byte size v ≠ .ok := fun hok =>
    hnot host (validateMem_eq_ok.mp hok).1
  refine ⟨?_, ?_, fun shape dest hfits => ?_⟩
  · rw [run_validate]
    exact hvalidate
  · rw [run_view]
    exact if_neg hvalidate
  · rw [run_portableDecode hfits]
    exact fun hok => hnot .little (decodeMem_eq_ok.mp hok)

/-- Two types that look alike are confused in any buffer that is aligned. -/
theorem not_rejected {A B : MsgType} (hid : A.id = B.id) (hversion : A.version = B.version)
    (hsize : B.size = A.size) (hlt : A.size < 2 ^ 32) (hA : A.align ∣ 16)
    (hB : B.align ∣ 16) : ¬ Rejected A B := by
  intro h
  let payload := List.replicate A.size (0 : UInt8)
  let m : Mem := ⟨fun _ => 0, fun _ => 0, []⟩
  have hlen : payload.length = A.size := List.length_replicate
  have halign : ∀ T : MsgType, T.align ∣ 16 →
      ((⟨0, 0⟩ : Ptr).addr + Header.size) % T.align = 0 := fun T hT =>
    Nat.mod_eq_zero_of_dvd hT
  have hrun : (writeInPlace .little A (some ⟨0, 0⟩) (Header.size + A.size) payload
      false).run Mem.machine m = _ :=
    run_writeInPlace (Nat.le_refl _) (halign A hA) hlen false m
  have hr : ((writeInPlace .little A (some ⟨0, 0⟩) (Header.size + A.size) payload
      false).run Mem.machine m).1 ≠ 0 := by
    rw [hrun]
    exact Nat.ne_of_gt (Nat.add_pos_left (by decide) _)
  have hvalidate := (h .little ⟨0, 0⟩ _ payload false m hlen hr
    (Header.size + A.size) false).1
  rw [run_validate] at hvalidate
  refine hvalidate (validateMem_eq_ok.mpr ⟨?_, halign B hB⟩)
  rw [carries_packet hlt (packet_of_writeInPlace hlen hr) (crcField_eq false payload)]
  exact ⟨by rw [hsize], hsize, hid.symm, hversion.symm⟩

/-- **Type confusion.** Two macro-defined messages of one size are told apart by
every decoder exactly if their names have different hashes, unless they are so
large that no decoder accepts either. -/
theorem macro_messages_distinct_iff (name name' : Name) (A B : MsgType)
    (hsize : B.size = A.size) (hA : A.align ≤ 16) (hB : B.align ≤ 16) :
    Rejected (sinewMessage name A) (sinewMessage name' B) ↔
      fnv1a16 name ≠ fnv1a16 name' ∨ 2 ^ 32 ≤ A.size := by
  constructor
  · intro h
    by_contra hbad
    obtain ⟨hid, hlt⟩ := not_or.mp hbad
    have hconfused : ¬ Rejected (sinewMessage name A) (sinewMessage name' B) :=
      not_rejected (not_not.mp hid) rfl hsize (Nat.not_le.mp hlt)
        (MsgType.align_dvd_sixteen hA) (MsgType.align_dvd_sixteen hB)
    exact hconfused h
  · intro h
    refine rejected_of_ne (h.imp_right fun hle => ?_)
    rw [← hsize] at hle
    exact hle

theorem macro_messages_distinct_iff_tests :
    Rejected (sinewMessage "MacroMsgA".toUTF8.toList pingMsg)
      (sinewMessage "MacroMsgB".toUTF8.toList pingMsg) :=
  (macro_messages_distinct_iff _ _ pingMsg pingMsg rfl (by decide) (by decide)).mpr
    (.inl (by decide +kernel))

theorem macro_messages_confused :
    ¬ Rejected (sinewMessage "ServoConfig".toUTF8.toList pingMsg)
      (sinewMessage "ValveStatus".toUTF8.toList pingMsg) :=
  not_rejected (by decide +kernel) rfl rfl (by decide) (by decide) (by decide)

end Sinew
