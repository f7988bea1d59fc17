import Sinew.Proofs.Wire

/-!
# What one type writes, which types read

A packet written in place as one type is read back by exactly the types that
agree with it on size, id and version and whose alignment the payload address
happens to meet, and each of those reads the very bytes that were written. The
checksum never gets in the way: it is computed over the payload that is there,
and a zero field is not looked at.
-/

namespace Sinew

open Lib

variable {host : Endian} {A : MsgType} {buf : Option Ptr} {cap : Nat} {r : Ptr}

/-- `prepareResult` succeeds only on a buffer that is there, large enough and
aligned, and then answers the payload's address. -/
theorem prepareResult_ok_inv {m : Mem} (h : ((prepareResult host A buf cap).run
      Mem.machine m).1 = ⟨some r, .ok⟩) :
    ∃ p, buf = some p ∧ r = p.add Header.size ∧ Header.size + A.size ≤ cap ∧
      (p.addr + Header.size) % A.align = 0 := by
  cases buf with
  | none => simp [prepareResult] at h
  | some p =>
      rcases Nat.lt_or_ge cap (Header.size + A.size) with hcap | hcap
      · rw [run_prepareResult_small host A hcap] at h
        simp at h
      by_cases hal : (p.addr + Header.size) % A.align = 0
      · rw [run_prepareResult_ok host A hcap hal] at h
        simp only [PtrResult.mk.injEq, Option.some.injEq, and_true] at h
        exact ⟨p, rfl, h.symm, hcap, hal⟩
      · rw [run_prepareResult_misaligned host A hcap hal] at h
        simp at h

theorem run_prepare_write_finalize (host : Endian) {p : Ptr} (hcap : Header.size + A.size ≤ cap)
    (hal : (p.addr + Header.size) % A.align = 0) {payload : List UInt8}
    (hlen : payload.length = A.size) (c : Bool) (m : Mem) :
    (finalize host A (some (p.add Header.size)) c).run Mem.machine
        ((storeBytes (p.add Header.size) payload).run Mem.machine
          ((prepareResult host A (some p) cap).run Mem.machine m).2).2 =
      (Header.size + A.size,
        m.write p.off (packet host A (crcField c payload) payload)) := by
  have h : (writeInPlace host A (some p) cap payload c).run Mem.machine m = _ :=
    run_writeInPlace hcap hal hlen c m
  simpa only [writeInPlace, prepare, Prog.run_bind, Prog.run_pure,
    run_prepareResult_ok host A hcap hal] using h

/-- **Wire round trip.** After `prepare_result<A>`, a payload write and
`finalize<A>`, the packet validates as a `B` exactly when `B` has `A`'s size,
id and version and the payload is aligned for it; then both views point at the
written bytes, and otherwise `view<B>` is null. -/
theorem wire_round_trip (host : Endian) (A B : MsgType) (hA : A.size < 2 ^ 32)
    (buf : Option Ptr) (cap : Nat) (m : Mem) (payload : List UInt8)
    (hlen : payload.length = A.size) (c v : Bool) (r : Ptr)
    (hprep : ((prepareResult host A buf cap).run Mem.machine m).1 =
      ⟨some r, .ok⟩) :
    let m₁ := ((prepareResult host A buf cap).run Mem.machine m).2
    let m₂ := ((storeBytes r payload).run Mem.machine m₁).2
    let fin := (finalize host A (some r) c).run Mem.machine m₂
    let code := ((validate host B buf cap v).run Mem.machine fin.2).1
    fin.1 = 16 + A.size ∧
    (code = .ok ↔ B.size = A.size ∧ B.id = A.id ∧ B.version = A.version ∧
      r.addr % B.align = 0) ∧
    (code = .ok →
      ((view host B buf cap v).run Mem.machine fin.2).1 = some r ∧
      ((viewResult host B buf cap v).run Mem.machine fin.2).1 = ⟨some r, .ok⟩ ∧
      slice fin.2.byte r.off B.size = payload) ∧
    (code ≠ .ok → ((view host B buf cap v).run Mem.machine fin.2).1 = none) := by
  obtain ⟨p, rfl, rfl, hcap, hal⟩ := prepareResult_ok_inv hprep
  have hfin := run_prepare_write_finalize host hcap hal hlen c m
  have hf : slice (patch m.byte p.off (packet host A (crcField c payload) payload))
      p.off (16 + A.size) = packet host A (crcField c payload) payload :=
    slice_patch_eq (by simp [hlen])
  have hcar : Carries host B p.off _ cap v ↔ _ :=
    carries_packet hA hf (crcField_eq c payload)
  dsimp only
  rw [hfin]
  simp only [run_validate, run_view, run_viewResult, Mem.write_byte,
    Ptr.addr_add, Ptr.add_off]
  refine ⟨rfl, ?_, fun h => ?_, fun h => if_neg h⟩
  · rw [validateMem_eq_ok, hcar]
    constructor
    · rintro ⟨⟨_, h2, h3, h4⟩, h5⟩
      exact ⟨h2, h3, h4, h5⟩
    · rintro ⟨h2, h3, h4, h5⟩
      exact ⟨⟨h2 ▸ hcap, h2, h3, h4⟩, h5⟩
  · refine ⟨if_pos h, if_pos h, ?_⟩
    rw [validateMem_eq_ok, hcar] at h
    rw [h.1.2.1]
    exact slice_payload host A m.byte p.off _ hlen

def zeroMem : Mem := ⟨fun _ => 0, fun _ => 0, []⟩

theorem wire_round_trip_imu :
    let m₁ := ((prepareResult .little mcuImuSample (some ⟨0x1000, 0⟩) 40).run
      Mem.machine zeroMem).2
    let m₂ := ((storeBytes ⟨0x1000, 16⟩ (List.replicate 24 7)).run
      Mem.machine m₁).2
    let fin := (finalize .little mcuImuSample (some ⟨0x1000, 16⟩) true).run
      Mem.machine m₂
    fin.1 = 40 ∧ ((validate .little mcuImuSample (some ⟨0x1000, 0⟩) 40 true).run
      Mem.machine fin.2).1 = .ok :=
  have h := wire_round_trip .little mcuImuSample mcuImuSample (by decide)
    (some ⟨0x1000, 0⟩) 40 zeroMem (List.replicate 24 7) (by decide) true true
    ⟨0x1000, 16⟩ (by
      rw [run_prepareResult_ok .little mcuImuSample (by decide) (by decide)]
      rfl)
  ⟨h.1, h.2.1.mpr ⟨rfl, rfl, rfl, by decide⟩⟩

end Sinew
