import Sinew.Proofs.Attach

/-!
# What a call does between its counters

Most of what a call does is to bytes: it reads a packet, writes one, hands one
to a visitor, asks the kernel for a mapping. What only reads does so whatever
the memory holds. And nothing of all this stores a counter, whatever the message
type is, which is all that counting the messages in a ring needs to know.
-/

namespace Sinew

open Lib

variable {host : Endian} {T : MsgType} {α : Type}

section Reading

variable {ok : Ev → Prop} {ans : (e : Ev) → Ev.Res e → Prop} (h : ∀ q, ok (.load q))

include h

theorem load16_always (p : Ptr) : (load16 host p).Always ok ans fun _ => True :=
  .seq (loadBytes_always h p 2) fun _ => trivial

theorem crc32At_always (p : Ptr) (n : Nat) : (crc32At p n).Always ok ans fun _ => True :=
  .seq (loadBytes_always h p n) fun _ => trivial

theorem validate_always (buffer : Option Ptr) (size : Nat) (v : Bool) :
    (validate host T buffer size v).Always ok ans fun _ => True := by
  cases buffer with
  | none => trivial
  | some hdr =>
      refine .ite trivial (.ite trivial ?_)
      refine .seq (load32_always h host _) fun magic => .ite trivial ?_
      refine .seq (load32_always h host _) fun payloadLen => .ite trivial ?_
      refine .seq (load16_always h _) fun msgId => .ite trivial ?_
      refine .seq (load16_always h _) fun version => .ite trivial ?_
      refine .ite (.seq (load32_always h host _) fun crc => .ite ?_ trivial) trivial
      refine .seq (crc32At_always h _ _) fun computed => ?_
      exact .seq (load32_always h host _) fun crc => .ite trivial trivial

theorem view_always (buffer : Option Ptr) (size : Nat) (v : Bool) :
    (view host T buffer size v).Always ok ans fun _ => True := by
  refine .seq (validate_always h buffer size v) fun err => ?_
  split <;> trivial

theorem loadHeader_always (hdr : Ptr) :
    (loadHeader host hdr).Always ok ans fun _ => True :=
  .seq (load32_always h host _) fun _ => .seq (load16_always h _) fun _ =>
    .seq (load16_always h _) fun _ => .seq (load32_always h host _) fun _ =>
    .seq (load32_always h host _) fun _ => trivial

theorem inspectPacket_always (buffer : Option Ptr) (size : Nat) (out : PacketView) :
    (inspectPacket host buffer size out).Always ok ans fun _ => True := by
  cases buffer with
  | none => trivial
  | some hdr =>
      refine .ite trivial ?_
      refine .seq (load32_always h host _) fun magic => .ite trivial ?_
      refine .seq (load32_always h host _) fun payloadLen => .ite trivial ?_
      exact .seq (loadHeader_always h _) fun header =>
        .seq (load32_always h host _) fun _ => trivial

theorem crc32OfView_always (pv : PacketView) :
    (IpcEnvelopeRingBuffer.crc32OfView pv).Always ok ans fun _ => True := by
  unfold IpcEnvelopeRingBuffer.crc32OfView
  cases pv.payload with
  | none => trivial
  | some p => exact crc32At_always h _ _

theorem packetAt_always (slot : Ptr) (slotSize : Nat) (v : Bool) :
    (IpcEnvelopeRingBuffer.packetAt host slot slotSize v).Always ok ans fun _ => True := by
  refine .seq (inspectPacket_always h _ _ _) fun r => ?_
  dsimp only
  split
  · trivial
  split
  · refine .seq (crc32OfView_always h _) fun computed => ?_
    split <;> trivial
  · trivial

variable {visitor : Visitor} (hv : ∀ T p, (visitor T p).Always ok ans fun _ => True)

include hv

omit h in
theorem callVisitor_always (msg : Ptr) :
    (callVisitor visitor T msg).Always ok ans fun _ => True := by
  refine .seq (hv T msg) fun outcome => ?_
  cases outcome <;> trivial

theorem tryDispatchSingle_always (msgId : UInt16) (buffer : Option Ptr) (size : Nat)
    (v : Bool) :
    (tryDispatchSingle host T msgId buffer size visitor v).Always ok ans fun _ => True := by
  unfold tryDispatchSingle
  split
  · refine .seq (view_always h _ _ _) fun msg => ?_
    cases msg with
    | none => trivial
    | some msg => exact callVisitor_always hv msg
  · trivial

theorem dispatch_always (msgTypes : List MsgType) (buffer : Option Ptr) (size : Nat)
    (v : Bool) :
    (dispatch host msgTypes buffer size visitor v).Always ok ans fun _ => True := by
  cases buffer with
  | none => trivial
  | some hdr =>
      refine .ite trivial (.seq (load32_always h host _) fun magic => .ite trivial ?_)
      induction msgTypes with
      | nil => trivial
      | cons T rest ih =>
          refine .seq (load16_always h _) fun msgId => ?_
          refine .seq (tryDispatchSingle_always h hv _ _ _ _) fun r => ?_
          split
          · exact ih
          · trivial

end Reading

theorem Visitor.OnlyReads.always {visitor : Visitor} (hv : visitor.OnlyReads)
    {ok : Ev → Prop} {ans : (e : Ev) → Ev.Res e → Prop} (h : ∀ q, ok (.load q))
    (T : MsgType) (p : Ptr) : (visitor T p).Always ok ans fun _ => True := by
  refine (hv T p).weaken (fun e he => ?_) fun _ _ _ => trivial
  cases e with
  | load q => exact h q
  | _ => exact he.elim

/-- An event that stores no counter. -/
def Ev.Wordless : Ev → Prop
  | .storeWord _ _ => False
  | _ => True

abbrev Wordless (p : Code α) : Prop := p.Always Ev.Wordless Paged fun _ => True

theorem Ev.Silent.wordless {e : Ev} (h : e.Silent) : e.Wordless := by
  cases e with
  | storeWord p v => exact h.elim
  | _ => trivial

/-- An event that stores no counter, and no byte but in the cells `lo` to `hi`. -/
def Ev.StoresIn (lo hi : Nat) : Ev → Prop
  | .store q _ => lo ≤ q.off ∧ q.off < hi
  | .storeWord _ _ => False
  | _ => True

theorem Ev.StoresIn.wordless {lo hi : Nat} {e : Ev} (h : e.StoresIn lo hi) : e.Wordless := by
  cases e with
  | storeWord p v => exact h.elim
  | _ => trivial

/-- A program that stores in the cells `lo` to `hi` only, whatever it is answered. -/
abbrev StoresIn (lo hi : Nat) (p : Code α) : Prop :=
  p.Always (Ev.StoresIn lo hi) Paged fun _ => True

section Within

variable {lo hi : Nat} {p : Ptr}

theorem StoresIn.wordless {q : Code α} (h : StoresIn lo hi q) : Wordless q :=
  h.weaken (fun _ => Ev.StoresIn.wordless) fun _ _ h => h

theorem storeBytes_within {bs : List UInt8} (hlo : lo ≤ p.off) (hhi : p.off + bs.length ≤ hi) :
    StoresIn lo hi (storeBytes p bs) := by
  induction bs generalizing p with
  | nil => trivial
  | cons b bs ih =>
      rw [List.length_cons] at hhi
      refine .event_bind ⟨hlo, by omega⟩ fun _ _ => ih ?_ ?_
      · rw [Ptr.add_off]
        omega
      · rw [Ptr.add_off]
        omega

theorem construct_within {xs : List (Nat × UInt8)}
    (h : ∀ x ∈ xs, lo ≤ p.off + x.1 ∧ p.off + x.1 < hi) :
    StoresIn lo hi (construct p xs) := by
  induction xs with
  | nil => trivial
  | cons x xs ih =>
      exact .event_bind (h x List.mem_cons_self) fun _ _ =>
        ih fun y hy => h y (List.mem_cons_of_mem x hy)

theorem prepare_within (capacity : Nat) :
    StoresIn p.off (p.off + (Header.size + T.size)) (prepare host T (some p) capacity) := by
  have hfield : ∀ k (bs : List UInt8), k + bs.length ≤ Header.size + T.size →
      StoresIn p.off (p.off + (Header.size + T.size)) (storeBytes (p.add k) bs) := by
    intro k bs hk
    refine storeBytes_within (Nat.le_add_right _ _) ?_
    rw [Ptr.add_off]
    omega
  have hctor : StoresIn p.off (p.off + (Header.size + T.size))
      (construct (p.add Header.size) T.ctor) := by
    refine construct_within fun x hx => ?_
    have hlt := T.ctor_lt x hx
    rw [Ptr.add_off]
    omega
  have hstore32 : ∀ k v, k + 4 ≤ Header.size →
      StoresIn p.off (p.off + (Header.size + T.size)) (store32 host (p.add k) v) := by
    intro k v hk
    refine hfield k _ ?_
    rw [Endian.bytes_length]
    omega
  have hstore16 : ∀ k v, k + 2 ≤ Header.size →
      StoresIn p.off (p.off + (Header.size + T.size)) (store16 host (p.add k) v) := by
    intro k v hk
    refine hfield k _ ?_
    rw [Endian.bytes_length]
    omega
  refine .seq (.ite trivial (.ite trivial ?_)) fun _ => trivial
  exact .seq (hstore32 _ _ (by decide)) fun _ => .seq (hstore16 _ _ (by decide)) fun _ =>
    .seq (hstore16 _ _ (by decide)) fun _ => .seq (hstore32 _ _ (by decide)) fun _ =>
    .seq (hstore32 _ _ (by decide)) fun _ => .seq (hfield _ _ (by simp)) fun _ =>
    .seq hctor fun _ => trivial

theorem storeCrcField_within (crc : UInt32) :
    StoresIn p.off (p.off + Header.size) (store32 host (p.add Header.crcOff) crc) := by
  refine storeBytes_within (Nat.le_add_right _ _) ?_
  rw [Endian.bytes_length, Ptr.add_off, Nat.add_assoc]
  exact Nat.add_le_add_left (by decide) _

theorem finalize_within (c : Bool) : StoresIn p.off (p.off + Header.size)
    (finalize host T (some (p.add Header.size)) c) := by
  simp only [finalize, Ptr.add_sub]
  cases c with
  | false => exact .seq (storeCrcField_within _) fun _ => trivial
  | true =>
      exact .seq (crc32At_always (fun _ => trivial) _ _) fun _ =>
        .seq (storeCrcField_within _) fun _ => trivial

theorem storeCrc_within (c : Bool) : StoresIn p.off (p.off + Header.size)
    (IpcEnvelopeRingBuffer.storeCrc host p c) := by
  cases c with
  | false => exact storeCrcField_within _
  | true =>
      refine .seq (load32_always (fun _ => trivial) host _) fun payloadLen => ?_
      split
      · exact .seq (load32_always (fun _ => trivial) host _) fun _ =>
          .seq (crc32At_always (fun _ => trivial) _ _) fun _ => storeCrcField_within _
      · exact storeCrcField_within _

end Within

theorem record_wordless (msg : Ptr) : Wordless (record T msg) :=
  .seq (loadBytes_always (fun _ => trivial) _ _) fun _ => .event_bind trivial fun _ _ => trivial

end Sinew
