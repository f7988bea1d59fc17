import Sinew.Lib.Trace
import Sinew.Proofs.Slots

/-!
# Calls under any interference

The other side of a shared ring may be anything: another process that has gone
wrong, or one that means harm. It may change every byte and both counters between
any two events of a call. So a load may answer anything at all, and what can still
be said of a call is what holds of all its traces: how long they are, where they
load and store, and where the pointers point that it hands out.

Nothing is known here of the counters. A slot is within the ring whatever the
cursor is, because the cursor is masked.
-/

namespace Sinew

open Lib

variable {host : Endian} {T : MsgType} {ok : Ev → Prop} {n : Nat} {p : Ptr}

def Readable (ok : Ev → Prop) (p : Ptr) (n : Nat) : Prop := ∀ i < n, ok (.load (p.add i))

def Writable (ok : Ev → Prop) (p : Ptr) (n : Nat) : Prop :=
  ∀ i < n, ∀ b, ok (.store (p.add i) b)

theorem Readable.part (h : Readable ok p n) {a k : Nat} (hle : a + k ≤ n) :
    Readable ok (p.add a) k := by
  intro i hi
  rw [Ptr.add_add]
  exact h (a + i) (by omega)

theorem Writable.part (h : Writable ok p n) {a k : Nat} (hle : a + k ≤ n) :
    Writable ok (p.add a) k := by
  intro i hi b
  rw [Ptr.add_add]
  exact h (a + i) (by omega) b

theorem Readable.tail (h : Readable ok p (n + 1)) : Readable ok (p.add 1) n :=
  h.part (by omega)

theorem Writable.tail (h : Writable ok p (n + 1)) : Writable ok (p.add 1) n :=
  h.part (by omega)

theorem loadBytes_confined (h : Readable ok p n) :
    (loadBytes p n).Confined ok n fun bs => bs.length = n := by
  induction n generalizing p with
  | zero => exact .pure rfl
  | succ n ih =>
      have hload : (load p).Confined ok 1 fun _ => True := .event (h 0 (Nat.succ_pos n))
      refine (hload.bind (n := n) fun b _ => ?_).mono (Nat.le_of_eq (Nat.add_comm 1 n))
        fun _ => id
      refine (ih h.tail).bind (n := 0) fun bs hbs => .pure ?_
      rw [List.length_cons, hbs]

theorem storeBytes_confined {bs : List UInt8} (hlen : bs.length = n) (h : Writable ok p n) :
    (storeBytes p bs).Confined ok n fun _ => True := by
  subst hlen
  induction bs generalizing p with
  | nil => exact .pure trivial
  | cons b bs ih =>
      have hstore : (store p b).Confined ok 1 fun _ => True :=
        .event (h 0 (Nat.succ_pos _) b)
      rw [List.length_cons, Nat.add_comm]
      exact hstore.bind fun _ _ => ih h.tail

theorem load16_confined (h : Readable ok p 2) :
    (load16 host p).Confined ok 2 fun _ => True :=
  (loadBytes_confined h).bind (n := 0) fun _ _ => .pure trivial

theorem load32_confined (h : Readable ok p 4) :
    (load32 host p).Confined ok 4 fun _ => True :=
  (loadBytes_confined h).bind (n := 0) fun _ _ => .pure trivial

theorem crc32At_confined (h : Readable ok p n) :
    (crc32At p n).Confined ok n fun _ => True :=
  (loadBytes_confined h).bind (n := 0) fun _ _ => .pure trivial

theorem store16_confined {v : UInt16} (h : Writable ok p 2) :
    (store16 host p v).Confined ok 2 fun _ => True :=
  storeBytes_confined (Endian.bytes_length ..) h

theorem store32_confined {v : UInt32} (h : Writable ok p 4) :
    (store32 host p v).Confined ok 4 fun _ => True :=
  storeBytes_confined (Endian.bytes_length ..) h

/-- `validate` loads the 16 bytes of the header once, the checksum again, and the
payload. -/
theorem validate_confined {size : Nat} (v : Bool) (h : Readable ok p size) :
    (validate host T (some p) size v).Confined ok (20 + T.size)
      fun err => err = .ok → Header.size + T.size ≤ size := by
  have hno : ∀ {err : ErrorCode} {k}, err ≠ .ok → (pure err : Code ErrorCode).Confined ok k
      fun err => err = .ok → Header.size + T.size ≤ size :=
    fun herr => .pure fun h => absurd h herr
  unfold validate
  refine .ite (fun _ => hno (by decide)) fun hsize => ?_
  have hfits : Header.size + T.size ≤ size := Nat.le_of_not_lt hsize
  have hparts : ∀ {a k}, a + k ≤ Header.size + T.size → Readable ok (p.add a) k :=
    fun hle => h.part (Nat.le_trans hle hfits)
  have hyes : ∀ {k}, (pure ErrorCode.ok : Code ErrorCode).Confined ok k
      fun err => err = .ok → Header.size + T.size ≤ size := .pure fun _ => hfits
  have h16 : Header.size = 16 := rfl
  refine .ite (fun _ => hno (by decide)) fun _ => ?_
  rw [show 20 + T.size = 4 + (4 + (2 + (2 + (4 + (T.size + 4))))) by omega]
  refine (load32_confined (hparts (by unfold Header.magicOff; omega))).bind fun magic _ => ?_
  refine .ite (fun _ => hno (by decide)) fun _ => ?_
  refine (load32_confined (hparts (by unfold Header.payloadLenOff; omega))).bind fun len _ => ?_
  refine .ite (fun _ => hno (by decide)) fun _ => ?_
  refine (load16_confined (hparts (by unfold Header.msgIdOff; omega))).bind fun msgId _ => ?_
  refine .ite (fun _ => hno (by decide)) fun _ => ?_
  refine (load16_confined (hparts (by unfold Header.versionOff; omega))).bind fun version _ => ?_
  refine .ite (fun _ => hno (by decide)) fun _ => ?_
  refine .ite (fun _ => ?_) fun _ => hyes
  have hcrc : Readable ok (p.add Header.crcOff) 4 := hparts (by unfold Header.crcOff; omega)
  refine (load32_confined hcrc).bind fun crc _ => .ite (fun _ => ?_) fun _ => hyes
  refine (crc32At_confined (hparts (by omega))).bind fun computed _ => ?_
  exact (load32_confined hcrc).bind (n := 0) fun crc _ =>
    .ite (fun _ => hno (by decide)) fun _ => hyes

theorem view_confined {size : Nat} (v : Bool) (h : Readable ok p size) :
    (view host T (some p) size v).Confined ok (20 + T.size)
      fun r => ∀ q, r = some q → q = p.add Header.size ∧ Header.size + T.size ≤ size := by
  refine (validate_confined v h).bind (n := 0) fun err herr => ?_
  refine .ite (fun _ => .pure fun q hq => by cases hq) fun hok => .pure fun q hq => ?_
  exact ⟨(Option.some.inj hq).symm, herr (not_not.mp hok)⟩

theorem construct_confined {xs : List (Nat × UInt8)} (h : Writable ok p n)
    (hxs : ∀ x ∈ xs, x.1 < n) : (construct p xs).Confined ok xs.length fun _ => True := by
  induction xs with
  | nil => exact .pure trivial
  | cons x xs ih =>
      obtain ⟨hx, hxs⟩ := List.forall_mem_cons.mp hxs
      have hstore : (store (p.add x.1) x.2).Confined ok 1 fun _ => True :=
        .event (h x.1 hx x.2)
      rw [List.length_cons, Nat.add_comm]
      exact hstore.bind fun _ _ => ih hxs

theorem prepare_confined {capacity : Nat} (h : Writable ok p capacity) :
    (prepare host T (some p) capacity).Confined ok (16 + T.size + T.ctor.length)
      fun r => ∀ q, r = some q →
        q = p.add Header.size ∧ Header.size + T.size ≤ capacity := by
  have hno : ∀ {err k}, (pure ⟨none, err⟩ : Code PtrResult).Confined ok k fun r =>
      ∀ q, r.value = some q → q = p.add Header.size ∧ Header.size + T.size ≤ capacity :=
    .pure fun q hq => by cases hq
  refine Prog.Confined.bind (m := 16 + T.size + T.ctor.length) (n := 0) ?_ fun r hr => .pure hr
  unfold prepareResult
  refine .ite (fun _ => hno) fun hsize => .ite (fun _ => hno) fun _ => ?_
  have hfits : Header.size + T.size ≤ capacity := Nat.le_of_not_lt hsize
  have h16 : Header.size = 16 := rfl
  have hparts : ∀ {a k}, a + k ≤ Header.size + T.size → Writable ok (p.add a) k :=
    fun hle => h.part (Nat.le_trans hle hfits)
  have hpayload : Writable ok (p.add Header.size) T.size := hparts (Nat.le_refl _)
  have hzeros : (storeBytes (p.add Header.size) (List.replicate T.size 0)).Confined ok T.size
      fun _ => True := storeBytes_confined List.length_replicate hpayload
  rw [show 16 + T.size + T.ctor.length =
    4 + (2 + (2 + (4 + (4 + (T.size + (T.ctor.length + 0)))))) by omega]
  refine (store32_confined (hparts (by unfold Header.magicOff; omega))).bind fun _ _ => ?_
  refine (store16_confined (hparts (by unfold Header.msgIdOff; omega))).bind fun _ _ => ?_
  refine (store16_confined (hparts (by unfold Header.versionOff; omega))).bind fun _ _ => ?_
  refine (store32_confined (hparts (by unfold Header.crcOff; omega))).bind fun _ _ => ?_
  refine (store32_confined (hparts (by unfold Header.payloadLenOff; omega))).bind fun _ _ => ?_
  refine hzeros.bind fun _ _ => ?_
  refine (construct_confined hpayload T.ctor_lt).bind fun _ _ => .pure fun q hq => ?_
  exact ⟨(Option.some.inj hq).symm, hfits⟩

theorem finalize_confined (c : Bool) (hread : Readable ok p (Header.size + T.size))
    (hwrite : Writable ok p (Header.size + T.size)) :
    (finalize host T (some (p.add Header.size)) c).Confined ok (T.size + 4)
      fun _ => True := by
  have hcrc : Writable ok (p.add Header.crcOff) 4 :=
    hwrite.part (by unfold Header.crcOff Header.size; omega)
  simp only [finalize, Ptr.add_sub]
  refine .ite (fun _ => ?_) fun _ => ?_
  · refine (crc32At_confined (hread.part (Nat.le_refl _))).bind fun crc _ => ?_
    exact (store32_confined hcrc).bind (n := 0) fun _ _ => .pure trivial
  · exact ((store32_confined hcrc).bind (n := 0) fun _ _ => .pure trivial).mono (by omega)
      fun _ => id

namespace Ring

variable (R : Ring)

def InSlots (p : Ptr) : Prop :=
  p.base = R.slots.base ∧ R.slots.off ≤ p.off ∧ p.off < R.slots.off + R.capacity * R.stride

def Holds (p : Ptr) (n : Nat) : Prop := ∀ i < n, R.InSlots (p.add i)

def MayAsk : Ev → Prop
  | .loadWord p => p = R.head ∨ p = R.tail
  | _ => False

/-- What the producer may do: load and store in the slots, load the counters, and
store `head`. -/
def MayProduce : Ev → Prop
  | .load p => R.InSlots p
  | .store p _ => R.InSlots p
  | .loadWord p => p = R.head ∨ p = R.tail
  | .storeWord p _ => p = R.head
  | _ => False

/-- What the consumer may do: load in the slots, load the counters, and store `tail`. -/
def MayConsume : Ev → Prop
  | .load p => R.InSlots p
  | .loadWord p => p = R.head ∨ p = R.tail
  | .storeWord p _ => p = R.tail
  | _ => False

def MayCallBack (calls : Ev → Prop) (e : Ev) : Prop := R.MayConsume e ∨ calls e

/-- A callback that takes at most `k` events of its own for a message in the slots. -/
def Harmless (calls : Ev → Prop) (k : Nat) (func : Visitor) : Prop :=
  ∀ T p, R.Holds p T.size → (func T p).Confined calls k fun _ => True

/-- Slots that lie side by side, a power of two of them. -/
structure Masked : Prop where
  pow : ∃ j, R.capacity = 2 ^ j
  stride : R.slotSize ≤ R.stride

variable {R}

theorem Masked.slot (h : R.Masked) (cursor : Nat) : R.Holds (R.slot cursor) R.slotSize := by
  obtain ⟨j, hj⟩ := h.pow
  have hpos : 0 < R.capacity := by
    rw [hj]
    exact Nat.two_pow_pos j
  have hmask : (cursor &&& (R.capacity - 1)) + 1 ≤ R.capacity := by
    have := Nat.and_le_right (n := cursor) (m := R.capacity - 1)
    omega
  have hend := Nat.mul_le_mul_right R.stride hmask
  have hstride := h.stride
  rw [Nat.add_mul, Nat.one_mul] at hend
  intro i hi
  refine ⟨rfl, ?_, ?_⟩
  · simp only [Ring.slot, Ptr.add_off]
    omega
  · simp only [Ring.slot, Ptr.add_off]
    omega

theorem Holds.part {p : Ptr} {n a k : Nat} (h : R.Holds p n) (hle : a + k ≤ n) :
    R.Holds (p.add a) k := by
  intro i hi
  rw [Ptr.add_add]
  exact h (a + i) (by omega)

theorem Holds.readable {p : Ptr} {n : Nat} (h : R.Holds p n) : Readable R.MayProduce p n := h

theorem Holds.writable {p : Ptr} {n : Nat} (h : R.Holds p n) : Writable R.MayProduce p n :=
  fun i hi _ => h i hi

theorem Holds.consumed {p : Ptr} {n : Nat} (h : R.Holds p n) : Readable R.MayConsume p n := h

section Protocol

variable (hR : R.Masked)

theorem loadWord_confined {ok : Ev → Prop} {p : Ptr} (h : ok (.loadWord p)) :
    (loadWord p).Confined ok 1 fun _ => True := .event h

theorem storeWord_confined {ok : Ev → Prop} {p : Ptr} {v : Nat} (h : ok (.storeWord p v)) :
    (storeWord p v).Confined ok 1 fun _ => True := .event h

theorem counters_confined {α : Type} {ok : Ev → Prop} {p q : Ptr} (hp : ok (.loadWord p))
    (hq : ok (.loadWord q)) {f : Nat → Nat → Code α} {n : Nat} {A : α → Prop}
    (hf : ∀ a b, (f a b).Confined ok n A) :
    (do
      let a ← loadWord p
      let b ← loadWord q
      f a b).Confined ok (2 + n) A := by
  rw [show 2 + n = 1 + (1 + n) by omega]
  exact (loadWord_confined hp).bind fun a _ => (loadWord_confined hq).bind fun b _ => hf a b

include hR

theorem prepareWrite_confined : (R.prepareWrite host T).Confined R.MayProduce
    (18 + T.size + T.ctor.length) fun r => ∀ p, r = some p → R.Holds p T.size := by
  rw [show 18 + T.size + T.ctor.length = 2 + (16 + T.size + T.ctor.length) by omega]
  refine counters_confined (.inl rfl) (.inr rfl) fun head tail => ?_
  refine .ite (fun _ => .pure fun p hp => by cases hp) fun _ => ?_
  refine (prepare_confined (hR.slot head).writable).mono (Nat.le_refl _) fun r hr p hp => ?_
  obtain ⟨rfl, hfits⟩ := hr p hp
  exact (hR.slot head).part hfits

theorem commitWith_confined {α : Type} {finish : Ptr → Code α} {n : Nat}
    (hfinish : ∀ p, R.Holds p R.slotSize →
      (finish p).Confined R.MayProduce n fun _ => True) :
    (do
      let head ← loadWord R.head
      let _ ← finish (R.slot head)
      storeWord R.head ((head + 1) % 2 ^ R.w)).Confined R.MayProduce (2 + n)
      fun _ => True := by
  rw [show 2 + n = 1 + (n + 1) by omega]
  refine (loadWord_confined (.inl rfl)).bind fun head _ => ?_
  exact (hfinish _ (hR.slot head)).bind fun _ _ => storeWord_confined rfl

theorem commitWrite_confined (hfits : Header.size + T.size ≤ R.slotSize) (c : Bool) :
    (R.commitWrite host T c).Confined R.MayProduce (6 + T.size) fun _ => True := by
  have hfinish : ∀ p, R.Holds p R.slotSize → (finalize host T (some (p.add Header.size))
      c).Confined R.MayProduce (T.size + 4) fun _ => True := by
    intro p hp
    have hpart : R.Holds p (Header.size + T.size) := fun i hi => hp i (by omega)
    exact finalize_confined c hpart.readable hpart.writable
  rw [show 6 + T.size = 2 + (T.size + 4) by omega]
  exact commitWith_confined hR hfinish

theorem pushWith_confined {commit : Code Unit} {n : Nat}
    (hcommit : commit.Confined R.MayProduce n fun _ => True) {value : List UInt8}
    (hlen : value.length = T.size) :
    (R.pushWith host commit T value).Confined R.MayProduce
      (18 + T.size + T.ctor.length + (T.size + n)) fun _ => True := by
  refine (prepareWrite_confined hR).bind fun slot hslot => ?_
  cases slot with
  | none => exact .pure trivial
  | some slot =>
      refine (storeBytes_confined hlen (hslot slot rfl).writable).bind fun _ _ => ?_
      exact hcommit.bind (n := 0) fun _ _ => .pure trivial

theorem peekRead_confined (v : Bool) : (R.peekRead host T v).Confined R.MayConsume
    (22 + T.size) fun r => ∀ p, r = some p → R.Holds p T.size := by
  rw [show 22 + T.size = 2 + (20 + T.size) by omega]
  refine counters_confined (.inr rfl) (.inl rfl) fun tail head => ?_
  refine .ite (fun _ => .pure fun p hp => by cases hp) fun _ => ?_
  refine (view_confined v (hR.slot tail).consumed).mono (Nat.le_refl _) fun r hr p hp => ?_
  obtain ⟨rfl, hfits⟩ := hr p hp
  exact (hR.slot tail).part hfits

omit hR in
theorem commitRead_confined : R.commitRead.Confined R.MayConsume 2 fun _ => True := by
  have hload : (loadWord R.tail).Confined R.MayConsume 1 fun _ => True :=
    loadWord_confined (.inr rfl)
  exact hload.bind fun _ _ => storeWord_confined rfl

theorem pop_confined (v : Bool) : (R.pop host T v).Confined R.MayConsume (24 + 2 * T.size)
    fun r => ∀ bytes, r = some bytes → bytes.length = T.size := by
  rw [show 24 + 2 * T.size = 22 + T.size + (T.size + 2) by omega]
  refine (peekRead_confined hR v).bind fun item hitem => ?_
  cases item with
  | none => exact .pure fun bytes hbytes => by cases hbytes
  | some item =>
      refine (loadBytes_confined (hitem item rfl).consumed).bind fun bytes hbytes => ?_
      refine commitRead_confined.bind (n := 0) fun _ _ => .pure fun bytes' hbytes' => ?_
      rw [← Option.some.inj hbytes', hbytes]

theorem consume_confined {calls : Ev → Prop} {k : Nat} {func : Visitor}
    (hfunc : R.Harmless calls k func) (v : Bool) :
    (R.consume host T func v).Confined (R.MayCallBack calls) (24 + T.size + k)
      fun _ => True := by
  rw [show 24 + T.size + k = 22 + T.size + (k + 2) by omega]
  refine ((peekRead_confined hR v).weaken fun _ => .inl).bind fun item hitem => ?_
  cases item with
  | none => exact .pure trivial
  | some item =>
      refine ((hfunc T item (hitem item rfl)).weaken fun _ => .inr).bind fun outcome _ => ?_
      cases outcome with
      | threw => exact .pure trivial
      | returned =>
          refine (commitRead_confined.weaken fun _ => .inl).bind (n := 0) fun _ _ => ?_
          exact .pure trivial

omit hR in
theorem asks_confined {α : Type} {f : Nat → Nat → α} : (do
    let head ← loadWord R.head
    let tail ← loadWord R.tail
    return f head tail).Confined R.MayAsk 2 fun _ => True :=
  counters_confined (n := 0) (.inl rfl) (.inr rfl) fun _ _ => .pure trivial

end Protocol

end Ring

/-! ## The typed rings -/

/-- A producer's calls end after so many events, keep to what a producer may do, and
hand out pointers to whole payloads in the slots. -/
structure ProducerOps.Confined (ops : ProducerOps) (R : Ring) (T : MsgType)
    (flags : Bool → Prop) : Prop where
  prepareWrite : (ops.prepareWrite T).Confined R.MayProduce (18 + T.size + T.ctor.length)
    fun r => ∀ p, r = some p → R.Holds p T.size
  commitWrite : ∀ c, flags c →
    (ops.commitWrite T c).Confined R.MayProduce (6 + T.size) fun _ => True
  push : ∀ value c, flags c → value.length = T.size → (ops.push T value c).Confined
    R.MayProduce (24 + 3 * T.size + T.ctor.length) fun _ => True

/-- The same of a typed ring's consumer, and of what it calls. -/
structure ConsumerOps.Confined {H : Type} (ops : ConsumerOps H) (h : H) (R : Ring)
    (T : MsgType) : Prop where
  peekRead : ∀ v, (ops.peekRead h T v).Confined R.MayConsume (22 + T.size)
    fun r => ∀ p, r = some p → R.Holds p T.size
  commitRead : (ops.commitRead h).Confined R.MayConsume 2 fun _ => True
  pop : ∀ v, (ops.pop h T v).Confined R.MayConsume (24 + 2 * T.size)
    fun r => ∀ bytes, r = some bytes → bytes.length = T.size
  consume : ∀ calls k func v, R.Harmless calls k func → (ops.consume h T func v).Confined
    (R.MayCallBack calls) (24 + T.size + k) fun _ => True

/-- The same of the queries, which store nothing. -/
structure Ring.Asked (R : Ring) (size : Code Nat) (empty full : Code Bool) : Prop where
  size : size.Confined R.MayAsk 2 fun _ => True
  empty : empty.Confined R.MayAsk 2 fun _ => True
  full : full.Confined R.MayAsk 2 fun _ => True

namespace Ring

variable {R : Ring}

theorem push_confined (hR : R.Masked) (hfits : Header.size + T.size ≤ R.slotSize)
    {value : List UInt8} (hlen : value.length = T.size) (c : Bool) :
    (R.push host T value c).Confined R.MayProduce (24 + 3 * T.size + T.ctor.length)
      fun _ => True :=
  (pushWith_confined hR (commitWrite_confined hR hfits c) hlen).mono (by omega) fun _ => id

theorem asked {passed : Nat → Nat → Nat} : R.Asked (R.sizeWith passed) R.empty R.full :=
  ⟨asks_confined, asks_confined, asks_confined⟩

end Ring

/-- A handle on a mapping works on the ring in that mapping, and on nothing before or
behind it. -/
structure Ring.Over (R : Ring) (P : IpcParams) (data : Ptr) : Prop where
  slots : ∀ p, R.InSlots p ↔ p.base = data.base ∧ data.off + IpcRingHeader.size ≤ p.off ∧
    p.off < data.off + P.totalShmSize
  head : R.head = data.add IpcRingHeader.headOff
  tail : R.tail = data.add IpcRingHeader.tailOff

theorem IpcHandle.attached (P : IpcParams) (hpow : ∃ j, P.capacity = 2 ^ j)
    (shm : SharedMemoryRegion) (data : Ptr) (isProducer : Bool) :
    ∃ R, (attach shm data isProducer).ring P = some R ∧ R.Over P data ∧ R.Masked ∧
      R.slotSize = P.slotSize ∧ R.capacity = P.capacity ∧ R.stride = R.slotSize := by
  refine ⟨_, rfl, ⟨fun p => ?_, rfl, rfl⟩, ⟨hpow, Nat.le_refl _⟩, rfl, rfl, rfl⟩
  simp only [Ring.InSlots, Ptr.add_base, Ptr.add_off, IpcParams.totalShmSize, Nat.add_assoc]

/-- **Typed rings are wait-free and keep to themselves.** Whatever another thread or
process does to the bytes and the counters of a ring while a call is under way, the
call ends after a number of events that depends on the message type only, loads and
stores in the slots of its own ring only, and hands out no pointer that leads out of
them; a consumer stores only `tail`, a producer of the counters only `head`. -/
theorem typed_calls_confined (T : MsgType) (Capacity : Nat) (hpow : ∃ j, Capacity = 2 ^ j)
    (host : Endian) :
    (∀ w this, ∃ R, R = (SpscRingBuffer.layout w T Capacity).at this ∧
      (SpscRingBuffer.producerOps w T Capacity host this).Confined R T (fun _ => True) ∧
      (SpscRingBuffer.consumerOps w T Capacity host this).Confined () R T ∧
      R.Asked (SpscRingBuffer.size w T Capacity this) (SpscRingBuffer.empty w T Capacity this)
        (SpscRingBuffer.full w T Capacity this)) ∧
    ∀ shm data isProducer, ∃ R, R.Over (IpcRingBuffer.params T Capacity) data ∧
      (IpcRingBuffer.producerOps T Capacity host (.attach shm data isProducer)).Confined R T
        (fun _ => True) ∧
      (IpcRingBuffer.consumerOps T Capacity host).Confined (.attach shm data isProducer) R T ∧
      R.Asked (IpcRingBuffer.size T Capacity (.attach shm data isProducer))
        (IpcRingBuffer.empty T Capacity (.attach shm data isProducer))
        (IpcRingBuffer.full T Capacity (.attach shm data isProducer)) := by
  constructor
  · intro w this
    have hR : ((SpscRingBuffer.layout w T Capacity).at this).Masked := by
      refine ⟨hpow, le_roundUp _ ?_⟩
      unfold SpscRingBuffer.kSlotAlign
      split <;> omega
    refine ⟨_, rfl, ⟨?_, ?_, ?_⟩, ⟨?_, ?_, ?_, ?_⟩, Ring.asked⟩
    · exact Ring.prepareWrite_confined hR
    · exact fun c _ => Ring.commitWrite_confined hR (Nat.le_refl _) c
    · exact fun value c _ hlen => Ring.push_confined hR (Nat.le_refl _) hlen c
    · exact Ring.peekRead_confined hR
    · exact Ring.commitRead_confined
    · exact Ring.pop_confined hR
    · exact fun calls k func v hfunc => Ring.consume_confined hR hfunc v
  · intro shm data isProducer
    obtain ⟨R, hring, hover, hR, hsize, -⟩ :=
      IpcHandle.attached (IpcRingBuffer.params T Capacity) hpow shm data isProducer
    have hfits : Header.size + T.size ≤ R.slotSize := by
      rw [hsize]
      exact le_roundUp _ IpcRingBuffer.kSlotAlign_pos
    refine ⟨R, hover, ⟨?_, ?_, ?_⟩, ⟨?_, ?_, ?_, ?_⟩, ?_⟩
    · simp only [IpcRingBuffer.producerOps, IpcRingBuffer.prepareWrite, hring]
      exact Ring.prepareWrite_confined hR
    · intro c _
      simp only [IpcRingBuffer.producerOps, IpcRingBuffer.commitWrite, hring]
      exact Ring.commitWrite_confined hR hfits c
    · intro value c _ hlen
      simp only [IpcRingBuffer.producerOps, IpcRingBuffer.push, hring]
      exact Ring.push_confined hR hfits hlen c
    · intro v
      simp only [IpcRingBuffer.consumerOps, IpcRingBuffer.peekRead, hring]
      exact Ring.peekRead_confined hR v
    · simp only [IpcRingBuffer.consumerOps, IpcRingBuffer.commitRead, hring]
      exact Ring.commitRead_confined
    · intro v
      simp only [IpcRingBuffer.consumerOps, IpcRingBuffer.pop, hring]
      exact Ring.pop_confined hR v
    · intro calls k func v hfunc
      simp only [IpcRingBuffer.consumerOps, IpcRingBuffer.consume, hring]
      exact Ring.consume_confined hR hfunc v
    · simp only [IpcRingBuffer.size, IpcRingBuffer.empty, IpcRingBuffer.full, IpcHandle.size,
        IpcHandle.empty, IpcHandle.full, hring]
      exact Ring.asked

/-- A pop from a ring that another process holds too, in 32 events and no more. -/
theorem typed_calls_confined_ping : ∃ R : Ring,
    R.Over (IpcRingBuffer.params pingMsg 2) ⟨0x1000, 0⟩ ∧
    ((IpcRingBuffer.consumerOps pingMsg 2 .little).pop (.attach {} ⟨0x1000, 0⟩ false) pingMsg
      true).Confined R.MayConsume 32 fun r => ∀ bytes, r = some bytes → bytes.length = 4 := by
  obtain ⟨R, hover, _, hcons, _⟩ :=
    (typed_calls_confined pingMsg 2 ⟨1, rfl⟩ .little).2 {} ⟨0x1000, 0⟩ false
  exact ⟨R, hover, hcons.pop true⟩

/-! ## The bus -/

theorem inspectPacket_confined {size : Nat} (out : PacketView) (h : Readable ok p size) :
    (inspectPacket host (some p) size out).Confined ok 28
      fun r => r.1 = .ok →
        r.2.payload = some (p.add Header.size) ∧ r.2.payloadLen < 2 ^ 32 := by
  have hno : ∀ {err : ErrorCode} {k}, err ≠ .ok →
      (pure (err, out) : Code (ErrorCode × PacketView)).Confined ok k fun r => r.1 = .ok →
        r.2.payload = some (p.add Header.size) ∧ r.2.payloadLen < 2 ^ 32 :=
    fun herr => .pure fun h => absurd h herr
  unfold inspectPacket
  refine .ite (fun _ => hno (by decide)) fun hsize => ?_
  have hfits : Header.size ≤ size := Nat.le_of_not_lt hsize
  have hparts : ∀ {a k}, a + k ≤ 16 → Readable ok (p.add a) k :=
    fun hle => h.part (Nat.le_trans hle hfits)
  have hlen : Readable ok (p.add Header.payloadLenOff) 4 := hparts (by decide)
  have hheader : (loadHeader host p).Confined ok 16 fun _ => True := by
    refine (load32_confined (hparts (by decide))).bind (n := 12) fun _ _ => ?_
    refine (load16_confined (hparts (by decide))).bind (n := 10) fun _ _ => ?_
    refine (load16_confined (hparts (by decide))).bind (n := 8) fun _ _ => ?_
    refine (load32_confined (hparts (by decide))).bind (n := 4) fun _ _ => ?_
    exact (load32_confined hlen).bind (n := 0) fun _ _ => .pure trivial
  refine (load32_confined (hparts (by decide))).bind (n := 24) fun magic _ => ?_
  refine .ite (fun _ => hno (by decide)) fun _ => ?_
  refine (load32_confined hlen).bind (n := 20) fun len _ => ?_
  refine .ite (fun _ => hno (by decide)) fun _ => ?_
  refine hheader.bind (n := 4) fun header _ => ?_
  exact (load32_confined hlen).bind (n := 0) fun len _ => .pure fun _ => ⟨rfl, len.toNat_lt⟩

/-- The events of a dispatch on a slot: those of the magic, and for each type of the
list those of the id, of a look at the payload and of the callback. -/
def dispatchBound (k : Nat) (msgTypes : List MsgType) : Nat :=
  4 + (msgTypes.map fun T => 22 + T.size + k).sum

namespace Ring

variable {R : Ring} {calls : Ev → Prop} {k : Nat} {visitor : Visitor}

theorem callVisitor_confined (hvisitor : R.Harmless calls k visitor) (hp : R.Holds p T.size) :
    (callVisitor visitor T p).Confined (R.MayCallBack calls) k fun _ => True := by
  refine ((hvisitor T p hp).weaken fun _ => .inr).bind (n := 0) fun outcome _ => ?_
  cases outcome <;> exact .pure trivial

theorem tryDispatchEach_confined (hvisitor : R.Harmless calls k visitor) {slot : Ptr}
    (hslot : R.Holds slot R.slotSize) (hfits : Header.size ≤ R.slotSize) (v : Bool)
    (msgTypes : List MsgType) :
    (tryDispatchEach host slot R.slotSize visitor v msgTypes).Confined
      (R.MayCallBack calls) ((msgTypes.map fun T => 22 + T.size + k).sum)
      fun _ => True := by
  have hid : Readable (R.MayCallBack calls) (slot.add Header.msgIdOff) 2 := fun i hi =>
    .inl ((hslot.part (Nat.le_trans (by decide) hfits)) i hi)
  induction msgTypes with
  | nil => exact .pure trivial
  | cons T rest ih =>
      have hsingle : ∀ msgId, (tryDispatchSingle host T msgId (some slot) R.slotSize visitor
          v).Confined (R.MayCallBack calls) (20 + T.size + k) fun _ => True := by
        intro msgId
        refine .ite (fun _ => ?_) fun _ => .pure trivial
        refine ((view_confined v hslot.consumed).weaken fun _ => .inl).bind fun msg hmsg => ?_
        cases msg with
        | none => exact .pure trivial
        | some msg =>
            obtain ⟨rfl, hfits⟩ := hmsg msg rfl
            exact callVisitor_confined hvisitor (hslot.part hfits)
      rw [List.map_cons, List.sum_cons, show ∀ n, 22 + T.size + k + n =
        2 + (20 + T.size + k + n) by omega]
      refine (load16_confined hid).bind fun msgId _ => (hsingle msgId).bind fun r _ => ?_
      exact .ite (fun _ => ih) fun _ => .pure trivial

theorem dispatch_confined (hvisitor : R.Harmless calls k visitor) {slot : Ptr}
    (hslot : R.Holds slot R.slotSize) (v : Bool) (msgTypes : List MsgType) :
    (dispatch host msgTypes (some slot) R.slotSize visitor v).Confined
      (R.MayCallBack calls) (dispatchBound k msgTypes) fun _ => True := by
  unfold dispatch
  refine .ite (fun _ => .pure trivial) fun hsize => ?_
  have hfits : Header.size ≤ R.slotSize := Nat.le_of_not_lt hsize
  have hmagic : Readable (R.MayCallBack calls) (slot.add Header.magicOff) 4 := fun i hi =>
    .inl ((hslot.part (Nat.le_trans (by decide) hfits)) i hi)
  refine (load32_confined hmagic).bind fun magic _ => ?_
  refine .ite (fun _ => .pure trivial) fun _ => ?_
  exact tryDispatchEach_confined hvisitor hslot hfits v msgTypes

end Ring

namespace IpcEnvelopeRingBuffer

variable {MaxPayloadSize Capacity : Nat}

/-- The calls of the bus's consumer, but for a `peek_packet` that verifies. -/
structure Confined (MaxPayloadSize Capacity : Nat) (host : Endian) (h : IpcHandle)
    (R : Ring) : Prop where
  peekPacket : (peekPacket MaxPayloadSize Capacity host h false).Confined R.MayConsume 30
    fun pv => ∀ p, pv.payload = some p → R.Holds p MaxPayloadSize
  peekMsg : ∀ Msg v, (peekMsg MaxPayloadSize Capacity host h Msg v).Confined R.MayConsume
    (22 + Msg.size) fun r => ∀ p, r = some p → R.Holds p Msg.size
  dispatch : ∀ calls k msgTypes visitor v, R.Harmless calls k visitor →
    (dispatch MaxPayloadSize Capacity host h msgTypes visitor v).Confined
      (R.MayCallBack calls) (2 + dispatchBound k msgTypes) fun _ => True
  dispatchAndCommit : ∀ calls k msgTypes visitor v, R.Harmless calls k visitor →
    (dispatchAndCommit MaxPayloadSize Capacity host h msgTypes visitor v).Confined
      (R.MayCallBack calls) (4 + dispatchBound k msgTypes) fun _ => True
  consume : ∀ calls k Msg func v, R.Harmless calls k func →
    (consume MaxPayloadSize Capacity host h Msg func v).Confined (R.MayCallBack calls)
      (24 + Msg.size + k) fun _ => True
  commitRead : (commitRead MaxPayloadSize Capacity h).Confined R.MayConsume 2 fun _ => True

theorem packetAt_confined {ok : Ev → Prop} {slotSize : Nat} (h : Readable ok p slotSize) :
    (packetAt host p slotSize false).Confined ok 28
      fun pv => ∀ q, pv.payload = some q → q = p.add Header.size := by
  refine (inspectPacket_confined {} h).bind (n := 0) fun r hr => ?_
  refine .ite (fun _ => .pure fun q hq => by cases hq) fun hok => ?_
  refine .ite (fun hcrc => absurd hcrc.1 (by decide)) fun _ => .pure fun q hq => ?_
  rw [(hr (not_not.mp hok)).1] at hq
  exact (Option.some.inj hq).symm

theorem dispatchAt_confined {R : Ring} (hR : R.Masked) {calls : Ev → Prop} {k : Nat}
    {visitor : Visitor} (hvisitor : R.Harmless calls k visitor) (msgTypes : List MsgType)
    (v : Bool) : (dispatchAt host R msgTypes visitor v).Confined (R.MayCallBack calls)
      (2 + dispatchBound k msgTypes) fun _ => True := by
  refine Ring.counters_confined (.inl (.inr rfl)) (.inl (.inl rfl)) fun tail head => ?_
  exact .ite (fun _ => .pure trivial) fun _ =>
    Ring.dispatch_confined hvisitor (hR.slot tail) v msgTypes

/-- A commit without a checksum stores four zeros in front of the payload. -/
theorem commitWriteAt_confined {R : Ring} (hR : R.Masked) (hfits : Header.size ≤ R.slotSize) :
    (commitWriteAt host R false).Confined R.MayProduce 6 fun _ => True := by
  have hfinish : ∀ p, R.Holds p R.slotSize →
      (storeCrc host p false).Confined R.MayProduce 4 fun _ => True := by
    intro p hp
    have hcrc : R.Holds (p.add Header.crcOff) 4 :=
      hp.part (Nat.le_trans (by decide) hfits)
    exact store32_confined hcrc.writable
  exact Ring.commitWith_confined hR hfinish

/-- **The bus is wait-free and keeps to itself**, whatever other processes do to it,
in all its calls that do not verify or compute the checksum of an untyped packet. -/
theorem bus_calls_confined (MaxPayloadSize Capacity : Nat) (hpow : ∃ j, Capacity = 2 ^ j)
    (host : Endian) (shm : SharedMemoryRegion) (data : Ptr) (isProducer : Bool) :
    ∃ R : Ring, R.Over (params MaxPayloadSize Capacity) data ∧
      (∀ Msg : MsgType, Msg.size ≤ MaxPayloadSize →
        (producerOps MaxPayloadSize Capacity host (.attach shm data isProducer)).Confined R Msg
          (· = false)) ∧
      Confined MaxPayloadSize Capacity host (.attach shm data isProducer) R ∧
      R.Asked (size MaxPayloadSize Capacity (.attach shm data isProducer))
        (empty MaxPayloadSize Capacity (.attach shm data isProducer))
        (full MaxPayloadSize Capacity (.attach shm data isProducer)) := by
  obtain ⟨R, hring, hover, hR, hsize, -⟩ :=
    IpcHandle.attached (params MaxPayloadSize Capacity) hpow shm data isProducer
  have hfits : Header.size + MaxPayloadSize ≤ R.slotSize := by
    rw [hsize]
    exact le_roundUp _ (by decide)
  have hheader : Header.size ≤ R.slotSize := Nat.le_trans (Nat.le_add_right _ _) hfits
  have hdispatch : ∀ calls k msgTypes visitor v, R.Harmless calls k visitor →
      (dispatch MaxPayloadSize Capacity host (.attach shm data isProducer) msgTypes visitor
        v).Confined (R.MayCallBack calls) (2 + dispatchBound k msgTypes) fun _ => True := by
    intro calls k msgTypes visitor v hvisitor
    simp only [dispatch, hring]
    exact dispatchAt_confined hR hvisitor msgTypes v
  have hcommitRead : (commitRead MaxPayloadSize Capacity
      (.attach shm data isProducer)).Confined R.MayConsume 2 fun _ => True := by
    simp only [commitRead, hring]
    exact Ring.commitRead_confined
  refine ⟨R, hover, fun Msg hMsg => ⟨?_, ?_, ?_⟩, ⟨?_, ?_, hdispatch, ?_, ?_, hcommitRead⟩, ?_⟩
  · simp only [producerOps, prepareWrite, hring]
    exact Ring.prepareWrite_confined hR
  · intro c hc
    subst hc
    simp only [producerOps, commitWrite, hring]
    exact (commitWriteAt_confined hR hheader).mono (Nat.le_add_right _ _) fun _ => id
  · intro value c hc hlen
    subst hc
    simp only [producerOps, push, hring]
    exact (Ring.pushWith_confined hR (commitWriteAt_confined hR hheader) hlen).mono
      (by omega) fun _ => id
  · simp only [peekPacket, hring]
    refine Ring.counters_confined (n := 28) (.inr rfl) (.inl rfl) fun tail head => ?_
    refine .ite (fun _ => .pure fun p hp => by cases hp) fun _ => ?_
    refine (packetAt_confined (hR.slot tail).consumed).mono (Nat.le_refl _) fun pv hpv q hq => ?_
    rw [hpv q hq]
    exact (hR.slot tail).part hfits
  · intro Msg v
    simp only [peekMsg, hring]
    exact Ring.peekRead_confined hR v
  · intro calls k msgTypes visitor v hvisitor
    rw [show 4 + dispatchBound k msgTypes = 2 + dispatchBound k msgTypes + 2 by omega]
    refine (hdispatch calls k msgTypes visitor v hvisitor).bind fun dispatched _ => ?_
    refine .ite (fun _ => ?_) fun _ => .pure trivial
    exact (hcommitRead.weaken fun _ => .inl).bind (n := 0) fun _ _ => .pure trivial
  · intro calls k Msg func v hfunc
    simp only [consume, hring]
    exact Ring.consume_confined hR hfunc v
  · simp only [size, empty, full, IpcHandle.size, IpcHandle.empty, IpcHandle.full, hring]
    exact Ring.asked

theorem bus_calls_confined_default : ∃ R : Ring, R.Over (params 256 1024) ⟨0x1000, 0⟩ ∧
      (peekPacket 256 1024 .little (.attach {} ⟨0x1000, 0⟩ false) false).Confined
        R.MayConsume 30 fun pv => ∀ p, pv.payload = some p → R.Holds p 256 := by
  obtain ⟨R, hover, _, hcalls, _⟩ :=
    bus_calls_confined 256 1024 ⟨10, rfl⟩ .little {} ⟨0x1000, 0⟩ false
  exact ⟨R, hover, hcalls.peekPacket⟩

end IpcEnvelopeRingBuffer

end Sinew
