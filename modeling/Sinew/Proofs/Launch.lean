import Sinew.Model.Launch
import Sinew.Proofs.AttachSound

/-!
# What a launch keeps

Until `create` has returned nothing is committed, so nothing is taken either and
both counters are zero: the stores of `create` and whatever the kernel cuts off
or adds are harmless to the invariant of a session, which is why it holds from
the start and not from the end of `create` on. To a consumer that has attached in
the middle, the ring is an empty one.

From there on a call on the ring is what it is in a session. The two differ in
one thing, which is what is remembered of callbacks: on a bus where two types
look alike a callback may be handed a message as the other type. So the invariant
speaks of the segment without that memory, and what a session proves of a call is
carried over by a simulation that forgets it.
-/

namespace Sinew

open Lib

variable {L : Layout} {host : Endian} {types : MsgType → Prop} {base : Nat}
  {b b' : Backing} {s s' : Shared} {l : Label} {α : Type}

/-- Callbacks were handed what was committed, as a type that looks like the one it
was committed as. -/
def Shared.Heard (s : Shared) : Prop :=
  ∀ e ∈ s.seen, ∃ U, e.2.1.Alike U ∧ s.committed[e.1]? = some (U, e.2.2)

theorem Shared.Heard.grow (h : s.Heard) (hseen : s'.seen = s.seen)
    (hcom : s.committed <+: s'.committed) : s'.Heard := by
  intro e he
  rw [hseen] at he
  obtain ⟨U, halike, hget⟩ := h e he
  exact ⟨U, halike, List.IsPrefix.getElem?_some hcom hget⟩

/-- The segment with other memories of callbacks. -/
def Shared.recalling (s : Shared) (seen : List (Nat × MsgType × List UInt8)) : Shared :=
  { s with seen := seen }

/-- What is remembered of an event. -/
def Shared.recalled (s : Shared) : Ev → List (Nat × MsgType × List UInt8)
  | .visit T bytes => [(s.taken.length, T, bytes)]
  | _ => []

theorem Shared.seen_exec (L : Layout) (l : Label) (s : Shared) (e : Ev) :
    (Shared.exec L l s e).2.seen = s.seen ++ s.recalled e := by
  cases e with
  | storeWord p v =>
      simp only [Shared.exec, Shared.storeWord, Shared.recalled, List.append_nil]
      split
      · split <;> rfl
      · split <;> rfl
  | visit T bytes => rfl
  | _ => exact (List.append_nil _).symm

/-- What an event does has nothing to do with them. -/
theorem Shared.exec_recalling (L : Layout) (l : Label) (s : Shared)
    (seen : List (Nat × MsgType × List UInt8)) (e : Ev) :
    Shared.exec L l (s.recalling seen) e = ((Shared.exec L l s e).1,
      (Shared.exec L l s e).2.recalling (seen ++ s.recalled e)) := by
  cases e with
  | storeWord p v =>
      simp only [Shared.exec, Shared.storeWord, Shared.recalled, List.append_nil]
      split
      · split <;> rfl
      · split <;> rfl
  | visit T bytes => rfl
  | _ => simp [Shared.exec, Shared.recalled, Shared.recalling]

theorem Shared.Inv.recalling {stepwise : Bool} (h : s.Inv L host types stepwise)
    {seen : List (Nat × MsgType × List UInt8)}
    (hseen : ∀ e ∈ seen, s.committed[e.1]? = some e.2) :
    (s.recalling seen).Inv L host types false :=
  ⟨h.head, h.tail, h.le, h.room, h.typed, h.live, h.taken, hseen, fun h => by cases h⟩

/-- The ring is a ring in order, but for what callbacks were handed, which may have
been handed as another type; and no commit has been undone. -/
structure Backing.Inv (L : Layout) (host : Endian) (types : MsgType → Prop)
    (b : Backing) : Prop where
  ring : (b.shared.recalling []).Inv L host types false
  heard : b.shared.Heard
  intact : b.overwritten = false

/-- An environment of a session, over what the kernel has. -/
def Backing.env (L : Layout) (host : Endian) (types : MsgType → Prop) (E : Env Shared) :
    Env Backing where
  inv b := b.Inv L host types
  rely b b' := E.rely b.shared b'.shared
  guar b b' := E.guar b.shared b'.shared
  rely_refl b := E.rely_refl b.shared
  rely_trans b b' b'' := E.rely_trans b.shared b'.shared b''.shared

/-- An environment that what callbacks were handed plays no part in, except that
each side may rely on the other's having no callbacks. -/
structure Deaf (L : Layout) (host : Endian) (types : MsgType → Prop) (E : Env Shared) :
    Prop where
  inv : ∀ {s}, E.inv s ↔ s.Inv L host types false
  rely_committed : ∀ {s s'}, E.rely s s' → s.committed <+: s'.committed
  rely_recalling : ∀ {s s'} seen, E.rely s s' → E.rely (s.recalling seen) (s'.recalling seen)
  guar_committed : ∀ {s s'}, E.guar s s' → s.committed <+: s'.committed
  guar_recalling : ∀ {s s'} seen new, s'.seen = s.seen ++ new →
    E.guar (s.recalling seen) (s'.recalling (seen ++ new)) → E.guar s s'

theorem deaf_producer : Deaf L host types (producerEnv L host types false) where
  inv := Iff.rfl
  rely_committed h := ⟨[], by rw [List.append_nil, ProducerRely.committed h]⟩
  rely_recalling _ h := ⟨h.byte, h.committed, h.taken⟩
  guar_committed h := ConsumerRely.committed h
  guar_recalling seen new hseen h := by
    have hnew : new = [] := List.append_right_eq_self.mp (ConsumerRely.seen h)
    refine ⟨h.taken, ?_, h.committed, h.live⟩
    rw [hseen, hnew, List.append_nil]

theorem deaf_consumer : Deaf L host types (consumerEnv L host types false) where
  inv := Iff.rfl
  rely_committed h := ConsumerRely.committed h
  rely_recalling _ h := ⟨h.taken, rfl, h.committed, h.live⟩
  guar_committed h := ⟨[], by rw [List.append_nil, ProducerRely.committed h]⟩
  guar_recalling _ _ _ h := ⟨h.byte, h.committed, h.taken⟩

/-- The segment as a session sees it: with memories of callbacks that are right. -/
structure Backing.Sessional (b : Backing) (s : Shared) : Prop where
  eq : s = b.shared.recalling s.seen
  seen : ∀ e ∈ s.seen, b.shared.committed[e.1]? = some e.2

theorem Backing.Sessional.start (b : Backing) : b.Sessional (b.shared.recalling []) :=
  ⟨rfl, fun _ he => by cases he⟩

/-- What a session knows of a call, a launch does. -/
theorem Deaf.wp_ring {E : Env Shared} (hE : Deaf L host types E) {p : Code α}
    {Q : α → Shared → Prop}
    (h : E.wp (Shared.exec L l) p Q (b.shared.recalling [])) :
    (Backing.env L host types E).wp (Backing.exec L (.ring l)) p
      (fun a b' => b'.Inv L host types ∧ ∃ seen, Q a (b'.shared.recalling seen)) b := by
  have hsim : (Backing.env L host types E).wp (Backing.exec L (.ring l)) p
      (fun a b' => ∃ s', Backing.Sessional b' s' ∧ E.inv s' ∧ Q a s') b := by
    refine Env.wp_sim Backing.Sessional (fun b b' v hv hr hi => ?_)
      (fun b e v hi hv hinv hguar => ?_) (.start b) h
    · have hrely : E.rely b.shared b'.shared := hr
      have hring : (b'.shared.recalling []).Inv L host types false := Backing.Inv.ring hi
      have hcom := hE.rely_committed hrely
      have hseen : ∀ e ∈ v.seen, b'.shared.committed[e.1]? = some e.2 := fun e he =>
        List.IsPrefix.getElem?_some hcom (hv.seen e he)
      refine ⟨b'.shared.recalling v.seen, ⟨rfl, hseen⟩, ?_, hE.inv.mpr (hring.recalling hseen)⟩
      rw [hv.eq]
      exact hE.rely_recalling v.seen hrely
    · have hexec := Shared.exec_recalling L l b.shared v.seen e
      rw [← hv.eq] at hexec
      rw [hexec] at hinv hguar ⊢
      have hold := Shared.seen_exec L l b.shared e
      have hring := hE.inv.mp hinv
      have hguar' : E.guar b.shared (Shared.exec L l b.shared e).2 := by
        rw [hv.eq] at hguar
        exact hE.guar_recalling v.seen _ hold hguar
      have hnew : ∀ x ∈ b.shared.recalled e,
          (Shared.exec L l b.shared e).2.committed[x.1]? = some x.2 := fun x hx =>
        hring.seen x (List.mem_append_right _ hx)
      have hi : b.Inv L host types := hi
      refine ⟨rfl, ⟨rfl, hring.seen⟩, ⟨hring.recalling (fun _ he => by cases he), ?_,
        hi.intact⟩, hguar'⟩
      intro x hx
      have hx : x ∈ (Shared.exec L l b.shared e).2.seen := hx
      rw [hold] at hx
      rcases List.mem_append.mp hx with hx | hx
      · obtain ⟨U, halike, hget⟩ := hi.heard x hx
        exact ⟨U, halike, List.IsPrefix.getElem?_some (hE.guar_committed hguar') hget⟩
      · exact ⟨x.2.1, ⟨rfl, rfl, rfl⟩, hnew x hx⟩
  refine Env.wp_mono hsim fun a b' hi ⟨v, hv, _, hQ⟩ => ⟨hi, v.seen, ?_⟩
  rw [hv.eq] at hQ
  exact hQ

theorem Backing.ask_paged (os : OsAnswers) (b : Backing) (e : Ev) :
    Paged e (b.ask L os e).1 := by
  cases e with
  | mmap n fd => exact os.paged
  | _ => trivial

theorem Backing.ask_harmless {e : Ev} (he : e.Harmless) (os : OsAnswers) (b : Backing) :
    (b.ask L os e).2.shared = b.shared ∧ (b.ask L os e).2.overwritten = b.overwritten := by
  cases e with
  | store p x => exact he.elim
  | storeWord p v => exact he.elim
  | visit T bytes => exact he.elim
  | ftruncate fd n => exact he.elim
  | shmOpen name flags =>
      obtain ⟨hcreat, htrunc⟩ := he
      simp only [Backing.ask, Backing.shmOpen, hcreat, htrunc]
      cases os.shmOpen with
      | none => exact ⟨rfl, rfl⟩
      | some fd =>
          cases b.named with
          | true => exact ⟨rfl, rfl⟩
          | false => exact ⟨rfl, rfl⟩
  | _ => exact ⟨rfl, rfl⟩

theorem Backing.Inv.congr (h : b.Inv L host types) (hshared : b'.shared = b.shared)
    (hintact : b'.overwritten = b.overwritten) : b'.Inv L host types := by
  refine ⟨?_, ?_, hintact.trans h.intact⟩
  · rw [hshared]
    exact h.ring
  · rw [hshared]
    exact h.heard

/-- Opening the name and letting it go changes nothing. -/
theorem wp_harmless {E : Env Shared} (hguar : ∀ s, E.guar s s) {os : OsAnswers}
    {p : Code α} {R : α → Prop} (h : p.Always Ev.Harmless Paged R) (b : Backing) :
    (Backing.env L host types E).wp (Backing.exec L (.system os)) p
      (fun a b' => R a ∧ E.rely b.shared b'.shared) b := by
  refine Env.wp_always h (fun b' : Backing => E.rely b.shared b'.shared)
    (fun _ _ hb hr _ => E.rely_trans _ _ _ hb hr) (fun b' e hi hb he => ?_)
    (E.rely_refl b.shared)
  obtain ⟨hshared, hintact⟩ := Backing.ask_harmless (L := L) he os b'
  refine ⟨Backing.ask_paged os b' e, Backing.Inv.congr hi hshared hintact, ?_, ?_⟩
  · show E.guar b'.shared (b'.ask L os e).2.shared
    rw [hshared]
    exact hguar _
  · show E.rely b.shared (b'.ask L os e).2.shared
    rw [hshared]
    exact hb

theorem Shared.Inv.taken_eq_nil {stepwise : Bool} (h : s.Inv L host types stepwise)
    (hnone : s.committed = []) : s.taken = [] := by
  have hle := h.le
  rw [hnone] at hle
  exact List.eq_nil_of_length_eq_zero (Nat.le_zero.mp hle)

/-- While nothing is committed, anything may be done to the bytes, and a counter
may be set to what it is, which is zero. -/
theorem Backing.Inv.setup (h : b.Inv L host types) (hnone : b.shared.committed = [])
    (b' : Backing) (hcom : b'.shared.committed = b.shared.committed)
    (htaken : b'.shared.taken = b.shared.taken) (hseen : b'.shared.seen = b.shared.seen)
    (hintact : b'.overwritten = b.overwritten)
    (hword : ∀ a, b.shared.word a = 0 → b'.shared.word a = 0) :
    b'.Inv L host types ∧ ConsumerRely L b.shared b'.shared := by
  have hnothing : b.shared.taken = [] := h.ring.taken_eq_nil hnone
  have hhead : b'.shared.word L.headOff = 0 := hword _ <| by
    have := h.ring.head
    simpa [Shared.recalling, hnone] using this
  have htail : b'.shared.word L.tailOff = 0 := hword _ <| by
    have := h.ring.tail
    simpa [Shared.recalling, hnothing] using this
  have hprefix : b.shared.committed <+: b'.shared.committed :=
    ⟨[], by rw [List.append_nil, hcom]⟩
  refine ⟨⟨?_, h.heard.grow hseen hprefix, hintact.trans h.intact⟩,
    ⟨htaken, hseen, hprefix, fun k _ hlt => ?_⟩⟩
  · have hring : b'.shared.recalling [] =
        { byte := b'.shared.byte, word := b'.shared.word } := by
      rw [Shared.recalling, hcom, htaken, hnone, hnothing]
    rw [hring]
    exact .empty hhead htail
  · rw [hnone] at hlt
    cases hlt

/-- An event of `create`: it hands nothing to a callback, and the words it stores
are zero. -/
def Ev.Creates : Ev → Prop
  | .storeWord _ v => v = 0
  | .visit _ _ => False
  | _ => True

theorem Backing.Inv.creates (h : b.Inv L host types) (hnone : b.shared.committed = [])
    (os : OsAnswers) {e : Ev} (he : e.Creates) :
    (b.ask L os e).2.Inv L host types ∧ ConsumerRely L b.shared (b.ask L os e).2.shared ∧
      (b.ask L os e).2.shared.committed = [] := by
  have hsame : b.Inv L host types ∧ ConsumerRely L b.shared b.shared ∧
      b.shared.committed = [] := ⟨h, ConsumerRely.refl L _, hnone⟩
  have hresize : ∀ n, (b.setSegment (b.segment.resize n)).Inv L host types ∧
      ConsumerRely L b.shared (b.setSegment (b.segment.resize n)).shared ∧
      (b.setSegment (b.segment.resize n)).shared.committed = [] := by
    intro n
    obtain ⟨hinv, hrely⟩ := h.setup hnone (b.setSegment (b.segment.resize n))
      rfl rfl rfl rfl fun a ha => by
        simp only [Backing.setSegment, Segment.resize, Backing.segment, ha, ite_self]
    exact ⟨hinv, hrely, hnone⟩
  cases e with
  | visit T bytes => exact he.elim
  | store p x =>
      obtain ⟨hinv, hrely⟩ := h.setup hnone (b.ask L os (.store p x)).2
        rfl rfl rfl rfl fun a ha => ha
      exact ⟨hinv, hrely, hnone⟩
  | storeWord p v =>
      obtain rfl : v = 0 := he
      have hnothing : b.shared.taken = [] := h.ring.taken_eq_nil hnone
      obtain ⟨hinv, hrely⟩ := h.setup hnone (b.resetWord L p.off 0) rfl rfl rfl
        (by simp [Backing.resetWord, hnone, hnothing]) fun a ha => by
          simp only [Backing.resetWord, Function.update_apply, ha, ite_self]
      exact ⟨hinv, hrely, hnone⟩
  | shmOpen name flags =>
      simp only [Backing.ask, Backing.shmOpen]
      cases os.shmOpen with
      | none => exact hsame
      | some fd =>
          cases b.named with
          | true =>
              simp only [if_true]
              split
              · exact hsame
              · split
                · exact hresize 0
                · exact hsame
          | false =>
              simp only [Bool.false_eq_true, if_false]
              split
              · obtain ⟨hinv, hrely⟩ := h.setup hnone
                  { b.setSegment .empty with named := true } rfl rfl rfl rfl fun _ _ => rfl
                exact ⟨hinv, hrely, hnone⟩
              · exact hsame
  | ftruncate fd n =>
      simp only [Backing.ask, Backing.ftruncate]
      split
      · exact hresize n
      · exact hsame
  | shmUnlink name =>
      exact ⟨h.congr rfl rfl, ConsumerRely.refl L _, hnone⟩
  | _ => exact hsame

end Sinew
