import Sinew.Proofs.Launch

/-!
# The two processes in good order

The producer's process has nothing committed until `create` has returned, and
then it is a producer on the handle it was given, if that is valid. The consumer's
process holds a handle that is attached to the ring or to nothing, and the
consumer on it is in good order in the sense of its class.
-/

namespace Sinew

open Lib

variable {P : IpcParams} {host : Endian} {types : MsgType → Prop} {b : Backing}
  {s s' : Shared} {o : Order} {α : Type}

theorem Ev.Harmless.creates {e : Ev} (h : e.Harmless) : e.Creates := by
  cases e with
  | storeWord p v => exact h.elim
  | visit T bytes => exact h.elim
  | _ => trivial

theorem SharedMemoryRegion.create_creates (name : Name) (size : Nat) :
    (SharedMemoryRegion.create name size).Always Ev.Creates Paged fun r =>
      ∀ data, r.data = some data → data.off = 0 ∧ 4096 ∣ data.base := by
  have hfail : ∀ r : SharedMemoryRegion, r.fail.Always Ev.Creates Paged fun r =>
      ∀ data, r.data = some data → data.off = 0 ∧ 4096 ∣ data.base := by
    intro r
    refine (r.fail_harmless.weaken (fun _ => Ev.Harmless.creates) fun _ _ h => h).mono ?_
    intro r hr data hdata
    rw [hr] at hdata
    cases hdata
  have hunlink : ∀ (r : SharedMemoryRegion) fd posixName, Prog.Always Ev.Creates Paged (do
      closeFd fd
      shmUnlink posixName
      r.fail) fun r => ∀ data, r.data = some data → data.off = 0 ∧ 4096 ∣ data.base :=
    fun r _ _ => .event_bind trivial fun _ _ => .event_bind trivial fun _ _ => hfail r
  refine .event_bind trivial fun fd _ => ?_
  cases fd with
  | none => exact hfail _
  | some fd =>
      refine .event_bind trivial fun resized _ => ?_
      dsimp only
      split
      · exact hunlink _ _ _
      · refine .event_bind trivial fun ptr hptr => ?_
        cases ptr with
        | none => exact hunlink _ _ _
        | some ptr => exact hptr

/-- The handle of a ring that was created, or none. -/
inductive IpcHandle.Made : IpcHandle → Prop where
  | failed : Made {}
  | attach (shm : SharedMemoryRegion) (data : Ptr) : data.off = 0 → 4096 ∣ data.base →
      Made (.attach shm data true)

theorem IpcHandle.create_creates (P : IpcParams) (host : Endian) (name : Name) :
    (IpcHandle.create P host name).Always Ev.Creates Paged IpcHandle.Made := by
  unfold create
  refine .bind ((SharedMemoryRegion.create_creates _ _).mono fun shm hshm => ?_)
  split
  · exact Made.failed
  · next data hdata =>
      obtain ⟨hoff, hpage⟩ := hshm data hdata
      exact .seq (initHeader_always (fun _ _ => trivial) (fun _ => rfl) P host data)
        fun _ => Made.attach shm data hoff hpage

/-- What is asked of the producer functions of a class of handles. -/
structure Creating (P : IpcParams) (host : Endian) (types : MsgType → Prop)
    (ops : IpcHandle → ProducerOps) : Prop where
  prepareWrite : ∀ T, (ops {}).prepareWrite T = pure none
  push : ∀ T value c, (ops {}).push T value c = pure false
  sound : ∀ shm data, data.off = 0 → 4096 ∣ data.base →
    (ops (.attach shm data true)).Sound P.layout host types false data.base

/-- The producer's process between calls. -/
inductive Creator.Ready (P : IpcParams) (host : Endian) (types : MsgType → Prop)
    (s : Shared) : Creator → Prop where
  | before : s.committed = [] → Ready P host types s {}
  | failed : s.committed = [] → Ready P host types s { handle := some {} }
  | created (shm : SharedMemoryRegion) (data : Ptr) (p : Producer) : data.off = 0 →
      4096 ∣ data.base → p.Ready P.layout host types data.base s →
      Ready P host types s ⟨some (.attach shm data true), p⟩

theorem Creator.Ready.rely {c : Creator} (h : c.Ready P host types s)
    (hr : ProducerRely s s') : c.Ready P host types s' := by
  cases h with
  | before hnone => exact .before (hr.committed.trans hnone)
  | failed hnone => exact .failed (hr.committed.trans hnone)
  | created shm data p hoff hpage hp => exact .created shm data p hoff hpage (hp.rely hr)

theorem Creator.Ready.sent {c : Creator} (h : c.Ready P host types s) :
    s.committed = c.producer.sent := by
  cases h with
  | before hnone => exact hnone
  | failed hnone => exact hnone
  | created shm data p hoff hpage hp => exact hp.sent

theorem CreatorCall.ready {ops : IpcHandle → ProducerOps} (hops : Creating P host types ops)
    (hL : P.layout.Sane) (htypes : ∀ T, types T → P.layout.Takes T) {name : Name}
    {c : Creator} {call : Code Creator}
    (hcall : CreatorCall (IpcHandle.create P host name) ops types c o call)
    (hc : c.Ready P host types b.shared) :
    (Backing.env P.layout host types (producerEnv P.layout host types false)).wp
      (Backing.exec P.layout o) call
      (fun c b' => c.Ready P host types b'.shared) b := by
  have hkeeps : ∀ (c : Creator) (b : Backing), c.Ready P host types b.shared →
      (Backing.env P.layout host types (producerEnv P.layout host types false)).wp
        (Backing.exec P.layout o) (pure c : Code Creator)
        (fun c b' => c.Ready P host types b'.shared) b := fun c b hc =>
    Env.wp_ret fun b' hr _ => hc.rely hr
  cases hcall with
  | create os hnone =>
      have hcom : b.shared.committed = [] := by
        cases hc with
        | before hcom => exact hcom
        | failed => cases hnone
        | created => cases hnone
      refine Env.wp_bind (Env.wp_mono (Env.wp_always (IpcHandle.create_creates P host name)
        (fun b' : Backing => b'.shared.committed = [])
        (fun b₁ b₂ h₁ hr _ => (ProducerRely.committed hr).trans h₁)
        (fun b₁ e hi h₁ he => ?_) hcom) ?_)
      · obtain ⟨hinv, hguar, h₂⟩ := Backing.Inv.creates hi h₁ os he
        exact ⟨Backing.ask_paged os b₁ e, hinv, hguar, h₂⟩
      · intro handle b₁ _ ⟨hmade, h₁⟩
        refine hkeeps _ b₁ ?_
        cases hmade with
        | failed => exact .failed h₁
        | attach shm data hoff hpage =>
            exact .created shm data {} hoff hpage ⟨h₁, fun d hd => by cases hd⟩
  | produce h l call hh hcall =>
      cases hc with
      | before => cases hh
      | failed hcom =>
          obtain rfl := Option.some.inj hh
          cases hcall with
          | prepareWrite T hT =>
              rw [hops.prepareWrite]
              exact hkeeps _ b (.failed hcom)
          | writeByte d i x hd => cases hd
          | commitWrite d computeCrc hd => cases hd
          | push T value computeCrc hT hlen =>
              rw [hops.push]
              exact hkeeps _ b (.failed hcom)
      | created shm data p hoff hpage hp =>
          obtain rfl := Option.some.inj hh
          have hstart : p.Ready P.layout host types data.base (b.shared.recalling []) :=
            hp.rely ⟨rfl, rfl, Nat.le_refl _⟩
          refine Env.wp_bind (Env.wp_mono (deaf_producer.wp_ring
            (ProducerCall.ready (hops.sound shm data hoff hpage) hL htypes hcall hstart)) ?_)
          intro p' b₁ _ ⟨_, seen, hp'⟩
          refine hkeeps _ b₁ (.created shm data p' hoff hpage (hp'.rely ?_))
          exact ⟨rfl, rfl, Nat.le_refl _⟩

/-- What is asked of the consumers of a class of handles: what they are between
calls, and that every call keeps them so. -/
structure Attaching {C : Type} (P : IpcParams) (host : Endian) (types : MsgType → Prop)
    (use : IpcHandle → C → Label → Code C → Prop) (forget : C → C)
    (settled : IpcHandle → C → Shared → Prop) : Prop where
  rely : ∀ {h c s s'}, settled h c s → ConsumerRely P.layout s s' → settled h c s'
  forget : ∀ {h c s} h', settled h c s → settled h' (forget c) s
  use : ∀ {h c l call b}, use h c l call → h.Held P → b.Inv P.layout host types →
    settled h c b.shared →
    (Backing.env P.layout host types (consumerEnv P.layout host types false)).wp
      (Backing.exec P.layout (.ring l)) call (fun c b' => settled h c b'.shared) b

/-- The consumer's process between calls. -/
structure Attached.Ready {C : Type} (P : IpcParams) (settled : IpcHandle → C → Shared → Prop)
    (c : Attached C) (s : Shared) : Prop where
  held : c.handle.Held P
  client : settled c.handle c.client s

section Consumer

variable {C : Type} {use : IpcHandle → C → Label → Code C → Prop} {forget : C → C}
  {settled : IpcHandle → C → Shared → Prop} {c : Attached C}

theorem Attached.Ready.rely (hready : Attaching P host types use forget settled)
    (h : c.Ready P settled s) (hr : ConsumerRely P.layout s s') : c.Ready P settled s' :=
  ⟨h.held, hready.rely h.client hr⟩

theorem AttachedCall.ready (hready : Attaching P host types use forget settled) {name : Name}
    {call : Code (Attached C)}
    (hcall : AttachedCall (IpcHandle.openHandle P host name) use forget c o call)
    (hinv : b.Inv P.layout host types) (hc : c.Ready P settled b.shared) :
    (Backing.env P.layout host types (consumerEnv P.layout host types false)).wp
      (Backing.exec P.layout o) call (fun c b' => c.Ready P settled b'.shared) b := by
  cases hcall with
  | attach os =>
      have hopen := IpcHandle.reopen_harmless P host name c.handle fun h =>
        (⟨h, forget c.client⟩ : Attached C)
      refine Env.wp_mono (wp_harmless ProducerRely.refl hopen b) ?_
      intro c' b₁ _ ⟨⟨h, hheld, heq⟩, hr⟩
      subst heq
      exact ⟨hheld, hready.rely (hready.forget h hc.client) hr⟩
  | drop os =>
      have hdrop : Prog.Always Ev.Harmless Paged (do
          c.handle.destroy
          return (⟨{}, forget c.client⟩ : Attached C))
          fun c' => c' = ⟨{}, forget c.client⟩ := by
        simp only [IpcHandle.destroy, Prog.always_bind]
        exact c.handle.shm.close_harmless.mono fun _ _ => rfl
      refine Env.wp_mono (wp_harmless ProducerRely.refl hdrop b) ?_
      intro c' b₁ _ ⟨heq, hr⟩
      subst heq
      exact ⟨IpcHandle.Held.none, hready.rely (hready.forget {} hc.client) hr⟩
  | use l call hcall =>
      refine Env.wp_bind (Env.wp_mono (hready.use hcall hc.held hinv hc.client) ?_)
      intro c' b₁ _ hc'
      exact Env.wp_ret fun b₂ hr _ => ⟨hc.held, hready.rely hc' hr⟩

end Consumer

section Launch

variable {C : Type} {ops : IpcHandle → ProducerOps}
  {use : IpcHandle → C → Label → Code C → Prop} {forget : C → C}
  {settled : IpcHandle → C → Shared → Prop}

def launchLogic (ops : IpcHandle → ProducerOps) (name : Name)
    (hready : Attaching P host types use forget settled) :
    Logic (launching P.layout
      (CreatorCall (IpcHandle.create P host name) ops types)
      (AttachedCall (IpcHandle.openHandle P host name) use forget)) where
  env
    | .producer => Backing.env P.layout host types (producerEnv P.layout host types false)
    | .consumer => Backing.env P.layout host types (consumerEnv P.layout host types false)
  idle
    | .producer => fun c b => Creator.Ready P host types b.shared c
    | .consumer => fun c b => Attached.Ready P settled c b.shared
  inv_all i j s h := by
    cases i <;> cases j <;> exact h
  compat i j s s' hij h := by
    cases i with
    | producer =>
        cases j with
        | producer => exact absurd rfl hij
        | consumer => exact h
    | consumer =>
        cases j with
        | producer => exact h
        | consumer => exact absurd rfl hij
  idle_stable i c s s' h hr _ := by
    cases i with
    | producer => exact Creator.Ready.rely h hr
    | consumer => exact Attached.Ready.rely hready h hr

/-- In every reachable configuration the invariant holds and a process between
calls is in good order. -/
theorem launch_reach {name : Name} (hops : Creating P host types ops) (hL : P.layout.Sane)
    (htypes : ∀ T, types T → P.layout.Takes T)
    (hready : Attaching P host types use forget settled) {c₀ : C}
    (hstart : settled {} c₀ { byte := fun _ => 0, word := fun _ => 0 })
    {cfg : Config (launching P.layout
      (CreatorCall (IpcHandle.create P host name) ops types)
      (AttachedCall (IpcHandle.openHandle P host name) use forget))}
    (hreach : Reach ⟨{}, launching.idle {} { client := c₀ }⟩ cfg) :
    cfg.state.Inv P.layout host types ∧
      (∀ c : Creator, cfg.thread .producer = .idle (P := launching P.layout
          (CreatorCall (IpcHandle.create P host name) ops types)
          (AttachedCall (IpcHandle.openHandle P host name) use forget) .producer) c →
        c.Ready P host types cfg.state.shared) ∧
      ∀ c : Attached C, cfg.thread .consumer = .idle (P := launching P.layout
          (CreatorCall (IpcHandle.create P host name) ops types)
          (AttachedCall (IpcHandle.openHandle P host name) use forget) .consumer) c →
        c.Ready P settled cfg.state.shared := by
  have hsound : (launchLogic ops name hready).Sound := by
    intro i c o call b hcall hinv hc
    cases i with
    | producer => exact CreatorCall.ready hops hL htypes hcall hc
    | consumer => exact AttachedCall.ready hready hcall hinv hc
  have hgood : (launchLogic ops name hready).Good
      ⟨{}, launching.idle {} { client := c₀ }⟩ := by
    refine ⟨fun i => ?_, fun i => ?_⟩
    · have hinv : Backing.Inv P.layout host types {} :=
        ⟨.empty rfl rfl, (fun _ he => by cases he), rfl⟩
      cases i <;> exact hinv
    · cases i with
      | producer => exact Creator.Ready.before rfl
      | consumer => exact ⟨IpcHandle.Held.none, hstart⟩
  have h := hgood.reach hsound hreach
  exact ⟨h.inv .producer, fun c hc => h.idle hc, fun c hc => h.idle hc⟩

end Launch

end Sinew
