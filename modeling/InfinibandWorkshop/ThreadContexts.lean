import InfinibandWorkshop.ContextLifetime
import InfinibandWorkshop.ObjectStacks
import InfinibandWorkshop.Progress

/-!
# The contexts of the threads of multithreadIB.c

Every thread makes a device context of its own and what belongs to it, all on one device,
and destroys it again when its loop is over, while the other threads make and destroy
theirs. A call that makes something may fail; then the thread returns and leaves behind
what it has. A call that destroys is refused for an object that is needed.
-/
namespace InfinibandWorkshop.ThreadContexts
open ContextLifetime (Allocator)

/-- The verbs objects of `struct pingpong_context`. -/
inductive Kind
  | context
  | channel
  | pd
  | mr
  | cq
  | qp
  deriving DecidableEq, Repr

/-- The arguments that an object is made from. -/
def Kind.args : Kind → List Kind
  | .context => []
  | .channel => [.context]
  | .pd => [.context]
  | .mr => [.pd]
  | .cq => [.context, .channel]
  | .qp => [.pd, .cq]

/-- The calls of `pp_init_ctx` that make something, in order. -/
def ppInitCtx (useEvent : Bool) : List Kind :=
  [.context] ++ (if useEvent then [.channel] else []) ++ [.pd, .mr, .cq, .qp]

/-- The calls of `pp_close_ctx`; there is a channel to destroy if the pointer is set. -/
def ppCloseCtx {H : Type} (ctx : Kind → Option H) : List Kind :=
  [.qp, .cq, .mr, .pd] ++ (if (ctx .channel).isSome then [.channel] else []) ++ [.context]

/-- Where a thread is; the last one is the value that `runPingPong` returns, 0 for the
pointer to its time. -/
inductive Phase
  | init (todo : List Kind)
  | modify
  | running
  | closing (todo : List Kind)
  | returned (code : ℕ)
  deriving DecidableEq, Repr

/-- A thread with its context, and the objects that it has made and not destroyed. -/
structure Thread (H : Type) where
  phase : Phase
  ctx : Kind → Option H
  objects : List H

structure State (ι H : Type) where
  pool : Pool H
  thread : ι → Thread H
  refused : List H

/-- One call of a thread, with its outcome where it may fail; `leave` is any failing return
between `pp_init_ctx` and `pp_close_ctx`. -/
inductive Action (ι : Type)
  | create (t : ι) (granted : Bool)
  | modifyQp (t : ι) (granted : Bool)
  | leave (t : ι)
  | close (t : ι)
  | destroy (t : ι)
  deriving DecidableEq, Repr

section Source

variable {ι H : Type} [DecidableEq ι] [DecidableEq H]

def State.setThread (s : State ι H) (t : ι) (th : Thread H) : State ι H :=
  { s with thread := Function.update s.thread t th }

/-- The objects that the new one is made from. -/
def Thread.deps (th : Thread H) (k : Kind) : Finset H := (k.args.filterMap th.ctx).toFinset

def step (A : Allocator H) (s : State ι H) : Action ι → Option (State ι H)
  | .create t granted =>
    let th := s.thread t
    match th.phase with
    | .init (k :: todo) =>
      if granted then
        let a := A.pick s.pool.live
        let pool := s.pool.create a (th.deps k) (A.fresh s.pool.live)
        some ({ s with pool := pool }.setThread t {
          phase := if todo = [] then .modify else .init todo
          ctx := Function.update th.ctx k (some a)
          objects := a :: th.objects })
      else some (s.setThread t { th with phase := .returned 1 })
    | _ => none
  | .modifyQp t granted =>
    if (s.thread t).phase = .modify then
      some (s.setThread t { s.thread t with
        phase := if granted then .running else .returned 1 })
    else none
  | .leave t =>
    if (s.thread t).phase = .running then
      some (s.setThread t { s.thread t with phase := .returned 1 })
    else none
  | .close t =>
    if (s.thread t).phase = .running then
      some (s.setThread t { s.thread t with phase := .closing (ppCloseCtx (s.thread t).ctx) })
    else none
  | .destroy t =>
    let th := s.thread t
    match th.phase with
    | .closing (k :: todo) =>
      match th.ctx k with
      | some a =>
        match s.pool.destroy a with
        | some pool => some ({ s with pool := pool }.setThread t { th with
            phase := if todo = [] then .returned 0 else .closing todo
            objects := th.objects.erase a })
        | none => some ({ s with refused := s.refused ++ [a] }.setThread t
            { th with phase := .returned 1 })
      | none => none
    | _ => none

/-- No thread has called anything, and other processes may have objects on the device. -/
def system (A : Allocator H) (useEvent : Bool) (old : Pool H) :
    Machine (State ι H) (Action ι) where
  init := ⟨old, fun _ => ⟨.init (ppInitCtx useEvent), fun _ => none, []⟩, []⟩
  step := step A

end Source

section Effect

variable {ι H : Type} [DecidableEq ι] [DecidableEq H] {A : Allocator H} {s s' : State ι H}
  {a : Action ι}

/-- The calls that a thread makes yet at most. -/
def Phase.calls : Phase → ℕ
  | .init todo => todo.length + 8
  | .modify => 8
  | .running => 7
  | .closing todo => todo.length
  | .returned _ => 0

/-- The phases that a thread can go to without touching an object. -/
inductive Goes (th : Thread H) : Phase → Prop
  | fails : 0 < th.phase.calls → Goes th (.returned 1)
  | runs : th.phase = .modify → Goes th .running
  | closes : th.phase = .running → Goes th (.closing (ppCloseCtx th.ctx))

/-- What a call of thread `t` does. -/
inductive Effect (A : Allocator H) (s : State ι H) (t : ι) : State ι H → Prop
  | created {k : Kind} {todo : List Kind} : (s.thread t).phase = .init (k :: todo) →
      Effect A s t ({ s with
        pool := s.pool.create (A.pick s.pool.live) ((s.thread t).deps k)
          (A.fresh s.pool.live) }.setThread t {
        phase := if todo = [] then .modify else .init todo
        ctx := Function.update (s.thread t).ctx k (some (A.pick s.pool.live))
        objects := A.pick s.pool.live :: (s.thread t).objects })
  | went {ph : Phase} : Goes (s.thread t) ph →
      Effect A s t (s.setThread t { s.thread t with phase := ph })
  | destroyed {k : Kind} {todo : List Kind} {x : H} {pool : Pool H} :
      (s.thread t).phase = .closing (k :: todo) → (s.thread t).ctx k = some x →
      s.pool.destroy x = some pool →
      Effect A s t ({ s with pool := pool }.setThread t { s.thread t with
        phase := if todo = [] then .returned 0 else .closing todo
        objects := (s.thread t).objects.erase x })
  | refused {k : Kind} {todo : List Kind} {x : H} :
      (s.thread t).phase = .closing (k :: todo) → (s.thread t).ctx k = some x →
      s.pool.destroy x = none →
      Effect A s t ({ s with refused := s.refused ++ [x] }.setThread t
        { s.thread t with phase := .returned 1 })

theorem step_effect (hst : step A s a = some s') : ∃ t, Effect A s t s' := by
  cases a with
  | create t granted =>
    refine ⟨t, ?_⟩
    cases hph : (s.thread t).phase with
    | init todo =>
      cases todo with
      | nil => simp [step, hph] at hst
      | cons k todo =>
        cases granted with
        | true =>
          simp only [step, hph, if_true, Option.some.injEq] at hst
          exact hst ▸ .created hph
        | false =>
          simp only [step, hph, Bool.false_eq_true, if_false, Option.some.injEq] at hst
          exact hst ▸ .went (.fails (by simp [hph, Phase.calls]))
    | modify | running | closing | returned => simp [step, hph] at hst
  | modifyQp t granted =>
    refine ⟨t, ?_⟩
    rw [step] at hst
    by_cases hph : (s.thread t).phase = .modify
    · rw [if_pos hph] at hst
      obtain rfl := Option.some.inj hst
      cases granted with
      | true => exact .went (.runs hph)
      | false => exact .went (.fails (by simp [hph, Phase.calls]))
    · rw [if_neg hph] at hst
      cases hst
  | leave t =>
    simp only [step] at hst
    split_ifs at hst with hph
    obtain rfl := Option.some.inj hst
    exact ⟨t, .went (.fails (by simp [hph, Phase.calls]))⟩
  | close t =>
    simp only [step] at hst
    split_ifs at hst with hph
    obtain rfl := Option.some.inj hst
    exact ⟨t, .went (.closes hph)⟩
  | destroy t =>
    refine ⟨t, ?_⟩
    cases hph : (s.thread t).phase with
    | closing todo =>
      cases todo with
      | nil => simp [step, hph] at hst
      | cons k todo =>
        cases hx : (s.thread t).ctx k with
        | none => simp [step, hph, hx] at hst
        | some x =>
          cases hpool : s.pool.destroy x with
          | none =>
            simp only [step, hph, hx, hpool, Option.some.injEq] at hst
            exact hst ▸ .refused hph hx hpool
          | some pool =>
            simp only [step, hph, hx, hpool, Option.some.injEq] at hst
            exact hst ▸ .destroyed hph hx hpool
    | init | modify | running | returned => simp [step, hph] at hst

end Effect

section Order

/-- Closing undoes opening, the last object first. -/
theorem ppCloseCtx_eq {H : Type} {ctx : Kind → Option H} {useEvent : Bool}
    (h : (ctx .channel).isSome = useEvent) : ppCloseCtx ctx = (ppInitCtx useEvent).reverse := by
  rw [ppCloseCtx, h]
  cases useEvent <;> rfl

theorem ppCloseCtx_length_le {H : Type} (ctx : Kind → Option H) : (ppCloseCtx ctx).length ≤ 6 := by
  unfold ppCloseCtx
  split_ifs <;> simp

theorem ppInitCtx_length_le (useEvent : Bool) : (ppInitCtx useEvent).length ≤ 6 := by
  cases useEvent <;> decide

theorem ppInitCtx_nodup (useEvent : Bool) : (ppInitCtx useEvent).Nodup := by
  cases useEvent <;> decide

theorem channel_mem_iff (useEvent : Bool) :
    Kind.channel ∈ ppInitCtx useEvent ↔ useEvent = true := by
  cases useEvent <;> decide

end Order

section Held

variable {H : Type}

/-- The context names the objects of a thread, and nothing else. -/
structure Names (ctx : Kind → Option H) (made : List Kind) (objects : List H) : Prop where
  objects : objects.map some = made.map ctx
  unset : ∀ k, k ∉ made → ctx k = none

/-- What a thread has in hand, by its phase. -/
def Held (useEvent : Bool) (th : Thread H) : Prop :=
  match th.phase with
  | .init todo => todo ≠ [] ∧ ∃ made, made.reverse ++ todo = ppInitCtx useEvent ∧
      Names th.ctx made th.objects
  | .modify | .running => Names th.ctx (ppInitCtx useEvent).reverse th.objects
  | .closing todo => todo ≠ [] ∧ todo <:+ ppCloseCtx th.ctx ∧
      th.objects.map some = todo.map th.ctx
  | .returned 0 => th.objects = []
  | .returned (_ + 1) => True

theorem Names.mem {ctx : Kind → Option H} {made : List Kind} {objects : List H} {k : Kind} {a : H}
    (h : Names ctx made objects) (ha : ctx k = some a) : a ∈ objects := by
  have hk : k ∈ made := by
    by_contra hk
    rw [h.unset k hk] at ha
    cases ha
  have hmem : some a ∈ objects.map some := by
    rw [h.objects, List.mem_map]
    exact ⟨k, hk, ha⟩
  obtain ⟨b, hb, he⟩ := List.mem_map.mp hmem
  exact Option.some.inj he ▸ hb

theorem Names.deps [DecidableEq H] {th : Thread H} {made : List Kind}
    (h : Names th.ctx made th.objects) (k : Kind) : th.deps k ⊆ th.objects.toFinset := by
  intro a ha
  obtain ⟨j, _, hj⟩ := List.mem_filterMap.mp (List.mem_toFinset.mp ha)
  exact List.mem_toFinset.mpr (h.mem hj)

theorem Names.cons {ctx : Kind → Option H} {made : List Kind} {objects : List H} {k : Kind}
    (h : Names ctx made objects) (hk : k ∉ made) (a : H) :
    Names (Function.update ctx k (some a)) (k :: made) (a :: objects) := by
  constructor
  · rw [List.map_cons, List.map_cons, Function.update_self, h.objects]
    congr 1
    apply List.map_congr_left
    intro j hj
    have hne : j ≠ k := fun he => hk (he ▸ hj)
    exact (Function.update_of_ne hne _ _).symm
  · intro j hj
    rw [List.mem_cons, not_or] at hj
    rw [Function.update_of_ne hj.1, h.unset j hj.2]

/-- With all objects made, the thread is ready to close. -/
theorem Names.closing {ctx : Kind → Option H} {useEvent : Bool} {objects : List H}
    (h : Names ctx (ppInitCtx useEvent).reverse objects) :
    objects.map some = (ppCloseCtx ctx).map ctx := by
  have hchannel : (ctx .channel).isSome = useEvent := by
    cases hu : useEvent with
    | false =>
      have hnot : Kind.channel ∉ (ppInitCtx useEvent).reverse := by
        rw [List.mem_reverse, channel_mem_iff, hu]
        decide
      rw [h.unset _ hnot]
      rfl
    | true =>
      have hmem : ctx .channel ∈ objects.map some := by
        rw [h.objects]
        exact List.mem_map_of_mem (by rw [List.mem_reverse, channel_mem_iff, hu])
      obtain ⟨a, _, ha⟩ := List.mem_map.mp hmem
      rw [← ha]
      rfl
  rw [ppCloseCtx_eq hchannel, h.objects]

end Held

section Sound

variable {ι H : Type} [DecidableEq ι] [DecidableEq H] {A : Allocator H} {useEvent : Bool}
  {old : Pool H} {s s' : State ι H} {a : Action ι}

def State.objects (s : State ι H) (t : ι) : List H := (s.thread t).objects

/-- Nothing was refused, the threads' objects are stacked in the pool, and every thread
holds what its phase says. -/
structure Sound (useEvent : Bool) (old : Pool H) (s : State ι H) : Prop where
  refused : s.refused = []
  stacked : old.Stacked s.pool s.objects
  held : ∀ t, Held useEvent (s.thread t)

theorem sound_init : Sound useEvent old (system (ι := ι) A useEvent old).init where
  refused := rfl
  stacked := old.stacked_nil
  held t := by
    refine ⟨?_, [], rfl, rfl, fun _ _ => rfl⟩
    cases useEvent <;> decide

omit [DecidableEq H] in
theorem setThread_objects (t : ι) (th : Thread H) :
    (s.setThread t th).objects = Function.update s.objects t th.objects := by
  funext u
  by_cases hu : u = t
  · subst u
    simp [State.objects, State.setThread]
  · simp [State.objects, State.setThread, hu]

omit [DecidableEq H] in
theorem setThread_held {th : Thread H} {t : ι} (h : ∀ t, Held useEvent (s.thread t))
    (ht : Held useEvent th) (u : ι) : Held useEvent ((s.setThread t th).thread u) := by
  by_cases hu : u = t
  · subst u
    simpa [State.setThread] using ht
  · simpa [State.setThread, hu] using h u

omit [DecidableEq H] in
/-- A thread goes on, or returns, without touching an object. -/
theorem Sound.setPhase (h : Sound useEvent old s) (t : ι) {ph : Phase}
    (hheld : Held useEvent { s.thread t with phase := ph }) :
    Sound useEvent old (s.setThread t { s.thread t with phase := ph }) := by
  refine ⟨h.refused, ?_, setThread_held h.held hheld⟩
  rw [setThread_objects]
  have hsame : Function.update s.objects t (s.thread t).objects = s.objects :=
    Function.update_eq_self t s.objects
  rw [hsame]
  exact h.stacked

theorem Sound.create (h : Sound useEvent old s) {t : ι} {k : Kind} {todo : List Kind}
    (hph : (s.thread t).phase = .init (k :: todo)) :
    Sound useEvent old ({ s with
      pool := s.pool.create (A.pick s.pool.live) ((s.thread t).deps k)
        (A.fresh s.pool.live) }.setThread t {
      phase := if todo = [] then .modify else .init todo
      ctx := Function.update (s.thread t).ctx k (some (A.pick s.pool.live))
      objects := A.pick s.pool.live :: (s.thread t).objects }) := by
  have hheld := h.held t
  rw [Held, hph] at hheld
  obtain ⟨_, made, hmade, hnames⟩ := hheld
  have hk : k ∉ made := by
    have hnodup := ppInitCtx_nodup useEvent
    rw [← hmade, List.nodup_append] at hnodup
    exact fun hmem => hnodup.2.2 k (List.mem_reverse.mpr hmem) k List.mem_cons_self rfl
  have hnext := hnames.cons hk (A.pick s.pool.live)
  refine ⟨h.refused, ?_, ?_⟩
  · rw [setThread_objects]
    exact h.stacked.push (i := t) (A.fresh s.pool.live) (hnames.deps k)
      (Function.update_self _ _ _) (fun u hu => Function.update_of_ne hu _ _)
  · apply setThread_held h.held
    by_cases htodo : todo = []
    · subst todo
      have hall : k :: made = (ppInitCtx useEvent).reverse := by
        rw [← hmade]
        simp
      simpa [Held, hall] using hnext
    · have hall : (k :: made).reverse ++ todo = ppInitCtx useEvent := by
        rw [← hmade]
        simp
      have hrest : Held useEvent ⟨.init todo,
          Function.update (s.thread t).ctx k (some (A.pick s.pool.live)),
          A.pick s.pool.live :: (s.thread t).objects⟩ := ⟨htodo, k :: made, hall, hnext⟩
      rwa [if_neg htodo]

theorem Sound.destroy (h : Sound useEvent old s) {t : ι} {k : Kind} {todo : List Kind}
    (hph : (s.thread t).phase = .closing (k :: todo)) :
    ∃ x pool, (s.thread t).ctx k = some x ∧ s.pool.destroy x = some pool ∧
      Sound useEvent old ({ s with pool := pool }.setThread t { s.thread t with
        phase := if todo = [] then .returned 0 else .closing todo
        objects := (s.thread t).objects.erase x }) := by
  have hheld := h.held t
  rw [Held, hph] at hheld
  obtain ⟨_, hsuffix, hobjects⟩ := hheld
  -- the next object of the list is the one that was made last
  cases hlist : (s.thread t).objects with
  | nil => simp [hlist] at hobjects
  | cons x rest =>
    rw [hlist, List.map_cons, List.map_cons, List.cons.injEq] at hobjects
    obtain ⟨hx, hrest⟩ := hobjects
    have htop : s.objects t = x :: rest := hlist
    obtain ⟨pool, hpool, hstacked⟩ := h.stacked.pop (i := t)
      (show s.objects t = x :: Function.update s.objects t rest t by
        rw [htop, Function.update_self])
      (fun u hu => Function.update_of_ne hu _ _)
    have herase : (x :: rest).erase x = rest := by simp
    refine ⟨x, pool, hx.symm, hpool, h.refused, ?_, ?_⟩
    · rw [setThread_objects, herase]
      exact hstacked
    · apply setThread_held h.held
      simp only [herase]
      by_cases htodo : todo = []
      · subst todo
        simpa [Held] using hrest
      · rw [if_neg htodo]
        exact ⟨htodo, (List.suffix_cons k todo).trans hsuffix, hrest⟩

theorem Sound.next (h : Sound useEvent old s) (hst : step A s a = some s') :
    Sound useEvent old s' := by
  obtain ⟨t, heffect⟩ := step_effect hst
  cases heffect with
  | created hph => exact h.create hph
  | went hgoes =>
    have hheld := h.held t
    cases hgoes with
    | fails => exact h.setPhase t trivial
    | runs hph =>
      rw [Held, hph] at hheld
      exact h.setPhase t hheld
    | closes hph =>
      rw [Held, hph] at hheld
      exact h.setPhase t ⟨by simp [ppCloseCtx], List.suffix_refl _, hheld.closing⟩
  | destroyed hph hx hpool =>
    obtain ⟨y, pool, hy, hdestroy, hsound⟩ := h.destroy hph
    obtain rfl := Option.some.inj (hx.symm.trans hy)
    obtain rfl := Option.some.inj (hpool.symm.trans hdestroy)
    exact hsound
  | refused hph hx hpool =>
    obtain ⟨y, pool, hy, hdestroy, _⟩ := h.destroy hph
    obtain rfl := Option.some.inj (hx.symm.trans hy)
    rw [hpool] at hdestroy
    cases hdestroy

theorem sound_of_reachableBy {ok : State ι H → Action ι → Prop}
    (h : (system A useEvent old).ReachableBy ok s) : Sound useEvent old s :=
  h.invariant sound_init (fun _ _ _ hs _ hst => hs.next hst)

end Sound

section Guarantee

variable {ι H : Type} [DecidableEq ι] [DecidableEq H] {A : Allocator H} {useEvent : Bool}
  {old : Pool H} {s s' : State ι H} {a : Action ι}

/-- The device is shared without a trace: no request to destroy was refused, its objects are
the old ones and those that the threads have, each of them with one thread, a thread that
closes finds its next object free, and one that is through has none. -/
structure Shared (old : Pool H) (s : State ι H) : Prop where
  refused : s.refused = []
  live : ∀ x, x ∈ s.pool.live ↔ x ∈ old.live ∨ ∃ t, x ∈ s.objects t
  fresh : ∀ t, ∀ x ∈ s.objects t, x ∉ old.live
  apart : ∀ t u, t ≠ u → ∀ x ∈ s.objects t, x ∉ s.objects u
  closing : ∀ t k todo, (s.thread t).phase = .closing (k :: todo) →
    ∃ x, (s.thread t).ctx k = some x ∧ s.pool.Free x
  through : ∀ t, (s.thread t).phase = .returned 0 → s.objects t = []

theorem Sound.shared (h : Sound useEvent old s) : Shared old s where
  refused := h.refused
  live := h.stacked.live
  fresh := h.stacked.fresh
  apart := h.stacked.apart
  closing t k todo hph := by
    obtain ⟨x, pool, hx, hpool, _⟩ := h.destroy hph
    refine ⟨x, hx, ?_⟩
    by_contra hfree
    rw [Pool.destroy, dif_neg hfree] at hpool
    cases hpool
  through t hph := by
    have hheld := h.held t
    rwa [Held, hph] at hheld

theorem device_shared (h : (system A useEvent old).Reachable s) : Shared old s :=
  (sound_of_reachableBy h).shared

/-- A handle above all that are in use. -/
def above : Allocator ℕ where
  pick s := ∑ x ∈ s, (x + 1)
  fresh s h := by
    have hle := Finset.single_le_sum (f := fun x => x + 1) (fun _ _ => Nat.zero_le _) h
    exact absurd hle (Nat.not_succ_le_self _)

/-- Two threads, one of which fails after two objects, while the other one closes. -/
def crossing : List (Action Bool) :=
  [.create true true, .create false true, .create true true, .create false true,
    .create false true, .create true false, .create false true, .create false true,
    .modifyQp false true, .close false, .destroy false]

theorem crossing_runs : ((system above false ContextLifetime.noObjects.pool).exec
    (fun _ _ => True) (system above false ContextLifetime.noObjects.pool).init
    crossing).isSome = true := by decide

theorem device_shared_crossing :
    ∃ s, (system above false ContextLifetime.noObjects.pool).Reachable s ∧
      (s.thread true).phase = .returned 1 ∧ s.pool.live.card = 6 ∧
      Shared ContextLifetime.noObjects.pool s :=
  ⟨_, Machine.reachableBy_of_exec crossing_runs, by decide, by decide,
    device_shared (Machine.reachableBy_of_exec crossing_runs)⟩

omit [DecidableEq H] in
theorem Held.calls_le {th : Thread H} (h : Held useEvent th) : th.phase.calls ≤ 14 := by
  rw [Held] at h
  cases hph : th.phase with
  | init todo =>
    rw [hph] at h
    obtain ⟨_, made, hmade, _⟩ := h
    have hlen := congrArg List.length hmade
    have hle := ppInitCtx_length_le useEvent
    rw [List.length_append] at hlen
    simp only [Phase.calls]
    omega
  | closing todo =>
    rw [hph] at h
    have hle := h.2.1.length_le.trans (ppCloseCtx_length_le th.ctx)
    simp only [Phase.calls]
    omega
  | modify | running | returned => simp [Phase.calls]

omit [DecidableEq H] in
theorem Goes.calls_lt {th : Thread H} {ph : Phase} (h : Goes th ph) :
    ph.calls < th.phase.calls := by
  cases h with
  | fails hpos => exact hpos
  | runs hph => simp [hph, Phase.calls]
  | closes hph =>
    have hle := ppCloseCtx_length_le th.ctx
    simp only [hph, Phase.calls]
    omega

theorem next_calls_lt (k : Kind) (todo : List Kind) :
    (if todo = [] then Phase.modify else .init todo).calls < (Phase.init (k :: todo)).calls := by
  by_cases htodo : todo = []
  · simp [htodo, Phase.calls]
  · simp [htodo, Phase.calls]

theorem rest_calls_lt (k : Kind) (todo : List Kind) :
    (if todo = [] then Phase.returned 0 else .closing todo).calls <
      (Phase.closing (k :: todo)).calls := by
  by_cases htodo : todo = []
  · simp [htodo, Phase.calls]
  · simp [htodo, Phase.calls]

/-- A call brings its thread on, and no other. -/
theorem Effect.calls_lt {t : ι} (h : Effect A s t s') :
    (s'.thread t).phase.calls < (s.thread t).phase.calls ∧
      ∀ u, u ≠ t → s'.thread u = s.thread u := by
  cases h with
  | created hph =>
    refine ⟨?_, fun u hu => Function.update_of_ne hu _ _⟩
    simpa [State.setThread, hph] using next_calls_lt _ _
  | went hgoes =>
    refine ⟨?_, fun u hu => Function.update_of_ne hu _ _⟩
    simpa [State.setThread] using hgoes.calls_lt
  | destroyed hph _ _ =>
    refine ⟨?_, fun u hu => Function.update_of_ne hu _ _⟩
    simpa [State.setThread, hph] using rest_calls_lt _ _
  | refused hph _ _ =>
    refine ⟨?_, fun u hu => Function.update_of_ne hu _ _⟩
    simp [State.setThread, hph, Phase.calls]

/-- A thread that has not returned can make its next call. -/
theorem not_stuck (h : Sound useEvent old s) {t : ι}
    (ht : ∀ code, (s.thread t).phase ≠ .returned code) :
    ¬ (system A useEvent old).Stuck (fun _ _ => True) s := by
  have hcall : ∃ a, (system A useEvent old).Enabled s a := by
    cases hph : (s.thread t).phase with
    | init todo =>
      cases todo with
      | nil =>
        have hheld := h.held t
        rw [Held, hph] at hheld
        exact absurd rfl hheld.1
      | cons k todo => exact ⟨.create t true, _, by simp [system, step, hph]; rfl⟩
    | modify => exact ⟨.modifyQp t true, _, by simp [system, step, hph]; rfl⟩
    | running => exact ⟨.close t, _, by simp [system, step, hph]; rfl⟩
    | closing todo =>
      cases todo with
      | nil =>
        have hheld := h.held t
        rw [Held, hph] at hheld
        exact absurd rfl hheld.1
      | cons k todo =>
        obtain ⟨x, pool, hx, hpool, _⟩ := h.destroy hph
        exact ⟨.destroy t, _, by simp [system, step, hph, hx, hpool]; rfl⟩
    | returned code => exact absurd hph (ht code)
  obtain ⟨a, henabled⟩ := hcall
  exact Machine.not_stuck_of_enabled trivial henabled

/-- Every thread has returned; what is on the device besides the old objects was left behind
by threads that failed, and nothing is if none did. -/
structure AllReturned (old : Pool H) (s : State ι H) : Prop where
  returned : ∀ t, ∃ code, (s.thread t).phase = .returned code
  left : ∀ x, x ∈ s.pool.live ↔ x ∈ old.live ∨
    ∃ t, (s.thread t).phase ≠ .returned 0 ∧ x ∈ s.objects t
  undone : (∀ t, (s.thread t).phase = .returned 0) → s.pool.live = old.live

theorem Sound.allReturned (h : Sound useEvent old s)
    (hall : ∀ t, ∃ code, (s.thread t).phase = .returned code) : AllReturned old s where
  returned := hall
  left x := by
    rw [h.shared.live]
    constructor
    · rintro (hx | ⟨t, hx⟩)
      · exact .inl hx
      · refine .inr ⟨t, fun hph => ?_, hx⟩
        rw [h.shared.through t hph] at hx
        exact List.not_mem_nil hx
    · rintro (hx | ⟨t, _, hx⟩)
      · exact .inl hx
      · exact .inr ⟨t, hx⟩
  undone hzero := h.stacked.live_eq (fun t => h.shared.through t (hzero t))

variable [Fintype ι]

/-- The calls that have been made, at least. -/
def rank (s : State ι H) : ℕ := ∑ t, (14 - (s.thread t).phase.calls)

theorem climbs : (system A useEvent old : Machine (State ι H) _).Climbs (fun _ _ => True) rank := by
  intro s a s' hreach _ hst
  have hsound := sound_of_reachableBy hreach
  obtain ⟨t, heffect⟩ := step_effect hst
  obtain ⟨hlt, hother⟩ := heffect.calls_lt
  refine Finset.sum_lt_sum ?_ ⟨t, Finset.mem_univ t, ?_⟩
  · intro u _
    by_cases hu : u = t
    · subst u
      omega
    · rw [hother u hu]
  · have hle := (hsound.held t).calls_le
    omega

theorem threads_return : (system A useEvent old).Completes (fun _ _ => True)
    (14 * Fintype.card ι) (AllReturned (ι := ι) old) := by
  apply Machine.completes climbs
  · intro s _
    have hle := Finset.sum_le_card_nsmul Finset.univ (fun t => 14 - (s.thread t).phase.calls) 14
      (fun t _ => Nat.sub_le _ _)
    rw [smul_eq_mul, Finset.card_univ, Nat.mul_comm] at hle
    exact hle
  · intro s hreach hnot
    have hsound := sound_of_reachableBy hreach
    have hsome : ∃ t, ∀ code, (s.thread t).phase ≠ .returned code := by
      by_contra hnone
      push Not at hnone
      exact hnot (hsound.allReturned hnone)
    obtain ⟨t, ht⟩ := hsome
    exact not_stuck hsound ht

end Guarantee

end InfinibandWorkshop.ThreadContexts
