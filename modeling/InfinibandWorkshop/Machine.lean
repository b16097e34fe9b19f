import Mathlib.Algebra.BigOperators.Fin
import Mathlib.Algebra.Order.BigOperators.Group.Finset
import Mathlib.Data.Fintype.BigOperators

/-!
# Labelled machines and their runs

A machine has one initial state and a partial, deterministic step for every
action. All nondeterminism of a concurrent system (who moves next, how long a
read is, what the network delivers) sits in the choice of the action, so an
interleaving is a list of actions. Runs may be restricted to steps that meet a
condition on the state before the step and the action taken there.
-/
namespace InfinibandWorkshop

structure Machine (σ α : Type*) where
  init : σ
  step : σ → α → Option σ

namespace Machine

variable {σ α : Type*}

/-- `m.Run ok as s`: the actions `as`, performed in order from the initial
state, lead to `s`, and each of them met `ok` in the state it was taken in. -/
inductive Run (m : Machine σ α) (ok : σ → α → Prop) : List α → σ → Prop
  | start : Run m ok [] m.init
  | next {as : List α} {s t : σ} {a : α} :
      Run m ok as s → ok s a → m.step s a = some t → Run m ok (as ++ [a]) t

def ReachableBy (m : Machine σ α) (ok : σ → α → Prop) (s : σ) : Prop :=
  ∃ as, m.Run ok as s

/-- Reachable by any interleaving whatsoever. -/
def Reachable (m : Machine σ α) (s : σ) : Prop := m.ReachableBy (fun _ _ => True) s

def Enabled (m : Machine σ α) (s : σ) (a : α) : Prop := ∃ t, m.step s a = some t

variable {m : Machine σ α} {ok : σ → α → Prop}

theorem enabled_of_isSome {s : σ} {a : α} (h : (m.step s a).isSome = true) : m.Enabled s a :=
  Option.isSome_iff_exists.mp h

theorem reachableBy_init : m.ReachableBy ok m.init := ⟨[], .start⟩

theorem ReachableBy.next {s t : σ} {a : α} (h : m.ReachableBy ok s) (hok : ok s a)
    (hst : m.step s a = some t) : m.ReachableBy ok t := by
  obtain ⟨as, hr⟩ := h
  exact ⟨as ++ [a], hr.next hok hst⟩

/-- The invariant rule: what holds initially and survives every permitted step
holds at the end of every permitted run. -/
theorem Run.invariant {Inv : σ → Prop} (h0 : Inv m.init)
    (hs : ∀ s a t, Inv s → ok s a → m.step s a = some t → Inv t)
    {as : List α} {s : σ} (h : m.Run ok as s) : Inv s := by
  induction h with
  | start => exact h0
  | next _ hok hst ih => exact hs _ _ _ ih hok hst

theorem ReachableBy.invariant {Inv : σ → Prop} (h0 : Inv m.init)
    (hs : ∀ s a t, Inv s → ok s a → m.step s a = some t → Inv t)
    {s : σ} (h : m.ReachableBy ok s) : Inv s := by
  obtain ⟨as, hr⟩ := h
  exact hr.invariant h0 hs

/-- A run may be read under a weaker condition. -/
theorem Run.mono {ok' : σ → α → Prop} (hle : ∀ s a, ok s a → ok' s a)
    {as : List α} {s : σ} (h : m.Run ok as s) : m.Run ok' as s := by
  induction h with
  | start => exact .start
  | next _ hok hst ih => exact ih.next (hle _ _ hok) hst

/-- A run may be read under another condition that an invariant yields at every
step of it. -/
theorem Run.upgrade {ok' : σ → α → Prop} {Inv : σ → Prop} (h0 : Inv m.init)
    (hs : ∀ s a t, Inv s → ok s a → m.step s a = some t → ok' s a ∧ Inv t)
    {as : List α} {s : σ} (h : m.Run ok as s) : m.Run ok' as s := by
  have hboth : m.Run ok' as s ∧ Inv s := by
    induction h with
    | start => exact ⟨.start, h0⟩
    | next _ hok hst ih =>
      obtain ⟨hr, hinv⟩ := ih
      obtain ⟨hok', hinv'⟩ := hs _ _ _ hinv hok hst
      exact ⟨hr.next hok' hst, hinv'⟩
  exact hboth.1

/-- Where a step keeps `P` exactly when it is permitted, and a lost `P` never comes
back, `P` holds at the end of the runs of permitted steps and of no others. -/
theorem Run.permitted_iff {Inv P : σ → Prop} (hinv : Inv m.init) (h0 : P m.init)
    (hs : ∀ s a t, Inv s → m.step s a = some t → Inv t ∧ (P t ↔ P s ∧ ok s a))
    {as : List α} {s : σ} (h : m.Run (fun _ _ => True) as s) : m.Run ok as s ↔ P s := by
  have hboth : Inv s ∧ (P s → m.Run ok as s) := by
    induction h with
    | start => exact ⟨hinv, fun _ => .start⟩
    | next _ _ hst ih =>
      obtain ⟨hi, hrun⟩ := ih
      obtain ⟨hi', hp⟩ := hs _ _ _ hi hst
      exact ⟨hi', fun ht => (hrun (hp.mp ht).1).next (hp.mp ht).2 hst⟩
  constructor
  · intro hrun
    have hkeep : Inv s ∧ P s := by
      apply hrun.invariant ⟨hinv, h0⟩
      intro u a t hu hok hst
      obtain ⟨hi', hp⟩ := hs u a t hu.1 hst
      exact ⟨hi', hp.mpr ⟨hu.2, hok⟩⟩
    exact hkeep.2
  · exact hboth.2

/-- A condition on the actions alone can be read off the list of actions. -/
theorem Run.forall_mem {P : α → Prop} {as : List α} {s : σ} (h : m.Run ok as s) :
    m.Run (fun _ a => P a) as s ↔ ∀ a ∈ as, P a := by
  constructor
  · intro hr
    clear h
    induction hr with
    | start => simp
    | @next as s t a _ hok _ ih =>
      intro b hb
      rcases List.mem_append.mp hb with hb | hb
      · exact ih b hb
      · rwa [List.mem_singleton.mp hb]
  · intro hall
    induction h with
    | start => exact .start
    | @next as s t a _ _ hst ih =>
      have hold : ∀ b ∈ as, P b := fun b hb => hall b (List.mem_append_left _ hb)
      exact (ih hold).next (hall a (by simp)) hst

theorem ReachableBy.reachable {s : σ} (h : m.ReachableBy ok s) : m.Reachable s := by
  obtain ⟨as, hr⟩ := h
  exact ⟨as, hr.mono (fun _ _ _ => trivial)⟩

/-- Where no permitted run can take a forbidden step, the restriction is void. -/
theorem Reachable.restrict
    (hs : ∀ s a t, m.ReachableBy ok s → m.step s a = some t → ok s a)
    {s : σ} (h : m.Reachable s) : m.ReachableBy ok s := by
  apply h.invariant reachableBy_init
  intro s a t hr _ hst
  exact hr.next (hs s a t hr hst) hst

/-- Perform a list of actions from a given state; `none` when one of them is
disabled or not permitted. -/
def exec (m : Machine σ α) (ok : σ → α → Prop) [∀ s a, Decidable (ok s a)] :
    σ → List α → Option σ
  | s, [] => some s
  | s, a :: as => if ok s a then (m.step s a).bind (fun t => exec m ok t as) else none

variable [∀ s a, Decidable (ok s a)]

theorem Run.exec {as bs : List α} {s t : σ} (h : m.Run ok as s)
    (he : m.exec ok s bs = some t) : m.Run ok (as ++ bs) t := by
  induction bs generalizing as s with
  | nil =>
    simp only [Machine.exec, Option.some.injEq] at he
    subst t
    simpa using h
  | cons b bs ih =>
    rw [Machine.exec] at he
    split_ifs at he with hok
    obtain ⟨u, hu, he⟩ := Option.bind_eq_some_iff.mp he
    simpa using ih (h.next hok hu) he

/-- An executed trace is a run of the machine. -/
theorem run_of_exec {as : List α} {s : σ} (he : m.exec ok m.init as = some s) :
    m.Run ok as s := by
  simpa using Run.exec .start he

/-- The state an executed trace ends in. -/
theorem reachableBy_of_exec {as : List α} (h : (m.exec ok m.init as).isSome = true) :
    m.ReachableBy ok ((m.exec ok m.init as).get h) :=
  ⟨as, run_of_exec (Option.some_get h).symm⟩

omit [∀ s a, Decidable (ok s a)]

/-- `m` is mapped into `m'` by `f` on the states it can reach: the same actions
are enabled, and they lead to images of each other. -/
structure Embeds {τ : Type*} (m : Machine σ α) (ok : σ → α → Prop) (m' : Machine τ α)
    (ok' : τ → α → Prop) (f : σ → τ) : Prop where
  init : f m.init = m'.init
  permits : ∀ s a, ok s a → ok' (f s) a
  step : ∀ s a, m.ReachableBy ok s → m'.step (f s) a = (m.step s a).map f

variable {τ : Type*} {m' : Machine τ α} {ok' : τ → α → Prop} {f : σ → τ}

theorem Embeds.reachableBy (e : m.Embeds ok m' ok' f) {s : σ} (h : m.ReachableBy ok s) :
    m'.ReachableBy ok' (f s) := by
  obtain ⟨as, hr⟩ := h
  induction hr with
  | start => exact e.init ▸ reachableBy_init
  | @next as s t a hr hok hst ih =>
    apply ih.next (e.permits s a hok)
    rw [e.step s a ⟨as, hr⟩, hst]
    rfl

theorem Embeds.enabled_iff (e : m.Embeds ok m' ok' f) {s : σ} (h : m.ReachableBy ok s) (a : α) :
    m'.Enabled (f s) a ↔ m.Enabled s a := by
  simp only [Enabled, e.step s a h, Option.map_eq_some_iff]
  constructor
  · rintro ⟨_, t, ht, _⟩
    exact ⟨t, ht⟩
  · rintro ⟨t, ht⟩
    exact ⟨f t, t, ht, rfl⟩

/-- Where every permitted step is seen by `f` as a permitted step of `m'`, or not at all,
`f` only ever sees states that `m'` can reach. -/
theorem ReachableBy.project {β : Type*} {m' : Machine τ β} {ok' : τ → β → Prop}
    (h0 : f m.init = m'.init)
    (hs : ∀ s a t, m.ReachableBy ok s → ok s a → m.step s a = some t →
      f t = f s ∨ ∃ b, ok' (f s) b ∧ m'.step (f s) b = some (f t))
    {s : σ} (h : m.ReachableBy ok s) : m'.ReachableBy ok' (f s) := by
  obtain ⟨as, hr⟩ := h
  induction hr with
  | start => exact h0 ▸ reachableBy_init
  | @next as s t a hr hok hst ih =>
    rcases hs s a t ⟨as, hr⟩ hok hst with he | ⟨b, hb, hstep⟩
    · exact he ▸ ih
    · exact ih.next hb hstep

end Machine

/-- The two parties of a client/server system. -/
inductive Role
  | client
  | server
  deriving DecidableEq, Repr

namespace Role

def peer : Role → Role
  | client => server
  | server => client

@[simp] theorem peer_peer (X : Role) : X.peer.peer = X := by cases X <;> rfl

@[simp] theorem peer_ne (X : Role) : X.peer ≠ X := by cases X <;> decide

@[simp] theorem ne_peer (X : Role) : X ≠ X.peer := (peer_ne X).symm

theorem eq_peer_of_ne {X Y : Role} (h : Y ≠ X) : Y = X.peer := by
  cases X <;> cases Y <;> first | rfl | exact absurd rfl h

end Role

section Bump

variable {ι : Type*} [DecidableEq ι]

/-- Count one more event of role `X` at `q`. -/
def bump (f : Role → ι → ℕ) (X : Role) (q : ι) : Role → ι → ℕ :=
  fun Y r => if Y = X ∧ r = q then f Y r + 1 else f Y r

@[simp] theorem bump_self (f : Role → ι → ℕ) (X : Role) (q : ι) :
    bump f X q X q = f X q + 1 := by simp [bump]

theorem bump_of_role_ne (f : Role → ι → ℕ) {X Y : Role} (q r : ι) (h : Y ≠ X) :
    bump f X q Y r = f Y r := by simp [bump, h]

theorem bump_of_ne (f : Role → ι → ℕ) (X Y : Role) {q r : ι} (h : r ≠ q) :
    bump f X q Y r = f Y r := by simp [bump, h]

theorem le_bump (f : Role → ι → ℕ) (X Y : Role) (q r : ι) : f Y r ≤ bump f X q Y r := by
  unfold bump
  split_ifs <;> omega

theorem sum_bump_self [Fintype ι] (f : Role → ι → ℕ) (X : Role) (q : ι) :
    ∑ r, bump f X q X r = (∑ r, f X r) + 1 := by
  have he : ∀ r, bump f X q X r = f X r + if r = q then 1 else 0 := by
    intro r
    simp only [bump, true_and]
    split_ifs <;> rfl
  simp [he, Finset.sum_add_distrib]

theorem sum_bump_of_role_ne [Fintype ι] (f : Role → ι → ℕ) {X Y : Role} (q : ι) (h : Y ≠ X) :
    ∑ r, bump f X q Y r = ∑ r, f Y r :=
  Finset.sum_congr rfl (fun r _ => bump_of_role_ne f q r h)

theorem sum_le_sum_bump [Fintype ι] (f : Role → ι → ℕ) (X Y : Role) (q : ι) :
    ∑ r, f Y r ≤ ∑ r, bump f X q Y r :=
  Finset.sum_le_sum (fun r _ => le_bump f X Y q r)

end Bump

end InfinibandWorkshop
