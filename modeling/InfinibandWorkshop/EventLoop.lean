import InfinibandWorkshop.RoundEnds

/-!
# The loop that sleeps on completion events

With `use_event` (option `-e` of Original/rc_pingpong.c, a constant in multithreadIB.c) a
host does not spin on its completion queue. It waits for an event on the channel, asks for
the next one, and only then polls, once and for at most two entries; a poll may find
nothing. The queue reports one event for the first completion after each request, and no
further one until it is asked again. What happens to the requests and completions is as in
the loop that polls.
-/
namespace InfinibandWorkshop.Events
open Verbs
open scoped BigOperators

/-- Where a host is between two batches: in `ibv_get_cq_event`, before or behind
`ibv_req_notify_cq`, or gone because an event was not for its completion queue. -/
inductive Phase
  | waiting
  | woken
  | polling
  | returned
  deriving DecidableEq, Repr

/-- The completion queue's side of the channel, the events on it (each names a completion
queue by its host), and the host's place in its turn. -/
structure Notifier where
  armed : Bool
  channel : List Role
  numCqEvents : ℕ
  phase : Phase
  deriving DecidableEq, Repr

/-- A completion is added to the queue of `X`. -/
def Notifier.notify (e : Notifier) (X : Role) : Notifier :=
  if e.armed then { e with armed := false, channel := e.channel ++ [X] } else e

structure State (n : ℕ) (Loc Ret : Type) where
  hosts : Verbs.State n Loc Ret
  events : Role → Notifier

inductive Action (n : ℕ)
  | deliver (X : Role) (q : Fin n)
  | vanish (X : Role) (q : Fin n)
  | abort (X : Role) (q : Fin n)
  | ibvGetCqEvent (X : Role)
  | ibvReqNotifyCq (X : Role)
  | ibvPollCq (X : Role)
  | handle (X : Role)
  deriving DecidableEq, Repr

section System

variable {n : ℕ} {Loc Ret : Type} (P : Role → Program n Loc Ret)

def State.setEvents (s : State n Loc Ret) (X : Role) (e : Notifier) : State n Loc Ret :=
  { s with events := Function.update s.events X e }

/-- How many entries a poll returns: all there are, up to the number asked for. -/
def batch (s : State n Loc Ret) (X : Role) : ℕ :=
  min (P X).numEntries (s.hosts.host X).cq.length

def step (s : State n Loc Ret) : Action n → Option (State n Loc Ret)
  | .deliver X q =>
    (Verbs.step P s.hosts (.deliver X q)).map
      (fun h => ⟨h, fun Y => (s.events Y).notify Y⟩)
  | .vanish X q => (Verbs.step P s.hosts (.vanish X q)).map (fun h => { s with hosts := h })
  | .abort X q =>
    (Verbs.step P s.hosts (.abort X q)).map
      (fun h => { s.setEvents X ((s.events X).notify X) with hosts := h })
  | .ibvGetCqEvent X =>
    match (s.hosts.host X).loop, (s.events X).channel with
    | .ok l, evCq :: rest =>
      if (P X).again l = true ∧ (s.hosts.host X).wc = [] ∧ (s.events X).phase = .waiting then
        some (s.setEvents X { s.events X with
          channel := rest
          numCqEvents := (s.events X).numCqEvents + 1
          phase := if evCq ≠ X then .returned else .woken })
      else none
    | _, _ => none
  | .ibvReqNotifyCq X =>
    if (s.events X).phase = .woken then
      some (s.setEvents X { s.events X with armed := true, phase := .polling })
    else none
  | .ibvPollCq X =>
    if (s.events X).phase = .polling then
      if batch P s X = 0 then some (s.setEvents X { s.events X with phase := .waiting })
      else (Verbs.step P s.hosts (.poll X (batch P s X))).map
        (fun h => { s.setEvents X { s.events X with phase := .waiting } with hosts := h })
    else none
  | .handle X => (Verbs.step P s.hosts (.handle X)).map (fun h => { s with hosts := h })

/-- The first `ibv_req_notify_cq` is made before anything is sent. -/
def system : Machine (State n Loc Ret) (Action n) where
  init := ⟨(Verbs.system P).init, fun _ => ⟨true, [], 0, .waiting⟩⟩
  step := step P

end System

section Steps

variable {n : ℕ} {Loc Ret : Type} {P : Role → Program n Loc Ret} {s t : State n Loc Ret}
  {a : Action n} {X : Role}

@[simp] theorem setEvents_hosts (s : State n Loc Ret) (X : Role) (e : Notifier) :
    (s.setEvents X e).hosts = s.hosts := rfl

@[simp] theorem setEvents_self (s : State n Loc Ret) (X : Role) (e : Notifier) :
    (s.setEvents X e).events X = e := by simp [State.setEvents]

theorem setEvents_ne (s : State n Loc Ret) {X Y : Role} (e : Notifier) (hY : Y ≠ X) :
    (s.setEvents X e).events Y = s.events Y := by simp [State.setEvents, hY]

theorem getCqEvent_cases (h : step P s (.ibvGetCqEvent X) = some t) :
    ∃ l evCq rest, (s.hosts.host X).loop = .ok l ∧ (P X).again l = true ∧
      (s.hosts.host X).wc = [] ∧ (s.events X).phase = .waiting ∧
      (s.events X).channel = evCq :: rest ∧
      t = s.setEvents X { s.events X with
        channel := rest
        numCqEvents := (s.events X).numCqEvents + 1
        phase := if evCq ≠ X then .returned else .woken } := by
  simp only [step] at h
  split at h
  · next l evCq rest hl hc =>
    by_cases hif : (P X).again l = true ∧ (s.hosts.host X).wc = [] ∧
        (s.events X).phase = .waiting
    · rw [if_pos hif] at h
      exact ⟨l, evCq, rest, hl, hif.1, hif.2.1, hif.2.2, hc, (Option.some.inj h).symm⟩
    · rw [if_neg hif] at h
      cases h
  · cases h

theorem reqNotifyCq_cases (h : step P s (.ibvReqNotifyCq X) = some t) :
    (s.events X).phase = .woken ∧
      t = s.setEvents X { s.events X with armed := true, phase := .polling } := by
  simp only [step] at h
  split_ifs at h with hif
  exact ⟨hif, (Option.some.inj h).symm⟩

/-- A poll finds nothing, or it is a poll of the other loop with all there is. -/
theorem pollCq_cases (h : step P s (.ibvPollCq X) = some t) :
    (s.events X).phase = .polling ∧
      t.events = (s.setEvents X { s.events X with phase := .waiting }).events ∧
      (batch P s X = 0 ∧ t.hosts = s.hosts ∨
        Verbs.step P s.hosts (.poll X (batch P s X)) = some t.hosts) := by
  simp only [step] at h
  split_ifs at h with hpoll hempty
  · cases h
    exact ⟨hpoll, rfl, .inl ⟨hempty, rfl⟩⟩
  · obtain ⟨g, hg, rfl⟩ := Option.map_eq_some_iff.mp h
    exact ⟨hpoll, rfl, .inr hg⟩

/-- To the requests and completions a step is one of the polling loop, or none at all. -/
theorem step_hosts (h : step P s a = some t) :
    t.hosts = s.hosts ∨ ∃ b, Verbs.step P s.hosts b = some t.hosts := by
  cases a with
  | deliver X q | vanish X q | abort X q | handle X =>
    obtain ⟨g, hg, rfl⟩ := Option.map_eq_some_iff.mp h
    exact .inr ⟨_, hg⟩
  | ibvGetCqEvent X =>
    obtain ⟨_, _, _, _, _, _, _, _, rfl⟩ := getCqEvent_cases h
    exact .inl rfl
  | ibvReqNotifyCq X =>
    obtain ⟨_, rfl⟩ := reqNotifyCq_cases h
    exact .inl rfl
  | ibvPollCq X =>
    obtain ⟨_, _, ⟨_, hh⟩ | hh⟩ := pollCq_cases h
    · exact .inl hh
    · exact .inr ⟨_, hh⟩

/-- So a run of this loop is a run of the polling one. -/
theorem hosts_reachable (h : (system P).Reachable s) :
    (Verbs.system P).Reachable s.hosts := by
  refine Machine.ReachableBy.project (f := State.hosts) rfl ?_ h
  intro s a t _ _ hst
  rcases step_hosts hst with he | ⟨b, hb⟩
  · exact .inl he
  · exact .inr ⟨b, trivial, hb⟩

end Steps

section Awake

variable {n : ℕ} {Loc Ret : Type} {P : Role → Program n Loc Ret} {s t : State n Loc Ret}
  {a : Action n} {X : Role}

/-- The host cannot sleep through a completion: outside the gap between an event and the
next request, the queue will report or has reported, and what is there while the host
waits came after the last poll. -/
structure Awake (P : Role → Program n Loc Ret) (s : State n Loc Ret) (X : Role) : Prop where
  own : ∀ evCq ∈ (s.events X).channel, evCq = X
  stays : (s.events X).phase ≠ .returned
  asked : (s.events X).phase ≠ .woken → (s.events X).armed = true ∨ (s.events X).channel ≠ []
  drained : (s.events X).phase = .waiting → (s.events X).armed = true →
    (s.hosts.host X).cq = []
  turn : (s.events X).phase ≠ .waiting →
    ∃ l, (s.hosts.host X).loop = .ok l ∧ (P X).again l = true ∧ (s.hosts.host X).wc = []
  counted : (s.events X).numCqEvents + (s.events X).channel.length ≤
    (s.hosts.host X).completions.length

theorem awake_init (X : Role) : Awake P (system P).init X where
  own := by simp [system]
  stays := by simp [system]
  asked := fun _ => .inl rfl
  drained := fun _ _ => rfl
  turn := fun h => absurd rfl h
  counted := Nat.zero_le _

/-- A step of the other host, or of the network, that leaves this host alone. -/
theorem Awake.congr (h : Awake P s X) (he : t.events X = s.events X)
    (hh : t.hosts.host X = s.hosts.host X) : Awake P t X := by
  constructor
  case own => rw [he]; exact h.own
  case stays => rw [he]; exact h.stays
  case asked => rw [he]; exact h.asked
  case drained => rw [he, hh]; exact h.drained
  case turn => rw [he, hh]; exact h.turn
  case counted => rw [he, hh]; exact h.counted

/-- A completion that comes while the queue was asked to report leaves an event. -/
theorem Awake.complete (h : Awake P s X) {w : IbvWc}
    (he : t.events X = (s.events X).notify X)
    (hh : t.hosts.host X = (s.hosts.host X).complete w) : Awake P t X := by
  have hlen : ((s.hosts.host X).complete w).completions.length =
      (s.hosts.host X).completions.length + 1 := by
    simp only [Host.completions, Host.complete, List.length_append, List.length_singleton]
    omega
  have hphase : (t.events X).phase = (s.events X).phase := by
    rw [he, Notifier.notify]
    split_ifs <;> rfl
  constructor
  case own =>
    rw [he, Notifier.notify]
    split_ifs
    · intro evCq hev
      rcases List.mem_append.mp hev with hev | hev
      · exact h.own evCq hev
      · exact List.mem_singleton.mp hev
    · exact h.own
  case stays => rw [hphase]; exact h.stays
  case asked =>
    rw [hphase, he, Notifier.notify]
    intro hw
    split_ifs with ha
    · exact .inr (by simp)
    · exact h.asked hw
  case drained =>
    rw [he, Notifier.notify]
    intro _ harmed
    split_ifs at harmed with ha
    exact absurd harmed ha
  case turn => rw [hphase, hh]; exact h.turn
  case counted =>
    rw [hh, hlen, he, Notifier.notify]
    have hc := h.counted
    split_ifs
    · simp only [List.length_append, List.length_singleton]
      omega
    · omega

theorem Awake.getCqEvent (h : Awake P s X) (hst : step P s (.ibvGetCqEvent X) = some t) :
    Awake P t X := by
  obtain ⟨l, evCq, rest, hl, ha, hw, _, hc, rfl⟩ := getCqEvent_cases hst
  have hev : evCq = X := h.own evCq (by simp [hc])
  constructor
  case own =>
    rw [setEvents_self]
    exact fun e he => h.own e (by rw [hc]; exact List.mem_cons_of_mem _ he)
  case stays => simp [hev]
  case asked => simp [hev]
  case drained => simp [hev]
  case turn => exact fun _ => ⟨l, hl, ha, hw⟩
  case counted =>
    have hcount := h.counted
    rw [hc, List.length_cons] at hcount
    rw [setEvents_self, setEvents_hosts]
    show (s.events X).numCqEvents + 1 + rest.length ≤ _
    omega

theorem Awake.reqNotifyCq (h : Awake P s X) (hst : step P s (.ibvReqNotifyCq X) = some t) :
    Awake P t X := by
  obtain ⟨hphase, rfl⟩ := reqNotifyCq_cases hst
  constructor
  case own => rw [setEvents_self]; exact h.own
  case stays => simp
  case asked => simp
  case drained => simp
  case turn => exact fun _ => h.turn (by rw [hphase]; decide)
  case counted => rw [setEvents_self]; exact h.counted

/-- A poll that asks for as many entries as there can be empties the queue. -/
theorem Awake.pollCq (h : Awake P s X) (hst : step P s (.ibvPollCq X) = some t)
    (hcq : (s.hosts.host X).cq.length ≤ (P X).numEntries) : Awake P t X := by
  obtain ⟨hphase, hev, hor⟩ := pollCq_cases hst
  have hbatch : batch P s X = (s.hosts.host X).cq.length := min_eq_right hcq
  have he : t.events X = { s.events X with phase := .waiting } := by
    rw [hev, setEvents_self]
  have hhost : (t.hosts.host X).cq = [] ∧
      (t.hosts.host X).completions.length = (s.hosts.host X).completions.length := by
    rcases hor with ⟨hzero, hh⟩ | hh
    · rw [hh]
      exact ⟨List.length_eq_zero_iff.mp (hbatch.symm.trans hzero), rfl⟩
    · obtain ⟨_, _, _, hw, _, ht⟩ := step_poll hh
      rw [ht, State.setHost_self, hbatch]
      simp [Host.completions, hw]
  constructor
  case own => rw [he]; exact h.own
  case stays => simp [he]
  case asked =>
    rw [he]
    exact fun _ => h.asked (by rw [hphase]; decide)
  case drained => exact fun _ _ => hhost.1
  case turn => simp [he]
  case counted =>
    rw [he, hhost.2]
    exact h.counted

theorem Awake.handle (h : Awake P s X) (hst : step P s (.handle X) = some t) :
    Awake P t X := by
  obtain ⟨g, hg, rfl⟩ := Option.map_eq_some_iff.mp hst
  obtain ⟨l, w, ws, _, hw, rfl⟩ := step_handle hg
  have hphase : (s.events X).phase = .waiting := by
    by_contra hne
    obtain ⟨_, _, _, hnil⟩ := h.turn hne
    rw [hw] at hnil
    cases hnil
  constructor
  case own => exact h.own
  case stays => exact h.stays
  case asked => exact h.asked
  case drained =>
    intro hp harmed
    rw [State.setHost_self, handled_cq]
    exact h.drained hp harmed
  case turn => exact fun hne => absurd hphase hne
  case counted =>
    rw [State.setHost_self, handled_completions hw]
    exact h.counted

/-- What a step of one host leaves of the other. -/
theorem other_host {b : Verbs.Action n} {g : Verbs.State n Loc Ret}
    (hb : ∀ Y q, b ≠ .deliver Y q) (ha : ∀ q, b ≠ .abort X q) (hp : ∀ k, b ≠ .poll X k)
    (hh : b ≠ .handle X) (hg : Verbs.step P s.hosts b = some g) :
    g.host X = s.hosts.host X := by
  cases b with
  | deliver Y q => exact absurd rfl (hb Y q)
  | vanish Y q =>
    obtain ⟨_, _, rfl⟩ := step_vanish hg
    rfl
  | abort Y q =>
    have hY : X ≠ Y := fun he => ha q (by rw [he])
    obtain ⟨w, rfl⟩ := step_abort_eq hg
    exact State.setHost_ne s.hosts _ hY
  | poll Y k =>
    have hY : X ≠ Y := fun he => hp k (by rw [he])
    obtain ⟨_, _, _, _, _, rfl⟩ := step_poll hg
    exact State.setHost_ne s.hosts _ hY
  | handle Y =>
    have hY : X ≠ Y := fun he => hh (by rw [he])
    obtain ⟨_, _, _, _, _, rfl⟩ := step_handle hg
    exact State.setHost_ne s.hosts _ hY

theorem Awake.next (h : Awake P s X) (hst : step P s a = some t)
    (hcq : (s.hosts.host X).cq.length ≤ (P X).numEntries) : Awake P t X := by
  cases a with
  | deliver Y q =>
    obtain ⟨g, hg, rfl⟩ := Option.map_eq_some_iff.mp hst
    obtain ⟨w, r, _, _, _, _, rfl⟩ := step_deliver hg
    exact h.complete rfl (delivered_host P s.hosts Y X q w r)
  | vanish Y q =>
    obtain ⟨g, hg, rfl⟩ := Option.map_eq_some_iff.mp hst
    exact h.congr rfl (other_host (by simp) (by simp) (by simp) (by simp) hg)
  | abort Y q =>
    obtain ⟨g, hg, rfl⟩ := Option.map_eq_some_iff.mp hst
    by_cases hY : X = Y
    · subst Y
      obtain ⟨w, rfl⟩ := step_abort_eq hg
      exact h.complete (setEvents_self s X _) (State.setHost_self s.hosts X _)
    · exact h.congr (setEvents_ne s _ hY)
        (other_host (by simp) (by simp [Ne.symm hY]) (by simp) (by simp) hg)
  | ibvGetCqEvent Y =>
    by_cases hY : X = Y
    · subst Y
      exact h.getCqEvent hst
    · obtain ⟨_, _, _, _, _, _, _, _, rfl⟩ := getCqEvent_cases hst
      exact h.congr (setEvents_ne s _ hY) rfl
  | ibvReqNotifyCq Y =>
    by_cases hY : X = Y
    · subst Y
      exact h.reqNotifyCq hst
    · obtain ⟨_, rfl⟩ := reqNotifyCq_cases hst
      exact h.congr (setEvents_ne s _ hY) rfl
  | ibvPollCq Y =>
    by_cases hY : X = Y
    · subst Y
      exact h.pollCq hst hcq
    · obtain ⟨_, hev, hor⟩ := pollCq_cases hst
      have he : t.events X = s.events X := by rw [hev, setEvents_ne s _ hY]
      rcases hor with ⟨_, hh⟩ | hh
      · exact h.congr he (by rw [hh])
      · exact h.congr he
          (other_host (by simp) (by simp) (by simp [Ne.symm hY]) (by simp) hh)
  | handle Y =>
    by_cases hY : X = Y
    · subst Y
      exact h.handle hst
    · obtain ⟨g, hg, rfl⟩ := Option.map_eq_some_iff.mp hst
      exact h.congr rfl (other_host (by simp) (by simp) (by simp) (by simp [Ne.symm hY]) hg)

/-- Where no more completions can wait than a poll asks for, no host sleeps through one. -/
theorem awake_of_reachable
    (hcq : ∀ s, (Verbs.system P).Reachable s → ∀ X, (s.host X).cq.length ≤ (P X).numEntries)
    (h : (system P).Reachable s) (X : Role) : Awake P s X := by
  have hboth : (system P).Reachable s ∧ Awake P s X := by
    apply h.invariant ⟨Machine.reachableBy_init, awake_init X⟩
    intro u a t hu _ hst
    exact ⟨hu.1.next trivial hst, hu.2.next hst (hcq _ (hosts_reachable hu.1) X)⟩
  exact hboth.2

end Awake

section Rank

variable {n : ℕ} {Loc Ret : Type} {P : Role → Program n Loc Ret} {s t : State n Loc Ret}
  {a : Action n} {B : ℕ}

/-- Events taken, and how far the turn that the last of them began has got. -/
def Notifier.rank (e : Notifier) : ℕ :=
  3 * e.numCqEvents +
    match e.phase with
    | .woken => 0
    | .polling => 1
    | .waiting => 2
    | .returned => 3

def State.rank (s : State n Loc Ret) : ℕ :=
  s.hosts.rank + ((s.events .client).rank + (s.events .server).rank)

theorem notify_rank (e : Notifier) (X : Role) : (e.notify X).rank = e.rank := by
  unfold Notifier.notify
  split_ifs <;> rfl

theorem setEvents_rank (s : State n Loc Ret) (X : Role) (e : Notifier) :
    ((s.setEvents X e).events .client).rank + ((s.setEvents X e).events .server).rank +
      (s.events X).rank =
    (s.events .client).rank + (s.events .server).rank + e.rank := by
  cases X with
  | client =>
    rw [setEvents_self, setEvents_ne s e (by decide : Role.server ≠ .client)]
    omega
  | server =>
    rw [setEvents_self, setEvents_ne s e (by decide : Role.client ≠ .server)]
    omega

/-- A host that gets on with its turn, and loses nothing of its requests. -/
theorem rank_lt_of_turn {X : Role} {e : Notifier} (he : (s.events X).rank < e.rank)
    (ht : t.events = (s.setEvents X e).events) (hh : s.hosts.rank ≤ t.hosts.rank) :
    s.rank < t.rank := by
  have hsum := setEvents_rank s X e
  unfold State.rank
  rw [ht]
  omega

theorem rank_lt_of_hosts (he : ∀ X, (t.events X).rank = (s.events X).rank)
    (hh : s.hosts.rank < t.hosts.rank) : s.rank < t.rank := by
  unfold State.rank
  rw [he, he]
  omega

/-- Waking up for nothing costs an event, so it does not go on forever. -/
theorem rank_lt (hst : step P s a = some t) : s.rank < t.rank := by
  cases a with
  | deliver X q =>
    obtain ⟨g, hg, rfl⟩ := Option.map_eq_some_iff.mp hst
    exact rank_lt_of_hosts (fun Y => notify_rank _ Y) (Verbs.rank_lt hg)
  | vanish X q =>
    obtain ⟨g, hg, rfl⟩ := Option.map_eq_some_iff.mp hst
    exact rank_lt_of_hosts (fun _ => rfl) (Verbs.rank_lt hg)
  | abort X q =>
    obtain ⟨g, hg, rfl⟩ := Option.map_eq_some_iff.mp hst
    refine rank_lt_of_hosts ?_ (Verbs.rank_lt hg)
    intro Y
    by_cases hY : Y = X
    · subst Y
      exact (congrArg Notifier.rank (setEvents_self s X _)).trans (notify_rank _ X)
    · exact congrArg Notifier.rank (setEvents_ne s _ hY)
  | ibvGetCqEvent X =>
    obtain ⟨_, evCq, rest, _, _, _, hphase, _, rfl⟩ := getCqEvent_cases hst
    refine rank_lt_of_turn ?_ rfl le_rfl
    simp only [Notifier.rank, hphase]
    -- The event taken from the channel counts for more than the phase that it leads to.
    split_ifs
    · simp only
      omega
    · simp only
      omega
  | ibvReqNotifyCq X =>
    obtain ⟨hphase, rfl⟩ := reqNotifyCq_cases hst
    refine rank_lt_of_turn ?_ rfl le_rfl
    simp only [Notifier.rank, hphase]
    omega
  | ibvPollCq X =>
    obtain ⟨hphase, hev, hor⟩ := pollCq_cases hst
    refine rank_lt_of_turn ?_ hev ?_
    · simp only [Notifier.rank, hphase]
      omega
    · rcases hor with ⟨_, hh⟩ | hh
      · rw [hh]
      · exact (Verbs.rank_lt hh).le
  | handle X =>
    obtain ⟨g, hg, rfl⟩ := Option.map_eq_some_iff.mp hst
    exact rank_lt_of_hosts (fun _ => rfl) (Verbs.rank_lt hg)

/-- No more events are taken than completions came. -/
theorem rank_le {k m : ℕ} (ha : ∀ X, Awake P s X) (hk : s.hosts.rank ≤ k)
    (hm : ∀ X, (s.hosts.host X).completions.length ≤ m) : s.rank ≤ k + 6 * m + 4 := by
  have hturn : ∀ X, (s.events X).rank ≤ 3 * m + 2 := by
    intro X
    have hc := (ha X).counted
    have hs := (ha X).stays
    have hX := hm X
    unfold Notifier.rank
    cases hp : (s.events X).phase with
    | returned => exact absurd hp hs
    | _ => simp only; omega
  have hcl := hturn .client
  have hsv := hturn .server
  unfold State.rank
  omega

/-- A host with something to poll goes on with its turn. -/
theorem Awake.turn_enabled {X : Role} (h : Awake P s X) {l : Loc}
    (hl : (s.hosts.host X).loop = .ok l) (ha : (P X).again l = true)
    (hw : (s.hosts.host X).wc = []) (hcq : (s.hosts.host X).cq ≠ []) :
    ∃ c, (system P).Enabled s c := by
  cases hp : (s.events X).phase with
  | waiting =>
    have hev : (s.events X).channel ≠ [] := by
      refine (h.asked (by rw [hp]; decide)).resolve_left ?_
      exact fun harmed => hcq (h.drained hp harmed)
    obtain ⟨evCq, rest, hc⟩ := List.exists_cons_of_ne_nil hev
    refine ⟨.ibvGetCqEvent X, Machine.enabled_of_isSome ?_⟩
    show (step P s (.ibvGetCqEvent X)).isSome = true
    simp only [step, hl, hc]
    rw [if_pos ⟨ha, hw, hp⟩]
    rfl
  | woken =>
    refine ⟨.ibvReqNotifyCq X, Machine.enabled_of_isSome ?_⟩
    show (step P s (.ibvReqNotifyCq X)).isSome = true
    simp only [step]
    rw [if_pos hp]
    rfl
  | polling =>
    refine ⟨.ibvPollCq X, Machine.enabled_of_isSome ?_⟩
    show (step P s (.ibvPollCq X)).isSome = true
    by_cases hb : batch P s X = 0
    · simp only [step]
      rw [if_pos hp, if_pos hb]
      rfl
    · have hguard : (P X).again l = true ∧ (s.hosts.host X).wc = [] ∧ 0 < batch P s X ∧
          batch P s X ≤ (P X).numEntries ∧ batch P s X ≤ (s.hosts.host X).cq.length :=
        ⟨ha, hw, Nat.pos_of_ne_zero hb, min_le_left _ _, min_le_right _ _⟩
      simp only [step]
      rw [if_pos hp, if_neg hb, Option.isSome_map]
      simp only [Verbs.step, hl]
      rw [if_pos hguard]
      rfl
  | returned => exact absurd hp h.stays

/-- Where the polling loop can proceed this one can, if nobody sleeps through a completion. -/
theorem not_stuck_of_canProceed (ha : ∀ X, Awake P s X) (h : CanProceed P s.hosts) :
    ¬ (system P).Stuck (fun _ _ => True) s := by
  have hmap : ∀ (b : Verbs.Action n) (c : Action n) (f : Verbs.State n Loc Ret → State n Loc Ret),
      step P s c = (Verbs.step P s.hosts b).map f → (Verbs.system P).Enabled s.hosts b →
      ¬ (system P).Stuck (fun _ _ => True) s := by
    intro b c f hc ⟨g, hg⟩
    have hstep : step P s c = some (f g) := by
      rw [hc]
      exact (congrArg (Option.map f) hg).trans rfl
    exact Machine.not_stuck_of_enabled (a := c) trivial ⟨_, hstep⟩
  by_cases hw : ∀ X, (s.hosts.host X).wc = []
  · rcases h.between hw with ⟨X, q, _, he⟩ | ⟨X, ⟨l, hl, hor⟩, hcq, _⟩
    · exact hmap _ (.deliver X q) _ rfl he
    · obtain ⟨c, hc⟩ := (ha X).turn_enabled hl (hor.resolve_right (fun hne => hne (hw X)))
        (hw X) hcq
      exact Machine.not_stuck_of_enabled trivial hc
  · push Not at hw
    obtain ⟨X, hX⟩ := hw
    exact hmap _ (.handle X) _ rfl (h.batch X hX)

end Rank

section Threads

variable {c : Multithread.Config} {s : State 1 Multithread.Locals Multithread.Exit}

/-- Client and server of a round, both with `use_event`. -/
abbrev eventSystem (c : Multithread.Config) :
    Machine (State 1 Multithread.Locals Multithread.Exit) (Action 1) := system c.program

/-- One completion of each kind may wait, and a poll asks for two. -/
theorem cq_length_le {s : Multithread.State} (h : c.system.Reachable s) (X : Role) :
    (s.host X).cq.length ≤ (c.program X).numEntries := by
  have hs := Multithread.reachableBy_silent h
  obtain ⟨L, _, hc⟩ := (Multithread.reaches_single hs).accounted
  have hle : ∀ k, Verbs.count (c.program X) k 0 (s.host X).cq ≤ 1 := by
    intro k
    have hk := hc.unhandled_le X k (0 : Fin 1)
    rw [count_append] at hk
    exact (Nat.le_add_left _ _).trans hk
  have hnum : ∀ w ∈ (s.host X).cq, ∃ q, w.qpNum = (c.program X).qpNum q := by
    intro w hw
    obtain ⟨_, q, hq, _⟩ := (balanced_of_reachable hs).reports X w (by simp [Host.completions, hw])
    exact ⟨q, hq⟩
  have hlen := length_eq_sum_count (c.program X) hnum
  rw [Fin.sum_univ_one] at hlen
  have hsend := hle .send
  have hrecv := hle .recv
  show _ ≤ 2
  omega

/-- A host that waits for an event while completions are there to be polled has an event on
its channel; no event is for another queue; the events taken are no more than the
completions; and what the two hosts have posted, polled and handled is something that the
polling loops can reach as well. -/
structure WakesUp (c : Multithread.Config) (s : State 1 Multithread.Locals Multithread.Exit) :
    Prop where
  event : ∀ X, (s.events X).phase = .waiting → (s.hosts.host X).cq ≠ [] →
    (s.events X).channel ≠ []
  stays : ∀ X, (s.events X).phase ≠ .returned
  taken_le : ∀ X, (s.events X).numCqEvents ≤ (s.hosts.host X).completions.length
  polls : c.system.Reachable s.hosts

theorem awake (h : (eventSystem c).Reachable s) (X : Role) : Awake c.program s X :=
  awake_of_reachable (fun _ hs => cq_length_le hs) h X

/-- No wake-up is lost in the loop that sleeps, whatever order of events. -/
theorem wakes_up (h : (eventSystem c).Reachable s) : WakesUp c s where
  event X hp hcq := by
    refine ((awake h X).asked (by rw [hp]; decide)).resolve_left ?_
    exact fun harmed => hcq ((awake h X).drained hp harmed)
  stays X := (awake h X).stays
  taken_le X := (Nat.le_add_right _ _).trans (awake h X).counted
  polls := hosts_reachable h

/-- The server is woken by the first message, asks for the next event and polls. -/
def firstTurn : List (Action 1) :=
  [.deliver .client ⟨0, Nat.one_pos⟩, .ibvGetCqEvent .server, .ibvReqNotifyCq .server,
    .ibvPollCq .server, .handle .server]

def firstTurnState : State 1 Multithread.Locals Multithread.Exit :=
  ((eventSystem Multithread.shortConfig).exec (fun _ _ => True)
    (eventSystem Multithread.shortConfig).init firstTurn).get (by decide)

theorem wakes_up_short : WakesUp Multithread.shortConfig firstTurnState :=
  wakes_up (Machine.reachableBy_of_exec _)

/-- A round of two hosts that sleep on events ends as one of two hosts that poll. -/
theorem event_round_ends (c : Multithread.Config) :
    (eventSystem c).Completes (fun _ _ => True) (22 * c.iters + 4)
      (fun s => Multithread.Played c s.hosts) := by
  have hclimbs : (eventSystem c).Climbs (fun _ _ => True) State.rank :=
    fun _ _ _ _ _ hst => rank_lt hst
  apply Machine.completes hclimbs
  · intro s hs
    have hh := hosts_reachable hs
    have hbal := balanced_of_reachable (Multithread.reachableBy_silent hh)
    have hle := rank_le (awake hs) (Multithread.rank_le hh)
      (completions_length_le hbal (Multithread.sum_sends_le hh))
    omega
  · intro s hs hn
    exact not_stuck_of_canProceed (awake hs)
      (Multithread.canProceed_of_not_played (hosts_reachable hs) hn)

end Threads

end InfinibandWorkshop.Events
