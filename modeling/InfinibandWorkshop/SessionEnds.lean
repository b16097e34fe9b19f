import InfinibandWorkshop.RoundEnds
import InfinibandWorkshop.Session

/-!
# A session plays a round, and ends

The round was modelled from the point on where both sides are in their loops and the
client has posted all its first sends. In a session the first messages are on their way
while the client has others still to post, and the server may be waiting for the last word
of the exchange. With the sends added that are still to be posted, every state of a session
is one that the loops reach by themselves; so what holds of the loops holds of sessions,
and a session ends, from the first byte of the exchange on.
-/
namespace InfinibandWorkshop.Session
open Exchange Verbs
open Multistream (Locals Exit firstSends request pingpongSendWrid)
open scoped BigOperators

section Opened

variable {n : ℕ} (ctx : Multistream.PingpongContext n)

/-- The local state with the bit of every first send set. -/
def openedLocals (qs : List (Fin n)) (l : Locals n) : Locals n :=
  { l with pendingQp := fun q =>
    if q ∈ qs then l.pendingQp q ||| pingpongSendWrid else l.pendingQp q }

/-- The host as it is once its first sends on `qs` are posted. -/
def openedHost (qs : List (Fin n)) (h : Host n (Locals n) Exit) : Host n (Locals n) Exit :=
  { h with
    loop := h.loop.map (openedLocals qs)
    posted := h.posted ++ qs.map (request ctx .send) }

theorem openedHost_nil (h : Host n (Locals n) Exit) : openedHost ctx [] h = h := by
  obtain ⟨loop, posted, cq, wc, handled⟩ := h
  cases loop <;> simp [openedHost, openedLocals, Except.map]

/-- Posting the first of them makes no difference. -/
theorem openedHost_resume {h : Host n (Locals n) Exit} {l : Locals n} (hl : h.loop = .ok l)
    (q : Fin n) (qs : List (Fin n)) :
    openedHost ctx qs (resume h (firstSends ctx [q] l)) = openedHost ctx (q :: qs) h := by
  have hbits : openedLocals qs (openedLocals [q] l) = openedLocals (q :: qs) l := by
    simp only [openedLocals, Locals.mk.injEq, true_and, and_true]
    funext r
    by_cases hr : r = q
    · subst r
      by_cases hq : q ∈ qs <;> simp [hq, BitVec.or_assoc]
    · by_cases hq : r ∈ qs <;> simp [hr, hq]
  simp only [openedHost, resume, hl, Multistream.firstSends_eq, Except.map, List.map_cons,
    List.map_nil, List.append_assoc, List.singleton_append]
  rw [← hbits]
  rfl

theorem openedHost_requests (qs : List (Fin n)) (h : Host n (Locals n) Exit) (k : Queue)
    (q : Fin n) : (openedHost ctx qs h).requests k q =
      h.requests k q ++ onQueue k q (qs.map (request ctx .send)) :=
  onQueue_append k q h.posted _

/-- The requests posted so far keep their places. -/
theorem openedHost_getElem? (qs : List (Fin n)) {h : Host n (Locals n) Exit} {k : Queue}
    {q : Fin n} {i : ℕ} {w : WorkRequest n} (hw : (h.requests k q)[i]? = some w) :
    ((openedHost ctx qs h).requests k q)[i]? = some w := by
  have hi := (List.getElem?_eq_some_iff.mp hw).1
  rw [openedHost_requests, List.getElem?_append_left hi, hw]

end Opened

section Simulation

variable {c : Multistream.Config} {unopened : Role → List (Fin c.peerNum)} {g g' : c.State}
  {X : Role}

/-- The state of the loops that a state of a session stands for. -/
def opened (c : Multistream.Config) (unopened : Role → List (Fin c.peerNum)) (g : c.State) :
    c.State :=
  { g with host := fun X => openedHost (c.ctx X) (unopened X) (g.host X) }

theorem opened_host (h : unopened X = []) : (opened c unopened g).host X = g.host X := by
  show openedHost _ (unopened X) _ = _
  rw [h, openedHost_nil]

/-- The loop test does not read the pending bits. -/
theorem opened_left_iff :
    ((opened c unopened g).host X).Left (c.program X) ↔ (g.host X).Left (c.program X) := by
  have hloop : ((opened c unopened g).host X).loop =
      (g.host X).loop.map (openedLocals (unopened X)) := rfl
  constructor
  · rintro ⟨l, hl, ha, hw⟩
    rw [hloop] at hl
    cases hg : (g.host X).loop with
    | ok l' =>
      rw [hg] at hl
      obtain rfl := Except.ok.inj hl
      exact ⟨l', hg, ha, hw⟩
    | error e =>
      rw [hg] at hl
      cases hl
  · rintro ⟨l, hl, ha, hw⟩
    exact ⟨openedLocals (unopened X) l, by rw [hloop, hl]; rfl, ha, hw⟩

theorem opened_setHost (h : unopened X = [])
    (k : Host c.peerNum (Locals c.peerNum) Exit) :
    opened c unopened (g.setHost X k) = (opened c unopened g).setHost X k := by
  have hhost : (opened c unopened (g.setHost X k)).host =
      ((opened c unopened g).setHost X k).host := by
    funext Y
    by_cases hY : Y = X
    · subst Y
      rw [Verbs.State.setHost_self, opened_host h, Verbs.State.setHost_self]
    · rw [Verbs.State.setHost_ne _ _ hY]
      show openedHost _ (unopened Y) ((g.setHost X k).host Y) = openedHost _ _ _
      rw [Verbs.State.setHost_ne _ _ hY]
  exact congrArg (fun f => Verbs.State.mk f g.arrived g.lost) hhost

theorem opened_delivered (q : Fin c.peerNum) (w r : WorkRequest c.peerNum) :
    opened c unopened (delivered c.program g X q w r) =
      delivered c.program (opened c unopened g) X q w r := by
  have hhost : (opened c unopened (delivered c.program g X q w r)).host =
      (delivered c.program (opened c unopened g) X q w r).host := by
    funext Y
    show openedHost _ _ ((delivered c.program g X q w r).host Y) = _
    rw [delivered_host, delivered_host]
    rfl
  exact congrArg (fun f => Verbs.State.mk f (bump g.arrived X q) g.lost) hhost

theorem opened_inFlight (q : Fin c.peerNum) (h : 0 < g.inFlight X q) :
    0 < (opened c unopened g).inFlight X q := by
  have hlen : g.sends X q ≤ (opened c unopened g).sends X q := by
    show _ ≤ ((openedHost _ (unopened X) (g.host X)).requests .send q).length
    rw [openedHost_requests, List.length_append]
    exact Nat.le_add_right _ _
  have harr : (opened c unopened g).arrived = g.arrived := rfl
  have hlost : (opened c unopened g).lost = g.lost := rfl
  unfold Verbs.State.inFlight at *
  rw [harr, hlost]
  omega

/-- What a host does in its loop is decided by the state it has entered it with. -/
theorem opened_room (h : unopened X = []) :
    (opened c unopened g).room c.program X = g.room c.program X := by
  have hreq : ∀ k q, ((opened c unopened g).host X).requests k q = (g.host X).requests k q := by
    intro k q
    rw [opened_host h]
  simp only [Verbs.State.room, Verbs.State.sendQueue, Verbs.State.recvQueue, Verbs.State.sends,
    Verbs.State.recvs, opened_host h]
  rfl

/-- Whatever the loops and the network do while first sends are still to be posted, they
can do after those. -/
theorem opened_step {b : Verbs.Action c.peerNum} (hsilent : Silent g b)
    (hp : ∀ X k, b = .poll X k → unopened X = []) (hh : ∀ X, b = .handle X → unopened X = [])
    (hst : Verbs.step c.program g b = some g') :
    Verbs.step c.program (opened c unopened g) b = some (opened c unopened g') := by
  cases b with
  | deliver X q =>
    simp only [Verbs.step] at hst
    split at hst
    · rename_i w r hw hr
      have hsend : (((opened c unopened g).host X).requests .send q)[
          (opened c unopened g).arrived X q + (opened c unopened g).lost X q]? = some w :=
        openedHost_getElem? (c.ctx X) (unopened X) hw
      have hrecv : (((opened c unopened g).host X.peer).requests .recv q)[
          (opened c unopened g).arrived X q]? = some r :=
        openedHost_getElem? (c.ctx X.peer) (unopened X.peer) hr
      simp only [Verbs.step, hsend, hrecv]
      rw [← Option.some.inj hst, opened_delivered]
    · cases hst
  | vanish X q =>
    simp only [Verbs.step] at hst ⊢
    split_ifs at hst with hc
    rw [if_pos ⟨opened_left_iff.mpr hc.1, opened_inFlight q hc.2⟩, ← Option.some.inj hst]
    rfl
  | abort X q => exact hsilent.elim
  | poll X k =>
    have hX := hp X k rfl
    simp only [Verbs.step, opened_host hX] at hst ⊢
    split at hst
    · split_ifs at hst with hc
      rw [if_pos hc, ← opened_setHost hX, Option.some.inj hst]
    · cases hst
  | handle X =>
    have hX := hh X rfl
    simp only [Verbs.step, opened_host hX, opened_room hX] at hst ⊢
    split at hst
    · rw [← opened_setHost hX, Option.some.inj hst]
    · cases hst

end Simulation

section Refines

variable {c : Config} {s t : State c.round.peerNum} {a : Action c.round.peerNum} {X : Role}

/-- Reads of the exchange return what one write has put there, and no message of the loops
comes back as an error completion. -/
def Config.Permitted (c : Config) (s : State c.round.peerNum) :
    Action c.round.peerNum → Prop
  | .exchange a => Exchange.WholeReads c.exchange s.exch a
  | .firstSend _ => True
  | .loop a => Silent s.hosts a

instance (c : Config) (s : State c.round.peerNum) : ∀ a, Decidable (c.Permitted s a)
  | .exchange a => inferInstanceAs (Decidable (Exchange.WholeReads c.exchange s.exch a))
  | .firstSend _ => isTrue trivial
  | .loop a => inferInstanceAs (Decidable (Silent s.hosts a))

def State.rally (c : Config) (s : State c.round.peerNum) : c.round.State :=
  opened c.round s.unopened s.hosts

theorem rally_init : State.rally c c.system.init = c.round.system.init := by
  have hhost : (State.rally c c.system.init).host = c.round.system.init.host := by
    funext X
    show openedHost _ _ ⟨(c.listen X).next, (c.listen X).posted, [], [], []⟩ =
      ⟨(Multistream.setup (c.round.ctx X) X).next, (Multistream.setup (c.round.ctx X) X).posted,
        [], [], []⟩
    rw [Multistream.setup_eq, Config.listen, Multistream.initialReceives_eq]
    have hclient : c.system.init.unopened .client = List.finRange c.round.peerNum := rfl
    have hserver : c.system.init.unopened .server = [] := rfl
    cases X <;> simp [openedHost, openedLocals, Except.map, hclient, hserver]
  exact congrArg (fun f => Verbs.State.mk f (fun _ _ => 0) (fun _ _ => 0)) hhost

/-- Posting a first send changes nothing, it was counted in from the start. -/
theorem rally_firstSend {q : Fin c.round.peerNum} {qs : List (Fin c.round.peerNum)}
    {l : Locals c.round.peerNum} (hq : s.unopened X = q :: qs)
    (hl : (s.hosts.host X).loop = .ok l) :
    State.rally c { s with
      hosts := s.hosts.setHost X
        (resume (s.hosts.host X) (firstSends (c.round.ctx X) [q] l))
      unopened := Function.update s.unopened X qs } = State.rally c s := by
  have hhost : (opened c.round (Function.update s.unopened X qs)
      (s.hosts.setHost X (resume (s.hosts.host X) (firstSends (c.round.ctx X) [q] l)))).host =
      (State.rally c s).host := by
    funext Y
    show openedHost _ (Function.update s.unopened X qs Y) ((s.hosts.setHost X _).host Y) =
      openedHost _ (s.unopened Y) (s.hosts.host Y)
    by_cases hY : Y = X
    · subst Y
      rw [Function.update_self, Verbs.State.setHost_self, openedHost_resume _ hl, hq]
    · rw [Function.update_of_ne hY, Verbs.State.setHost_ne _ _ hY]
  exact congrArg (fun f => Verbs.State.mk f s.hosts.arrived s.hosts.lost) hhost

theorem rally_loop {b : Verbs.Action c.round.peerNum} (ha : Silent s.hosts b) (hr : s.Runs b)
    (hv : Verbs.step c.round.program s.hosts b = some t.hosts) (hu : t.unopened = s.unopened) :
    Verbs.step c.round.program (State.rally c s) b = some (State.rally c t) := by
  rw [State.rally, State.rally, hu]
  apply opened_step ha _ _ hv
  · rintro X k rfl
    exact hr.2
  · rintro X rfl
    exact hr.2

theorem rally_eq (h : ∀ X, s.unopened X = []) : State.rally c s = s.hosts := by
  have hhost : (State.rally c s).host = s.hosts.host := funext (fun X => opened_host (h X))
  exact congrArg (fun f => Verbs.State.mk f s.hosts.arrived s.hosts.lost) hhost

/-- Every step of a session is a step of the loops, or none. -/
theorem rally_step (ha : c.Permitted s a) (hst : c.step s a = some t) :
    State.rally c t = State.rally c s ∨
      ∃ b, Silent (State.rally c s) b ∧ c.round.system.step (State.rally c s) b =
        some (State.rally c t) := by
  rcases step_cases hst with ⟨b, rfl, _, hh, hu⟩ | ⟨Y, q, qs, l, rfl, hq, hl, _, rfl⟩ |
    ⟨b, rfl, hr, hv, _, hu⟩
  · exact .inl (by rw [State.rally, hh, hu]; rfl)
  · exact .inl (rally_firstSend hq hl)
  · have hsilent : Silent s.hosts b := ha
    exact .inr ⟨b, by cases b <;> exact hsilent, rally_loop hsilent hr hv hu⟩

theorem rally_reaches (h : c.system.ReachableBy c.Permitted s) :
    c.round.Reaches (State.rally c s) := by
  apply h.project (f := State.rally c) rally_init
  exact fun u a t _ ha hst => rally_step ha hst

/-- The first sends still to be posted add no completions. -/
theorem cq_length_le (h : c.system.ReachableBy c.Permitted s) (X : Role) :
    (s.hosts.host X).cq.length ≤ 2 * c.round.peerNum :=
  Multistream.cq_length_le (rally_reaches h) X

/-- Neither side ever fails. -/
theorem running (h : c.system.ReachableBy c.Permitted s) (X : Role) :
    ∃ l, (s.hosts.host X).loop = .ok l := by
  obtain ⟨L, _, hc⟩ := Multistream.Config.Reaches.accounted (rally_reaches h)
  obtain ⟨l', hl', _⟩ := hc.tracks X
  cases hl : (s.hosts.host X).loop with
  | ok l => exact ⟨l, rfl⟩
  | error e =>
    have hloop : ((State.rally c s).host X).loop = (s.hosts.host X).loop.map _ := rfl
    rw [hloop, hl] at hl'
    cases hl'

/-- What the loops are promised, for a session at any moment: neither side fails, a receive
is posted for the next message of every queue pair, at most one message of a queue pair is on
its way, no side sends more than it may, and once everything is opened the two sides are
where the loops alone could have got them. -/
structure Sound (c : Config) (s : State c.round.peerNum) : Prop where
  running : ∀ X, ∃ l, (s.hosts.host X).loop = .ok l
  recv_ready : ∀ X q, s.hosts.arrived X q < s.hosts.recvs X.peer q
  inFlight_le : ∀ X q, s.hosts.inFlight X q ≤ 1
  alternates : ∀ q, s.hosts.sends .server q ≤ s.hosts.arrived .client q
  sends_le : ∀ X, ∑ q, s.hosts.sends X q ≤ c.round.iters + c.round.peerNum - 1
  loops : (∀ X, s.unopened X = []) → c.round.Reaches s.hosts

theorem recvs_rally (X : Role) (q : Fin c.round.peerNum) :
    (State.rally c s).recvs X q = s.hosts.recvs X q := by
  have hnone : onQueue .recv q ((s.unopened X).map (request (c.round.ctx X) .send)) = [] := by
    rw [List.eq_nil_iff_forall_not_mem]
    intro w hw
    obtain ⟨hmem, hqueue, _⟩ := mem_onQueue.mp hw
    obtain ⟨r, _, rfl⟩ := List.mem_map.mp hmem
    cases hqueue
  show ((openedHost _ _ _).requests .recv q).length = _
  rw [openedHost_requests, hnone, List.append_nil]
  rfl

theorem sends_le_rally (X : Role) (q : Fin c.round.peerNum) :
    s.hosts.sends X q ≤ (State.rally c s).sends X q := by
  show _ ≤ ((openedHost _ _ _).requests .send q).length
  rw [openedHost_requests, List.length_append]
  exact Nat.le_add_right _ _

theorem session_sound (h : c.system.ReachableBy c.Permitted s) : Sound c s := by
  have hr := rally_reaches h
  obtain ⟨L, _, hc⟩ := Multistream.Config.Reaches.accounted hr
  have hsent : ∀ X q, s.hosts.sends X q ≤ L.sent X q := by
    intro X q
    rw [hc.sent]
    exact sends_le_rally X q
  have harr : ∀ X q, L.arrived X q = s.hosts.arrived X q := hc.arrived
  have hlost : ∀ X q, L.lost X q = s.hosts.lost X q := hc.lost
  constructor
  case running => exact running h
  case recv_ready =>
    intro X q
    rw [← recvs_rally (c := c)]
    exact hc.recv_ready X q
  case inFlight_le =>
    intro X q
    have hs := hsent X q
    have hle := L.lawful.sent_le X q
    have hacked := L.lawful.acked_le X q
    have ha := harr X q
    have hl := hlost X q
    unfold Verbs.State.inFlight
    omega
  case alternates =>
    intro q
    have hs := hsent .server q
    have hdue := L.lawful.due_le .server q
    have hgot := L.lawful.got_le .server q
    have ha := harr .client q
    simp only [Rally.Tally.due, Rally.serve, Role.peer] at hdue hgot
    omega
  case sends_le =>
    intro X
    exact (Finset.sum_le_sum (fun q _ => hsent X q)).trans (Multistream.sum_sent_le L X)
  case loops =>
    intro hopen
    exact rally_eq hopen ▸ hr

/-- The first message is at the server, which waits for the last word of the exchange, and
the client has its second first send still to post. -/
def midwayState : State 2 :=
  (smallSession.system.exec smallSession.Permitted smallSession.system.init
    (firstMessage.take 17)).get (by decide +kernel)

theorem session_sound_midway : Sound smallSession midwayState :=
  session_sound (Machine.reachableBy_of_exec _)

end Refines

section Ends

variable {c : Config} {s t : State c.round.peerNum} {a : Action c.round.peerNum} {X : Role}

theorem permitted_wholeReads (h : c.Permitted s a) : c.WholeReads s a := by
  cases a with
  | exchange b => exact h
  | firstSend X | loop b => trivial

/-- The exchange is in step, and no more first sends are due than there are queue pairs. -/
structure Underway (c : Config) (s : State c.round.peerNum) : Prop where
  prepared : Prepared c s
  unopened_le : (s.unopened .client).length ≤ c.round.peerNum

theorem underway (h : c.system.ReachableBy c.Permitted s) : Underway c s := by
  apply h.invariant ⟨prepared_init, (List.length_finRange).le⟩
  intro u a t hu ha hst
  refine ⟨hu.prepared.next (permitted_wholeReads ha) hst, ?_⟩
  rcases step_cases hst with ⟨_, _, _, _, he⟩ | ⟨Y, q, qs, l, _, hq, _, _, rfl⟩ |
    ⟨_, _, _, _, _, he⟩
  · rw [he]; exact hu.unopened_le
  · have hle := hu.unopened_le
    cases Y with
    | client =>
      rw [hq, List.length_cons] at hle
      simp only [Function.update_self]
      omega
    | server =>
      rw [hu.prepared.server_opens_none] at hq
      cases hq
  · rw [he]; exact hu.unopened_le

/-- Operations of the exchange that a side has still to perform. -/
theorem todo_length_le {n : ℕ} {Y : Role} {side : Side n} (h : OnTrack Y side) :
    (side.todo Y).length ≤ 4 * n := by
  have hrounds := h.rounds.length_le
  have hops := h.ops.length_le
  have hall : ∀ Z, (exchDest Z).length = 4 := by
    intro Z
    cases Z <;> rfl
  rw [List.length_finRange] at hrounds
  rw [hall] at hops
  cases hr : side.rounds with
  | nil =>
    rw [Side.todo, hr]
    exact Nat.zero_le _
  | cons k ks =>
    rw [hr, List.length_cons] at hrounds
    rw [Side.todo, hr, List.length_append, List.length_map, List.length_flatMap]
    simp only [List.length_map, hall, List.map_const', List.sum_replicate, smul_eq_mul]
    omega

def exchangeLeft (s : State c.round.peerNum) : ℕ :=
  ((s.exch.side .client).todo .client).length + ((s.exch.side .server).todo .server).length

def State.rank (c : Config) (s : State c.round.peerNum) : ℕ :=
  (8 * c.round.peerNum - exchangeLeft s) +
    (c.round.peerNum - (s.unopened .client).length) + (State.rally c s).rank

/-- Every step gets the session on: the exchange, the opening or the loops. -/
theorem rank_lt (h : Underway c s) (ha : c.Permitted s a) (hst : c.step s a = some t) :
    State.rank c s < State.rank c t := by
  rcases step_cases hst with ⟨b, rfl, he, hh, hu⟩ | ⟨Y, q, qs, l, rfl, hq, hl, _, rfl⟩ |
    ⟨b, rfl, hr, hv, he, hu⟩
  · have hsync := h.prepared.wired.synced
    obtain ⟨Y, k, op, _, hpeer, htodo, _⟩ := hsync.step_cases ha he
    have hless : exchangeLeft t + 1 = exchangeLeft s := by
      have hlen := congrArg List.length htodo
      rw [List.length_cons] at hlen
      unfold exchangeLeft
      cases Y with
      | client =>
        rw [show t.exch.side .server = s.exch.side .server from hpeer]
        omega
      | server =>
        rw [show t.exch.side .client = s.exch.side .client from hpeer]
        omega
    have hbound : exchangeLeft s ≤ 8 * c.round.peerNum := by
      have hc : _ ≤ 4 * c.round.peerNum := todo_length_le (hsync.onTrack .client)
      have hs : _ ≤ 4 * c.round.peerNum := todo_length_le (hsync.onTrack .server)
      unfold exchangeLeft
      omega
    have hsame : State.rally c t = State.rally c s := by
      rw [State.rally, hh, hu]
      rfl
    unfold State.rank
    rw [hu, hsame]
    omega
  · have hle := h.unopened_le
    cases Y with
    | client =>
      rw [hq, List.length_cons] at hle
      unfold State.rank
      rw [rally_firstSend hq hl]
      simp only [exchangeLeft, Function.update_self, hq, List.length_cons]
      omega
    | server =>
      rw [h.prepared.server_opens_none] at hq
      cases hq
  · have hlt := Verbs.rank_lt (rally_loop ha hr hv hu)
    unfold State.rank exchangeLeft
    rw [he, hu]
    omega

/-- The exchange is finished, everything is opened, and both sides have left their loops. -/
structure Done (c : Config) (s : State c.round.peerNum) : Prop where
  entered : ∀ X, s.Entered X
  left : ∀ X, (s.hosts.host X).Left (c.round.program X)

/-- As long as something is to be done, the next part of the session that is due can go on. -/
theorem not_stuck (h : c.system.ReachableBy c.Permitted s) (hn : ¬ Done c s) :
    ¬ c.system.Stuck c.Permitted s := by
  have hu := underway h
  obtain ⟨L, _, hc⟩ := Multistream.Config.Reaches.accounted (rally_reaches h)
  by_cases hexch : ∃ X, ¬ (s.exch.side X).Finished
  · obtain ⟨b, hb, e, he⟩ := hu.prepared.wired.synced.progress hexch
    have hstep : c.step s (.exchange b) = some { s with exch := e } := by
      simp only [Config.step]
      rw [show Exchange.step c.exchange s.exch b = some e from he]
      rfl
    exact Machine.not_stuck_of_enabled (a := .exchange b) hb ⟨_, hstep⟩
  push Not at hexch
  by_cases hopen : ∃ X, s.unopened X ≠ []
  · obtain ⟨X, hX⟩ := hopen
    obtain ⟨q, qs, hq⟩ := List.exists_cons_of_ne_nil hX
    obtain ⟨l, hl⟩ := running h X
    apply Machine.not_stuck_of_enabled (a := .firstSend X) trivial
    apply Machine.enabled_of_isSome
    show (c.step s (.firstSend X)).isSome = true
    simp only [Config.step, hq, hl, if_pos (hexch X)]
    rfl
  push Not at hopen
  -- both sides are in their loops now
  have hentered : ∀ X, s.Entered X := fun X => ⟨hexch X, hopen X⟩
  have hleft : ∃ X, ¬ ((State.rally c s).host X).Left (c.round.program X) := by
    by_contra hall
    push Not at hall
    exact hn ⟨hentered, fun X => opened_left_iff.mp (hall X)⟩
  have hgoes : ¬ c.round.system.Stuck Silent (State.rally c s) :=
    (hc.canProceed hleft).not_stuck (fun _ _ => trivial) (fun _ _ => trivial) (fun _ => trivial)
  unfold Machine.Stuck at hgoes
  push Not at hgoes
  obtain ⟨b, g, hb, hstep⟩ := hgoes
  rw [rally_eq hopen] at hb hstep
  have hruns : s.Runs b := by
    cases b with
    | poll X k | handle X => exact hentered X
    | deliver X q | vanish X q | abort X q => trivial
  have hloop : c.step s (.loop b) = some { s with hosts := g } := by
    simp only [Config.step, if_pos hruns]
    rw [show Verbs.step c.round.program s.hosts b = some g from hstep]
    rfl
  exact Machine.not_stuck_of_enabled (a := .loop b) hb ⟨_, hloop⟩

theorem climbs (c : Config) : c.system.Climbs c.Permitted (State.rank c) :=
  fun _ _ _ hs ha hst => rank_lt (underway hs) ha hst

theorem rank_le (h : c.system.ReachableBy c.Permitted s) :
    State.rank c s ≤ 9 * c.round.peerNum + 10 * (c.round.iters + c.round.peerNum - 1) := by
  have hrally : (State.rally c s).rank ≤ 10 * (c.round.iters + c.round.peerNum - 1) :=
    Multistream.rank_le (rally_reaches h)
  unfold State.rank
  omega

/-- A session ends, whatever its steps are: with the exchange finished on both sides, every
first send posted, and both sides out of their loops. As in a round, the completion queues
have no limit. -/
theorem session_ends (c : Config) : c.system.Completes c.Permitted
    (9 * c.round.peerNum + 10 * (c.round.iters + c.round.peerNum - 1)) (Done c) :=
  Machine.completes (climbs c) (fun _ hs => rank_le hs) (fun _ hs hn => not_stuck hs hn)

end Ends

end InfinibandWorkshop.Session
