import InfinibandWorkshop.MultistreamSystem
import InfinibandWorkshop.QpConnection

/-!
# From the exchange to the ping-pong

One call of `runPingPong` on each side of multistreamTestRunner.c: receives are
posted, the records are exchanged and the queue pairs connected, the client posts
its first sends one by one, and then each side runs its loop. A side goes on to
the next part when it has finished the one before, whatever its peer does. The
network delivers whenever it can; that a queue pair must be connected before it
can receive is not a rule of the model but has to follow.
-/
namespace InfinibandWorkshop.Session
open Exchange Verbs
open Multistream (Locals Exit initialReceives firstSends pingpongRecvWrid)

/-- The records that the sides exchange name their own queue pairs. -/
structure Config where
  round : Multistream.Config
  myDest : Role → Fin round.peerNum → LocalDest
  endian : Role → Endian
  old : Role → Fin round.peerNum → Leftover
  qpn_eq : ∀ X k, (myDest X k).qpn.toNat = round.qpNum X k

/-- Both halves of the round, and the queue pairs that still lack their first send. -/
structure State (n : ℕ) where
  exch : Exchange.State n
  hosts : Verbs.State n (Locals n) Exit
  unopened : Role → List (Fin n)

inductive Action (n : ℕ)
  | exchange (a : Exchange.Action)
  | firstSend (X : Role)
  | loop (a : Verbs.Action n)
  deriving DecidableEq

namespace State

variable {n : ℕ}

/-- The side has closed its connection and posted what it posts before its loop. -/
def Entered (s : State n) (X : Role) : Prop :=
  (s.exch.side X).Finished ∧ s.unopened X = []

instance (s : State n) (X : Role) : Decidable (s.Entered X) := inferInstanceAs (Decidable (_ ∧ _))

/-- Polling and handling are steps of the loop, the rest is up to the network. -/
def Runs (s : State n) : Verbs.Action n → Prop
  | .poll X _ | .handle X => s.Entered X
  | .deliver _ _ | .vanish _ _ | .abort _ _ => True

instance (s : State n) : ∀ a, Decidable (s.Runs a)
  | .poll X _ | .handle X => inferInstanceAs (Decidable (s.Entered X))
  | .deliver _ _ | .vanish _ _ | .abort _ _ => isTrue trivial

end State

/-- The host after a further stretch of its program. -/
def resume {n : ℕ} {Loc Ret : Type} (h : Host n Loc Ret) (o : Outcome n Loc Ret) :
    Host n Loc Ret :=
  { h with loop := o.next, posted := h.posted ++ o.posted }

namespace Config

variable (c : Config)

abbrev exchange : Exchange.Config := ⟨c.round.peerNum, c.myDest, c.endian, c.old⟩

/-- `runPingPong` up to the first sends. -/
def listen (X : Role) : Outcome c.round.peerNum (Locals c.round.peerNum) Exit :=
  (initialReceives (c.round.ctx X) (List.finRange c.round.peerNum) (fun _ => 0)).bind
    (fun routs => ⟨.ok ⟨0, 0, fun _ => pingpongRecvWrid, routs⟩, []⟩)

def step (s : State c.round.peerNum) : Action c.round.peerNum → Option (State c.round.peerNum)
  | .exchange a => (Exchange.step c.exchange s.exch a).map (fun e => { s with exch := e })
  | .firstSend X =>
    match s.unopened X, (s.hosts.host X).loop with
    | q :: qs, .ok l =>
      if (s.exch.side X).Finished then
        some { s with
          hosts := s.hosts.setHost X
            (resume (s.hosts.host X) (firstSends (c.round.ctx X) [q] l))
          unopened := Function.update s.unopened X qs }
      else none
    | _, _ => none
  | .loop a =>
    if s.Runs a then
      (Verbs.step c.round.program s.hosts a).map (fun h => { s with hosts := h })
    else none

def system : Machine (State c.round.peerNum) (Action c.round.peerNum) where
  init :=
    { exch := (Exchange.system c.exchange).init
      hosts :=
        { host := fun X => ⟨(c.listen X).next, (c.listen X).posted, [], [], []⟩
          arrived := fun _ _ => 0
          lost := fun _ _ => 0 }
      unopened := fun X => match X with
        | .client => List.finRange c.round.peerNum
        | .server => [] }
  step := c.step

/-- Every read of the exchange returns what one write of the peer has put there. -/
def WholeReads (s : State c.round.peerNum) : Action c.round.peerNum → Prop
  | .exchange a => Exchange.WholeReads c.exchange s.exch a
  | _ => True

instance (s : State c.round.peerNum) : ∀ a, Decidable (c.WholeReads s a)
  | .exchange a => inferInstanceAs (Decidable (Exchange.WholeReads c.exchange s.exch a))
  | .firstSend _ | .loop _ => isTrue trivial

end Config

section Quiet

variable {n : ℕ} {Loc Ret : Type} {P : Role → Program n Loc Ret} {s t : Verbs.State n Loc Ret}
  {a : Verbs.Action n}

/-- Nothing has been sent and nothing has completed. -/
structure Quiet (s : Verbs.State n Loc Ret) : Prop where
  sends : ∀ X q, s.sends X q = 0
  cq : ∀ X, (s.host X).cq = []
  wc : ∀ X, (s.host X).wc = []

/-- Before the first send neither the network nor a loop can do anything. -/
theorem Quiet.step_eq_none (h : Quiet s) : Verbs.step P s a = none := by
  rw [Option.eq_none_iff_forall_not_mem]
  intro t hst
  cases a with
  | deliver X q =>
    obtain ⟨_, _, _, _, hlt, _⟩ := step_deliver hst
    rw [h.sends] at hlt
    exact Nat.not_lt_zero _ hlt
  | vanish X q =>
    obtain ⟨_, hlt, _⟩ := step_vanish hst
    rw [h.sends] at hlt
    exact Nat.not_lt_zero _ hlt
  | abort X q =>
    obtain ⟨_, hlt⟩ := step_abort hst
    rw [h.sends] at hlt
    exact Nat.not_lt_zero _ hlt
  | poll X k =>
    have hlen : ¬ (0 < k ∧ k ≤ (s.host X).cq.length) := by
      rw [h.cq, List.length_nil]
      omega
    simp only [Verbs.step, Option.mem_def] at hst
    split at hst
    · split_ifs at hst with hc
      exact hlen ⟨hc.2.2.1, hc.2.2.2.2⟩
    · cases hst
  | handle X =>
    obtain ⟨_, _, _, _, hw, _⟩ := step_handle hst
    rw [h.wc] at hw
    cases hw

end Quiet

section Readiness

variable {c : Config} {s t : State c.round.peerNum} {a : Action c.round.peerNum} {X : Role}
  {k : Fin c.round.peerNum}

/-- Queue pair `k` of `X` is ready to send, and its peer to receive from it. -/
structure Ready (c : Config) (s : State c.round.peerNum) (X : Role)
    (k : Fin c.round.peerNum) : Prop where
  qpState : ((s.exch.side X).qp k).qpState = .rts
  destQpNum : ((s.exch.side X).qp k).destQpNum = (c.myDest X.peer k).qpn
  dlid : ((s.exch.side X).qp k).dlid = (c.myDest X.peer k).lid
  peerState : ((s.exch.side X.peer).qp k).qpState = .rtr ∨
    ((s.exch.side X.peer).qp k).qpState = .rts
  peerDest : ((s.exch.side X.peer).qp k).destQpNum.toNat = c.round.qpNum X k
  psn : ((s.exch.side X).qp k).sqPsn = ((s.exch.side X.peer).qp k).rqPsn

/-- Two queue pairs that are connected by each other's records are ready. -/
theorem ready_of_connected (h : ∀ X, (s.exch.side X).qp k = connectedQp c.exchange X k)
    (X : Role) : Ready c s X k := by
  have hpeer := h X.peer
  rw [connectedQp, Role.peer_peer] at hpeer
  constructor
  · rw [h X]
    rfl
  · rw [h X]
    rfl
  · rw [h X]
    rfl
  · rw [hpeer]
    exact .inr rfl
  · rw [hpeer]
    exact c.qpn_eq X k
  · rw [h X, hpeer]
    rfl

/-- The exchange is in step, and until the client has finished it nothing is sent. -/
structure Prepared (c : Config) (s : State c.round.peerNum) : Prop where
  wired : Wired c.exchange s.exch
  server_opens_none : s.unopened .server = []
  quiet : ¬ (s.exch.side .client).Finished → Quiet s.hosts

theorem listen_posts_receives (X : Role) : ∀ w ∈ (c.listen X).posted, w.queue = .recv := by
  intro w hw
  simp only [Config.listen, Multistream.initialReceives_eq, Outcome.bind_ok, List.append_nil,
    List.mem_flatMap] at hw
  obtain ⟨q, _, hw⟩ := hw
  rw [List.eq_of_mem_replicate hw]
  rfl

theorem prepared_init : Prepared c c.system.init := by
  refine ⟨wired_init, rfl, ?_⟩
  intro _
  refine ⟨?_, fun _ => rfl, fun _ => rfl⟩
  intro X q
  rw [State.sends, Host.requests, List.length_eq_zero_iff, List.eq_nil_iff_forall_not_mem]
  intro w hw
  obtain ⟨hmem, hqueue, _⟩ := mem_onQueue.mp hw
  rw [listen_posts_receives X w hmem] at hqueue
  cases hqueue

/-- What a permitted step does: it leaves the loops alone, or it posts one first
send of a side that has finished its exchange, or it is a step of the loops. -/
theorem step_cases (hst : c.step s a = some t) :
    (∃ b, a = .exchange b ∧ Exchange.step c.exchange s.exch b = some t.exch ∧
      t.hosts = s.hosts ∧ t.unopened = s.unopened) ∨
    (∃ Y q qs l, a = .firstSend Y ∧ s.unopened Y = q :: qs ∧ (s.hosts.host Y).loop = .ok l ∧
      (s.exch.side Y).Finished ∧ t = { s with
        hosts := s.hosts.setHost Y
          (resume (s.hosts.host Y) (firstSends (c.round.ctx Y) [q] l))
        unopened := Function.update s.unopened Y qs }) ∨
    (∃ b, a = .loop b ∧ s.Runs b ∧ Verbs.step c.round.program s.hosts b = some t.hosts ∧
      t.exch = s.exch ∧ t.unopened = s.unopened) := by
  cases a with
  | exchange b =>
    obtain ⟨e, he, ht⟩ := Option.map_eq_some_iff.mp hst
    rw [← ht]
    exact .inl ⟨b, rfl, he, rfl, rfl⟩
  | firstSend Y =>
    simp only [Config.step] at hst
    split at hst
    · rename_i q qs l hq hl
      split_ifs at hst with hf
      exact .inr (.inl ⟨Y, q, qs, l, rfl, hq, hl, hf, (Option.some.inj hst).symm⟩)
    · cases hst
  | loop b =>
    simp only [Config.step] at hst
    split_ifs at hst with hr
    obtain ⟨h, hh, ht⟩ := Option.map_eq_some_iff.mp hst
    rw [← ht]
    exact .inr (.inr ⟨b, rfl, hr, hh, rfl, rfl⟩)

theorem Prepared.next (h : Prepared c s) (ha : c.WholeReads s a) (hst : c.step s a = some t) :
    Prepared c t := by
  rcases step_cases hst with ⟨b, rfl, he, hh, hu⟩ | ⟨Y, q, qs, l, rfl, hq, _, hf, rfl⟩ |
    ⟨b, rfl, _, hv, he, hu⟩
  · refine ⟨h.wired.next ha he, by rw [hu, h.server_opens_none], ?_⟩
    intro hn
    rw [hh]
    exact h.quiet (fun hf => hn (h.wired.synced.finished_mono ha he hf))
  · -- only the client opens, and it has finished then
    cases Y with
    | client =>
      have hne : Role.server ≠ .client := Role.ne_peer .server
      exact ⟨h.wired, by simpa [hne] using h.server_opens_none, fun hn => absurd hf hn⟩
    | server =>
      rw [h.server_opens_none] at hq
      cases hq
  · refine ⟨he ▸ h.wired, by rw [hu, h.server_opens_none], ?_⟩
    intro hn
    rw [he] at hn
    rw [(h.quiet hn).step_eq_none] at hv
    cases hv

/-- Whenever a side posts a send, in the order in which exchange, connecting,
first sends and both loops may interleave, both queue pairs are connected to each
other. -/
theorem send_ready (h : c.system.ReachableBy c.WholeReads s) (hst : c.system.step s a = some t)
    (X : Role) (k : Fin c.round.peerNum) (hsend : s.hosts.sends X k < t.hosts.sends X k) :
    Ready c s X k := by
  have hp : Prepared c s := h.invariant prepared_init (fun _ _ _ hi ha hst => hi.next ha hst)
  have hclient : (s.exch.side .client).Finished := by
    rcases step_cases hst with ⟨_, _, _, hh, _⟩ | ⟨Y, q, qs, l, _, hq, _, hf, _⟩ |
      ⟨b, _, _, hv, _, _⟩
    · rw [hh] at hsend
      exact absurd hsend (lt_irrefl _)
    · cases Y with
      | client => exact hf
      | server =>
        rw [hp.server_opens_none] at hq
        cases hq
    · by_contra hn
      rw [(hp.quiet hn).step_eq_none] at hv
      cases hv
  exact ready_of_connected (fun Y => hp.wired.all_connected hclient Y k) X

/-- Two queue pairs on each side, on hosts of different byte order. -/
def smallSession : Config where
  round :=
    { peerNum := 2, iters := 1, rxDepth := 2, size := 4
      peerNum_pos := Nat.two_pos, iters_pos := Nat.one_pos, two_le_rxDepth := Nat.le.refl
      qpNum := fun X k => match X with
        | .client => 17 + k.val
        | .server => 98 + k.val
      qpNum_injective := by
        intro X i j h
        cases X <;> exact Fin.ext (by simpa using h) }
  myDest X k := match X with
    | .client => ⟨⟨3, BitVec.ofNat 32 (17 + k.val), 5, fun _ => 0⟩,
      by decide +revert, by decide +revert, by decide +revert⟩
    | .server => ⟨⟨4, BitVec.ofNat 32 (98 + k.val), 7, fun j => BitVec.ofNat 8 j⟩,
      by decide +revert, by decide +revert, by decide +revert⟩
  endian X := match X with
    | .client => .little
    | .server => .big
  old := fun _ _ => ⟨⟨0, 0, 0, fun _ => 0⟩, [], 0⟩
  qpn_eq := by
    intro X
    cases X <;> decide

/-- The client's first message is at the server, which has still to make its last
read of the exchange when the message arrives. -/
def firstMessage : List (Action 2) :=
  [.exchange (.run .client), .exchange (.read .server 52), .exchange (.run .server),
    .exchange (.run .server), .exchange (.read .client 52), .exchange (.run .client),
    .exchange (.run .client), .exchange (.run .client), .exchange (.read .server 5),
    .exchange (.read .server 52), .exchange (.run .server), .exchange (.run .server),
    .exchange (.read .client 52), .exchange (.run .client), .exchange (.run .client),
    .firstSend .client, .loop (.deliver .client ⟨0, Nat.two_pos⟩), .exchange (.read .server 5),
    .loop (.poll .server 1)]

def firstMessageState : State 2 :=
  (smallSession.system.exec smallSession.WholeReads smallSession.system.init firstMessage).get
    (by decide +kernel)

/-- The server answers the first message. -/
theorem send_ready_firstMessage : Ready smallSession firstMessageState .server (0 : Fin 2) := by
  have hrun : (smallSession.system.step firstMessageState (.loop (.handle .server))).map
      (fun t => t.hosts.sends .server (0 : Fin 2)) = some 1 := by
    decide +kernel
  obtain ⟨t, ht, hsends⟩ := Option.map_eq_some_iff.mp hrun
  have hnone : firstMessageState.hosts.sends .server (0 : Fin 2) = 0 := by decide +kernel
  have hlt : firstMessageState.hosts.sends .server (0 : Fin 2) <
      t.hosts.sends .server (0 : Fin 2) := by
    rw [hnone, hsends]
    exact Nat.one_pos
  exact send_ready (Machine.reachableBy_of_exec _) ht .server (0 : Fin 2) hlt

end Readiness

end InfinibandWorkshop.Session
