import InfinibandWorkshop.MultistreamSystem

/-!
# What the ledger says about the two loops

Every reachable state carries a ledger, so the laws of the game can be read off
the counters, pending bits and queues of both sides: no deadlock, alternation on
every queue pair, work queues that never overflow or run dry, and the number of
messages of a round.
-/
namespace InfinibandWorkshop.Multistream
open Verbs Rally
open scoped BigOperators

variable {c : Config} {s : c.State} {L : Ledger (Fin c.peerNum) c.iters}

/-- The loop test compares the totals of the ledger with the quota. -/
theorem Coupled.left_iff (h : Coupled c s L) (X : Role) :
    (s.host X).Left (c.program X) ↔ (s.host X).wc = [] ∧ L.Finished X := by
  obtain ⟨l, hl, ht⟩ := h.tracks X
  have hagain : (c.program X).again l = false ↔ L.Finished X := by
    show decide (l.rcnt < c.iters ∨ l.scnt < c.iters) = false ↔ _
    rw [decide_eq_false_iff_not, ht.scnt, ht.rcnt, not_or, not_lt, not_lt]
    exact and_comm
  constructor
  · rintro ⟨l', hl', ha, hw⟩
    obtain rfl : l = l' := Except.ok.inj (hl.symm.trans hl')
    exact ⟨hw, hagain.mp ha⟩
  · rintro ⟨hw, hf⟩
    exact ⟨l, hl, hagain.mpr hf, hw⟩

/-- No side fails, so a side that has not left is still in its loop. -/
theorem Coupled.inLoop (h : Coupled c s L) {X : Role}
    (hn : ¬ (s.host X).Left (c.program X)) : (s.host X).InLoop (c.program X) := by
  obtain ⟨l, hl, _⟩ := h.tracks X
  by_cases hw : (s.host X).wc = []
  · refine ⟨l, hl, .inl ?_⟩
    by_contra ha
    exact hn ⟨l, hl, Bool.eq_false_iff.mpr ha, hw⟩
  · exact ⟨l, hl, .inr hw⟩

/-- With nothing polled and nothing to poll, every arrival has been handled. -/
theorem Coupled.settled (h : Coupled c s L) {X : Role} (hw : (s.host X).wc = [])
    (hcq : (s.host X).cq = []) : L.Settled X := by
  intro q
  have ha := h.pending_acks X q
  have hm := h.pending_msgs X q
  simp only [hw, hcq, count_nil, add_zero] at ha hm
  exact ⟨ha, hm⟩

/-- A receive is always posted for the next message. -/
theorem Coupled.recv_ready (h : Coupled c s L) (X : Role) (q : Fin c.peerNum) :
    s.arrived X q < s.recvs X.peer q := by
  obtain ⟨l, _, ht⟩ := h.tracks X.peer
  have hcr := ht.credits q
  have h2 := ht.two_le_routs q
  have hg := L.lawful.arrived_le_got X.peer q
  have ha := h.arrived X q
  rw [Role.peer_peer] at hg
  omega

/-- At most one completion of each kind and queue pair waits to be handled. -/
theorem Coupled.unhandled_le (h : Coupled c s L) (X : Role) (k : Queue) (q : Fin c.peerNum) :
    count (c.program X) k q ((s.host X).wc ++ (s.host X).cq) ≤ 1 := by
  rw [count_append]
  cases k with
  | send =>
    have hp := h.pending_acks X q
    have hl := L.lawful.arrived_le_acked X q
    omega
  | recv =>
    have hp := h.pending_msgs X q
    have hl := L.lawful.arrived_le_got X q
    omega

theorem Coupled.poll_enabled (h : Coupled c s L) {X : Role} (hw : (s.host X).wc = [])
    (hn : ¬ (s.host X).Left (c.program X)) (hcq : (s.host X).cq ≠ []) :
    (s.host X).InLoop (c.program X) ∧ c.system.Enabled s (.poll X 1) := by
  have hin := h.inLoop hn
  obtain ⟨l, hl, hor⟩ := hin
  have hentries : 0 < (c.program X).numEntries := Nat.mul_pos c.peerNum_pos Nat.two_pos
  exact ⟨⟨l, hl, hor⟩,
    Verbs.poll_enabled hl (hor.resolve_right (fun hne => hne hw)) hw hentries hcq⟩

/-- While both sides are in their loops nothing is lost, so whatever cannot be
delivered has been. -/
theorem Coupled.arrived_of_stuck (h : Coupled c s L)
    (hn : ∀ X, ¬ (s.host X).Left (c.program X))
    (hd : ∀ X q, ¬ c.system.Enabled s (.deliver X q)) (X : Role) (q : Fin c.peerNum) :
    L.arrived X q = L.sent X q := by
  have hlost : s.lost X q = 0 := by
    by_contra hne
    exact hn X.peer (h.balanced.lost_left X q (Nat.pos_of_ne_zero hne))
  have hsent := h.balanced.sent X q
  rw [h.arrived, h.sent]
  by_contra hne
  exact hd X q (deliver_enabled (by omega) (h.recv_ready X q))

theorem Coupled.canProceed (hc : Coupled c s L)
    (hn : ∃ X, ¬ (s.host X).Left (c.program X)) : CanProceed c.program s := by
  constructor
  · intro X hw
    obtain ⟨l, hl, _⟩ := hc.tracks X
    exact handle_enabled hl hw
  · intro hw
    obtain ⟨X, hX⟩ := hn
    by_cases hP : (s.host X.peer).Left (c.program X.peer)
    · -- the peer got all it needed, and what it sent for that has arrived at `X`
      have hcq : (s.host X).cq ≠ [] := by
        intro hcq
        have hpeer := ((hc.left_iff X.peer).mp hP).2
        have hX' := Ledger.finished_of_peer hpeer (hc.settled (hw X) hcq)
        exact hX ((hc.left_iff X).mpr ⟨hw X, hX'⟩)
      obtain ⟨hin, hpoll⟩ := hc.poll_enabled (hw X) hX hcq
      exact .inr ⟨X, hin, hcq, hpoll⟩
    · have hnot : ∀ Y, ¬ (s.host Y).Left (c.program Y) := by
        intro Y
        by_cases hY : Y = X
        · exact hY ▸ hX
        · exact Role.eq_peer_of_ne hY ▸ hP
      by_cases hcq : ∃ Y, (s.host Y).cq ≠ []
      · obtain ⟨Y, hY⟩ := hcq
        obtain ⟨hin, hpoll⟩ := hc.poll_enabled (hw Y) (hnot Y) hY
        exact .inr ⟨Y, hin, hY, hpoll⟩
      · -- nothing to poll anywhere: something must still be in flight
        left
        by_contra hd
        have hwire := hc.arrived_of_stuck hnot
          (fun Y q he => hd ⟨Y, q, hc.inLoop (hnot Y.peer), he⟩)
        have hsettled : ∀ Y, L.Settled Y := by
          intro Y
          exact hc.settled (hw Y) (by_contra fun hne => hcq ⟨Y, hne⟩)
        have : Nonempty (Fin c.peerNum) := ⟨⟨0, c.peerNum_pos⟩⟩
        exact hX ((hc.left_iff X).mpr
          ⟨hw X, Ledger.finished_of_settled hwire hsettled X⟩)

/-- No deadlock is reachable before both sides have left their loops. -/
theorem no_deadlock (h : c.Reaches s) (hn : ∃ X, ¬ (s.host X).Left (c.program X)) :
    CanProceed c.program s := by
  obtain ⟨L, _, hc⟩ := h.accounted
  exact hc.canProceed hn

/-- Two queue pairs, two iterations and the smallest receive depth. -/
def smallConfig : Config where
  peerNum := 2
  iters := 2
  rxDepth := 2
  size := 1
  peerNum_pos := by decide
  iters_pos := by decide
  two_le_rxDepth := by decide
  qpNum := fun _ q => q.val
  qpNum_injective := fun _ => Fin.val_injective

def lastPair : Fin smallConfig.peerNum := ⟨1, by decide⟩

/-- The first message on the last queue pair is delivered, polled and handled. -/
def smallRun : List (Action smallConfig.peerNum) :=
  [.deliver .client lastPair, .poll .server 1, .handle .server]

def smallState : smallConfig.State :=
  (smallConfig.system.exec Silent smallConfig.system.init smallRun).get (by decide)

theorem smallConfig_reaches : smallConfig.Reaches smallState := Machine.reachableBy_of_exec _

theorem no_deadlock_small : CanProceed smallConfig.program smallState :=
  no_deadlock smallConfig_reaches ⟨.client, by decide⟩

/-- On every queue pair the client leads by at most one message, each side has at
most one completion of a kind unhandled, and the pending bits say what the side
still waits for: the completion of its send, and the peer's next message. -/
structure StrictlyAlternates (s : c.State) (q : Fin c.peerNum) : Prop where
  lead : s.sends .client q = s.sends .server q ∨ s.sends .client q = s.sends .server q + 1
  unhandled : ∀ X k, count (c.program X) k q ((s.host X).wc ++ (s.host X).cq) ≤ 1
  sendBit : ∀ X l, (s.host X).loop = .ok l →
    (l.pendingQp q &&& pingpongSendWrid = pingpongSendWrid ↔
      count (c.program X) .send q (s.host X).handled < s.sends X q)
  recvBit_client : ∀ l, (s.host .client).loop = .ok l →
    (l.pendingQp q &&& pingpongRecvWrid = pingpongRecvWrid ↔
      count (c.program .client) .recv q (s.host .client).handled + 1 = s.sends .client q)
  recvBit_server : ∀ l, (s.host .server).loop = .ok l →
    (l.pendingQp q &&& pingpongRecvWrid = pingpongRecvWrid ↔
      count (c.program .server) .recv q (s.host .server).handled = s.sends .server q)
  running : ∀ X, ∃ l, (s.host X).loop = .ok l

theorem Coupled.tracks_of_loop (h : Coupled c s L) {X : Role} {l : Locals c.peerNum}
    (hl : (s.host X).loop = .ok l) :
    Tracks c L.toTally (s.recvs X) X (fun _ => True) l := by
  obtain ⟨l', hl', ht⟩ := h.tracks X
  obtain rfl : l' = l := Except.ok.inj (hl'.symm.trans hl)
  exact ht

/-- The receive bit is set as long as the peer owes the next message. -/
theorem Coupled.recvBit_iff (h : Coupled c s L) {X : Role} {l : Locals c.peerNum}
    (hl : (s.host X).loop = .ok l) (q : Fin c.peerNum) :
    l.pendingQp q &&& pingpongRecvWrid = pingpongRecvWrid ↔
      count (c.program X) .recv q (s.host X).handled + 1 = s.sends X q + serve X := by
  rw [(h.tracks_of_loop hl).pending q trivial, bitsOf, pendingBits_and_recv,
    decide_eq_true_iff, Tally.AwaitsMsg, Tally.due, h.sent, h.got]
  have hle := L.lawful.due_le X q
  rw [Tally.due, h.sent, h.got] at hle
  omega

theorem strict_alternation (h : c.Reaches s) (q : Fin c.peerNum) : StrictlyAlternates s q := by
  obtain ⟨L, _, hc⟩ := h.accounted
  refine ⟨?_, fun X k => hc.unhandled_le X k q, ?_, ?_, ?_, ?_⟩
  · have ha := L.lawful.alternates q
    rw [hc.sent, hc.sent] at ha
    omega
  · intro X l hl
    rw [(hc.tracks_of_loop hl).pending q trivial, bitsOf, pendingBits_and_send,
      decide_eq_true_iff, Tally.AwaitsAck, hc.acked, hc.sent]
  · intro l hl
    exact hc.recvBit_iff hl q
  · intro l hl
    rw [hc.recvBit_iff hl q, serve, Nat.add_right_cancel_iff]
  · intro X
    obtain ⟨l, hl, _⟩ := hc.tracks X
    exact ⟨l, hl⟩

theorem strict_alternation_small : StrictlyAlternates smallState lastPair :=
  strict_alternation smallConfig_reaches lastPair

/-- The send queue of a queue pair holds at most one send. The credits stay
between 2 and the depth and count what is posted and not yet handled. The receive
queue never overflows, and no message in flight finds it empty. -/
structure QueuesFit (s : c.State) (X : Role) (q : Fin c.peerNum) : Prop where
  sendQueue_le : s.sendQueue c.program X q ≤ (c.program X).maxSendWr
  credits : ∃ l, (s.host X).loop = .ok l ∧ 2 ≤ l.routsArr q ∧ l.routsArr q ≤ c.rxDepth ∧
    l.routsArr q = s.recvs X q - (count (c.program X) .recv q (s.host X).handled : ℤ)
  recvQueue_le : s.recvQueue X q ≤ (c.program X).maxRecvWr
  ready : 0 < s.inFlight X q → 0 < s.recvQueue X.peer q

theorem work_queues_fit (h : c.Reaches s) (X : Role) (q : Fin c.peerNum) : QueuesFit s X q := by
  obtain ⟨L, _, hc⟩ := h.accounted
  obtain ⟨l, hl, ht⟩ := hc.tracks X
  have hcr := ht.credits q
  have hle := ht.routs_le q
  have hgot := hc.got X q
  refine ⟨?_, ⟨l, hl, ht.two_le_routs q, hle, by omega⟩, ?_, ?_⟩
  · have hs := L.lawful.sent_le X q
    have hsent := hc.sent X q
    have hacked := hc.acked X q
    show s.sendQueue c.program X q ≤ 1
    unfold State.sendQueue
    rw [count_append]
    omega
  · have hg := L.lawful.got_le X q
    have harr := hc.arrived X.peer q
    show s.recvQueue X q ≤ c.rxDepth
    unfold State.recvQueue
    omega
  · intro _
    have hr := hc.recv_ready X q
    unfold State.recvQueue
    rw [Role.peer_peer]
    omega

theorem work_queues_fit_small : QueuesFit smallState .server lastPair :=
  work_queues_fit smallConfig_reaches .server lastPair

/-- A side posts fewer than `iters + peerNum` sends in all, which bounds both
counters, and it leaves its loop only once both have reached `iters`. -/
structure MessageBounds (s : c.State) (X : Role) : Prop where
  sends_le : ∑ q, s.sends X q ≤ c.iters + c.peerNum - 1
  counters_le : ∃ l, (s.host X).loop = .ok l ∧
    l.scnt ≤ c.iters + c.peerNum - 1 ∧ l.rcnt ≤ c.iters + c.peerNum - 1
  of_left : (s.host X).Left (c.program X) →
    ∃ l, (s.host X).loop = .ok l ∧ c.iters ≤ l.scnt ∧ c.iters ≤ l.rcnt

theorem sum_sent_le (L : Ledger (Fin c.peerNum) c.iters) (X : Role) :
    ∑ q, L.sent X q ≤ c.iters + c.peerNum - 1 := by
  have htot := L.lawful.total X
  rw [Fintype.card_fin] at htot
  omega

/-- The counters are bounded by what the two sides have sent. -/
theorem Coupled.counters_le (h : Coupled c s L) {X : Role} {l : Locals c.peerNum}
    (hl : (s.host X).loop = .ok l) :
    l.scnt ≤ c.iters + c.peerNum - 1 ∧ l.rcnt ≤ c.iters + c.peerNum - 1 := by
  have ht := h.tracks_of_loop hl
  rw [ht.scnt, ht.rcnt]
  exact ⟨((L.sum_acked_le X).trans (L.sum_arrived_le X)).trans (sum_sent_le L X),
    ((L.sum_got_le X).trans (L.sum_arrived_le X.peer)).trans (sum_sent_le L X.peer)⟩

/-- The loop test keeps a side in until both of its counters have met `iters`. -/
theorem Coupled.counters_of_left (h : Coupled c s L) {X : Role}
    (hX : (s.host X).Left (c.program X)) {l : Locals c.peerNum}
    (hl : (s.host X).loop = .ok l) : c.iters ≤ l.scnt ∧ c.iters ≤ l.rcnt := by
  have ht := h.tracks_of_loop hl
  rw [ht.scnt, ht.rcnt]
  exact ((h.left_iff X).mp hX).2

theorem message_bounds (h : c.Reaches s) (X : Role) : MessageBounds s X := by
  obtain ⟨L, _, hc⟩ := h.accounted
  obtain ⟨l, hl, _⟩ := hc.tracks X
  refine ⟨?_, ⟨l, hl, hc.counters_le hl⟩, fun hX => ⟨l, hl, hc.counters_of_left hX hl⟩⟩
  exact (Finset.sum_congr rfl (fun q _ => (hc.sent X q).symm)).trans_le (sum_sent_le L X)

theorem message_bounds_small : MessageBounds smallState .server :=
  message_bounds smallConfig_reaches .server

end InfinibandWorkshop.Multistream
