import InfinibandWorkshop.MultistreamLoop
import InfinibandWorkshop.Rally

/-!
# Client and server of multistreamTestRunner.c play a rally

The counters, pending bits and credits of each side are coupled to the tally of
what was posted, delivered and handled. Each step of the two programs is at most
one move of the abstract game, so every reachable state carries a ledger.
-/
namespace InfinibandWorkshop.Multistream
open Verbs Rally
open scoped BigOperators

/-- The parameters of one round of the benchmark. -/
structure Config where
  peerNum : ℕ
  iters : ℕ
  rxDepth : ℕ
  size : ℕ
  peerNum_pos : 1 ≤ peerNum
  iters_pos : 1 ≤ iters
  two_le_rxDepth : 2 ≤ rxDepth
  qpNum : Role → Fin peerNum → ℕ
  qpNum_injective : ∀ X, Function.Injective (qpNum X)

namespace Config

variable (c : Config)

def ctx (X : Role) : PingpongContext c.peerNum :=
  ppInitCtx c.size c.rxDepth (c.qpNum X) (c.qpNum_injective X)

def program (X : Role) : Program c.peerNum (Locals c.peerNum) Exit :=
  runPingPong (c.ctx X) c.iters X

abbrev State : Type := Verbs.State c.peerNum (Locals c.peerNum) Exit

/-- Both sides from the entry of their loops, the client's first sends posted. -/
def system : Machine c.State (Action c.peerNum) := Verbs.system c.program

/-- Reachable by any interleaving of deliveries, polls and handlings; messages
for a side that has left its loop may vanish. -/
def Reaches (s : c.State) : Prop := c.system.ReachableBy Silent s

end Config

section Tally

variable {n : ℕ} {Loc Ret : Type} (P : Role → Program n Loc Ret)

/-- What the histories of a state say has happened on each queue pair. -/
def tally (s : Verbs.State n Loc Ret) : Tally (Fin n) where
  sent := s.sends
  arrived := s.arrived
  lost := s.lost
  acked X q := count (P X) .send q (s.host X).handled
  got X q := count (P X) .recv q (s.host X).handled

variable {P} {s : Verbs.State n Loc Ret}

theorem tally_delivered (X : Role) (q : Fin n) (w r : WorkRequest n) :
    tally P (delivered P s X q w r) = (tally P s).deliver X q := by
  simp [tally, Tally.deliver]

/-- The tally after `X` has handled `w` and posted `posts` on the way. -/
def tallied (P : Role → Program n Loc Ret) (t : Tally (Fin n)) (X : Role) (w : IbvWc)
    (posts : List (WorkRequest n)) : Tally (Fin n) :=
  { t with
    sent := fun Y r => if Y = X then t.sent Y r + (onQueue .send r posts).length else t.sent Y r
    acked := fun Y r => if Y = X then t.acked Y r + count (P X) .send r [w] else t.acked Y r
    got := fun Y r => if Y = X then t.got Y r + count (P X) .recv r [w] else t.got Y r }

theorem tally_handled (X : Role) (o : Outcome n Loc Ret) (w : IbvWc) (ws : List IbvWc)
    {l : Loc} (ho : o.next = .ok l) :
    tally P (s.setHost X (handled (s.host X) o w ws)) = tallied P (tally P s) X w o.posted := by
  ext Y r
  · by_cases hY : Y = X
    · subst Y
      simp [tally, tallied, State.sends, Host.requests, handled, ho]
    · simp [tally, tallied, State.sends, State.setHost_ne s _ hY, hY]
  · rfl
  · rfl
  · by_cases hY : Y = X
    · subst Y
      simp [tally, tallied, handled, ho]
    · simp [tally, tallied, State.setHost_ne s _ hY, hY]
  · by_cases hY : Y = X
    · subst Y
      simp [tally, tallied, handled, ho]
    · simp [tally, tallied, State.setHost_ne s _ hY, hY]

end Tally

section Bits

/-- `pending_qp` with its two flags. -/
def pendingBits (recv send : Bool) : BitVec 32 :=
  (if recv then pingpongRecvWrid else 0) ||| (if send then pingpongSendWrid else 0)

theorem pendingBits_and_recv (r s : Bool) :
    pendingBits r s &&& pingpongRecvWrid = pingpongRecvWrid ↔ r = true := by
  cases r <;> cases s <;> decide

theorem pendingBits_and_send (r s : Bool) :
    pendingBits r s &&& pingpongSendWrid = pingpongSendWrid ↔ s = true := by
  cases r <;> cases s <;> decide

theorem pendingBits_clear_send (r s : Bool) :
    pendingBits r s &&& ~~~pingpongSendWrid = pendingBits r false := by
  cases r <;> cases s <;> decide

theorem pendingBits_clear_recv (r s : Bool) :
    pendingBits r s &&& ~~~pingpongRecvWrid = pendingBits false s := by
  cases r <;> cases s <;> decide

theorem pendingBits_eq_zero (r s : Bool) : pendingBits r s = 0 ↔ r = false ∧ s = false := by
  cases r <;> cases s <;> decide

/-- The bits of queue pair `q` that the tally calls for. -/
def bitsOf {ι : Type*} (t : Tally ι) (X : Role) (q : ι) : BitVec 32 :=
  pendingBits (decide (t.AwaitsMsg X q)) (decide (t.AwaitsAck X q))

theorem bitsOf_eq_zero {ι : Type*} (t : Tally ι) (X : Role) (q : ι) :
    bitsOf t X q = 0 ↔ t.Idle X q := by
  rw [bitsOf, pendingBits_eq_zero, decide_eq_false_iff_not, decide_eq_false_iff_not]
  rfl

/-- The bits of a queue pair depend on its own counters only. -/
theorem bitsOf_congr {ι : Type*} {t t' : Tally ι} {X : Role} {q : ι}
    (hs : t'.sent X q = t.sent X q) (ha : t'.acked X q = t.acked X q)
    (hg : t'.got X q = t.got X q) : bitsOf t' X q = bitsOf t X q := by
  have hm : t'.AwaitsMsg X q ↔ t.AwaitsMsg X q := by
    simp only [Tally.AwaitsMsg, Tally.due, hs, hg]
  have hk : t'.AwaitsAck X q ↔ t.AwaitsAck X q := by
    simp only [Tally.AwaitsAck, hs, ha]
  rw [bitsOf, bitsOf, decide_eq_decide.mpr hm, decide_eq_decide.mpr hk]

end Bits

section Tracking

variable {c : Config} {X : Role} {t : Tally (Fin c.peerNum)} {recvs : Fin c.peerNum → ℕ}
  {l : Locals c.peerNum}

/-- The locals of side `X` say what the tally and the posted receives say, but
for the pending bits of queue pairs outside `on`. -/
structure Tracks (c : Config) (t : Tally (Fin c.peerNum)) (recvs : Fin c.peerNum → ℕ)
    (X : Role) (on : Fin c.peerNum → Prop) (l : Locals c.peerNum) : Prop where
  scnt : l.scnt = ∑ q, t.acked X q
  rcnt : l.rcnt = ∑ q, t.got X q
  pending : ∀ q, on q → l.pendingQp q = bitsOf t X q
  two_le_routs : ∀ q, 2 ≤ l.routsArr q
  routs_le : ∀ q, l.routsArr q ≤ c.rxDepth
  credits : ∀ q, (recvs q : ℤ) = l.routsArr q + t.got X q

/-- Only the sends, acknowledgements and messages of the side itself matter. -/
theorem Tracks.congr {on : Fin c.peerNum → Prop} (h : Tracks c t recvs X on l)
    {t' : Tally (Fin c.peerNum)} (hs : ∀ q, t'.sent X q = t.sent X q)
    (ha : ∀ q, t'.acked X q = t.acked X q) (hg : ∀ q, t'.got X q = t.got X q) :
    Tracks c t' recvs X on l where
  scnt := by simp only [ha]; exact h.scnt
  rcnt := by simp only [hg]; exact h.rcnt
  pending q hq := by rw [h.pending q hq, bitsOf_congr (hs q) (ha q) (hg q)]
  two_le_routs := h.two_le_routs
  routs_le := h.routs_le
  credits q := by rw [hg]; exact h.credits q

/-- `case PINGPONG_SEND_WRID`. -/
theorem countCompletion_send (room : Room c.peerNum) (q : Fin c.peerNum)
    (h : Tracks c t recvs X (fun _ => True) l) (hq : t.sent X q ≤ t.acked X q + 1) :
    ∃ l', countCompletion (c.ctx X) room q pingpongSendWrid l = ⟨.ok l', []⟩ ∧
      Tracks c (t.countAck X q) recvs X (· ≠ q) l' ∧
      l'.pendingQp q &&& ~~~pingpongSendWrid = bitsOf (t.countAck X q) X q := by
  refine ⟨{ l with scnt := l.scnt + 1 }, by simp [countCompletion], ?_, ?_⟩
  · refine ⟨?_, h.rcnt, ?_, h.two_le_routs, h.routs_le, h.credits⟩
    · simp only [Tally.countAck, sum_bump_self, h.scnt]
    · intro r hr
      rw [h.pending r trivial]
      refine (bitsOf_congr ?_ ?_ ?_).symm
      exacts [rfl, bump_of_ne _ _ _ hr, rfl]
  · have hp := h.pending q trivial
    have hna : ¬ (t.countAck X q).AwaitsAck X q := by
      simp only [Tally.AwaitsAck, Tally.countAck, bump_self]
      omega
    rw [hp, bitsOf, pendingBits_clear_send, bitsOf, decide_eq_false hna]
    rfl

/-- `case PINGPONG_RECV_WRID`: with enough room the refill never falls short. -/
theorem countCompletion_recv (room : Room c.peerNum) (q : Fin c.peerNum)
    (h : Tracks c t recvs X (fun _ => True) l) (hq : t.due X q ≤ t.got X q + 1)
    (hroom : (c.rxDepth : ℤ) - (l.routsArr q - 1) ≤ room.recv q) :
    ∃ l' k, countCompletion (c.ctx X) room q pingpongRecvWrid l =
        ⟨.ok l', List.replicate k (request (c.ctx X) .recv q)⟩ ∧
      Tracks c (t.countMsg X q) (fun r => if r = q then recvs r + k else recvs r) X (· ≠ q) l' ∧
      l'.pendingQp q &&& ~~~pingpongRecvWrid = bitsOf (t.countMsg X q) X q := by
  obtain ⟨m, routs, hcredit, h2, hle, hrouts⟩ := creditReceive_spec (c.ctx X)
    c.two_le_rxDepth (h.two_le_routs q) (h.routs_le q) hroom
  refine ⟨{ l with
      routsArr := Function.update l.routsArr q routs, rcnt := l.rcnt + 1 }, m, ?_,
    ⟨h.scnt, ?_, ?_, ?_, ?_, ?_⟩, ?_⟩
  · have hne : pingpongRecvWrid ≠ pingpongSendWrid := by decide
    simp only [countCompletion, if_neg hne, if_true, hcredit, Outcome.bind_ok, List.append_nil]
  · simp only [Tally.countMsg, sum_bump_self, h.rcnt]
  · intro r hr
    show l.pendingQp r = _
    rw [h.pending r trivial]
    refine (bitsOf_congr ?_ ?_ ?_).symm
    exacts [rfl, rfl, bump_of_ne _ _ _ hr]
  · intro r
    by_cases hr : r = q
    · subst r
      simpa using h2
    · simpa [hr] using h.two_le_routs r
  · intro r
    by_cases hr : r = q
    · subst r
      show Function.update l.routsArr q routs q ≤ _
      rw [Function.update_self]
      exact hle
    · simpa [hr] using h.routs_le r
  · intro r
    have hc := h.credits r
    by_cases hr : r = q
    · subst r
      simp only [if_true, Function.update_self, Tally.countMsg, bump_self]
      push_cast
      omega
    · simpa [hr, Tally.countMsg, bump_of_ne _ _ _ hr] using hc
  · have hna : ¬ (t.countMsg X q).AwaitsMsg X q := by
      simp only [Tally.AwaitsMsg, Tally.countMsg, Tally.due, bump_self] at *
      omega
    show l.pendingQp q &&& ~~~pingpongRecvWrid = _
    rw [h.pending q trivial, bitsOf, pendingBits_clear_recv, bitsOf, decide_eq_false hna]
    rfl

/-- Counting a completion of queue `k`, before the answer to it. -/
def counted {ι : Type*} [DecidableEq ι] (k : Queue) (t : Tally ι) (X : Role) (q : ι) : Tally ι :=
  match k with
  | .send => t.countAck X q
  | .recv => t.countMsg X q

/-- Either case of the `switch` counts the completion and clears its bit. -/
theorem countCompletion_spec (k : Queue) (room : Room c.peerNum) (q : Fin c.peerNum)
    (h : Tracks c t recvs X (fun _ => True) l) (hsent : t.sent X q ≤ t.acked X q + 1)
    (hdue : t.due X q ≤ t.got X q + 1)
    (hroom : k = .recv → (c.rxDepth : ℤ) - (l.routsArr q - 1) ≤ room.recv q) :
    ∃ l' m, countCompletion (c.ctx X) room q (wrid k) l =
        ⟨.ok l', List.replicate m (request (c.ctx X) .recv q)⟩ ∧
      Tracks c (counted k t X q) (fun r => if r = q then recvs r + m else recvs r) X (· ≠ q) l' ∧
      l'.pendingQp q &&& ~~~(wrid k) = bitsOf (counted k t X q) X q := by
  cases k with
  | send =>
    obtain ⟨l', ho, ht, hb⟩ := countCompletion_send room q h hsent
    exact ⟨l', 0, ho, by simp only [add_zero, ite_self]; exact ht, hb⟩
  | recv => exact countCompletion_recv room q h hdue (hroom rfl)

/-- Clearing the bit and posting again is the answer of the abstract game. -/
theorem repost_spec (room : Room c.peerNum) (q : Fin c.peerNum) (id : BitVec 32)
    (h : Tracks c t recvs X (· ≠ q) l) (hid : l.pendingQp q &&& ~~~id = bitsOf t X q)
    (hlaw : Lawful c.iters (some (X, q)) t) (hroom : t.Idle X q → room.send q ≠ 0) :
    ∃ l', repost (c.ctx X) c.iters room q id l =
        ⟨.ok l', if (∑ r, t.acked X r) < c.iters ∧ t.Idle X q
          then [request (c.ctx X) .send q] else []⟩ ∧
      Tracks c (t.answer c.iters X q) recvs X (fun _ => True) l' := by
  have hcond : (l.scnt < c.iters ∧ l.pendingQp q &&& ~~~id = 0) ↔
      ((∑ r, t.acked X r) < c.iters ∧ t.Idle X q) := by
    rw [h.scnt, hid, bitsOf_eq_zero]
  by_cases hpost : (∑ r, t.acked X r) < c.iters ∧ t.Idle X q
  · refine ⟨{ l with pendingQp :=
        Function.update l.pendingQp q (pingpongRecvWrid ||| pingpongSendWrid) }, ?_, ?_⟩
    · simp only [repost, if_pos (hcond.mpr hpost), ppPostSendQp, if_neg (hroom hpost.2),
        if_pos hpost]
    · rw [Tally.answer, if_pos hpost]
      refine ⟨h.scnt, h.rcnt, ?_, h.two_le_routs, h.routs_le, h.credits⟩
      intro r _
      by_cases hr : r = q
      · subst r
        have hg := hlaw.got_le_due X q
        have ha := hlaw.acked_le X q
        have hs := hlaw.arrived_le X q
        have hm : Tally.AwaitsMsg { t with sent := bump t.sent X q } X q := by
          simp only [Tally.AwaitsMsg, Tally.due, bump_self] at *
          omega
        have hk : Tally.AwaitsAck { t with sent := bump t.sent X q } X q := by
          simp only [Tally.AwaitsAck, bump_self] at *
          omega
        show Function.update l.pendingQp q (pingpongRecvWrid ||| pingpongSendWrid) q = _
        rw [bitsOf, decide_eq_true hm, decide_eq_true hk, Function.update_self]
        rfl
      · show Function.update l.pendingQp q (pingpongRecvWrid ||| pingpongSendWrid) r = _
        rw [Function.update_of_ne hr, h.pending r hr]
        refine (bitsOf_congr ?_ ?_ ?_).symm
        exacts [bump_of_ne _ _ _ hr, rfl, rfl]
  · refine ⟨{ l with pendingQp := Function.update l.pendingQp q (l.pendingQp q &&& ~~~id) },
      ?_, ?_⟩
    · simp only [repost, if_neg (fun hn => hpost (hcond.mp hn)), if_neg hpost]
    · rw [Tally.answer, if_neg hpost]
      refine ⟨h.scnt, h.rcnt, ?_, h.two_le_routs, h.routs_le, h.credits⟩
      intro r _
      show Function.update l.pendingQp q (l.pendingQp q &&& ~~~id) r = _
      by_cases hr : r = q
      · subst r; rw [Function.update_self, hid]
      · rw [Function.update_of_ne hr, h.pending r hr]

end Tracking

section Coupling

/-- The requests of one kind on one queue pair, seen from any queue. -/
theorem onQueue_replicate {n : ℕ} (ctx : PingpongContext n) (k k' : Queue) (q r : Fin n)
    (m : ℕ) : onQueue k r (List.replicate m (request ctx k' q)) =
      if k' = k ∧ r = q then List.replicate m (request ctx k' q) else [] := by
  unfold onQueue
  split_ifs with h
  · rw [List.filter_eq_self]
    intro w hw
    rw [(List.mem_replicate.mp hw).2]
    exact decide_eq_true ⟨h.1, h.2.symm⟩
  · rw [List.filter_eq_nil_iff]
    intro w hw
    rw [(List.mem_replicate.mp hw).2]
    exact fun hd => h ⟨(of_decide_eq_true hd).1, (of_decide_eq_true hd).2.symm⟩

/-- The move of the abstract game that handling a completion amounts to. -/
def moveOf {ι : Type*} : Queue → Role → ι → Move ι
  | .send => .ack
  | .recv => .receive

/-- An unhandled completion makes its move open, and it leads where counting
and answering lead. -/
theorem step_moveOf {ι : Type*} [Fintype ι] [DecidableEq ι] {quota : ℕ} (L : Ledger ι quota)
    (k : Queue) {X : Role} {q : ι} (hs : k = .send → L.acked X q < L.arrived X q)
    (hr : k = .recv → L.got X q < L.arrived X.peer q) :
    Lawful quota (some (X, q)) (counted k L.toTally X q) ∧
      ∃ L', L.step (moveOf k X q) = some L' ∧
        L'.toTally = (counted k L.toTally X q).answer quota X q := by
  cases k with
  | send => exact ⟨L.lawful.countAck (hs rfl), _, dif_pos (hs rfl), rfl⟩
  | recv => exact ⟨L.lawful.countMsg (hr rfl), _, dif_pos (hr rfl), rfl⟩

/-- The requests that answering posts: the next send, or none. -/
def answerOf (c : Config) (X : Role) (t : Tally (Fin c.peerNum)) (q : Fin c.peerNum) :
    List (WorkRequest c.peerNum) :=
  if (∑ r, t.acked X r) < c.iters ∧ t.Idle X q then [request (c.ctx X) .send q] else []

theorem onQueue_answerOf {c : Config} (k : Queue) (X : Role) (t : Tally (Fin c.peerNum))
    (q r : Fin c.peerNum) : (onQueue k r (answerOf c X t q)).length =
      if ((∑ u, t.acked X u) < c.iters ∧ t.Idle X q) ∧ k = .send ∧ r = q then 1 else 0 := by
  have hone : [request (c.ctx X) .send q] = List.replicate 1 (request (c.ctx X) .send q) := rfl
  unfold answerOf
  by_cases hc : (∑ u, t.acked X u) < c.iters ∧ t.Idle X q
  · rw [if_pos hc, hone, onQueue_replicate]
    by_cases hk : k = .send ∧ r = q
    · simp [hc, hk.1, hk.2]
    · rw [if_neg (fun h => hk ⟨h.1.symm, h.2⟩), if_neg (fun h => hk h.2), List.length_nil]
  · rw [if_neg hc, if_neg (fun h => hc h.1)]
    rfl

/-- Handling `w` counts it, and its answer is the answer of the game. -/
theorem tallied_eq {c : Config} {t : Tally (Fin c.peerNum)} {X : Role} {q : Fin c.peerNum}
    {w : IbvWc} (hw : w.qpNum = (c.program X).qpNum q) (m : ℕ) :
    tallied c.program t X w (List.replicate m (request (c.ctx X) .recv q) ++
      answerOf c X (counted w.opcode t X q) q) =
        (counted w.opcode t X q).answer c.iters X q := by
  have hrecv : ∀ r, onQueue .send r (List.replicate m (request (c.ctx X) .recv q)) = [] := by
    intro r
    rw [onQueue_replicate, if_neg (fun h => Queue.noConfusion h.1)]
  have hcount : ∀ k r, count (c.program X) k r [w] = if w.opcode = k ∧ r = q then 1 else 0 :=
    fun k r => count_singleton (c.program X) k q r w hw
  ext Y r
  · rw [Tally.answer_sent]
    simp only [tallied, onQueue_append, hrecv, List.nil_append, onQueue_answerOf, true_and]
    have hs : (counted w.opcode t X q).sent = t.sent := by cases w.opcode <;> rfl
    rw [hs]
    by_cases hY : Y = X
    · by_cases hr : r = q
      · simp only [hY, hr, if_true, and_true]
        split_ifs <;> rfl
      · simp only [hY, hr, if_true, and_false, if_false, add_zero]
    · simp only [hY, if_false, false_and, and_false]
  · rw [Tally.answer_arrived]
    cases w.opcode <;> rfl
  · rw [Tally.answer_lost]
    cases w.opcode <;> rfl
  · rw [Tally.answer_acked]
    simp only [tallied, hcount]
    by_cases hY : Y = X <;> by_cases hr : r = q <;>
      cases w.opcode <;> simp [counted, Tally.countAck, Tally.countMsg, bump, hY, hr]
  · rw [Tally.answer_got]
    simp only [tallied, hcount]
    by_cases hY : Y = X <;> by_cases hr : r = q <;>
      cases w.opcode <;> simp [counted, Tally.countAck, Tally.countMsg, bump, hY, hr]

variable {c : Config} {s : c.State} {L : Ledger (Fin c.peerNum) c.iters}

/-- A state of the two programs and the ledger that accounts for it. -/
structure Coupled (c : Config) (s : c.State) (L : Ledger (Fin c.peerNum) c.iters) : Prop where
  balanced : Balanced c.program s
  accounts : L.toTally = tally c.program s
  marked : ∀ X, ∀ w ∈ (s.host X).posted, w.wrId = (wrid w.queue).setWidth 64
  tracks : ∀ X, ∃ l, (s.host X).loop = .ok l ∧
    Tracks c L.toTally (s.recvs X) X (fun _ => True) l

theorem Coupled.sent (h : Coupled c s L) (X : Role) (q : Fin c.peerNum) :
    L.sent X q = s.sends X q := congrArg (fun t => t.sent X q) h.accounts

theorem Coupled.arrived (h : Coupled c s L) (X : Role) (q : Fin c.peerNum) :
    L.arrived X q = s.arrived X q := congrArg (fun t => t.arrived X q) h.accounts

theorem Coupled.lost (h : Coupled c s L) (X : Role) (q : Fin c.peerNum) :
    L.lost X q = s.lost X q := congrArg (fun t => t.lost X q) h.accounts

theorem Coupled.acked (h : Coupled c s L) (X : Role) (q : Fin c.peerNum) :
    L.acked X q = count (c.program X) .send q (s.host X).handled :=
  congrArg (fun t => t.acked X q) h.accounts

theorem Coupled.got (h : Coupled c s L) (X : Role) (q : Fin c.peerNum) :
    L.got X q = count (c.program X) .recv q (s.host X).handled :=
  congrArg (fun t => t.got X q) h.accounts

/-- The completions not yet handled are those that arrived and are not counted. -/
theorem Coupled.pending_acks (h : Coupled c s L) (X : Role) (q : Fin c.peerNum) :
    L.acked X q + count (c.program X) .send q (s.host X).wc +
      count (c.program X) .send q (s.host X).cq = L.arrived X q := by
  have hb := h.balanced.acks X q
  simp only [Host.completions, count_append] at hb
  rw [h.acked, h.arrived, hb]

theorem Coupled.pending_msgs (h : Coupled c s L) (X : Role) (q : Fin c.peerNum) :
    L.got X q + count (c.program X) .recv q (s.host X).wc +
      count (c.program X) .recv q (s.host X).cq = L.arrived X.peer q := by
  have hb := h.balanced.msgs X q
  simp only [Host.completions, count_append] at hb
  rw [h.got, h.arrived, hb]

/-- What the loop finds in a completion: its queue pair, success, and the
`wr_id` that requests of its queue carry. -/
theorem Coupled.reads (h : Coupled c s L) {X : Role} {w : IbvWc}
    (hw : w ∈ (s.host X).completions) :
    w.status = ibvWcSuccess ∧ w.wrId.setWidth 32 = wrid w.opcode ∧
      ∃ q, w.qpNum = (c.program X).qpNum q ∧ findQp (c.ctx X) w.qpNum = some q := by
  obtain ⟨hs, q, hq, r, hr, hid⟩ := h.balanced.reports X w hw
  obtain ⟨hmem, hqueue, _⟩ := mem_onQueue.mp hr
  refine ⟨hs, ?_, q, hq, ?_⟩
  · rw [hid, h.marked X r hmem, hqueue]
    cases w.opcode <;> decide
  · rw [hq]
    exact findQp_self (c.ctx X) q

/-- A receive is consumed on arrival, before its completion is handled, so the
receive queue has room for everything the credits ask for. -/
theorem Coupled.recv_room (h : Coupled c s L) {X : Role} {l : Locals c.peerNum}
    (ht : Tracks c L.toTally (s.recvs X) X (fun _ => True) l) {q : Fin c.peerNum}
    (hg : L.got X q < L.arrived X.peer q) :
    (c.rxDepth : ℤ) - (l.routsArr q - 1) ≤ (s.room c.program X).recv q := by
  have hcr := ht.credits q
  have h2 := ht.two_le_routs q
  have har := h.arrived X.peer q
  show _ ≤ ((c.rxDepth - s.recvQueue X q : ℕ) : ℤ)
  unfold State.recvQueue
  omega

/-- Once every send has been polled, the send queue has room for the next one. -/
theorem Coupled.send_room (h : Coupled c s L) {X : Role} {q : Fin c.peerNum}
    (hs : L.sent X q ≤ L.acked X q + count (c.program X) .send q (s.host X).wc) :
    (s.room c.program X).send q ≠ 0 := by
  have hsent := h.sent X q
  have hacked := h.acked X q
  show maxSendWr - s.sendQueue c.program X q ≠ 0
  unfold State.sendQueue maxSendWr
  rw [count_append]
  omega

/-- Handling a completion succeeds and is a move of the abstract game. -/
theorem Coupled.outcome (h : Coupled c s L) {X : Role} {l : Locals c.peerNum} {w : IbvWc}
    {ws : List IbvWc} (hl : (s.host X).loop = .ok l) (hw : (s.host X).wc = w :: ws)
    {q : Fin c.peerNum} (hq : w.qpNum = (c.program X).qpNum q) :
    ∃ l' m L', L.step (moveOf w.opcode X q) = some L' ∧
      L'.toTally = (counted w.opcode L.toTally X q).answer c.iters X q ∧
      (c.program X).handle (s.room c.program X) l w =
        ⟨.ok l', List.replicate m (request (c.ctx X) .recv q) ++
          answerOf c X (counted w.opcode L.toTally X q) q⟩ ∧
      Tracks c L'.toTally (fun r => if r = q then s.recvs X r + m else s.recvs X r) X
        (fun _ => True) l' := by
  obtain ⟨l₀, hl₀, ht⟩ := h.tracks X
  obtain rfl : l₀ = l := by rw [hl] at hl₀; exact (Except.ok.inj hl₀).symm
  have hmem : w ∈ (s.host X).completions := by simp [Host.completions, hw]
  obtain ⟨hstatus, hid, q', hq', hfind⟩ := h.reads hmem
  obtain rfl : q' = q := (c.program X).qpNum_injective (hq'.symm.trans hq)
  have hone : ∀ k, w.opcode = k → count (c.program X) k q' [w] = 1 := by
    intro k hk
    rw [count_singleton (c.program X) k q' q' w hq, if_pos ⟨hk, rfl⟩]
  have hacks := h.pending_acks X q'
  have hmsgs := h.pending_msgs X q'
  rw [hw, count_cons] at hacks hmsgs
  have hs : w.opcode = .send → L.acked X q' < L.arrived X q' := by
    intro ho
    have := hone .send ho
    omega
  have hr : w.opcode = .recv → L.got X q' < L.arrived X.peer q' := by
    intro ho
    have := hone .recv ho
    omega
  obtain ⟨hlaw, L', hstep, hL'⟩ := step_moveOf L w.opcode hs hr
  obtain ⟨l₁, m, hcount, ht₁, hbits⟩ := countCompletion_spec w.opcode (s.room c.program X) q'
    ht (L.lawful.sent_le X q') (L.lawful.due_le X q') (fun ho => h.recv_room ht (hr ho))
  have hroom : (counted w.opcode L.toTally X q').Idle X q' →
      (s.room c.program X).send q' ≠ 0 := by
    intro hidle
    have hna := hidle.2
    apply h.send_room
    rw [hw, count_cons]
    cases ho : w.opcode with
    | send =>
      have := hone .send ho
      simp only [ho, counted, Tally.AwaitsAck, Tally.countAck, bump_self] at hna
      omega
    | recv =>
      simp only [ho, counted, Tally.AwaitsAck, Tally.countMsg] at hna
      omega
  obtain ⟨l₂, hrepost, ht₂⟩ := repost_spec (s.room c.program X) q' (wrid w.opcode) ht₁ hbits
    hlaw hroom
  refine ⟨l₂, m, L', hstep, hL', ?_, hL' ▸ ht₂⟩
  show handleCompletion (c.ctx X) c.iters (s.room c.program X) l₀ w = _
  simp only [handleCompletion, hfind, hstatus, ne_eq, not_true_eq_false, if_false, hid, hcount,
    Outcome.bind_ok, hrepost, answerOf]

theorem Coupled.handle (h : Coupled c s L) {X : Role} {l : Locals c.peerNum} {w : IbvWc}
    {ws : List IbvWc} (hl : (s.host X).loop = .ok l) (hw : (s.host X).wc = w :: ws)
    {q : Fin c.peerNum} (hq : w.qpNum = (c.program X).qpNum q) :
    ∃ l' L', ((c.program X).handle (s.room c.program X) l w).next = .ok l' ∧
      L.step (moveOf w.opcode X q) = some L' ∧
      L'.toTally = (counted w.opcode L.toTally X q).answer c.iters X q ∧
      Coupled c (s.setHost X (handled (s.host X)
        ((c.program X).handle (s.room c.program X) l w) w ws)) L' := by
  obtain ⟨l', m, L', hstep, hL', hout, ht'⟩ := h.outcome hl hw hq
  refine ⟨l', L', congrArg Outcome.next hout, hstep, hL', ?_, ?_, ?_, ?_⟩
  · refine h.balanced.setHost (handled_posted _ _ _ _) (handled_completions hw _) ?_
    exact Host.InLoop.not_left ⟨l, hl, .inr (by simp [hw])⟩
  · rw [tally_handled X _ w ws (congrArg Outcome.next hout), hout, ← h.accounts, tallied_eq hq,
      hL']
  · intro Y v hv
    by_cases hY : Y = X
    · subst Y
      rw [State.setHost_self, handled_posted, hout, List.mem_append, List.mem_append] at hv
      rcases hv with hv | hv | hv
      · exact h.marked X v hv
      · rw [(List.mem_replicate.mp hv).2]; rfl
      · unfold answerOf at hv
        split_ifs at hv
        · rw [List.mem_singleton.mp hv]; rfl
        · cases hv
    · rw [State.setHost_ne s _ hY] at hv
      exact h.marked Y v hv
  · intro Y
    by_cases hY : Y = X
    · subst Y
      refine ⟨l', ?_, ?_⟩
      · rw [State.setHost_self, handled, hout]
      · convert ht' using 1
        funext r
        simp only [State.recvs, State.setHost_self, Host.requests, handled_posted, hout,
          onQueue_append, List.length_append, onQueue_replicate, onQueue_answerOf]
        by_cases hr : r = q <;> simp [hr]
    · -- the other side sees neither the counters nor the requests of `X`
      obtain ⟨ly, hly, hty⟩ := h.tracks Y
      refine ⟨ly, by rw [State.setHost_ne s _ hY]; exact hly, ?_⟩
      have hcongr : Tracks c L'.toTally (s.recvs Y) Y (fun _ => True) ly := by
        refine hty.congr ?_ ?_ ?_
        · intro r
          rw [hL', Tally.answer_sent, if_neg (fun hn => hY hn.2.1)]
          cases w.opcode <;> rfl
        · intro r
          rw [hL', Tally.answer_acked]
          cases w.opcode with
          | send => exact bump_of_role_ne _ _ _ hY
          | recv => rfl
        · intro r
          rw [hL', Tally.answer_got]
          cases w.opcode with
          | send => rfl
          | recv => exact bump_of_role_ne _ _ _ hY
      convert hcongr using 1
      funext r
      simp only [State.recvs, State.setHost_ne s _ hY]

theorem Coupled.deliver (h : Coupled c s L) {X : Role} {q : Fin c.peerNum}
    {w r : WorkRequest c.peerNum} (hw : w ∈ (s.host X).requests .send q)
    (hr : r ∈ (s.host X.peer).requests .recv q)
    (hs : s.arrived X q + s.lost X q < s.sends X q) (hp : s.arrived X q < s.recvs X.peer q) :
    ∃ L', L.step (.deliver X q) = some L' ∧ L'.toTally = L.toTally.deliver X q ∧
      Coupled c (delivered c.program s X q w r) L' := by
  have hguard : L.arrived X q + L.lost X q < L.sent X q := by
    rw [h.arrived, h.lost, h.sent]
    exact hs
  refine ⟨_, dif_pos hguard, rfl, h.balanced.deliver hw hr hs hp, ?_, ?_, ?_⟩
  · rw [tally_delivered, ← h.accounts]
  · intro Y v hv
    rw [delivered_posted] at hv
    exact h.marked Y v hv
  · intro Y
    obtain ⟨l, hl, ht⟩ := h.tracks Y
    refine ⟨l, by rw [delivered_loop]; exact hl, ?_⟩
    rw [delivered_recvs]
    exact ht.congr (fun _ => rfl) (fun _ => rfl) (fun _ => rfl)

theorem Coupled.vanish (h : Coupled c s L) {X : Role} {q : Fin c.peerNum}
    (hs : s.arrived X q + s.lost X q < s.sends X q)
    (hb : Balanced c.program { s with lost := bump s.lost X q }) :
    ∃ L', L.step (.lose X q) = some L' ∧ Coupled c { s with lost := bump s.lost X q } L' := by
  have hguard : L.arrived X q + L.lost X q < L.sent X q := by
    rw [h.arrived, h.lost, h.sent]
    exact hs
  refine ⟨_, dif_pos hguard, hb, ?_, h.marked, ?_⟩
  · show L.toTally.lose X q = _
    rw [h.accounts]
    rfl
  · intro Y
    obtain ⟨l, hl, ht⟩ := h.tracks Y
    exact ⟨l, hl, ht.congr (fun _ => rfl) (fun _ => rfl) (fun _ => rfl)⟩

/-- Polling moves completions into the batch and touches nothing else. -/
theorem Coupled.poll (h : Coupled c s L) {X : Role} (hw : (s.host X).wc = []) (k : ℕ)
    (hl : ¬ (s.host X).Left (c.program X)) :
    Coupled c (s.setHost X { s.host X with
      wc := (s.host X).cq.take k, cq := (s.host X).cq.drop k }) L := by
  have hfields : ∀ Y, ((s.setHost X { s.host X with
      wc := (s.host X).cq.take k, cq := (s.host X).cq.drop k }).host Y).posted =
        (s.host Y).posted ∧
      ((s.setHost X { s.host X with
      wc := (s.host X).cq.take k, cq := (s.host X).cq.drop k }).host Y).handled =
        (s.host Y).handled ∧
      ((s.setHost X { s.host X with
      wc := (s.host X).cq.take k, cq := (s.host X).cq.drop k }).host Y).loop =
        (s.host Y).loop := by
    intro Y
    by_cases hY : Y = X
    · subst Y; simp
    · rw [State.setHost_ne s _ hY]; exact ⟨rfl, rfl, rfl⟩
  refine ⟨?_, ?_, ?_, ?_⟩
  · refine h.balanced.setHost (List.append_nil _).symm ?_ hl
    simp [Host.completions, hw]
  · rw [h.accounts]
    ext Y r
    · simp only [tally, State.sends, Host.requests, (hfields Y).1]
    · rfl
    · rfl
    · simp only [tally, (hfields Y).2.1]
    · simp only [tally, (hfields Y).2.1]
  · intro Y v hv
    rw [(hfields Y).1] at hv
    exact h.marked Y v hv
  · intro Y
    obtain ⟨l, hl, ht⟩ := h.tracks Y
    refine ⟨l, by rw [(hfields Y).2.2]; exact hl, ?_⟩
    convert ht using 1
    funext r
    simp only [State.recvs, Host.requests, (hfields Y).1]

/-- The refinement: a silent step of the two programs is a move of the game, or
leaves the game as it is. -/
theorem Coupled.next (h : Coupled c s L) {a : Action c.peerNum} {t : c.State}
    (ha : Silent s a) (hst : c.system.step s a = some t) :
    ∃ L', (L' = L ∨ ∃ m, L.step m = some L') ∧ Coupled c t L' := by
  have hb := h.balanced.next ha hst
  cases a with
  | deliver X q =>
    obtain ⟨w, r, hw, hr, hs, hp, rfl⟩ := step_deliver hst
    obtain ⟨L', hL', _, hc⟩ := h.deliver hw hr hs hp
    exact ⟨L', .inr ⟨_, hL'⟩, hc⟩
  | vanish X q =>
    obtain ⟨_, hs, rfl⟩ := step_vanish hst
    obtain ⟨L', hL', hc⟩ := h.vanish hs hb
    exact ⟨L', .inr ⟨_, hL'⟩, hc⟩
  | abort X q => exact ha.elim
  | poll X k =>
    obtain ⟨l, hl, hagain, hwc, _, rfl⟩ := step_poll hst
    exact ⟨L, .inl rfl, h.poll hwc k (Host.InLoop.not_left ⟨l, hl, .inl hagain⟩)⟩
  | handle X =>
    obtain ⟨l, w, ws, hl, hw, rfl⟩ := step_handle hst
    obtain ⟨q, hq⟩ : ∃ q, w.qpNum = (c.program X).qpNum q := by
      obtain ⟨_, _, q, hq, _⟩ := h.reads (X := X) (w := w) (by simp [Host.completions, hw])
      exact ⟨q, hq⟩
    obtain ⟨_, L', _, hL', _, hc⟩ := h.handle hl hw hq
    exact ⟨L', .inr ⟨_, hL'⟩, hc⟩

theorem onQueue_flatMap {n : ℕ} (ctx : PingpongContext n) (k k' : Queue) (m : ℕ)
    {qs : List (Fin n)} (hn : qs.Nodup) (r : Fin n) :
    (onQueue k r (qs.flatMap (fun q => List.replicate m (request ctx k' q)))).length =
      if k' = k ∧ r ∈ qs then m else 0 := by
  induction qs with
  | nil => simp
  | cons q qs ih =>
    obtain ⟨hq, hn⟩ := List.nodup_cons.mp hn
    rw [List.flatMap_cons, onQueue_append, List.length_append, ih hn, onQueue_replicate]
    by_cases hk : k' = k
    · by_cases hr : r = q
      · subst r; simp [hk, hq]
      · simp [hk, hr]
    · simp [hk]

/-- Posting before the loop gives every queue pair `rxDepth` receives and, at the
client, one send. -/
theorem setup_posted (X : Role) (q : Fin c.peerNum) :
    (onQueue .recv q (setup (c.ctx X) X).posted).length = c.rxDepth ∧
      (onQueue .send q (setup (c.ctx X) X).posted).length = 1 - serve X := by
  have hmap : (List.finRange c.peerNum).map (request (c.ctx X) .send) =
      (List.finRange c.peerNum).flatMap
        (fun q => List.replicate 1 (request (c.ctx X) .send q)) := by
    rw [List.map_eq_flatMap]
    rfl
  have hnodup := List.nodup_finRange c.peerNum
  have hdepth : (c.ctx X).rxDepth = c.rxDepth := rfl
  rw [setup_eq, hmap]
  cases X <;>
    simp only [onQueue_append, onQueue_nil, List.length_append, onQueue_flatMap _ _ _ _ hnodup,
      List.mem_finRange, and_true, hdepth, serve] <;>
    simp

theorem coupled_init : Coupled c c.system.init (Ledger.opening _ c.iters_pos) := by
  refine ⟨balanced_init, ?_, ?_, ?_⟩
  · ext X q
    · exact ((setup_posted X q).2).symm
    · rfl
    · rfl
    · rfl
    · rfl
  · intro X v hv
    have hv : v ∈ (setup (c.ctx X) X).posted := hv
    rw [setup_eq, List.mem_append, List.mem_flatMap] at hv
    rcases hv with ⟨q, _, hv⟩ | hv
    · rw [(List.mem_replicate.mp hv).2]; rfl
    · cases X with
      | client =>
        obtain ⟨q, _, rfl⟩ := List.mem_map.mp hv
        rfl
      | server => cases hv
  · intro X
    refine ⟨_, congrArg Outcome.next (setup_eq (c.ctx X) X), ?_, ?_, ?_, ?_, ?_, ?_⟩
    · simp [Ledger.opening]
    · simp [Ledger.opening]
    · intro q _
      cases X <;> simp [bitsOf, Tally.AwaitsMsg, Tally.AwaitsAck, Tally.due, Ledger.opening,
        serve, pendingBits]
    · intro q
      show (2 : ℤ) ≤ (c.rxDepth : ℤ)
      exact_mod_cast c.two_le_rxDepth
    · intro q
      exact le_rfl
    · intro q
      have hr := (setup_posted X q).1
      show (((onQueue .recv q (setup (c.ctx X) X).posted).length : ℕ) : ℤ) = _
      rw [hr]
      simp [Ledger.opening, Config.ctx, ppInitCtx]

/-- The state has a ledger that the game can reach. -/
def Accounted (c : Config) (s : c.State) : Prop :=
  ∃ L, (game (Fin c.peerNum) c.iters_pos).Reachable L ∧ Coupled c s L

theorem Accounted.next (h : Accounted c s) {a : Action c.peerNum} {t : c.State}
    (ha : Silent s a) (hst : c.system.step s a = some t) : Accounted c t := by
  obtain ⟨L, hL, hc⟩ := h
  obtain ⟨L', hmove, hc'⟩ := hc.next ha hst
  rcases hmove with rfl | ⟨m, hm⟩
  · exact ⟨L', hL, hc'⟩
  · exact ⟨L', hL.next trivial hm, hc'⟩

/-- The two programs refine the game: every reachable state is accounted for. -/
theorem Config.Reaches.accounted (h : c.Reaches s) : Accounted c s :=
  h.invariant ⟨_, Machine.reachableBy_init, coupled_init⟩ (fun _ _ _ hi ha hst => hi.next ha hst)

end Coupling

end InfinibandWorkshop.Multistream
