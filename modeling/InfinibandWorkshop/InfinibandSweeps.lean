import InfinibandWorkshop.EventLoop
import InfinibandWorkshop.RoundSizes
import InfinibandWorkshop.RoundTraffic
import InfinibandWorkshop.SessionEnds
import InfinibandWorkshop.Turns

/-!
# The sweeps of the InfiniBand programs

Each side plays its rounds one after the other: `main` joins the threads of a round before
it begins the next one. A client can connect only when the server listens again, and that
is when the server has joined its threads, too; the server itself does not wait for the
client. What the network has still to deliver belongs to queue pairs of its own round and
waits for nobody. As long as the results of all rounds have a place in their array, nothing
else comes in between.
-/
namespace InfinibandWorkshop.Verbs

variable {n : ℕ} {Loc Ret : Type}

/-- The side that takes a step, if it is not one of the network. -/
def Action.actor : Action n → Option Role
  | .poll X _ | .handle X => some X
  | .deliver _ _ | .vanish _ _ | .abort _ _ => none

/-- A round that does not keep the actor from what it does in a later one. -/
def Joined (P : Role → Program n Loc Ret) (s : State n Loc Ret) (actor : Option Role) : Prop :=
  ∀ X ∈ actor, ∀ Y, Y = X ∨ X = .client → (s.host Y).Left (P Y)

theorem joined_of_left {P : Role → Program n Loc Ret} {s : State n Loc Ret}
    (h : ∀ X, (s.host X).Left (P X)) (actor : Option Role) : Joined P s actor :=
  fun _ _ Y _ => h Y

end InfinibandWorkshop.Verbs

namespace InfinibandWorkshop.Session
open Exchange Verbs
open Handover (multistreamRounds)
open Multithread (rxDepth)
open ResultTable (Program)
open ResultTable.Program (defaultNumOfMsgs)
open scoped BigOperators

/-- What the two hosts bring into a session of `n` queue pairs. -/
structure Hosts (n : ℕ) where
  qpNum : Role → Fin n → ℕ
  qpNum_injective : ∀ X, Function.Injective (qpNum X)
  myDest : Role → Fin n → LocalDest
  endian : Role → Endian
  old : Role → Fin n → Leftover
  qpn_eq : ∀ X k, (myDest X k).qpn.toNat = qpNum X k

theorem defaultNumOfMsgs_pos : 1 ≤ defaultNumOfMsgs := by decide

theorem two_le_rxDepth : 2 ≤ rxDepth := by decide

/-- A round of the sweep: `iters` is `DEFAULT_NUM_OF_MSGS`. -/
def sessionConfig (p : ℕ × ℕ) (hp : 0 < p.2) (h : Hosts p.2) : Config where
  round :=
    { peerNum := p.2
      iters := defaultNumOfMsgs
      rxDepth := rxDepth
      size := p.1
      peerNum_pos := hp
      iters_pos := defaultNumOfMsgs_pos
      two_le_rxDepth := two_le_rxDepth
      qpNum := h.qpNum
      qpNum_injective := h.qpNum_injective }
  myDest := h.myDest
  endian := h.endian
  old := h.old
  qpn_eq := h.qpn_eq

def Action.actor {n : ℕ} : Action n → Option Role
  | .exchange (.run X) | .exchange (.read X _) | .firstSend X => some X
  | .loop a => a.actor

section Sweep

variable {peerNum : ℕ}
  (hosts : ∀ k : Fin (multistreamRounds peerNum).length,
    Hosts ((multistreamRounds peerNum).get k).2)

theorem queuePairs_pos (k : Fin (multistreamRounds peerNum).length) :
    0 < ((multistreamRounds peerNum).get k).2 :=
  (Handover.mem_multistreamRounds (List.get_mem _ k)).2

/-- The session of round `k`. -/
def sweepConfig (k : Fin (multistreamRounds peerNum).length) : Config :=
  sessionConfig ((multistreamRounds peerNum).get k) (queuePairs_pos k) (hosts k)

/-- The sessions of a whole sweep of multistreamTestRunner.c. -/
def sweepSystem : Machine (∀ k, State (sweepConfig hosts k).round.peerNum)
    (Σ k, Action (sweepConfig hosts k).round.peerNum) :=
  Machine.family (fun k => (sweepConfig hosts k).system)

def InSweep : (∀ k, State (sweepConfig hosts k).round.peerNum) →
    (Σ k, Action (sweepConfig hosts k).round.peerNum) → Prop :=
  Machine.waiting (fun k => (sweepConfig hosts k).Permitted) id
    (fun k s a => Joined (sweepConfig hosts k).round.program s.hosts a.2.actor)

/-- Nothing is lost for want of room: the completion queue of a round has entries for all
completions that wait in it at any moment, and the results of all rounds are in the array. -/
structure Roomy : Prop where
  completions : ∀ s, (sweepSystem hosts).ReachableBy (InSweep hosts) s → ∀ k X,
    ((s k).hosts.host X).cq.length ≤ Multistream.cqEntries ((sweepConfig hosts k).round.ctx X)
  stores : Program.multistreamTestRunner.StoresFit peerNum

theorem roomy (hpeers : peerNum ≤ 23) : Roomy hosts where
  completions := by
    intro s hs k X
    have hlen := cq_length_le (hs.member_in_turn k) X
    have hle : ((multistreamRounds peerNum).get k).2 ≤ peerNum :=
      Handover.le_of_mem_multistreamRounds (List.get_mem _ k)
    have hpeerNum : (sweepConfig hosts k).round.peerNum =
        ((multistreamRounds peerNum).get k).2 := rfl
    have hentries : Multistream.cqEntries ((sweepConfig hosts k).round.ctx X) = 501 := rfl
    omega
  stores := Program.multistream_storesFit hpeers

end Sweep

/-- A session that is over, and what has gone over its queue pairs: the messages of the
round, and at most one more for each further queue pair. -/
structure Played (c : Config) (s : State c.round.peerNum) : Prop where
  done : Done c s
  messages : ∀ X, c.round.iters ≤ ∑ q, s.hosts.arrived X q ∧
    ∑ q, s.hosts.arrived X q ≤ c.round.iters + c.round.peerNum - 1
  bytes : ∀ X,
    (c.round.iters : ℤ) * (c.round.size / c.round.peerNum : ℕ) ≤
      Multistream.movedBytes c.round s.hosts X ∧
    Multistream.movedBytes c.round s.hosts X ≤ (c.round.iters + c.round.peerNum - 1 : ℕ) *
      ((c.round.size / c.round.peerNum + c.round.size % c.round.peerNum : ℕ) : ℤ)

theorem played_of_done {c : Config} {s : State c.round.peerNum}
    (h : c.system.ReachableBy c.Permitted s) (hdone : Done c s) : Played c s := by
  have hreaches : c.round.Reaches s.hosts :=
    rally_eq (fun X => (hdone.entered X).2) ▸ rally_reaches h
  exact ⟨hdone, fun X => Multistream.arrived_bounds hreaches hdone.left X,
    fun X => Multistream.movedBytes_bounds hreaches hdone.left X⟩

/-- A sweep ends whose results have room in the array: every round is played, on both sides,
however far one side is ahead of the other. -/
theorem sweep_ends {peerNum : ℕ} (hpeers : peerNum ≤ 23)
    (hosts : ∀ k : Fin (multistreamRounds peerNum).length,
      Hosts ((multistreamRounds peerNum).get k).2) :
    (sweepSystem hosts).Completes (InSweep hosts)
      (((multistreamRounds peerNum).map
        (fun p => 9 * p.2 + 10 * (defaultNumOfMsgs + p.2 - 1))).sum)
      (fun s => ∀ k, Played (sweepConfig hosts k) (s k)) ∧ Roomy hosts := by
  refine ⟨?_, roomy hosts hpeers⟩
  have hmember : ∀ k, (sweepConfig hosts k).system.Completes (sweepConfig hosts k).Permitted
      (9 * ((multistreamRounds peerNum).get k).2 +
        10 * (defaultNumOfMsgs + ((multistreamRounds peerNum).get k).2 - 1))
      (Played (sweepConfig hosts k)) := by
    intro k
    have hends := Machine.completes (climbs (sweepConfig hosts k)) (fun _ hs => rank_le hs)
      (fun _ hs hn => not_stuck hs hn)
    exact hends.mono (fun _ hr hs => played_of_done hr hs)
  have hall : (sweepSystem hosts).Completes (InSweep hosts) _
      (fun s => ∀ k, Played (sweepConfig hosts k) (s k)) :=
    Machine.Completes.in_turn hmember (fun _ _ a h => joined_of_left h.done.left a.2.actor)
  rw [← Fin.sum_univ_fun_getElem (multistreamRounds peerNum)
    (fun p => 9 * p.2 + 10 * (defaultNumOfMsgs + p.2 - 1))]
  exact hall

/-- Queue pairs with successive numbers. -/
def consecutive {n : ℕ} (X : Role) (q : Fin n) : ℕ :=
  match X with
  | .client => 17 + q.val
  | .server => 98 + q.val

theorem consecutive_injective {n : ℕ} (X : Role) :
    Function.Injective (consecutive (n := n) X) := by
  intro q r h
  cases X <;> exact Fin.ext (Nat.add_left_cancel h)

theorem consecutive_lt {n : ℕ} (hn : n ≤ 23) (X : Role) (q : Fin n) : consecutive X q < 16 ^ 6 := by
  cases X <;> simp only [consecutive] <;> omega

theorem toNat_consecutive {n : ℕ} (hn : n ≤ 23) (X : Role) (q : Fin n) :
    (BitVec.ofNat 32 (consecutive X q)).toNat = consecutive X q := by
  have hlt := consecutive_lt hn X q
  rw [BitVec.toNat_ofNat, Nat.mod_eq_of_lt (by omega)]

theorem qpn_lt {n : ℕ} (hn : n ≤ 23) (X : Role) (q : Fin n) :
    (BitVec.ofNat 32 (consecutive X q)).toNat < 16 ^ 6 := by
  rw [toNat_consecutive hn]
  exact consecutive_lt hn X q

/-- Two hosts, the server with the other byte order. -/
def consecutiveHosts {n : ℕ} (hn : n ≤ 23) : Hosts n where
  qpNum := consecutive
  qpNum_injective := consecutive_injective
  myDest X q :=
    { lid := 3, qpn := BitVec.ofNat 32 (consecutive X q), psn := 5, gid := fun _ => 0
      lid_lt := (by decide : (3 : BitVec 32).toNat < 16 ^ 4)
      qpn_lt := qpn_lt hn X q
      psn_lt := (by decide : (5 : BitVec 32).toNat < 16 ^ 6) }
  endian X := match X with
    | .client => .little
    | .server => .big
  old := fun _ _ => ⟨⟨0, 0, 0, fun _ => 0⟩, [], 0⟩
  qpn_eq := toNat_consecutive hn

theorem tenPeers_le (k : Fin (multistreamRounds 10).length) :
    ((multistreamRounds 10).get k).2 ≤ 23 :=
  (Handover.le_of_mem_multistreamRounds (List.get_mem _ k)).trans (by decide)

def tenPeers (k : Fin (multistreamRounds 10).length) : Hosts ((multistreamRounds 10).get k).2 :=
  consecutiveHosts (tenPeers_le k)

/-- The 210 rounds with up to ten queue pairs. -/
theorem sweep_ends_tenPeers :
    (sweepSystem tenPeers).Completes (InSweep tenPeers)
      (((multistreamRounds 10).map
        (fun p => 9 * p.2 + 10 * (defaultNumOfMsgs + p.2 - 1))).sum)
      (fun s => ∀ k, Played (sweepConfig tenPeers k) (s k)) ∧ Roomy tenPeers :=
  sweep_ends (by decide) tenPeers

end InfinibandWorkshop.Session

namespace InfinibandWorkshop.Multithread
open Handover (acceptedSizes multithreadRounds)
open ResultTable (Program)
open ResultTable.Program (defaultNumOfMsgs)
open Throughput (bitToMbit microToSec)
open Verbs (Action Joined)
open scoped BigOperators

section Sweep

/-- A client thread and its server thread in one of the rounds: those with a share of the
message. -/
abbrev Pair (maxThreadNum : ℕ) : Type :=
  (k : Fin (multithreadRounds maxThreadNum).length) ×
    Fin (acceptedSizes (multithreadRounds maxThreadNum)[k].1
      (multithreadRounds maxThreadNum)[k].2).length

variable {maxThreadNum : ℕ} (qpNum : Pair maxThreadNum → Role → ℕ)

def pairConfig (j : Pair maxThreadNum) : Config where
  iters := defaultNumOfMsgs
  rxDepth := rxDepth
  size := (acceptedSizes (multithreadRounds maxThreadNum)[j.1].1
    (multithreadRounds maxThreadNum)[j.1].2)[j.2]
  iters_pos := Session.defaultNumOfMsgs_pos
  two_le_rxDepth := Session.two_le_rxDepth
  qpNum := qpNum j

/-- All pairs of threads of a sweep of multithreadIB.c. -/
def sweepSystem : Machine (Pair maxThreadNum → State) ((_ : Pair maxThreadNum) × Action 1) :=
  Machine.family (fun j => (pairConfig qpNum j).system)

/-- The pairs of one round do not wait for each other. -/
def InSweep : (Pair maxThreadNum → State) → (_ : Pair maxThreadNum) × Action 1 → Prop :=
  Machine.waiting (fun _ _ _ => True) Sigma.fst
    (fun j s a => Joined (pairConfig qpNum j).program s a.2.actor)

/-- As in multistreamTestRunner.c, though each thread has a completion queue of its own. -/
structure Roomy : Prop where
  completions : ∀ s, (sweepSystem qpNum).ReachableBy (InSweep qpNum) s → ∀ j X,
    ((s j).host X).cq.length ≤ cqEntries ((pairConfig qpNum j).ctx X)
  stores : Program.multithreadIB.StoresFit maxThreadNum

theorem roomy (hthreads : maxThreadNum < 128) : Roomy qpNum where
  completions := by
    intro s hs j X
    have hlen := Events.cq_length_le (hs.member_in_turn j) X
    exact hlen.trans (by decide : 2 ≤ 501)
  stores := Program.multithread_storesFit hthreads

/-- The bytes of `X` that have arrived in round `k`. -/
def roundMoved (s : Pair maxThreadNum → State) (k : Fin (multithreadRounds maxThreadNum).length)
    (X : Role) : ℕ := ∑ t, movedBytes (pairConfig qpNum ⟨k, t⟩) (s ⟨k, t⟩) X

/-- All rounds are played, each has moved its message as often as `main` counts, in both
directions, and what is saved of it is the rate of its pairs times the number of threads that
were asked for, those without a share included. -/
structure SweepPlayed (s : Pair maxThreadNum → State) : Prop where
  played : ∀ j, Played (pairConfig qpNum j) (s j)
  moved : ∀ k X, roundMoved qpNum s k X = defaultNumOfMsgs * (multithreadRounds maxThreadNum)[k].1
  figure : ∀ k time,
    (Program.multithreadIB.figures (multithreadRounds maxThreadNum)[k] time).throughput =
      (multithreadRounds maxThreadNum)[k].2 * (8 * bitToMbit *
        (roundMoved qpNum s k .client + roundMoved qpNum s k .server : ℕ) / (time * microToSec))

end Sweep

variable {maxThreadNum : ℕ} {qpNum : Pair maxThreadNum → Role → ℕ}
  {s : Pair maxThreadNum → State}

/-- The empty shares, which get no thread, add nothing. -/
theorem sum_acceptedSizes {varsize n : ℕ} (hn : 1 ≤ n) :
    (acceptedSizes varsize n).sum = varsize := by
  have hsum := List.sum_filter_bne_zero
    ((List.range n).map (Server.sizePerPeer varsize n))
  simp only [bne, beq_eq_decide, ← decide_not] at hsum
  rw [Handover.acceptedSizes_eq, hsum]
  exact Throughput.sum_sizePerPeer hn

theorem sweepPlayed_of_played (h : ∀ j, Played (pairConfig qpNum j) (s j)) :
    SweepPlayed qpNum s := by
  have hmoved : ∀ k X,
      roundMoved qpNum s k X = defaultNumOfMsgs * (multithreadRounds maxThreadNum)[k].1 := by
    intro k X
    have hn : 0 < (multithreadRounds maxThreadNum)[k].2 :=
      (Handover.mem_multithreadRounds (List.getElem_mem k.2)).2
    have heach : ∀ t, movedBytes (pairConfig qpNum ⟨k, t⟩) (s ⟨k, t⟩) X =
        defaultNumOfMsgs * (acceptedSizes (multithreadRounds maxThreadNum)[k].1
          (multithreadRounds maxThreadNum)[k].2)[t] := fun t => movedBytes_played (h ⟨k, t⟩) X
    simp only [roundMoved, heach]
    rw [← Finset.mul_sum]
    congr 1
    exact (Fin.sum_univ_getElem _).trans (sum_acceptedSizes hn)
  refine ⟨h, hmoved, ?_⟩
  intro k time
  rw [hmoved, hmoved]
  simp only [Program.figures, Throughput.calcAverageThroughput]
  push_cast
  ring

/-- A sweep of multithreadIB.c ends as well, if its results have room in their array. -/
theorem sweep_of_threads_ends (hthreads : maxThreadNum < 128)
    (qpNum : Pair maxThreadNum → Role → ℕ) :
    (sweepSystem qpNum).Completes (InSweep qpNum)
      (10 * defaultNumOfMsgs * Fintype.card (Pair maxThreadNum)) (SweepPlayed qpNum) ∧
        Roomy qpNum := by
  have hall : (sweepSystem qpNum).Completes (InSweep qpNum)
      (∑ _j : Pair maxThreadNum, 10 * defaultNumOfMsgs)
      (fun s => ∀ j, Played (pairConfig qpNum j) (s j)) :=
    Machine.Completes.in_turn
      (fun j => Machine.completes (Verbs.climbs _) (fun _ h => rank_le h)
        (fun _ h hn => not_stuck h hn))
      (fun _ _ a h => Verbs.joined_of_left h.left a.2.actor)
  rw [Finset.sum_const, Finset.card_univ, smul_eq_mul, Nat.mul_comm] at hall
  exact ⟨hall.mono (fun _ _ hs => sweepPlayed_of_played hs), roomy qpNum hthreads⟩

/-- Client and server give their queue pairs different numbers. -/
def sideNum (_ : Pair 8) : Role → ℕ
  | .client => 17
  | .server => 98

/-- Rounds of 1, 2, 4 and 8 threads. -/
theorem sweep_of_threads_ends_eightThreads :
    (sweepSystem sideNum).Completes (InSweep sideNum)
      (10 * defaultNumOfMsgs * Fintype.card (Pair 8)) (SweepPlayed sideNum) ∧ Roomy sideNum :=
  sweep_of_threads_ends (by decide) sideNum

end InfinibandWorkshop.Multithread
