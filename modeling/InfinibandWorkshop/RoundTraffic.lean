import InfinibandWorkshop.BufferSegments
import InfinibandWorkshop.Family
import InfinibandWorkshop.ResultTable
import InfinibandWorkshop.RoundEnds
import Mathlib.Tactic.LinearCombination

/-!
# The bytes of a round and the figure that is reported

The figures of a round come from constants: the size of the message, how often it goes
back and forth, and the time. What the queue pairs have moved is known from the deliveries.
In multistreamTestRunner.c the two differ by the messages around the cut-off, one for each
further queue pair at most, and by what the division leaves over; in multithreadIB.c the
threads move exactly the bytes that the figure takes once for each of them.
-/
namespace InfinibandWorkshop.Throughput
open scoped BigOperators

section Weighted

variable {ι : Type*} [Fintype ι] {count : ι → ℕ} {weight : ι → ℤ} {a : ℤ}

/-- Each of the counted messages weighs at least as much as the lightest. -/
theorem le_sum_weighted (h : ∀ q, a ≤ weight q) :
    ((∑ q, count q : ℕ) : ℤ) * a ≤ ∑ q, (count q : ℤ) * weight q := by
  rw [Nat.cast_sum, Finset.sum_mul]
  exact Finset.sum_le_sum (fun q _ => mul_le_mul_of_nonneg_left (h q) (Int.natCast_nonneg _))

theorem sum_weighted_le (h : ∀ q, weight q ≤ a) :
    ∑ q, (count q : ℤ) * weight q ≤ ((∑ q, count q : ℕ) : ℤ) * a := by
  rw [Nat.cast_sum, Finset.sum_mul]
  exact Finset.sum_le_sum (fun q _ => mul_le_mul_of_nonneg_left (h q) (Int.natCast_nonneg _))

end Weighted

end InfinibandWorkshop.Throughput

namespace InfinibandWorkshop.Multistream
open Verbs
open scoped BigOperators
open Throughput (Timeval seconds timeDifference calcAverageThroughput)
open Multithread.Server (sizePerPeer)

variable {c : Config} {s : c.State}

/-- The bytes of the messages of `X` that have arrived. -/
def movedBytes (c : Config) (s : c.State) (X : Role) : ℤ :=
  ∑ q, (s.arrived X q : ℤ) * (request (c.ctx X) .send q).length

theorem length_request (X : Role) (k : Queue) (q : Fin c.peerNum) :
    (request (c.ctx X) k q).length = sizePerPeer c.size c.peerNum q :=
  sizePerQP_eq c.size c.rxDepth (c.qpNum X) (c.qpNum_injective X) q

theorem share_bounds {size n i : ℕ} (hi : i < n) :
    size / n ≤ sizePerPeer size n i ∧ sizePerPeer size n i ≤ size / n + size % n := by
  cases i with
  | zero =>
    rw [sizePerPeer_first hi]
    exact ⟨Nat.le_add_right _ _, le_rfl⟩
  | succ i =>
    rw [sizePerPeer_succ]
    exact ⟨le_rfl, Nat.le_add_right _ _⟩

/-- How many messages of each side have arrived when both have left. -/
theorem arrived_bounds (h : c.Reaches s) (hleft : AllLeft c s) (X : Role) :
    c.iters ≤ ∑ q, s.arrived X q ∧ ∑ q, s.arrived X q ≤ c.iters + c.peerNum - 1 := by
  obtain ⟨L, _, hc⟩ := h.accounted
  have hfinished := ((hc.left_iff X).mp (hleft X)).2
  have harr : ∑ q, L.arrived X q = ∑ q, s.arrived X q :=
    Finset.sum_congr rfl (fun q _ => hc.arrived X q)
  rw [← harr]
  exact ⟨hfinished.1.trans (L.sum_acked_le X), (L.sum_arrived_le X).trans (sum_sent_le L X)⟩

theorem movedBytes_bounds (h : c.Reaches s) (hleft : AllLeft c s) (X : Role) :
    (c.iters : ℤ) * (c.size / c.peerNum : ℕ) ≤ movedBytes c s X ∧
      movedBytes c s X ≤
        (c.iters + c.peerNum - 1 : ℕ) * ((c.size / c.peerNum + c.size % c.peerNum : ℕ) : ℤ) := by
  obtain ⟨hlow, hhigh⟩ := arrived_bounds h hleft X
  constructor
  · calc (c.iters : ℤ) * (c.size / c.peerNum : ℕ)
        ≤ ((∑ q, s.arrived X q : ℕ) : ℤ) * (c.size / c.peerNum : ℕ) := by
          exact_mod_cast Nat.mul_le_mul_right _ hlow
      _ ≤ movedBytes c s X := by
          apply Throughput.le_sum_weighted
          intro q
          rw [length_request]
          exact_mod_cast (share_bounds q.isLt).1
  · calc movedBytes c s X
        ≤ ((∑ q, s.arrived X q : ℕ) : ℤ) *
            ((c.size / c.peerNum + c.size % c.peerNum : ℕ) : ℤ) := by
          apply Throughput.sum_weighted_le
          intro q
          rw [length_request]
          exact_mod_cast (share_bounds q.isLt).2
      _ ≤ _ := by exact_mod_cast Nat.mul_le_mul_right _ hhigh

/-- The figure of `main` for a round, in megabits per second: `DEFAULT_NUM_OF_MSGS` is
what the loop has for `iters`. -/
def reportedThroughput (c : Config) (time : ℚ) : ℚ :=
  calcAverageThroughput c.iters c.size time / c.peerNum

theorem reportedThroughput_eq_figures (hi : c.iters = ResultTable.Program.defaultNumOfMsgs)
    (time : ℚ) : reportedThroughput c time =
      (ResultTable.Program.multistreamTestRunner.figures (c.size, c.peerNum) time).throughput := by
  rw [reportedThroughput, hi]
  rfl

/-- The rate at which the two sides have moved bytes, in megabits per second. -/
def movedRate (c : Config) (s : c.State) (start stop : Timeval) : ℚ :=
  8 * 10 ^ (-6 : ℤ) * (movedBytes c s .client + movedBytes c s .server : ℤ) / seconds start stop

/-- The clock shows microseconds, and the figure undoes that. -/
theorem reportedThroughput_eq (c : Config) (start stop : Timeval) :
    reportedThroughput c (timeDifference start stop) =
      8 * 10 ^ (-6 : ℤ) / seconds start stop * (2 * c.iters * c.size / c.peerNum) := by
  have hsecs : 10 ^ 6 * seconds start stop * (10 : ℚ) ^ (-6 : ℤ) = seconds start stop := by
    norm_num
    ring
  rw [reportedThroughput, calcAverageThroughput, Throughput.timeDifference_eq,
    Throughput.bitToMbit, Throughput.microToSec, hsecs]
  ring

/-- The figure is off by no more than the messages around the cut-off and the bytes that
the division leaves over; for a single queue pair it is exact. -/
structure NearlyAccurate (c : Config) (s : c.State) (start stop : Timeval) : Prop where
  at_least : reportedThroughput c (timeDifference start stop) *
    (1 - (c.size % c.peerNum : ℕ) / c.size) ≤ movedRate c s start stop
  at_most : movedRate c s start stop ≤ reportedThroughput c (timeDifference start stop) *
    ((1 + (c.peerNum - 1) / c.iters) *
      (1 + (c.peerNum - 1) * (c.size % c.peerNum : ℕ) / c.size))

/-- Both directions together. -/
theorem movedTotal_bounds (h : c.Reaches s) (hleft : AllLeft c s) :
    (2 * c.iters * (c.size / c.peerNum : ℕ) : ℚ) ≤
        (movedBytes c s .client + movedBytes c s .server : ℤ) ∧
      ((movedBytes c s .client + movedBytes c s .server : ℤ) : ℚ) ≤
        2 * (c.iters + c.peerNum - 1) *
          ((c.size / c.peerNum : ℕ) + (c.size % c.peerNum : ℕ)) := by
  obtain ⟨hcl, hch⟩ := movedBytes_bounds h hleft .client
  obtain ⟨hsl, hsh⟩ := movedBytes_bounds h hleft .server
  have hlow : (_ : ℚ) ≤ _ := Int.cast_le.mpr (add_le_add hcl hsl)
  have hhigh : (_ : ℚ) ≤ _ := Int.cast_le.mpr (add_le_add hch hsh)
  have hpred : ((c.iters + c.peerNum - 1 : ℕ) : ℚ) = c.iters + c.peerNum - 1 := by
    have hpos := c.peerNum_pos
    rw [Nat.cast_sub (by omega)]
    push_cast
    ring
  push_cast only [Int.cast_add, Int.cast_mul, Int.cast_natCast, Nat.cast_add, hpred] at hlow hhigh ⊢
  constructor <;> linarith

/-- The figure of a round that both sides have left; the completion queues have no limit, as in
`round_ends`. -/
theorem throughput_nearly_accurate (h : c.Reaches s) (hleft : AllLeft c s)
    (hsize : 1 ≤ c.size) {start stop : Timeval} (htime : 0 < seconds start stop) :
    NearlyAccurate c s start stop := by
  obtain ⟨hlow, hhigh⟩ := movedTotal_bounds h hleft
  have hn : (0 : ℚ) < c.peerNum := Nat.cast_pos.mpr c.peerNum_pos
  have hi : (0 : ℚ) < c.iters := Nat.cast_pos.mpr c.iters_pos
  have hs : (0 : ℚ) < c.size := Nat.cast_pos.mpr hsize
  have hrate : (0 : ℚ) < 8 * 10 ^ (-6 : ℤ) / seconds start stop := by positivity
  have hdiv : (c.peerNum : ℚ) * (c.size / c.peerNum : ℕ) + (c.size % c.peerNum : ℕ) = c.size := by
    exact_mod_cast Nat.div_add_mod c.size c.peerNum
  have hmoved : movedRate c s start stop = 8 * 10 ^ (-6 : ℤ) / seconds start stop *
      (movedBytes c s .client + movedBytes c s .server : ℤ) := by
    rw [movedRate]
    ring
  have hleast : (2 * c.iters * (c.size / c.peerNum : ℕ) : ℚ) =
      2 * c.iters * c.size / c.peerNum * (1 - (c.size % c.peerNum : ℕ) / c.size) := by
    field_simp
    linear_combination hdiv
  have hmost : (2 * (c.iters + c.peerNum - 1) *
      ((c.size / c.peerNum : ℕ) + (c.size % c.peerNum : ℕ)) : ℚ) =
      2 * c.iters * c.size / c.peerNum * ((1 + (c.peerNum - 1) / c.iters) *
        (1 + (c.peerNum - 1) * (c.size % c.peerNum : ℕ) / c.size)) := by
    field_simp
    linear_combination (c.iters + c.peerNum - 1 : ℚ) * hdiv
  constructor
  · calc reportedThroughput c (timeDifference start stop) *
          (1 - (c.size % c.peerNum : ℕ) / c.size)
        = 8 * 10 ^ (-6 : ℤ) / seconds start stop *
            (2 * c.iters * (c.size / c.peerNum : ℕ)) := by
          rw [reportedThroughput_eq, hleast]
          ring
      _ ≤ movedRate c s start stop := by
          rw [hmoved]
          exact mul_le_mul_of_nonneg_left hlow hrate.le
  · calc movedRate c s start stop
        ≤ 8 * 10 ^ (-6 : ℤ) / seconds start stop * (2 * (c.iters + c.peerNum - 1) *
            ((c.size / c.peerNum : ℕ) + (c.size % c.peerNum : ℕ))) := by
          rw [hmoved]
          exact mul_le_mul_of_nonneg_left hhigh hrate.le
      _ = reportedThroughput c (timeDifference start stop) *
            ((1 + (c.peerNum - 1) / c.iters) *
              (1 + (c.peerNum - 1) * (c.size % c.peerNum : ℕ) / c.size)) := by
          rw [reportedThroughput_eq, hmost]
          ring

/-- Three bytes over two queue pairs, two messages in all, and a completion queue that all
four completions of a side fit into. -/
def threeBytes : Config :=
  { smallConfig with
    size := 3
    rxDepth := 3
    two_le_rxDepth := Nat.le_succ 2 }

def threeBytesRun : List (Action threeBytes.peerNum) :=
  [.deliver .client ⟨0, by decide⟩, .deliver .client ⟨1, by decide⟩,
    .poll .server 2, .handle .server, .handle .server,
    .deliver .server ⟨0, by decide⟩, .deliver .server ⟨1, by decide⟩,
    .poll .server 2, .handle .server, .handle .server,
    .poll .client 4, .handle .client, .handle .client, .handle .client, .handle .client]

def threeBytesState : threeBytes.State :=
  (threeBytes.system.exec Silent threeBytes.system.init threeBytesRun).get (by decide +kernel)

theorem throughput_nearly_accurate_threeBytes :
    NearlyAccurate threeBytes threeBytesState ⟨10, 0⟩ ⟨11, 0⟩ := by
  apply throughput_nearly_accurate (Machine.reachableBy_of_exec _)
  · intro X
    cases X <;> decide +kernel
  · decide
  · norm_num [seconds]

end InfinibandWorkshop.Multistream

namespace InfinibandWorkshop.Multithread
open Verbs
open scoped BigOperators
open Throughput (Round Benchmark)
open Multithread.Server (sizePerPeer)

variable {r : Round} {s : Fin r.socketNum → State}

/-- `rx_depth`. -/
def rxDepth : ℕ := 500

/-- The pair of threads that has share `t` of the message. -/
def roundConfig (r : Round) (qpNum : Fin r.socketNum → Role → ℕ) (t : Fin r.socketNum) :
    Config where
  iters := r.numMsgs
  rxDepth := rxDepth
  size := sizePerPeer r.msgSize r.socketNum t
  iters_pos := r.numMsgs_pos
  two_le_rxDepth := by decide
  qpNum := qpNum t

/-- All client threads of a round and their server threads, each pair with a queue pair, a
completion queue and a buffer of its own. -/
def roundSystem (r : Round) (qpNum : Fin r.socketNum → Role → ℕ) :
    Machine (Fin r.socketNum → State) ((_ : Fin r.socketNum) × Action 1) :=
  Machine.family (fun t => (roundConfig r qpNum t).system)

def movedBytes (c : Config) (s : State) (X : Role) : ℕ :=
  s.arrived X ⟨0, Nat.one_pos⟩ * (request (c.ctx X) .send).length.toNat

theorem movedBytes_played {c : Config} {s : State} (h : Played c s) (X : Role) :
    movedBytes c s X = c.iters * c.size := by
  have harr : s.arrived X ⟨0, Nat.one_pos⟩ = c.iters := (h.arrived X).2
  rw [movedBytes, harr]
  rfl

/-- The bytes of the threads in both directions are the traffic that the figure of the
round is measured against, so the figure is the rate of the threads once for each. -/
structure CountedPerThread (r : Round) (qpNum : Fin r.socketNum → Role → ℕ)
    (s : Fin r.socketNum → State) (resultIndex : ℕ) (results : ℕ → ℚ) : Prop where
  played : ∀ t, Played (roundConfig r qpNum t) (s t)
  sent : ∑ t, movedBytes (roundConfig r qpNum t) (s t) .client =
    (Benchmark.multithreadIB.traffic r).sent
  received : ∑ t, movedBytes (roundConfig r qpNum t) (s t) .server =
    (Benchmark.multithreadIB.traffic r).received
  figure : (Benchmark.multithreadIB.row r resultIndex results).throughput =
    r.socketNum * (8 * 10 ^ (-6 : ℤ) *
      (∑ t, movedBytes (roundConfig r qpNum t) (s t) .client +
        ∑ t, movedBytes (roundConfig r qpNum t) (s t) .server : ℕ) /
      Benchmark.multithreadIB.elapsed r)

variable {qpNum : Fin r.socketNum → Role → ℕ}

theorem sum_movedBytes (h : ∀ t, Played (roundConfig r qpNum t) (s t)) (X : Role) :
    ∑ t, movedBytes (roundConfig r qpNum t) (s t) X = r.numMsgs * r.msgSize := by
  have hshare : ∀ t, movedBytes (roundConfig r qpNum t) (s t) X =
      r.numMsgs * sizePerPeer r.msgSize r.socketNum t := fun t => movedBytes_played (h t) X
  simp only [hshare]
  rw [← Finset.mul_sum, ← Finset.sum_range (sizePerPeer r.msgSize r.socketNum),
    Throughput.sum_sizePerPeer r.socketNum_pos]

theorem counted_of_played (h : ∀ t, Played (roundConfig r qpNum t) (s t)) (resultIndex : ℕ)
    (results : ℕ → ℚ) : CountedPerThread r qpNum s resultIndex results := by
  constructor
  case played => exact h
  case sent => rw [sum_movedBytes h, Benchmark.traffic_eq]
  case received => rw [sum_movedBytes h, Benchmark.traffic_eq]
  case figure =>
    rw [Benchmark.throughput_eq, Benchmark.traffic_eq, sum_movedBytes h, sum_movedBytes h]
    push_cast
    rfl

/-- A round with a byte for each of its threads ends, in whatever order they and the network
get on, and its figure is what it is. -/
theorem round_of_threads_ends (r : Round) (qpNum : Fin r.socketNum → Role → ℕ)
    (resultIndex : ℕ) (results : ℕ → ℚ) :
    (roundSystem r qpNum).Completes (Machine.inFamily (fun _ _ _ => True))
      (∑ _t : Fin r.socketNum, 10 * r.numMsgs)
      (fun s => CountedPerThread r qpNum s resultIndex results) := by
  have hall := Machine.Completes.family (fun t : Fin r.socketNum =>
    Machine.completes (climbs _) (fun _ h => rank_le h)
      (fun _ h hn => not_stuck (c := roundConfig r qpNum t) h hn))
  exact hall.mono (fun _ _ hs => counted_of_played hs resultIndex results)

end InfinibandWorkshop.Multithread
