import InfinibandWorkshop.MultithreadServer
import Mathlib.Algebra.BigOperators.Intervals
import Mathlib.Algebra.Order.Field.Rat
import Mathlib.Order.PartialSups
import Mathlib.Tactic.FieldSimp
import Mathlib.Tactic.Linarith
import Mathlib.Tactic.Positivity
import Mathlib.Tactic.Ring

/-!
# The throughput that the benchmarks report

MultiStreamTcpClient.cpp, MultiThreadTcpClient.cpp and multithreadIB.c split one
message over `n` sockets or threads, let every one of them move its share back and
forth, and pass the number of messages of all of them together with the size of
the undivided message to `calcAverageThroughput`. Figures are exact rationals here,
`double` in the source; integer products are exact too.
-/
namespace InfinibandWorkshop.Throughput
open scoped BigOperators

def maxPacketSize : ℕ := 131072

theorem maxPacketSize_pos : 0 < maxPacketSize := Nat.succ_pos _

def microToSec : ℚ := 10 ^ (-6 : ℤ)

def bitToMbit : ℚ := 10 ^ (-6 : ℤ)

def secToMicro : ℚ := 10 ^ 6

section Metrics

def calcAverageRTT (numOfSockets numOfMessages : ℕ) (totalTime : ℚ) : ℚ :=
  totalTime / numOfMessages / numOfSockets

def calcAverageThroughput (numOfMessages messageSize : ℕ) (totalTime : ℚ) : ℚ :=
  2 * 8 * numOfMessages * messageSize * bitToMbit / (totalTime * microToSec)

def calcAveragePacketRate (numOfMessages : ℕ) (totalTime : ℚ) : ℚ :=
  2 * numOfMessages / (totalTime * microToSec)

/-- `struct timeval`. -/
structure Timeval where
  sec : ℤ
  usec : ℤ
  deriving DecidableEq

/-- In microseconds. -/
def timeDifference (time1 time2 : Timeval) : ℚ :=
  let res : ℚ := (time2.sec - time1.sec) * secToMicro + (time2.usec - time1.usec)
  if res < 0 then -1 * res else res

/-- `saveResults`: six cells from `resultIndex` on, and the next index. -/
def saveResults (rtt throughput packetRate : ℚ) (resultIndex : ℕ) (results : ℕ → ℚ)
    (numOfSockets msgSize totalNumOfMsg : ℕ) : (ℕ → ℚ) × ℕ :=
  let results := Function.update results resultIndex rtt
  let results := Function.update results (resultIndex + 1) throughput
  let results := Function.update results (resultIndex + 2) packetRate
  let results := Function.update results (resultIndex + 3) numOfSockets
  let results := Function.update results (resultIndex + 4) msgSize
  let results := Function.update results (resultIndex + 5) totalNumOfMsg
  (results, resultIndex + 6)

/-- A line of the result file. -/
structure Row where
  numberOfSockets : ℚ
  numberOfMessages : ℚ
  packetSize : ℚ
  sizePerMessage : ℚ
  rtt : ℚ
  throughput : ℚ
  packetRate : ℚ
  deriving DecidableEq

/-- The loop body of `createCSV`, and of `createResultFile`, which converts the packet
size to `int` before it divides. -/
def csvRow (results : ℕ → ℚ) (i : ℕ) : Row where
  numberOfSockets := results (i + 3)
  numberOfMessages := results (i + 5)
  packetSize := results (i + 4)
  sizePerMessage := results (i + 4) / results (i + 3)
  rtt := results i
  throughput := results (i + 1)
  packetRate := results (i + 2)

theorem csvRow_saveResults (rtt throughput packetRate : ℚ) (i : ℕ) (results : ℕ → ℚ)
    (numOfSockets msgSize totalNumOfMsg : ℕ) :
    csvRow (saveResults rtt throughput packetRate i results numOfSockets msgSize
      totalNumOfMsg).1 i =
      ⟨numOfSockets, totalNumOfMsg, msgSize, msgSize / numOfSockets, rtt, throughput,
        packetRate⟩ := by
  simp [csvRow, saveResults]

end Metrics

section Splitting

/-- `msgSizes` of the two TCP clients: socket 0 takes what the division leaves over. -/
def msgSizes (msgSize socketNum i : ℕ) : ℕ :=
  if msgSize < socketNum then if i = 0 then msgSize else 1
  else if i = 0 then msgSize / socketNum + msgSize % socketNum else msgSize / socketNum

/-- There is something to send on every socket, also where there are fewer bytes. -/
theorem msgSizes_pos {msgSize n : ℕ} (hsize : 0 < msgSize) (hn : 0 < n) (i : ℕ) :
    0 < msgSizes msgSize n i := by
  have hdiv : n ≤ msgSize → 0 < msgSize / n := fun hle => Nat.div_pos hle hn
  rw [msgSizes]
  split_ifs <;> omega

open Multithread.Server (sizePerPeer)

/-- Both ways of splitting hand out every byte of the message once. -/
theorem sum_shares {msgSize n : ℕ} (hn : 1 ≤ n) (share : ℕ → ℕ) {q : ℕ}
    (hzero : share 0 + q * (n - 1) = msgSize) (hrest : ∀ i, i ≠ 0 → share i = q) :
    ∑ i ∈ Finset.range n, share i = msgSize := by
  obtain ⟨m, rfl⟩ := Nat.exists_eq_add_of_le' hn
  have hsum : ∑ i ∈ Finset.range m, share (i + 1) = q * m := by
    rw [Finset.sum_congr rfl (fun i _ => hrest (i + 1) (Nat.succ_ne_zero i)), Finset.sum_const,
      Finset.card_range, smul_eq_mul, Nat.mul_comm]
  rw [Finset.sum_range_succ', hsum, Nat.add_comm]
  exact hzero

theorem sum_msgSizes {msgSize n : ℕ} (hn : 1 ≤ n) (hle : n ≤ msgSize) :
    ∑ i ∈ Finset.range n, msgSizes msgSize n i = msgSize := by
  apply sum_shares hn (q := msgSize / n)
  · have hdiv := Nat.div_add_mod msgSize n
    obtain ⟨m, rfl⟩ := Nat.exists_eq_add_of_le' hn
    rw [msgSizes, if_neg hle.not_gt, if_pos rfl, Nat.add_sub_cancel]
    rw [Nat.add_mul, Nat.one_mul, Nat.mul_comm] at hdiv
    omega
  · intro i hi
    rw [msgSizes, if_neg hle.not_gt, if_neg hi]

theorem sum_sizePerPeer {varsize n : ℕ} (hn : 1 ≤ n) :
    ∑ i ∈ Finset.range n, sizePerPeer varsize n i = varsize := by
  apply sum_shares hn (q := varsize / n)
  · have hle : varsize / n * (n - 1) ≤ varsize :=
      (Nat.mul_le_mul_left _ (Nat.sub_le n 1)).trans (Nat.div_mul_le_self varsize n)
    rw [sizePerPeer, if_pos rfl]
    omega
  · intro i hi
    rw [sizePerPeer, if_neg hi]

end Splitting

section Traffic

/-- Bytes that the sockets of a round have moved. -/
structure Traffic where
  sent : ℕ
  received : ℕ
  deriving DecidableEq

/-- The messages of one socket: `size` bytes go out and as many come back, before
the next message is sent. -/
def exchangeMsgs (size : ℕ) : ℕ → Traffic → Traffic
  | 0, t => t
  | i + 1, t => exchangeMsgs size i ⟨t.sent + size, t.received + size⟩

/-- All the messages of the first sockets, each with its own share. -/
def roundTraffic (share : ℕ → ℕ) (numMsgs : ℕ) : ℕ → Traffic
  | 0 => ⟨0, 0⟩
  | n + 1 => exchangeMsgs (share n) numMsgs (roundTraffic share numMsgs n)

theorem exchangeMsgs_eq (size numMsgs : ℕ) (t : Traffic) :
    exchangeMsgs size numMsgs t = ⟨t.sent + numMsgs * size, t.received + numMsgs * size⟩ := by
  induction numMsgs generalizing t with
  | zero => simp [exchangeMsgs]
  | succ k ih =>
    rw [exchangeMsgs, ih, Traffic.mk.injEq]
    constructor <;> ring

theorem roundTraffic_eq (share : ℕ → ℕ) (numMsgs n : ℕ) :
    roundTraffic share numMsgs n =
      ⟨numMsgs * ∑ i ∈ Finset.range n, share i, numMsgs * ∑ i ∈ Finset.range n, share i⟩ := by
  induction n with
  | zero => simp [roundTraffic]
  | succ n ih => rw [roundTraffic, exchangeMsgs_eq, ih, Finset.sum_range_succ, Nat.mul_add]

end Traffic

section Clock

/-- The time between two readings of the clock. -/
def seconds (start stop : Timeval) : ℚ :=
  |((stop.sec - start.sec : ℤ) : ℚ) + (stop.usec - start.usec : ℤ) / 10 ^ 6|

theorem timeDifference_eq (start stop : Timeval) :
    timeDifference start stop = 10 ^ 6 * seconds start stop := by
  have hres : ((stop.sec : ℚ) - start.sec) * secToMicro + (stop.usec - start.usec) =
      10 ^ 6 * (((stop.sec - start.sec : ℤ) : ℚ) + (stop.usec - start.usec : ℤ) / 10 ^ 6) := by
    push_cast
    rw [secToMicro]
    ring
  rw [timeDifference, hres, seconds]
  split_ifs with hneg
  · rw [abs_of_neg (by linarith)]
    ring
  · rw [abs_of_nonneg (by linarith)]

/-- `DEFAULT_THREAD_TIME`. -/
def defaultThreadTime : ℚ := -1

/-- The loop of multithreadIB.c that joins its threads. -/
def maxThreadTime (times : List ℚ) : ℚ :=
  times.foldl (fun maxTime curTime => if maxTime < curTime then curTime else maxTime)
    defaultThreadTime

theorem seconds_nonneg (start stop : Timeval) : 0 ≤ seconds start stop := abs_nonneg _

/-- The threads are joined in order; the time that counts is the longest. -/
theorem maxThreadTime_eq (threadStart threadStop : ℕ → Timeval) (n : ℕ) :
    maxThreadTime ((List.range (n + 1)).map
      (fun t => timeDifference (threadStart t) (threadStop t))) =
      10 ^ 6 * partialSups (fun t => seconds (threadStart t) (threadStop t)) n := by
  induction n with
  | zero =>
    have hlt : defaultThreadTime < 10 ^ 6 * seconds (threadStart 0) (threadStop 0) := by
      have h := seconds_nonneg (threadStart 0) (threadStop 0)
      rw [defaultThreadTime]
      linarith
    simp [maxThreadTime, timeDifference_eq, hlt]
  | succ n ih =>
    have hsup : partialSups (fun t => seconds (threadStart t) (threadStop t)) (n + 1) =
        max (partialSups (fun t => seconds (threadStart t) (threadStop t)) n)
          (seconds (threadStart (n + 1)) (threadStop (n + 1))) := partialSups_succ _ n
    rw [List.range_succ, List.map_append, maxThreadTime, List.foldl_append, ← maxThreadTime, ih,
      hsup, mul_max_of_nonneg _ _ (by norm_num), ← timeDifference_eq]
    exact (max_def_lt _ _).symm

end Clock

section Benchmarks

open Multithread.Server (sizePerPeer)

/-- One round of a benchmark: a message, the sockets or threads that share it, the
messages of each of them, and what the clock showed: to `main` around the round and
to every thread around its own loop. -/
structure Round where
  msgSize : ℕ
  socketNum : ℕ
  numMsgs : ℕ
  socketNum_pos : 1 ≤ socketNum
  socketNum_le : socketNum ≤ msgSize
  numMsgs_pos : 1 ≤ numMsgs
  start : Timeval
  stop : Timeval
  threadStart : ℕ → Timeval
  threadStop : ℕ → Timeval

inductive Benchmark
  | multiStreamTcpClient
  | multiThreadTcpClient
  | multithreadIB
  deriving DecidableEq

namespace Benchmark

def share : Benchmark → ℕ → ℕ → ℕ → ℕ
  | multiStreamTcpClient | multiThreadTcpClient => msgSizes
  | multithreadIB => sizePerPeer

def totalTime (r : Round) : Benchmark → ℚ
  | multiStreamTcpClient | multiThreadTcpClient => timeDifference r.start r.stop
  | multithreadIB =>
    maxThreadTime ((List.range r.socketNum).map
      (fun t => timeDifference (r.threadStart t) (r.threadStop t)))

/-- What `main` does with a finished round, in all three programs. -/
def main (b : Benchmark) (r : Round) (resultIndex : ℕ) (results : ℕ → ℚ) : (ℕ → ℚ) × ℕ :=
  let numOfMessages := r.socketNum * r.numMsgs
  saveResults (calcAverageRTT 1 numOfMessages (b.totalTime r))
    (calcAverageThroughput numOfMessages r.msgSize (b.totalTime r))
    (calcAveragePacketRate numOfMessages (b.totalTime r))
    resultIndex results r.socketNum r.msgSize (r.numMsgs * r.socketNum)

/-- The line that the round gets in the result file. -/
def row (b : Benchmark) (r : Round) (resultIndex : ℕ) (results : ℕ → ℚ) : Row :=
  csvRow (b.main r resultIndex results).1 resultIndex

def traffic (b : Benchmark) (r : Round) : Traffic :=
  roundTraffic (b.share r.msgSize r.socketNum) r.numMsgs r.socketNum

/-- The time that the round took, in seconds. -/
def elapsed (r : Round) : Benchmark → ℚ
  | multiStreamTcpClient | multiThreadTcpClient => seconds r.start r.stop
  | multithreadIB =>
    partialSups (fun t => seconds (r.threadStart t) (r.threadStop t)) (r.socketNum - 1)

variable (b : Benchmark) (r : Round) (resultIndex : ℕ) (results : ℕ → ℚ)

theorem traffic_eq : b.traffic r = ⟨r.numMsgs * r.msgSize, r.numMsgs * r.msgSize⟩ := by
  have hsum : ∑ i ∈ Finset.range r.socketNum, b.share r.msgSize r.socketNum i = r.msgSize := by
    cases b with
    | multiStreamTcpClient => exact sum_msgSizes r.socketNum_pos r.socketNum_le
    | multiThreadTcpClient => exact sum_msgSizes r.socketNum_pos r.socketNum_le
    | multithreadIB => exact sum_sizePerPeer r.socketNum_pos
  rw [traffic, roundTraffic_eq, hsum]

theorem totalTime_eq : b.totalTime r = 10 ^ 6 * b.elapsed r := by
  cases b with
  | multiStreamTcpClient => exact timeDifference_eq r.start r.stop
  | multiThreadTcpClient => exact timeDifference_eq r.start r.stop
  | multithreadIB =>
    have hn : r.socketNum = r.socketNum - 1 + 1 := (Nat.sub_add_cancel r.socketNum_pos).symm
    rw [totalTime, elapsed, hn]
    exact maxThreadTime_eq r.threadStart r.threadStop (r.socketNum - 1)

/-- The reported figure counts the bytes moved once for every socket. -/
theorem throughput_eq : (b.row r resultIndex results).throughput =
    r.socketNum * (8 * 10 ^ (-6 : ℤ) * ((b.traffic r).sent + (b.traffic r).received) /
      b.elapsed r) := by
  rw [traffic_eq, row, main, csvRow_saveResults]
  simp only [calcAverageThroughput, totalTime_eq, bitToMbit, microToSec]
  have hsecs : 10 ^ 6 * b.elapsed r * (10 : ℚ) ^ (-6 : ℤ) = b.elapsed r := by
    norm_num
    ring
  rw [hsecs]
  push_cast
  ring

/-- The columns of the row tell the bytes moved. -/
theorem columns_eq : 16 * 10 ^ (-6 : ℤ) * (b.row r resultIndex results).numberOfMessages *
    (b.row r resultIndex results).sizePerMessage / b.elapsed r =
      8 * 10 ^ (-6 : ℤ) * ((b.traffic r).sent + (b.traffic r).received) / b.elapsed r := by
  have hn : (r.socketNum : ℚ) ≠ 0 :=
    Nat.cast_ne_zero.mpr (Nat.one_le_iff_ne_zero.mp r.socketNum_pos)
  rw [traffic_eq, row, main, csvRow_saveResults]
  push_cast
  field_simp
  ring

/-- The figure is eight millionths of the bytes that the sockets or threads have moved
in a second, which is also what the other columns of its row say. -/
structure Accurate (b : Benchmark) (r : Round) (row : Row) : Prop where
  moved : row.throughput =
    8 * 10 ^ (-6 : ℤ) * ((b.traffic r).sent + (b.traffic r).received) / b.elapsed r
  columns : row.throughput =
    16 * 10 ^ (-6 : ℤ) * row.numberOfMessages * row.sizePerMessage / b.elapsed r

theorem accurate_iff_mul_eq : Accurate b r (b.row r resultIndex results) ↔
    r.socketNum * (8 * 10 ^ (-6 : ℤ) * ((b.traffic r).sent + (b.traffic r).received) /
      b.elapsed r) =
      8 * 10 ^ (-6 : ℤ) * ((b.traffic r).sent + (b.traffic r).received) / b.elapsed r := by
  constructor
  · intro h
    rw [← throughput_eq b r resultIndex results]
    exact h.moved
  · intro h
    constructor
    · rw [throughput_eq, h]
    · rw [throughput_eq, h, columns_eq]

/-- The bytes of a round are counted once exactly when one socket moves them all. -/
theorem throughput_accurate_iff (htime : 0 < b.elapsed r) :
    Accurate b r (b.row r resultIndex results) ↔ r.socketNum = 1 := by
  have hmsgs : (0 : ℚ) < r.numMsgs := Nat.cast_pos.mpr r.numMsgs_pos
  have hsize : (0 : ℚ) < r.msgSize :=
    Nat.cast_pos.mpr (lt_of_lt_of_le r.socketNum_pos r.socketNum_le)
  have hrate : 8 * 10 ^ (-6 : ℤ) * ((b.traffic r).sent + (b.traffic r).received : ℚ) /
      b.elapsed r ≠ 0 := by
    rw [traffic_eq]
    push_cast
    exact (div_pos (by positivity) htime).ne'
  rw [accurate_iff_mul_eq, mul_eq_right₀ hrate, Nat.cast_eq_one]

/-- Eight bytes over two sockets, three times within a second. -/
def twoSockets : Round where
  msgSize := 8
  socketNum := 2
  numMsgs := 3
  socketNum_pos := Nat.two_pos
  socketNum_le := by decide
  numMsgs_pos := by decide
  start := ⟨10, 250000⟩
  stop := ⟨11, 250000⟩
  threadStart := fun _ => ⟨10, 250000⟩
  threadStop := fun _ => ⟨11, 250000⟩

theorem elapsed_twoSockets : multiStreamTcpClient.elapsed twoSockets = 1 := by
  norm_num [elapsed, seconds, twoSockets]

theorem throughput_accurate_iff_twoSockets :
    Accurate .multiStreamTcpClient twoSockets (row .multiStreamTcpClient twoSockets 0 0) ↔
      twoSockets.socketNum = 1 :=
  throughput_accurate_iff _ _ _ _ (by rw [elapsed_twoSockets]; exact one_pos)

/-- 48 bytes are moved and 96 are reported. -/
theorem twoSockets_counted_twice : ¬ ∀ (b : Benchmark) (r : Round) (resultIndex : ℕ)
    (results : ℕ → ℚ), 0 < b.elapsed r → Accurate b r (b.row r resultIndex results) := by
  intro h
  have hacc := h .multiStreamTcpClient twoSockets 0 0 (by rw [elapsed_twoSockets]; exact one_pos)
  rw [accurate_iff_mul_eq, traffic_eq, elapsed_twoSockets] at hacc
  norm_num [twoSockets] at hacc

end Benchmark

end Benchmarks

end InfinibandWorkshop.Throughput
