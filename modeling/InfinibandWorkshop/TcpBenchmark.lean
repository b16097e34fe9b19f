import InfinibandWorkshop.EchoRounds
import InfinibandWorkshop.RoundHandover
import Mathlib.Data.Prod.Lex

/-!
# The TCP benchmarks from warm-up to last round

Before the clock runs for the first time, `warmUpServer` opens a connection for each of its
messages. Then `main` doubles the size of the message from round to round, up to a megabyte,
and for each size goes through the numbers of sockets or threads; a round waits for the one
before it. With a handler for every connection all of this is played to its end exactly when
the last of the sizes fits into the streams, as one socket has to send it in one piece.
-/
namespace InfinibandWorkshop.TcpEcho
open CText (Byte ch)
open Handover (doublings maxMsgSize multistreamRounds multithreadRounds)
open Throughput (maxPacketSize maxPacketSize_pos msgSizes)
open scoped BigOperators

section Program

/-- `MAX_CLIENTS` of Metrics.hpp. -/
def maxClients : ℕ := 10

def maxCore : ℕ := 8

def defaultNumberOfMsgs : ℕ := 1000

/-- Message size and number of sockets or threads of each round. The loops are those of the
programs over InfiniBand. -/
def rounds : MessageSplit.Client → List (ℕ × ℕ)
  | .multiStreamTcpClient => multistreamRounds maxClients
  | .multiThreadTcpClient => multithreadRounds maxCore

variable {client : MessageSplit.Client} {p : ℕ × ℕ}

theorem mem_rounds (h : p ∈ rounds client) : p.1 ∈ doublings maxMsgSize ∧ 0 < p.2 := by
  cases client with
  | multiStreamTcpClient => exact Handover.mem_multistreamRounds h
  | multiThreadTcpClient => exact Handover.mem_multithreadRounds h

theorem rounds_pos (h : p ∈ rounds client) : 0 < p.1 := Handover.doublings_pos (mem_rounds h).1

theorem rounds_le (h : p ∈ rounds client) : p.1 ≤ maxMsgSize := by
  have hall : ∀ size ∈ doublings maxMsgSize, size ≤ maxMsgSize := by decide
  exact hall _ (mem_rounds h).1

/-- Both clients send a megabyte over a single socket. -/
theorem largest_mem_rounds (client : MessageSplit.Client) : (maxMsgSize, 1) ∈ rounds client := by
  have hsize : maxMsgSize ∈ doublings maxMsgSize := by decide
  cases client with
  | multiStreamTcpClient =>
    exact List.mem_flatMap.mpr ⟨_, hsize, List.mem_map.mpr ⟨0, by decide, rfl⟩⟩
  | multiThreadTcpClient =>
    exact List.mem_flatMap.mpr ⟨_, hsize, List.mem_map.mpr ⟨1, by decide, rfl⟩⟩

/-- The connections of `warmUpServer`, and the sockets of each round. -/
abbrev Connection (client : MessageSplit.Client) : Type :=
  Fin defaultNumberOfMsgs ⊕ (k : Fin (rounds client).length) × Fin (rounds client)[k].2

theorem warmUpMsg_ne : [ch 'w'] ≠ [] := List.cons_ne_nil _ _

/-- `warmUpServer` sends a byte and reads a byte. -/
def warmUp (a b : ℕ) : Config where
  msg := [ch 'w']
  numMsgs := 1
  ackSize := 1
  lineSize := maxPacketSize
  toServer := some a
  toClient := some b
  msg_ne := warmUpMsg_ne
  ackSize_pos := Nat.one_pos
  lineSize_pos := maxPacketSize_pos

namespace Connection

/-- `mem` is what the memory holds before a round makes its messages. -/
def config (mem : ℕ → ℕ → ℕ → Byte) (numMsgs a b : ℕ) : Connection client → Config
  | .inl _ => warmUp a b
  | .inr ⟨k, i⟩ => socketConfig client (mem k) numMsgs a b (rounds_pos (List.getElem_mem k.2)) i

/-- When the turn of a connection comes. The threads of a round have the same. -/
def place : Connection client → ℕ ×ₗ ℕ
  | .inl i => toLex (0, i.val)
  | .inr ⟨k, i⟩ =>
    toLex (k.val + 1, if client = .multiStreamTcpClient then i.val else 0)

end Connection

/-- The connections of a whole benchmark, each with a handler of its own. -/
def benchmarkSystem (client : MessageSplit.Client) (mem : ℕ → ℕ → ℕ → Byte) (numMsgs a b : ℕ) :
    Machine (Connection client → State) ((_ : Connection client) × Action) :=
  Machine.family (fun j => system (j.config mem numMsgs a b))

/-- The client turns to a connection when it is through with those that come before it; the
handlers do what they can. -/
def InProgram (client : MessageSplit.Client) (mem : ℕ → ℕ → ℕ → Byte) (numMsgs a b : ℕ) :
    (Connection client → State) → (_ : Connection client) × Action → Prop :=
  Machine.waiting (fun _ _ _ => True) Connection.place
    (fun j s act => act.2.ofClient → s.Through (j.config mem numMsgs a b).numMsgs)

/-- The bytes that a round sends in each iteration: where there are fewer than sockets, each
socket but the first one adds one. -/
def roundBytes (p : ℕ × ℕ) : ℕ := p.1 + if p.1 < p.2 then p.2 - 1 else 0

/-- The bytes of a round that have come back to the client. -/
def echoedBytes (s : Connection client → State) (k : Fin (rounds client).length) : ℕ :=
  ∑ i, (s (.inr ⟨k, i⟩)).received.length

/-- All connections have come to their ends, with what they were to carry. -/
structure BenchmarkPlayed (client : MessageSplit.Client) (mem : ℕ → ℕ → ℕ → Byte)
    (numMsgs a b : ℕ) (s : Connection client → State) : Prop where
  finished : ∀ j, Finished (Connection.config mem numMsgs a b j) (s j)
  warmedUp : ∀ i, (s (.inl i)).received = [ch 'w']
  echoed : ∀ k, echoedBytes s k = numMsgs * roundBytes (rounds client)[k]

/-- The steps of the client and the handlers in the whole benchmark. -/
def benchmarkSteps (client : MessageSplit.Client) (numMsgs : ℕ) : ℕ :=
  defaultNumberOfMsgs * 5 +
    ((rounds client).map (fun p => numMsgs * (4 * roundBytes p + p.2))).sum

end Program

section Ends

variable {client : MessageSplit.Client} {mem : ℕ → ℕ → ℕ → Byte} {numMsgs a b : ℕ}
  {s : Connection client → State}

theorem msgSizes_le {msgSize n : ℕ} (hsize : 0 < msgSize) (hn : 0 < n) (i : ℕ) :
    msgSizes msgSize n i ≤ msgSize := by
  have hdiv := Nat.div_add_mod msgSize n
  have hle : msgSize / n ≤ n * (msgSize / n) := Nat.le_mul_of_pos_left _ hn
  rw [msgSizes]
  split_ifs <;> omega

theorem sum_sentBytes (client : MessageSplit.Client) (mem : ℕ → ℕ → Byte)
    (msgSize : ℕ) {n : ℕ} (hn : 0 < n) :
    ∑ i : Fin n, (sentBytes client mem msgSize n i).length = roundBytes (msgSize, n) := by
  simp only [sentBytes_length]
  rw [← Finset.sum_range (msgSizes msgSize n), roundBytes]
  split_ifs with hlt
  · exact MessageSplit.sum_msgSizes_of_lt hlt
  · rw [Nat.add_zero]
    exact Throughput.sum_msgSizes hn (not_lt.mp hlt)

theorem config_streams (j : Connection client) :
    (j.config mem numMsgs a b).toServer = some a ∧
      (j.config mem numMsgs a b).toClient = some b := by
  cases j <;> exact ⟨rfl, rfl⟩

/-- No message is longer than a megabyte. -/
theorem config_fits (h : numMsgs = 0 ∨ maxMsgSize ≤ a + b + 1) (j : Connection client) :
    (j.config mem numMsgs a b).msg.length ≤ a + b + 1 ∨
      (j.config mem numMsgs a b).numMsgs = 0 := by
  rcases j with i | ⟨k, i⟩
  · exact .inl (Nat.le_add_left 1 (a + b))
  · rcases h with hnone | hfits
    · exact .inr hnone
    · left
      have hmem : (rounds client)[k] ∈ rounds client := List.getElem_mem k.2
      have hshare : msgSizes (rounds client)[k].1 (rounds client)[k].2 i ≤ (rounds client)[k].1 :=
        msgSizes_le (rounds_pos hmem) (mem_rounds hmem).2 i
      exact (sentBytes_length client _ _ _ _).trans_le
        (hshare.trans ((rounds_le hmem).trans hfits))

theorem sum_steps (client : MessageSplit.Client) (mem : ℕ → ℕ → ℕ → Byte) (numMsgs a b : ℕ) :
    ∑ j : Connection client, (j.config mem numMsgs a b).numMsgs *
      (4 * (j.config mem numMsgs a b).msg.length + 1) = benchmarkSteps client numMsgs := by
  have hround : ∀ k : Fin (rounds client).length,
      ∑ i, (Connection.config mem numMsgs a b (.inr ⟨k, i⟩)).numMsgs *
          (4 * (Connection.config mem numMsgs a b (.inr ⟨k, i⟩)).msg.length + 1) =
        numMsgs * (4 * roundBytes (rounds client)[k] + (rounds client)[k].2) := by
    intro k
    have hpos : 0 < (rounds client)[k].2 := (mem_rounds (List.getElem_mem k.2)).2
    have hsum := sum_sentBytes client (mem k) (rounds client)[k].1 hpos
    show ∑ i : Fin (rounds client)[k].2, numMsgs *
      (4 * (sentBytes client (mem k) (rounds client)[k].1 (rounds client)[k].2 i).length + 1) = _
    rw [← Finset.mul_sum, Finset.sum_add_distrib, ← Finset.mul_sum, hsum]
    simp
  have hwarmUp : ∀ i, (Connection.config mem numMsgs a b (.inl i : Connection client)).numMsgs *
      (4 * (Connection.config mem numMsgs a b (.inl i : Connection client)).msg.length + 1) = 5 :=
    fun _ => rfl
  have hrounds := Fin.sum_univ_fun_getElem (rounds client)
    (fun p => numMsgs * (4 * roundBytes p + p.2))
  rw [Fintype.sum_sum_type, Fintype.sum_sigma, benchmarkSteps, ← hrounds]
  simp only [hwarmUp, hround, Finset.sum_const, Finset.card_univ, Fintype.card_fin, smul_eq_mul]
  rfl

theorem benchmarkPlayed_of_finished
    (h : ∀ j, Finished (Connection.config mem numMsgs a b j) (s j)) :
    BenchmarkPlayed client mem numMsgs a b s where
  finished := h
  warmedUp i := (h (.inl i)).received
  echoed k := by
    have hpos : 0 < (rounds client)[k].2 := (mem_rounds (List.getElem_mem k.2)).2
    have heach : ∀ i, (s (.inr ⟨k, i⟩)).received.length = numMsgs *
        (sentBytes client (mem k) (rounds client)[k].1 (rounds client)[k].2 i).length :=
      fun i => (h (.inr ⟨k, i⟩)).received_length
    simp only [echoedBytes, heach]
    rw [← Finset.mul_sum, sum_sentBytes client (mem k) _ hpos]

/-- The whole benchmark is played to its end exactly when a megabyte fits into the streams
and the byte that a handler may hold, or when there is nothing to send after the warm-up. -/
theorem benchmark_ends_iff (client : MessageSplit.Client) (mem : ℕ → ℕ → ℕ → Byte)
    (numMsgs : ℕ) (ha0 : 0 < a) (hb0 : 0 < b) :
    (benchmarkSystem client mem numMsgs a b).Completes (InProgram client mem numMsgs a b)
      (benchmarkSteps client numMsgs) (BenchmarkPlayed client mem numMsgs a b) ↔
      numMsgs = 0 ∨ maxMsgSize ≤ a + b + 1 := by
  have hpassed : ∀ (j : Connection client) (s : State) (act : (_ : Connection client) × Action),
      Finished (j.config mem numMsgs a b) s →
        act.2.ofClient → s.Through (j.config mem numMsgs a b).numMsgs :=
    fun _ _ _ h _ => ⟨h.top, h.iterations⟩
  constructor
  · intro h
    by_contra hno
    obtain ⟨hmsgs, hlt⟩ := not_or.mp hno
    obtain ⟨k, hk, hlargest⟩ := List.getElem_of_mem (largest_mem_rounds client)
    have hsocket : 0 < (rounds client)[k].2 := by rw [hlargest]; exact Nat.one_pos
    let j : Connection client := .inr ⟨⟨k, hk⟩, ⟨0, hsocket⟩⟩
    have hlength : (j.config mem numMsgs a b).msg.length = maxMsgSize := by
      have hshare : msgSizes (rounds client)[k].1 (rounds client)[k].2 0 = maxMsgSize := by
        rw [hlargest]
        rfl
      exact (sentBytes_length client _ _ _ _).trans hshare
    obtain ⟨u, hu, hhang⟩ := hangs_of_lt (c := j.config mem numMsgs a b) rfl rfl ha0
      (Nat.pos_of_ne_zero hmsgs) (by rw [hlength]; exact not_le.mp hlt)
    have hall : (benchmarkSystem client mem numMsgs a b).Completes
        (InProgram client mem numMsgs a b) _
        (fun s => ∀ j, Finished (Connection.config mem numMsgs a b j) (s j)) :=
      h.mono (fun _ _ hs => hs.finished)
    exact absurd hall (Machine.not_completes_in_turn (i := j) hu hhang.2
      (fun h => hhang.1 h.top) hpassed)
  · intro hfits
    have hmember : ∀ j : Connection client, (system (j.config mem numMsgs a b)).Completes
        (fun _ _ => True) ((j.config mem numMsgs a b).numMsgs *
          (4 * (j.config mem numMsgs a b).msg.length + 1)) (Finished (j.config mem numMsgs a b)) :=
      fun j => completes_of_fits (config_streams j).1 (config_streams j).2 ha0 hb0
        (config_fits hfits j)
    have hall : (benchmarkSystem client mem numMsgs a b).Completes
        (InProgram client mem numMsgs a b) _
        (fun s => ∀ j, Finished (Connection.config mem numMsgs a b j) (s j)) :=
      Machine.Completes.in_turn hmember hpassed
    rw [sum_steps] at hall
    exact hall.mono (fun _ _ hs => benchmarkPlayed_of_finished hs)

/-- A hundred messages a thread, with 208 KiB of buffer in each direction. -/
theorem benchmark_ends_iff_defaultBuffers :
    (benchmarkSystem .multiThreadTcpClient (fun _ _ _ => 0) 100 212992 212992).Completes
      (InProgram .multiThreadTcpClient (fun _ _ _ => 0) 100 212992 212992)
      (benchmarkSteps .multiThreadTcpClient 100)
      (BenchmarkPlayed .multiThreadTcpClient (fun _ _ _ => 0) 100 212992 212992) ↔
      100 = 0 ∨ maxMsgSize ≤ 212992 + 212992 + 1 :=
  benchmark_ends_iff _ _ _ (by decide) (by decide)

end Ends

end InfinibandWorkshop.TcpEcho
