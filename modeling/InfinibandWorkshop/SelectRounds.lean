import InfinibandWorkshop.SelectHanging

/-!
# Rounds over the select loop

MultiStreamTcpClient.cpp against NonBlockingTcpServer.cpp. With room for its sockets in the
table, a round is played to its end and leaves the server as it was before the first of them,
exactly when the largest share fits into the streams.
-/
namespace InfinibandWorkshop.SelectClients
open CText (Byte)

variable {N : ℕ} {c : SelectLoop.Config} {cfg : Fin N → TcpEcho.Config}
  {s t : State N c.maxClients}

section Rounds

open TcpEcho (roundConfig RoundPlayed)
open Throughput (Round msgSizes)

variable {r : Round} {a b : ℕ}

theorem suited_round (mem : ℕ → ℕ → Byte) (r : Round) (a b : ℕ)
    (hsockets : r.socketNum ≤ c.maxClients) :
    Suited c (roundConfig .multiStreamTcpClient mem r a b) where
  zero := by
    intro i h
    have hch : (0 : Byte) ≠ CText.ch 'w' := by decide
    exact hch (TcpEcho.mem_sentBytes r.socketNum_le h)
  line _ := rfl
  msgs _ := r.numMsgs_pos
  le := hsockets

theorem stepBound_round (c : SelectLoop.Config) (mem : ℕ → ℕ → Byte) (r : Round) (a b : ℕ) :
    stepBound c (roundConfig .multiStreamTcpClient mem r a b) =
      r.numMsgs * (4 * r.msgSize + r.socketNum) + 2 * r.socketNum +
        (c.maxClients + 3) * (r.numMsgs * r.msgSize + 2 * r.socketNum + c.maxClients) +
        (2 * c.maxClients + 3) := by
  have hmsgs : ∀ i, (roundConfig .multiStreamTcpClient mem r a b i).numMsgs = r.numMsgs :=
    fun _ => rfl
  have hsum := TcpEcho.sum_msg_length .multiStreamTcpClient mem r a b
  simp only [stepBound, hmsgs]
  rw [← Finset.mul_sum, ← Finset.mul_sum, Finset.sum_add_distrib, ← Finset.mul_sum, hsum]
  simp

/-- A round of MultiStreamTcpClient.cpp with a byte for each socket, and no more sockets than
the table has slots, is played to its end by the select loop, which then has nothing open,
exactly when the largest share, that of socket 0, fits into the streams. -/
theorem round_over_select_ends_iff (c : SelectLoop.Config) (mem : ℕ → ℕ → Byte) (r : Round)
    (hsockets : r.socketNum ≤ c.maxClients) (ha0 : 0 < a) (hb0 : 0 < b) (resultIndex : ℕ)
    (results : ℕ → ℚ) :
    (system c (roundConfig .multiStreamTcpClient mem r a b)).Completes
      (InOrder (roundConfig .multiStreamTcpClient mem r a b))
      (r.numMsgs * (4 * r.msgSize + r.socketNum) + 2 * r.socketNum +
        (c.maxClients + 3) * (r.numMsgs * r.msgSize + 2 * r.socketNum + c.maxClients) +
        (2 * c.maxClients + 3))
      (fun s => RoundPlayed .multiStreamTcpClient mem r a b s.view resultIndex results ∧
        Over (roundConfig .multiStreamTcpClient mem r a b) s) ↔
      msgSizes r.msgSize r.socketNum 0 ≤ a + b + 1 := by
  have hsuited := suited_round (c := c) mem r a b hsockets
  have hlength := TcpEcho.msg_length .multiStreamTcpClient mem r a b
  rw [← stepBound_round c mem r a b]
  constructor
  · intro h
    by_contra hlt
    let zero : Fin r.socketNum := ⟨0, r.socketNum_pos⟩
    obtain ⟨u, hu, hhang⟩ := TcpEcho.hangs_of_lt
      (c := roundConfig .multiStreamTcpClient mem r a b zero) rfl rfl ha0 r.numMsgs_pos
      (by rw [hlength]; exact not_le.mp hlt)
    exact not_completes hsuited (fun k => Nat.not_lt_zero k) hu hhang _
      (h.mono (fun _ _ hs => hs.2))
  · intro hfits
    have hall : ∀ i, (roundConfig .multiStreamTcpClient mem r a b i).msg.length ≤ a + b + 1 := by
      intro i
      rw [hlength]
      exact (TcpEcho.msgSizes_le_zero (TcpEcho.msgSize_pos r) i).trans hfits
    have h := completes_of_fits (fun _ => rfl) (fun _ => rfl) ha0 hb0 hall hsuited
    exact h.mono (fun _ _ hover => ⟨TcpEcho.roundPlayed_of_finished hover.finished _ _, hover⟩)

/-- Eight bytes over two sockets, three times, and ten slots. -/
theorem round_over_select_ends_iff_twoSockets :
    (system SelectLoop.tenClients (roundConfig .multiStreamTcpClient (fun _ _ => 0)
      Throughput.Benchmark.twoSockets 4 4)).Completes
      (InOrder (roundConfig .multiStreamTcpClient (fun _ _ => 0)
        Throughput.Benchmark.twoSockets 4 4))
      (Throughput.Benchmark.twoSockets.numMsgs * (4 * Throughput.Benchmark.twoSockets.msgSize +
          Throughput.Benchmark.twoSockets.socketNum) +
        2 * Throughput.Benchmark.twoSockets.socketNum +
        (SelectLoop.tenClients.maxClients + 3) * (Throughput.Benchmark.twoSockets.numMsgs *
            Throughput.Benchmark.twoSockets.msgSize +
          2 * Throughput.Benchmark.twoSockets.socketNum + SelectLoop.tenClients.maxClients) +
        (2 * SelectLoop.tenClients.maxClients + 3))
      (fun s => RoundPlayed .multiStreamTcpClient (fun _ _ => 0) Throughput.Benchmark.twoSockets
          4 4 s.view 0 0 ∧
        Over (roundConfig .multiStreamTcpClient (fun _ _ => 0) Throughput.Benchmark.twoSockets
          4 4) s) ↔
      msgSizes Throughput.Benchmark.twoSockets.msgSize Throughput.Benchmark.twoSockets.socketNum 0
        ≤ 4 + 4 + 1 :=
  round_over_select_ends_iff SelectLoop.tenClients _ _ (by decide) (by decide) (by decide) _ _

end Rounds

end InfinibandWorkshop.SelectClients
