import InfinibandWorkshop.RoundHandover
import InfinibandWorkshop.Throughput

/-!
# The threads of a round of multithreadIB.c

Client and server split the message in the same way and start no thread for an empty
share, but they skip one differently: the server's loop goes on with the next thread,
the client's leaves one out. They start the same threads all the same, since an empty
share can only be followed by empty ones.
-/
namespace InfinibandWorkshop.Handover
open Multithread.Server (sizePerPeer)

/-- The threads that the server's loop starts from `thread` on, each with a connection
that it has accepted. -/
def acceptedThreads (sizePerPeer : ℕ → ℕ) (numThreads thread : ℕ) : List ℕ :=
  if thread < numThreads then
    if sizePerPeer thread = 0 then acceptedThreads sizePerPeer numThreads (thread + 1)
    else thread :: acceptedThreads sizePerPeer numThreads (thread + 1)
  else []
termination_by numThreads - thread

/-- The threads that the client's loop starts, each with a connection that it has
opened; the skip counts `thread` twice. -/
def connectedThreads (sizePerPeer : ℕ → ℕ) (numThreads thread : ℕ) : List ℕ :=
  if thread < numThreads then
    if sizePerPeer thread = 0 then connectedThreads sizePerPeer numThreads (thread + 2)
    else thread :: connectedThreads sizePerPeer numThreads (thread + 1)
  else []
termination_by numThreads - thread

section Loops

variable {size : ℕ → ℕ} {n thread : ℕ}

/-- The loops that count connections count these threads. -/
theorem length_acceptedThreads :
    (acceptedThreads size n thread).length = acceptLoop size n thread := by
  fun_induction acceptedThreads size n thread with
  | case1 thread hlt hsize ih => rw [ih, acceptLoop.eq_def size n thread, if_pos hlt, if_pos hsize]
  | case2 thread hlt hsize ih =>
    rw [List.length_cons, ih, acceptLoop.eq_def size n thread, if_pos hlt, if_neg hsize]
  | case3 thread hlt => rw [acceptLoop, if_neg hlt, List.length_nil]

theorem length_connectedThreads :
    (connectedThreads size n thread).length = connectLoop size n thread := by
  fun_induction connectedThreads size n thread with
  | case1 thread hlt hsize ih => rw [ih, connectLoop.eq_def size n thread, if_pos hlt, if_pos hsize]
  | case2 thread hlt hsize ih =>
    rw [List.length_cons, ih, connectLoop.eq_def size n thread, if_pos hlt, if_neg hsize]
  | case3 thread hlt => rw [connectLoop, if_neg hlt, List.length_nil]

/-- The server starts a thread for every share that is not empty. -/
theorem acceptedThreads_eq_filter : acceptedThreads size n thread =
    (List.range' thread (n - thread)).filter (fun u => size u ≠ 0) := by
  fun_induction acceptedThreads size n thread with
  | case1 thread hlt hsize ih =>
    have hlen : n - thread = n - (thread + 1) + 1 := by omega
    rw [ih, hlen, List.range'_succ, List.filter_cons_of_neg (by simpa using hsize)]
  | case2 thread hlt hsize ih =>
    have hlen : n - thread = n - (thread + 1) + 1 := by omega
    rw [ih, hlen, List.range'_succ, List.filter_cons_of_pos (by simpa using hsize)]
  | case3 thread hlt =>
    have hlen : n - thread = 0 := by omega
    rw [hlen]
    rfl

/-- Behind an empty share that is followed by empty ones only, neither loop starts
anything, so their skips make no difference. -/
theorem connectedThreads_eq (h : ∀ u v, thread ≤ u → u ≤ v → size u = 0 → size v = 0) :
    connectedThreads size n thread = acceptedThreads size n thread := by
  fun_induction acceptedThreads size n thread with
  | case1 thread hlt hsize ih =>
    have hzero : ∀ v, thread ≤ v → size v = 0 := fun v hv => h thread v le_rfl hv hsize
    have haccepted : (acceptedThreads size n (thread + 1)).length = 0 := by
      rw [length_acceptedThreads]
      exact acceptLoop_eq_zero (fun v hv => hzero v (by omega))
    have hconnected : (connectedThreads size n thread).length = 0 := by
      rw [length_connectedThreads]
      exact connectLoop_eq_zero hzero
    rw [List.length_eq_zero_iff.mp haccepted, List.length_eq_zero_iff.mp hconnected]
  | case2 thread hlt hsize ih =>
    rw [connectedThreads, if_pos hlt, if_neg hsize, ih (fun u v hu => h u v (by omega))]
  | case3 thread hlt => rw [connectedThreads, if_neg hlt]

end Loops

section Sizes

variable (varsize numThreads : ℕ)

/-- The payload sizes of the threads that the server starts, in order. -/
def acceptedSizes : List ℕ :=
  (acceptedThreads (sizePerPeer varsize numThreads) numThreads 0).map
    (sizePerPeer varsize numThreads)

/-- And those of the client. -/
def connectedSizes : List ℕ :=
  (connectedThreads (sizePerPeer varsize numThreads) numThreads 0).map
    (sizePerPeer varsize numThreads)

/-- The `k`-th connection has the same size at both ends, the sizes are the shares
that are not empty, and nothing of the message is left out. -/
structure SidesAgree : Prop where
  paired : ∀ k : ℕ, (connectedSizes varsize numThreads)[k]? =
    (acceptedSizes varsize numThreads)[k]?
  connected : connectedSizes varsize numThreads =
    ((List.range numThreads).map (sizePerPeer varsize numThreads)).filter (· ≠ 0)
  accepted : acceptedSizes varsize numThreads =
    ((List.range numThreads).map (sizePerPeer varsize numThreads)).filter (· ≠ 0)
  total : (acceptedSizes varsize numThreads).sum = varsize

theorem acceptedSizes_eq : acceptedSizes varsize numThreads =
    ((List.range numThreads).map (sizePerPeer varsize numThreads)).filter (· ≠ 0) := by
  rw [acceptedSizes, acceptedThreads_eq_filter, List.filter_map, List.range_eq_range',
    Nat.sub_zero]
  rfl

theorem sides_agree (hsize : 1 ≤ varsize) (hn : 1 ≤ numThreads) :
    SidesAgree varsize numThreads := by
  have hsame : connectedSizes varsize numThreads = acceptedSizes varsize numThreads := by
    rw [connectedSizes, connectedThreads_eq (fun u v _ huv => sizePerPeer_tail hsize huv),
      acceptedSizes]
  have haccepted := acceptedSizes_eq varsize numThreads
  refine ⟨fun k => by rw [hsame], hsame.trans haccepted, haccepted, ?_⟩
  -- the empty shares add nothing
  have hsum := List.sum_filter_bne_zero
    ((List.range numThreads).map (sizePerPeer varsize numThreads))
  simp only [bne, beq_eq_decide, ← decide_not] at hsum
  rw [haccepted, hsum]
  exact Throughput.sum_sizePerPeer hn

/-- Three bytes over five threads. -/
theorem sides_agree_fiveThreads : SidesAgree 3 5 :=
  sides_agree 3 5 (by decide) (by decide)

end Sizes

end InfinibandWorkshop.Handover
