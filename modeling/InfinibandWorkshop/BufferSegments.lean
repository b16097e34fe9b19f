import InfinibandWorkshop.MultistreamLoop
import InfinibandWorkshop.Throughput

/-!
# The buffer segments of multistreamTestRunner.c

One registered buffer serves all queue pairs. Each of them gets a share of the
message, and its segment starts at the product of its share and its index. The
shares add up to the message and no segment leaves the buffer; but queue pair 0 has
a longer share than the others when the division leaves a remainder, and then its
segment reaches into the next one.
-/
namespace InfinibandWorkshop.Multistream
open Verbs
open scoped BigOperators
open Multithread.Server (sizePerPeer)

variable {n : ℕ}

/-- The bytes of the buffer that a request sends from or receives into. -/
def bytes (w : WorkRequest n) : Set ℤ := {b | w.offset ≤ b ∧ b < w.offset + w.length}

theorem sizePerPeer_first {size n : ℕ} (hn : 1 ≤ n) :
    sizePerPeer size n 0 = size / n + size % n := by
  obtain ⟨m, rfl⟩ := Nat.exists_eq_add_of_le' hn
  have hdiv := Nat.div_add_mod size (m + 1)
  have hmul : (m + 1) * (size / (m + 1)) = size / (m + 1) * m + size / (m + 1) := by ring
  simp only [sizePerPeer, if_true, Nat.add_sub_cancel]
  rw [hmul] at hdiv
  exact Nat.sub_eq_of_eq_add (by linarith)

theorem sizePerPeer_succ (size n i : ℕ) : sizePerPeer size n (i + 1) = size / n := by
  rw [sizePerPeer, if_neg (Nat.succ_ne_zero i)]

variable (size rxDepth : ℕ) (qpNum : Fin n → ℕ) (hq : Function.Injective qpNum)

/-- Both InfiniBand programs split a message in the same way. -/
theorem sizePerQP_eq (i : Fin n) :
    (ppInitCtx size rxDepth qpNum hq).sizePerQP i = sizePerPeer size n i.val := by
  have hn : 1 ≤ n := i.pos
  have hle : size / n * (n - 1) ≤ size :=
    (Nat.mul_le_mul_left _ (Nat.sub_le n 1)).trans (Nat.div_mul_le_self size n)
  simp only [ppInitCtx, sizePerPeer]
  split_ifs with hi
  · push_cast [Nat.cast_sub hle, Nat.cast_sub hn]
    rfl
  · exact (Int.natCast_div size n).symm

/-- The bytes that belong to the queue pair with index `i`. -/
def segment (size n i : ℕ) : Set ℤ :=
  {b | (sizePerPeer size n i * i : ℤ) ≤ b ∧
    b < sizePerPeer size n i * i + sizePerPeer size n i}

theorem bytes_request (k : Queue) (i : Fin n) :
    bytes (request (ppInitCtx size rxDepth qpNum hq) k i) = segment size n i := by
  simp only [bytes, request, sizePerQP_eq, segment]

section Bounds

/-- The shares are lengths, they add up to the message, and every request stays in the
registered memory. -/
structure FitsRegion (ctx : PingpongContext n) (size : ℕ) : Prop where
  nonneg : ∀ i, 0 ≤ ctx.sizePerQP i
  total : ∑ i, ctx.sizePerQP i = size
  inside : ∀ k i, 0 ≤ (request ctx k i).offset ∧
    (request ctx k i).offset + (request ctx k i).length ≤ size

/-- The end of a segment, for the segment of any queue pair. -/
theorem segment_end_le (size : ℕ) {n i : ℕ} (hi : i < n) :
    sizePerPeer size n i * i + sizePerPeer size n i ≤ size := by
  have hn : 1 ≤ n := by omega
  have hdiv := Nat.div_add_mod size n
  cases i with
  | zero =>
    have hle : size / n ≤ n * (size / n) := Nat.le_mul_of_pos_left _ hn
    rw [sizePerPeer_first hn]
    omega
  | succ i =>
    have hle : (i + 2) * (size / n) ≤ n * (size / n) := Nat.mul_le_mul_right _ hi
    have hmul : (i + 2) * (size / n) = size / n * (i + 1) + size / n := by ring
    rw [sizePerPeer_succ]
    omega

theorem fitsRegion (hn : 1 ≤ n) : FitsRegion (ppInitCtx size rxDepth qpNum hq) size where
  nonneg := by
    intro i
    rw [sizePerQP_eq]
    exact Int.natCast_nonneg _
  total := by
    have hsum : ∑ i : Fin n, sizePerPeer size n i = size := by
      rw [← Finset.sum_range (sizePerPeer size n), Throughput.sum_sizePerPeer hn]
    simp only [sizePerQP_eq]
    exact_mod_cast hsum
  inside := by
    intro k i
    simp only [request, sizePerQP_eq]
    have hend := segment_end_le size i.isLt
    exact ⟨by positivity, by exact_mod_cast hend⟩

/-- Five queue pairs and three bytes: all of them go to queue pair 0. -/
theorem fitsRegion_moreQps :
    FitsRegion (ppInitCtx 3 500 (Fin.val : Fin 5 → ℕ) Fin.val_injective) 3 :=
  fitsRegion 3 500 Fin.val Fin.val_injective (by decide)

end Bounds

section Overlap

/-- Messages of different queue pairs use different bytes of the buffer. -/
def SegmentsDisjoint (ctx : PingpongContext n) : Prop :=
  ∀ (k k' : Queue) (i j : Fin n), i ≠ j →
    ∀ b ∈ bytes (request ctx k i), b ∉ bytes (request ctx k' j)

/-- The segments of an even division, and those of a division with nothing to share. -/
theorem disjoint_of_lt {size n i j : ℕ} (hn : 1 ≤ n) (h : n ∣ size ∨ size < n) (hij : i < j) :
    ∀ b ∈ segment size n i, b ∉ segment size n j := by
  obtain ⟨m, rfl⟩ : ∃ m, j = m + 1 := ⟨j - 1, by omega⟩
  intro b hi hj
  simp only [segment, Set.mem_ofPred_eq, sizePerPeer_succ] at hi hj
  rcases h with hdvd | hlt
  · have hshare : sizePerPeer size n i = size / n := by
      cases i with
      | zero => rw [sizePerPeer_first hn, Nat.mod_eq_zero_of_dvd hdvd, Nat.add_zero]
      | succ i => exact sizePerPeer_succ size n i
    have hle : size / n * i + size / n ≤ size / n * (m + 1) := by
      rw [← Nat.mul_succ]
      exact Nat.mul_le_mul_left _ hij
    have hcast : ((size / n : ℕ) : ℤ) * i + (size / n : ℕ) ≤ (size / n : ℕ) * (m + 1 : ℕ) := by
      exact_mod_cast hle
    rw [hshare] at hi
    omega
  · rw [Nat.div_eq_of_lt hlt] at hj
    omega

/-- Where the division leaves a remainder, the first byte of queue pair 1 is one of the
last bytes of queue pair 0. -/
theorem exists_shared_of_remainder (size n : ℕ) (hn : 1 ≤ n) (hrem : 0 < size % n)
    (hquot : 0 < size / n) : ∃ b ∈ segment size n 0, b ∈ segment size n 1 := by
  refine ⟨(size / n : ℕ), ?_, ?_⟩
  · rw [segment, sizePerPeer_first hn]
    constructor <;> push_cast <;> omega
  · rw [segment, sizePerPeer_succ size n 0]
    constructor <;> push_cast <;> omega

/-- The segments are apart exactly when all of them have the same length, or all but
the first are empty. -/
theorem segmentsDisjoint_iff (hn : 1 ≤ n) :
    SegmentsDisjoint (ppInitCtx size rxDepth qpNum hq) ↔ n ∣ size ∨ size < n := by
  constructor
  · intro h
    by_contra hno
    obtain ⟨hdvd, hle⟩ := not_or.mp hno
    have hrem : 0 < size % n := Nat.pos_of_ne_zero (fun hr => hdvd (Nat.dvd_of_mod_eq_zero hr))
    have hquot : 0 < size / n := Nat.div_pos (not_lt.mp hle) hn
    have hmore : 1 < n := by
      have hlt := Nat.mod_lt size hn
      omega
    have hdisj := h .send .send ⟨0, hn⟩ ⟨1, hmore⟩ (by simp)
    rw [bytes_request, bytes_request] at hdisj
    obtain ⟨b, hzero, hone⟩ := exists_shared_of_remainder size n hn hrem hquot
    exact hdisj b hzero hone
  · intro h k k' i j hij
    rw [bytes_request, bytes_request]
    rcases lt_or_gt_of_ne hij with hlt | hlt
    · exact disjoint_of_lt hn h hlt
    · exact fun b hi hj => disjoint_of_lt hn h hlt b hj hi

theorem segmentsDisjoint_iff_fourQps :
    SegmentsDisjoint (ppInitCtx 8 500 (Fin.val : Fin 4 → ℕ) Fin.val_injective) ↔
      4 ∣ 8 ∨ 8 < 4 :=
  segmentsDisjoint_iff 8 500 Fin.val Fin.val_injective (by decide)

/-- Three queue pairs share eight bytes as 4, 2 and 2. -/
theorem threeQps_overlap : ¬ ∀ (n size rxDepth : ℕ) (qpNum : Fin n → ℕ)
    (hq : Function.Injective qpNum), 1 ≤ n → 1 ≤ size →
    SegmentsDisjoint (ppInitCtx size rxDepth qpNum hq) := by
  intro h
  have hdisj := h 3 8 500 Fin.val Fin.val_injective (by decide) (by decide)
  have hsegments := hdisj .recv .send 0 1 (by decide)
  rw [bytes_request, bytes_request] at hsegments
  obtain ⟨b, hzero, hone⟩ := exists_shared_of_remainder 8 3 (by decide) (by decide)
    (by decide)
  exact hsegments b hzero hone

end Overlap

end InfinibandWorkshop.Multistream
