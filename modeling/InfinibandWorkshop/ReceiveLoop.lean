import InfinibandWorkshop.Loops
import InfinibandWorkshop.MessageSplit
import InfinibandWorkshop.RoundHandover
import Mathlib.Algebra.Order.BigOperators.Group.Finset
import Mathlib.Data.Nat.Find

/-!
# Waiting for the echo

After a message has been sent, MultiStreamTcpClient.cpp and MultiThreadTcpClient.cpp
call `Stream::receive` until `bytesRead` has come up to the size of the message. What a
call returns is added to `bytesRead` whatever it is: -1 for an error and 0 at the end of
the stream as well. `bytesRead` is an `int`, so that the sum wraps around at 32 bits.
-/
namespace InfinibandWorkshop.ReceiveLoop
open Handover (maxMsgSize)
open MessageSplit (Client)
open Throughput (maxPacketSize)
open scoped BigOperators

section Stream

def connectionTimedOut : ℤ := -2

/-- `Stream::receive`, by what `waitForReadEvent` and `read` return. -/
def receive (read : ℤ) (waitForReadEvent : Bool) (timeout : ℤ) : ℤ :=
  if timeout ≤ 0 then read
  else if waitForReadEvent then read
  else connectionTimedOut

/-- The results of successive reads of at most `size` bytes: an error, a part of what has
come, or the end of the stream, behind which nothing else comes. -/
structure Connection (size : ℕ) where
  read : ℕ → ℤ
  waitForReadEvent : ℕ → Bool
  range : ∀ i, -1 ≤ read i ∧ read i ≤ size
  closed : ∀ i, read i = 0 → read (i + 1) = 0

namespace Connection

variable {size : ℕ} (c : Connection size)

/-- The `i`-th call of `receive(ack, size)`, which has no timeout by default. -/
def receive (i : ℕ) : ℤ := ReceiveLoop.receive (c.read i) (c.waitForReadEvent i) 0

/-- The server has closed the connection, or it has failed, from some call on. -/
def Over : Prop := ∃ k, (∀ i, k ≤ i → c.read i = 0) ∨ ∀ i, k ≤ i → c.read i = -1

/-- The bytes that the first `n` calls have brought. -/
def received (n : ℕ) : ℕ := ∑ i ∈ Finset.range n, (c.read i).toNat

/-- The sum of what the first `n` calls have returned. -/
def total (n : ℕ) : ℤ := ∑ i ∈ Finset.range n, c.read i

end Connection

end Stream

section Loop

/-- The conversion to `int`. -/
def toInt (x : ℤ) : ℤ := x.bmod (2 ^ 32)

structure Waiting where
  calls : ℕ
  bytesRead : ℤ
  deriving DecidableEq

variable {size : ℕ} (c : Connection size) (msgSize : ℕ)

/-- `bytesRead += receive(ack, size)`. -/
def addReceived (w : Waiting) : Waiting := ⟨w.calls + 1, toInt (w.bytesRead + c.receive w.calls)⟩

def echoLoop : Loop Waiting Waiting where
  turn w := if w.bytesRead < msgSize then .inl (addReceived c w) else .inr w

/-- The loop, with the first call in front of it, is left in `w`. -/
def Stops (w : Waiting) : Prop := (echoLoop c msgSize).Leaves (addReceived c ⟨0, 0⟩) w

/-- The loop does not outlive the connection, and where it is left the message has come
back and `bytesRead` says how much has. -/
structure EndsAndCounts : Prop where
  ends : c.Over → ∃ w, Stops c msgSize w
  arrived : ∀ w, Stops c msgSize w → msgSize ≤ c.received w.calls
  counted : ∀ w, Stops c msgSize w → w.bytesRead = c.received w.calls

/-- The length that a client receives with: `sizeof` its `ack`. -/
def ackSize : Client → ℕ
  | .multiStreamTcpClient => maxMsgSize
  | .multiThreadTcpClient => maxPacketSize

end Loop

namespace Connection

variable {size : ℕ} (c : Connection size) (msgSize : ℕ)

/-- After `n` calls the loop goes on: an `int` holds the sum, and it is too small yet. -/
def Within (n : ℕ) : Prop := -2 ^ 31 ≤ c.total n ∧ c.total n < msgSize

/-- The `n`-th call is the first that takes the sum out of the range of the loop. -/
structure LastCall (n : ℕ) : Prop where
  pos : 1 ≤ n
  waits : ∀ k, 1 ≤ k → k < n → c.Within msgSize k
  out : ¬ c.Within msgSize n

/-- The message has come in by some call, without an error before. -/
def Whole : Prop := ∃ n, 1 ≤ n ∧ (∀ i < n, 0 ≤ c.read i) ∧ msgSize ≤ c.total n

/-- Errors keep the sum from ever reaching the size, on a connection that lives on. -/
def Starves : Prop := (∀ n, 1 ≤ n → c.Within msgSize n) ∧ ¬ c.Over

/-- Errors bring the sum below all values of an `int`, when the bytes received are as
many as the largest of these. -/
def WrapsAround : Prop :=
  ∃ n, c.LastCall msgSize n ∧ c.total n < -2 ^ 31 ∧ c.received n = 2 ^ 31 - 1

end Connection

section Sums

variable {size : ℕ} {c : Connection size} {msgSize n m : ℕ}

theorem receive_eq (i : ℕ) : c.receive i = c.read i := by
  rw [Connection.receive, receive, if_pos le_rfl]

theorem total_succ (n : ℕ) : c.total (n + 1) = c.total n + c.read n := by
  rw [Connection.total, Finset.sum_range_succ, ← Connection.total]

theorem total_one : c.total 1 = c.read 0 := by
  rw [Connection.total, Finset.sum_range_one]

theorem read_le_toNat (i : ℕ) : c.read i ≤ ((c.read i).toNat : ℤ) := Int.self_le_toNat _

/-- An error takes one byte off the sum. -/
theorem total_le_received (n : ℕ) : c.total n ≤ c.received n := by
  rw [Connection.total, Connection.received, Nat.cast_sum]
  exact Finset.sum_le_sum (fun i _ => read_le_toNat i)

theorem total_eq_received_iff : c.total n = c.received n ↔ ∀ i < n, 0 ≤ c.read i := by
  rw [Connection.total, Connection.received, Nat.cast_sum,
    Finset.sum_eq_sum_iff_of_le (fun i _ => read_le_toNat i)]
  constructor
  · intro h i hi
    have heq := h i (Finset.mem_range.mpr hi)
    omega
  · intro h i hi
    have hnonneg := h i (Finset.mem_range.mp hi)
    omega

theorem total_nonneg (h : ∀ i < n, 0 ≤ c.read i) : 0 ≤ c.total n :=
  Finset.sum_nonneg (fun i hi => h i (Finset.mem_range.mp hi))

/-- One call does not take the sum far out of the range of the loop. -/
theorem total_bounds (hn : 1 ≤ n) (hw : ∀ k, 1 ≤ k → k < n → c.Within msgSize k) :
    -2 ^ 31 - 1 ≤ c.total n ∧ c.total n ≤ msgSize + size := by
  obtain ⟨k, rfl⟩ := Nat.exists_eq_add_of_le' hn
  have hread := c.range k
  rw [total_succ]
  cases k with
  | zero =>
    rw [Connection.total, Finset.sum_range_zero]
    omega
  | succ k =>
    obtain ⟨hlow, hhigh⟩ := hw (k + 1) (by omega) (by omega)
    omega

theorem toInt_add (x y : ℤ) : toInt (toInt x + y) = toInt (x + y) := Int.bmod_add_bmod

theorem toInt_eq {x : ℤ} (hlow : -2 ^ 31 ≤ x) (hhigh : x < 2 ^ 31) : toInt x = x := by
  apply Int.bmod_eq_of_le_mul_two
  · norm_num
    omega
  · norm_num
    omega

theorem toInt_below : toInt (-2 ^ 31 - 1) = 2 ^ 31 - 1 := by decide

end Sums

section Leaving

variable {size : ℕ} {c : Connection size} {msgSize n m : ℕ} {w : Waiting}

/-- The variables after `n` calls. -/
def after (c : Connection size) (n : ℕ) : Waiting := ⟨n, toInt (c.total n)⟩

theorem bytesRead_after (n : ℕ) : (after c n).bytesRead = toInt (c.total n) := rfl

theorem addReceived_after (n : ℕ) : addReceived c (after c n) = after c (n + 1) := by
  rw [addReceived, after, after, receive_eq, toInt_add, total_succ]

theorem after_one : addReceived c ⟨0, 0⟩ = after c 1 := by
  rw [addReceived, after, receive_eq, Int.zero_add, total_one]

/-- The sum is out of the range of the loop in one of two ways. -/
theorem not_within_iff : ¬ c.Within msgSize n ↔ msgSize ≤ c.total n ∨ c.total n < -2 ^ 31 := by
  unfold Connection.Within
  omega

/-- There is only one last call. -/
theorem lastCall_unique (h : c.LastCall msgSize n) (h' : c.LastCall msgSize m) : n = m := by
  rcases lt_trichotomy n m with hlt | heq | hlt
  · exact absurd (h'.waits n h.pos hlt) h.out
  · exact heq
  · exact absurd (h.waits m h'.pos hlt) h'.out

/-- Without a last call the sum stays in the range of the loop for ever. -/
theorem within_of_no_lastCall (h : ∀ n, ¬ c.LastCall msgSize n) :
    ∀ n, 1 ≤ n → c.Within msgSize n := by
  intro n hn
  induction n using Nat.strong_induction_on with
  | _ n ih =>
    by_contra hout
    exact h n ⟨hn, fun k hk hlt => ih k hlt hk, hout⟩

/-- A message that comes in without an error has a last call. -/
theorem Connection.Whole.lastCall (h : c.Whole msgSize) :
    ∃ n, c.LastCall msgSize n ∧ (∀ i < n, 0 ≤ c.read i) ∧ msgSize ≤ c.total n := by
  classical
  obtain ⟨m, hm, hread, hle⟩ := h
  have hex : ∃ n, 1 ≤ n ∧ (msgSize : ℤ) ≤ c.total n := ⟨m, hm, hle⟩
  have hfirst : Nat.find hex ≤ m := Nat.find_min' hex ⟨hm, hle⟩
  obtain ⟨hpos, hfull⟩ := Nat.find_spec hex
  refine ⟨Nat.find hex, ⟨hpos, ?_, not_within_iff.mpr (Or.inl hfull)⟩,
    fun i hi => hread i (by omega), hfull⟩
  intro k hk hlt
  have hsmall := Nat.find_min hex hlt
  have hnonneg : 0 ≤ c.total k := total_nonneg (fun i hi => hread i (by omega))
  constructor
  · omega
  · by_contra hge
    exact hsmall ⟨hk, not_lt.mp hge⟩

variable (hsize : msgSize + size < 2 ^ 31)

include hsize in
/-- The test is made on the wrapped sum and comes out as on the exact one: where an `int`
does not hold the sum, it wraps to a value that ends the loop. -/
theorem after_lt_iff (hn : 1 ≤ n) (hw : ∀ k, 1 ≤ k → k < n → c.Within msgSize k) :
    (after c n).bytesRead < msgSize ↔ c.Within msgSize n := by
  obtain ⟨hlow, hhigh⟩ := total_bounds hn hw
  rw [bytesRead_after, Connection.Within]
  by_cases hfits : -2 ^ 31 ≤ c.total n
  · rw [toInt_eq hfits (by omega)]
    exact ⟨fun h => ⟨hfits, h⟩, fun h => h.2⟩
  · have hbelow : c.total n = -2 ^ 31 - 1 := by omega
    rw [hbelow, toInt_below]
    omega

include hsize in
theorem turn_again (hn : 1 ≤ n) (hw : ∀ k, 1 ≤ k → k < n → c.Within msgSize k)
    (hin : c.Within msgSize n) :
    (echoLoop c msgSize).turn (after c n) = .inl (after c (n + 1)) := by
  simp only [echoLoop, if_pos ((after_lt_iff hsize hn hw).mpr hin), addReceived_after]

include hsize in
theorem turn_last (h : c.LastCall msgSize n) :
    (echoLoop c msgSize).turn (after c n) = .inr (after c n) := by
  have hout := mt (after_lt_iff hsize h.pos h.waits).mp h.out
  simp only [echoLoop, if_neg hout]

/-- The variables are those after some number of calls, and the loop went on after all
of these but perhaps the last. -/
def Gone (c : Connection size) (msgSize : ℕ) (w : Waiting) : Prop :=
  ∃ n, 1 ≤ n ∧ (∀ k, 1 ≤ k → k < n → c.Within msgSize k) ∧ w = after c n

theorem gone_one : Gone c msgSize (after c 1) :=
  ⟨1, le_rfl, fun k hk hlt => absurd hlt (by omega), rfl⟩

include hsize in
theorem gone_again {w' : Waiting} (h : Gone c msgSize w)
    (hturn : (echoLoop c msgSize).turn w = .inl w') : Gone c msgSize w' := by
  obtain ⟨n, hn, hw, rfl⟩ := h
  have hin : c.Within msgSize n := by
    by_contra hout
    rw [turn_last hsize ⟨hn, hw, hout⟩] at hturn
    cases hturn
  rw [turn_again hsize hn hw hin] at hturn
  refine ⟨n + 1, by omega, ?_, (Sum.inl.inj hturn).symm⟩
  intro k hk hlt
  rcases Nat.lt_succ_iff_lt_or_eq.mp hlt with h | rfl
  · exact hw k hk h
  · exact hin

include hsize in
/-- The loop is left after the last call, if there is one. -/
theorem stops_iff : Stops c msgSize w ↔ ∃ n, c.LastCall msgSize n ∧ w = after c n := by
  rw [Stops, after_one]
  constructor
  · intro h
    obtain ⟨u, hu, hturn⟩ := h.invariant gone_one (fun u u' hu => gone_again hsize hu)
    obtain ⟨n, hn, hw, rfl⟩ := hu
    have hout : ¬ c.Within msgSize n := by
      intro hin
      rw [turn_again hsize hn hw hin] at hturn
      cases hturn
    rw [turn_last hsize ⟨hn, hw, hout⟩] at hturn
    exact ⟨n, ⟨hn, hw, hout⟩, (Sum.inr.inj hturn).symm⟩
  · rintro ⟨n, hlast, rfl⟩
    obtain ⟨m, rfl⟩ := Nat.exists_eq_add_of_le' hlast.pos
    have hgoes : ∀ k < m, (echoLoop c msgSize).turn (after c (k + 1)) =
        .inl (after c (k + 1 + 1)) := by
      intro k hk
      exact turn_again hsize (by omega) (fun j hj hlt => hlast.waits j hj (by omega))
        (hlast.waits (k + 1) (by omega) (by omega))
    rw [Loop.leaves_after (fun k => after c (k + 1)) hgoes]
    exact (Loop.leaves_done (turn_last hsize hlast)).mpr rfl

end Leaving

section Exactly

variable {size : ℕ} {c : Connection size} {msgSize n : ℕ} (hsize : msgSize + size < 2 ^ 31)

include hsize in
/-- A loop with a last call ends, and it is a matter of the counts at that call. -/
theorem endsAndCounts_of_lastCall (h : c.LastCall msgSize n) : EndsAndCounts c msgSize ↔
    msgSize ≤ c.received n ∧ toInt (c.total n) = c.received n := by
  have hstops : ∀ w, Stops c msgSize w ↔ w = after c n := by
    intro w
    rw [stops_iff hsize]
    constructor
    · rintro ⟨m, hm, rfl⟩
      rw [lastCall_unique h hm]
    · rintro rfl
      exact ⟨n, h, rfl⟩
  constructor
  · intro he
    exact ⟨he.arrived _ ((hstops _).mpr rfl), he.counted _ ((hstops _).mpr rfl)⟩
  · rintro ⟨harrived, hcounted⟩
    refine ⟨fun _ => ⟨after c n, (hstops _).mpr rfl⟩, ?_, ?_⟩
    · intro w hw
      rw [(hstops w).mp hw]
      exact harrived
    · intro w hw
      rw [(hstops w).mp hw]
      exact hcounted

include hsize in
/-- The counts are right without errors, or by a wrap around to the right number. -/
theorem counts_iff (h : c.LastCall msgSize n) :
    msgSize ≤ c.received n ∧ toInt (c.total n) = c.received n ↔
      (∀ i < n, 0 ≤ c.read i) ∧ msgSize ≤ c.total n ∨
        c.total n < -2 ^ 31 ∧ c.received n = 2 ^ 31 - 1 := by
  obtain ⟨hlow, hhigh⟩ := total_bounds h.pos h.waits
  have hle : c.total n ≤ c.received n := total_le_received n
  rw [← total_eq_received_iff]
  rcases not_within_iff.mp h.out with hfull | hbelow
  · rw [toInt_eq (by omega) (by omega)]
    omega
  · have hexact : c.total n = -2 ^ 31 - 1 := by omega
    rw [hexact, toInt_below]
    omega

/-- What the conditions on a connection say of its last call. -/
theorem conditions_of_lastCall (h : c.LastCall msgSize n) :
    c.Whole msgSize ∨ c.Starves msgSize ∨ c.WrapsAround msgSize ↔
      (∀ i < n, 0 ≤ c.read i) ∧ msgSize ≤ c.total n ∨
        c.total n < -2 ^ 31 ∧ c.received n = 2 ^ 31 - 1 := by
  constructor
  · rintro (hwhole | ⟨hwithin, -⟩ | ⟨m, hm, hlow, hall⟩)
    · obtain ⟨m, hm, hread, hle⟩ := hwhole.lastCall
      obtain rfl := lastCall_unique hm h
      exact Or.inl ⟨hread, hle⟩
    · exact absurd (hwithin n h.pos) h.out
    · obtain rfl := lastCall_unique hm h
      exact Or.inr ⟨hlow, hall⟩
  · rintro (⟨hread, hle⟩ | ⟨hlow, hall⟩)
    · exact Or.inl ⟨n, h.pos, hread, hle⟩
    · exact Or.inr (Or.inr ⟨n, h, hlow, hall⟩)

include hsize in
/-- A loop without a last call is never left, so it must not have to be. -/
theorem endsAndCounts_of_no_lastCall (h : ∀ n, ¬ c.LastCall msgSize n) :
    EndsAndCounts c msgSize ↔ ¬ c.Over := by
  have hnever : ∀ w, ¬ Stops c msgSize w := by
    intro w hw
    obtain ⟨n, hn, -⟩ := (stops_iff hsize).mp hw
    exact h n hn
  constructor
  · intro he hover
    obtain ⟨w, hw⟩ := he.ends hover
    exact hnever w hw
  · intro hlive
    exact ⟨fun hover => absurd hover hlive, fun w hw => absurd hw (hnever w),
      fun w hw => absurd hw (hnever w)⟩

theorem conditions_of_no_lastCall (h : ∀ n, ¬ c.LastCall msgSize n) :
    c.Whole msgSize ∨ c.Starves msgSize ∨ c.WrapsAround msgSize ↔ ¬ c.Over := by
  constructor
  · rintro (hwhole | hstarves | ⟨n, hn, -⟩)
    · obtain ⟨n, hn, -⟩ := hwhole.lastCall
      exact absurd hn (h n)
    · exact hstarves.2
    · exact absurd hn (h n)
  · intro hlive
    exact Or.inr (Or.inl ⟨within_of_no_lastCall h, hlive⟩)

end Exactly

section Clients

theorem ackSize_le (client : Client) : ackSize client ≤ maxMsgSize := by
  cases client <;> decide

/-- The loop of either client ends and counts as it should exactly when the message comes
in before an error and before the end of the connection; otherwise only by errors that
hold the loop up on a connection that lives on, or that make `bytesRead` wrap around to a
number that happens to be right. -/
theorem echo_counted_iff (client : Client) (c : Connection (ackSize client)) {msgSize : ℕ}
    (hmsg : msgSize ≤ maxMsgSize) : EndsAndCounts c msgSize ↔
      c.Whole msgSize ∨ c.Starves msgSize ∨ c.WrapsAround msgSize := by
  have hack := ackSize_le client
  have hmax : maxMsgSize = 1048576 := rfl
  have hsize : msgSize + ackSize client < 2 ^ 31 := by omega
  by_cases hlast : ∃ n, c.LastCall msgSize n
  · obtain ⟨n, hn⟩ := hlast
    rw [endsAndCounts_of_lastCall hsize hn, counts_iff hsize hn, conditions_of_lastCall hn]
  · have hnone := not_exists.mp hlast
    rw [endsAndCounts_of_no_lastCall hsize hnone, conditions_of_no_lastCall hnone]

/-- The server has closed the connection before the echo. -/
def closedEarly (size : ℕ) : Connection size where
  read := fun _ => 0
  waitForReadEvent := fun _ => true
  range := fun _ => ⟨by omega, Int.natCast_nonneg size⟩
  closed := fun _ h => h

theorem echo_counted_iff_oneByte :
    EndsAndCounts (closedEarly (ackSize .multiThreadTcpClient)) 1 ↔
      (closedEarly (ackSize .multiThreadTcpClient)).Whole 1 ∨
        (closedEarly (ackSize .multiThreadTcpClient)).Starves 1 ∨
          (closedEarly (ackSize .multiThreadTcpClient)).WrapsAround 1 :=
  echo_counted_iff .multiThreadTcpClient _ (by decide)

def Waiting.Empty (w : Waiting) : Prop := w.bytesRead = 0

/-- The client waits for one byte on a closed connection, and goes on for ever. -/
theorem closedEarly_spins : ¬ ∀ (client : Client) (c : Connection (ackSize client))
    (msgSize : ℕ), 1 ≤ msgSize → msgSize ≤ maxMsgSize → EndsAndCounts c msgSize := by
  intro h
  have hspec := h .multiStreamTcpClient (closedEarly _) 1 le_rfl (by decide)
  obtain ⟨w, hw⟩ := hspec.ends ⟨0, Or.inl (fun _ _ => rfl)⟩
  have hstay : ∀ u : Waiting, u.Empty → (addReceived (closedEarly maxMsgSize) u).Empty := by
    intro u hu
    rw [Waiting.Empty, addReceived, hu]
    rfl
  refine Loop.not_leaves (hstay ⟨0, 0⟩ rfl) ?_ hw
  intro u hu
  have hlt : u.bytesRead < (1 : ℕ) := by
    rw [hu]
    omega
  exact ⟨_, if_pos hlt, hstay u hu⟩

end Clients

end InfinibandWorkshop.ReceiveLoop
