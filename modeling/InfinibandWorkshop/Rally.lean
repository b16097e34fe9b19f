import InfinibandWorkshop.Machine

/-!
# Rallies on parallel channels

Two parties play a rally on each of finitely many channels: the client serves,
and from then on each party may send on a channel once it has got the peer's
last message and its own last send has been acknowledged. Neither party waits
for all channels; it stops answering once its acknowledged sends, summed over
every channel, reach a common quota. A tally counts what happened; a ledger is a
tally that such a game can produce, carried with the laws that make it one.
-/
namespace InfinibandWorkshop.Rally
open scoped BigOperators

/-- Event counters, for each party and channel: messages sent, arrived at the
peer and lost, acknowledgements handled, and messages of the peer handled. -/
@[ext] structure Tally (ι : Type*) where
  sent : Role → ι → ℕ
  arrived : Role → ι → ℕ
  lost : Role → ι → ℕ
  acked : Role → ι → ℕ
  got : Role → ι → ℕ

/-- The peer opens towards the server, so the server is owed one message more. -/
def serve : Role → ℕ
  | .client => 0
  | .server => 1

variable {ι : Type*}

namespace Tally

/-- How many messages the party has got once its peer has made its next move. -/
def due (t : Tally ι) (X : Role) (q : ι) : ℕ := t.sent X q + serve X

def AwaitsAck (t : Tally ι) (X : Role) (q : ι) : Prop := t.acked X q < t.sent X q

def AwaitsMsg (t : Tally ι) (X : Role) (q : ι) : Prop := t.got X q < t.due X q

instance (t : Tally ι) (X : Role) (q : ι) : Decidable (t.AwaitsAck X q) :=
  inferInstanceAs (Decidable (_ < _))

instance (t : Tally ι) (X : Role) (q : ι) : Decidable (t.AwaitsMsg X q) :=
  inferInstanceAs (Decidable (_ < _))

/-- The channel waits for nothing: the party may send, unless the quota is met. -/
def Idle (t : Tally ι) (X : Role) (q : ι) : Prop := ¬ t.AwaitsMsg X q ∧ ¬ t.AwaitsAck X q

instance (t : Tally ι) (X : Role) (q : ι) : Decidable (t.Idle X q) :=
  inferInstanceAs (Decidable (_ ∧ _))

variable [DecidableEq ι]

def deliver (t : Tally ι) (X : Role) (q : ι) : Tally ι :=
  { t with arrived := bump t.arrived X q }

def lose (t : Tally ι) (X : Role) (q : ι) : Tally ι :=
  { t with lost := bump t.lost X q }

def countAck (t : Tally ι) (X : Role) (q : ι) : Tally ι :=
  { t with acked := bump t.acked X q }

def countMsg (t : Tally ι) (X : Role) (q : ι) : Tally ι :=
  { t with got := bump t.got X q }

variable [Fintype ι]

/-- A send, where the channel is idle and the quota is not yet met. -/
def answer (t : Tally ι) (quota : ℕ) (X : Role) (q : ι) : Tally ι :=
  if (∑ r, t.acked X r) < quota ∧ t.Idle X q then { t with sent := bump t.sent X q } else t

section

variable (t : Tally ι) (quota : ℕ) (X Y : Role) (q r : ι)

theorem answer_sent : (t.answer quota X q).sent Y r =
    if ((∑ u, t.acked X u) < quota ∧ t.Idle X q) ∧ Y = X ∧ r = q then t.sent Y r + 1
    else t.sent Y r := by
  unfold answer
  split_ifs with hc h h
  · simp [bump, h.2]
  · exact if_neg (fun he => h ⟨hc, he⟩)
  · exact absurd h.1 hc
  · rfl

@[simp] theorem answer_arrived : (t.answer quota X q).arrived = t.arrived := by
  unfold answer; split_ifs <;> rfl

@[simp] theorem answer_lost : (t.answer quota X q).lost = t.lost := by
  unfold answer; split_ifs <;> rfl

@[simp] theorem answer_acked : (t.answer quota X q).acked = t.acked := by
  unfold answer; split_ifs <;> rfl

@[simp] theorem answer_got : (t.answer quota X q).got = t.got := by
  unfold answer; split_ifs <;> rfl

end

def ack (t : Tally ι) (quota : ℕ) (X : Role) (q : ι) : Tally ι :=
  (t.countAck X q).answer quota X q

def receive (t : Tally ι) (quota : ℕ) (X : Role) (q : ι) : Tally ι :=
  (t.countMsg X q).answer quota X q

end Tally

/-- The laws of the game. `busy` names a channel end at which an event has just
been counted and not yet been answered; only there may an idle channel be found
before the quota is met. -/
structure Lawful [Fintype ι] (quota : ℕ) (busy : Option (Role × ι)) (t : Tally ι) : Prop where
  acked_le : ∀ X q, t.acked X q ≤ t.arrived X q
  arrived_le : ∀ X q, t.arrived X q + t.lost X q ≤ t.sent X q
  got_le : ∀ X q, t.got X q ≤ t.arrived X.peer q
  sent_le : ∀ X q, t.sent X q ≤ t.acked X q + 1
  got_le_due : ∀ X q, t.got X q ≤ t.due X q
  due_le : ∀ X q, t.due X q ≤ t.got X q + 1
  cutoff : ∀ X q, busy ≠ some (X, q) → t.Idle X q → quota ≤ ∑ r, t.acked X r
  total : ∀ X, (∑ r, t.sent X r) + 1 ≤ quota + Fintype.card ι

section Lawful

variable [Fintype ι] {quota : ℕ} {busy : Option (Role × ι)} {t : Tally ι}

/-- The server never leads, and the client leads by at most one message. -/
theorem Lawful.alternates (h : Lawful quota busy t) (q : ι) :
    t.sent .server q ≤ t.sent .client q ∧ t.sent .client q ≤ t.sent .server q + 1 := by
  have hc := h.due_le .client q
  have hs := h.due_le .server q
  have gc := h.got_le .client q
  have gs := h.got_le .server q
  have ac := h.arrived_le .client q
  have as := h.arrived_le .server q
  simp only [Tally.due, serve, Role.peer] at *
  omega

/-- At most one message of the peer has arrived and is not yet handled. -/
theorem Lawful.arrived_le_got (h : Lawful quota busy t) (X : Role) (q : ι) :
    t.arrived X.peer q ≤ t.got X q + 1 := by
  have ha := h.alternates q
  have hd := h.due_le X q
  have hp := h.arrived_le X.peer q
  cases X <;> simp only [Tally.due, serve, Role.peer] at * <;> omega

theorem Lawful.arrived_le_acked (h : Lawful quota busy t) (X : Role) (q : ι) :
    t.arrived X q ≤ t.acked X q + 1 := by
  have hs := h.sent_le X q
  have ha := h.arrived_le X q
  omega

/-- A message that has arrived was still awaited. -/
theorem Lawful.awaitsMsg_of_got_lt (h : Lawful quota busy t) {X : Role} {q : ι}
    (hg : t.got X q < t.arrived X.peer q) : t.AwaitsMsg X q := by
  have ha := h.alternates q
  have hp := h.arrived_le X.peer q
  unfold Tally.AwaitsMsg
  cases X <;> simp only [Tally.due, serve, Role.peer] at * <;> omega

/-- With one channel free of unacknowledged sends, the others hold at most one each. -/
theorem Lawful.sum_sent_le (h : Lawful quota busy t) {X : Role} {q : ι}
    (hq : t.sent X q ≤ t.acked X q) :
    (∑ r, t.sent X r) + 1 ≤ (∑ r, t.acked X r) + Fintype.card ι := by
  classical
  have hle : ∀ r, t.sent X r + (if r = q then 1 else 0) ≤ t.acked X r + 1 := by
    intro r
    have hs := h.sent_le X r
    by_cases hr : r = q
    · subst r; simpa using hq
    · simpa [hr] using hs
  have hsum := Finset.sum_le_sum (fun r (_ : r ∈ Finset.univ) => hle r)
  simpa [Finset.sum_add_distrib] using hsum

/-- Answering restores the law of the cut-off at the end that was busy. -/
theorem Lawful.answer [DecidableEq ι] {X : Role} {q : ι}
    (h : Lawful quota (some (X, q)) t) : Lawful quota none (t.answer quota X q) := by
  unfold Tally.answer
  split_ifs with hc
  · obtain ⟨hlt, hmsg, hack⟩ := hc
    simp only [Tally.AwaitsMsg, Tally.AwaitsAck, not_lt] at hmsg hack
    have hgd := h.got_le_due X q
    have hsl := h.sum_sent_le hack
    refine ⟨h.acked_le, ?_, h.got_le, ?_, ?_, ?_, ?_, ?_⟩
    · intro Y r
      exact (h.arrived_le Y r).trans (le_bump _ _ _ _ _)
    · intro Y r
      have hs := h.sent_le Y r
      simp only [bump]
      split_ifs with he
      · obtain ⟨rfl, rfl⟩ := he; omega
      · exact hs
    · intro Y r
      exact (h.got_le_due Y r).trans (Nat.add_le_add_right (le_bump _ _ _ _ _) _)
    · intro Y r
      have hd := h.due_le Y r
      simp only [Tally.due, bump] at *
      split_ifs with he
      · obtain ⟨rfl, rfl⟩ := he; omega
      · exact hd
    · intro Y r _ hidle
      by_cases he : Y = X ∧ r = q
      · obtain ⟨rfl, rfl⟩ := he
        have hg := h.acked_le Y r
        have ha := h.arrived_le Y r
        simp only [Tally.Idle, Tally.AwaitsAck, bump_self, not_lt] at hidle
        omega
      · refine h.cutoff Y r ?_ ?_
        · rintro ⟨rfl⟩
          exact he ⟨rfl, rfl⟩
        · simpa only [Tally.Idle, Tally.AwaitsMsg, Tally.AwaitsAck, Tally.due, bump, if_neg he]
            using hidle
    · intro Y
      by_cases hY : Y = X
      · subst Y
        simp only [sum_bump_self]
        omega
      · simp only [sum_bump_of_role_ne _ _ hY]
        exact h.total Y
  · refine { h with cutoff := ?_ }
    intro Y r _ hidle
    by_cases he : Y = X ∧ r = q
    · obtain ⟨rfl, rfl⟩ := he
      by_contra hlt
      exact hc ⟨not_le.mp hlt, hidle⟩
    · exact h.cutoff Y r (by rintro ⟨rfl⟩; exact he ⟨rfl, rfl⟩) hidle

variable [DecidableEq ι]

theorem Lawful.deliver (h : Lawful quota none t) {X : Role} {q : ι}
    (hf : t.arrived X q + t.lost X q < t.sent X q) : Lawful quota none (t.deliver X q) := by
  refine ⟨?_, ?_, ?_, h.sent_le, h.got_le_due, h.due_le, h.cutoff, h.total⟩
  · intro Y r
    exact (h.acked_le Y r).trans (le_bump _ _ _ _ _)
  · intro Y r
    have ha := h.arrived_le Y r
    simp only [Tally.deliver, bump]
    split_ifs with he
    · obtain ⟨rfl, rfl⟩ := he; omega
    · exact ha
  · intro Y r
    exact (h.got_le Y r).trans (le_bump _ _ _ _ _)

theorem Lawful.lose (h : Lawful quota none t) {X : Role} {q : ι}
    (hf : t.arrived X q + t.lost X q < t.sent X q) : Lawful quota none (t.lose X q) := by
  refine ⟨h.acked_le, ?_, h.got_le, h.sent_le, h.got_le_due, h.due_le, h.cutoff, h.total⟩
  intro Y r
  have ha := h.arrived_le Y r
  simp only [Tally.lose, bump]
  split_ifs with he
  · obtain ⟨rfl, rfl⟩ := he; omega
  · exact ha

theorem Lawful.countAck (h : Lawful quota none t) {X : Role} {q : ι}
    (ha : t.acked X q < t.arrived X q) : Lawful quota (some (X, q)) (t.countAck X q) := by
  refine ⟨?_, h.arrived_le, h.got_le, ?_, h.got_le_due, h.due_le, ?_, h.total⟩
  · intro Y r
    have hl := h.acked_le Y r
    simp only [Tally.countAck, bump]
    split_ifs with he
    · obtain ⟨rfl, rfl⟩ := he; omega
    · exact hl
  · intro Y r
    exact (h.sent_le Y r).trans (Nat.add_le_add_right (le_bump _ _ _ _ _) 1)
  · intro Y r hbusy hidle
    have he : ¬ (Y = X ∧ r = q) := by
      rintro ⟨rfl, rfl⟩
      exact hbusy rfl
    refine (h.cutoff Y r (by simp) ?_).trans (sum_le_sum_bump _ _ _ _)
    simpa only [Tally.countAck, Tally.Idle, Tally.AwaitsMsg, Tally.AwaitsAck, Tally.due, bump,
      if_neg he] using hidle

theorem Lawful.countMsg (h : Lawful quota none t) {X : Role} {q : ι}
    (hg : t.got X q < t.arrived X.peer q) : Lawful quota (some (X, q)) (t.countMsg X q) := by
  have hw := h.awaitsMsg_of_got_lt hg
  refine ⟨h.acked_le, h.arrived_le, ?_, h.sent_le, ?_, ?_, ?_, h.total⟩
  · intro Y r
    have hl := h.got_le Y r
    simp only [Tally.countMsg, bump]
    split_ifs with he
    · obtain ⟨rfl, rfl⟩ := he; omega
    · exact hl
  · intro Y r
    have hl := h.got_le_due Y r
    simp only [Tally.countMsg, bump]
    split_ifs with he
    · obtain ⟨rfl, rfl⟩ := he; exact hw
    · exact hl
  · intro Y r
    exact (h.due_le Y r).trans (Nat.add_le_add_right (le_bump _ _ _ _ _) 1)
  · intro Y r hbusy hidle
    have he : ¬ (Y = X ∧ r = q) := by
      rintro ⟨rfl, rfl⟩
      exact hbusy rfl
    refine h.cutoff Y r (by simp) ?_
    simpa only [Tally.countMsg, Tally.Idle, Tally.AwaitsMsg, Tally.AwaitsAck, Tally.due, bump,
      if_neg he] using hidle

end Lawful

/-- A tally with the laws it obeys. -/
structure Ledger (ι : Type*) [Fintype ι] (quota : ℕ) extends Tally ι where
  lawful : Lawful quota none toTally

inductive Move (ι : Type*)
  | deliver (X : Role) (q : ι)
  | lose (X : Role) (q : ι)
  | ack (X : Role) (q : ι)
  | receive (X : Role) (q : ι)

namespace Ledger

variable [Fintype ι] {quota : ℕ}

/-- The client has served on every channel and nothing else has happened. -/
def opening (ι : Type*) [Fintype ι] {quota : ℕ} (hq : 1 ≤ quota) : Ledger ι quota where
  sent := fun X _ => 1 - serve X
  arrived := fun _ _ => 0
  lost := fun _ _ => 0
  acked := fun _ _ => 0
  got := fun _ _ => 0
  lawful := by
    refine ⟨?_, ?_, ?_, ?_, ?_, ?_, ?_, ?_⟩
    all_goals intro X
    all_goals cases X <;> simp [Tally.due, Tally.Idle, Tally.AwaitsMsg, Tally.AwaitsAck, serve]
    all_goals omega

variable [DecidableEq ι]

/-- One move of the game; `none` when it is not open in this state. -/
def step (L : Ledger ι quota) : Move ι → Option (Ledger ι quota)
  | .deliver X q =>
    if h : L.arrived X q + L.lost X q < L.sent X q then
      some ⟨L.toTally.deliver X q, L.lawful.deliver h⟩
    else none
  | .lose X q =>
    if h : L.arrived X q + L.lost X q < L.sent X q then
      some ⟨L.toTally.lose X q, L.lawful.lose h⟩
    else none
  | .ack X q =>
    if h : L.acked X q < L.arrived X q then
      some ⟨L.toTally.ack quota X q, (L.lawful.countAck h).answer⟩
    else none
  | .receive X q =>
    if h : L.got X q < L.arrived X.peer q then
      some ⟨L.toTally.receive quota X q, (L.lawful.countMsg h).answer⟩
    else none

end Ledger

/-- The abstract game that the ping-pong loops implement. -/
def game (ι : Type*) [Fintype ι] [DecidableEq ι] {quota : ℕ} (hq : 1 ≤ quota) :
    Machine (Ledger ι quota) (Move ι) where
  init := Ledger.opening ι hq
  step := Ledger.step

section Outcome

variable [Fintype ι] {quota : ℕ}

namespace Ledger

/-- The party's acknowledged sends and handled messages both meet the quota. -/
def Finished (L : Ledger ι quota) (X : Role) : Prop :=
  quota ≤ ∑ q, L.acked X q ∧ quota ≤ ∑ q, L.got X q

/-- Whatever arrived for the party has been handled. -/
def Settled (L : Ledger ι quota) (X : Role) : Prop :=
  ∀ q, L.acked X q = L.arrived X q ∧ L.got X q = L.arrived X.peer q

theorem sum_acked_le (L : Ledger ι quota) (X : Role) :
    ∑ q, L.acked X q ≤ ∑ q, L.arrived X q :=
  Finset.sum_le_sum (fun q _ => L.lawful.acked_le X q)

theorem sum_got_le (L : Ledger ι quota) (X : Role) :
    ∑ q, L.got X q ≤ ∑ q, L.arrived X.peer q :=
  Finset.sum_le_sum (fun q _ => L.lawful.got_le X q)

theorem sum_arrived_le (L : Ledger ι quota) (X : Role) :
    ∑ q, L.arrived X q ≤ ∑ q, L.sent X q :=
  Finset.sum_le_sum (fun q _ => (Nat.le_add_right _ _).trans (L.lawful.arrived_le X q))

theorem Settled.sums {L : Ledger ι quota} {X : Role} (h : L.Settled X) :
    ∑ q, L.acked X q = ∑ q, L.arrived X q ∧ ∑ q, L.got X q = ∑ q, L.arrived X.peer q :=
  ⟨Finset.sum_congr rfl (fun q _ => (h q).1), Finset.sum_congr rfl (fun q _ => (h q).2)⟩

/-- Once one party is finished, the other needs only what has already arrived. -/
theorem finished_of_peer {L : Ledger ι quota} {X : Role} (hp : L.Finished X.peer)
    (hs : L.Settled X) : L.Finished X := by
  obtain ⟨ha, hg⟩ := hs.sums
  have hgot := L.sum_got_le X.peer
  have hack := L.sum_acked_le X.peer
  rw [Role.peer_peer] at hgot
  exact ⟨(hp.2.trans hgot).trans_eq ha.symm, (hp.1.trans hack).trans_eq hg.symm⟩

/-- When everything sent has arrived and been handled, one end of every channel
is idle, so the quota was met there, and the game is over for both parties. -/
theorem finished_of_settled [Nonempty ι] {L : Ledger ι quota}
    (hw : ∀ X q, L.arrived X q = L.sent X q) (hs : ∀ X, L.Settled X) (X : Role) :
    L.Finished X := by
  have hsum : ∀ Y, ∑ q, L.arrived Y q = ∑ q, L.sent Y q :=
    fun Y => Finset.sum_congr rfl (fun q _ => hw Y q)
  have hle : ∑ q, L.sent .server q ≤ ∑ q, L.sent .client q :=
    Finset.sum_le_sum (fun q _ => (L.lawful.alternates q).1)
  have hquota : quota ≤ ∑ q, L.sent .server q := by
    by_cases hidle : ∃ q, L.sent .client q = L.sent .server q + 1
    · -- the client spoke last on `q`: the server let the rally on `q` end
      obtain ⟨q, hq⟩ := hidle
      refine (L.lawful.cutoff .server q (by simp) ⟨?_, ?_⟩).trans_eq ?_
      · have hg := (hs .server q).2
        have ha := hw .client q
        simp only [Tally.AwaitsMsg, Tally.due, serve, Role.peer] at *
        omega
      · have hg := (hs .server q).1
        have ha := hw .server q
        simp only [Tally.AwaitsAck]
        omega
      · rw [(hs .server).sums.1, hsum]
    · -- the server spoke last everywhere: the client let every rally end
      have heq : ∀ q, L.sent .client q = L.sent .server q := by
        intro q
        have ha := L.lawful.alternates q
        have hne : L.sent .client q ≠ L.sent .server q + 1 := fun he => hidle ⟨q, he⟩
        omega
      obtain ⟨q⟩ := ‹Nonempty ι›
      refine (L.lawful.cutoff .client q (by simp) ⟨?_, ?_⟩).trans_eq ?_
      · have hg := (hs .client q).2
        have ha := hw .server q
        have hq := heq q
        simp only [Tally.AwaitsMsg, Tally.due, serve, Role.peer] at *
        omega
      · have hg := (hs .client q).1
        have ha := hw .client q
        simp only [Tally.AwaitsAck]
        omega
      · rw [(hs .client).sums.1, hsum]
        exact Finset.sum_congr rfl (fun r _ => heq r)
  obtain ⟨ha, hg⟩ := (hs X).sums
  have hc := hsum .client
  have hv := hsum .server
  cases X <;> simp only [Finished, Role.peer] at * <;> omega

/-- On a single channel a finished party has left nothing in flight: both sides
have sent exactly the quota, and all of it has arrived. -/
theorem Finished.drained [Unique ι] {L : Ledger ι quota} {X : Role} (h : L.Finished X)
    (Y : Role) (q : ι) : L.arrived Y q = quota ∧ L.sent Y q = quota := by
  have hsum : ∀ f : ι → ℕ, ∑ r, f r = f q := by
    intro f
    rw [Unique.eq_default q]
    exact Fintype.sum_unique f
  have htot := L.lawful.total Y
  have ha := L.lawful.arrived_le Y q
  have hack := L.lawful.acked_le X q
  have hgot := L.lawful.got_le X q
  simp only [Finished, hsum, Fintype.card_unique] at *
  by_cases hY : Y = X
  · subst Y; omega
  · obtain rfl := Role.eq_peer_of_ne hY
    omega

end Ledger
end Outcome

end InfinibandWorkshop.Rally
