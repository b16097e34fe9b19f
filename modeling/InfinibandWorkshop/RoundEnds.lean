import InfinibandWorkshop.MultithreadLoop
import InfinibandWorkshop.Progress

/-!
# A round comes to an end

Deliveries are bounded by what the two sides send, and what is polled and handled by
what was delivered. So neither program can be kept busy forever, by whatever order of
deliveries, polls and handlings, and since it is never stuck either, it ends with both
sides out of their loops.
-/
namespace InfinibandWorkshop.Verbs
open scoped BigOperators

section Rank

variable {n : ℕ} {Loc Ret : Type} {P : Role → Program n Loc Ret} {s t : State n Loc Ret}

/-- Messages of `X` that need no further delivery. -/
def State.settledMessages (s : State n Loc Ret) (X : Role) : ℕ :=
  ∑ q, (s.arrived X q + s.lost X q)

/-- What a host has done with its completions, and whether it has returned from its loop
with a failure. -/
def Host.workDone (h : Host n Loc Ret) : ℕ :=
  2 * h.handled.length + h.wc.length +
    match h.loop with
    | .ok _ => 0
    | .error _ => 1

def State.rank (s : State n Loc Ret) : ℕ :=
  s.settledMessages .client + s.settledMessages .server +
    ((s.host .client).workDone + (s.host .server).workDone)

theorem sum_bump_add_left (f g : Role → Fin n → ℕ) (X Y : Role) (q : Fin n) :
    ∑ r, (bump f X q Y r + g Y r) = ∑ r, (f Y r + g Y r) + if Y = X then 1 else 0 := by
  simp only [Finset.sum_add_distrib]
  by_cases hY : Y = X
  · subst Y
    rw [sum_bump_self, if_pos rfl]
    omega
  · rw [sum_bump_of_role_ne f q hY, if_neg hY]
    omega

theorem sum_bump_add_right (f g : Role → Fin n → ℕ) (X Y : Role) (q : Fin n) :
    ∑ r, (f Y r + bump g X q Y r) = ∑ r, (f Y r + g Y r) + if Y = X then 1 else 0 := by
  have hcomm := sum_bump_add_left g f X Y q
  simpa only [add_comm] using hcomm

/-- One more message of `X` is settled, and no host has less work behind it. -/
theorem rank_lt_of_settled {X : Role}
    (hm : ∀ Y, t.settledMessages Y = s.settledMessages Y + if Y = X then 1 else 0)
    (hw : ∀ Y, (t.host Y).workDone = (s.host Y).workDone) : s.rank < t.rank := by
  unfold State.rank
  rw [hm, hm, hw, hw]
  cases X <;> simp

/-- A host that gets on with its work raises the rank. -/
theorem rank_lt_of_workDone {X : Role} {h : Host n Loc Ret}
    (hw : (s.host X).workDone < h.workDone) : s.rank < (s.setHost X h).rank := by
  have hm : ∀ Y, (s.setHost X h).settledMessages Y = s.settledMessages Y := fun _ => rfl
  have hother : ∀ Y, Y ≠ X → (s.setHost X h).host Y = s.host Y :=
    fun Y hY => State.setHost_ne s h hY
  unfold State.rank
  rw [hm, hm]
  cases X with
  | client =>
    rw [State.setHost_self, hother .server (by decide)]
    omega
  | server =>
    rw [State.setHost_self, hother .client (by decide)]
    omega

theorem poll_le {X : Role} {k : ℕ} (h : step P s (.poll X k) = some t) :
    k ≤ (s.host X).cq.length := by
  simp only [step] at h
  split at h
  · split_ifs at h with hc
    exact hc.2.2.2.2
  · cases h

/-- A message that comes back completes the send with an error status. -/
theorem step_abort_eq {X : Role} {q : Fin n} (h : step P s (.abort X q) = some t) :
    ∃ w, t = { s.setHost X ((s.host X).complete w) with lost := bump s.lost X q } := by
  simp only [step] at h
  split at h
  · split_ifs at h
    exact ⟨_, (Option.some.inj h).symm⟩
  · cases h

theorem workDone_handled {h : Host n Loc Ret} {l : Loc} {w : IbvWc} {ws : List IbvWc}
    (hl : h.loop = .ok l) (hw : h.wc = w :: ws) (o : Outcome n Loc Ret) :
    h.workDone < (handled h o w ws).workDone := by
  cases ho : o.next with
  | ok l' =>
    simp only [Host.workDone, handled, ho, hl, hw, List.length_append, List.length_cons,
      List.length_nil]
    omega
  | error e =>
    simp only [Host.workDone, handled, ho, hl, hw]
    omega

/-- Every step of a system of two hosts raises the rank, whatever its programs do. -/
theorem rank_lt {a : Action n} (hst : step P s a = some t) : s.rank < t.rank := by
  cases a with
  | deliver X q =>
    obtain ⟨w, r, _, _, _, _, rfl⟩ := step_deliver hst
    apply rank_lt_of_settled (X := X)
    · exact fun Y => sum_bump_add_left s.arrived s.lost X Y q
    · intro Y
      rw [delivered_host]
      rfl
  | vanish X q =>
    obtain ⟨_, _, rfl⟩ := step_vanish hst
    exact rank_lt_of_settled (fun Y => sum_bump_add_right s.arrived s.lost X Y q) (fun _ => rfl)
  | abort X q =>
    obtain ⟨w, rfl⟩ := step_abort_eq hst
    apply rank_lt_of_settled (X := X)
    · exact fun Y => sum_bump_add_right s.arrived s.lost X Y q
    · intro Y
      by_cases hY : Y = X
      · subst Y
        exact (congrArg Host.workDone (State.setHost_self s X _)).trans rfl
      · exact congrArg Host.workDone (State.setHost_ne s _ hY)
  | poll X k =>
    obtain ⟨l, _, _, hw, hk, rfl⟩ := step_poll hst
    have hlen := poll_le hst
    apply rank_lt_of_workDone
    simp only [Host.workDone, hw, List.length_nil, List.length_take]
    omega
  | handle X =>
    obtain ⟨l, w, ws, hl, hw, rfl⟩ := step_handle hst
    exact rank_lt_of_workDone (workDone_handled hl hw _)

theorem climbs (ok : State n Loc Ret → Action n → Prop) : (system P).Climbs ok State.rank :=
  fun _ _ _ _ _ hst => rank_lt hst

variable {B : ℕ}

/-- Completions come from deliveries, one at each side. -/
theorem completions_length_le (hb : Balanced P s) (hs : ∀ X, ∑ q, s.sends X q ≤ B) (X : Role) :
    (s.host X).completions.length ≤ 2 * B := by
  have hnum : ∀ w ∈ (s.host X).completions, ∃ q, w.qpNum = (P X).qpNum q := by
    intro w hw
    obtain ⟨_, q, hq, _⟩ := hb.reports X w hw
    exact ⟨q, hq⟩
  have harr : ∀ Y, ∑ q, s.arrived Y q ≤ B :=
    fun Y => (Finset.sum_le_sum (fun q _ => Nat.le_of_add_right_le (hb.sent Y q))).trans (hs Y)
  calc (s.host X).completions.length
      = ∑ q, (s.arrived X q + s.arrived X.peer q) := by
        rw [length_eq_sum_count (P X) hnum]
        exact Finset.sum_congr rfl (fun q _ => by rw [hb.acks, hb.msgs])
    _ ≤ 2 * B := by
        rw [Finset.sum_add_distrib]
        have hX := harr X
        have hY := harr X.peer
        omega

/-- The rank of two hosts that have not failed is bounded by what they send. -/
theorem rank_le (hb : Balanced P s) (hs : ∀ X, ∑ q, s.sends X q ≤ B)
    (hl : ∀ X, ∃ l, (s.host X).loop = .ok l) : s.rank ≤ 10 * B := by
  have hmsg : ∀ X, s.settledMessages X ≤ B :=
    fun X => (Finset.sum_le_sum (fun q _ => hb.sent X q)).trans (hs X)
  have hwork : ∀ X, (s.host X).workDone ≤ 4 * B := by
    intro X
    obtain ⟨l, hl⟩ := hl X
    have hlen := completions_length_le hb hs X
    simp only [Host.completions, List.length_append] at hlen
    simp only [Host.workDone, hl]
    omega
  have hm₁ := hmsg .client
  have hm₂ := hmsg .server
  have hw₁ := hwork .client
  have hw₂ := hwork .server
  unfold State.rank
  omega

/-- Where somebody can proceed the system is not stuck. -/
theorem CanProceed.not_stuck {ok : State n Loc Ret → Action n → Prop} (h : CanProceed P s)
    (hd : ∀ X q, ok s (.deliver X q)) (hp : ∀ X k, ok s (.poll X k))
    (hh : ∀ X, ok s (.handle X)) : ¬ (system P).Stuck ok s := by
  by_cases hw : ∀ X, (s.host X).wc = []
  · rcases h.between hw with ⟨X, q, _, he⟩ | ⟨X, _, _, he⟩
    · exact Machine.not_stuck_of_enabled (hd X q) he
    · exact Machine.not_stuck_of_enabled (hp X 1) he
  · push Not at hw
    obtain ⟨X, hX⟩ := hw
    exact Machine.not_stuck_of_enabled (hh X) (h.batch X hX)

end Rank

end InfinibandWorkshop.Verbs

namespace InfinibandWorkshop.Multistream
open Verbs
open scoped BigOperators

variable {c : Config} {s : c.State}

/-- Both sides have left their loops. -/
def AllLeft (c : Config) (s : c.State) : Prop := ∀ X, (s.host X).Left (c.program X)

theorem rank_le (h : c.Reaches s) : s.rank ≤ 10 * (c.iters + c.peerNum - 1) := by
  obtain ⟨L, _, hc⟩ := h.accounted
  apply Verbs.rank_le hc.balanced
  · intro X
    exact (Finset.sum_congr rfl (fun q _ => (hc.sent X q).symm)).trans_le (sum_sent_le L X)
  · intro X
    obtain ⟨l, hl, _⟩ := hc.tracks X
    exact ⟨l, hl⟩

/-- A round ends: no run has more steps than the bound, and one that cannot be continued
has got both sides out of their loops. Completion queues have no limit here; `CqFits` says
where that of the source is never full. -/
theorem round_ends (c : Config) :
    c.system.Completes Silent (10 * (c.iters + c.peerNum - 1)) (AllLeft c) := by
  apply Machine.completes (climbs Silent)
  · exact fun s hs => rank_le hs
  · intro s hs hn
    unfold AllLeft at hn
    push Not at hn
    obtain ⟨L, _, hc⟩ := Config.Reaches.accounted hs
    exact (hc.canProceed hn).not_stuck (fun _ _ => trivial) (fun _ _ => trivial)
      (fun _ => trivial)

end InfinibandWorkshop.Multistream

namespace InfinibandWorkshop.Multithread
open Verbs
open scoped BigOperators

variable {c : Config} {s : State}

/-- Neither thread ever returns from its loop with a failure. -/
theorem running (h : c.system.ReachableBy Silent s) (X : Role) :
    ∃ l, (s.host X).loop = .ok l := by
  obtain ⟨L, _, hc⟩ := (reaches_single h).accounted
  obtain ⟨l', hl', _⟩ := hc.tracks X
  cases hl : (s.host X).loop with
  | ok l => exact ⟨l, rfl⟩
  | error e =>
    have hmap : ((s.map Locals.spread Exit.spread).host X).loop = .error e.spread :=
      Host.map_loop_error hl
    cases hmap.symm.trans hl'

theorem sum_sends_le (h : c.system.Reachable s) (X : Role) : ∑ q, s.sends X q ≤ c.iters := by
  rw [Fin.sum_univ_one]
  exact Multistream.sends_le rfl (reaches_single (reachableBy_silent h)) X (0 : Fin 1)

theorem rank_le (h : c.system.Reachable s) : s.rank ≤ 10 * c.iters :=
  Verbs.rank_le (balanced_of_reachable (reachableBy_silent h)) (sum_sends_le h)
    (running (reachableBy_silent h))

/-- Both threads have left their loops, and each has got what the other sent, `iters`
messages either way. -/
structure Played (c : Config) (s : State) : Prop where
  left : ∀ X, (s.host X).Left (c.program X)
  arrived : ∀ X, s.sends X 0 = c.iters ∧ s.arrived X 0 = c.iters

/-- Short of that, somebody can proceed, as in the other program. -/
theorem canProceed_of_not_played (h : c.system.Reachable s) (hn : ¬ Played c s) :
    CanProceed c.program s := by
  have hs := reachableBy_silent h
  have hstay : ∃ X, ¬ (s.host X).Left (c.program X) := by
    by_contra hall
    push Not at hall
    exact hn ⟨hall, fun Y => (drained_of_left hs (hall .client) Y).symm⟩
  obtain ⟨X, hX⟩ := hstay
  obtain ⟨L, _, hc⟩ := (reaches_single hs).accounted
  apply Matches.canProceed (program_matches c) hs
  exact hc.canProceed ⟨X, fun hl => hX ((program_matches c X).left_iff.mp hl)⟩

theorem not_stuck (h : c.system.Reachable s) (hn : ¬ Played c s) :
    ¬ c.system.Stuck (fun _ _ => True) s :=
  (canProceed_of_not_played h hn).not_stuck (fun _ _ => trivial) (fun _ _ => trivial)
    (fun _ => trivial)

/-- A round of one client thread and its server thread ends, whatever the network does. -/
theorem thread_round_ends (c : Config) :
    c.system.Completes (fun _ _ => True) (10 * c.iters) (Played c) :=
  Machine.completes (climbs _) (fun _ h => rank_le h) (fun _ h hn => not_stuck h hn)

end InfinibandWorkshop.Multithread
