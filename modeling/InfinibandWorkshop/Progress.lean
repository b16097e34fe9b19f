import InfinibandWorkshop.Machine

/-!
# Machines whose runs come to an end

A rank that every permitted step raises bounds the length of the runs. If besides a
machine is never stuck short of its goal, then every run, however its steps are chosen,
can only be continued until the goal is met.
-/
namespace InfinibandWorkshop.Machine

variable {σ α : Type*} {m : Machine σ α} {ok : σ → α → Prop} {rank : σ → ℕ} {bound : ℕ}
  {Goal : σ → Prop}

/-- A permitted step from a state that can be reached raises the rank. -/
def Climbs (m : Machine σ α) (ok : σ → α → Prop) (rank : σ → ℕ) : Prop :=
  ∀ s a t, m.ReachableBy ok s → ok s a → m.step s a = some t → rank s < rank t

theorem Climbs.length_le (hc : m.Climbs ok rank) {as : List α} {s : σ} (h : m.Run ok as s) :
    as.length ≤ rank s := by
  induction h with
  | start => exact Nat.zero_le _
  | @next as s t a hr hok hst ih =>
    have hlt := hc s a t ⟨as, hr⟩ hok hst
    rw [List.length_append, List.length_singleton]
    omega

/-- No permitted step can be taken. -/
def Stuck (m : Machine σ α) (ok : σ → α → Prop) (s : σ) : Prop :=
  ∀ a t, ok s a → m.step s a ≠ some t

theorem not_stuck_of_enabled {s : σ} {a : α} (hok : ok s a) (h : m.Enabled s a) :
    ¬ m.Stuck ok s := by
  obtain ⟨t, ht⟩ := h
  exact fun hs => hs a t hok ht

/-- Permitted runs have at most `bound` steps, and one that cannot be continued has met
the goal. -/
structure Completes (m : Machine σ α) (ok : σ → α → Prop) (bound : ℕ) (Goal : σ → Prop) :
    Prop where
  length_le : ∀ {as s}, m.Run ok as s → as.length ≤ bound
  goal : ∀ {s}, m.ReachableBy ok s → m.Stuck ok s → Goal s

/-- The rule: a rank that climbs, a bound on it, and progress short of the goal. -/
theorem completes (hc : m.Climbs ok rank) (hb : ∀ s, m.ReachableBy ok s → rank s ≤ bound)
    (hp : ∀ s, m.ReachableBy ok s → ¬ Goal s → ¬ m.Stuck ok s) : m.Completes ok bound Goal where
  length_le h := (hc.length_le h).trans (hb _ ⟨_, h⟩)
  goal hr hs := by_contra fun hn => hp _ hr hn hs

/-- What follows from the goal is met as well. -/
theorem Completes.mono {Goal' : σ → Prop} (h : m.Completes ok bound Goal)
    (himp : ∀ s, m.ReachableBy ok s → Goal s → Goal' s) : m.Completes ok bound Goal' where
  length_le := h.length_le
  goal hr hs := himp _ hr (h.goal hr hs)

/-- Whatever has been done so far, going on leads to the goal, and to a state of which still
holds what no permitted step changes. -/
theorem Completes.extends {P : σ → Prop} (h : m.Completes ok bound Goal)
    (hkeep : ∀ s a t, P s → ok s a → m.step s a = some t → P t) {as : List α} {s : σ}
    (hr : m.Run ok as s) (hs : P s) :
    ∃ bs t, m.Run ok (as ++ bs) t ∧ m.Stuck ok t ∧ Goal t ∧ P t := by
  -- on the steps that the bound leaves
  induction hk : bound - as.length using Nat.strong_induction_on generalizing as s with
  | _ k ih =>
    by_cases hstuck : m.Stuck ok s
    · exact ⟨[], s, by simpa using hr, hstuck, h.goal ⟨as, hr⟩ hstuck, hs⟩
    · unfold Stuck at hstuck
      push Not at hstuck
      obtain ⟨a, t, hok, hst⟩ := hstuck
      have hnext := hr.next hok hst
      have hlen := h.length_le hnext
      have hless : bound - (as ++ [a]).length < k := by
        rw [List.length_append, List.length_singleton] at *
        omega
      obtain ⟨bs, u, hu, hend, hgoal, hP⟩ := ih _ hless hnext (hkeep s a t hs hok hst) rfl
      exact ⟨a :: bs, u, by simpa using hu, hend, hgoal, hP⟩

end InfinibandWorkshop.Machine
