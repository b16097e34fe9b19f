import InfinibandWorkshop.Family

/-!
# Machines that take turns

In a program with several parts, the later parts wait for the earlier ones, though not with
everything: a server may be at work on what the client has not come to yet. Every machine of
a family has a place, and a step waits for the machines with smaller places, which must be
far enough for it. Machines that come to an end do so in turn as well; and where one of them
can hang, it can do so when its turn has come.
-/
namespace InfinibandWorkshop.Machine
open scoped BigOperators

variable {ι κ : Type*} [DecidableEq ι] [LinearOrder κ] {σ α : ι → Type*}
  {m : ∀ i, Machine (σ i) (α i)} {ok : ∀ i, σ i → α i → Prop} {place : ι → κ}
  {passed : ∀ j, σ j → (Σ i, α i) → Prop} {as : List (Σ i, α i)} {s : ∀ i, σ i} {i : ι}

/-- The machines with smaller places are far enough for the step. -/
def inTurn (place : ι → κ) (passed : ∀ j, σ j → (Σ i, α i) → Prop) (s : ∀ i, σ i)
    (a : Σ i, α i) : Prop := ∀ j, place j < place a.1 → passed j (s j) a

/-- Steps that a machine may take alone, when it is its turn. -/
def waiting (ok : ∀ i, σ i → α i → Prop) (place : ι → κ)
    (passed : ∀ j, σ j → (Σ i, α i) → Prop) (s : ∀ i, σ i) (a : Σ i, α i) : Prop :=
  inFamily ok s a ∧ inTurn place passed s a

/-- Waiting only leaves runs out. -/
theorem ReachableBy.member_in_turn (h : (family m).ReachableBy (waiting ok place passed) s)
    (i : ι) : (m i).ReachableBy (ok i) (s i) := by
  obtain ⟨as, hr⟩ := h
  exact ReachableBy.member ⟨as, hr.mono (fun _ _ hok => hok.1)⟩ i

/-- What the machines with smaller places than that of `i` have done is a run in which the
others have not started. -/
theorem Run.before (h : (family m).Run (waiting ok place passed) as s) (i : ι) :
    (family m).Run (waiting ok place passed) (as.filter (fun a => place a.1 < place i))
      (fun j => if place j < place i then s j else (m j).init) := by
  induction h with
  | start =>
    have hinit : (fun j => if place j < place i then (family m).init j else (m j).init) =
        (family m).init := by
      funext j
      exact ite_self _
    rw [hinit]
    exact .start
  | @next as s t a _ hok hst ih =>
    obtain ⟨j, a⟩ := a
    obtain ⟨u, hu, rfl⟩ := Option.map_eq_some_iff.mp hst
    rw [List.filter_append]
    by_cases hj : place j < place i
    · rw [List.filter_cons_of_pos (by simpa using hj), List.filter_nil]
      apply ih.next
      · refine ⟨?_, ?_⟩
        · rw [inFamily, if_pos hj]
          exact hok.1
        · intro k hk
          show passed k (if place k < place i then s k else (m k).init) ⟨j, a⟩
          rw [if_pos (hk.trans hj)]
          exact hok.2 k hk
      · have hstep : (m j).step (if place j < place i then s j else (m j).init) a = some u := by
          rw [if_pos hj, hu]
        rw [family_step hstep, Option.some_inj]
        funext k
        by_cases hk : k = j
        · subst k
          rw [Function.update_self, Function.update_self, if_pos hj]
        · rw [Function.update_of_ne hk, Function.update_of_ne hk]
    · rw [List.filter_cons_of_neg (by simpa using hj), List.filter_nil, List.append_nil]
      have hsame : (fun k => if place k < place i then Function.update s j u k else (m k).init) =
          fun k => if place k < place i then s k else (m k).init := by
        funext k
        by_cases hk : k = j
        · subst k
          rw [if_neg hj, if_neg hj]
        · rw [Function.update_of_ne hk]
      rw [hsame]
      exact ih

/-- When it is the turn of a machine that has not started, it can run while the others wait. -/
theorem Run.alone (h : (family m).Run (waiting ok place passed) as s) (hinit : s i = (m i).init)
    (hturn : ∀ j, place j < place i → ∀ a, passed j (s j) ⟨i, a⟩) {bs : List (α i)} {u : σ i}
    (hr : (m i).Run (ok i) bs u) : (family m).Run (waiting ok place passed)
      (as ++ bs.map (Sigma.mk i)) (Function.update s i u) := by
  induction hr with
  | start =>
    rw [← hinit, Function.update_eq_self, List.map_nil, List.append_nil]
    exact h
  | @next bs v w a _ hok hst ih =>
    rw [List.map_append, ← List.append_assoc]
    apply ih.next
    · refine ⟨?_, ?_⟩
      · rwa [inFamily, Function.update_self]
      · intro j hj
        have hne : j ≠ i := by
          rintro rfl
          exact lt_irrefl _ hj
        rw [Function.update_of_ne hne]
        exact hturn j hj a
    · have hstep : (m i).step (Function.update s i v i) a = some w := by
        rw [Function.update_self, hst]
      rw [family_step hstep, Function.update_idem]

section Ends

/-- Among those that lack something, one with none of them before it. -/
theorem exists_first {ι κ : Type*} [LinearOrder κ] [WellFoundedLT κ] (place : ι → κ)
    {P : ι → Prop} (h : ¬ ∀ i, P i) : ∃ i, ¬ P i ∧ ∀ j, place j < place i → P j := by
  push Not at h
  obtain ⟨i, hi, hmin⟩ := (InvImage.wf place wellFounded_lt).has_min {i | ¬ P i} h
  exact ⟨i, hi, fun j hj => by_contra (fun hn => hmin j hn hj)⟩

variable {Goal : ∀ i, σ i → Prop}

/-- Machines that come to an end do so in turn, if one that has reached its goal keeps nobody
waiting. -/
theorem Completes.in_turn [Fintype ι] [WellFoundedLT κ] {bound : ι → ℕ}
    (h : ∀ i, (m i).Completes (ok i) (bound i) (Goal i))
    (hpassed : ∀ j v a, Goal j v → passed j v a) :
    (Machine.family m).Completes (waiting ok place passed) (∑ i, bound i)
      (fun s => ∀ i, Goal i (s i)) := by
  apply Completes.family_waiting h
  intro s hnot
  obtain ⟨i, hi, hfirst⟩ := exists_first place hnot
  exact ⟨i, hi, fun a j hj => hpassed j (s j) ⟨i, a⟩ (hfirst j hj)⟩

/-- If one machine can hang short of its goal, so can the family: when the others before it
have reached theirs. -/
theorem not_completes_in_turn {bound : ℕ} {u : σ i} (hu : (m i).ReachableBy (ok i) u)
    (hstuck : ∀ a, ¬ (m i).Enabled u a) (hgoal : ¬ Goal i u)
    (hpassed : ∀ j v a, Goal j v → passed j v a) :
    ¬ (family m).Completes (waiting ok place passed) bound (fun s => ∀ i, Goal i (s i)) := by
  intro h
  obtain ⟨bs, hbs⟩ := hu
  obtain ⟨as, s, hr, _, hall, _⟩ :=
    h.extends (P := fun _ => True) (fun _ _ _ _ _ _ => trivial) .start trivial
  have hturn : ∀ j, place j < place i → ∀ a,
      passed j (if place j < place i then s j else (m j).init) ⟨i, a⟩ := by
    intro j hj a
    rw [if_pos hj]
    exact hpassed j (s j) ⟨i, a⟩ (hall j)
  have halone := (hr.before i).alone (if_neg (lt_irrefl (place i))) hturn hbs
  obtain ⟨_, t, _, _, hend, hkept⟩ := h.extends (P := fun t : ∀ i, σ i => t i = u)
    (fun v act w hv _ hst => by
      rw [← hv]
      exact family_step_unmoved (by rw [hv]; exact hstuck) hst)
    halone (Function.update_self _ _ _)
  apply hgoal
  rw [← hkept]
  exact hend i

end Ends

end InfinibandWorkshop.Machine
