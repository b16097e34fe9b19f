import InfinibandWorkshop.Progress
import Mathlib.Data.Fintype.BigOperators

/-!
# Machines side by side

Machines that share nothing run in any interleaving of their steps. A run of all of them
is one run for each, which determines it up to the interleaving; so they come to an end
together when each of them does, after no more steps than all of them may take.
-/
namespace InfinibandWorkshop.Machine
open scoped BigOperators

variable {ι : Type*} {σ α : ι → Type*} [DecidableEq ι] {m : ∀ i, Machine (σ i) (α i)}
  {ok : ∀ i, σ i → α i → Prop} {s : ∀ i, σ i}

/-- A step of the family is a step of one machine. -/
def family (m : ∀ i, Machine (σ i) (α i)) : Machine (∀ i, σ i) (Σ i, α i) where
  init i := (m i).init
  step s a := ((m a.1).step (s a.1) a.2).map (Function.update s a.1)

theorem family_step {i : ι} {a : α i} {u : σ i} (h : (m i).step (s i) a = some u) :
    (family m).step s ⟨i, a⟩ = some (Function.update s i u) := by
  show ((m i).step (s i) a).map _ = _
  rw [h, Option.map_some]

/-- Each machine takes the steps that it may take alone. -/
def inFamily (ok : ∀ i, σ i → α i → Prop) (s : ∀ i, σ i) (a : Σ i, α i) : Prop :=
  ok a.1 (s a.1) a.2

/-- The part of a run that is the run of machine `i`. -/
def share (i : ι) (as : List (Σ i, α i)) : List (α i) :=
  as.filterMap (fun a => if h : a.1 = i then some (h ▸ a.2) else none)

@[simp] theorem share_nil (i : ι) : share i ([] : List (Σ i, α i)) = [] := rfl

theorem share_append_self (i : ι) (as : List (Σ i, α i)) (a : α i) :
    share i (as ++ [⟨i, a⟩]) = share i as ++ [a] := by
  simp [share]

theorem share_append_ne {i j : ι} (h : j ≠ i) (as : List (Σ i, α i)) (a : α j) :
    share i (as ++ [⟨j, a⟩]) = share i as := by
  simp [share, h]

/-- Each action belongs to one of the machines. -/
theorem sum_length_share [Fintype ι] (as : List (Σ i, α i)) :
    ∑ i, (share i as).length = as.length := by
  induction as using List.reverseRecOn with
  | nil => simp
  | append_singleton as a ih =>
    obtain ⟨j, a⟩ := a
    have hone : ∀ i, (share i (as ++ [⟨j, a⟩])).length =
        (share i as).length + if j = i then 1 else 0 := by
      intro i
      by_cases hi : j = i
      · subst hi
        rw [share_append_self, List.length_append, List.length_singleton, if_pos rfl]
      · rw [share_append_ne hi, if_neg hi, Nat.add_zero]
    simp only [hone, Finset.sum_add_distrib, ih, Finset.sum_ite_eq, Finset.mem_univ, if_true,
      List.length_append, List.length_singleton]

/-- What a run of the family is for one machine. -/
theorem Run.share {as : List (Σ i, α i)} (h : (family m).Run (inFamily ok) as s) (i : ι) :
    (m i).Run (ok i) (share i as) (s i) := by
  induction h with
  | start => exact .start
  | @next as s t a _ hok hst ih =>
    obtain ⟨j, a⟩ := a
    obtain ⟨u, hu, rfl⟩ := Option.map_eq_some_iff.mp hst
    by_cases hj : j = i
    · subst hj
      rw [share_append_self]
      have hnext := ih.next hok hu
      simpa using hnext
    · rw [share_append_ne hj, Function.update_of_ne (Ne.symm hj)]
      exact ih

theorem ReachableBy.member (h : (family m).ReachableBy (inFamily ok) s) (i : ι) :
    (m i).ReachableBy (ok i) (s i) := by
  obtain ⟨as, hr⟩ := h
  exact ⟨_, hr.share i⟩

/-- A machine that can move can move in the family. -/
theorem Stuck.member (h : (family m).Stuck (inFamily ok) s) (i : ι) :
    (m i).Stuck (ok i) (s i) := by
  intro a t hok hst
  exact h ⟨i, a⟩ (Function.update s i t) hok (family_step hst)

/-- A machine that cannot move stays where it is. -/
theorem family_step_unmoved {s t : ∀ i, σ i} {a : Σ i, α i} {i : ι}
    (hi : ∀ a, ¬ (m i).Enabled (s i) a) (hst : (family m).step s a = some t) : t i = s i := by
  obtain ⟨j, a⟩ := a
  obtain ⟨u, hu, rfl⟩ := Option.map_eq_some_iff.mp hst
  have hne : i ≠ j := by
    rintro rfl
    exact hi a ⟨u, hu⟩
  exact Function.update_of_ne hne _ _

section Ends

variable [Fintype ι] {bound : ι → ℕ} {Goal : ∀ i, σ i → Prop}

/-- Machines that come to an end do so side by side. -/
theorem Completes.family (h : ∀ i, (m i).Completes (ok i) (bound i) (Goal i)) :
    (Machine.family m).Completes (inFamily ok) (∑ i, bound i) (fun s => ∀ i, Goal i (s i)) where
  length_le {as s} hr := by
    rw [← sum_length_share as]
    exact Finset.sum_le_sum (fun i _ => (h i).length_le (hr.share i))
  goal hr hs i := (h i).goal (hr.member i) (hs.member i)

/-- They do so as well where machines wait for others, as long as there is one short of its
goal that need not wait. -/
theorem Completes.family_waiting {gate : (∀ i, σ i) → (Σ i, α i) → Prop}
    (h : ∀ i, (m i).Completes (ok i) (bound i) (Goal i))
    (hgate : ∀ s, (¬ ∀ i, Goal i (s i)) → ∃ i, ¬ Goal i (s i) ∧ ∀ a, gate s ⟨i, a⟩) :
    (Machine.family m).Completes (fun s a => inFamily ok s a ∧ gate s a) (∑ i, bound i)
      (fun s => ∀ i, Goal i (s i)) where
  length_le hr := (Completes.family h).length_le (hr.mono (fun _ _ hok => hok.1))
  goal {s} hr hs := by
    obtain ⟨as, hrun⟩ := hr
    by_contra hnot
    obtain ⟨i, hi, hopen⟩ := hgate s hnot
    have hmember : (m i).ReachableBy (ok i) (s i) :=
      ⟨_, (hrun.mono (fun _ _ hok => hok.1)).share i⟩
    apply hi
    apply (h i).goal hmember
    intro a t hok hst
    exact hs ⟨i, a⟩ (Function.update s i t) ⟨hok, hopen a⟩ (family_step hst)

end Ends

end InfinibandWorkshop.Machine
