import Mathlib.Data.Nat.Basic
import Mathlib.Order.Basic

/-!
# Loops that need not end

A loop is given by one turn of it: it goes on with new values of its variables, or it
is left with a result. Running it takes fuel; that it is left at all is a fact about
the loop and its start, with a rule for proving it and one for refuting it.
-/
namespace InfinibandWorkshop

structure Loop (σ τ : Type*) where
  turn : σ → σ ⊕ τ

namespace Loop

variable {σ τ : Type*} (L : Loop σ τ)

/-- At most this many turns; `none` when the loop has not been left by then. -/
def run : ℕ → σ → Option τ
  | 0, _ => none
  | fuel + 1, s =>
    match L.turn s with
    | .inl s' => run fuel s'
    | .inr t => some t

/-- From `s`, the loop is left with `t`. -/
def Leaves (s : σ) (t : τ) : Prop := ∃ fuel, L.run fuel s = some t

variable {L} {s s' : σ} {t t' : τ}

theorem run_again (h : L.turn s = .inl s') (fuel : ℕ) : L.run (fuel + 1) s = L.run fuel s' := by
  rw [run, h]

theorem run_done (h : L.turn s = .inr t) (fuel : ℕ) : L.run (fuel + 1) s = some t := by
  rw [run, h]

theorem leaves_again (h : L.turn s = .inl s') : L.Leaves s t ↔ L.Leaves s' t := by
  constructor
  · rintro ⟨fuel, hrun⟩
    cases fuel with
    | zero => cases hrun
    | succ fuel => exact ⟨fuel, (run_again h fuel).symm.trans hrun⟩
  · rintro ⟨fuel, hrun⟩
    exact ⟨fuel + 1, (run_again h fuel).trans hrun⟩

theorem leaves_done (h : L.turn s = .inr t) : L.Leaves s t' ↔ t' = t := by
  constructor
  · rintro ⟨fuel, hrun⟩
    cases fuel with
    | zero => cases hrun
    | succ fuel =>
      rw [run_done h] at hrun
      exact (Option.some.inj hrun).symm
  · rintro rfl
    exact ⟨1, run_done h 0⟩

/-- Turns that are known can be skipped. -/
theorem leaves_after (f : ℕ → σ) {n : ℕ} (h : ∀ k < n, L.turn (f k) = .inl (f (k + 1))) :
    L.Leaves (f 0) t ↔ L.Leaves (f n) t := by
  induction n with
  | zero => rfl
  | succ n ih =>
    rw [ih (fun k hk => h k (Nat.lt_succ_of_lt hk)), leaves_again (h n (Nat.lt_succ_self n))]

/-- The invariant rule: what every turn keeps holds when the loop is left. -/
theorem Leaves.invariant {Inv : σ → Prop} (h : L.Leaves s t) (hs : Inv s)
    (hagain : ∀ u u', Inv u → L.turn u = .inl u' → Inv u') :
    ∃ u, Inv u ∧ L.turn u = .inr t := by
  obtain ⟨fuel, hrun⟩ := h
  induction fuel generalizing s with
  | zero => cases hrun
  | succ fuel ih =>
    cases hturn : L.turn s with
    | inl s' =>
      rw [run_again hturn] at hrun
      exact ih (hagain s s' hs hturn) hrun
    | inr u =>
      rw [run_done hturn] at hrun
      exact ⟨s, hs, hturn.trans (congrArg Sum.inr (Option.some.inj hrun))⟩

/-- The variant rule: a loop whose turns lower a measure is left, within that many
turns. -/
theorem exists_run {Inv : σ → Prop} (measure : σ → ℕ) (hs : Inv s)
    (hagain : ∀ u u', Inv u → L.turn u = .inl u' → Inv u' ∧ measure u' < measure u) :
    ∃ t, L.run (measure s + 1) s = some t := by
  have hfuel : ∀ fuel u, Inv u → measure u < fuel → ∃ t, L.run fuel u = some t := by
    intro fuel
    induction fuel with
    | zero => exact fun u _ hlt => absurd hlt (Nat.not_lt_zero _)
    | succ fuel ih =>
      intro u hu hlt
      cases hturn : L.turn u with
      | inl u' =>
        obtain ⟨hu', hless⟩ := hagain u u' hu hturn
        rw [run_again hturn]
        exact ih u' hu' (by omega)
      | inr t => exact ⟨t, run_done hturn fuel⟩
  exact hfuel _ s hs (Nat.lt_succ_self _)

/-- A loop that goes on from every state of a set that its turns stay in is never left. -/
theorem not_leaves {Inv : σ → Prop} (hs : Inv s)
    (hagain : ∀ u, Inv u → ∃ u', L.turn u = .inl u' ∧ Inv u') : ¬ L.Leaves s t := by
  intro h
  have hstay : ∀ u u', Inv u → L.turn u = .inl u' → Inv u' := by
    intro u u' hu hturn
    obtain ⟨v, hv, hinv⟩ := hagain u hu
    cases hv.symm.trans hturn
    exact hinv
  obtain ⟨u, hu, hdone⟩ := h.invariant hs hstay
  obtain ⟨v, hv, -⟩ := hagain u hu
  cases hv.symm.trans hdone

end Loop

end InfinibandWorkshop
