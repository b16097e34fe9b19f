import Mathlib.Data.List.Basic
import Mathlib.Data.List.Perm.Basic

/-!
# Interleavings of keyed steps

Every element of a sequence has a key. When the steps of elements with different keys
commute, what a sequence leads to depends on the order within each key only. Steps may
have effects, such as failure; a run over a sequence is `List.foldlM`.
-/
namespace InfinibandWorkshop.Interleaving

variable {α κ σ : Type} {m : Type → Type} [Monad m]

/-- Steps of different keys can be exchanged, effects included. -/
def Commutes (key : α → κ) (step : σ → α → m σ) : Prop :=
  ∀ s a b, key a ≠ key b →
    (step s a >>= fun t => step t b) = (step s b >>= fun t => step t a)

/-- The same elements in the same order, key by key. -/
def SameOrder [DecidableEq κ] (key : α → κ) (xs ys : List α) : Prop :=
  ∀ k, xs.filter (fun a => key a = k) = ys.filter (fun a => key a = k)

section Run

variable [LawfulMonad m] {step : σ → α → m σ} {key : α → κ}

/-- An element is moved in front of elements with other keys. -/
theorem foldlM_move (h : Commutes key step) (s : σ) {a : α} {bs : List α}
    (hkey : ∀ b ∈ bs, key b ≠ key a) (cs : List α) :
    (bs ++ a :: cs).foldlM step s = (a :: (bs ++ cs)).foldlM step s := by
  induction bs generalizing s with
  | nil => rfl
  | cons b bs ih =>
    obtain ⟨hb, hbs⟩ := List.forall_mem_cons.mp hkey
    calc (b :: (bs ++ a :: cs)).foldlM step s
      _ = step s b >>= fun t => (a :: (bs ++ cs)).foldlM step t := by
        simp only [List.foldlM_cons, ih _ hbs]
      _ = (step s b >>= fun t => step t a) >>= fun t => (bs ++ cs).foldlM step t := by
        simp only [List.foldlM_cons, bind_assoc]
      _ = (step s a >>= fun t => step t b) >>= fun t => (bs ++ cs).foldlM step t := by
        rw [h s b a hb]
      _ = (a :: (b :: bs ++ cs)).foldlM step s := by
        simp only [List.cons_append, List.foldlM_cons, bind_assoc]

end Run

section Order

variable [DecidableEq κ] {key : α → κ}

theorem SameOrder.perm [DecidableEq α] {xs ys : List α} (h : SameOrder key xs ys) :
    xs.Perm ys := by
  rw [List.perm_iff_count]
  intro a
  have hcount : ∀ zs : List α, zs.count a = (zs.filter (fun b => key b = key a)).count a := by
    intro zs
    rw [List.count_filter (by simp)]
  rw [hcount xs, hcount ys, h (key a)]

/-- The head of one sequence is in the other one, behind elements with other keys. -/
theorem SameOrder.uncons {x : α} {xs ys : List α} (h : SameOrder key (x :: xs) ys) :
    ∃ l r, ys = l ++ x :: r ∧ (∀ b ∈ l, key b ≠ key x) ∧ SameOrder key xs (l ++ r) := by
  have hx := h (key x)
  rw [List.filter_cons_of_pos (by simp)] at hx
  obtain ⟨l, r, rfl, hl, -, hr⟩ := List.filter_eq_cons_iff.mp hx.symm
  have hne : ∀ b ∈ l, key b ≠ key x := fun b hb => by simpa using hl b hb
  refine ⟨l, r, rfl, hne, ?_⟩
  intro k
  by_cases hk : key x = k
  · subst k
    have hnil : l.filter (fun b => key b = key x) = [] := by
      rw [List.filter_eq_nil_iff]
      exact hl
    rw [List.filter_append, hnil, List.nil_append, hr]
  · have hother := h k
    rw [List.filter_cons_of_neg (by simpa using hk), List.filter_append,
      List.filter_cons_of_neg (by simpa using hk), ← List.filter_append] at hother
    exact hother

/-- Sequences that agree key by key lead to the same. -/
theorem foldlM_eq_of_sameOrder [LawfulMonad m] {step : σ → α → m σ}
    (hcomm : Commutes key step) (s : σ) {xs ys : List α} (h : SameOrder key xs ys) :
    xs.foldlM step s = ys.foldlM step s := by
  induction xs generalizing s ys with
  | nil =>
    cases ys with
    | nil => rfl
    | cons y ys =>
      have hy := h (key y)
      rw [List.filter_nil, List.filter_cons_of_pos (by simp)] at hy
      cases hy
  | cons x xs ih =>
    obtain ⟨l, r, rfl, hl, hrest⟩ := h.uncons
    rw [foldlM_move hcomm s hl, List.foldlM_cons, List.foldlM_cons]
    congr 1
    funext t
    exact ih t hrest

end Order

end InfinibandWorkshop.Interleaving
