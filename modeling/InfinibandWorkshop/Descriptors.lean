import Mathlib.Data.List.Basic
import Mathlib.Data.Nat.Basic
import Mathlib.Order.Basic

/-!
# Descriptor tables

A process names its open objects by numbers. A new object gets the lowest number
that is free, and closing a number frees it, whatever it denotes by then.
-/
namespace InfinibandWorkshop

/-- The objects open under the numbers 0, 1, 2, and so on. -/
structure Descriptors (α : Type*) where
  slots : List (Option α)

namespace Descriptors

variable {α : Type*} (t : Descriptors α)

def get (fd : ℕ) : Option α := t.slots[fd]?.join

def lowest : ℕ := t.slots.findIdx (fun o => o.isNone)

def alloc (x : α) : Descriptors α :=
  ⟨if t.lowest < t.slots.length then t.slots.set t.lowest (some x) else t.slots ++ [some x]⟩

/-- Closing a free number changes nothing. -/
def close (fd : ℕ) : Descriptors α := ⟨t.slots.set fd none⟩

theorem lowest_le : t.lowest ≤ t.slots.length := List.findIdx_le_length

theorem get_lowest : t.get t.lowest = none := by
  unfold get
  by_cases h : t.lowest < t.slots.length
  · have hnone : t.slots[t.lowest].isNone = true := List.findIdx_getElem
    rw [List.getElem?_eq_getElem h]
    exact Option.isNone_iff_eq_none.mp hnone
  · rw [List.getElem?_eq_none (not_lt.mp h)]
    rfl

theorem get_alloc (x : α) (fd : ℕ) :
    (t.alloc x).get fd = if fd = t.lowest then some x else t.get fd := by
  unfold get alloc
  by_cases h : t.lowest < t.slots.length
  · rw [if_pos h, List.getElem?_set]
    by_cases hfd : fd = t.lowest
    · subst fd; simp [h]
    · simp [hfd, Ne.symm hfd]
  · have hlen : t.lowest = t.slots.length := le_antisymm t.lowest_le (not_lt.mp h)
    rw [if_neg h, hlen, List.getElem?_append]
    by_cases hlt : fd < t.slots.length
    · simp [hlt, hlt.ne]
    · by_cases hfd : fd = t.slots.length
      · simp [hfd]
      · have hgt : fd - t.slots.length ≠ 0 := by omega
        simp [hlt, hfd, hgt]

@[simp] theorem get_alloc_lowest (x : α) : (t.alloc x).get t.lowest = some x := by
  simp [get_alloc]

/-- What is open keeps its number. -/
theorem get_alloc_of_open {x y : α} {fd : ℕ} (h : t.get fd = some y) :
    (t.alloc x).get fd = some y := by
  have hne : fd ≠ t.lowest := by
    rintro rfl
    rw [t.get_lowest] at h
    cases h
  rw [get_alloc, if_neg hne, h]

theorem get_close (fd fd' : ℕ) :
    (t.close fd).get fd' = if fd' = fd then none else t.get fd' := by
  unfold get close
  rw [List.getElem?_set]
  by_cases hfd : fd = fd'
  · subst fd'
    by_cases h : fd < t.slots.length <;> simp [h]
  · simp [hfd, Ne.symm hfd]

variable {t}

theorem get_of_get_close {fd fd' : ℕ} {x : α} (h : (t.close fd).get fd' = some x) :
    fd' ≠ fd ∧ t.get fd' = some x := by
  rw [get_close] at h
  split_ifs at h with hfd
  exact ⟨hfd, h⟩

/-- Closing one object leaves every other one open. -/
theorem get_close_of_open {fd fd' : ℕ} {x y : α} (hx : t.get fd = some x)
    (hy : t.get fd' = some y) (hne : x ≠ y) : (t.close fd).get fd' = some y := by
  have hfd : fd' ≠ fd := by
    rintro rfl
    exact hne (Option.some.inj (hx.symm.trans hy))
  rw [get_close, if_neg hfd, hy]

end Descriptors

end InfinibandWorkshop
