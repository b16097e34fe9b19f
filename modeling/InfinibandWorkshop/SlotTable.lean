import Mathlib.Data.Set.Insert

/-!
# Tables of slots

A table holds a key, or the mark of an empty slot, in every slot. It is sound for a
set of live keys when the keys in it are live and stand in one slot each, and complete
when every live key stands in a slot. Storing a new key needs an empty slot: without
one, a sound table stays sound and stops being complete for good.
-/
namespace InfinibandWorkshop.SlotTable

variable {ι α : Type*} {empty : α} {slots : ι → α} {live : Set α}

structure Sound (empty : α) (slots : ι → α) (live : Set α) : Prop where
  empty_notMem : empty ∉ live
  mem : ∀ i, slots i ≠ empty → slots i ∈ live
  distinct : ∀ i j, slots i ≠ empty → slots i = slots j → i = j

def Complete (slots : ι → α) (live : Set α) : Prop := ∀ a ∈ live, ∃! i, slots i = a

theorem sound_init : Sound empty (fun _ : ι => empty) ∅ where
  empty_notMem := Set.notMem_empty empty
  mem := fun _ h => absurd rfl h
  distinct := fun _ _ h => absurd rfl h

/-- Emptying a slot puts no key anywhere. -/
theorem update_empty_ne [DecidableEq ι] {a : α} (hne : a ≠ empty) (h : ∀ j, slots j ≠ a)
    (i j : ι) : Function.update slots i empty j ≠ a := by
  by_cases hji : j = i
  · subst j
    rw [Function.update_self]
    exact hne.symm
  · rw [Function.update_of_ne hji]
    exact h j

namespace Sound

theorem ne_empty (h : Sound empty slots live) {a : α} (ha : a ∈ live) : a ≠ empty := by
  intro he
  exact h.empty_notMem (he ▸ ha)

/-- A key that is not live is in no slot. -/
theorem ne_of_notMem (h : Sound empty slots live) {a : α} (ha : a ∉ live) (hne : a ≠ empty)
    (i : ι) : slots i ≠ a := by
  intro hi
  have hmem := h.mem i (by rwa [hi])
  exact ha (hi ▸ hmem)

theorem complete_iff (h : Sound empty slots live) :
    Complete slots live ↔ live ⊆ Set.range slots := by
  constructor
  · intro hc a ha
    obtain ⟨i, hi, _⟩ := hc a ha
    exact ⟨i, hi⟩
  · intro hsub a ha
    obtain ⟨i, hi⟩ := hsub ha
    have hne : slots i ≠ empty := by
      rw [hi]
      exact h.ne_empty ha
    exact ⟨i, hi, fun j hj => (h.distinct i j hne (hi.trans hj.symm)).symm⟩

/-- A new key that found no slot. -/
theorem drop (h : Sound empty slots live) {a : α} (hne : a ≠ empty) :
    Sound empty slots (insert a live) where
  empty_notMem := by
    intro hmem
    rcases hmem with he | hmem
    · exact hne he.symm
    · exact h.empty_notMem hmem
  mem := fun i hi => Set.mem_insert_of_mem a (h.mem i hi)
  distinct := h.distinct

theorem not_complete_drop (h : Sound empty slots live) {a : α} (ha : a ∉ live)
    (hne : a ≠ empty) : ¬ Complete slots (insert a live) := by
  intro hc
  obtain ⟨i, hi, _⟩ := hc a (Set.mem_insert a live)
  exact h.ne_of_notMem ha hne i hi

variable [DecidableEq ι]

/-- A new key goes to an empty slot. -/
theorem store (h : Sound empty slots live) {a : α} {i : ι} (ha : a ∉ live) (hne : a ≠ empty) :
    Sound empty (Function.update slots i a) (insert a live) where
  empty_notMem := (h.drop hne).empty_notMem
  mem := by
    intro j hj
    by_cases hji : j = i
    · subst j
      simp
    · rw [Function.update_of_ne hji] at hj ⊢
      exact Set.mem_insert_of_mem a (h.mem j hj)
  distinct := by
    intro j k hj hjk
    by_cases hji : j = i <;> by_cases hki : k = i
    · rw [hji, hki]
    · subst j
      rw [Function.update_self, Function.update_of_ne hki] at hjk
      exact absurd hjk.symm (h.ne_of_notMem ha hne k)
    · subst k
      rw [Function.update_self, Function.update_of_ne hji] at hjk
      exact absurd hjk (h.ne_of_notMem ha hne j)
    · rw [Function.update_of_ne hji] at hj hjk
      rw [Function.update_of_ne hki] at hjk
      exact h.distinct j k hj hjk

theorem complete_store_iff (h : Sound empty slots live) {a : α} {i : ι} (ha : a ∉ live)
    (hne : a ≠ empty) (hi : slots i = empty) :
    Complete (Function.update slots i a) (insert a live) ↔ Complete slots live := by
  rw [(h.store ha hne).complete_iff, h.complete_iff]
  constructor
  · intro hsub b hb
    obtain ⟨j, hj⟩ := hsub (Set.mem_insert_of_mem a hb)
    by_cases hji : j = i
    · subst j
      rw [Function.update_self] at hj
      exact absurd (hj ▸ hb) ha
    · rw [Function.update_of_ne hji] at hj
      exact ⟨j, hj⟩
  · intro hsub b hb
    rcases hb with hb | hb
    · exact ⟨i, by rw [Function.update_self, hb]⟩
    · obtain ⟨j, hj⟩ := hsub hb
      have hji : j ≠ i := by
        intro he
        rw [he, hi] at hj
        exact h.ne_empty hb hj.symm
      exact ⟨j, by rwa [Function.update_of_ne hji]⟩

/-- No other slot holds what a slot in use holds. -/
theorem update_ne (h : Sound empty slots live) {i : ι} (hi : slots i ≠ empty) (j : ι) :
    Function.update slots i empty j ≠ slots i := by
  by_cases hji : j = i
  · subst j
    rw [Function.update_self]
    exact hi.symm
  · rw [Function.update_of_ne hji]
    intro he
    exact hji (h.distinct i j hi he.symm).symm

/-- A slot is emptied when its key stops being live. -/
theorem clear (h : Sound empty slots live) {i : ι} (hi : slots i ≠ empty) :
    Sound empty (Function.update slots i empty) (live \ {slots i}) where
  empty_notMem := fun hmem => h.empty_notMem hmem.1
  mem := by
    intro j hj
    refine ⟨?_, h.update_ne hi j⟩
    by_cases hji : j = i
    · subst j
      exact absurd (Function.update_self _ _ _) hj
    · rw [Function.update_of_ne hji] at hj ⊢
      exact h.mem j hj
  distinct := by
    intro j k hj hjk
    have hof : ∀ l, Function.update slots i empty l ≠ empty → l ≠ i := by
      intro l hl he
      subst l
      exact hl (Function.update_self _ _ _)
    have hji := hof j hj
    have hki := hof k (hjk ▸ hj)
    rw [Function.update_of_ne hji] at hj hjk
    rw [Function.update_of_ne hki] at hjk
    exact h.distinct j k hj hjk

theorem complete_clear_iff (h : Sound empty slots live) {i : ι} (hi : slots i ≠ empty) :
    Complete (Function.update slots i empty) (live \ {slots i}) ↔ Complete slots live := by
  rw [(h.clear hi).complete_iff, h.complete_iff]
  constructor
  · intro hsub b hb
    by_cases hbi : b = slots i
    · exact ⟨i, hbi.symm⟩
    · obtain ⟨j, hj⟩ := hsub ⟨hb, hbi⟩
      have hji : j ≠ i := by
        intro he
        rw [he, Function.update_self] at hj
        exact h.ne_empty hb hj.symm
      exact ⟨j, by rwa [Function.update_of_ne hji] at hj⟩
  · rintro hsub b ⟨hb, hbi⟩
    obtain ⟨j, hj⟩ := hsub hb
    have hji : j ≠ i := by
      intro he
      exact hbi (he ▸ hj).symm
    exact ⟨j, by rwa [Function.update_of_ne hji]⟩

end Sound

end InfinibandWorkshop.SlotTable
