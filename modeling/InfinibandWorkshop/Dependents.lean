import Mathlib.Data.Finset.Basic
import Mathlib.Data.Finset.SDiff
import Mathlib.Data.Finset.Lattice.Lemmas

/-!
# Objects that need each other

A pool holds live objects, each of which was made from others and needs them as long as
it lives. An object goes only when nothing alive needs it, so that several of them go
one after the other if none of them is needed by a later one.
-/
namespace InfinibandWorkshop

/-- What a live object needs is alive. -/
structure Pool (α : Type*) where
  live : Finset α
  needs : α → Finset α
  closed : ∀ a ∈ live, needs a ⊆ live

namespace Pool

variable {α : Type*} [DecidableEq α]

/-- A new object, made from live ones. -/
def create (p : Pool α) (a : α) (deps : Finset α) (ha : a ∉ p.live) : Pool α where
  live := insert a p.live
  needs := Function.update p.needs a (deps ∩ p.live)
  closed := by
    intro b hb
    rcases Finset.mem_insert.mp hb with rfl | hb
    · rw [Function.update_self]
      exact Finset.inter_subset_right.trans (Finset.subset_insert _ _)
    · have hne : b ≠ a := fun h => ha (h ▸ hb)
      rw [Function.update_of_ne hne]
      exact (p.closed b hb).trans (Finset.subset_insert _ _)

/-- Nothing alive needs the object. -/
def Free (p : Pool α) (a : α) : Prop := a ∈ p.live ∧ ∀ b ∈ p.live, a ∉ p.needs b

instance (p : Pool α) (a : α) : Decidable (p.Free a) :=
  inferInstanceAs (Decidable (a ∈ p.live ∧ ∀ b ∈ p.live, a ∉ p.needs b))

/-- The pool without a free object. -/
def erase (p : Pool α) (a : α) (h : p.Free a) : Pool α where
  live := p.live.erase a
  needs := p.needs
  closed := by
    intro b hb
    have hlive := Finset.mem_of_mem_erase hb
    exact Finset.subset_erase.mpr ⟨p.closed b hlive, h.2 b hlive⟩

/-- An object that is needed stays. -/
def destroy (p : Pool α) (a : α) : Option (Pool α) :=
  if h : p.Free a then some (p.erase a h) else none

/-- Destroy objects in the order given. -/
def destroyAll (p : Pool α) : List α → Option (Pool α)
  | [] => some p
  | a :: as => (p.destroy a).bind (fun q => destroyAll q as)

variable {p q : Pool α} {a : α}

theorem create_needs_self (deps : Finset α) (ha : a ∉ p.live) (hdeps : deps ⊆ p.live) :
    (p.create a deps ha).needs a = deps := by
  simp only [create, Function.update_self, Finset.inter_eq_left.mpr hdeps]

theorem create_needs_of_live {b : α} (deps : Finset α) (ha : a ∉ p.live) (hb : b ∈ p.live) :
    (p.create a deps ha).needs b = p.needs b := by
  have hne : b ≠ a := fun h => ha (h ▸ hb)
  exact Function.update_of_ne hne _ _

theorem destroy_of_free (h : p.Free a) : p.destroy a = some (p.erase a h) := dif_pos h

theorem destroyAll_append (as bs : List α) :
    p.destroyAll (as ++ bs) = (p.destroyAll as).bind (fun q => q.destroyAll bs) := by
  induction as generalizing p with
  | nil => rfl
  | cons a as ih =>
    rw [List.cons_append, destroyAll, destroyAll, Option.bind_assoc]
    congr 1
    funext q
    exact ih

/-- Nothing alive needs an object of the list, but objects of the list that come
before it. -/
structure Ordered (p : Pool α) (as : List α) : Prop where
  nodup : as.Nodup
  live : ∀ a ∈ as, a ∈ p.live
  outside : ∀ b ∈ p.live, b ∉ as → ∀ a ∈ as, a ∉ p.needs b
  inside : ∀ a ∈ as, a ∉ p.needs a
  pairwise : as.Pairwise (fun a b => a ∉ p.needs b)

/-- The first of them is free. -/
theorem Ordered.free {as : List α} (h : p.Ordered (a :: as)) : p.Free a := by
  refine ⟨h.live a List.mem_cons_self, ?_⟩
  intro b hb
  by_cases hmem : b ∈ a :: as
  · rcases List.mem_cons.mp hmem with rfl | hmem
    · exact h.inside b List.mem_cons_self
    · exact (List.pairwise_cons.mp h.pairwise).1 b hmem
  · exact h.outside b hb hmem a List.mem_cons_self

theorem Ordered.tail {as : List α} (h : p.Ordered (a :: as)) :
    (p.erase a h.free).Ordered as := by
  obtain ⟨hnotin, hnodup⟩ := List.nodup_cons.mp h.nodup
  refine ⟨hnodup, ?_, ?_, ?_, (List.pairwise_cons.mp h.pairwise).2⟩
  · intro b hb
    have hne : b ≠ a := fun he => hnotin (he ▸ hb)
    exact Finset.mem_erase.mpr ⟨hne, h.live b (List.mem_cons_of_mem a hb)⟩
  · intro b hb hout c hc
    obtain ⟨hne, hlive⟩ := Finset.mem_erase.mp hb
    have hout' : b ∉ a :: as := by
      rw [List.mem_cons, not_or]
      exact ⟨hne, hout⟩
    exact h.outside b hlive hout' c (List.mem_cons_of_mem a hc)
  · intro b hb
    exact h.inside b (List.mem_cons_of_mem a hb)

/-- Objects in order are all destroyed, and only they are. -/
theorem Ordered.destroyAll {as : List α} (h : p.Ordered as) :
    ∃ q, p.destroyAll as = some q ∧ q.live = p.live \ as.toFinset ∧ q.needs = p.needs := by
  induction as generalizing p with
  | nil => exact ⟨p, rfl, by rw [List.toFinset_nil, Finset.sdiff_empty], rfl⟩
  | cons a as ih =>
    obtain ⟨q, hq, hlive, hneeds⟩ := ih h.tail
    refine ⟨q, ?_, ?_, hneeds⟩
    · rw [Pool.destroyAll, destroy_of_free h.free, Option.bind_some, hq]
    · rw [hlive, List.toFinset_cons, erase, Finset.sdiff_insert, Finset.erase_sdiff_comm]

/-- What an object of the list needs comes after it. -/
def NeedsLater (needs : α → Finset α) : List α → Prop
  | [] => True
  | a :: as => needs a ⊆ as.toFinset ∧ NeedsLater needs as

theorem NeedsLater.append {needs : α → Finset α} {as bs : List α} (hbs : NeedsLater needs bs)
    (has : ∀ a ∈ as, needs a ⊆ bs.toFinset) : NeedsLater needs (as ++ bs) := by
  induction as with
  | nil => exact hbs
  | cons a as ih =>
    have hsubset : needs a ⊆ (as ++ bs).toFinset := by
      rw [List.toFinset_append]
      exact (has a List.mem_cons_self).trans Finset.subset_union_right
    exact ⟨hsubset, ih (fun b hb => has b (List.mem_cons_of_mem a hb))⟩

theorem NeedsLater.subset {needs : α → Finset α} {as : List α} (h : NeedsLater needs as)
    (ha : a ∈ as) : needs a ⊆ as.toFinset := by
  induction as with
  | nil => exact absurd ha List.not_mem_nil
  | cons b as ih =>
    rw [List.toFinset_cons]
    rcases List.mem_cons.mp ha with rfl | ha
    · exact h.1.trans (Finset.subset_insert _ _)
    · exact (ih h.2 ha).trans (Finset.subset_insert _ _)

theorem NeedsLater.pairwise {needs : α → Finset α} {as : List α} (h : NeedsLater needs as)
    (hnodup : as.Nodup) : as.Pairwise (fun a b => a ∉ needs b) := by
  induction as with
  | nil => exact List.Pairwise.nil
  | cons a as ih =>
    obtain ⟨hnotin, hnodup⟩ := List.nodup_cons.mp hnodup
    refine List.pairwise_cons.mpr ⟨?_, ih h.2 hnodup⟩
    intro b hb hneeds
    exact hnotin (List.mem_toFinset.mp (h.2.subset hb hneeds))

/-- `q` is `p` with new objects, each listed with what it was made from. -/
structure Grown (p q : Pool α) (made : List (α × Finset α)) : Prop where
  nodup : (made.map Prod.fst).Nodup
  fresh : ∀ x ∈ made, x.1 ∉ p.live
  live : ∀ a, a ∈ q.live ↔ a ∈ p.live ∨ a ∈ made.map Prod.fst
  needs : ∀ x ∈ made, q.needs x.1 = x.2
  irrefl : ∀ x ∈ made, x.1 ∉ x.2
  kept : ∀ a ∈ p.live, q.needs a = p.needs a

omit [DecidableEq α] in
theorem grown_refl (p : Pool α) : p.Grown p [] where
  nodup := List.nodup_nil
  fresh := fun _ h => absurd h List.not_mem_nil
  live := fun a => by simp
  needs := fun _ h => absurd h List.not_mem_nil
  irrefl := fun _ h => absurd h List.not_mem_nil
  kept := fun _ _ => rfl

theorem Grown.create {made : List (α × Finset α)} {deps : Finset α} (h : p.Grown q made)
    (ha : a ∉ q.live) (hdeps : deps ⊆ q.live) :
    p.Grown (q.create a deps ha) (made ++ [(a, deps)]) := by
  have hold : ∀ b, b ∈ p.live ∨ b ∈ made.map Prod.fst → b ∈ q.live := fun b => (h.live b).mpr
  have hnew : a ∉ made.map Prod.fst := fun hmem => ha (hold a (Or.inr hmem))
  refine ⟨?_, ?_, ?_, ?_, ?_, ?_⟩
  · rw [List.map_append, List.nodup_append]
    refine ⟨h.nodup, List.nodup_singleton a, ?_⟩
    intro b hb c hc heq
    have hc' : c = a := List.mem_singleton.mp hc
    rw [heq, hc'] at hb
    exact hnew hb
  · intro x hx
    rcases List.mem_append.mp hx with hx | hx
    · exact h.fresh x hx
    · rw [List.mem_singleton.mp hx]
      exact fun hlive => ha (hold a (Or.inl hlive))
  · intro b
    rw [Pool.create, Finset.mem_insert, h.live, List.map_append, List.mem_append,
      List.map_singleton, List.mem_singleton]
    tauto
  · intro x hx
    rcases List.mem_append.mp hx with hx | hx
    · rw [create_needs_of_live deps ha (hold _ (Or.inr (List.mem_map_of_mem hx))), h.needs x hx]
    · rw [List.mem_singleton.mp hx, create_needs_self deps ha hdeps]
  · intro x hx
    rcases List.mem_append.mp hx with hx | hx
    · exact h.irrefl x hx
    · rw [List.mem_singleton.mp hx]
      exact fun hmem => ha (hdeps hmem)
  · intro b hb
    rw [create_needs_of_live deps ha (hold b (Or.inl hb)), h.kept b hb]

/-- New objects can be destroyed again, each after the new objects that need it, and
then the old ones are left. -/
theorem Grown.destroyAll {made : List (α × Finset α)} {as : List α} (h : p.Grown q made)
    (hperm : as.Perm (made.map Prod.fst)) (horder : as.Pairwise (fun a b => a ∉ q.needs b)) :
    ∃ r, q.destroyAll as = some r ∧ r.live = p.live := by
  have hmem : ∀ a ∈ as, ∃ x ∈ made, x.1 = a := by
    intro a ha
    exact List.mem_map.mp (hperm.mem_iff.mp ha)
  have hordered : q.Ordered as := by
    refine ⟨hperm.nodup_iff.mpr h.nodup, ?_, ?_, ?_, horder⟩
    · intro a ha
      exact (h.live a).mpr (Or.inr (hperm.mem_iff.mp ha))
    · intro b hb hout a ha hneeds
      -- the others are old, and need old ones
      have hb' : b ∈ p.live := ((h.live b).mp hb).resolve_right (mt hperm.mem_iff.mpr hout)
      rw [h.kept b hb'] at hneeds
      obtain ⟨x, hx, rfl⟩ := hmem a ha
      exact h.fresh x hx (p.closed b hb' hneeds)
    · intro a ha
      obtain ⟨x, hx, rfl⟩ := hmem a ha
      rw [h.needs x hx]
      exact h.irrefl x hx
  obtain ⟨r, hr, hlive, -⟩ := hordered.destroyAll
  refine ⟨r, hr, ?_⟩
  ext a
  rw [hlive, Finset.mem_sdiff, List.mem_toFinset, hperm.mem_iff, h.live]
  constructor
  · rintro ⟨hor, hnot⟩
    exact hor.resolve_right hnot
  · intro ha
    refine ⟨Or.inl ha, ?_⟩
    intro hmade
    obtain ⟨x, hx, rfl⟩ := List.mem_map.mp hmade
    exact h.fresh x hx ha

end Pool

end InfinibandWorkshop
