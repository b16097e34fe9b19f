import InfinibandWorkshop.Dependents

/-!
# Owners that share a pool

Several owners make objects in one pool. Each makes its objects from its own, and destroys
the one that it made last. Whatever the owners do in between, no object that is to be
destroyed is needed, and no owner touches what is another's.
-/
namespace InfinibandWorkshop.Pool

variable {α ι : Type*} [DecidableEq α] {old p : Pool α} {stack stack' : ι → List α} {i : ι}
  {a : α}

/-- The objects that owners have made since the pool was `old`, the latest first. -/
structure Stacked (old p : Pool α) (stack : ι → List α) : Prop where
  ordered : ∀ i, p.Ordered (stack i)
  apart : ∀ i j, i ≠ j → ∀ a ∈ stack i, a ∉ stack j
  live : ∀ a, a ∈ p.live ↔ a ∈ old.live ∨ ∃ i, a ∈ stack i
  fresh : ∀ i, ∀ a ∈ stack i, a ∉ old.live

omit [DecidableEq α] in
theorem stacked_nil (p : Pool α) : p.Stacked p (fun _ : ι => []) where
  ordered _ := ⟨List.nodup_nil, by simp, by simp, by simp, List.Pairwise.nil⟩
  apart _ _ _ _ h := absurd h List.not_mem_nil
  live a := by simp
  fresh _ _ h := absurd h List.not_mem_nil

omit [DecidableEq α] in
/-- What an object of the pool needs is no new object. -/
theorem notMem_needs {b : α} (ha : a ∉ p.live) (hb : b ∈ p.live) : a ∉ p.needs b :=
  fun h => ha (p.closed b hb h)

/-- A new object made from others leaves a list in order that has none of them. -/
theorem Ordered.create {as : List α} {deps : Finset α} (h : p.Ordered as) (ha : a ∉ p.live)
    (hdeps : deps ⊆ p.live) (hout : ∀ c ∈ as, c ∉ deps) : (p.create a deps ha).Ordered as := by
  refine ⟨h.nodup, ?_, ?_, ?_, ?_⟩
  · exact fun c hc => Finset.mem_insert_of_mem (h.live c hc)
  · intro b hb hnot c hc
    rcases Finset.mem_insert.mp hb with rfl | hb
    · rw [create_needs_self deps ha hdeps]
      exact hout c hc
    · rw [create_needs_of_live deps ha hb]
      exact h.outside b hb hnot c hc
  · intro c hc
    rw [create_needs_of_live deps ha (h.live c hc)]
    exact h.inside c hc
  · apply h.pairwise.imp_of_mem
    intro c b _ hb hneeds
    rwa [create_needs_of_live deps ha (h.live b hb)]

/-- And it stands in front of the list that it was made from. -/
theorem Ordered.create_cons {as : List α} {deps : Finset α} (h : p.Ordered as) (ha : a ∉ p.live)
    (hdeps : deps ⊆ as.toFinset) : (p.create a deps ha).Ordered (a :: as) := by
  have hlive : deps ⊆ p.live := fun c hc => h.live c (List.mem_toFinset.mp (hdeps hc))
  have hnot : a ∉ as := fun hmem => ha (h.live a hmem)
  refine ⟨List.nodup_cons.mpr ⟨hnot, h.nodup⟩, ?_, ?_, ?_, ?_⟩
  · intro c hc
    rcases List.mem_cons.mp hc with rfl | hc
    · exact Finset.mem_insert_self _ _
    · exact Finset.mem_insert_of_mem (h.live c hc)
  · intro b hb hout c hc
    obtain ⟨hne, hout⟩ := not_or.mp (fun hor => hout (List.mem_cons.mpr hor))
    have hold : b ∈ p.live := (Finset.mem_insert.mp hb).resolve_left hne
    rw [create_needs_of_live deps ha hold]
    rcases List.mem_cons.mp hc with rfl | hc
    · exact notMem_needs ha hold
    · exact h.outside b hold hout c hc
  · intro c hc
    rcases List.mem_cons.mp hc with rfl | hc
    · rw [create_needs_self deps ha hlive]
      exact fun hmem => ha (hlive hmem)
    · rw [create_needs_of_live deps ha (h.live c hc)]
      exact h.inside c hc
  · refine List.pairwise_cons.mpr ⟨?_, ?_⟩
    · intro b hb
      rw [create_needs_of_live deps ha (h.live b hb)]
      exact notMem_needs ha (h.live b hb)
    · apply h.pairwise.imp_of_mem
      intro c b _ hb hneeds
      rwa [create_needs_of_live deps ha (h.live b hb)]

/-- Without a free object, a list that does not have it is still in order. -/
theorem Ordered.erase {as : List α} (h : p.Ordered as) (hfree : p.Free a) (hout : a ∉ as) :
    (p.erase a hfree).Ordered as := by
  refine ⟨h.nodup, ?_, ?_, h.inside, h.pairwise⟩
  · intro c hc
    exact Finset.mem_erase.mpr ⟨fun he => hout (he ▸ hc), h.live c hc⟩
  · exact fun b hb => h.outside b (Finset.mem_of_mem_erase hb)

/-- One owner makes an object from its own. -/
theorem Stacked.push {deps : Finset α} (h : old.Stacked p stack) (ha : a ∉ p.live)
    (hdeps : deps ⊆ (stack i).toFinset) (hi : stack' i = a :: stack i)
    (hother : ∀ j, j ≠ i → stack' j = stack j) : old.Stacked (p.create a deps ha) stack' := by
  have hlive : deps ⊆ p.live :=
    fun c hc => (h.ordered i).live c (List.mem_toFinset.mp (hdeps hc))
  have hnew : ∀ j, a ∉ stack j := fun j hmem => ha ((h.ordered j).live a hmem)
  refine ⟨?_, ?_, ?_, ?_⟩
  · intro j
    by_cases hj : j = i
    · subst j
      rw [hi]
      exact (h.ordered i).create_cons ha hdeps
    · rw [hother j hj]
      apply (h.ordered j).create ha hlive
      exact fun c hc hmem => h.apart j i hj c hc (List.mem_toFinset.mp (hdeps hmem))
  · intro j k hjk c hc
    by_cases hj : j = i
    · subst j
      rw [hi, List.mem_cons] at hc
      rw [hother k (Ne.symm hjk)]
      rcases hc with rfl | hc
      · exact hnew k
      · exact h.apart i k hjk c hc
    · rw [hother j hj] at hc
      by_cases hk : k = i
      · subst k
        rw [hi, List.mem_cons, not_or]
        exact ⟨fun he => hnew j (he ▸ hc), h.apart j i hjk c hc⟩
      · rw [hother k hk]
        exact h.apart j k hjk c hc
  · intro c
    show c ∈ insert a p.live ↔ _
    rw [Finset.mem_insert, h.live]
    constructor
    · rintro (rfl | hc | ⟨j, hc⟩)
      · exact .inr ⟨i, by rw [hi]; exact List.mem_cons_self⟩
      · exact .inl hc
      · by_cases hj : j = i
        · subst j
          exact .inr ⟨i, by rw [hi]; exact List.mem_cons_of_mem a hc⟩
        · exact .inr ⟨j, by rwa [hother j hj]⟩
    · rintro (hc | ⟨j, hc⟩)
      · exact .inr (.inl hc)
      · by_cases hj : j = i
        · subst j
          rw [hi, List.mem_cons] at hc
          exact hc.imp_right (fun hc => .inr ⟨i, hc⟩)
        · rw [hother j hj] at hc
          exact .inr (.inr ⟨j, hc⟩)
  · intro j c hc
    by_cases hj : j = i
    · subst j
      rw [hi, List.mem_cons] at hc
      rcases hc with rfl | hc
      · exact fun hmem => ha ((h.live c).mpr (.inl hmem))
      · exact h.fresh i c hc
    · rw [hother j hj] at hc
      exact h.fresh j c hc

/-- One owner destroys what it has made last. -/
theorem Stacked.pop (h : old.Stacked p stack) (hi : stack i = a :: stack' i)
    (hother : ∀ j, j ≠ i → stack' j = stack j) :
    ∃ q, p.destroy a = some q ∧ old.Stacked q stack' := by
  have htop : p.Ordered (a :: stack' i) := hi ▸ h.ordered i
  have hmem : a ∈ stack i := by rw [hi]; exact List.mem_cons_self
  have hkeep : ∀ j c, c ∈ stack' j ↔ c ∈ stack j ∧ c ≠ a := by
    intro j c
    by_cases hj : j = i
    · subst j
      rw [hi, List.mem_cons]
      have hnot := (List.nodup_cons.mp htop.nodup).1
      constructor
      · intro hc
        exact ⟨.inr hc, fun he => hnot (he ▸ hc)⟩
      · rintro ⟨rfl | hc, hne⟩
        · exact absurd rfl hne
        · exact hc
    · rw [hother j hj]
      exact ⟨fun hc => ⟨hc, fun he => h.apart j i hj c hc (he ▸ hmem)⟩, fun hc => hc.1⟩
  refine ⟨_, destroy_of_free htop.free, ?_, ?_, ?_, ?_⟩
  · intro j
    by_cases hj : j = i
    · subst j
      exact htop.tail
    · rw [hother j hj]
      exact (h.ordered j).erase htop.free (h.apart i j (Ne.symm hj) a hmem)
  · intro j k hjk c hc hck
    exact h.apart j k hjk c ((hkeep j c).mp hc).1 ((hkeep k c).mp hck).1
  · intro c
    show c ∈ p.live.erase a ↔ _
    rw [Finset.mem_erase, h.live]
    constructor
    · rintro ⟨hne, hc | ⟨j, hc⟩⟩
      · exact .inl hc
      · exact .inr ⟨j, (hkeep j c).mpr ⟨hc, hne⟩⟩
    · rintro (hc | ⟨j, hc⟩)
      · exact ⟨fun he => h.fresh i a hmem (he ▸ hc), .inl hc⟩
      · obtain ⟨hc, hne⟩ := (hkeep j c).mp hc
        exact ⟨hne, .inr ⟨j, hc⟩⟩
  · exact fun j c hc => h.fresh j c ((hkeep j c).mp hc).1

omit [DecidableEq α] in
/-- When no owner has anything left, the pool is as it was. -/
theorem Stacked.live_eq (h : old.Stacked p stack) (hnil : ∀ i, stack i = []) :
    p.live = old.live := by
  ext c
  rw [h.live]
  simp [hnil]

end InfinibandWorkshop.Pool
