import Mathlib.Data.List.Basic

/-!
# Messages on a byte stream

A stream keeps no boundaries between messages: its reader finds them only as long
as every read takes exactly one message. The stream is aligned when what is in
it, followed by what the writer still writes, is what the reader still expects.
-/
namespace InfinibandWorkshop

variable {μ β : Type*} {bytes : μ → List β} {wire : List β} {m : μ} {due sends : List μ}

/-- The unread bytes are those of whole messages, and these together with the
messages yet to be written are the messages the reader is due. -/
def Aligned (bytes : μ → List β) (wire : List β) (due sends : List μ) : Prop :=
  ∃ pending, due = pending ++ sends ∧ wire = pending.flatMap bytes

namespace Aligned

theorem start (bytes : μ → List β) (ms : List μ) : Aligned bytes [] ms ms := ⟨[], rfl, rfl⟩

theorem write (h : Aligned bytes wire due (m :: sends)) :
    Aligned bytes (wire ++ bytes m) due sends := by
  obtain ⟨pending, hdue, hwire⟩ := h
  refine ⟨pending ++ [m], ?_, ?_⟩
  · rw [hdue, List.append_assoc]
    rfl
  · rw [hwire, List.flatMap_append, List.flatMap_singleton]

/-- What is in a non-empty stream starts with the message that is due next. -/
theorem head (h : Aligned bytes wire (m :: due) sends) (hw : wire ≠ []) :
    ∃ rest, wire = bytes m ++ rest ∧ Aligned bytes rest due sends := by
  obtain ⟨pending, hdue, hwire⟩ := h
  cases pending with
  | nil => exact absurd hwire hw
  | cons p ps =>
    obtain ⟨rfl, rfl⟩ := List.cons.inj hdue
    exact ⟨ps.flatMap bytes, by rw [hwire, List.flatMap_cons], ps, rfl, rfl⟩

/-- A read of exactly one message gets it whole, and the stream stays aligned. -/
theorem read (h : Aligned bytes wire (m :: due) sends) (hw : wire ≠ []) :
    wire.take (bytes m).length = bytes m ∧
      Aligned bytes (wire.drop (bytes m).length) due sends := by
  obtain ⟨rest, rfl, hrest⟩ := h.head hw
  rw [List.take_left, List.drop_left]
  exact ⟨rfl, hrest⟩

/-- On an empty stream the reader waits for what is still to be written. -/
theorem eq_of_empty (h : Aligned bytes [] due sends) (hb : ∀ m, bytes m ≠ []) : due = sends := by
  obtain ⟨pending, hdue, hwire⟩ := h
  cases pending with
  | nil => exact hdue
  | cons p ps =>
    rw [List.flatMap_cons] at hwire
    exact absurd (List.append_eq_nil_iff.mp hwire.symm).1 (hb p)

end Aligned

end InfinibandWorkshop
