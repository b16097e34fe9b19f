import InfinibandWorkshop.MultithreadLoop
import InfinibandWorkshop.PollLoop

/-!
# The two InfiniBand programs on one queue pair

multistreamTestRunner.c keeps arrays where multithreadIB.c keeps scalars, searches the
queue pair of a completion and computes a buffer segment. With one queue pair, the two
loops go through the same on whatever completions the device reports.
-/
namespace InfinibandWorkshop.Multithread
open Verbs

/-- The scalars of one program are in the arrays of the other one. -/
structure SameLocals (l : Locals) (l' : Multistream.Locals 1) : Prop where
  scnt : l'.scnt = l.scnt
  rcnt : l'.rcnt = l.rcnt
  pending : l'.pendingQp 0 = l.pending
  routs : l'.routsArr 0 = l.routs

/-- Both programs go on, or both have returned. -/
def SameLoop : Except Exit Locals → Except Multistream.Exit (Multistream.Locals 1) → Prop
  | .ok l, .ok l' => SameLocals l l'
  | .error _, .error _ => True
  | _, _ => False

/-- After a completion: the same requests were posted, on the same buffer segments. -/
structure SameOutcome (o : Outcome 1 Locals Exit)
    (o' : Outcome 1 (Multistream.Locals 1) Multistream.Exit) : Prop where
  next : SameLoop o.next o'.next
  posted : o'.posted = o.posted

/-- The programs agree now, after every completion so far, and on where they stand. -/
structure InStep (c : Config) (X : Role) (p : Progress 1 Locals Exit)
    (p' : Progress 1 (Multistream.Locals 1) Multistream.Exit) : Prop where
  loop : SameLoop p.loop p'.loop
  posted : p'.posted = p.posted
  handled : p'.handled = p.handled
  outcomes : List.Forall₂ SameOutcome p.outcomes p'.outcomes
  standing : p'.standing (c.single.program X) = p.standing (c.program X)

section Agreement

theorem sameLocals_spread (l : Locals) : SameLocals l l.spread := ⟨rfl, rfl, rfl, rfl⟩

theorem sameOutcome_map (o : Outcome 1 Locals Exit) :
    SameOutcome o (o.map Locals.spread Exit.spread) := by
  obtain ⟨next, posted⟩ := o
  cases next with
  | ok l => exact ⟨sameLocals_spread l, rfl⟩
  | error e => exact ⟨trivial, rfl⟩

theorem inStep_map (c : Config) (X : Role) (p : Progress 1 Locals Exit) :
    InStep c X p (p.map Locals.spread Exit.spread) where
  loop := by
    obtain ⟨loop, posted, handled, outcomes⟩ := p
    cases loop with
    | ok l => exact sameLocals_spread l
    | error e => trivial
  posted := rfl
  handled := rfl
  outcomes := by
    rw [Progress.map, List.forall₂_map_right_iff, List.forall₂_same]
    exact fun o _ => sameOutcome_map o
  standing := (program_matches c X).standing p

/-- From the set-up on, the programs stay in step on every sequence of batches. -/
theorem in_step (c : Config) (X : Role) (D : Device 1) (batches : List (List IbvWc))
    (hqp : ∀ wc ∈ batches, ∀ w ∈ wc, w.qpNum = c.qpNum X) :
    InStep c X (pollLoop (c.program X) D batches (started (c.program X)))
      (pollLoop (c.single.program X) D batches (started (c.single.program X))) := by
  have m := program_matches c X
  have hown : ∀ wc ∈ batches, ∀ w ∈ wc, ∃ q, w.qpNum = (c.program X).qpNum q :=
    fun wc hwc w hw => ⟨0, hqp wc hwc w hw⟩
  rw [m.started, m.pollLoop hown]
  exact inStep_map c X _

/-- A device with room for everything. -/
def roomyDevice : Device 1 := fun _ _ => ⟨fun _ => 8, fun _ => 8⟩

/-- The server's one message arrives, and its answer is reported with a bad status. -/
def answerLost : List (List IbvWc) := [[⟨1, ibvWcSuccess, .recv, 0⟩], [⟨2, 12, .send, 0⟩]]

theorem in_step_answerLost :
    InStep shortConfig .server
      (pollLoop (shortConfig.program .server) roomyDevice answerLost
        (started (shortConfig.program .server)))
      (pollLoop (shortConfig.single.program .server) roomyDevice answerLost
        (started (shortConfig.single.program .server))) :=
  in_step shortConfig .server roomyDevice answerLost (by decide)

end Agreement

end InfinibandWorkshop.Multithread
