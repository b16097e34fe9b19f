import InfinibandWorkshop.VerbsTransfer

/-!
# One host's loop over what its polls return

A program is run on a given sequence of batches: its loop test is made before each
batch, and within a batch every entry is handled unless the program has returned. The
device is a parameter: what it has room for depends on what was posted and handled.
-/
namespace InfinibandWorkshop.Verbs

/-- The free entries of a device after these posts and completions, the one that is
being handled included. -/
abbrev Device (n : ℕ) : Type := List (WorkRequest n) → List IbvWc → Room n

/-- How far a host has come, with the outcome of every completion it has handled. -/
structure Progress (n : ℕ) (Loc Ret : Type) where
  loop : Except Ret Loc
  posted : List (WorkRequest n)
  handled : List IbvWc
  outcomes : List (Outcome n Loc Ret)

/-- Where a host stands after a batch. -/
inductive Standing
  | inLoop
  | left
  | returned
  deriving DecidableEq, Repr

section Run

variable {n : ℕ} {Loc Ret : Type} (P : Program n Loc Ret) (D : Device n)

def started : Progress n Loc Ret := ⟨P.start.next, P.start.posted, [], []⟩

/-- A program that has returned handles nothing. -/
def Progress.handle (p : Progress n Loc Ret) (w : IbvWc) : Progress n Loc Ret :=
  match p.loop with
  | .ok l =>
    let o := P.handle (D p.posted (p.handled ++ [w])) l w
    ⟨o.next, p.posted ++ o.posted, p.handled ++ [w], p.outcomes ++ [o]⟩
  | .error _ => p

def Progress.handleBatch (p : Progress n Loc Ret) (wc : List IbvWc) : Progress n Loc Ret :=
  wc.foldl (Progress.handle P D) p

def Progress.standing (p : Progress n Loc Ret) : Standing :=
  match p.loop with
  | .ok l => if P.again l then .inLoop else .left
  | .error _ => .returned

/-- The `while` loop, on the batches that its polls return. -/
def pollLoop : List (List IbvWc) → Progress n Loc Ret → Progress n Loc Ret
  | [], p => p
  | wc :: batches, p =>
    match p.standing P with
    | .inLoop => pollLoop batches (p.handleBatch P D wc)
    | _ => p

variable {P D} {p : Progress n Loc Ret}

theorem standing_inLoop_iff : p.standing P = .inLoop ↔ ∃ l, p.loop = .ok l ∧ P.again l = true := by
  unfold Progress.standing
  cases p.loop with
  | ok l => cases hagain : P.again l <;> simp [hagain]
  | error e => simp

theorem pollLoop_cons {wc : List IbvWc} {batches : List (List IbvWc)}
    (h : p.standing P = .inLoop) :
    pollLoop P D (wc :: batches) p = pollLoop P D batches (p.handleBatch P D wc) := by
  rw [pollLoop, h]

theorem pollLoop_of_not_inLoop {batches : List (List IbvWc)} (h : p.standing P ≠ .inLoop) :
    pollLoop P D batches p = p := by
  cases batches with
  | nil => rfl
  | cons wc batches =>
    rw [pollLoop]
    split
    · exact absurd ‹_› h
    · rfl

/-- A step of a program that goes on, by the outcome of the completion. -/
theorem handle_eq {l : Loc} (hl : p.loop = .ok l) {w : IbvWc} {o : Outcome n Loc Ret}
    (ho : P.handle (D p.posted (p.handled ++ [w])) l w = o) :
    p.handle P D w =
      ⟨o.next, p.posted ++ o.posted, p.handled ++ [w], p.outcomes ++ [o]⟩ := by
  rw [Progress.handle, hl]
  simp only [ho]

theorem handle_returned {e : Ret} (h : p.loop = .error e) (w : IbvWc) :
    p.handle P D w = p := by
  rw [Progress.handle, h]

theorem handleBatch_cons (w : IbvWc) (wc : List IbvWc) :
    p.handleBatch P D (w :: wc) = (p.handle P D w).handleBatch P D wc := rfl

theorem handleBatch_append (wc wc' : List IbvWc) :
    p.handleBatch P D (wc ++ wc') = (p.handleBatch P D wc).handleBatch P D wc' :=
  List.foldl_append

theorem handleBatch_returned {e : Ret} (h : p.loop = .error e) (wc : List IbvWc) :
    p.handleBatch P D wc = p := by
  induction wc with
  | nil => rfl
  | cons w wc ih =>
    rw [handleBatch_cons, handle_returned h]
    exact ih

end Run

section Transfer

variable {n : ℕ} {Loc Loc' Ret Ret' : Type} {P : Program n Loc Ret} {P' : Program n Loc' Ret'}
  {f : Loc → Loc'} {g : Ret → Ret'} {D : Device n}

def Progress.map (f : Loc → Loc') (g : Ret → Ret') (p : Progress n Loc Ret) :
    Progress n Loc' Ret' where
  loop := match p.loop with
    | .ok l => .ok (f l)
    | .error e => .error (g e)
  posted := p.posted
  handled := p.handled
  outcomes := p.outcomes.map (Outcome.map f g)

theorem Matches.started (m : Matches P P' f g) : started P' = (started P).map f g := by
  rw [Verbs.started, m.start]
  rfl

theorem Matches.standing (m : Matches P P' f g) (p : Progress n Loc Ret) :
    (p.map f g).standing P' = p.standing P := by
  unfold Progress.standing Progress.map
  cases p.loop with
  | ok l => simp only [m.again]
  | error e => rfl

theorem Matches.handle_progress (m : Matches P P' f g) (p : Progress n Loc Ret) {w : IbvWc}
    (hw : ∃ q, w.qpNum = P.qpNum q) :
    (p.map f g).handle P' D w = (p.handle P D w).map f g := by
  obtain ⟨loop, posted, handled, outcomes⟩ := p
  cases loop with
  | ok l =>
    simp only [Progress.handle, Progress.map, m.handle _ l w hw, List.map_append, List.map_cons,
      List.map_nil]
    rfl
  | error e => rfl

theorem Matches.handleBatch (m : Matches P P' f g) (p : Progress n Loc Ret) {wc : List IbvWc}
    (hwc : ∀ w ∈ wc, ∃ q, w.qpNum = P.qpNum q) :
    (p.map f g).handleBatch P' D wc = (p.handleBatch P D wc).map f g := by
  induction wc generalizing p with
  | nil => rfl
  | cons w wc ih =>
    obtain ⟨hw, hwc⟩ := List.forall_mem_cons.mp hwc
    have hhead := m.handle_progress (D := D) p hw
    simp only [Progress.handleBatch, List.foldl_cons] at ih ⊢
    rw [hhead, ih _ hwc]

/-- On the same batches of the same device, matching programs go through the same. -/
theorem Matches.pollLoop (m : Matches P P' f g) {batches : List (List IbvWc)}
    (hb : ∀ wc ∈ batches, ∀ w ∈ wc, ∃ q, w.qpNum = P.qpNum q) (p : Progress n Loc Ret) :
    pollLoop P' D batches (p.map f g) = (pollLoop P D batches p).map f g := by
  induction batches generalizing p with
  | nil => rfl
  | cons wc batches ih =>
    obtain ⟨hwc, hb⟩ := List.forall_mem_cons.mp hb
    by_cases h : p.standing P = .inLoop
    · rw [pollLoop_cons h, pollLoop_cons ((m.standing p).trans h), m.handleBatch p hwc, ih hb]
    · rw [pollLoop_of_not_inLoop h, pollLoop_of_not_inLoop (by rwa [m.standing p])]

end Transfer

end InfinibandWorkshop.Verbs
