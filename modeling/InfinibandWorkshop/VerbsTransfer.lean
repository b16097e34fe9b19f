import InfinibandWorkshop.Verbs

/-!
# Programs that do the same with different locals

When one program's loop is another's with its locals and return values renamed,
the two systems take the same steps, so what is known of one holds of the other.
-/
namespace InfinibandWorkshop.Verbs

variable {n : ℕ} {Loc Loc' Ret Ret' : Type}

/-- `P'` does what `P` does, on the locals `f` and with the return values `g`. It
need do so only for completions of its own queue pairs. -/
structure Matches (P : Program n Loc Ret) (P' : Program n Loc' Ret') (f : Loc → Loc')
    (g : Ret → Ret') : Prop where
  qpNum : P'.qpNum = P.qpNum
  maxSendWr : P'.maxSendWr = P.maxSendWr
  maxRecvWr : P'.maxRecvWr = P.maxRecvWr
  numEntries : P'.numEntries = P.numEntries
  start : P'.start = P.start.map f g
  again : ∀ l, P'.again (f l) = P.again l
  handle : ∀ room l w, (∃ q, w.qpNum = P.qpNum q) →
    P'.handle room (f l) w = (P.handle room l w).map f g

def Host.map (f : Loc → Loc') (g : Ret → Ret') (h : Host n Loc Ret) : Host n Loc' Ret' where
  loop := match h.loop with
    | .ok l => .ok (f l)
    | .error e => .error (g e)
  posted := h.posted
  cq := h.cq
  wc := h.wc
  handled := h.handled

def State.map (f : Loc → Loc') (g : Ret → Ret') (s : State n Loc Ret) :
    State n Loc' Ret' where
  host X := (s.host X).map f g
  arrived := s.arrived
  lost := s.lost

section

variable (f : Loc → Loc') (g : Ret → Ret') (h : Host n Loc Ret) (s : State n Loc Ret)

@[simp] theorem Host.map_wc : (h.map f g).wc = h.wc := rfl

@[simp] theorem Host.map_cq : (h.map f g).cq = h.cq := rfl

@[simp] theorem Host.map_requests : (h.map f g).requests = h.requests := rfl

@[simp] theorem State.map_host (X : Role) : (s.map f g).host X = (s.host X).map f g := rfl

@[simp] theorem State.map_arrived : (s.map f g).arrived = s.arrived := rfl

@[simp] theorem State.map_lost : (s.map f g).lost = s.lost := rfl

end

section

variable {P : Program n Loc Ret} {P' : Program n Loc' Ret'} {f : Loc → Loc'} {g : Ret → Ret'}
  {h : Host n Loc Ret}

theorem Host.map_loop_ok {l : Loc} (hl : h.loop = .ok l) : (h.map f g).loop = .ok (f l) := by
  simp [Host.map, hl]

theorem Host.map_loop_error {e : Ret} (hl : h.loop = .error e) :
    (h.map f g).loop = .error (g e) := by
  simp [Host.map, hl]

theorem Matches.left_iff (m : Matches P P' f g) : (h.map f g).Left P' ↔ h.Left P := by
  cases hl : h.loop with
  | ok l => simp [Host.Left, Host.map, hl, m.again]
  | error e => simp [Host.Left, Host.map, hl]

theorem Matches.inLoop_iff (m : Matches P P' f g) : (h.map f g).InLoop P' ↔ h.InLoop P := by
  cases hl : h.loop with
  | ok l => simp [Host.InLoop, Host.map, hl, m.again]
  | error e => simp [Host.InLoop, Host.map, hl]

theorem Matches.handled (h : Host n Loc Ret) (o : Outcome n Loc Ret) (w : IbvWc)
    (ws : List IbvWc) :
    handled (h.map f g) (o.map f g) w ws = (handled h o w ws).map f g := by
  obtain ⟨next, posted⟩ := o
  cases next <;> rfl

end

variable {P : Role → Program n Loc Ret} {P' : Role → Program n Loc' Ret'} {f : Loc → Loc'}
  {g : Ret → Ret'} {s : State n Loc Ret}

theorem State.map_setHost (X : Role) (h : Host n Loc Ret) :
    (s.setHost X h).map f g = (s.map f g).setHost X (h.map f g) := by
  simp only [State.map, State.setHost, State.mk.injEq, and_true]
  funext Y
  by_cases hY : Y = X
  · subst Y; simp
  · simp [hY]

theorem Matches.room (m : ∀ X, Matches (P X) (P' X) f g) (X : Role) :
    (s.map f g).room P' X = s.room P X := by
  have hc : count (P' X) = count (P X) := by
    funext k q ws
    simp only [count, (m X).qpNum]
  simp only [State.room, State.sendQueue, (m X).maxSendWr, (m X).maxRecvWr, hc]
  rfl

theorem Matches.delivered (m : ∀ X, Matches (P X) (P' X) f g) (X : Role) (q : Fin n)
    (w r : WorkRequest n) :
    delivered P' (s.map f g) X q w r = (delivered P s X q w r).map f g := by
  simp only [Verbs.delivered, State.map, State.mk.injEq, and_true]
  funext Y
  by_cases hY : Y = X
  · simp only [hY, if_true, (m X).qpNum]; rfl
  · simp only [hY, if_false, (m X.peer).qpNum]; rfl

/-- Step by step, the two systems do the same. -/
theorem Matches.step (m : ∀ X, Matches (P X) (P' X) f g)
    (hown : ∀ X, ∀ w ∈ (s.host X).wc, ∃ q, w.qpNum = (P X).qpNum q) (a : Action n) :
    step P' (s.map f g) a = (step P s a).map (State.map f g) := by
  cases a with
  | deliver X q =>
    simp only [Verbs.step, State.map_host, State.map_arrived, State.map_lost, Host.map_requests]
    cases ((s.host X).requests .send q)[s.arrived X q + s.lost X q]? with
    | none => rfl
    | some w =>
      cases ((s.host X.peer).requests .recv q)[s.arrived X q]? with
      | none => rfl
      | some r => simp only [Matches.delivered m, Option.map_some]
  | vanish X q =>
    simp only [Verbs.step, State.map_host, (m X.peer).left_iff]
    split_ifs with hc hc' hc'
    · rfl
    · exact absurd hc hc'
    · exact absurd hc' hc
    · rfl
  | abort X q =>
    simp only [Verbs.step, State.map_host, State.map_arrived, State.map_lost, Host.map_requests,
      (m X.peer).left_iff]
    cases ((s.host X).requests .send q)[s.arrived X q + s.lost X q]? with
    | none => rfl
    | some w =>
      by_cases hc : (s.host X.peer).Left (P X.peer)
      · have hset := State.map_setHost (f := f) (g := g) (s := s) X
          ((s.host X).complete ⟨w.wrId, ibvWcRetryExcErr, .send, (P X).qpNum q⟩)
        simp only [hc, if_true, Option.map_some, (m X).qpNum]
        exact congrArg (fun u => some { u with lost := bump s.lost X q }) hset.symm
      · simp only [hc, if_false, Option.map_none]
  | poll X k =>
    simp only [Verbs.step, State.map_host]
    cases hl : (s.host X).loop with
    | error e => simp only [Host.map_loop_error hl, Option.map_none]
    | ok l =>
      simp only [Host.map_loop_ok hl, (m X).again, (m X).numEntries, Host.map_wc, Host.map_cq]
      split_ifs with hc
      · simp only [Option.map_some, State.map_setHost]
        rfl
      · rfl
  | handle X =>
    simp only [Verbs.step, State.map_host, Host.map_wc]
    cases hl : (s.host X).loop with
    | error e => simp only [Host.map_loop_error hl, Option.map_none]
    | ok l =>
      cases hw : (s.host X).wc with
      | nil => simp only [Host.map_loop_ok hl, Option.map_none]
      | cons w ws =>
        have hq := hown X w (by simp [hw])
        simp only [Host.map_loop_ok hl, Matches.room m, (m X).handle _ l w hq, Matches.handled,
          Option.map_some, State.map_setHost]

/-- The system of `P` is embedded in the system of `P'`. -/
theorem Matches.embeds (m : ∀ X, Matches (P X) (P' X) f g) :
    (system P).Embeds Silent (system P') Silent (State.map f g) := by
  refine ⟨?_, ?_, ?_⟩
  · simp only [system, State.map, State.mk.injEq, and_true]
    funext X
    rw [(m X).start]
    rfl
  · intro s a ha
    cases a <;> exact ha
  · intro s a hs
    have hb := balanced_of_reachable hs
    refine Matches.step m ?_ a
    intro X w hw
    obtain ⟨_, q, hq, _⟩ := hb.reports X w (by simp [Host.completions, hw])
    exact ⟨q, hq⟩

/-- A host can move in one system where it can in the other. -/
theorem Matches.canProceed (m : ∀ X, Matches (P X) (P' X) f g)
    (hs : (system P).ReachableBy Silent s) (h : CanProceed P' (s.map f g)) : CanProceed P s := by
  have he := fun a => (Matches.embeds m).enabled_iff hs a
  constructor
  · intro X hw
    exact (he _).mp (h.batch X hw)
  · intro hw
    rcases h.between hw with ⟨X, q, hin, hd⟩ | ⟨X, hin, hcq, hp⟩
    · exact .inl ⟨X, q, (m X.peer).inLoop_iff.mp hin, (he _).mp hd⟩
    · exact .inr ⟨X, (m X).inLoop_iff.mp hin, hcq, (he _).mp hp⟩

end InfinibandWorkshop.Verbs
