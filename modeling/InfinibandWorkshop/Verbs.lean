import InfinibandWorkshop.Machine

/-!
# Two hosts on reliable connected queue pairs

Each host runs one program: after a start-up that posts work requests, it polls
its completion queue, handles the polled entries one by one, and polls again
while its loop test holds. The queue pairs of the two hosts are connected
pairwise. A send is delivered when its receiver has a receive posted; delivery
leaves one completion at each side. A message for a host that has left its loop,
and destroyed its queue pairs, may vanish, or come back to its sender as a
completion with an error status.

Posted requests, handled completions and deliveries are kept as histories. How
full a queue is, and what is in flight, is computed from them.
-/
namespace InfinibandWorkshop.Verbs
open scoped BigOperators

/-- The work queue of a queue pair that a request or a completion belongs to. -/
inductive Queue
  | send
  | recv
  deriving DecidableEq, Repr

structure IbvWc where
  wrId : BitVec 64
  status : ℕ
  opcode : Queue
  qpNum : ℕ
  deriving DecidableEq, Repr

def ibvWcSuccess : ℕ := 0

def ibvWcRetryExcErr : ℕ := 12

/-- A request posted on one of the `n` queue pairs, with its buffer segment. -/
structure WorkRequest (n : ℕ) where
  qp : Fin n
  queue : Queue
  wrId : BitVec 64
  offset : ℤ
  length : ℤ
  deriving DecidableEq, Repr

/-- The requests among `ws` that went to queue `k` of queue pair `q`. -/
def onQueue {n : ℕ} (k : Queue) (q : Fin n) (ws : List (WorkRequest n)) :
    List (WorkRequest n) :=
  ws.filter (fun w => w.queue = k ∧ w.qp = q)

@[simp] theorem onQueue_nil {n : ℕ} (k : Queue) (q : Fin n) : onQueue k q [] = [] := rfl

@[simp] theorem onQueue_append {n : ℕ} (k : Queue) (q : Fin n)
    (ws ws' : List (WorkRequest n)) :
    onQueue k q (ws ++ ws') = onQueue k q ws ++ onQueue k q ws' := List.filter_append ws ws'

theorem mem_onQueue {n : ℕ} {k : Queue} {q : Fin n} {ws : List (WorkRequest n)}
    {w : WorkRequest n} : w ∈ onQueue k q ws ↔ w ∈ ws ∧ w.queue = k ∧ w.qp = q := by
  simp [onQueue, List.mem_filter]

/-- Free entries of the work queues: a post succeeds as long as there is one. -/
structure Room (n : ℕ) where
  send : Fin n → ℕ
  recv : Fin n → ℕ

/-- What a stretch of a program leaves: the state it goes on in, or the value it
returned, and the requests it posted on the way. -/
structure Outcome (n : ℕ) (Loc Ret : Type) where
  next : Except Ret Loc
  posted : List (WorkRequest n)

namespace Outcome

variable {n : ℕ} {Loc Loc' Ret Ret' : Type}

def bind (o : Outcome n Loc Ret) (f : Loc → Outcome n Loc' Ret) : Outcome n Loc' Ret :=
  match o.next with
  | .ok l => ⟨(f l).next, o.posted ++ (f l).posted⟩
  | .error e => ⟨.error e, o.posted⟩

def map (f : Loc → Loc') (g : Ret → Ret') (o : Outcome n Loc Ret) : Outcome n Loc' Ret' :=
  ⟨match o.next with
    | .ok l => .ok (f l)
    | .error e => .error (g e), o.posted⟩

@[simp] theorem bind_ok (l : Loc) (ws : List (WorkRequest n))
    (f : Loc → Outcome n Loc' Ret) :
    (Outcome.mk (.ok l) ws).bind f = ⟨(f l).next, ws ++ (f l).posted⟩ := rfl

@[simp] theorem bind_error (e : Ret) (ws : List (WorkRequest n))
    (f : Loc → Outcome n Loc' Ret) :
    (Outcome.mk (.error e) ws).bind f = ⟨.error e, ws⟩ := rfl

@[simp] theorem map_ok (f : Loc → Loc') (g : Ret → Ret') (l : Loc)
    (ws : List (WorkRequest n)) :
    (Outcome.mk (.ok l) ws).map f g = ⟨.ok (f l), ws⟩ := rfl

@[simp] theorem map_error (f : Loc → Loc') (g : Ret → Ret') (e : Ret)
    (ws : List (WorkRequest n)) :
    (Outcome.mk (.error e) ws).map f g = ⟨.error (g e), ws⟩ := rfl

end Outcome

/-- A polling program on `n` queue pairs. Queue pair numbers name queue pairs
of one device, so they are distinct. -/
structure Program (n : ℕ) (Loc Ret : Type) where
  qpNum : Fin n → ℕ
  qpNum_injective : Function.Injective qpNum
  maxSendWr : ℕ
  maxRecvWr : ℕ
  numEntries : ℕ
  start : Outcome n Loc Ret
  again : Loc → Bool
  handle : Room n → Loc → IbvWc → Outcome n Loc Ret

/-- One host: its program, what it posted, its completion queue, the polled
entries it still has to handle, and those it has handled. -/
structure Host (n : ℕ) (Loc Ret : Type) where
  loop : Except Ret Loc
  posted : List (WorkRequest n)
  cq : List IbvWc
  wc : List IbvWc
  handled : List IbvWc

namespace Host

variable {n : ℕ} {Loc Ret : Type}

def requests (h : Host n Loc Ret) (k : Queue) (q : Fin n) : List (WorkRequest n) :=
  onQueue k q h.posted

/-- Every completion the host ever got, in order. -/
def completions (h : Host n Loc Ret) : List IbvWc := h.handled ++ h.wc ++ h.cq

def complete (h : Host n Loc Ret) (w : IbvWc) : Host n Loc Ret :=
  { h with cq := h.cq ++ [w] }

/-- The host is in its loop: it handles a batch, or its loop test holds. -/
def InLoop (P : Program n Loc Ret) (h : Host n Loc Ret) : Prop :=
  ∃ l, h.loop = .ok l ∧ (P.again l = true ∨ h.wc ≠ [])

/-- The host has left its loop by the loop test. -/
def Left (P : Program n Loc Ret) (h : Host n Loc Ret) : Prop :=
  ∃ l, h.loop = .ok l ∧ P.again l = false ∧ h.wc = []

instance (P : Program n Loc Ret) (h : Host n Loc Ret) : Decidable (h.Left P) :=
  match hl : h.loop with
  | .ok l => decidable_of_iff (P.again l = false ∧ h.wc = [])
      ⟨fun hd => ⟨l, hl, hd⟩, fun ⟨_, he, hd⟩ => by rw [hl] at he; cases he; exact hd⟩
  | .error _ => isFalse (by rintro ⟨_, he, _⟩; rw [hl] at he; cases he)

theorem InLoop.not_left {P : Program n Loc Ret} {h : Host n Loc Ret} (hi : h.InLoop P) :
    ¬ h.Left P := by
  rintro ⟨l, hl, ha, hw⟩
  obtain ⟨l', hl', hor⟩ := hi
  rw [hl] at hl'
  cases hl'
  rcases hor with h | h
  · rw [ha] at h; cases h
  · exact h hw

end Host

/-- How many of the completions `ws` are of queue `k` of queue pair `q`. -/
def count {n : ℕ} {Loc Ret : Type} (P : Program n Loc Ret) (k : Queue) (q : Fin n)
    (ws : List IbvWc) : ℕ :=
  ws.countP (fun w => w.opcode = k ∧ w.qpNum = P.qpNum q)

structure State (n : ℕ) (Loc Ret : Type) where
  host : Role → Host n Loc Ret
  arrived : Role → Fin n → ℕ
  lost : Role → Fin n → ℕ

inductive Action (n : ℕ)
  | deliver (X : Role) (q : Fin n)
  | vanish (X : Role) (q : Fin n)
  | abort (X : Role) (q : Fin n)
  | poll (X : Role) (k : ℕ)
  | handle (X : Role)
  deriving DecidableEq, Repr

/-- No message comes back as an error completion. -/
def Silent {n : ℕ} {Loc Ret : Type} (_ : State n Loc Ret) : Action n → Prop
  | .abort _ _ => False
  | _ => True

instance {n : ℕ} {Loc Ret : Type} (s : State n Loc Ret) (a : Action n) :
    Decidable (Silent s a) := by
  cases a <;> unfold Silent <;> infer_instance

namespace State

variable {n : ℕ} {Loc Ret : Type}

def sends (s : State n Loc Ret) (X : Role) (q : Fin n) : ℕ :=
  ((s.host X).requests .send q).length

def recvs (s : State n Loc Ret) (X : Role) (q : Fin n) : ℕ :=
  ((s.host X).requests .recv q).length

/-- Messages of `X` on queue pair `q` that were sent and have not reached the peer. -/
def inFlight (s : State n Loc Ret) (X : Role) (q : Fin n) : ℕ :=
  s.sends X q - (s.arrived X q + s.lost X q)

/-- Receives posted by `X` on queue pair `q` that no message has consumed. -/
def recvQueue (s : State n Loc Ret) (X : Role) (q : Fin n) : ℕ :=
  s.recvs X q - s.arrived X.peer q

/-- Sends posted by `X` on queue pair `q` whose completion has not been polled. -/
def sendQueue (P : Role → Program n Loc Ret) (s : State n Loc Ret) (X : Role)
    (q : Fin n) : ℕ :=
  s.sends X q - count (P X) .send q ((s.host X).handled ++ (s.host X).wc)

def room (P : Role → Program n Loc Ret) (s : State n Loc Ret) (X : Role) : Room n where
  send q := (P X).maxSendWr - s.sendQueue P X q
  recv q := (P X).maxRecvWr - s.recvQueue X q

def setHost (s : State n Loc Ret) (X : Role) (h : Host n Loc Ret) : State n Loc Ret :=
  { s with host := Function.update s.host X h }

@[simp] theorem setHost_self (s : State n Loc Ret) (X : Role) (h : Host n Loc Ret) :
    (s.setHost X h).host X = h := by simp [setHost]

theorem setHost_ne (s : State n Loc Ret) {X Y : Role} (h : Host n Loc Ret) (hY : Y ≠ X) :
    (s.setHost X h).host Y = s.host Y := by simp [setHost, hY]

@[simp] theorem setHost_arrived (s : State n Loc Ret) (X : Role) (h : Host n Loc Ret) :
    (s.setHost X h).arrived = s.arrived := rfl

@[simp] theorem setHost_lost (s : State n Loc Ret) (X : Role) (h : Host n Loc Ret) :
    (s.setHost X h).lost = s.lost := rfl

end State

section System

variable {n : ℕ} {Loc Ret : Type} (P : Role → Program n Loc Ret)

/-- The hosts after `w`, sent by `X` on `q`, has consumed the receive `r` of the peer. -/
def delivered (s : State n Loc Ret) (X : Role) (q : Fin n) (w r : WorkRequest n) :
    State n Loc Ret :=
  { s with
    host := fun Y =>
      if Y = X then (s.host X).complete ⟨w.wrId, ibvWcSuccess, .send, (P X).qpNum q⟩
      else (s.host X.peer).complete ⟨r.wrId, ibvWcSuccess, .recv, (P X.peer).qpNum q⟩
    arrived := bump s.arrived X q }

/-- Handling the entry `w` of the batch; `ws` is the rest of it. -/
def handled (h : Host n Loc Ret) (o : Outcome n Loc Ret) (w : IbvWc) (ws : List IbvWc) :
    Host n Loc Ret :=
  match o.next with
  | .ok l => { h with
      loop := .ok l, posted := h.posted ++ o.posted, wc := ws, handled := h.handled ++ [w] }
  | .error e => { h with loop := .error e, posted := h.posted ++ o.posted }

/-- Requests on one queue are served in the order they were posted. -/
def step (s : State n Loc Ret) : Action n → Option (State n Loc Ret)
  | .deliver X q =>
    match ((s.host X).requests .send q)[s.arrived X q + s.lost X q]?,
      ((s.host X.peer).requests .recv q)[s.arrived X q]? with
    | some w, some r => some (delivered P s X q w r)
    | _, _ => none
  | .vanish X q =>
    if (s.host X.peer).Left (P X.peer) ∧ 0 < s.inFlight X q then
      some { s with lost := bump s.lost X q }
    else none
  | .abort X q =>
    match ((s.host X).requests .send q)[s.arrived X q + s.lost X q]? with
    | some w =>
      if (s.host X.peer).Left (P X.peer) then
        some { s.setHost X
            ((s.host X).complete ⟨w.wrId, ibvWcRetryExcErr, .send, (P X).qpNum q⟩) with
          lost := bump s.lost X q }
      else none
    | none => none
  | .poll X k =>
    match (s.host X).loop with
    | .ok l =>
      if (P X).again l = true ∧ (s.host X).wc = [] ∧ 0 < k ∧ k ≤ (P X).numEntries ∧
          k ≤ (s.host X).cq.length then
        some (s.setHost X { s.host X with
          wc := (s.host X).cq.take k, cq := (s.host X).cq.drop k })
      else none
    | .error _ => none
  | .handle X =>
    match (s.host X).loop, (s.host X).wc with
    | .ok l, w :: ws =>
      some (s.setHost X (handled (s.host X) ((P X).handle (s.room P X) l w) w ws))
    | _, _ => none

def system : Machine (State n Loc Ret) (Action n) where
  init :=
    { host := fun X => ⟨(P X).start.next, (P X).start.posted, [], [], []⟩
      arrived := fun _ _ => 0
      lost := fun _ _ => 0 }
  step := step P

end System

section Steps

variable {n : ℕ} {Loc Ret : Type} {P : Role → Program n Loc Ret} {s t : State n Loc Ret}

theorem step_deliver {X : Role} {q : Fin n} (h : step P s (.deliver X q) = some t) :
    ∃ w r, w ∈ (s.host X).requests .send q ∧ r ∈ (s.host X.peer).requests .recv q ∧
      s.arrived X q + s.lost X q < s.sends X q ∧ s.arrived X q < s.recvs X.peer q ∧
      t = delivered P s X q w r := by
  simp only [step] at h
  split at h
  · rename_i w r hw hr
    refine ⟨w, r, List.mem_of_getElem? hw, List.mem_of_getElem? hr, ?_, ?_, ?_⟩
    · exact (List.getElem?_eq_some_iff.mp hw).1
    · exact (List.getElem?_eq_some_iff.mp hr).1
    · exact (Option.some.inj h).symm
  · cases h

theorem deliver_enabled {X : Role} {q : Fin n}
    (hs : s.arrived X q + s.lost X q < s.sends X q) (hr : s.arrived X q < s.recvs X.peer q) :
    (system P).Enabled s (.deliver X q) := by
  apply Machine.enabled_of_isSome
  show (step P s (.deliver X q)).isSome = true
  simp only [step]
  rw [List.getElem?_eq_getElem hs, List.getElem?_eq_getElem hr]
  rfl

theorem step_vanish {X : Role} {q : Fin n} (h : step P s (.vanish X q) = some t) :
    (s.host X.peer).Left (P X.peer) ∧ s.arrived X q + s.lost X q < s.sends X q ∧
      t = { s with lost := bump s.lost X q } := by
  simp only [step] at h
  split_ifs at h with hc
  obtain ⟨hl, hf⟩ := hc
  refine ⟨hl, ?_, (Option.some.inj h).symm⟩
  unfold State.inFlight at hf
  omega

theorem step_abort {X : Role} {q : Fin n} (h : step P s (.abort X q) = some t) :
    (s.host X.peer).Left (P X.peer) ∧ s.arrived X q + s.lost X q < s.sends X q := by
  simp only [step] at h
  split at h
  · rename_i w hw
    split_ifs at h with hl
    exact ⟨hl, (List.getElem?_eq_some_iff.mp hw).1⟩
  · cases h

theorem step_poll {X : Role} {k : ℕ} (h : step P s (.poll X k) = some t) :
    ∃ l, (s.host X).loop = .ok l ∧ (P X).again l = true ∧ (s.host X).wc = [] ∧ 0 < k ∧
      t = s.setHost X { s.host X with
        wc := (s.host X).cq.take k, cq := (s.host X).cq.drop k } := by
  simp only [step] at h
  split at h
  · rename_i l hl
    split_ifs at h with hc
    exact ⟨l, hl, hc.1, hc.2.1, hc.2.2.1, (Option.some.inj h).symm⟩
  · cases h

theorem step_handle {X : Role} (h : step P s (.handle X) = some t) :
    ∃ l w ws, (s.host X).loop = .ok l ∧ (s.host X).wc = w :: ws ∧
      t = s.setHost X (handled (s.host X) ((P X).handle (s.room P X) l w) w ws) := by
  simp only [step] at h
  split at h
  · rename_i l w ws hl hw
    exact ⟨l, w, ws, hl, hw, (Option.some.inj h).symm⟩
  · cases h

/-- A polled entry can always be handled. -/
theorem handle_enabled {X : Role} {l : Loc} (hl : (s.host X).loop = .ok l)
    (hw : (s.host X).wc ≠ []) : (system P).Enabled s (.handle X) := by
  obtain ⟨w, ws, he⟩ := List.exists_cons_of_ne_nil hw
  apply Machine.enabled_of_isSome
  show (step P s (.handle X)).isSome = true
  simp only [step, hl, he, Option.isSome_some]

/-- Somebody can move: a polled entry can be handled or, when no batch is being
handled, a message can reach a host still in its loop, or such a host can poll. -/
structure CanProceed (P : Role → Program n Loc Ret) (s : State n Loc Ret) : Prop where
  batch : ∀ X, (s.host X).wc ≠ [] → (system P).Enabled s (.handle X)
  between : (∀ X, (s.host X).wc = []) →
    (∃ X q, (s.host X.peer).InLoop (P X.peer) ∧ (system P).Enabled s (.deliver X q)) ∨
      ∃ X, (s.host X).InLoop (P X) ∧ (s.host X).cq ≠ [] ∧ (system P).Enabled s (.poll X 1)

/-- A host in its loop with an empty batch polls whatever its queue holds. -/
theorem poll_enabled {X : Role} {l : Loc} (hl : (s.host X).loop = .ok l)
    (ha : (P X).again l = true) (hw : (s.host X).wc = []) (hn : 0 < (P X).numEntries)
    (hcq : (s.host X).cq ≠ []) : (system P).Enabled s (.poll X 1) := by
  have hlen : 1 ≤ (s.host X).cq.length := List.length_pos_iff.mpr hcq
  apply Machine.enabled_of_isSome
  show (step P s (.poll X 1)).isSome = true
  simp only [step, hl]
  rw [if_pos ⟨ha, hw, Nat.one_pos, hn, hlen⟩]
  rfl

end Steps

section Count

variable {n : ℕ} {Loc Ret : Type} (P : Program n Loc Ret)

@[simp] theorem count_nil (k : Queue) (q : Fin n) : count P k q [] = 0 := rfl

@[simp] theorem count_append (k : Queue) (q : Fin n) (ws ws' : List IbvWc) :
    count P k q (ws ++ ws') = count P k q ws + count P k q ws' := List.countP_append

theorem count_cons (k : Queue) (q : Fin n) (w : IbvWc) (ws : List IbvWc) :
    count P k q (w :: ws) = count P k q [w] + count P k q ws :=
  count_append P k q [w] ws

/-- A completion of queue pair `q` counts for `q` and for no other queue pair. -/
theorem count_singleton (k : Queue) (q r : Fin n) (w : IbvWc) (hw : w.qpNum = P.qpNum q) :
    count P k r [w] = if w.opcode = k ∧ r = q then 1 else 0 := by
  have he : w.qpNum = P.qpNum r ↔ r = q := by
    rw [hw]
    exact ⟨fun h => (P.qpNum_injective h).symm, fun h => h ▸ rfl⟩
  simp [count, List.countP_cons, he]

/-- Completions of the program's own queue pairs are counted once each. -/
theorem length_eq_sum_count {ws : List IbvWc} (hw : ∀ w ∈ ws, ∃ q, w.qpNum = P.qpNum q) :
    ws.length = ∑ q, (count P .send q ws + count P .recv q ws) := by
  induction ws with
  | nil => simp
  | cons w ws ih =>
    obtain ⟨⟨q, hq⟩, hws⟩ := List.forall_mem_cons.mp hw
    have hone : ∑ r, (count P .send r [w] + count P .recv r [w]) = 1 := by
      simp only [count_singleton P _ q _ w hq]
      cases w.opcode <;> simp
    have hsplit : ∀ r, count P .send r (w :: ws) + count P .recv r (w :: ws) =
        (count P .send r [w] + count P .recv r [w]) +
          (count P .send r ws + count P .recv r ws) := by
      intro r
      rw [count_cons P .send, count_cons P .recv]
      omega
    simp only [hsplit, Finset.sum_add_distrib, List.length_cons, ih hws] at *
    omega

end Count

section Delivered

variable {n : ℕ} {Loc Ret : Type} (P : Role → Program n Loc Ret) (s : State n Loc Ret)
  (X Y : Role) (q : Fin n) (w r : WorkRequest n)

/-- The completion that a delivery leaves at `Y`. -/
def arrival : IbvWc :=
  if Y = X then ⟨w.wrId, ibvWcSuccess, .send, (P X).qpNum q⟩
  else ⟨r.wrId, ibvWcSuccess, .recv, (P X.peer).qpNum q⟩

/-- A delivery does nothing but append one completion at each side. -/
theorem delivered_host :
    (delivered P s X q w r).host Y = (s.host Y).complete (arrival P X Y q w r) := by
  by_cases hY : Y = X
  · subst Y; simp [delivered, arrival]
  · obtain rfl := Role.eq_peer_of_ne hY
    simp [delivered, arrival]

@[simp] theorem delivered_loop : ((delivered P s X q w r).host Y).loop = (s.host Y).loop := by
  rw [delivered_host]; rfl

@[simp] theorem delivered_posted :
    ((delivered P s X q w r).host Y).posted = (s.host Y).posted := by
  rw [delivered_host]; rfl

@[simp] theorem delivered_wc : ((delivered P s X q w r).host Y).wc = (s.host Y).wc := by
  rw [delivered_host]; rfl

@[simp] theorem delivered_handled :
    ((delivered P s X q w r).host Y).handled = (s.host Y).handled := by
  rw [delivered_host]; rfl

theorem delivered_cq : ((delivered P s X q w r).host Y).cq =
    (s.host Y).cq ++ [arrival P X Y q w r] := by
  rw [delivered_host]; rfl

theorem delivered_completions : ((delivered P s X q w r).host Y).completions =
    (s.host Y).completions ++ [arrival P X Y q w r] := by
  simp [Host.completions, delivered_cq]

@[simp] theorem delivered_sends : (delivered P s X q w r).sends = s.sends := by
  funext Y u; simp [State.sends, Host.requests]

@[simp] theorem delivered_recvs : (delivered P s X q w r).recvs = s.recvs := by
  funext Y u; simp [State.recvs, Host.requests]

@[simp] theorem delivered_arrived :
    (delivered P s X q w r).arrived = bump s.arrived X q := rfl

@[simp] theorem delivered_lost : (delivered P s X q w r).lost = s.lost := rfl

end Delivered

section Books

variable {n : ℕ} {Loc Ret : Type}

/-- Where a completion comes from: a request posted on the queue it reports. -/
def Reports (P : Program n Loc Ret) (h : Host n Loc Ret) (w : IbvWc) : Prop :=
  w.status = ibvWcSuccess ∧
    ∃ q, w.qpNum = P.qpNum q ∧ ∃ r ∈ h.requests w.opcode q, w.wrId = r.wrId

theorem Reports.mono {P : Program n Loc Ret} {h h' : Host n Loc Ret} {w : IbvWc}
    (hw : Reports P h w) (hp : h.posted ⊆ h'.posted) : Reports P h' w := by
  obtain ⟨hs, q, hq, r, hr, hid⟩ := hw
  refine ⟨hs, q, hq, r, ?_, hid⟩
  simp only [Host.requests, mem_onQueue] at *
  exact ⟨hp hr.1, hr.2⟩

/-- The books of the transport balance: every arrival left one completion at
each side, and nothing arrived that was not sent and awaited by a receive. -/
structure Balanced (P : Role → Program n Loc Ret) (s : State n Loc Ret) : Prop where
  sent : ∀ X q, s.arrived X q + s.lost X q ≤ s.sends X q
  ready : ∀ X q, s.arrived X q ≤ s.recvs X.peer q
  acks : ∀ X q, count (P X) .send q (s.host X).completions = s.arrived X q
  msgs : ∀ X q, count (P X) .recv q (s.host X).completions = s.arrived X.peer q
  reports : ∀ X, ∀ w ∈ (s.host X).completions, Reports (P X) (s.host X) w
  lost_left : ∀ X q, 0 < s.lost X q → (s.host X.peer).Left (P X.peer)

variable {P : Role → Program n Loc Ret} {s : State n Loc Ret}

theorem Host.requests_length_le {h h' : Host n Loc Ret} {ws : List (WorkRequest n)}
    (he : h'.posted = h.posted ++ ws) (k : Queue) (q : Fin n) :
    (h.requests k q).length ≤ (h'.requests k q).length := by
  simp [Host.requests, he]

/-- Handling an entry moves it within the history; nothing is forgotten. -/
theorem handled_completions {h : Host n Loc Ret} {w : IbvWc} {ws : List IbvWc}
    (hw : h.wc = w :: ws) (o : Outcome n Loc Ret) :
    (handled h o w ws).completions = h.completions := by
  unfold handled Host.completions
  cases o.next with
  | ok l => simp [hw]
  | error e => rfl

theorem handled_posted (h : Host n Loc Ret) (o : Outcome n Loc Ret) (w : IbvWc)
    (ws : List IbvWc) : (handled h o w ws).posted = h.posted ++ o.posted := by
  unfold handled
  cases o.next <;> rfl

@[simp] theorem handled_cq (h : Host n Loc Ret) (o : Outcome n Loc Ret) (w : IbvWc)
    (ws : List IbvWc) : (handled h o w ws).cq = h.cq := by
  unfold handled
  cases o.next <;> rfl

theorem handled_wc (h : Host n Loc Ret) {o : Outcome n Loc Ret} (w : IbvWc)
    (ws : List IbvWc) {l : Loc} (ho : o.next = .ok l) : (handled h o w ws).wc = ws := by
  simp [handled, ho]

theorem balanced_init : Balanced P (system P).init := by
  refine ⟨?_, ?_, ?_, ?_, ?_, ?_⟩ <;> intros <;> simp_all [system, Host.completions]

theorem Balanced.deliver (h : Balanced P s) {X : Role} {q : Fin n} {w r : WorkRequest n}
    (hw : w ∈ (s.host X).requests .send q) (hr : r ∈ (s.host X.peer).requests .recv q)
    (hs : s.arrived X q + s.lost X q < s.sends X q) (hp : s.arrived X q < s.recvs X.peer q) :
    Balanced P (delivered P s X q w r) := by
  refine ⟨?_, ?_, ?_, ?_, ?_, ?_⟩
  · intro Y u
    have hl := h.sent Y u
    rw [delivered_sends, delivered_arrived, delivered_lost]
    unfold bump
    split_ifs with he
    · obtain ⟨rfl, rfl⟩ := he; omega
    · exact hl
  · intro Y u
    have hl := h.ready Y u
    rw [delivered_recvs, delivered_arrived]
    unfold bump
    split_ifs with he
    · obtain ⟨rfl, rfl⟩ := he; omega
    · exact hl
  · intro Y u
    rw [delivered_completions, count_append, h.acks, delivered_arrived]
    by_cases hY : Y = X
    · subst Y
      rw [arrival, if_pos rfl, count_singleton (P X) .send q u _ rfl]
      by_cases hu : u = q <;> simp [bump, hu]
    · obtain rfl := Role.eq_peer_of_ne hY
      rw [arrival, if_neg hY, count_singleton (P X.peer) .send q u _ rfl]
      simp [bump]
  · intro Y u
    rw [delivered_completions, count_append, h.msgs, delivered_arrived]
    by_cases hY : Y = X
    · subst Y
      rw [arrival, if_pos rfl, count_singleton (P X) .recv q u _ rfl]
      simp [bump]
    · obtain rfl := Role.eq_peer_of_ne hY
      rw [arrival, if_neg hY, count_singleton (P X.peer) .recv q u _ rfl, Role.peer_peer]
      by_cases hu : u = q <;> simp [bump, hu]
  · intro Y v hv
    have hsub : (s.host Y).posted ⊆ ((delivered P s X q w r).host Y).posted := by simp
    rw [delivered_completions, List.mem_append, List.mem_singleton] at hv
    rcases hv with hv | rfl
    · exact (h.reports Y v hv).mono hsub
    · refine Reports.mono ?_ hsub
      by_cases hY : Y = X
      · subst Y
        rw [arrival, if_pos rfl]
        exact ⟨rfl, q, rfl, w, hw, rfl⟩
      · obtain rfl := Role.eq_peer_of_ne hY
        rw [arrival, if_neg hY]
        exact ⟨rfl, q, rfl, r, hr, rfl⟩
  · intro Y u hu
    obtain ⟨l, hl, ha, hwc⟩ := h.lost_left Y u hu
    exact ⟨l, by rw [delivered_loop]; exact hl, ha, by rw [delivered_wc]; exact hwc⟩

/-- A change of one host that only posts and moves entries along keeps the books. -/
theorem Balanced.setHost (h : Balanced P s) {X : Role} {g : Host n Loc Ret}
    {ws : List (WorkRequest n)} (hp : g.posted = (s.host X).posted ++ ws)
    (hc : g.completions = (s.host X).completions) (hl : ¬ (s.host X).Left (P X)) :
    Balanced P (s.setHost X g) := by
  have hsub : (s.host X).posted ⊆ g.posted := by simp [hp]
  have hreq : ∀ Y k q, ((s.host Y).requests k q).length ≤
      (((s.setHost X g).host Y).requests k q).length := by
    intro Y k q
    by_cases hY : Y = X
    · subst Y
      rw [State.setHost_self]
      exact Host.requests_length_le hp k q
    · rw [State.setHost_ne s g hY]
  have hcompl : ∀ Y, ((s.setHost X g).host Y).completions = (s.host Y).completions := by
    intro Y
    by_cases hY : Y = X
    · subst Y; rw [State.setHost_self, hc]
    · rw [State.setHost_ne s g hY]
  refine ⟨?_, ?_, ?_, ?_, ?_, ?_⟩
  · exact fun Y q => (h.sent Y q).trans (hreq Y .send q)
  · exact fun Y q => (h.ready Y q).trans (hreq Y.peer .recv q)
  · exact fun Y q => by rw [hcompl]; exact h.acks Y q
  · exact fun Y q => by rw [hcompl]; exact h.msgs Y q
  · intro Y w hw
    rw [hcompl] at hw
    have hr := h.reports Y w hw
    by_cases hY : Y = X
    · subst Y; rw [State.setHost_self]; exact hr.mono hsub
    · rw [State.setHost_ne s g hY]; exact hr
  · intro Y q hq
    have hleft := h.lost_left Y q hq
    have hY : Y.peer ≠ X := by
      intro he
      exact hl (he ▸ hleft)
    rw [State.setHost_ne s g hY]
    exact hleft

theorem Balanced.next (h : Balanced P s) {a : Action n} {t : State n Loc Ret}
    (ha : Silent s a) (hst : step P s a = some t) : Balanced P t := by
  cases a with
  | deliver X q =>
    obtain ⟨w, r, hw, hr, hs, hp, rfl⟩ := step_deliver hst
    exact h.deliver hw hr hs hp
  | vanish X q =>
    obtain ⟨hleft, hf, rfl⟩ := step_vanish hst
    refine { h with sent := ?_, lost_left := ?_ }
    · intro Y u
      have hl := h.sent Y u
      show s.arrived Y u + bump s.lost X q Y u ≤ s.sends Y u
      unfold bump
      split_ifs with he
      · obtain ⟨rfl, rfl⟩ := he; omega
      · exact hl
    · intro Y u hu
      by_cases he : Y = X ∧ u = q
      · obtain ⟨rfl, rfl⟩ := he; exact hleft
      · exact h.lost_left Y u (by simpa [bump, if_neg he] using hu)
  | abort X q => exact ha.elim
  | poll X k =>
    obtain ⟨l, hl, hagain, hwc, _, rfl⟩ := step_poll hst
    refine h.setHost (List.append_nil _).symm ?_ ?_
    · simp [Host.completions, hwc]
    · exact Host.InLoop.not_left ⟨l, hl, .inl hagain⟩
  | handle X =>
    obtain ⟨l, w, ws, hl, hw, rfl⟩ := step_handle hst
    refine h.setHost (handled_posted _ _ _ _) (handled_completions hw _) ?_
    exact Host.InLoop.not_left ⟨l, hl, .inr (by simp [hw])⟩

theorem balanced_of_reachable (h : (system P).ReachableBy Silent s) : Balanced P s :=
  h.invariant balanced_init (fun _ _ _ hb ha hst => hb.next ha hst)

end Books

end InfinibandWorkshop.Verbs
