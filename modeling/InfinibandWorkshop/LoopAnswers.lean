import InfinibandWorkshop.PingPongThread

/-!
# The loop body on the answers of a device

The loops of the two programs are modelled twice: over the room that a device has for
posts, where they are compared with each other and with the traffic, and over the answers
to single calls, where their exits are. A device with some room gives answers, and on
these the second model does what the first one does.
-/
namespace InfinibandWorkshop.ThreadExits
open Calls Verbs
open Multistream (Locals findQp pingpongRecvWrid pingpongSendWrid)

variable {n : ℕ} {α β : Type} {r : Exit}

section Answers

def postCall : Queue → Call
  | .send => .postSend
  | .recv => .postRecv

/-- The post that is refused, where the program gives up for one. -/
def refusal : Except Multistream.Exit α → List Event
  | .ok _ => []
  | .error e =>
    match e.cause with
    | .postReceive _ => [.served .postRecv false]
    | .postSend => [.served .postSend false]
    | _ => []

/-- A device serves posts as long as it has room. -/
def answers (o : Outcome n α Multistream.Exit) : List Event :=
  o.posted.map (fun w => .served (postCall w.queue) true) ++ refusal o.next

/-- On the device's answers the program ends like the outcome, with code `r` if it fails. -/
def Follows (r : Exit) (x : Calls Event Exit α) (o : Outcome n α Multistream.Exit) : Prop :=
  ∀ rest, x (answers o ++ rest) =
    match o.next with
    | .ok a => .done a rest
    | .error _ => .returned r rest

theorem follows_pure (a : α) : Follows r (pure a) (⟨.ok a, []⟩ : Outcome n α Multistream.Exit) :=
  fun _ => rfl

theorem Follows.bind {x : Calls Event Exit α} {o : Outcome n α Multistream.Exit}
    {f : α → Calls Event Exit β} {g : α → Outcome n β Multistream.Exit} (hx : Follows r x o)
    (hf : ∀ a, Follows r (f a) (g a)) : Follows r (x >>= f) (o.bind g) := by
  intro rest
  obtain ⟨next, posted⟩ := o
  cases next with
  | error e =>
    have hreturned := hx rest
    exact bind_eq_returned.mpr (Or.inl hreturned)
  | ok a =>
    have hanswers : answers ((⟨.ok a, posted⟩ : Outcome n α Multistream.Exit).bind g) ++ rest =
        answers (⟨.ok a, posted⟩ : Outcome n α Multistream.Exit) ++ (answers (g a) ++ rest) := by
      simp only [answers, Outcome.bind_ok, List.map_append, refusal, List.append_assoc,
        List.nil_append]
    rw [hanswers, bind_of_done (hx _)]
    exact hf a rest

theorem served_cons (c : Call) (ok : Bool) (as : List Event) :
    served c (.served c ok :: as) = .done ok as := by
  simp only [served, ask, if_true]

theorem ppPostRecv_full (m : ℕ) (rest : List Event) :
    ppPostRecv m (List.replicate m (.served .postRecv true) ++ rest) = .done m rest := by
  induction m with
  | zero => rfl
  | succ m ih =>
    rw [List.replicate_succ, List.cons_append, ppPostRecv, bind_of_done (served_cons _ _ _),
      if_pos rfl, bind_of_done ih]
    rfl

theorem ppPostRecv_refused {k m : ℕ} (h : k < m) (rest : List Event) :
    ppPostRecv m (List.replicate k (.served .postRecv true) ++
      .served .postRecv false :: rest) = .done k rest := by
  induction k generalizing m with
  | zero =>
    obtain ⟨m, rfl⟩ := Nat.exists_eq_add_of_lt h
    rw [Nat.zero_add, List.replicate_zero, List.nil_append, ppPostRecv,
      bind_of_done (served_cons _ _ _)]
    rfl
  | succ k ih =>
    obtain ⟨m, rfl⟩ := Nat.exists_eq_add_of_le' (Nat.one_le_of_lt h)
    rw [List.replicate_succ, List.cons_append, ppPostRecv, bind_of_done (served_cons _ _ _),
      if_pos rfl, bind_of_done (ih (Nat.lt_of_succ_lt_succ h))]
    rfl

end Answers

section Body

variable (ctx : Multistream.PingpongContext n) (iters : ℕ) (room : Room n) (q : Fin n)
  (s : Locals n)

theorem follows_creditReceive :
    Follows r (creditReceive ctx.rxDepth r q s) (Multistream.creditReceive ctx room q s) := by
  intro rest
  by_cases hlow : s.routsArr q - 1 ≤ 1
  · simp only [creditReceive, Multistream.creditReceive, if_pos hlow,
      Multistream.ppPostRecvPQp_eq, List.length_replicate]
    -- `m` posts are asked for, and there is room for `k` of them
    generalize hm : ((ctx.rxDepth : ℤ) - (s.routsArr q - 1)).toNat = m
    generalize hk : min (room.recv q) m = k
    have hle : k ≤ m := by omega
    by_cases hless : s.routsArr q - 1 + k < ctx.rxDepth
    · have hposts := ppPostRecv_refused (show k < m by omega) rest
      simp only [if_pos hless, answers, refusal, List.map_replicate, List.append_assoc,
        List.singleton_append]
      refine (bind_of_done hposts).trans ?_
      rw [require_bind_of_not (decide_eq_false (not_not.mpr hless))]
      rfl
    · have hall : k = m := by omega
      have hposts := ppPostRecv_full k rest
      simp only [if_neg hless, answers, refusal, List.map_replicate, List.append_nil]
      rw [← hall]
      refine (bind_of_done hposts).trans ?_
      rw [require_bind_of (decide_eq_true hless)]
      rfl
  · simp only [creditReceive, Multistream.creditReceive, if_neg hlow]
    rfl

theorem follows_countCompletion (id : BitVec 32) :
    Follows r (countCompletion ctx.rxDepth r q id s)
      (Multistream.countCompletion ctx room q id s) := by
  by_cases hsend : id = pingpongSendWrid
  · simp only [countCompletion, Multistream.countCompletion, if_pos hsend]
    exact follows_pure _
  · by_cases hrecv : id = pingpongRecvWrid
    · simp only [countCompletion, Multistream.countCompletion, if_neg hsend, if_pos hrecv]
      exact (follows_creditReceive ctx room q s).bind (fun s => follows_pure _)
    · simp only [countCompletion, Multistream.countCompletion, if_neg hsend, if_neg hrecv]
      exact fun rest => rfl

theorem follows_repost (id : BitVec 32) :
    Follows r (repost iters r q id s) (Multistream.repost ctx iters room q id s) := by
  intro rest
  by_cases hpost : s.scnt < iters ∧ s.pendingQp q &&& ~~~id = 0
  · simp only [repost, Multistream.repost, if_pos hpost]
    by_cases hroom : room.send q = 0
    · simp only [Multistream.ppPostSendQp, if_pos hroom]
      rfl
    · simp only [Multistream.ppPostSendQp, if_neg hroom]
      rfl
  · simp only [repost, Multistream.repost, if_neg hpost]
    rfl

/-- The body of the loop, for a completion that is looked up in the same way. -/
theorem follows_handleCompletion (find : ℕ → Option (Fin n)) (w : IbvWc)
    (hfind : find w.qpNum = findQp ctx w.qpNum) :
    Follows r (handleCompletion ctx.rxDepth iters find r s w)
      (Multistream.handleCompletion ctx iters room s w) := by
  cases hq : findQp ctx w.qpNum with
  | none =>
    simp only [handleCompletion, Multistream.handleCompletion, hfind, hq]
    exact fun rest => rfl
  | some q =>
    simp only [handleCompletion, Multistream.handleCompletion, hfind, hq]
    by_cases hstatus : w.status ≠ ibvWcSuccess
    · simp only [if_pos hstatus]
      exact fun rest => rfl
    · simp only [if_neg hstatus]
      exact (follows_countCompletion ctx room q s _).bind
        (fun s => follows_repost ctx iters room q s _)

/-- multistreamTestRunner.c. -/
theorem multistream_follows (w : IbvWc) :
    Follows (.code (-1)) (handleCompletion ctx.rxDepth iters (findQp ctx) (.code (-1)) s w)
      (Multistream.handleCompletion ctx iters room s w) :=
  follows_handleCompletion ctx iters room s (findQp ctx) w rfl

/-- multithreadIB.c, for a completion of its queue pair. -/
theorem multithread_follows (c : Multithread.Config) (X : Role) (room : Room 1)
    (s : Multithread.Locals) (w : IbvWc) (hw : w.qpNum = c.qpNum X) :
    Follows (.code 1)
      (handleCompletion c.rxDepth c.iters MultithreadIB.findQp (.code 1) s.spread w)
      ((Multithread.handleCompletion (c.ctx X) c.iters room s w).map Multithread.Locals.spread
        Multithread.Exit.spread) := by
  rw [← Multithread.handleCompletion_spread c X room s w hw]
  apply follows_handleCompletion (c.single.ctx X) c.iters room s.spread
  rw [hw]
  exact (Multistream.findQp_self (c.single.ctx X) (0 : Fin 1)).symm

end Body

end InfinibandWorkshop.ThreadExits
