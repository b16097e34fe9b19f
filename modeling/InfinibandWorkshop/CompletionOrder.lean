import InfinibandWorkshop.Interleaving
import InfinibandWorkshop.MultistreamLoop
import InfinibandWorkshop.PollLoop

/-!
# The order of completions in multistreamTestRunner.c

The queue pairs share the two counters and nothing else. As long as the sends counted
stay below `iters`, the test that gates the next send does not depend on the others, and
each completion changes its own queue pair alone. Then it does not matter how the
completions of different queue pairs are interleaved, nor which polls return them.
-/
namespace InfinibandWorkshop.Multistream
open Verbs Interleaving

/-- What the loop keeps of one queue pair, with the requests posted on it and the
completions handled for it. -/
structure QpView (n : ℕ) where
  pending : BitVec 32
  routs : ℤ
  posted : List (WorkRequest n)
  handled : List IbvWc

/-- The state of the loop, queue pair by queue pair. -/
structure Summary (n : ℕ) where
  scnt : ℕ
  rcnt : ℕ
  qp : Fin n → QpView n

/-- A device that answers for each queue pair by what was posted and handled there. -/
structure QpDevice (n : ℕ) where
  send : Fin n → List (WorkRequest n) → List IbvWc → ℕ
  recv : Fin n → List (WorkRequest n) → List IbvWc → ℕ

/-- The receives and the sends that a queue pair has room for at a completion. -/
abbrev QpRooms (n : ℕ) : Type := Fin n → QpView n → IbvWc → ℕ × ℕ

section OneQp

variable {n : ℕ} (ctx : PingpongContext n) (dev : QpDevice n)

/-- The requests among `ws` that are on queue pair `q`. -/
def postedOn (q : Fin n) (ws : List (WorkRequest n)) : List (WorkRequest n) :=
  ws.filter (fun w => w.qp = q)

/-- The completions among `ws` that are of queue pair `q`. -/
def handledOf (q : Fin n) (ws : List IbvWc) : List IbvWc :=
  ws.filter (fun w => w.qpNum = ctx.qpNum q)

def QpDevice.device : Device n := fun posted handled =>
  ⟨fun q => dev.send q (postedOn q posted) (handledOf ctx q handled),
    fun q => dev.recv q (postedOn q posted) (handledOf ctx q handled)⟩

def QpDevice.rooms : QpRooms n := fun q v w =>
  (dev.recv q v.posted (v.handled ++ [w]), dev.send q v.posted (v.handled ++ [w]))

/-- Room for whatever the credits ask for. -/
def ampleRooms : QpRooms n := fun _ v _ => (((ctx.rxDepth : ℤ) - (v.routs - 1)).toNat, 1)

/-- The number that the switch looks at. -/
def wcId (w : IbvWc) : BitVec 32 := w.wrId.setWidth 32

def sendCount (ws : List IbvWc) : ℕ := ws.countP (fun w => wcId w = pingpongSendWrid)

def recvCount (ws : List IbvWc) : ℕ := ws.countP (fun w => wcId w = pingpongRecvWrid)

/-- The credits and the refill of one queue pair; `none` where the loop returns. -/
def refill (room : ℕ) (q : Fin n) (id : BitVec 32) (routs : ℤ) :
    Option (ℤ × List (WorkRequest n)) :=
  if id = pingpongSendWrid then some (routs, [])
  else if id = pingpongRecvWrid then
    let routs := routs - 1
    if routs ≤ 1 then
      let ws := ppPostRecvPQp ctx room q (ctx.rxDepth - routs).toNat
      if routs + ws.length < ctx.rxDepth then none else some (routs + ws.length, ws)
    else some (routs, [])
  else none

/-- The pending word of one queue pair and its next send, before the cut-off. -/
def resend (room : ℕ) (q : Fin n) (id : BitVec 32) (pending : BitVec 32) :
    Option (BitVec 32 × List (WorkRequest n)) :=
  if pending &&& ~~~id = 0 then
    (ppPostSendQp ctx room q).map (fun w => (pingpongRecvWrid ||| pingpongSendWrid, [w]))
  else some (pending &&& ~~~id, [])

/-- What a completion does to its queue pair before the cut-off, with room for
`recvRoom` receives and `sendRoom` sends. -/
def QpView.handle (recvRoom sendRoom : ℕ) (q : Fin n) (v : QpView n) (w : IbvWc) :
    Option (QpView n) :=
  if w.status ≠ ibvWcSuccess then none
  else
    (refill ctx recvRoom q (wcId w) v.routs).bind (fun r =>
      (resend ctx sendRoom q (wcId w) v.pending).map (fun p =>
        ⟨p.1, r.1, v.posted ++ (r.2 ++ p.2), v.handled ++ [w]⟩))

/-- And to the whole state: its own queue pair and a counter. -/
def Summary.handle (rooms : QpRooms n) (S : Summary n) (w : IbvWc) : Option (Summary n) :=
  (findQp ctx w.qpNum).bind (fun q =>
    ((S.qp q).handle ctx (rooms q (S.qp q) w).1 (rooms q (S.qp q) w).2 q w).map (fun v =>
      ⟨S.scnt + sendCount [w], S.rcnt + recvCount [w], Function.update S.qp q v⟩))

theorem findQp_eq_some {num : ℕ} {q : Fin n} (h : findQp ctx num = some q) :
    num = ctx.qpNum q := by
  have hp := List.find?_some (p := fun q => decide (num = ctx.qpNum q)) h
  exact of_decide_eq_true hp

theorem summary_handle_of_findQp (rooms : QpRooms n) {w : IbvWc} {q : Fin n}
    (h : findQp ctx w.qpNum = some q) (S : Summary n) : S.handle ctx rooms w =
      ((S.qp q).handle ctx (rooms q (S.qp q) w).1 (rooms q (S.qp q) w).2 q w).map (fun v =>
        ⟨S.scnt + sendCount [w], S.rcnt + recvCount [w], Function.update S.qp q v⟩) := by
  rw [Summary.handle, h, Option.bind_some]

/-- Completions of different queue pairs can be exchanged. -/
theorem summary_commutes (rooms : QpRooms n) :
    Commutes IbvWc.qpNum (Summary.handle ctx rooms) := by
  intro S a b hne
  simp only [Option.bind_eq_bind]
  cases ha : findQp ctx a.qpNum with
  | none => simp [Summary.handle, ha]
  | some q =>
    cases hb : findQp ctx b.qpNum with
    | none => simp [Summary.handle, hb]
    | some r =>
      have hqr : q ≠ r := by
        rintro rfl
        exact hne ((findQp_eq_some ctx ha).trans (findQp_eq_some ctx hb).symm)
      simp only [summary_handle_of_findQp ctx rooms ha, summary_handle_of_findQp ctx rooms hb]
      cases hu : (S.qp q).handle ctx (rooms q (S.qp q) a).1 (rooms q (S.qp q) a).2 q a with
      | none =>
        cases hv : (S.qp r).handle ctx (rooms r (S.qp r) b).1 (rooms r (S.qp r) b).2 r b with
        | none => rfl
        | some v => simp [Function.update_of_ne hqr, hu]
      | some u =>
        cases hv : (S.qp r).handle ctx (rooms r (S.qp r) b).1 (rooms r (S.qp r) b).2 r b with
        | none => simp [Function.update_of_ne hqr.symm, hv]
        | some v =>
          simp only [Option.map_some, Option.bind_some, Function.update_of_ne hqr,
            Function.update_of_ne hqr.symm, hu, hv, Function.update_comm hqr,
            Nat.add_right_comm]

/-- A refill that does not fall short posts what the credits ask for, so more room makes
no difference. -/
theorem refill_ample {m : ℕ} {q : Fin n} {id : BitVec 32} {routs : ℤ}
    {r : ℤ × List (WorkRequest n)} (h : refill ctx m q id routs = some r) :
    refill ctx ((ctx.rxDepth : ℤ) - (routs - 1)).toNat q id routs = some r := by
  simp only [refill, ppPostRecvPQp_eq, List.length_replicate] at h ⊢
  split_ifs at h with hsend hrecv hlow hshort
  · rw [if_pos hsend, h]
  · have hmin : min m ((ctx.rxDepth : ℤ) - (routs - 1)).toNat =
        ((ctx.rxDepth : ℤ) - (routs - 1)).toNat := by
      omega
    rw [hmin] at h hshort
    rw [if_neg hsend, if_pos hrecv, if_pos hlow, min_self, if_neg hshort, h]
  · rw [if_neg hsend, if_pos hrecv, if_neg hlow, h]

theorem resend_ample {m : ℕ} {q : Fin n} {id pending : BitVec 32}
    {p : BitVec 32 × List (WorkRequest n)} (h : resend ctx m q id pending = some p) :
    resend ctx 1 q id pending = some p := by
  unfold resend ppPostSendQp at h ⊢
  split_ifs at h with hclear hroom
  · cases h
  · rw [if_pos hclear, if_neg one_ne_zero, h]
  · rw [if_neg hclear, h]

theorem handle_ample {recvRoom sendRoom : ℕ} {q : Fin n} {v v' : QpView n} {w : IbvWc}
    (h : v.handle ctx recvRoom sendRoom q w = some v') :
    v.handle ctx (ampleRooms ctx q v w).1 (ampleRooms ctx q v w).2 q w = some v' := by
  unfold QpView.handle at h ⊢
  split_ifs at h with hstatus
  obtain ⟨r, hr, h⟩ := Option.bind_eq_some_iff.mp h
  obtain ⟨p, hp, rfl⟩ := Option.map_eq_some_iff.mp h
  have hrefill : refill ctx (ampleRooms ctx q v w).1 q (wcId w) v.routs = some r :=
    refill_ample ctx hr
  have hresend : resend ctx (ampleRooms ctx q v w).2 q (wcId w) v.pending = some p :=
    resend_ample ctx hp
  rw [if_neg hstatus, hrefill, Option.bind_some, hresend, Option.map_some]

theorem summary_handle_ample {rooms : QpRooms n} {S T : Summary n} {w : IbvWc}
    (h : S.handle ctx rooms w = some T) : S.handle ctx (ampleRooms ctx) w = some T := by
  obtain ⟨q, hq, h⟩ := Option.bind_eq_some_iff.mp h
  obtain ⟨v, hv, rfl⟩ := Option.map_eq_some_iff.mp h
  rw [summary_handle_of_findQp ctx _ hq, handle_ample ctx hv, Option.map_some]

end OneQp

section Simulation

variable {n : ℕ} (ctx : PingpongContext n) (iters : ℕ) (dev : QpDevice n)

/-- What `s` and the histories hold of queue pair `q`. -/
def viewOf (s : Locals n) (posted : List (WorkRequest n)) (handled : List IbvWc) (q : Fin n) :
    QpView n :=
  ⟨s.pendingQp q, s.routsArr q, postedOn q posted, handledOf ctx q handled⟩

/-- The loop's state as a summary; `none` once it has returned. -/
def summary (p : Progress n (Locals n) Exit) : Option (Summary n) :=
  match p.loop with
  | .ok s => some ⟨s.scnt, s.rcnt, viewOf ctx s p.posted p.handled⟩
  | .error _ => none

/-- The locals after the switch on `id`, with the new credits of the queue pair. -/
def Locals.counted (s : Locals n) (id : BitVec 32) (q : Fin n) (routs : ℤ) : Locals n where
  rcnt := s.rcnt + (if id = pingpongRecvWrid then 1 else 0)
  scnt := s.scnt + (if id = pingpongSendWrid then 1 else 0)
  pendingQp := s.pendingQp
  routsArr := Function.update s.routsArr q routs

variable {ctx iters} {room : Room n} {q : Fin n} {id : BitVec 32} {s : Locals n}

theorem countCompletion_none (h : refill ctx (room.recv q) q id (s.routsArr q) = none) :
    ∃ e ws, countCompletion ctx room q id s = ⟨.error e, ws⟩ := by
  unfold refill at h
  unfold countCompletion creditReceive
  by_cases hsend : id = pingpongSendWrid
  · rw [if_pos hsend] at h
    cases h
  · rw [if_neg hsend] at h ⊢
    by_cases hrecv : id = pingpongRecvWrid
    · simp only [if_pos hrecv] at h ⊢
      split_ifs at h with hlow hshort
      simp only [if_pos hlow, if_pos hshort, Outcome.bind_error]
      exact ⟨_, _, rfl⟩
    · rw [if_neg hrecv]
      exact ⟨_, _, rfl⟩

theorem countCompletion_some {r : ℤ} {ws : List (WorkRequest n)}
    (h : refill ctx (room.recv q) q id (s.routsArr q) = some (r, ws)) :
    countCompletion ctx room q id s = ⟨.ok (s.counted id q r), ws⟩ := by
  unfold refill at h
  unfold countCompletion creditReceive Locals.counted
  by_cases hsend : id = pingpongSendWrid
  · have hrecv : id ≠ pingpongRecvWrid := by
      rw [hsend]
      decide
    rw [if_pos hsend] at h
    obtain ⟨rfl, rfl⟩ := Prod.mk.inj (Option.some.inj h)
    simp only [if_pos hsend, if_neg hrecv, Function.update_eq_self, Nat.add_zero]
  · simp only [if_neg hsend] at h ⊢
    by_cases hrecv : id = pingpongRecvWrid
    · simp only [if_pos hrecv] at h ⊢
      split_ifs at h with hlow hshort
      · obtain ⟨rfl, rfl⟩ := Prod.mk.inj (Option.some.inj h)
        simp only [if_pos hlow, if_neg hshort, Outcome.bind_ok, Nat.add_zero, List.append_nil]
      · obtain ⟨rfl, rfl⟩ := Prod.mk.inj (Option.some.inj h)
        simp only [if_neg hlow, Outcome.bind_ok, Nat.add_zero, List.append_nil]
    · rw [if_neg hrecv] at h
      cases h

theorem repost_none (hlt : s.scnt < iters)
    (h : resend ctx (room.send q) q id (s.pendingQp q) = none) :
    ∃ e ws, repost ctx iters room q id s = ⟨.error e, ws⟩ := by
  unfold resend at h
  unfold repost
  split_ifs at h with hclear
  have hpost : ppPostSendQp ctx (room.send q) q = none := by simpa using h
  rw [if_pos ⟨hlt, hclear⟩, hpost]
  exact ⟨_, _, rfl⟩

theorem repost_some (hlt : s.scnt < iters) {pending : BitVec 32} {ws : List (WorkRequest n)}
    (h : resend ctx (room.send q) q id (s.pendingQp q) = some (pending, ws)) :
    repost ctx iters room q id s =
      ⟨.ok { s with pendingQp := Function.update s.pendingQp q pending }, ws⟩ := by
  unfold resend at h
  unfold repost
  by_cases hclear : s.pendingQp q &&& ~~~id = 0
  · rw [if_pos hclear] at h
    obtain ⟨w, hpost, hw⟩ := Option.map_eq_some_iff.mp h
    obtain ⟨rfl, rfl⟩ := Prod.mk.inj hw
    simp only [if_pos (And.intro hlt hclear), hpost]
  · rw [if_neg hclear] at h
    obtain ⟨rfl, rfl⟩ := Prod.mk.inj (Option.some.inj h)
    simp only [hclear, and_false, if_false]

/-- What a completion posts is on its own queue pair. -/
theorem refill_on {m : ℕ} {routs : ℤ} {r : ℤ × List (WorkRequest n)}
    (h : refill ctx m q id routs = some r) : ∀ w ∈ r.2, w.qp = q := by
  simp only [refill] at h
  split_ifs at h with hsend hrecv hlow hshort
  · obtain rfl := Option.some.inj h
    simp
  · obtain rfl := Option.some.inj h
    intro w hw
    rw [ppPostRecvPQp_eq] at hw
    rw [List.eq_of_mem_replicate hw]
    rfl
  · obtain rfl := Option.some.inj h
    simp

theorem resend_on {m : ℕ} {pending : BitVec 32} {p : BitVec 32 × List (WorkRequest n)}
    (h : resend ctx m q id pending = some p) : ∀ w ∈ p.2, w.qp = q := by
  unfold resend ppPostSendQp at h
  split_ifs at h
  · cases h
  · obtain rfl := Option.some.inj h
    simp [request]
  · obtain rfl := Option.some.inj h
    simp

theorem postedOn_append (q : Fin n) (ws ws' : List (WorkRequest n)) :
    postedOn q (ws ++ ws') = postedOn q ws ++ postedOn q ws' := List.filter_append ws ws'

theorem postedOn_of_on {ws : List (WorkRequest n)} (h : ∀ w ∈ ws, w.qp = q) (u : Fin n) :
    postedOn u ws = if u = q then ws else [] := by
  split_ifs with hu
  · rw [postedOn, List.filter_eq_self]
    intro w hw
    simp [h w hw, hu]
  · rw [postedOn, List.filter_eq_nil_iff]
    intro w hw
    simpa [h w hw] using Ne.symm hu

theorem handledOf_snoc (u : Fin n) (ws : List IbvWc) {w : IbvWc}
    (hq : findQp ctx w.qpNum = some q) :
    handledOf ctx u (ws ++ [w]) = handledOf ctx u ws ++ if u = q then [w] else [] := by
  have hnum := findQp_eq_some ctx hq
  rw [handledOf, List.filter_append, ← handledOf]
  congr 1
  split_ifs with hu
  · simp [hnum, hu]
  · have hne : ctx.qpNum q ≠ ctx.qpNum u := fun h => hu (ctx.qpNum_injective h.symm)
    simp [hnum, hne]

theorem sendCount_singleton (w : IbvWc) :
    sendCount [w] = if wcId w = pingpongSendWrid then 1 else 0 := by
  simp [sendCount, List.countP_cons]

theorem recvCount_singleton (w : IbvWc) :
    recvCount [w] = if wcId w = pingpongRecvWrid then 1 else 0 := by
  simp [recvCount, List.countP_cons]

variable {posted : List (WorkRequest n)} {handled : List IbvWc} {w : IbvWc}

/-- Where the queue pair's step fails, the loop returns. -/
theorem handleCompletion_none (hq : findQp ctx w.qpNum = some q)
    (hbelow : s.scnt + sendCount [w] < iters)
    (h : (viewOf ctx s posted handled q).handle ctx (room.recv q) (room.send q) q w = none) :
    ∃ e ws, handleCompletion ctx iters room s w = ⟨.error e, ws⟩ := by
  rw [QpView.handle] at h
  rw [handleCompletion, hq]
  by_cases hstatus : w.status ≠ ibvWcSuccess
  · simp only [if_pos hstatus]
    exact ⟨_, _, rfl⟩
  · simp only [if_neg hstatus] at h ⊢
    rw [← wcId]
    cases hr : refill ctx (room.recv q) q (wcId w) (s.routsArr q) with
    | none =>
      obtain ⟨e, ws, he⟩ := countCompletion_none hr
      exact ⟨e, ws, by rw [he, Outcome.bind_error]⟩
    | some r =>
      rw [viewOf, hr, Option.bind_some, Option.map_eq_none_iff] at h
      rw [countCompletion_some hr, Outcome.bind_ok]
      rw [sendCount_singleton] at hbelow
      obtain ⟨e, ws, he⟩ := repost_none (s := s.counted (wcId w) q r.1) hbelow h
      exact ⟨e, r.2 ++ ws, by rw [he]⟩

/-- Where it does not, the loop goes on with the new view, and posts what it posts. -/
theorem handleCompletion_some (hq : findQp ctx w.qpNum = some q)
    (hbelow : s.scnt + sendCount [w] < iters) {v : QpView n}
    (h : (viewOf ctx s posted handled q).handle ctx (room.recv q) (room.send q) q w = some v) :
    ∃ ws, (∀ r ∈ ws, r.qp = q) ∧ v.posted = postedOn q posted ++ ws ∧
      v.handled = handledOf ctx q handled ++ [w] ∧
      handleCompletion ctx iters room s w =
        ⟨.ok ⟨s.rcnt + recvCount [w], s.scnt + sendCount [w],
          Function.update s.pendingQp q v.pending, Function.update s.routsArr q v.routs⟩, ws⟩ := by
  rw [QpView.handle] at h
  rw [handleCompletion, hq]
  by_cases hstatus : w.status ≠ ibvWcSuccess
  · simp only [if_pos hstatus] at h
    cases h
  · simp only [if_neg hstatus] at h ⊢
    obtain ⟨r, hr, h⟩ := Option.bind_eq_some_iff.mp h
    obtain ⟨p, hp, rfl⟩ := Option.map_eq_some_iff.mp h
    rw [viewOf] at hr hp
    rw [sendCount_singleton] at hbelow ⊢
    refine ⟨r.2 ++ p.2, ?_, rfl, rfl, ?_⟩
    · intro x hx
      rcases List.mem_append.mp hx with hx | hx
      · exact refill_on hr x hx
      · exact resend_on hp x hx
    · rw [← wcId, countCompletion_some hr, Outcome.bind_ok, recvCount_singleton,
        repost_some (s := s.counted (wcId w) q r.1) hbelow hp]
      rfl

/-- The views after a completion of `q`: that of `q` is new. -/
theorem viewOf_update (hq : findQp ctx w.qpNum = some q) {ws : List (WorkRequest n)}
    (hws : ∀ r ∈ ws, r.qp = q) {v : QpView n} (hposted : v.posted = postedOn q posted ++ ws)
    (hhandled : v.handled = handledOf ctx q handled ++ [w]) (rcnt scnt : ℕ) :
    viewOf ctx ⟨rcnt, scnt, Function.update s.pendingQp q v.pending,
      Function.update s.routsArr q v.routs⟩ (posted ++ ws) (handled ++ [w]) =
        Function.update (viewOf ctx s posted handled) q v := by
  funext u
  rw [viewOf, postedOn_append, postedOn_of_on hws, handledOf_snoc u handled hq]
  by_cases hu : u = q
  · subst u
    simp only [if_true, ← hposted, ← hhandled, Function.update_self]
  · simp only [if_neg hu, Function.update_of_ne hu, List.append_nil, viewOf]

variable {p : Progress n (Locals n) Exit}

theorem summary_ok (hs : p.loop = .ok s) :
    summary ctx p = some ⟨s.scnt, s.rcnt, viewOf ctx s p.posted p.handled⟩ := by
  rw [summary, hs]

theorem summary_error {e : Exit} (he : p.loop = .error e) : summary ctx p = none := by
  rw [summary, he]

/-- Below the cut-off, and with the room that the device has, the loop does to a
completion what the summary does. -/
theorem summary_handle (X : Role) (D : Device n) (hs : p.loop = .ok s)
    (hbelow : s.scnt + sendCount [w] < iters) :
    summary ctx (p.handle (runPingPong ctx iters X) D w) =
      (summary ctx p).bind (fun S => S.handle ctx (fun q _ _ =>
        ((D p.posted (p.handled ++ [w])).recv q, (D p.posted (p.handled ++ [w])).send q)) w) := by
  rw [summary_ok hs, Option.bind_some]
  cases hq : findQp ctx w.qpNum with
  | none =>
    have ho : handleCompletion ctx iters (D p.posted (p.handled ++ [w])) s w =
        ⟨.error ⟨-1, .unmatchedQp⟩, []⟩ := by
      rw [handleCompletion, hq]
    rw [handle_eq hs ho, Summary.handle, hq]
    rfl
  | some q =>
    rw [summary_handle_of_findQp ctx _ hq]
    cases hv : (viewOf ctx s p.posted p.handled q).handle ctx
        ((D p.posted (p.handled ++ [w])).recv q) ((D p.posted (p.handled ++ [w])).send q) q w with
    | none =>
      obtain ⟨e, ws, ho⟩ := handleCompletion_none hq hbelow hv
      rw [handle_eq hs ho]
      rfl
    | some v =>
      obtain ⟨ws, hws, hposted, hhandled, ho⟩ := handleCompletion_some hq hbelow hv
      rw [handle_eq hs ho]
      simp only [summary, viewOf_update hq hws hposted hhandled, Option.map_some]

end Simulation

section Runs

variable {n : ℕ} {ctx : PingpongContext n} {iters : ℕ} {X : Role} {D : Device n}
  {p : Progress n (Locals n) Exit}

/-- With the sends among `ws` the counter is still below the cut-off. -/
def Below (iters : ℕ) (p : Progress n (Locals n) Exit) (ws : List IbvWc) : Prop :=
  ∀ s, p.loop = .ok s → s.scnt + sendCount ws < iters

theorem sendCount_append (ws ws' : List IbvWc) :
    sendCount (ws ++ ws') = sendCount ws + sendCount ws' := List.countP_append

theorem sendCount_cons (w : IbvWc) (ws : List IbvWc) :
    sendCount (w :: ws) = sendCount [w] + sendCount ws := sendCount_append [w] ws

theorem Below.head {w : IbvWc} {ws : List IbvWc} (h : Below iters p (w :: ws)) {s : Locals n}
    (hs : p.loop = .ok s) : s.scnt + sendCount [w] < iters := by
  have hlt := h s hs
  rw [sendCount_cons] at hlt
  omega

theorem Below.handle {w : IbvWc} {ws : List IbvWc} (h : Below iters p (w :: ws)) :
    Below iters (p.handle (runPingPong ctx iters X) D w) ws := by
  intro t ht
  cases hs : p.loop with
  | error e =>
    rw [handle_returned hs, hs] at ht
    cases ht
  | ok s =>
    have hstep : summary ctx (p.handle (runPingPong ctx iters X) D w) = _ :=
      summary_handle X D hs (h.head hs)
    rw [summary_ok ht, summary_ok hs, Option.bind_some] at hstep
    obtain ⟨q, -, hq⟩ := Option.bind_eq_some_iff.mp hstep.symm
    obtain ⟨v, -, hv⟩ := Option.map_eq_some_iff.mp hq
    have hscnt : s.scnt + sendCount [w] = t.scnt := congrArg Summary.scnt hv
    have hlt := h s hs
    rw [sendCount_cons] at hlt
    omega

theorem Below.handleBatch {ws ws' : List IbvWc} (h : Below iters p (ws ++ ws')) :
    Below iters (p.handleBatch (runPingPong ctx iters X) D ws) ws' := by
  induction ws generalizing p with
  | nil => exact h
  | cons w ws ih => exact ih h.handle

/-- The loop's test holds all the way, so it does not matter where a batch ends. -/
theorem pollLoop_eq {batches : List (List IbvWc)} (h : Below iters p batches.flatten) :
    pollLoop (runPingPong ctx iters X) D batches p =
      p.handleBatch (runPingPong ctx iters X) D batches.flatten := by
  induction batches generalizing p with
  | nil => rfl
  | cons wc batches ih =>
    rw [List.flatten_cons] at h ⊢
    cases hs : p.loop with
    | error e =>
      have hreturned : p.standing (runPingPong ctx iters X) ≠ .inLoop := by
        rw [Progress.standing, hs]
        simp
      rw [pollLoop_of_not_inLoop hreturned, handleBatch_returned hs]
    | ok s =>
      have hagain : (runPingPong ctx iters X).again s = true := by
        have hlt := h s hs
        have hscnt : s.scnt < iters := by omega
        simp [runPingPong, hscnt]
      rw [pollLoop_cons (standing_inLoop_iff.mpr ⟨s, hs, hagain⟩), handleBatch_append]
      exact ih h.handleBatch

/-- On a device that answers queue pair by queue pair, the run is that of the summary,
failures included. -/
theorem summary_handleBatch (dev : QpDevice n) {ws : List IbvWc} (h : Below iters p ws) :
    summary ctx (p.handleBatch (runPingPong ctx iters X) (dev.device ctx) ws) =
      (summary ctx p).bind (ws.foldlM (Summary.handle ctx dev.rooms)) := by
  induction ws generalizing p with
  | nil => exact (Option.bind_fun_some (summary ctx p)).symm
  | cons w ws ih =>
    cases hs : p.loop with
    | error e => rw [handleBatch_returned hs, summary_error hs, Option.bind_none]
    | ok s =>
      have hstep : summary ctx (p.handle (runPingPong ctx iters X) (dev.device ctx) w) =
          (summary ctx p).bind (fun S => S.handle ctx dev.rooms w) := by
        rw [summary_handle X _ hs (h.head hs), summary_ok hs, Option.bind_some, Option.bind_some]
        cases hq : findQp ctx w.qpNum with
        | none => rw [Summary.handle, Summary.handle, hq, Option.bind_none, Option.bind_none]
        | some q =>
          rw [summary_handle_of_findQp ctx _ hq, summary_handle_of_findQp ctx _ hq]
          simp only [QpDevice.device, QpDevice.rooms, viewOf, handledOf_snoc q p.handled hq,
            if_true]
      rw [handleBatch_cons, ih h.handle, hstep, Option.bind_assoc]
      rfl

/-- On any device, a run that does not return is that of the summary with room for
everything. -/
theorem summary_ample {ws : List IbvWc} (h : Below iters p ws) {S : Summary n}
    (hS : summary ctx (p.handleBatch (runPingPong ctx iters X) D ws) = some S) :
    (summary ctx p).bind (ws.foldlM (Summary.handle ctx (ampleRooms ctx))) = some S := by
  induction ws generalizing p with
  | nil => exact (Option.bind_fun_some (summary ctx p)).trans hS
  | cons w ws ih =>
    cases hs : p.loop with
    | error e =>
      rw [handleBatch_returned hs, summary_error hs] at hS
      cases hS
    | ok s =>
      rw [handleBatch_cons] at hS
      obtain ⟨T, hT, hfold⟩ := Option.bind_eq_some_iff.mp (ih h.handle hS)
      rw [summary_handle X D hs (h.head hs), summary_ok hs, Option.bind_some] at hT
      rw [summary_ok hs, Option.bind_some, List.foldlM_cons, summary_handle_ample ctx hT]
      exact hfold

end Runs

section Order

variable {n : ℕ} (ctx : PingpongContext n) (iters : ℕ) (X : Role)

/-- Two divisions of completions into batches lead to the same counters, pending words,
credits and posted requests: where each queue pair answers its posts by its own history,
in every case, a return included; on any two devices, unless one of the runs returns. -/
structure SameResult (p : Progress n (Locals n) Exit) (batches batches' : List (List IbvWc)) :
    Prop where
  onQps : ∀ dev : QpDevice n,
    summary ctx (pollLoop (runPingPong ctx iters X) (dev.device ctx) batches p) =
      summary ctx (pollLoop (runPingPong ctx iters X) (dev.device ctx) batches' p)
  onDevices : ∀ (D D' : Device n) (S S' : Summary n),
    summary ctx (pollLoop (runPingPong ctx iters X) D batches p) = some S →
    summary ctx (pollLoop (runPingPong ctx iters X) D' batches' p) = some S' → S = S'

/-- Below the cut-off, only the order of the completions of each queue pair matters. -/
theorem order_irrelevant (p : Progress n (Locals n) Exit) {s : Locals n} (hs : p.loop = .ok s)
    {batches batches' : List (List IbvWc)}
    (hsame : SameOrder IbvWc.qpNum batches.flatten batches'.flatten)
    (hbelow : s.scnt + sendCount batches.flatten < iters) :
    SameResult ctx iters X p batches batches' := by
  have hcount : sendCount batches.flatten = sendCount batches'.flatten :=
    hsame.perm.countP_eq _
  have h : Below iters p batches.flatten := by
    intro t ht
    obtain rfl := Except.ok.inj (hs.symm.trans ht)
    exact hbelow
  have h' : Below iters p batches'.flatten := by
    intro t ht
    rw [← hcount]
    exact h t ht
  constructor
  · intro dev
    rw [pollLoop_eq h, pollLoop_eq h', summary_handleBatch dev h, summary_handleBatch dev h']
    congr 1
    funext S
    exact foldlM_eq_of_sameOrder (summary_commutes ctx dev.rooms) S hsame
  · intro D D' S S' hS hS'
    rw [pollLoop_eq h] at hS
    rw [pollLoop_eq h'] at hS'
    have hfold := summary_ample h hS
    have hfold' := summary_ample h' hS'
    rw [summary_ok hs, Option.bind_some] at hfold hfold'
    rw [foldlM_eq_of_sameOrder (summary_commutes ctx (ampleRooms ctx)) _ hsame] at hfold
    exact Option.some.inj (hfold.symm.trans hfold')

/-- Two queue pairs that share eight bytes. -/
def twoQps : PingpongContext 2 := ppInitCtx 8 3 Fin.val Fin.val_injective

/-- Both wait for a message. -/
def bothWait : Progress 2 (Locals 2) Exit :=
  ⟨.ok ⟨0, 0, fun _ => pingpongRecvWrid, fun _ => 3⟩, [], [], []⟩

/-- The messages arrive in one batch, or the other way round in two. -/
theorem order_irrelevant_twoQps : SameResult twoQps 5 .server bothWait
    [[⟨1, ibvWcSuccess, .recv, 0⟩, ⟨1, ibvWcSuccess, .recv, 1⟩]]
    [[⟨1, ibvWcSuccess, .recv, 1⟩], [⟨1, ibvWcSuccess, .recv, 0⟩]] := by
  apply order_irrelevant twoQps 5 .server bothWait rfl
  · intro k
    by_cases h0 : 0 = k
    · subst k
      rfl
    · by_cases h1 : 1 = k
      · subst k
        rfl
      · simp [h0, h1]
  · decide

end Order

end InfinibandWorkshop.Multistream
