import InfinibandWorkshop.Verbs
import Mathlib.Data.Fintype.Pi

/-!
# The ping-pong loop of multistreamTestRunner.c

One thread drives all `peerNum` queue pairs. `scnt`, `rcnt` and the completion
queue are shared by them; pending bits, receive credits and buffer segments
belong to one queue pair each. `iters` and `rx_depth` are constants of the
source (1000 and 500) and parameters here.
-/
namespace InfinibandWorkshop.Multistream
open Verbs

def pingpongRecvWrid : BitVec 32 := 1

def pingpongSendWrid : BitVec 32 := 2

/-- The `wr_id` that requests of each queue are posted with. -/
def wrid : Queue → BitVec 32
  | .recv => pingpongRecvWrid
  | .send => pingpongSendWrid

/-- What the loop reads of `struct pingpong_context`. -/
structure PingpongContext (n : ℕ) where
  qpNum : Fin n → ℕ
  qpNum_injective : Function.Injective qpNum
  sizePerQP : Fin n → ℤ
  rxDepth : ℕ

/-- `pp_init_ctx`: queue pair 0 takes what the division leaves over. -/
def ppInitCtx {n : ℕ} (size rxDepth : ℕ) (qpNum : Fin n → ℕ)
    (hq : Function.Injective qpNum) : PingpongContext n :=
  let sizePerPeer : ℤ := (size : ℤ) / n
  { qpNum := qpNum
    qpNum_injective := hq
    sizePerQP := fun i => if i.val = 0 then size - sizePerPeer * (n - 1) else sizePerPeer
    rxDepth := rxDepth }

/-- Why `runPingPong` gave up, with the value its message prints. -/
inductive Cause
  | postReceive (routs : ℤ)
  | postSend
  | unmatchedQp
  | badStatus (status : ℕ) (wrId : BitVec 32)
  | unknownWrId (wrId : BitVec 32)
  deriving DecidableEq, Repr

/-- A failing `return`: the pointer value handed to the joining thread. -/
structure Exit where
  code : ℤ
  cause : Cause
  deriving DecidableEq, Repr

/-- The local state of the loop. -/
structure Locals (n : ℕ) where
  rcnt : ℕ
  scnt : ℕ
  pendingQp : Fin n → BitVec 32
  routsArr : Fin n → ℤ

section Posting

variable {n : ℕ} (ctx : PingpongContext n)

/-- The buffer segment of a queue pair, as both posting functions compute it. -/
def request (k : Queue) (q : Fin n) : WorkRequest n where
  qp := q
  queue := k
  wrId := (wrid k).setWidth 64
  offset := ctx.sizePerQP q * q.val
  length := ctx.sizePerQP q

/-- `pp_post_recv_pQp`: post receives one by one and stop at the first refusal.
The requests posted are returned; the source returns how many there are. -/
def ppPostRecvPQp (room : ℕ) (q : Fin n) : ℕ → List (WorkRequest n)
  | 0 => []
  | i + 1 => if room = 0 then [] else request ctx .recv q :: ppPostRecvPQp (room - 1) q i

/-- `pp_post_send_qp`: `none` when the send queue refuses the request. -/
def ppPostSendQp (room : ℕ) (q : Fin n) : Option (WorkRequest n) :=
  if room = 0 then none else some (request ctx .send q)

theorem ppPostRecvPQp_eq (room : ℕ) (q : Fin n) (i : ℕ) :
    ppPostRecvPQp ctx room q i = List.replicate (min room i) (request ctx .recv q) := by
  induction i generalizing room with
  | zero => simp [ppPostRecvPQp]
  | succ i ih =>
    cases room with
    | zero => simp [ppPostRecvPQp]
    | succ room =>
      have hm : min (room + 1) (i + 1) = min room i + 1 := by omega
      simp [ppPostRecvPQp, ih, hm, List.replicate_succ]

end Posting

section Handling

variable {n : ℕ} (ctx : PingpongContext n) (iters : ℕ)

/-- The search for the queue pair of a completion, in the order of `qpArr`. -/
def findQp (num : ℕ) : Option (Fin n) :=
  (List.finRange n).find? (fun q => num = ctx.qpNum q)

/-- Case `PINGPONG_RECV_WRID`: one credit is used, and the last but one refills. -/
def creditReceive (room : Room n) (q : Fin n) (s : Locals n) : Outcome n (Locals n) Exit :=
  let routs := s.routsArr q - 1
  if routs ≤ 1 then
    let ws := ppPostRecvPQp ctx (room.recv q) q (ctx.rxDepth - routs).toNat
    let routs := routs + ws.length
    if routs < ctx.rxDepth then ⟨.error ⟨-1, .postReceive routs⟩, ws⟩
    else ⟨.ok { s with routsArr := Function.update s.routsArr q routs }, ws⟩
  else ⟨.ok { s with routsArr := Function.update s.routsArr q routs }, []⟩

/-- With room for what the credits ask for, the refill never falls short, and the
credits stay between 2 and the depth. -/
theorem creditReceive_spec {room : Room n} {q : Fin n} {s : Locals n} (hrx : 2 ≤ ctx.rxDepth)
    (h2 : 2 ≤ s.routsArr q) (hle : s.routsArr q ≤ ctx.rxDepth)
    (hroom : (ctx.rxDepth : ℤ) - (s.routsArr q - 1) ≤ room.recv q) :
    ∃ (m : ℕ) (routs : ℤ), creditReceive ctx room q s =
        ⟨.ok { s with routsArr := Function.update s.routsArr q routs },
          List.replicate m (request ctx .recv q)⟩ ∧
      2 ≤ routs ∧ routs ≤ ctx.rxDepth ∧ routs = s.routsArr q - 1 + m := by
  by_cases hlow : s.routsArr q - 1 ≤ 1
  · -- the counter has dropped to 1: the receive queue is filled up again
    have hm : min (room.recv q) ((ctx.rxDepth : ℤ) - (s.routsArr q - 1)).toNat =
        ((ctx.rxDepth : ℤ) - (s.routsArr q - 1)).toNat := by omega
    have hfull : s.routsArr q - 1 + (((ctx.rxDepth : ℤ) - (s.routsArr q - 1)).toNat : ℤ) =
        ctx.rxDepth := by omega
    refine ⟨((ctx.rxDepth : ℤ) - (s.routsArr q - 1)).toNat, ctx.rxDepth, ?_, by omega, le_rfl,
      hfull.symm⟩
    simp only [creditReceive, if_pos hlow, ppPostRecvPQp_eq, hm, List.length_replicate, hfull,
      lt_irrefl, if_false]
  · -- a credit is used and nothing is posted
    refine ⟨0, s.routsArr q - 1, ?_, by omega, by omega, by simp⟩
    simp only [creditReceive, if_neg hlow, List.replicate_zero]

/-- The `switch` on `wr_id`. -/
def countCompletion (room : Room n) (q : Fin n) (id : BitVec 32) (s : Locals n) :
    Outcome n (Locals n) Exit :=
  if id = pingpongSendWrid then ⟨.ok { s with scnt := s.scnt + 1 }, []⟩
  else if id = pingpongRecvWrid then
    (creditReceive ctx room q s).bind (fun s => ⟨.ok { s with rcnt := s.rcnt + 1 }, []⟩)
  else ⟨.error ⟨-1, .unknownWrId id⟩, []⟩

/-- Clear the pending bit and, when none is left, post the next send. -/
def repost (room : Room n) (q : Fin n) (id : BitVec 32) (s : Locals n) :
    Outcome n (Locals n) Exit :=
  let pending := s.pendingQp q &&& ~~~id
  if s.scnt < iters ∧ pending = 0 then
    match ppPostSendQp ctx (room.send q) q with
    | none => ⟨.error ⟨-1, .postSend⟩, []⟩
    | some w =>
      ⟨.ok { s with
        pendingQp := Function.update s.pendingQp q (pingpongRecvWrid ||| pingpongSendWrid) }, [w]⟩
  else ⟨.ok { s with pendingQp := Function.update s.pendingQp q pending }, []⟩

/-- The body of the `for` loop over a polled batch. -/
def handleCompletion (room : Room n) (s : Locals n) (wc : IbvWc) :
    Outcome n (Locals n) Exit :=
  match findQp ctx wc.qpNum with
  | none => ⟨.error ⟨-1, .unmatchedQp⟩, []⟩
  | some q =>
    let id := wc.wrId.setWidth 32
    if wc.status ≠ ibvWcSuccess then ⟨.error ⟨-1, .badStatus wc.status id⟩, []⟩
    else (countCompletion ctx room q id s).bind (repost ctx iters room q id)

theorem findQp_self (q : Fin n) : findQp ctx (ctx.qpNum q) = some q := by
  have hex : (findQp ctx (ctx.qpNum q)).isSome = true := by
    simp only [findQp, List.find?_isSome]
    exact ⟨q, List.mem_finRange q, by simp⟩
  obtain ⟨r, hr⟩ := Option.isSome_iff_exists.mp hex
  have hp := List.find?_some hr
  have he : q = r := ctx.qpNum_injective (of_decide_eq_true hp)
  rw [hr, he]

end Handling

section Setup

variable {n : ℕ} (ctx : PingpongContext n)

/-- `max_send_wr` of every queue pair. -/
def maxSendWr : ℕ := 1

/-- The entries that `pp_init_ctx` creates the one completion queue with. -/
def cqEntries : ℕ := ctx.rxDepth + 1

/-- The receives posted on every queue pair before the exchange. -/
def initialReceives : List (Fin n) → (Fin n → ℤ) → Outcome n (Fin n → ℤ) Exit
  | [], routs => ⟨.ok routs, []⟩
  | q :: qs, routs =>
    let ws := ppPostRecvPQp ctx ctx.rxDepth q ctx.rxDepth
    if ws.length < ctx.rxDepth then ⟨.error ⟨1, .postReceive ws.length⟩, ws⟩
    else (Outcome.mk (.ok (Function.update routs q ws.length)) ws).bind (initialReceives qs)

/-- The client opens on every queue pair. -/
def firstSends : List (Fin n) → Locals n → Outcome n (Locals n) Exit
  | [], s => ⟨.ok s, []⟩
  | q :: qs, s =>
    match ppPostSendQp ctx maxSendWr q with
    | none => ⟨.error ⟨1, .postSend⟩, []⟩
    | some w =>
      (Outcome.mk (.ok { s with
        pendingQp := Function.update s.pendingQp q (s.pendingQp q ||| pingpongSendWrid) })
        [w]).bind (firstSends qs)

/-- `runPingPong` up to its loop; only the client has a server name. -/
def setup (X : Role) : Outcome n (Locals n) Exit :=
  (initialReceives ctx (List.finRange n) (fun _ => 0)).bind (fun routs =>
    let s : Locals n := ⟨0, 0, fun _ => pingpongRecvWrid, routs⟩
    match X with
    | .client => firstSends ctx (List.finRange n) s
    | .server => ⟨.ok s, []⟩)

def runPingPong (iters : ℕ) (X : Role) : Program n (Locals n) Exit where
  qpNum := ctx.qpNum
  qpNum_injective := ctx.qpNum_injective
  maxSendWr := maxSendWr
  maxRecvWr := ctx.rxDepth
  numEntries := n * 2
  start := setup ctx X
  again := fun s => s.rcnt < iters ∨ s.scnt < iters
  handle := handleCompletion ctx iters

theorem initialReceives_eq (qs : List (Fin n)) (routs : Fin n → ℤ) :
    initialReceives ctx qs routs =
      ⟨.ok (fun q => if q ∈ qs then (ctx.rxDepth : ℤ) else routs q),
        qs.flatMap (fun q => List.replicate ctx.rxDepth (request ctx .recv q))⟩ := by
  induction qs generalizing routs with
  | nil => simp [initialReceives]
  | cons q qs ih =>
    simp only [initialReceives, ppPostRecvPQp_eq, min_self, List.length_replicate, lt_irrefl,
      if_false, ih, Outcome.bind_ok, List.flatMap_cons, Outcome.mk.injEq, Except.ok.injEq,
      and_true]
    funext r
    by_cases hr : r ∈ qs
    · simp [hr]
    · by_cases he : r = q <;> simp [hr, he]

theorem firstSends_eq (qs : List (Fin n)) (s : Locals n) :
    firstSends ctx qs s =
      ⟨.ok { s with pendingQp := fun q =>
        if q ∈ qs then s.pendingQp q ||| pingpongSendWrid else s.pendingQp q },
        qs.map (request ctx .send)⟩ := by
  induction qs generalizing s with
  | nil => simp [firstSends]
  | cons q qs ih =>
    simp only [firstSends, ppPostSendQp, maxSendWr, one_ne_zero, if_false, ih, Outcome.bind_ok,
      List.map_cons, List.singleton_append, Outcome.mk.injEq, Except.ok.injEq, Locals.mk.injEq,
      true_and, and_true]
    funext r
    by_cases he : r = q
    · subst r
      by_cases hq : q ∈ qs <;> simp [hq, BitVec.or_assoc]
    · by_cases hr : r ∈ qs <;> simp [hr, he]

/-- Everything posted before the loop, and the locals the loop starts with. -/
theorem setup_eq (X : Role) :
    setup ctx X =
      ⟨.ok ⟨0, 0, fun _ => match X with
          | .client => pingpongRecvWrid ||| pingpongSendWrid
          | .server => pingpongRecvWrid, fun _ => (ctx.rxDepth : ℤ)⟩,
        (List.finRange n).flatMap (fun q => List.replicate ctx.rxDepth (request ctx .recv q)) ++
          match X with
          | .client => (List.finRange n).map (request ctx .send)
          | .server => []⟩ := by
  cases X <;> simp [setup, initialReceives_eq, firstSends_eq]

end Setup

end InfinibandWorkshop.Multistream
