import InfinibandWorkshop.MultistreamLimits
import InfinibandWorkshop.VerbsTransfer

/-!
# The ping-pong loop of multithreadIB.c

Each thread drives one queue pair, with the pending word and the receive credits
in scalars. Where a completion comes from is never looked at: there is only one
place it can come from. The program is the other one's with `peerNum = 1`, and
what is known of that one is carried over. `use_event` is 0 in the source.
-/
namespace InfinibandWorkshop.Multithread
open Verbs

def pingpongRecvWrid : BitVec 32 := 1

def pingpongSendWrid : BitVec 32 := 2

def wrid : Queue → BitVec 32
  | .recv => pingpongRecvWrid
  | .send => pingpongSendWrid

structure PingpongContext where
  qpNum : ℕ
  size : ℕ
  rxDepth : ℕ

/-- Why the thread's loop gave up, with the value its message prints. -/
inductive Cause
  | postReceive (routs : ℤ)
  | postSend
  | badStatus (status : ℕ) (wrId : BitVec 32)
  | unknownWrId (wrId : BitVec 32)
  deriving DecidableEq, Repr

structure Exit where
  code : ℤ
  cause : Cause
  deriving DecidableEq, Repr

structure Locals where
  rcnt : ℕ
  scnt : ℕ
  pending : BitVec 32
  routs : ℤ

section Loop

variable (ctx : PingpongContext) (iters : ℕ)

/-- Every request uses the whole buffer. -/
def request (k : Queue) : WorkRequest 1 where
  qp := 0
  queue := k
  wrId := (wrid k).setWidth 64
  offset := 0
  length := ctx.size

def ppPostRecv (room : ℕ) : ℕ → List (WorkRequest 1)
  | 0 => []
  | i + 1 => if room = 0 then [] else request ctx .recv :: ppPostRecv (room - 1) i

def ppPostSend (room : ℕ) : Option (WorkRequest 1) :=
  if room = 0 then none else some (request ctx .send)

/-- Case `PINGPONG_RECV_WRID`. -/
def creditReceive (room : Room 1) (s : Locals) : Outcome 1 Locals Exit :=
  let routs := s.routs - 1
  if routs ≤ 1 then
    let ws := ppPostRecv ctx (room.recv 0) (ctx.rxDepth - routs).toNat
    let routs := routs + ws.length
    if routs < ctx.rxDepth then ⟨.error ⟨1, .postReceive routs⟩, ws⟩
    else ⟨.ok { s with routs := routs }, ws⟩
  else ⟨.ok { s with routs := routs }, []⟩

/-- The `switch` on `wr_id`. -/
def countCompletion (room : Room 1) (id : BitVec 32) (s : Locals) : Outcome 1 Locals Exit :=
  if id = pingpongSendWrid then ⟨.ok { s with scnt := s.scnt + 1 }, []⟩
  else if id = pingpongRecvWrid then
    (creditReceive ctx room s).bind (fun s => ⟨.ok { s with rcnt := s.rcnt + 1 }, []⟩)
  else ⟨.error ⟨1, .unknownWrId id⟩, []⟩

def repost (room : Room 1) (id : BitVec 32) (s : Locals) : Outcome 1 Locals Exit :=
  let pending := s.pending &&& ~~~id
  if s.scnt < iters ∧ pending = 0 then
    match ppPostSend ctx (room.send 0) with
    | none => ⟨.error ⟨1, .postSend⟩, []⟩
    | some w => ⟨.ok { s with pending := pingpongRecvWrid ||| pingpongSendWrid }, [w]⟩
  else ⟨.ok { s with pending := pending }, []⟩

def handleCompletion (room : Room 1) (s : Locals) (wc : IbvWc) : Outcome 1 Locals Exit :=
  let id := wc.wrId.setWidth 32
  if wc.status ≠ ibvWcSuccess then ⟨.error ⟨1, .badStatus wc.status id⟩, []⟩
  else (countCompletion ctx room id s).bind (repost ctx iters room id)

def maxSendWr : ℕ := 1

def cqEntries : ℕ := ctx.rxDepth + 1

/-- `runPingPong` up to its loop, without the exchange. -/
def setup (X : Role) : Outcome 1 Locals Exit :=
  let ws := ppPostRecv ctx ctx.rxDepth ctx.rxDepth
  if ws.length < ctx.rxDepth then ⟨.error ⟨1, .postReceive ws.length⟩, ws⟩
  else
    let s : Locals := ⟨0, 0, pingpongRecvWrid, ws.length⟩
    match X with
    | .client =>
      match ppPostSend ctx maxSendWr with
      | none => ⟨.error ⟨1, .postSend⟩, ws⟩
      | some w => ⟨.ok { s with pending := s.pending ||| pingpongSendWrid }, ws ++ [w]⟩
    | .server => ⟨.ok s, ws⟩

def runPingPong (X : Role) : Program 1 Locals Exit where
  qpNum := fun _ => ctx.qpNum
  qpNum_injective := Function.injective_of_subsingleton _
  maxSendWr := maxSendWr
  maxRecvWr := ctx.rxDepth
  numEntries := 2
  start := setup ctx X
  again := fun s => s.rcnt < iters ∨ s.scnt < iters
  handle := handleCompletion ctx iters

theorem ppPostRecv_full (m : ℕ) :
    ppPostRecv ctx m m = List.replicate m (request ctx .recv) := by
  induction m with
  | zero => rfl
  | succ m ih => simp [ppPostRecv, ih, List.replicate_succ]

theorem setup_eq (X : Role) :
    setup ctx X =
      ⟨.ok ⟨0, 0, match X with
          | .client => pingpongRecvWrid ||| pingpongSendWrid
          | .server => pingpongRecvWrid, ctx.rxDepth⟩,
        List.replicate ctx.rxDepth (request ctx .recv) ++
          match X with
          | .client => [request ctx .send]
          | .server => []⟩ := by
  cases X <;> simp [setup, ppPostRecv_full, ppPostSend, maxSendWr]

end Loop

abbrev State : Type := Verbs.State 1 Locals Exit

/-- One client thread and its server thread. -/
structure Config where
  iters : ℕ
  rxDepth : ℕ
  size : ℕ
  iters_pos : 1 ≤ iters
  two_le_rxDepth : 2 ≤ rxDepth
  qpNum : Role → ℕ

namespace Config

variable (c : Config)

def ctx (X : Role) : PingpongContext := ⟨c.qpNum X, c.size, c.rxDepth⟩

def program (X : Role) : Program 1 Locals Exit := runPingPong (c.ctx X) c.iters X

def system : Machine State (Action 1) := Verbs.system c.program

/-- The same round with `peerNum = 1` in the other program. -/
abbrev single : Multistream.Config where
  peerNum := 1
  iters := c.iters
  rxDepth := c.rxDepth
  size := c.size
  peerNum_pos := le_rfl
  iters_pos := c.iters_pos
  two_le_rxDepth := c.two_le_rxDepth
  qpNum := fun X _ => c.qpNum X
  qpNum_injective := fun _ => Function.injective_of_subsingleton _

end Config

/-- The scalars as the arrays of length 1 that the other program keeps. -/
def Locals.spread (s : Locals) : Multistream.Locals 1 where
  rcnt := s.rcnt
  scnt := s.scnt
  pendingQp := fun _ => s.pending
  routsArr := fun _ => s.routs

def Cause.spread : Cause → Multistream.Cause
  | .postReceive routs => .postReceive routs
  | .postSend => .postSend
  | .badStatus status wrId => .badStatus status wrId
  | .unknownWrId wrId => .unknownWrId wrId

/-- Where this program returns 1 from its loop, the other one returns -1. -/
def Exit.spread (e : Exit) : Multistream.Exit := ⟨-e.code, e.cause.spread⟩

section Spread

variable (c : Config) (X : Role)

theorem request_spread (k : Queue) :
    Multistream.request (c.single.ctx X) k (0 : Fin 1) = request (c.ctx X) k := by
  cases k <;> simp [Multistream.request, request, Config.single, Multistream.Config.ctx,
    Multistream.ppInitCtx, Config.ctx, Multistream.wrid, wrid, Multistream.pingpongRecvWrid,
    Multistream.pingpongSendWrid, pingpongRecvWrid, pingpongSendWrid]

theorem ppPostRecv_spread (room i : ℕ) :
    Multistream.ppPostRecvPQp (c.single.ctx X) room (0 : Fin 1) i =
      ppPostRecv (c.ctx X) room i := by
  induction i generalizing room with
  | zero => rfl
  | succ i ih =>
    simp only [Multistream.ppPostRecvPQp, ppPostRecv, request_spread, ih]

theorem update_spread {α : Type} (a b : α) :
    Function.update (fun _ : Fin 1 => a) 0 b = fun _ => b := by
  funext q
  rw [Subsingleton.elim q 0, Function.update_self]

theorem creditReceive_spread (room : Room 1) (s : Locals) :
    Multistream.creditReceive (c.single.ctx X) room (0 : Fin 1) s.spread =
      (creditReceive (c.ctx X) room s).map Locals.spread Exit.spread := by
  have hdepth : (c.single.ctx X).rxDepth = (c.ctx X).rxDepth := rfl
  simp only [Multistream.creditReceive, creditReceive, ppPostRecv_spread, hdepth, Locals.spread,
    update_spread]
  by_cases hlow : s.routs - 1 ≤ 1
  · simp only [if_pos hlow]
    split_ifs <;> rfl
  · simp only [if_neg hlow]
    rfl

theorem countCompletion_spread (room : Room 1) (id : BitVec 32) (s : Locals) :
    Multistream.countCompletion (c.single.ctx X) room (0 : Fin 1) id s.spread =
      (countCompletion (c.ctx X) room id s).map Locals.spread Exit.spread := by
  have hsend : Multistream.pingpongSendWrid = pingpongSendWrid := rfl
  have hrecv : Multistream.pingpongRecvWrid = pingpongRecvWrid := rfl
  simp only [Multistream.countCompletion, countCompletion, creditReceive_spread, hsend, hrecv]
  by_cases h₁ : id = pingpongSendWrid
  · simp only [if_pos h₁]
    rfl
  · simp only [if_neg h₁]
    by_cases h₂ : id = pingpongRecvWrid
    · simp only [if_pos h₂]
      cases (creditReceive (c.ctx X) room s) with
      | mk next posted => cases next <;> rfl
    · simp only [if_neg h₂]
      rfl

theorem repost_spread (room : Room 1) (id : BitVec 32) (s : Locals) :
    Multistream.repost (c.single.ctx X) c.iters room (0 : Fin 1) id s.spread =
      (repost (c.ctx X) c.iters room id s).map Locals.spread Exit.spread := by
  simp only [Multistream.repost, repost, Multistream.ppPostSendQp, ppPostSend, request_spread,
    Locals.spread, update_spread]
  split_ifs <;> rfl

theorem handleCompletion_spread (room : Room 1) (s : Locals) (w : IbvWc)
    (hw : w.qpNum = c.qpNum X) :
    Multistream.handleCompletion (c.single.ctx X) c.iters room s.spread w =
      (handleCompletion (c.ctx X) c.iters room s w).map Locals.spread Exit.spread := by
  have hfind : Multistream.findQp (c.single.ctx X) w.qpNum = some (0 : Fin 1) := by
    rw [hw]
    exact Multistream.findQp_self (c.single.ctx X) (0 : Fin 1)
  simp only [Multistream.handleCompletion, hfind, handleCompletion, countCompletion_spread]
  by_cases hs : w.status ≠ ibvWcSuccess
  · simp only [if_pos hs]
    rfl
  · simp only [if_neg hs]
    cases (countCompletion (c.ctx X) room (w.wrId.setWidth 32) s) with
    | mk next posted =>
      cases next with
      | error e => rfl
      | ok l =>
        simp only [Outcome.map_ok, Outcome.bind_ok, repost_spread]
        rfl

theorem setup_spread : Multistream.setup (c.single.ctx X) X =
    (setup (c.ctx X) X).map Locals.spread Exit.spread := by
  have hlist : List.finRange c.single.peerNum = [(0 : Fin 1)] := rfl
  have hdepth : (c.single.ctx X).rxDepth = (c.ctx X).rxDepth := rfl
  rw [setup_eq, Multistream.setup_eq, hlist, hdepth]
  cases X <;> simp only [List.flatMap_cons, List.flatMap_nil, List.append_nil, List.map_cons,
    List.map_nil, request_spread, Outcome.map_ok] <;> rfl

/-- The thread's program is the other one's with one queue pair. -/
theorem program_matches :
    Matches (c.program X) (c.single.program X) Locals.spread Exit.spread where
  qpNum := rfl
  maxSendWr := rfl
  maxRecvWr := rfl
  numEntries := rfl
  start := setup_spread c X
  again _ := rfl
  handle := by
    rintro room l w ⟨q, hq⟩
    exact handleCompletion_spread c X room l w hq

end Spread

section Results

variable {c : Config} {s : State}

/-- Up to the end of the first loop, the threads mirror the other program. -/
theorem reaches_single (h : c.system.ReachableBy Silent s) :
    c.single.Reaches (s.map Locals.spread Exit.spread) :=
  (Matches.embeds (program_matches c)).reachableBy h

theorem left_single {X : Role} (hX : (s.host X).Left (c.program X)) :
    ((s.map Locals.spread Exit.spread).host X).Left (c.single.program X) :=
  (program_matches c X).left_iff.mpr hX

/-- Once a thread has left its loop, everything either side ever sends has arrived. -/
theorem drained_of_left (h : c.system.ReachableBy Silent s) {X : Role}
    (hX : (s.host X).Left (c.program X)) (Y : Role) :
    s.arrived Y 0 = c.iters ∧ s.sends Y 0 = c.iters :=
  Multistream.drained_of_left rfl (reaches_single h) (left_single hX) Y (0 : Fin 1)

/-- So there is never anything to abort, and every run is a silent one. -/
theorem reachableBy_silent (h : c.system.Reachable s) : c.system.ReachableBy Silent s := by
  apply h.restrict
  intro u a t hu hst
  cases a with
  | abort X q =>
    obtain ⟨hleft, hlt⟩ := step_abort hst
    obtain ⟨ha, hs⟩ := drained_of_left hu hleft X
    rw [Subsingleton.elim q 0] at hlt
    omega
  | _ => trivial

/-- A round of one client thread and its server thread: it cannot get stuck, no
side sends more than `iters` messages, and when a side leaves its loop it has
counted `iters` of each kind and nothing on the queue pair is undelivered. -/
structure ExactRound (c : Config) (s : State) : Prop where
  progress : (∃ X, ¬ (s.host X).Left (c.program X)) → CanProceed c.program s
  sends_le : ∀ X, s.sends X 0 ≤ c.iters
  counters : ∀ X, (s.host X).Left (c.program X) →
    ∃ l, (s.host X).loop = .ok l ∧ l.scnt = c.iters ∧ l.rcnt = c.iters
  drained : ∀ X, (s.host X).Left (c.program X) →
    ∀ Y, s.sends Y 0 = c.iters ∧ s.arrived Y 0 = c.iters

theorem exact_round (h : c.system.Reachable s) : ExactRound c s := by
  have hs := reachableBy_silent h
  have hr := reaches_single hs
  refine ⟨?_, ?_, ?_, ?_⟩
  · rintro ⟨X, hX⟩
    obtain ⟨L, _, hc⟩ := hr.accounted
    refine Matches.canProceed (program_matches c) hs (hc.canProceed ⟨X, ?_⟩)
    exact fun hl => hX ((program_matches c X).left_iff.mp hl)
  · intro X
    exact Multistream.sends_le rfl hr X (0 : Fin 1)
  · intro X hX
    obtain ⟨l', hl', hscnt, hrcnt⟩ :=
      Multistream.counters_of_left rfl hr (left_single hX)
    obtain ⟨l, hl, _⟩ := hX
    obtain rfl : l.spread = l' := Except.ok.inj ((Host.map_loop_ok hl).symm.trans hl')
    exact ⟨l, hl, hscnt, hrcnt⟩
  · intro X hX Y
    obtain ⟨ha, hsent⟩ := drained_of_left hs hX Y
    exact ⟨hsent, ha⟩

/-- One iteration, played to its end. -/
def shortConfig : Config where
  iters := 1
  rxDepth := 3
  size := 1
  iters_pos := by decide
  two_le_rxDepth := by decide
  qpNum := fun _ => 0

def shortRun : List (Action 1) :=
  [.deliver .client 0, .poll .server 1, .handle .server, .deliver .server 0,
    .poll .server 1, .handle .server]

def shortState : State :=
  (shortConfig.system.exec Silent shortConfig.system.init shortRun).get (by decide)

theorem exact_round_short : ExactRound shortConfig shortState :=
  exact_round (Machine.reachableBy_of_exec _).reachable

example : (shortState.host .server).Left (shortConfig.program .server) := by decide

end Results

end InfinibandWorkshop.Multithread
