import InfinibandWorkshop.CallTraces
import InfinibandWorkshop.MultithreadLoop
import InfinibandWorkshop.Throughput

/-!
# The exits of `runPingPong`

In both programs a thread returns the address of the time it has measured, or a small
code as soon as a call fails that it checks. It is followed here along the answers to
these calls; a polled completion counts as an answer when it is read. `use_event` is 0 and
`gidx` is negative in the source, and main has checked the port and the connection. The
two programs share what they do alike: where multithreadIB.c has one queue pair, it has
scalars, which are arrays of length 1 here.
-/
namespace InfinibandWorkshop.ThreadExits
open Calls Verbs
open Multistream (Locals findQp pingpongRecvWrid pingpongSendWrid)
open Throughput (Timeval timeDifference)

/-- What is called where only success and failure are told apart. -/
inductive Call
  | setAffinity
  | calloc
  | malloc
  | openDevice
  | allocPd
  | regMr
  | createCq
  | createQp
  | modifyQp
  | postRecv
  | write
  | read
  | postSend
  | destroyQp
  | destroyCq
  | deregMr
  | deallocPd
  | closeDevice
  deriving DecidableEq, Repr

structure PortAttr where
  lid : ℕ
  infiniband : Bool
  deriving DecidableEq, Repr

/-- `!(link_layer == IBV_LINK_LAYER_INFINIBAND && !lid)`. -/
def PortAttr.hasLid (attr : PortAttr) : Bool := !(attr.infiniband && attr.lid == 0)

/-- An answer: to one of these calls, to `ibv_get_device_list` (how many devices) and
`ibv_query_port`, to a poll and, one by one, its entries, to `gettimeofday`, and to the
last `malloc`. -/
inductive Event
  | served (c : Call) (ok : Bool)
  | devices (found : Option ℕ)
  | port (attr : Option PortAttr)
  | polled (ne : ℤ)
  | entry (w : IbvWc)
  | clock (t : Option Timeval)
  | block (a : BitVec 64)
  deriving DecidableEq

/-- A thread returns a code, or ends the process. -/
inductive Exit
  | code (p : BitVec 64)
  | process
  deriving DecidableEq

section Parts

def served (c : Call) : Calls Event Exit Bool :=
  ask fun e =>
    match e with
    | .served c' ok => if c' = c then some ok else none
    | _ => none

/-- `if (call()) return r`. -/
def check (c : Call) (r : Exit) : Calls Event Exit Unit := do
  let ok ← served c
  require ok r

def checks (r : Exit) : List Call → Calls Event Exit Unit
  | [] => pure ()
  | c :: cs => do
    check c r
    checks r cs

/-- The device list must be there and have a first device. -/
def getDevice (r : Exit) : Calls Event Exit Unit := do
  let found ← ask fun e =>
    match e with
    | .devices found => some found
    | _ => none
  require (found ≠ none) r
  require (found ≠ some 0) r

/-- The check of the LID, for each queue pair. -/
def checkLid (attr : PortAttr) (r : Exit) : ℕ → Calls Event Exit Unit
  | 0 => pure ()
  | n + 1 => do
    require attr.hasLid r
    checkLid attr r n

def getPortInfo (n : ℕ) (r : Exit) : Calls Event Exit Unit := do
  let attr ← ask fun e =>
    match e with
    | .port attr => some attr
    | _ => none
  match attr with
  | none => ret r
  | some attr => checkLid attr r n

/-- `pp_post_recv`, and `pp_post_recv_pQp`: how many of the posts succeed in a row. -/
def ppPostRecv : ℕ → Calls Event Exit ℕ
  | 0 => pure 0
  | n + 1 => do
    let ok ← served .postRecv
    if ok then do
      let i ← ppPostRecv n
      pure (i + 1)
    else pure 0

/-- One call of `ibv_poll_cq`, which returns at most `numEntries`. -/
def pollOnce (numEntries : ℕ) (r : Exit) : Calls Event Exit ℤ := do
  let ne ← ask fun e =>
    match e with
    | .polled ne => if ne ≤ numEntries then some ne else none
    | _ => none
  if ne < 0 then ret r else pure ne

/-- The `do` loop around it. -/
def pollCq (numEntries : ℕ) (r : Exit) : Calls Event Exit ℤ := do
  let ne ← pollOnce numEntries r
  loop (fun ne => ne < 1) (fun _ => pollOnce numEntries r) ne

def readEntry : Calls Event Exit IbvWc :=
  ask fun e =>
    match e with
    | .entry w => some w
    | _ => none

def gettimeofday (r : Exit) : Calls Event Exit Timeval := do
  let t ← ask fun e =>
    match e with
    | .clock t => some t
    | _ => none
  match t with
  | none => ret r
  | some t => pure t

/-- Where a `double` can be. -/
def FitsDouble (a : BitVec 64) : Prop := a ≠ 0 ∧ a.toNat % 8 = 0

instance (a : BitVec 64) : Decidable (FitsDouble a) :=
  inferInstanceAs (Decidable (a ≠ 0 ∧ a.toNat % 8 = 0))

/-- `malloc(sizeof(double))`, on whose success the source relies. -/
def mallocDouble : Calls Event Exit (BitVec 64) :=
  ask fun e =>
    match e with
    | .block a => if FitsDouble a then some a else none
    | _ => none

end Parts

section Failures

/-- Its `wr_id` is one of the two that requests are posted with. -/
def KnownId (id : BitVec 32) : Prop := id = pingpongSendWrid ∨ id = pingpongRecvWrid

/-- A call that fails, or a completion that is none of a request of the thread: `known`
are the queue pair numbers that it looks for. -/
def Event.Failed (known : ℕ → Prop) : Event → Prop
  | served _ ok => ok = false
  | devices found => found = none ∨ found = some 0
  | port attr => ∀ a, attr = some a → a.hasLid = false
  | polled ne => ne < 0
  | entry w => ¬ known w.qpNum ∨ w.status ≠ ibvWcSuccess ∨ ¬ KnownId (w.wrId.setWidth 32)
  | clock t => t = none
  | block _ => False

/-- What a thread that gives up may leave main with. -/
def Exit.Code : Exit → Prop
  | code p => p = 1 ∨ p = -1
  | process => True

theorem code_one : (Exit.code 1).Code := Or.inl rfl

theorem code_neg_one : (Exit.code (-1)).Code := Or.inr rfl

theorem code_process : Exit.process.Code := trivial

/-- A part of `runPingPong` that gives up when a call fails, and only then. -/
abbrev Gives {α : Type} (known : ℕ → Prop) (x : Calls Event Exit α) : Prop :=
  Honest (Event.Failed known) Exit.Code x

variable {known : ℕ → Prop} {α : Type} {r : Exit}

theorem served_eq_some {c : Call} {e : Event} {ok : Bool}
    (h : (match e with
      | .served c' ok => if c' = c then some ok else none
      | _ => none) = some ok) : e = .served c ok := by
  split at h
  · split_ifs at h with hc
    rw [hc, Option.some.inj h]
  · cases h

theorem gives_served_bind {c : Call} {f : Bool → Calls Event Exit α}
    (htrue : Gives known (f true)) (hfalse : ∃ r, r.Code ∧ f false = ret r) :
    Gives known (served c >>= f) := by
  apply honest_ask_bind
  intro e ok he
  obtain rfl := served_eq_some he
  cases ok with
  | true => exact Or.inl ⟨Bool.noConfusion, htrue⟩
  | false => exact Or.inr ⟨rfl, hfalse⟩

theorem gives_check (c : Call) (hr : r.Code) : Gives known (check c r) :=
  gives_served_bind (honest_pure ()) ⟨r, hr, rfl⟩

theorem gives_checks (cs : List Call) (hr : r.Code) : Gives known (checks r cs) := by
  induction cs with
  | nil => exact honest_pure ()
  | cons c cs ih => exact (gives_check c hr).bind (fun _ => ih)

theorem gives_getDevice (hr : r.Code) : Gives known (getDevice r) := by
  apply honest_ask_bind
  intro e found he
  cases e with
  | devices found' =>
    obtain rfl := Option.some.inj he
    rcases found' with _ | _ | k
    · exact Or.inr ⟨Or.inl rfl, r, hr, rfl⟩
    · exact Or.inr ⟨Or.inr rfl, r, hr, rfl⟩
    · exact Or.inl ⟨by simp [Event.Failed], honest_pure ()⟩
  | _ => cases he

theorem checkLid_of_hasLid {attr : PortAttr} (h : attr.hasLid = true) (n : ℕ) :
    checkLid attr r n = pure () := by
  induction n with
  | zero => rfl
  | succ n ih =>
    rw [checkLid, h]
    exact ih

/-- There is a queue pair to check for. -/
theorem gives_getPortInfo {n : ℕ} (hn : 1 ≤ n) (hr : r.Code) : Gives known (getPortInfo n r) := by
  apply honest_ask_bind
  intro e answer he
  cases e with
  | port answer' =>
    obtain rfl := Option.some.inj he
    cases answer' with
    | none =>
      refine Or.inr ⟨?_, r, hr, rfl⟩
      intro a ha
      cases ha
    | some attr =>
      cases hlid : attr.hasLid with
      | true =>
        refine Or.inl ⟨?_, ?_⟩
        · intro hfailed
          rw [hfailed attr rfl] at hlid
          cases hlid
        · show Gives known (checkLid attr r n)
          rw [checkLid_of_hasLid hlid]
          exact honest_pure ()
      | false =>
        refine Or.inr ⟨?_, r, hr, ?_⟩
        · intro a ha
          rw [← Option.some.inj ha, hlid]
        · obtain ⟨m, rfl⟩ := Nat.exists_eq_add_of_le' hn
          show checkLid attr r (m + 1) = ret r
          rw [checkLid, hlid]
          rfl
  | _ => cases he

/-- Either all the posts succeed, or one fails and fewer are counted. -/
theorem ppPostRecv_done (known : ℕ → Prop) {n i : ℕ} {as rest : List Event}
    (h : ppPostRecv n as = .done i rest) :
    ∃ used, as = used ++ rest ∧
      ((∀ e ∈ used, ¬ e.Failed known) ∧ i = n ∨ (∃ e ∈ used, e.Failed known) ∧ i < n) := by
  induction n generalizing i as with
  | zero =>
    cases h
    exact ⟨[], rfl, Or.inl ⟨fun e he => absurd he List.not_mem_nil, rfl⟩⟩
  | succ n ih =>
    obtain ⟨ok, mid, hserved, hnext⟩ := bind_eq_done.mp h
    obtain ⟨e, rfl, he⟩ := ask_eq_done.mp hserved
    obtain rfl := served_eq_some he
    cases ok with
    | false =>
      cases hnext
      exact ⟨[.served .postRecv false], rfl,
        Or.inr ⟨⟨_, List.mem_singleton_self _, rfl⟩, Nat.succ_pos n⟩⟩
    | true =>
      have hmore : (ppPostRecv n >>= fun j => pure (j + 1)) mid = .done i rest := hnext
      obtain ⟨j, mid', hposts, hpure⟩ := bind_eq_done.mp hmore
      cases hpure
      obtain ⟨used, rfl, hgood | hbad⟩ := ih hposts
      · refine ⟨.served .postRecv true :: used, rfl, Or.inl ⟨?_, congrArg (· + 1) hgood.2⟩⟩
        exact List.forall_mem_cons.mpr ⟨Bool.noConfusion, hgood.1⟩
      · obtain ⟨⟨e, he, hfailed⟩, hlt⟩ := hbad
        exact ⟨.served .postRecv true :: used, rfl,
          Or.inr ⟨⟨e, List.mem_cons_of_mem _ he, hfailed⟩, Nat.succ_lt_succ hlt⟩⟩

theorem ppPostRecv_ne_returned {n : ℕ} {as rest : List Event} :
    ppPostRecv n as ≠ .returned r rest := by
  induction n generalizing as with
  | zero =>
    intro h
    cases h
  | succ n ih =>
    intro h
    rcases bind_eq_returned.mp h with hserved | ⟨ok, mid, -, hnext⟩
    · exact ask_ne_returned hserved
    · cases ok with
      | false => cases hnext
      | true =>
        have hmore : (ppPostRecv n >>= fun j => pure (j + 1)) mid = .returned r rest := hnext
        rcases bind_eq_returned.mp hmore with hposts | ⟨j, mid', -, hpure⟩
        · exact ih hposts
        · cases hpure

/-- The posts with the look at their number that follows. -/
theorem gives_ppPostRecv_bind {n : ℕ} {f : ℕ → Calls Event Exit α} (hall : Gives known (f n))
    (hless : ∀ i < n, ∃ r, r.Code ∧ f i = ret r) : Gives known (ppPostRecv n >>= f) := by
  apply honest_bind_of (fun as r rest h => absurd h ppPostRecv_ne_returned)
  intro as i rest hdone
  obtain ⟨used, hused, hgood | hbad⟩ := ppPostRecv_done known hdone
  · obtain ⟨hnone, rfl⟩ := hgood
    exact ⟨used, hused, Or.inl ⟨hnone, hall⟩⟩
  · exact ⟨used, hused, Or.inr ⟨hbad.1, hless i hbad.2⟩⟩

theorem gives_pollOnce (numEntries : ℕ) (hr : r.Code) : Gives known (pollOnce numEntries r) := by
  apply honest_ask_bind
  intro e ne he
  cases e with
  | polled ne' =>
    obtain ⟨-, hsome⟩ := Option.ite_none_right_eq_some.mp he
    obtain rfl := Option.some.inj hsome
    by_cases hne : ne' < 0
    · exact Or.inr ⟨hne, r, hr, if_pos hne⟩
    · refine Or.inl ⟨hne, ?_⟩
      rw [if_neg hne]
      exact honest_pure ne'
  | _ => cases he

theorem gives_pollCq (numEntries : ℕ) (hr : r.Code) : Gives known (pollCq numEntries r) :=
  (gives_pollOnce numEntries hr).bind (honest_loop (fun _ => gives_pollOnce numEntries hr))

theorem pollOnce_consumes (numEntries : ℕ) (r : Exit) : Consumes (pollOnce numEntries r) := by
  apply (consumes_ask _).bind
  intro ne
  split_ifs
  · exact keeps_ret r
  · exact keeps_pure ne

theorem pollCq_consumes (numEntries : ℕ) (r : Exit) : Consumes (pollCq numEntries r) :=
  (pollOnce_consumes numEntries r).bind
    (keeps_loop (fun _ => (pollOnce_consumes numEntries r).keeps))

theorem gives_gettimeofday (hr : r.Code) : Gives known (gettimeofday r) := by
  apply honest_ask_bind
  intro e answer he
  cases e with
  | clock answer' =>
    obtain rfl := Option.some.inj he
    cases answer' with
    | none => exact Or.inr ⟨rfl, r, hr, rfl⟩
    | some t => exact Or.inl ⟨by simp [Event.Failed], honest_pure t⟩
  | _ => cases he

theorem gives_mallocDouble_bind {f : BitVec 64 → Calls Event Exit α}
    (h : ∀ a, Gives known (f a)) : Gives known (mallocDouble >>= f) := by
  apply honest_ask_bind
  intro e a he
  cases e with
  | block a' => exact Or.inl ⟨False.elim, h a⟩
  | _ => cases he

theorem ends_mallocDouble : Ends mallocDouble FitsDouble := by
  intro as a rest h
  obtain ⟨e, rfl, he⟩ := ask_eq_done.mp h
  cases e with
  | block a' =>
    obtain ⟨haligned, hsome⟩ := Option.ite_none_right_eq_some.mp he
    rw [← Option.some.inj hsome]
    exact haligned
  | _ => cases he

/-- No code is the address of a time. -/
theorem not_fits_of_code {p : BitVec 64} (h : (Exit.code p).Code) : ¬ FitsDouble p := by
  rcases h with rfl | rfl
  · decide
  · decide

/-- An entry that is read, with what is done about it next. -/
theorem gives_readEntry_bind {f : IbvWc → Calls Event Exit α}
    (hgood : ∀ w, ¬ (Event.entry w).Failed known → Gives known (f w))
    (hbad : ∀ w, (Event.entry w).Failed known → ∃ r, r.Code ∧ f w = ret r) :
    Gives known (readEntry >>= f) := by
  apply honest_ask_bind
  intro e w he
  cases e with
  | entry w' =>
    obtain rfl := Option.some.inj he
    by_cases hw : (Event.entry w').Failed known
    · exact Or.inr ⟨hw, hbad w' hw⟩
    · exact Or.inl ⟨hw, hgood w' hw⟩
  | _ => cases he

end Failures

section Loop

variable {n : ℕ} (rxDepth iters numEntries : ℕ) (find : ℕ → Option (Fin n)) (X : Role) (r : Exit)

/-- The receives posted on every queue pair before the exchange. -/
def initialReceives : List (Fin n) → (Fin n → ℤ) → Calls Event Exit (Fin n → ℤ)
  | [], routs => pure routs
  | q :: qs, routs => do
    let i ← ppPostRecv rxDepth
    require (¬ i < rxDepth) r
    initialReceives qs (Function.update routs q i)

/-- The client opens on every queue pair. -/
def firstSends : List (Fin n) → (Fin n → BitVec 32) → Calls Event Exit (Fin n → BitVec 32)
  | [], pending => pure pending
  | q :: qs, pending =>
    match X with
    | .client => do
      check .postSend r
      firstSends qs (Function.update pending q (pending q ||| pingpongSendWrid))
    | .server => pure pending

/-- Case `PINGPONG_RECV_WRID`: one credit is used, and the last but one refills. -/
def creditReceive (q : Fin n) (s : Locals n) : Calls Event Exit (Locals n) :=
  let routs := s.routsArr q - 1
  if routs ≤ 1 then do
    let i ← ppPostRecv (rxDepth - routs).toNat
    let routs := routs + i
    require (¬ routs < rxDepth) r
    pure { s with routsArr := Function.update s.routsArr q routs }
  else pure { s with routsArr := Function.update s.routsArr q routs }

/-- The `switch` on `wr_id`. -/
def countCompletion (q : Fin n) (id : BitVec 32) (s : Locals n) : Calls Event Exit (Locals n) :=
  if id = pingpongSendWrid then pure { s with scnt := s.scnt + 1 }
  else if id = pingpongRecvWrid then do
    let s ← creditReceive rxDepth r q s
    pure { s with rcnt := s.rcnt + 1 }
  else ret r

/-- Clear the pending bit and, when none is left, post the next send. -/
def repost (q : Fin n) (id : BitVec 32) (s : Locals n) : Calls Event Exit (Locals n) :=
  let pending := s.pendingQp q &&& ~~~id
  if s.scnt < iters ∧ pending = 0 then do
    check .postSend r
    pure { s with
      pendingQp := Function.update s.pendingQp q (pingpongRecvWrid ||| pingpongSendWrid) }
  else pure { s with pendingQp := Function.update s.pendingQp q pending }

def handleCompletion (s : Locals n) (w : IbvWc) : Calls Event Exit (Locals n) :=
  match find w.qpNum with
  | none => ret r
  | some q =>
    let id := w.wrId.setWidth 32
    if w.status ≠ ibvWcSuccess then ret r
    else do
      let s ← countCompletion rxDepth r q id s
      repost iters r q id s

/-- The `for` loop over the entries of a poll. -/
def handleBatch : ℕ → Locals n → Calls Event Exit (Locals n)
  | 0, s => pure s
  | ne + 1, s => do
    let w ← readEntry
    let s ← handleCompletion rxDepth iters find r s w
    handleBatch ne s

def turn (s : Locals n) : Calls Event Exit (Locals n) := do
  let ne ← pollCq numEntries r
  handleBatch rxDepth iters find r ne.toNat s

/-- `while (rcnt < iters || scnt < iters)`. -/
def pingPong (s : Locals n) : Calls Event Exit (Locals n) :=
  loop (fun s => s.rcnt < iters ∨ s.scnt < iters) (turn rxDepth iters numEntries find r) s

/-- The queue pair numbers that are found. -/
def Found (num : ℕ) : Prop := (find num).isSome

variable {r}

theorem gives_initialReceives {known : ℕ → Prop} (hr : r.Code) (qs : List (Fin n))
    (routs : Fin n → ℤ) : Gives known (initialReceives rxDepth r qs routs) := by
  induction qs generalizing routs with
  | nil => exact honest_pure routs
  | cons q qs ih =>
    apply gives_ppPostRecv_bind
    · rw [require_bind_of (decide_eq_true (lt_irrefl _))]
      exact ih _
    · intro i hi
      exact ⟨r, hr, require_bind_of_not (decide_eq_false (not_not.mpr hi)) _ _⟩

theorem gives_firstSends {known : ℕ → Prop} (hr : r.Code) (qs : List (Fin n))
    (pending : Fin n → BitVec 32) : Gives known (firstSends X r qs pending) := by
  induction qs generalizing pending with
  | nil => exact honest_pure pending
  | cons q qs ih =>
    cases X with
    | client => exact (gives_check _ hr).bind (fun _ => ih _)
    | server => exact honest_pure pending

theorem gives_creditReceive {known : ℕ → Prop} (hr : r.Code) (q : Fin n) (s : Locals n) :
    Gives known (creditReceive rxDepth r q s) := by
  by_cases hlow : s.routsArr q - 1 ≤ 1
  · rw [creditReceive, if_pos hlow]
    apply gives_ppPostRecv_bind
    · rw [require_bind_of (decide_eq_true (by omega))]
      exact honest_pure _
    · intro i hi
      exact ⟨r, hr, require_bind_of_not (decide_eq_false (by omega)) _ _⟩
  · rw [creditReceive, if_neg hlow]
    exact honest_pure _

theorem gives_countCompletion {known : ℕ → Prop} (hr : r.Code) (q : Fin n) {id : BitVec 32}
    (hid : KnownId id) (s : Locals n) : Gives known (countCompletion rxDepth r q id s) := by
  rw [countCompletion]
  by_cases hsend : id = pingpongSendWrid
  · rw [if_pos hsend]
    exact honest_pure _
  · rw [if_neg hsend, if_pos (hid.resolve_left hsend)]
    exact (gives_creditReceive rxDepth hr q s).bind (fun s => honest_pure _)

theorem gives_repost {known : ℕ → Prop} (hr : r.Code) (q : Fin n) (id : BitVec 32)
    (s : Locals n) : Gives known (repost iters r q id s) := by
  rw [repost]
  split_ifs
  · exact (gives_check _ hr).bind (fun _ => honest_pure _)
  · exact honest_pure _

theorem gives_handleCompletion (hr : r.Code) (s : Locals n) {w : IbvWc}
    (hw : ¬ (Event.entry w).Failed (Found find)) :
    Gives (Found find) (handleCompletion rxDepth iters find r s w) := by
  simp only [Event.Failed, not_or, not_not] at hw
  obtain ⟨hfound, hstatus, hid⟩ := hw
  obtain ⟨q, hq⟩ := Option.isSome_iff_exists.mp hfound
  simp only [handleCompletion, hq, if_neg (not_not.mpr hstatus)]
  exact (gives_countCompletion rxDepth hr q hid s).bind (gives_repost iters hr q _)

theorem handleCompletion_of_failed (s : Locals n) {w : IbvWc}
    (hw : (Event.entry w).Failed (Found find)) :
    handleCompletion rxDepth iters find r s w = ret r := by
  cases hfind : find w.qpNum with
  | none => simp only [handleCompletion, hfind]
  | some q =>
    have hfound : Found find w.qpNum := Option.isSome_of_eq_some hfind
    simp only [handleCompletion, hfind]
    by_cases hstatus : w.status = ibvWcSuccess
    · have hid := (hw.resolve_left (not_not.mpr hfound)).resolve_left (not_not.mpr hstatus)
      obtain ⟨hsend, hrecv⟩ := not_or.mp hid
      rw [if_neg (not_not.mpr hstatus), countCompletion, if_neg hsend, if_neg hrecv, ret_bind]
    · rw [if_pos hstatus]

theorem gives_handleBatch (hr : r.Code) (ne : ℕ) (s : Locals n) :
    Gives (Found find) (handleBatch rxDepth iters find r ne s) := by
  induction ne generalizing s with
  | zero => exact honest_pure s
  | succ ne ih =>
    apply gives_readEntry_bind
    · intro w hw
      exact (gives_handleCompletion rxDepth iters find hr s hw).bind ih
    · intro w hw
      refine ⟨r, hr, ?_⟩
      rw [handleCompletion_of_failed rxDepth iters find s hw, ret_bind]

theorem gives_pingPong (hr : r.Code) (s : Locals n) :
    Gives (Found find) (pingPong rxDepth iters numEntries find r s) := by
  apply honest_loop
  intro s
  exact (gives_pollCq numEntries hr).bind
    (fun ne => gives_handleBatch rxDepth iters find hr ne.toNat s)

/-- The loop is followed turn by turn, however many there are. -/
theorem pingPong_eq (hr : r.Code) (s : Locals n) :
    pingPong rxDepth iters numEntries find r s =
      if s.rcnt < iters ∨ s.scnt < iters then
        turn rxDepth iters numEntries find r s >>= pingPong rxDepth iters numEntries find r
      else pure s := by
  have hconsumes : ∀ s, Consumes (turn rxDepth iters numEntries find r s) := by
    intro s
    exact (pollCq_consumes numEntries r).bind
      (fun ne => (gives_handleBatch rxDepth iters find hr ne.toNat s).keeps)
  have hloop : pingPong rxDepth iters numEntries find r s =
      if decide (s.rcnt < iters ∨ s.scnt < iters) then
        turn rxDepth iters numEntries find r s >>= pingPong rxDepth iters numEntries find r
      else pure s := loop_eq hconsumes s
  rw [hloop]
  simp only [decide_eq_true_eq]

end Loop

namespace MultithreadIB

def ppInitCtx : List Call :=
  [.calloc, .malloc, .openDevice, .allocPd, .regMr, .createCq, .createQp, .modifyQp]

def ppConnectCtx : List Call := [.modifyQp, .modifyQp]

/-- The client's last `write` and the server's last `read` are not checked. -/
def ppClientExchDest : List Call := [.write, .read, .malloc]

def ppServerExchDest : List Call := [.read, .malloc] ++ ppConnectCtx ++ [.write]

def exchange : Role → List Call
  | .client => ppClientExchDest ++ ppConnectCtx
  | .server => ppServerExchDest

def ppCloseCtx : List Call := [.destroyQp, .destroyCq, .deregMr, .deallocPd, .closeDevice]

/-- A completion is not looked up: there is one queue pair. -/
def findQp (_ : ℕ) : Option (Fin 1) := some ⟨0, Nat.one_pos⟩

variable (ctx : Multithread.PingpongContext) (iters : ℕ)

/-- The address that is returned, with the time that is stored there. -/
def runPingPong (X : Role) : Calls Event Exit (BitVec 64 × ℚ) := do
  check .setAffinity .process
  getDevice (.code 1)
  checks (.code 1) ppInitCtx
  let routs ← initialReceives ctx.rxDepth (.code 1) (List.finRange 1) (fun _ => 0)
  getPortInfo 1 (.code 1)
  checks (.code 1) (exchange X)
  let pending ← firstSends X (.code 1) (List.finRange 1) (fun _ => pingpongRecvWrid)
  let start ← gettimeofday (.code 1)
  let _ ← pingPong ctx.rxDepth iters 2 findQp (.code 1) ⟨0, 0, pending, routs⟩
  let stop ← gettimeofday (.code 1)
  checks (.code 1) ppCloseCtx
  let timeForCSV ← mallocDouble
  pure (timeForCSV, timeDifference start stop)

theorem gives_runPingPong (X : Role) : Gives (Found findQp) (runPingPong ctx iters X) := by
  refine (gives_check _ code_process).bind (fun _ => (gives_getDevice code_one).bind (fun _ => ?_))
  refine (gives_checks _ code_one).bind (fun _ => ?_)
  refine (gives_initialReceives _ code_one _ _).bind (fun routs => ?_)
  refine (gives_getPortInfo le_rfl code_one).bind (fun _ => (gives_checks _ code_one).bind
    (fun _ => ?_))
  refine (gives_firstSends X code_one _ _).bind (fun pending => ?_)
  refine (gives_gettimeofday code_one).bind (fun start => ?_)
  refine (gives_pingPong _ _ _ _ code_one _).bind (fun _ => ?_)
  refine (gives_gettimeofday code_one).bind (fun stop => (gives_checks _ code_one).bind
    (fun _ => ?_))
  exact gives_mallocDouble_bind (fun timeForCSV => honest_pure _)

/-- A thread that comes to its end returns where a `double` can be. -/
theorem ends_runPingPong (X : Role) :
    Ends (runPingPong ctx iters X) (fun cell => FitsDouble cell.1) := by
  refine ends_bind fun _ => ends_bind fun _ => ends_bind fun _ => ends_bind fun routs => ?_
  refine ends_bind fun _ => ends_bind fun _ => ends_bind fun pending => ends_bind fun start => ?_
  refine ends_bind fun _ => ends_bind fun stop => ends_bind fun _ => ?_
  exact ends_mallocDouble.bind (fun timeForCSV haligned => ends_pure haligned)

end MultithreadIB

namespace MultistreamTestRunner

def ppInitCtx (peerNum : ℕ) : List Call :=
  [.calloc, .malloc, .openDevice, .allocPd, .regMr, .createCq, .calloc] ++
    List.replicate peerNum .createQp ++ List.replicate peerNum .modifyQp

def ppConnectCtxPerQp : List Call := [.modifyQp, .modifyQp]

def ppClientExchDest : List Call := [.write, .read, .malloc]

def ppServerExchDest : List Call := [.read, .malloc] ++ ppConnectCtxPerQp ++ [.write]

def exchange : Role → List Call
  | .client => ppClientExchDest ++ ppConnectCtxPerQp
  | .server => ppServerExchDest

def ppCloseCtx (peerNum : ℕ) : List Call :=
  List.replicate peerNum .destroyQp ++ [.destroyCq, .deregMr, .deallocPd, .closeDevice]

variable {n : ℕ} (ctx : Multistream.PingpongContext n) (iters : ℕ)

/-- The address that is returned, with the time that is stored there. -/
def runPingPong (X : Role) : Calls Event Exit (BitVec 64 × ℚ) := do
  getDevice (.code 1)
  checks (.code 1) (ppInitCtx n)
  let routs ← initialReceives ctx.rxDepth (.code 1) (List.finRange n) (fun _ => 0)
  getPortInfo n (.code 1)
  checks (.code 1) (List.replicate n (exchange X)).flatten
  let pending ← firstSends X (.code 1) (List.finRange n) (fun _ => pingpongRecvWrid)
  let start ← gettimeofday (.code 1)
  let _ ← pingPong ctx.rxDepth iters (n * 2) (findQp ctx) (.code (-1)) ⟨0, 0, pending, routs⟩
  let stop ← gettimeofday (.code 1)
  checks (.code 1) (ppCloseCtx n)
  let timeForCSV ← mallocDouble
  pure (timeForCSV, timeDifference start stop)

theorem gives_runPingPong (hn : 1 ≤ n) (X : Role) :
    Gives (Found (findQp ctx)) (runPingPong ctx iters X) := by
  refine (gives_getDevice code_one).bind (fun _ => (gives_checks _ code_one).bind (fun _ => ?_))
  refine (gives_initialReceives _ code_one _ _).bind (fun routs => ?_)
  refine (gives_getPortInfo hn code_one).bind (fun _ => (gives_checks _ code_one).bind
    (fun _ => ?_))
  refine (gives_firstSends X code_one _ _).bind (fun pending => ?_)
  refine (gives_gettimeofday code_one).bind (fun start => ?_)
  refine (gives_pingPong _ _ _ _ code_neg_one _).bind (fun _ => ?_)
  refine (gives_gettimeofday code_one).bind (fun stop => (gives_checks _ code_one).bind
    (fun _ => ?_))
  exact gives_mallocDouble_bind (fun timeForCSV => honest_pure _)

/-- A thread that comes to its end returns where a `double` can be. -/
theorem ends_runPingPong (X : Role) :
    Ends (runPingPong ctx iters X) (fun cell => FitsDouble cell.1) := by
  refine ends_bind fun _ => ends_bind fun _ => ends_bind fun routs => ends_bind fun _ => ?_
  refine ends_bind fun _ => ends_bind fun pending => ends_bind fun start => ends_bind fun _ => ?_
  refine ends_bind fun stop => ends_bind fun _ => ?_
  exact ends_mallocDouble.bind (fun timeForCSV haligned => ends_pure haligned)

end MultistreamTestRunner

end InfinibandWorkshop.ThreadExits
