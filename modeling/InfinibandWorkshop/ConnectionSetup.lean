import InfinibandWorkshop.Descriptors
import InfinibandWorkshop.Loops
import InfinibandWorkshop.RoundHandover

/-!
# What setting up a connection leaves open

`createClientSocketConnection` and `createServerConnection` of multistreamTestRunner.c
go through the addresses that a name resolves to; both `Connector::connect` functions of
Connector.cpp use one address, the second with a time limit. Every system call may fail.
The descriptors of the process are a table in which a new socket takes the lowest free
number; a socket is named there by the attempt and the address that it was made for.
-/
namespace InfinibandWorkshop.ConnectionSetup
open Handover (doublings)

/-- An attempt, by the seconds that are waited after it, and a place in the list of
addresses. -/
structure Try where
  numsec : ℕ
  position : ℕ
  deriving DecidableEq

/-- Whether `socket` succeeds, and then `connect` or `bind`. -/
structure Tried where
  socket : Bool
  accepted : Bool

def Tried.succeeds (o : Tried) : Bool := o.socket && o.accepted

/-- The process has descriptors of its own besides the sockets made here. -/
abbrev Table (α : Type*) : Type _ := Descriptors (α ⊕ Try)

section Source

variable {α : Type*}

/-- The variable for the current descriptor, and all the descriptors. -/
structure Vars (α : Type*) where
  sockfd : ℤ
  table : Table α

/-- `sockfd = socket(...)`. -/
def Vars.socket (v : Vars α) (t : Try) (ok : Bool) : Vars α :=
  if ok then ⟨v.table.lowest, v.table.alloc (.inr t)⟩ else ⟨-1, v.table⟩

/-- `close(sockfd)`. -/
def Vars.close (v : Vars α) : Vars α := { v with table := v.table.close v.sockfd.toNat }

/-- The loop over the list of addresses. The client connects and the server binds. -/
def tryAddresses (outcome : Try → Tried) (numsec : ℕ) : List ℕ → Vars α → Vars α
  | [], v => v
  | i :: rest, v =>
    let t : Try := ⟨numsec, i⟩
    let v := v.socket t (outcome t).socket
    if 0 ≤ v.sockfd then
      if (outcome t).accepted then v
      else tryAddresses outcome numsec rest { v.close with sockfd := -1 }
    else tryAddresses outcome numsec rest v

/-- The loop over the attempts. -/
def retryLoop (outcome : Try → Tried) (count : ℕ) : List ℕ → Vars α → Vars α
  | [], v => v
  | numsec :: rest, v =>
    let v := tryAddresses outcome numsec (List.range count) v
    if 0 ≤ v.sockfd then v else retryLoop outcome count rest v

def clientToServerRetryTimeout : ℕ := 64

/-- The number of addresses is `none` where `asprintf` or `getaddrinfo` fails. -/
def createClientSocketConnection (resolved : Option ℕ) (outcome : Try → Tried) (table : Table α) :
    ℤ × Table α :=
  match resolved with
  | none => (-1, table)
  | some count =>
    let v := retryLoop outcome count (doublings clientToServerRetryTimeout) ⟨-1, table⟩
    if v.sockfd < 0 then (-1, v.table) else (v.sockfd, v.table)

def createServerConnection (resolved : Option ℕ) (outcome : Try → Tried) (listen : Bool)
    (table : Table α) : ℤ × Table α :=
  match resolved with
  | none => (-1, table)
  | some count =>
    let v := tryAddresses outcome 0 (List.range count) ⟨-1, table⟩
    if v.sockfd < 0 then (-1, v.table)
    else if listen then (v.sockfd, v.table)
    else (-1, v.table)

/-- A `Stream`, by its descriptor. -/
structure Stream where
  m_sd : ℤ

/-- `Connector::connect(server, port)`; `none` is `NULL`. -/
def connect (o : Tried) (table : Table α) : Option Stream × Table α :=
  let v := Vars.socket ⟨-1, table⟩ ⟨0, 0⟩ o.socket
  if v.sockfd < 0 then (none, v.table)
  else if o.accepted then (some ⟨v.sockfd⟩, v.table)
  else (none, v.close.table)

inductive Connected
  | established
  | inProgress
  | refused
  deriving DecidableEq

inductive Selected
  | writable
  | timedOut
  | interrupted
  | failed
  deriving DecidableEq

/-- The calls of a connect with a time limit: what `connect` finds, what the calls of
`select` return, and the error that `getsockopt` stores. -/
structure TimedCalls where
  socket : Bool
  connect : Connected
  select : ℕ → Selected
  valopt : ℤ

/-- `do s = select(...) while (s == -1 && errno == EINTR)`, by the number of calls. -/
def selectLoop (select : ℕ → Selected) : Loop ℕ Selected where
  turn k :=
    match select k with
    | .interrupted => .inl (k + 1)
    | s => .inr s

/-- The variable `result` at the end; `none` while `select` is still being called. -/
def TimedCalls.result (c : TimedCalls) (fuel : ℕ) : Option ℤ :=
  match c.connect with
  | .established => some 0
  | .refused => some (-1)
  | .inProgress =>
    ((selectLoop c.select).run fuel 0).map
      (fun s => if s = .writable then if c.valopt = 0 then 0 else -1 else -1)

/-- `Connector::connect(server, port, timeout)`. -/
def connectWithin (timeout : ℤ) (c : TimedCalls) (fuel : ℕ) (table : Table α) :
    Option (Option Stream × Table α) :=
  if timeout = 0 then some (connect ⟨c.socket, c.connect = .established⟩ table)
  else
    let v := Vars.socket ⟨-1, table⟩ ⟨0, 0⟩ c.socket
    if v.sockfd < 0 then some (none, v.table)
    else (c.result fuel).map
      (fun result => if result = -1 then (none, v.table) else (some ⟨v.sockfd⟩, v.table))

end Source

section Requests

variable {α : Type*}

/-- A call of one of the four functions, with what its system calls come to. -/
inductive Request
  | createClientSocketConnection (resolved : Option ℕ) (outcome : Try → Tried)
  | createServerConnection (resolved : Option ℕ) (outcome : Try → Tried) (listen : Bool)
  | connect (o : Tried)
  | connectWithin (timeout : ℤ) (c : TimedCalls)

/-- The descriptor that is reported, and those open then; `none` when the function has
not returned. -/
def Request.run (fuel : ℕ) (table : Table α) : Request → Option (Option ℤ × Table α)
  | .createClientSocketConnection resolved outcome =>
    let r := ConnectionSetup.createClientSocketConnection resolved outcome table
    some (if r.1 = -1 then none else some r.1, r.2)
  | .createServerConnection resolved outcome listen =>
    let r := ConnectionSetup.createServerConnection resolved outcome listen table
    some (if r.1 = -1 then none else some r.1, r.2)
  | .connect o =>
    let r := ConnectionSetup.connect o table
    some (r.1.map Stream.m_sd, r.2)
  | .connectWithin timeout c =>
    (ConnectionSetup.connectWithin timeout c fuel table).map
      (fun r => (r.1.map Stream.m_sd, r.2))

/-- The tries of the client, in order. -/
def clientTries (count : ℕ) : List Try :=
  (doublings clientToServerRetryTimeout).flatMap
    (fun numsec => (List.range count).map (Try.mk numsec))

/-- The one pass of the server. -/
def serverTries (count : ℕ) : List Try := (List.range count).map (Try.mk 0)

/-- The connection is there: at once, or when `select` first returns for good. -/
def TimedCalls.Established (c : TimedCalls) : Prop :=
  c.connect = .established ∨
    c.connect = .inProgress ∧ c.valopt = 0 ∧
      ∃ k, (∀ i < k, c.select i = .interrupted) ∧ c.select k = .writable

/-- The first try that succeeded. -/
def Request.First (t : Try) : Request → Prop
  | .createClientSocketConnection resolved outcome =>
    ∃ count ∈ resolved, (clientTries count).find? (fun u => (outcome u).succeeds) = some t
  | .createServerConnection resolved outcome listen =>
    listen = true ∧
      ∃ count ∈ resolved, (serverTries count).find? (fun u => (outcome u).succeeds) = some t
  | .connect o => o.succeeds = true ∧ t = ⟨0, 0⟩
  | .connectWithin timeout c =>
    c.socket = true ∧ t = ⟨0, 0⟩ ∧
      if timeout = 0 then c.connect = .established else c.Established

/-- The function returns. When it reports a failure, the same descriptors are open as
before; when it reports a descriptor, there is that one in addition, which was free and
is the socket of the first try that succeeded. -/
def Tidy (q : Request) (table : Table α) : Prop :=
  (∃ fuel after, q.run fuel table = some (none, after) ∧ after.get = table.get) ∨
    ∃ (fuel : ℕ) (after : Table α) (fd : ℕ) (t : Try),
      q.run fuel table = some (some (fd : ℤ), after) ∧ q.First t ∧ table.get fd = none ∧
        after.get = Function.update table.get fd (some (.inr t))

/-- Nothing fails behind the call that has made the last socket, but what is cleaned up. -/
def Request.Clean : Request → Prop
  | .createClientSocketConnection _ _ => True
  | .createServerConnection resolved outcome listen =>
    listen = true ∨ ∀ count ∈ resolved, ∀ i < count, (outcome ⟨0, i⟩).succeeds = false
  | .connect _ => True
  | .connectWithin timeout c => timeout = 0 ∨ c.socket = false ∨ c.Established

end Requests

section Sockets

variable {α : Type*} {table : Table α} {v : Vars α} {t : Try}

/-- Nothing is open that was not before, or the socket of a try is. -/
def Vars.Keeps (table : Table α) (v : Vars α) : Option Try → Prop
  | none => v.sockfd = -1 ∧ v.table.get = table.get
  | some t => ∃ fd : ℕ, v.sockfd = fd ∧ table.get fd = none ∧
      v.table.get = Function.update table.get fd (some (.inr t))

theorem keeps_start (table : Table α) : Vars.Keeps table ⟨-1, table⟩ none := ⟨rfl, rfl⟩

theorem keeps_socket (h : v.table.get = table.get) :
    (v.socket t true).Keeps table (some t) := by
  refine ⟨v.table.lowest, rfl, ?_, ?_⟩
  · rw [← h]
    exact v.table.get_lowest
  · funext fd
    rw [← h]
    simp only [Vars.socket, if_true, Descriptors.get_alloc, Function.update_apply]

theorem keeps_no_socket (h : v.table.get = table.get) :
    (v.socket t false).Keeps table none := ⟨rfl, h⟩

/-- Closing the socket undoes the try. -/
theorem keeps_close (h : v.Keeps table (some t)) : v.close.table.get = table.get := by
  obtain ⟨fd, hfd, hfree, hget⟩ := h
  funext fd'
  rw [Vars.close, hfd, Int.toNat_natCast, Descriptors.get_close, hget]
  by_cases heq : fd' = fd
  · rw [if_pos heq, heq, hfree]
  · rw [if_neg heq, Function.update_of_ne heq]

theorem sockfd_nonneg (h : v.Keeps table (some t)) : 0 ≤ v.sockfd := by
  obtain ⟨fd, hfd, -⟩ := h
  rw [hfd]
  exact Int.natCast_nonneg fd

/-- The socket of a try that is kept changes the table. -/
theorem keeps_ne (h : v.Keeps table (some t)) : v.table.get ≠ table.get := by
  obtain ⟨fd, -, hfree, hget⟩ := h
  intro heq
  have hfd := congrFun (hget.symm.trans heq) fd
  rw [Function.update_self, hfree] at hfd
  cases hfd

end Sockets

section Searching

variable {α : Type*} {table : Table α} {v : Vars α} (outcome : Try → Tried)

/-- A pass over the addresses finds the first that succeeds and leaves nothing of those
before it. -/
theorem keeps_tryAddresses (numsec : ℕ) (positions : List ℕ) (h : v.Keeps table none) :
    (tryAddresses outcome numsec positions v).Keeps table
      ((positions.map (Try.mk numsec)).find? (fun u => (outcome u).succeeds)) := by
  induction positions generalizing v with
  | nil => exact h
  | cons i rest ih =>
    rw [tryAddresses, List.map_cons, List.find?_cons]
    cases hsocket : (outcome ⟨numsec, i⟩).socket with
    | false =>
      have hnone : (v.socket ⟨numsec, i⟩ false).Keeps table none := keeps_no_socket h.2
      simp only [Tried.succeeds, hsocket, Bool.false_and]
      rw [if_neg (by rw [hnone.1]; omega)]
      exact ih hnone
    | true =>
      have hsome : (v.socket ⟨numsec, i⟩ true).Keeps table (some ⟨numsec, i⟩) :=
        keeps_socket h.2
      simp only [Tried.succeeds, hsocket, Bool.true_and, if_pos (sockfd_nonneg hsome)]
      cases haccepted : (outcome ⟨numsec, i⟩).accepted with
      | false => exact ih ⟨rfl, keeps_close hsome⟩
      | true => exact hsome

/-- And the attempts find the first that succeeds of all. -/
theorem keeps_retryLoop (count : ℕ) (attempts : List ℕ) (h : v.Keeps table none) :
    (retryLoop outcome count attempts v).Keeps table
      ((attempts.flatMap (fun numsec => (List.range count).map (Try.mk numsec))).find?
        (fun u => (outcome u).succeeds)) := by
  induction attempts generalizing v with
  | nil => exact h
  | cons numsec rest ih =>
    have hpass := keeps_tryAddresses outcome numsec (List.range count) h
    rw [retryLoop, List.flatMap_cons, List.find?_append]
    cases hfind : ((List.range count).map (Try.mk numsec)).find?
      (fun u => (outcome u).succeeds) with
    | none =>
      rw [hfind] at hpass
      rw [if_neg (by rw [hpass.1]; omega), Option.none_or]
      exact ih hpass
    | some t =>
      rw [hfind] at hpass
      rw [if_pos (sockfd_nonneg hpass), Option.some_or]
      exact hpass

end Searching

section Reports

variable {α : Type*} {table : Table α}

theorem tidy_of_failure {q : Request} (fuel : ℕ) (after : Table α)
    (hrun : q.run fuel table = some (none, after)) (h : after.get = table.get) : Tidy q table :=
  Or.inl ⟨fuel, after, hrun, h⟩

theorem tidy_of_success {q : Request} (fuel : ℕ) {v : Vars α} {t : Try}
    (h : v.Keeps table (some t))
    (hrun : ∀ fd : ℕ, v.sockfd = fd → q.run fuel table = some (some (fd : ℤ), v.table))
    (hfirst : q.First t) : Tidy q table := by
  obtain ⟨fd, hfd, hfree, hget⟩ := h
  exact Or.inr ⟨fuel, v.table, fd, t, hrun fd hfd, hfirst, hfree, hget⟩

/-- A failure is reported, if anything, and a socket has been left open. -/
theorem not_tidy {q : Request} {v : Vars α} {t : Try} (h : v.Keeps table (some t))
    (hrun : ∀ fuel r, q.run fuel table = some r → r = (none, v.table)) : ¬ Tidy q table := by
  rintro (⟨fuel, after, hr, hget⟩ | ⟨fuel, after, fd, u, hr, -⟩)
  · obtain rfl : after = v.table := congrArg Prod.snd (hrun fuel _ hr)
    exact keeps_ne h hget
  · have hnone : (some (fd : ℤ)) = none := congrArg Prod.fst (hrun fuel _ hr)
    cases hnone

/-- A descriptor is not taken for a failure. -/
theorem natCast_ne (fd : ℕ) : ¬ (fd : ℤ) < 0 ∧ (fd : ℤ) ≠ -1 := by omega

theorem tidy_client (resolved : Option ℕ) (outcome : Try → Tried) :
    Tidy (.createClientSocketConnection resolved outcome) table := by
  cases resolved with
  | none => exact tidy_of_failure 0 table rfl rfl
  | some count =>
    have hkeeps := keeps_retryLoop outcome count (doublings clientToServerRetryTimeout)
      (keeps_start table)
    rw [← clientTries] at hkeeps
    cases hfind : (clientTries count).find? (fun u => (outcome u).succeeds) with
    | none =>
      rw [hfind] at hkeeps
      refine tidy_of_failure 0 _ ?_ hkeeps.2
      simp only [Request.run, createClientSocketConnection, hkeeps.1]
      rfl
    | some t =>
      rw [hfind] at hkeeps
      refine tidy_of_success 0 hkeeps ?_ ⟨count, rfl, hfind⟩
      intro fd hfd
      obtain ⟨hpos, hne⟩ := natCast_ne fd
      simp only [Request.run, createClientSocketConnection, hfd, if_neg hpos, if_neg hne]

/-- A socket that has been bound is left open when it does not come to listen. -/
theorem tidy_server_iff (resolved : Option ℕ) (outcome : Try → Tried) (listen : Bool) :
    Tidy (.createServerConnection resolved outcome listen) table ↔
      (Request.createServerConnection resolved outcome listen).Clean := by
  cases resolved with
  | none =>
    refine iff_of_true (tidy_of_failure 0 table rfl rfl) (Or.inr ?_)
    intro count hcount
    cases hcount
  | some count =>
    have hkeeps := keeps_tryAddresses outcome 0 (List.range count) (keeps_start table)
    rw [← serverTries] at hkeeps
    have hclean : (Request.createServerConnection (some count) outcome listen).Clean ↔
        listen = true ∨ (serverTries count).find? (fun u => (outcome u).succeeds) = none := by
      simp only [Request.Clean, serverTries, List.find?_eq_none, List.mem_map, List.mem_range,
        Option.mem_some_iff, forall_eq', forall_exists_index, and_imp, forall_apply_eq_imp_iff₂,
        Bool.not_eq_true]
    rw [hclean]
    cases hfind : (serverTries count).find? (fun u => (outcome u).succeeds) with
    | none =>
      rw [hfind] at hkeeps
      refine iff_of_true (tidy_of_failure 0 _ ?_ hkeeps.2) (Or.inr rfl)
      simp only [Request.run, createServerConnection, hkeeps.1]
      rfl
    | some t =>
      rw [hfind] at hkeeps
      have hnonneg := sockfd_nonneg hkeeps
      cases listen with
      | true =>
        refine iff_of_true (tidy_of_success 0 hkeeps ?_ ⟨rfl, count, rfl, hfind⟩)
          (Or.inl rfl)
        intro fd hfd
        obtain ⟨hpos, hne⟩ := natCast_ne fd
        simp only [Request.run, createServerConnection, hfd, if_neg hpos, if_true, if_neg hne]
      | false =>
        refine iff_of_false (not_tidy hkeeps ?_) (by simp)
        intro fuel r hr
        simp only [Request.run, createServerConnection, if_neg (not_lt.mpr hnonneg)] at hr
        exact (Option.some.inj hr).symm

theorem tidy_connect (o : Tried) : Tidy (.connect o) table := by
  cases hsocket : o.socket with
  | false =>
    refine tidy_of_failure 0 table ?_ rfl
    simp only [Request.run, connect, hsocket, Vars.socket]
    rfl
  | true =>
    have hkeeps : (Vars.socket ⟨-1, table⟩ ⟨0, 0⟩ true).Keeps table (some ⟨0, 0⟩) :=
      keeps_socket rfl
    have hnonneg := sockfd_nonneg hkeeps
    cases haccepted : o.accepted with
    | false =>
      refine tidy_of_failure 0 _ ?_ (keeps_close hkeeps)
      simp only [Request.run, connect, hsocket, haccepted, if_neg (not_lt.mpr hnonneg)]
      rfl
    | true =>
      refine tidy_of_success 0 hkeeps ?_ ⟨?_, rfl⟩
      · intro fd hfd
        simp only [Request.run, connect, hsocket, haccepted, hfd,
          if_neg (natCast_ne fd).1, if_true]
        rfl
      · rw [Tried.succeeds, hsocket, haccepted]
        rfl

end Reports

section TimeLimit

variable {α : Type*} {table : Table α} {c : TimedCalls} {select : ℕ → Selected}

def Interrupted (select : ℕ → Selected) (k : ℕ) : Prop := ∀ i < k, select i = .interrupted

/-- The calls of `select` end with the first that is not interrupted. -/
theorem selectLoop_leaves_iff {s : Selected} : (selectLoop select).Leaves 0 s ↔
    s ≠ .interrupted ∧ ∃ k, Interrupted select k ∧ select k = s := by
  have hagain : ∀ k, select k = .interrupted → (selectLoop select).turn k = .inl (k + 1) := by
    intro k hk
    simp only [selectLoop, hk]
  have hdone : ∀ k, select k ≠ .interrupted → (selectLoop select).turn k = .inr (select k) := by
    intro k hk
    cases hselect : select k with
    | interrupted => exact absurd hselect hk
    | _ => simp only [selectLoop, hselect]
  constructor
  · intro h
    have hzero : Interrupted select 0 := fun i hi => absurd hi (Nat.not_lt_zero i)
    have hstep : ∀ k k', Interrupted select k → (selectLoop select).turn k = .inl k' →
        Interrupted select k' := by
      intro k k' hk hturn
      have hint : select k = .interrupted := by
        by_contra hint
        rw [hdone k hint] at hturn
        cases hturn
      rw [hagain k hint] at hturn
      obtain rfl := Sum.inl.inj hturn
      intro i hi
      rcases Nat.lt_succ_iff_lt_or_eq.mp hi with hlt | rfl
      · exact hk i hlt
      · exact hint
    obtain ⟨k, hk, hturn⟩ := h.invariant hzero hstep
    by_cases hint : select k = .interrupted
    · rw [hagain k hint] at hturn
      cases hturn
    · rw [hdone k hint] at hturn
      obtain rfl := Sum.inr.inj hturn
      exact ⟨hint, k, hk, rfl⟩
  · rintro ⟨hs, k, hk, rfl⟩
    exact (Loop.leaves_after id (fun i hi => hagain i (hk i hi))).mpr
      ((Loop.leaves_done (hdone k hs)).mpr rfl)

theorem result_eq_zero_iff : (∃ fuel, c.result fuel = some 0) ↔ c.Established := by
  unfold TimedCalls.result TimedCalls.Established
  cases c.connect with
  | established => simp
  | refused => simp
  | inProgress =>
    have hleaves : (selectLoop c.select).Leaves 0 .writable ↔ _ := selectLoop_leaves_iff
    simp only [Option.map_eq_some_iff, reduceCtorEq, false_or, true_and]
    constructor
    · rintro ⟨fuel, s, hrun, hs⟩
      split_ifs at hs with hwritable hvalopt
      subst hwritable
      exact ⟨hvalopt, (hleaves.mp ⟨fuel, hrun⟩).2⟩
    · rintro ⟨hvalopt, k, hk, hwritable⟩
      obtain ⟨fuel, hrun⟩ := hleaves.mpr ⟨by decide, k, hk, hwritable⟩
      exact ⟨fuel, .writable, hrun, by rw [if_pos rfl, if_pos hvalopt]⟩

/-- A result other than 0 is -1. -/
theorem result_eq {fuel : ℕ} {result : ℤ} (h : c.result fuel = some result) :
    result = 0 ∨ result = -1 := by
  unfold TimedCalls.result at h
  cases hconnect : c.connect with
  | established =>
    rw [hconnect] at h
    exact Or.inl (Option.some.inj h).symm
  | refused =>
    rw [hconnect] at h
    exact Or.inr (Option.some.inj h).symm
  | inProgress =>
    rw [hconnect] at h
    obtain ⟨s, -, rfl⟩ := Option.map_eq_some_iff.mp h
    split_ifs
    · exact Or.inl rfl
    · exact Or.inr rfl
    · exact Or.inr rfl

/-- A connection that is not made within the limit costs a descriptor. -/
theorem tidy_connectWithin_iff (timeout : ℤ) :
    Tidy (.connectWithin timeout c) table ↔ (Request.connectWithin timeout c).Clean := by
  by_cases htimeout : timeout = 0
  · refine iff_of_true ?_ (Or.inl htimeout)
    -- the other function is called
    have hconnect : Tidy (.connect ⟨c.socket, c.connect = .established⟩) table := tidy_connect _
    have hfirst : ∀ t, (Request.connect ⟨c.socket, c.connect = .established⟩).First t →
        (Request.connectWithin timeout c).First t := by
      rintro t ⟨hsucceeds, rfl⟩
      simpa [Request.First, Tried.succeeds, htimeout] using hsucceeds
    rcases hconnect with ⟨fuel, after, hrun, hget⟩ | ⟨fuel, after, fd, t, hrun, ht, hfree, hget⟩
    · refine Or.inl ⟨fuel, after, ?_, hget⟩
      simpa only [Request.run, connectWithin, if_pos htimeout, Option.map_some] using hrun
    · refine Or.inr ⟨fuel, after, fd, t, ?_, hfirst t ht, hfree, hget⟩
      simpa only [Request.run, connectWithin, if_pos htimeout, Option.map_some] using hrun
  · cases hsocket : c.socket with
    | false =>
      refine iff_of_true (tidy_of_failure 0 table ?_ rfl)
        (Or.inr (Or.inl hsocket))
      simp only [Request.run, connectWithin, if_neg htimeout, hsocket, Vars.socket]
      rfl
    | true =>
      have hkeeps : (Vars.socket ⟨-1, table⟩ ⟨0, 0⟩ true).Keeps table (some ⟨0, 0⟩) :=
        keeps_socket rfl
      have hclean : (Request.connectWithin timeout c).Clean ↔ c.Established := by
        simp [Request.Clean, htimeout, hsocket]
      rw [hclean]
      constructor
      · intro h
        by_contra hnot
        refine not_tidy hkeeps ?_ h
        intro fuel r hr
        simp only [Request.run, connectWithin, if_neg htimeout, hsocket,
          if_neg (not_lt.mpr (sockfd_nonneg hkeeps)), Option.map_map,
          Option.map_eq_some_iff] at hr
        obtain ⟨result, hresult, rfl⟩ := hr
        have hfailed : result = -1 := by
          rcases result_eq hresult with rfl | h
          · exact absurd (result_eq_zero_iff.mp ⟨fuel, hresult⟩) hnot
          · exact h
        simp only [Function.comp, hfailed, if_true]
        rfl
      · intro h
        obtain ⟨fuel, hresult⟩ := result_eq_zero_iff.mpr h
        refine tidy_of_success fuel hkeeps ?_ ⟨hsocket, rfl, ?_⟩
        · intro fd hfd
          simp only [Request.run, connectWithin, if_neg htimeout, hsocket, hfd,
            if_neg (natCast_ne fd).1, hresult, Option.map_some]
          rfl
        · rw [if_neg htimeout]
          exact h

end TimeLimit

section Tidiness

/-- What the functions leave open is what they should, except where a bound socket does
not come to listen, and where a connection is not made within its time limit. -/
theorem tidy_iff {α : Type*} (q : Request) (table : Table α) : Tidy q table ↔ q.Clean := by
  cases q with
  | createClientSocketConnection resolved outcome =>
    exact iff_of_true (tidy_client resolved outcome) trivial
  | createServerConnection resolved outcome listen => exact tidy_server_iff resolved outcome listen
  | connect o => exact iff_of_true (tidy_connect o) trivial
  | connectWithin timeout c => exact tidy_connectWithin_iff timeout

/-- The only address can be bound, and the socket does not come to listen. -/
def deafServer : Request := .createServerConnection (some 1) (fun _ => ⟨true, true⟩) false

/-- The server reports a failure and leaves descriptor 0 open. -/
theorem deafServer_leaks : ¬ ∀ (q : Request) (table : Table Unit), Tidy q table := by
  intro h
  have hrun : ∀ fuel, deafServer.run fuel (⟨[]⟩ : Table Unit) =
      some (none, ⟨[some (.inr ⟨0, 0⟩)]⟩) := fun _ => rfl
  rcases h deafServer ⟨[]⟩ with ⟨fuel, after, hr, hget⟩ | ⟨fuel, after, fd, t, hr, -⟩
  · obtain rfl := congrArg Prod.snd (Option.some.inj ((hrun fuel).symm.trans hr))
    cases congrFun hget 0
  · cases (hrun fuel).symm.trans hr

end Tidiness

end InfinibandWorkshop.ConnectionSetup
