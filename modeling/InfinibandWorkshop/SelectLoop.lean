import InfinibandWorkshop.EchoBuffer

/-!
# The select loop of NonBlockingTcpServer.cpp

One thread serves up to `maxClients` connections out of a table of descriptors. An
iteration collects the listener and the table in a descriptor set, calls `select`,
accepts at most one connection, and scans the table for descriptors that are still
in the set. Clients connect, send and close whenever they like. The system chooses
what `select` leaves in the set, the numbers of new descriptors, how much a read or
a send takes, and which calls fail. A read that fills the buffer is followed by a
store behind it, of the terminator; what that store overwrites is left out.
-/
namespace InfinibandWorkshop.SelectLoop
open CText (Byte cstr)
open Throughput (maxPacketSize)

/-- `MAX_CLIENTS`, and the listening descriptor. -/
structure Config where
  maxClients : ℕ
  lsd : ℕ
  lsd_pos : 0 < lsd

/-- A connection: whether its client still has it open, what the client has sent and
the server not read, and what the server has sent back. -/
structure Conn where
  isOpen : Bool
  inbox : List Byte
  outbox : List Byte
  deriving DecidableEq

/-- Where the server is: before `select`, at the test of the listener, at a slot of
the scan, in `sendVerifier` with what is left to send, or gone with an exit status. -/
inductive Pc (n : ℕ)
  | collect
  | listener
  | scan (i : Fin n)
  | echo (i : Fin n) (left : List Byte)
  | stopped (status : ℤ)
  deriving DecidableEq

/-- What the server has done in the current iteration. -/
inductive Event
  | accepted (fd : ℕ)
  | read (fd : ℕ)
  | closed (fd : ℕ)
  | sent (fd : ℕ)
  deriving DecidableEq

/-- `fds` is the variable of the source, `reported` what `select` has reported in this
iteration, `events` the history of the iteration, the latest first. `conns` are the
connections accepted and not closed by the server; `clientOpen` counts those that the
clients have open. -/
structure State (n : ℕ) where
  pc : Pc n
  clients : Fin n → ℕ
  fds : List ℕ
  reported : List ℕ
  events : List Event
  conns : ℕ → Option Conn
  backlog : List Conn
  clientOpen : ℕ

/-- A connection as its client names it: the `k`-th that waits to be accepted, or the
one with a descriptor at the server. -/
inductive Target
  | waiting (k : ℕ)
  | accepted (fd : ℕ)
  deriving DecidableEq

inductive Action
  | connect
  | clientSend (w : Target) (bytes : List Byte)
  | clientClose (w : Target)
  | select (ready : List ℕ)
  | selectFail
  | skip
  | accept (fd : ℕ)
  | acceptFail
  | read (n : ℕ)
  | readFail
  | send (n : ℕ)
  | sendNone (minusOne : Bool)
  | sendFail
  deriving DecidableEq

variable (c : Config)

/-- `reinit`, and the loop that adds the table. -/
def watched (clients : Fin c.maxClients → ℕ) : List ℕ :=
  c.lsd :: ((List.finRange c.maxClients).map clients).filter (0 < ·)

/-- The loop that stores a new descriptor in the first empty slot, if there is one. -/
def storeClient {n : ℕ} (clients : Fin n → ℕ) (fd : ℕ) : Fin n → ℕ :=
  match (List.finRange n).find? (fun i => clients i = 0) with
  | some i => Function.update clients i fd
  | none => clients

/-- The head of the scan, for the slot with index `i`. -/
def scanFrom (n i : ℕ) : Pc n := if h : i < n then .scan ⟨i, h⟩ else .collect

namespace State

variable {n : ℕ}

/-- A client does something with a connection that it has open. -/
def onConn (s : State n) (w : Target) (f : Conn → Conn) : Option (State n) :=
  match w with
  | .waiting k =>
    match s.backlog[k]? with
    | some conn => if conn.isOpen then some { s with backlog := s.backlog.set k (f conn) } else none
    | none => none
  | .accepted fd =>
    match s.conns fd with
    | some conn =>
      if conn.isOpen then some { s with conns := Function.update s.conns fd (some (f conn)) }
      else none
    | none => none

end State

def step (s : State c.maxClients) : Action → Option (State c.maxClients)
  | .connect =>
    some { s with backlog := s.backlog ++ [⟨true, [], []⟩], clientOpen := s.clientOpen + 1 }
  | .clientSend w bytes => s.onConn w (fun conn => { conn with inbox := conn.inbox ++ bytes })
  | .clientClose w =>
    (s.onConn w (fun conn => { conn with isOpen := false })).map
      (fun s => { s with clientOpen := s.clientOpen - 1 })
  | .select ready =>
    if s.pc = .collect ∧ ready ⊆ watched c s.clients then
      some { s with fds := ready, reported := ready, events := [], pc := .listener }
    else none
  | .selectFail =>
    -- the set is left as it was passed in
    if s.pc = .collect then
      some { s with fds := watched c s.clients, reported := [], events := [], pc := .listener }
    else none
  | .skip =>
    match s.pc with
    | .listener => if c.lsd ∈ s.fds then none else some { s with pc := scanFrom _ 0 }
    | .scan i => if s.clients i ∈ s.fds then none else some { s with pc := scanFrom _ (i.val + 1) }
    | _ => none
  | .accept fd =>
    match s.pc, s.backlog with
    | .listener, conn :: rest =>
      if c.lsd ∈ s.fds ∧ 0 < fd ∧ fd ≠ c.lsd ∧ s.conns fd = none then
        some { s with
          clients := storeClient s.clients fd
          conns := Function.update s.conns fd (some conn)
          backlog := rest
          events := .accepted fd :: s.events
          pc := scanFrom _ 0 }
      else none
    | _, _ => none
  | .acceptFail =>
    if s.pc = .listener ∧ c.lsd ∈ s.fds then some { s with pc := .stopped (-1) } else none
  | .read n =>
    match s.pc with
    | .scan i =>
      match s.conns (s.clients i) with
      | some conn =>
        if s.clients i ∈ s.fds then
          if 0 < n ∧ n ≤ maxPacketSize ∧ n ≤ conn.inbox.length then
            -- what is echoed is the string in the chunk: `EchoBuffer.strlen_receive`
            some { s with
              conns := Function.update s.conns (s.clients i)
                (some { conn with inbox := conn.inbox.drop n })
              events := .read (s.clients i) :: s.events
              pc := .echo i (cstr (conn.inbox.take n)) }
          else if n = 0 ∧ conn.inbox = [] ∧ conn.isOpen = false then
            some { s with
              conns := Function.update s.conns (s.clients i) none
              clients := Function.update s.clients i 0
              events := .closed (s.clients i) :: .read (s.clients i) :: s.events
              pc := scanFrom _ (i.val + 1) }
          else none
        else none
      | none => none
    | _ => none
  | .readFail =>
    match s.pc with
    | .scan i =>
      if s.clients i ∈ s.fds then
        some { s with events := .read (s.clients i) :: s.events, pc := .stopped 1 }
      else none
    | _ => none
  | .send n =>
    match s.pc with
    | .echo i left =>
      if 0 < n ∧ n ≤ left.length then
        some { s with
          conns := Function.update s.conns (s.clients i)
            ((s.conns (s.clients i)).map
              (fun conn => { conn with outbox := conn.outbox ++ left.take n }))
          events := .sent (s.clients i) :: s.events
          pc := if left.drop n = [] then scanFrom _ (i.val + 1) else .echo i (left.drop n) }
      else none
    | _ => none
  | .sendNone minusOne =>
    -- nothing to send: `sendVerifier` returns by what its local `n` happens to hold
    match s.pc with
    | .echo i [] =>
      some { s with pc := if minusOne then .stopped 1 else scanFrom _ (i.val + 1) }
    | _ => none
  | .sendFail =>
    match s.pc with
    | .echo i (_ :: _) =>
      some { s with events := .sent (s.clients i) :: s.events, pc := .stopped 1 }
    | _ => none

def system : Machine (State c.maxClients) Action where
  init :=
    { pc := .collect
      clients := fun _ => 0
      fds := []
      reported := []
      events := []
      conns := fun _ => none
      backlog := []
      clientOpen := 0 }
  step := step c

end InfinibandWorkshop.SelectLoop
