import InfinibandWorkshop.EchoRounds
import InfinibandWorkshop.SelectTable

/-!
# Clients of the select loop

The sockets of a client, each in its own stop-and-wait exchange, against the one thread of
NonBlockingTcpServer.cpp. A socket connects, waits in the queue of the listener, is
accepted under a descriptor that the server chooses, and is closed by the client when it
is through. The streams are bounded in both directions, so that the server may have to
wait in a send, and then serves nobody else.
-/
namespace InfinibandWorkshop.SelectLoop
open CText (Byte cstr)
open Throughput (maxPacketSize)

/-- The connection behind a target. -/
def State.conn {n : ℕ} (s : State n) : Target → Option Conn
  | .waiting k => s.backlog[k]?
  | .accepted fd => s.conns fd

/-- Where a connection is once the one at the head of the queue has got the descriptor `fd`. -/
def Target.accept (fd : ℕ) : Target → Target
  | .waiting 0 => .accepted fd
  | .waiting (k + 1) => .waiting k
  | .accepted fd' => .accepted fd'

/-- What the server has read from a connection and not sent back. -/
def State.held {n : ℕ} (s : State n) : Target → List Byte
  | .waiting _ => []
  | .accepted fd =>
    match s.pc with
    | .echo i left => if s.clients i = fd then left else []
    | _ => []

section Cases

variable {c : Config} {s t : State c.maxClients} {w : Target} {fd n : ℕ} {ready : List ℕ}

theorem onConn_cases {f : Conn → Conn} (h : s.onConn w f = some t) :
    ∃ conn, s.conn w = some conn ∧ conn.isOpen = true ∧ t.conn w = some (f conn) ∧
      (∀ w', w' ≠ w → t.conn w' = s.conn w') ∧
      t = { s with backlog := t.backlog, conns := t.conns } := by
  cases w with
  | waiting k =>
    simp only [State.onConn] at h
    split at h
    · rename_i conn hconn
      split_ifs at h with hopen
      rw [← Option.some.inj h]
      have hk : k < s.backlog.length := (List.getElem?_eq_some_iff.mp hconn).1
      refine ⟨conn, hconn, hopen, by simp [State.conn, hk], ?_, rfl⟩
      intro w' hw
      cases w' with
      | waiting k' =>
        have hne : k ≠ k' := fun he => hw (by rw [he])
        simp [State.conn, hne]
      | accepted fd => rfl
    · cases h
  | accepted fd =>
    simp only [State.onConn] at h
    split at h
    · rename_i conn hconn
      split_ifs at h with hopen
      rw [← Option.some.inj h]
      refine ⟨conn, hconn, hopen, by simp [State.conn], ?_, rfl⟩
      intro w' hw
      cases w' with
      | waiting k' => rfl
      | accepted fd' =>
        have hne : fd' ≠ fd := fun he => hw (by rw [he])
        simp [State.conn, hne]
    · cases h

theorem exists_onConn {conn : Conn} (hconn : s.conn w = some conn) (hopen : conn.isOpen = true)
    (f : Conn → Conn) : ∃ t, s.onConn w f = some t := by
  cases w with
  | waiting k =>
    have hk : s.backlog[k]? = some conn := hconn
    simp [State.onConn, hk, hopen]
  | accepted fd =>
    have hfd : s.conns fd = some conn := hconn
    simp [State.onConn, hfd, hopen]

theorem connect_eq (h : step c s .connect = some t) :
    t = { s with backlog := s.backlog ++ [⟨true, [], []⟩], clientOpen := s.clientOpen + 1 } :=
  (Option.some.inj h).symm

theorem select_cases (h : step c s (.select ready) = some t) :
    s.pc = .collect ∧ ready ⊆ watched c s.clients ∧
      t = { s with fds := ready, reported := ready, events := [], pc := .listener } := by
  simp only [step] at h
  split_ifs at h with hif
  exact ⟨hif.1, hif.2, (Option.some.inj h).symm⟩

theorem skip_cases (h : step c s .skip = some t) :
    (s.pc = .listener ∧ c.lsd ∉ s.fds ∧ t = { s with pc := scanFrom _ 0 }) ∨
      ∃ i, s.pc = .scan i ∧ s.clients i ∉ s.fds ∧ t = { s with pc := scanFrom _ (i.val + 1) } := by
  simp only [step] at h
  split at h
  · next hpc =>
    split_ifs at h with hset
    exact .inl ⟨hpc, hset, (Option.some.inj h).symm⟩
  · next i hpc =>
    split_ifs at h with hset
    exact .inr ⟨i, hpc, hset, (Option.some.inj h).symm⟩
  · cases h

theorem accept_cases (h : step c s (.accept fd) = some t) :
    ∃ conn rest, s.pc = .listener ∧ s.backlog = conn :: rest ∧ c.lsd ∈ s.fds ∧ 0 < fd ∧
      fd ≠ c.lsd ∧ s.conns fd = none ∧
      t = { s with
        clients := storeClient s.clients fd
        conns := Function.update s.conns fd (some conn)
        backlog := rest
        events := .accepted fd :: s.events
        pc := scanFrom _ 0 } := by
  simp only [step] at h
  split at h
  · next conn rest hpc hbl =>
    split_ifs at h with hif
    obtain ⟨hready, hpos, hlsd, hfresh⟩ := hif
    exact ⟨conn, rest, hpc, hbl, hready, hpos, hlsd, hfresh, (Option.some.inj h).symm⟩
  · cases h

theorem read_cases (h : step c s (.read n) = some t) :
    ∃ i conn, s.pc = .scan i ∧ s.conns (s.clients i) = some conn ∧ s.clients i ∈ s.fds ∧
      ((0 < n ∧ n ≤ maxPacketSize ∧ n ≤ conn.inbox.length ∧
        t = { s with
          conns := Function.update s.conns (s.clients i)
            (some { conn with inbox := conn.inbox.drop n })
          events := .read (s.clients i) :: s.events
          pc := .echo i (cstr (conn.inbox.take n)) }) ∨
      (n = 0 ∧ conn.inbox = [] ∧ conn.isOpen = false ∧
        t = { s with
          conns := Function.update s.conns (s.clients i) none
          clients := Function.update s.clients i 0
          events := .closed (s.clients i) :: .read (s.clients i) :: s.events
          pc := scanFrom _ (i.val + 1) })) := by
  simp only [step] at h
  split at h
  · next i hpc =>
    split at h
    · next conn hconn =>
      split_ifs at h with hset hdata heof
      · obtain ⟨hpos, hmax, hle⟩ := hdata
        exact ⟨i, conn, hpc, hconn, hset, .inl ⟨hpos, hmax, hle, (Option.some.inj h).symm⟩⟩
      · obtain ⟨hzero, hnil, hopen⟩ := heof
        exact ⟨i, conn, hpc, hconn, hset, .inr ⟨hzero, hnil, hopen, (Option.some.inj h).symm⟩⟩
    · cases h
  · cases h

theorem send_cases (h : step c s (.send n) = some t) :
    ∃ i left, s.pc = .echo i left ∧ 0 < n ∧ n ≤ left.length ∧
      t = { s with
        conns := Function.update s.conns (s.clients i)
          ((s.conns (s.clients i)).map
            (fun conn => { conn with outbox := conn.outbox ++ left.take n }))
        events := .sent (s.clients i) :: s.events
        pc := if left.drop n = [] then scanFrom _ (i.val + 1) else .echo i (left.drop n) } := by
  simp only [step] at h
  split at h
  · next i left hpc =>
    split_ifs at h with hif
    all_goals
      refine ⟨i, left, hpc, hif.1, hif.2, ?_⟩
      rename_i hleft
      simp only [hleft, if_true, if_false]
      exact (Option.some.inj h).symm
  · cases h

end Cases

section Accepting

variable {c : Config} {s t : State c.maxClients} {fd : ℕ} {conn : Conn} {rest : List Conn}

theorem conn_accept (hbacklog : s.backlog = conn :: rest) (hfresh : s.conns fd = none)
    (hrest : t.backlog = rest) (hconns : t.conns = Function.update s.conns fd (some conn))
    {w : Target} (hw : s.conn w ≠ none) : t.conn (w.accept fd) = s.conn w := by
  cases w with
  | waiting k =>
    cases k with
    | zero => simp [Target.accept, State.conn, hconns, hbacklog]
    | succ k => simp [Target.accept, State.conn, hrest, hbacklog]
  | accepted fd' =>
    have hne : fd' ≠ fd := by
      rintro rfl
      exact hw hfresh
    simp [Target.accept, State.conn, hconns, hne]

theorem accept_injective (hfresh : s.conns fd = none) {w w' : Target} (hw : s.conn w ≠ none)
    (hw' : s.conn w' ≠ none) (he : w.accept fd = w'.accept fd) : w = w' := by
  -- nobody is at the new descriptor yet
  have hne : ∀ fd', s.conn (.accepted fd') ≠ none → fd' ≠ fd := by
    rintro fd' h rfl
    exact h hfresh
  rcases w with (_ | k) | fd₁ <;> rcases w' with (_ | k') | fd₂
  all_goals simp only [Target.accept, Target.accepted.injEq, Target.waiting.injEq, reduceCtorEq]
    at he ⊢
  · exact hne fd₂ hw' he.symm
  · exact congrArg (· + 1) he
  · exact hne fd₁ hw he
  · exact he

theorem exists_accept (hbacklog : s.backlog = conn :: rest) (hrest : t.backlog = rest)
    (hconns : t.conns = Function.update s.conns fd (some conn)) {w : Target} {x : Conn}
    (hw : t.conn w = some x) : ∃ w', w'.accept fd = w ∧ s.conn w' = some x := by
  cases w with
  | waiting k =>
    refine ⟨.waiting (k + 1), rfl, ?_⟩
    simpa [State.conn, hrest, hbacklog] using hw
  | accepted fd' =>
    by_cases hfd : fd' = fd
    · subst fd'
      refine ⟨.waiting 0, rfl, ?_⟩
      simpa [State.conn, hconns, hbacklog] using hw
    · refine ⟨.accepted fd', rfl, ?_⟩
      simpa [State.conn, hconns, hfd] using hw

end Accepting

end InfinibandWorkshop.SelectLoop

namespace InfinibandWorkshop.SelectClients
open CText (Byte)
open SelectLoop (Conn Target)

section Model

/-- The connection of a socket, from `connect` to `close`. -/
inductive Link
  | unopened
  | up (w : Target)
  | closed
  deriving DecidableEq

/-- A socket of the client, and where the client is with it. -/
structure Socket where
  link : Link
  client : TcpEcho.Client
  iterations : ℕ
  bytesRead : ℕ
  sent : List Byte
  received : List Byte

structure State (N n : ℕ) where
  server : SelectLoop.State n
  sockets : Fin N → Socket

inductive Action (N : ℕ)
  | connect (i : Fin N)
  | client (i : Fin N) (act : TcpEcho.Action)
  | close (i : Fin N)
  | server (act : SelectLoop.Action)

variable {N n : ℕ}

def Link.accept (fd : ℕ) : Link → Link
  | .up w => .up (w.accept fd)
  | link => link

def Link.afterCall (link : Link) : SelectLoop.Action → Link
  | .accept fd => link.accept fd
  | _ => link

namespace State

/-- The connection of socket `i`, as long as it has one. -/
def conn (s : State N n) (i : Fin N) : Conn :=
  match (s.sockets i).link with
  | .up w => (s.server.conn w).getD ⟨false, [], []⟩
  | _ => ⟨false, [], []⟩

def held (s : State N n) (i : Fin N) : List Byte :=
  match (s.sockets i).link with
  | .up w => s.server.held w
  | _ => []

/-- What happens on socket `i`, as between a client and a handler of its own. The client has
received the first bytes that were sent back, the others are underway. -/
def view (s : State N n) (i : Fin N) : TcpEcho.State where
  client := (s.sockets i).client
  iterations := (s.sockets i).iterations
  bytesRead := (s.sockets i).bytesRead
  sent := (s.sockets i).sent
  received := (s.sockets i).received
  toServer := (s.conn i).inbox
  held := s.held i
  toClient := (s.conn i).outbox.drop (s.sockets i).received.length

end State

/-- A socket after a step of the client. -/
def Socket.ofView (link : Link) (v : TcpEcho.State) : Socket where
  link := link
  client := v.client
  iterations := v.iterations
  bytesRead := v.bytesRead
  sent := v.sent
  received := v.received

variable (c : SelectLoop.Config) (cfg : Fin N → TcpEcho.Config)

/-- A send takes what there is room for in the stream to the client. -/
def Fits (s : State N n) : SelectLoop.Action → Prop
  | .send k => ∀ i, s.held i ≠ [] → TcpEcho.Room (cfg i).toClient (s.view i).toClient k
  | _ => True

instance (s : State N n) (act : SelectLoop.Action) : Decidable (Fits cfg s act) :=
  match act with
  | .send k => inferInstanceAs (Decidable
      (∀ i, s.held i ≠ [] → TcpEcho.Room (cfg i).toClient (s.view i).toClient k))
  | .connect | .clientSend _ _ | .clientClose _ | .select _ | .selectFail | .skip | .accept _
  | .acceptFail | .read _ | .readFail | .sendNone _ | .sendFail => isTrue trivial

/-- The calls of the server, apart from what its clients do. -/
def ofServer : SelectLoop.Action → Bool
  | .connect | .clientSend _ _ | .clientClose _ => false
  | _ => true

def step (s : State N c.maxClients) : Action N → Option (State N c.maxClients)
  | .connect i =>
    if (s.sockets i).link = .unopened then
      (SelectLoop.step c s.server .connect).map fun server =>
        { server
          sockets := Function.update s.sockets i
            { s.sockets i with link := .up (.waiting s.server.backlog.length) } }
    else none
  | .client i act =>
    match (s.sockets i).link with
    | .up w =>
      if act.ofClient then
        (TcpEcho.step (cfg i) (s.view i) act).bind fun v =>
          -- what a write has copied arrives at the server
          (SelectLoop.step c s.server
            (.clientSend w (v.toServer.drop (s.view i).toServer.length))).map fun server =>
              { server, sockets := Function.update s.sockets i (.ofView (.up w) v) }
      else none
    | _ => none
  | .close i =>
    match (s.sockets i).link with
    | .up w =>
      if (s.view i).Through (cfg i).numMsgs then
        (SelectLoop.step c s.server (.clientClose w)).map fun server =>
          { server
            sockets := Function.update s.sockets i { s.sockets i with link := .closed } }
      else none
    | _ => none
  | .server act =>
    if ofServer act ∧ Fits cfg s act then
      (SelectLoop.step c s.server act).map fun server =>
        { server
          sockets := fun i => { s.sockets i with link := (s.sockets i).link.afterCall act } }
    else none

def system : Machine (State N c.maxClients) (Action N) where
  init :=
    { server := (SelectLoop.system c).init
      sockets := fun _ => ⟨.unopened, .top, 0, 0, [], []⟩ }
  step := step c cfg

end Model

end InfinibandWorkshop.SelectClients
