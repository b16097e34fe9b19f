import InfinibandWorkshop.SelectRank

/-!
# A round over the select loop is not stuck

Whatever the server waits for, a socket has something for it, or the client has something
else to do. So with messages that fit into the streams a round is played to its end, and it
leaves the server as it was before the first socket.
-/
namespace InfinibandWorkshop.SelectClients
open CText (Byte)
open SelectLoop (Target watched)
open scoped BigOperators

variable {N : ℕ} {c : SelectLoop.Config} {cfg : Fin N → TcpEcho.Config}
  {s t : State N c.maxClients}

variable {i : Fin N} {w : Target} {j : Fin c.maxClients} {a b : ℕ}

/-- A step that may be taken. -/
def CanStep (cfg : Fin N → TcpEcho.Config) (s : State N c.maxClients) : Prop :=
  ∃ act, InOrder cfg s act ∧ (system c cfg).Enabled s act

theorem canStep_server (act : SelectLoop.Action) {v : SelectLoop.State c.maxClients}
    (hserver : ofServer act = true) (hserves : Serves s (.server act)) (hfits : Fits cfg s act)
    (h : SelectLoop.step c s.server act = some v) : CanStep cfg s := by
  refine ⟨.server act, ⟨hserves, trivial⟩, ?_⟩
  simp only [Machine.Enabled, system, step, h]
  rw [if_pos ⟨hserver, hfits⟩]
  exact ⟨_, rfl⟩

theorem exists_client_step {act : TcpEcho.Action} {v : TcpEcho.State} (hs : Linked cfg s)
    (hlink : (s.sockets i).link = .up w) (hact : act.ofClient)
    (h : TcpEcho.step (cfg i) (s.view i) act = some v) :
    ∃ t, step c cfg s (.client i act) = some t := by
  obtain ⟨conn, hconn, hopen, _⟩ := hs.up i w hlink
  obtain ⟨server, hserver⟩ := SelectLoop.exists_onConn hconn hopen
    (fun conn => { conn with inbox := conn.inbox ++ v.toServer.drop (s.view i).toServer.length })
  have hsend : SelectLoop.step c s.server
      (.clientSend w (v.toServer.drop (s.view i).toServer.length)) = some server := hserver
  simp only [step, hlink]
  rw [if_pos hact, h, Option.bind_some, hsend]
  exact ⟨_, rfl⟩

theorem canStep_client (act : TcpEcho.Action) {v : TcpEcho.State} (hs : Running cfg s)
    (hlink : (s.sockets i).link = .up w) (hact : act.ofClient)
    (h : TcpEcho.step (cfg i) (s.view i) act = some v) : CanStep cfg s :=
  ⟨.client i act, ⟨trivial, hs.order i (by simp [hlink])⟩,
    exists_client_step hs.linked hlink hact h⟩

/-- What the server holds came over one socket only. -/
theorem held_unique (hs : Linked cfg s) {left : List Byte} (hpc : s.server.pc = .echo j left)
    (hlink : (s.sockets i).link = .up (.accepted (s.server.clients j))) {k : Fin N}
    (hk : s.held k ≠ []) : k = i := by
  cases hup : (s.sockets k).link with
  | up w =>
    by_cases hw : w = .accepted (s.server.clients j)
    · exact hs.distinct k i w hup (hw ▸ hlink)
    · rw [held_of_up hup, held_echo_ne hpc hw] at hk
      exact absurd rfl hk
  | unopened => simp [State.held, hup] at hk
  | closed => simp [State.held, hup] at hk

variable (ha : ∀ i, (cfg i).toServer = some a) (hb : ∀ i, (cfg i).toClient = some b)
  (ha0 : 0 < a) (hb0 : 0 < b) (hfits : ∀ i, (cfg i).msg.length ≤ a + b + 1)

include ha hb ha0 hb0 hfits in
theorem exists_step (hs : Linked cfg s) (i : Fin N)
    (h : ¬ TcpEcho.Finished (cfg i) (s.view i)) :
    ∃ act v, TcpEcho.step (cfg i) (s.view i) act = some v := by
  have hnot := TcpEcho.not_stuck (ha i) (hb i) ha0 hb0 (.inl (hfits i)) (hs.views i) h
  unfold Machine.Stuck at hnot
  push Not at hnot
  obtain ⟨act, v, _, hv⟩ := hnot
  exact ⟨act, v, hv⟩

include ha hb ha0 hb0 hfits in
/-- While it sends something back, the server or the client it serves goes on. -/
theorem canStep_echo (hs : Running cfg s) {left : List Byte} (hpc : s.server.pc = .echo j left) :
    CanStep cfg s := by
  obtain ⟨hleft, i, hlink⟩ := hs.linked.echoing j left hpc
  have hheld : s.held i = left := by rw [held_of_up hlink, held_echo hpc]
  have hview : (s.view i).held = left := hheld
  have hnot : ¬ TcpEcho.Finished (cfg i) (s.view i) := by
    intro hfinished
    exact hleft (hview ▸ hfinished.held)
  obtain ⟨act, v, hv⟩ := exists_step ha hb ha0 hb0 hfits hs.linked i hnot
  cases act with
  | serverRead k =>
    simp only [TcpEcho.step] at hv
    split_ifs at hv with hg
    exact absurd (hview.symm.trans hg.1) hleft
  | serverWrite k =>
    simp only [TcpEcho.step] at hv
    split_ifs at hv with hg
    obtain ⟨hk, hle, hroom⟩ := hg
    rw [hview] at hle
    have hfit : Fits cfg s (.send k) := by
      intro i' hi'
      rw [held_unique hs.linked hpc hlink hi']
      exact hroom
    apply canStep_server (.send k) rfl trivial hfit
    simp only [SelectLoop.step, hpc]
    rw [if_pos ⟨hk, hle⟩]
  | send => exact canStep_client .send hs hlink trivial hv
  | clientWrite k => exact canStep_client (.clientWrite k) hs hlink trivial hv
  | clientRead k => exact canStep_client (.clientRead k) hs hlink trivial hv

/-- There is always a number that is not in use. -/
theorem exists_fresh (hs : Running cfg s) :
    ∃ fd, 0 < fd ∧ fd ≠ c.lsd ∧ s.server.conns fd = none := by
  let fd := c.lsd + 1 + ∑ j, s.server.clients j
  refine ⟨fd, by omega, by omega, ?_⟩
  by_contra hsome
  obtain ⟨conn, hconn⟩ := Option.ne_none_iff_exists'.mp hsome
  obtain ⟨k, hk, _⟩ := hs.kept fd (SelectLoop.mem_opened.mpr ⟨conn, hconn⟩)
  have hle : s.server.clients k ≤ ∑ j, s.server.clients j :=
    Finset.single_le_sum (f := s.server.clients) (fun _ _ => Nat.zero_le _) (Finset.mem_univ k)
  omega

theorem canStep_listener (hs : Running cfg s) (hpc : s.server.pc = .listener) :
    CanStep cfg s := by
  by_cases hset : c.lsd ∈ s.server.fds
  · obtain ⟨conn, rest, hbacklog⟩ : ∃ conn rest, s.server.backlog = conn :: rest := by
      have hne := hs.due.listener hpc hset
      rw [waiting_conn] at hne
      cases hbacklog : s.server.backlog with
      | nil => simp [hbacklog] at hne
      | cons conn rest => exact ⟨conn, rest, rfl⟩
    obtain ⟨fd, hpos, hlsd, hfresh⟩ := exists_fresh hs
    apply canStep_server (.accept fd) rfl trivial trivial
    simp only [SelectLoop.step, hpc, hbacklog]
    rw [if_pos ⟨hset, hpos, hlsd, hfresh⟩]
  · apply canStep_server .skip rfl trivial trivial
    simp only [SelectLoop.step, hpc]
    rw [if_neg hset]

theorem canStep_scan (hs : Running cfg s) (hpc : s.server.pc = .scan j) : CanStep cfg s := by
  by_cases hset : s.server.clients j ∈ s.server.fds
  · obtain ⟨conn, hconn, hwaits⟩ := hs.due.slots j (by rw [hpc]; exact le_refl j) hset
    have hconns : s.server.conns (s.server.clients j) = some conn := hconn
    by_cases hinbox : conn.inbox = []
    · have hopen : conn.isOpen = false := hwaits.resolve_left (fun hne => hne hinbox)
      apply canStep_server (.read 0) rfl trivial trivial
      simp only [SelectLoop.step, hpc, hconns]
      rw [if_pos hset, if_neg (by simp), if_pos ⟨trivial, hinbox, hopen⟩]
    · apply canStep_server (.read 1) rfl trivial trivial
      simp only [SelectLoop.step, hpc, hconns]
      rw [if_pos hset, if_pos ⟨Nat.one_pos, by decide, List.length_pos_iff.mpr hinbox⟩]
  · apply canStep_server .skip rfl trivial trivial
    simp only [SelectLoop.step, hpc]
    rw [if_neg hset]

theorem canStep_connect (hlink : (s.sockets i).link = .unopened)
    (hpast : ∀ j < i, s.Past cfg j) : CanStep cfg s := by
  refine ⟨.connect i, ⟨trivial, hpast⟩, ?_⟩
  simp only [Machine.Enabled, system, step, SelectLoop.step]
  rw [if_pos hlink]
  exact ⟨_, rfl⟩

theorem canStep_close (hs : Running cfg s) (hpast : ∀ j, s.Past cfg j)
    (hnot : (s.sockets i).link ≠ .closed) (hfirst : ∀ j < i, (s.sockets j).link = .closed) :
    CanStep cfg s := by
  cases hlink : (s.sockets i).link with
  | up w =>
    obtain ⟨conn, hconn, hopen, _⟩ := hs.linked.up i w hlink
    obtain ⟨server, hserver⟩ := SelectLoop.exists_onConn hconn hopen
      (fun conn => { conn with isOpen := false })
    refine ⟨.close i, ⟨trivial, hpast, hfirst⟩, ?_⟩
    simp only [Machine.Enabled, system, step, hlink, SelectLoop.step]
    rw [if_pos (hpast i).2, hserver]
    exact ⟨_, rfl⟩
  | unopened => exact absurd hlink (hpast i).1
  | closed => exact absurd hlink hnot

/-- Nothing to report: no socket waits to be accepted, and what was sent has been read. -/
structure Silent (s : State N c.maxClients) : Prop where
  pc : s.server.pc = .collect
  backlog : s.server.backlog = []
  conns : ∀ fd conn, s.server.conns fd = some conn → conn.inbox = [] ∧ conn.isOpen = true

theorem silent_of_not_ready (hs : Running cfg s) (hpc : s.server.pc = .collect)
    (hready : ∀ fd ∈ watched c s.server.clients, ¬ Ready c s.server fd) : Silent s where
  pc := hpc
  backlog := by
    by_contra hne
    exact hready c.lsd (SelectLoop.mem_watched.mpr (.inl rfl)) (.inl ⟨rfl, hne⟩)
  conns := by
    intro fd conn hconn
    have hwatched := hs.kept.watched hs.sound (SelectLoop.mem_opened.mpr ⟨conn, hconn⟩)
    have hnot : ¬ Waits conn := fun hwaits => hready fd hwatched (.inr ⟨conn, hconn, hwaits⟩)
    obtain ⟨hinbox, hopen⟩ := not_or.mp hnot
    exact ⟨not_not.mp hinbox, by simpa using hopen⟩

theorem Silent.view (h : Silent s) (i : Fin N) :
    (s.view i).held = [] ∧ (s.view i).toServer = [] := by
  have hheld : ∀ w, s.server.held w = [] := held_eq_nil (by simp [h.pc])
  cases hlink : (s.sockets i).link with
  | up w =>
    refine ⟨(held_of_up hlink).trans (hheld w), ?_⟩
    cases w with
    | waiting k => simp [State.view, State.conn, hlink, waiting_conn, h.backlog]
    | accepted fd =>
      cases hconn : s.server.conns fd with
      | some conn =>
        have hc : s.server.conn (.accepted fd) = some conn := hconn
        simp [State.view, conn_of_up hlink hc, (h.conns fd conn hconn).1]
      | none => simp [State.view, State.conn, hlink, SelectLoop.State.conn, hconn]
  | unopened => simp [State.view, State.held, State.conn, hlink]
  | closed => simp [State.view, State.held, State.conn, hlink]

theorem Silent.over (h : Silent s) (hs : Running cfg s)
    (hclosed : ∀ i, (s.sockets i).link = .closed) : Over cfg s where
  finished i := by
    have hthrough := hs.closed i (hclosed i)
    exact TcpEcho.finished_of_top (hs.linked.views i) hthrough.1 hthrough.2
  closed := hclosed
  idle := by
    have hnone : s.server.conns = fun _ => none := by
      funext fd
      by_contra hsome
      obtain ⟨conn, hconn⟩ := Option.ne_none_iff_exists'.mp hsome
      obtain ⟨i, hi⟩ := hs.linked.owned (.accepted fd) conn hconn (h.conns fd conn hconn).2
      rw [hclosed i] at hi
      cases hi
    have hclients : s.server.clients = fun _ => 0 := by
      funext j
      by_contra hne
      have hmem := hs.sound.table.mem j hne
      simp [SelectLoop.mem_opened, hnone] at hmem
    have hopen : s.server.clientOpen = 0 := by
      rw [hs.opened]
      exact Finset.sum_eq_zero (fun i _ => by rw [hclosed i]; rfl)
    simp only [h.pc, h.backlog, hnone, hclients, hopen, SelectLoop.system]

include ha hb ha0 hb0 hfits in
/-- With nothing to report it is the client's turn, until it has closed its sockets. -/
theorem canStep_silent (hs : Running cfg s) (h : Silent s) (hnot : ¬ Over cfg s) :
    CanStep cfg s := by
  by_cases hpast : ∀ i, s.Past cfg i
  · have hopen : ¬ ∀ i, (s.sockets i).link = .closed := fun hclosed => hnot (h.over hs hclosed)
    obtain ⟨i, hi, hfirst⟩ := Machine.exists_first id hopen
    exact canStep_close hs hpast hi hfirst
  · obtain ⟨i, hi, hfirst⟩ := Machine.exists_first id hpast
    cases hlink : (s.sockets i).link with
    | unopened => exact canStep_connect hlink hfirst
    | closed => exact absurd ⟨by simp [hlink], hs.closed i hlink⟩ hi
    | up w =>
      have hunfinished : ¬ TcpEcho.Finished (cfg i) (s.view i) :=
        fun hfinished => hi ⟨by simp [hlink], hfinished.top, hfinished.iterations⟩
      obtain ⟨act, v, hv⟩ := exists_step ha hb ha0 hb0 hfits hs.linked i hunfinished
      obtain ⟨hheld, hserver⟩ := h.view i
      cases act with
      | serverRead k =>
        simp only [TcpEcho.step, hserver, List.length_nil] at hv
        split_ifs at hv
        omega
      | serverWrite k =>
        simp only [TcpEcho.step, hheld, List.length_nil] at hv
        split_ifs at hv
        omega
      | send => exact canStep_client .send hs hlink trivial hv
      | clientWrite k => exact canStep_client (.clientWrite k) hs hlink trivial hv
      | clientRead k => exact canStep_client (.clientRead k) hs hlink trivial hv

include ha hb ha0 hb0 hfits in
theorem canStep_of_not_over (hs : Running cfg s) (hnot : ¬ Over cfg s) : CanStep cfg s := by
  cases hpc : s.server.pc with
  | collect =>
    by_cases hready : ∃ fd ∈ watched c s.server.clients, Ready c s.server fd
    · obtain ⟨fd, hwatched, hready⟩ := hready
      have hserves : Serves s (.server (.select [fd])) :=
        ⟨List.cons_ne_nil _ _, by simpa using hready⟩
      apply canStep_server (.select [fd]) rfl hserves trivial
      simp only [SelectLoop.step]
      rw [if_pos ⟨hpc, by simpa using hwatched⟩]
    · push Not at hready
      exact canStep_silent ha hb ha0 hb0 hfits hs (silent_of_not_ready hs hpc hready) hnot
  | listener => exact canStep_listener hs hpc
  | scan j => exact canStep_scan hs hpc
  | echo j left => exact canStep_echo ha hb ha0 hb0 hfits hs hpc
  | stopped status => exact absurd hpc (hs.due.running status)

include ha hb ha0 hb0 hfits in
/-- Messages that fit into the streams are all echoed, and the server is left as it was. -/
theorem completes_of_fits (hsuited : Suited c cfg) :
    (system c cfg).Completes (InOrder cfg) (stepBound c cfg) (Over cfg) := by
  refine Machine.completes (rank_climbs hsuited)
    (fun _ hr => rank_le (running_of_reachable hsuited hr)) ?_
  intro s hr hnot
  obtain ⟨act, hok, hen⟩ := canStep_of_not_over ha hb ha0 hb0 hfits
    (running_of_reachable hsuited hr) hnot
  exact Machine.not_stuck_of_enabled hok hen

end InfinibandWorkshop.SelectClients
