import InfinibandWorkshop.SelectTurns

/-!
# What holds while a client goes through its sockets

The sockets are opened one after the other and none is closed before the last one is through,
so that those that are accepted have a slot each, and the table has room for the others.
-/
namespace InfinibandWorkshop.SelectClients
open CText (Byte)
open SelectLoop (Conn Target)
open Throughput (maxPacketSize)
open scoped BigOperators

variable {N : ℕ} {c : SelectLoop.Config} {cfg : Fin N → TcpEcho.Config}
  {s t : State N c.maxClients}

variable {act : Action N}

/-- What a client and the server must have in common: messages without a terminator, of which
some are sent, and a slot for every socket. -/
structure Suited (c : SelectLoop.Config) (cfg : Fin N → TcpEcho.Config) : Prop where
  zero : ∀ i, (0 : Byte) ∉ (cfg i).msg
  line : ∀ i, (cfg i).lineSize = maxPacketSize
  msgs : ∀ i, 0 < (cfg i).numMsgs
  le : N ≤ c.maxClients

/-- What holds while a client goes through its sockets: nobody hangs up before being
accepted, and the table has room for those still to come. -/
structure Running (cfg : Fin N → TcpEcho.Config) (s : State N c.maxClients) : Prop where
  linked : Linked cfg s
  sound : SelectLoop.Sound s.server
  kept : SelectLoop.Kept s.server
  lsd : c.lsd ∉ s.server.opened
  waiting : ∀ k conn, s.server.conn (.waiting k) = some conn →
    conn.isOpen = true ∧ conn.outbox = []
  closed : ∀ i, (s.sockets i).link = .closed → (s.view i).Through (cfg i).numMsgs
  order : ∀ i, (s.sockets i).link ≠ .unopened → ∀ j < i, s.Past cfg j
  opened : s.server.clientOpen = ∑ i, (s.sockets i).link.isUp
  room : c.maxClients ≤ emptySlots s.server.clients + ∑ i, (s.sockets i).link.isAccepted
  due : Due s.server

/-- What a step makes of a link. -/
inductive Relinks (cfg : Fin N → TcpEcho.Config) (s t : State N c.maxClients) (act : Action N)
    (i : Fin N) : Prop
  | same (h : (t.sockets i).link = (s.sockets i).link)
  | connect (ha : act = .connect i) (h : (s.sockets i).link = .unopened) (k : ℕ)
      (ht : (t.sockets i).link = .up (.waiting k))
  | close (ha : act = .close i) (h : (s.view i).Through (cfg i).numMsgs)
      (ht : (t.sockets i).link = .closed)
  | accept (fd : ℕ) (w : Target) (h : (s.sockets i).link = .up w)
      (ht : (t.sockets i).link = .up (w.accept fd))

theorem relinks (h : step c cfg s act = some t) (i : Fin N) : Relinks cfg s t act i := by
  cases act with
  | connect k =>
    obtain ⟨hlink, _, hsockets⟩ := connect_step h
    by_cases hi : i = k
    · subst i
      exact .connect rfl hlink _ (by rw [hsockets, Function.update_self])
    · exact .same (by rw [hsockets, Function.update_of_ne hi])
  | client k act =>
    obtain ⟨w, v, hlink, _, _, _, hsockets⟩ := client_step h
    by_cases hi : i = k
    · subst i
      exact .same (by rw [hsockets, Function.update_self, hlink]; rfl)
    · exact .same (by rw [hsockets, Function.update_of_ne hi])
  | close k =>
    obtain ⟨w, hlink, hthrough, _, hsockets⟩ := close_step h
    by_cases hi : i = k
    · subst i
      exact .close rfl hthrough (by rw [hsockets, Function.update_self])
    · exact .same (by rw [hsockets, Function.update_of_ne hi])
  | server act =>
    obtain ⟨_, _, _, hsockets⟩ := server_step h
    by_cases hact : ∃ fd, act = .accept fd
    · obtain ⟨fd, rfl⟩ := hact
      cases hlink : (s.sockets i).link with
      | up w => exact .accept fd w hlink (by rw [hsockets, hlink]; rfl)
      | unopened => exact .same (by rw [hsockets, hlink]; rfl)
      | closed => exact .same (by rw [hsockets, hlink]; rfl)
    · exact .same (by rw [sockets_eq (by simpa using hact) hsockets])

theorem Relinks.ne_unopened {i : Fin N} (h : Relinks cfg s t act i)
    (hlink : (s.sockets i).link ≠ .unopened) : (t.sockets i).link ≠ .unopened := by
  cases h with
  | same h => rwa [h]
  | connect _ h => exact absurd h hlink
  | close _ _ ht => simp [ht]
  | accept _ _ _ ht => simp [ht]

/-- A connection that has come to its end is left alone. -/
theorem step_of_finished {d : TcpEcho.Config} {u : TcpEcho.State} (h : TcpEcho.Finished d u)
    (act : TcpEcho.Action) : TcpEcho.step d u act = none := by
  cases act <;> simp [TcpEcho.step, h.top, h.iterations, h.toServer, h.held] <;> omega

theorem view_of_through (hs : Linked cfg s) (hshown : Shown cfg s t) {i : Fin N}
    (h : (s.view i).Through (cfg i).numMsgs) : t.view i = s.view i := by
  rcases hshown with hsame | ⟨k, act, _, hstep, hothers⟩
  · exact hsame i
  · by_cases hi : i = k
    · subst i
      rw [step_of_finished (TcpEcho.finished_of_top (hs.views k) h.1 h.2)] at hstep
      cases hstep
    · exact hothers i hi

theorem State.Past.next (hs : Linked cfg s) (hshown : Shown cfg s t) {i : Fin N}
    (hlink : Relinks cfg s t act i) (h : s.Past cfg i) : t.Past cfg i :=
  ⟨hlink.ne_unopened h.1, by rw [view_of_through hs hshown h.2]; exact h.2⟩

theorem Running.order_next (hs : Running cfg s) (hshown : Shown cfg s t)
    (hlinks : ∀ i, Relinks cfg s t act i) (hturn : Turn cfg s act) (i : Fin N)
    (hi : (t.sockets i).link ≠ .unopened) (j : Fin N) (hj : j < i) : t.Past cfg j := by
  have hpast : s.Past cfg j := by
    cases hlinks i with
    | same h => exact hs.order i (h ▸ hi) j hj
    | connect ha =>
      subst act
      exact hturn j hj
    | close ha =>
      subst act
      exact hturn.1 j
    | accept fd w h => exact hs.order i (by simp [h]) j hj
  exact hpast.next hs.linked hshown (hlinks j)

theorem Running.closed_next (hs : Running cfg s) (hshown : Shown cfg s t)
    (hlinks : ∀ i, Relinks cfg s t act i) (i : Fin N) (hi : (t.sockets i).link = .closed) :
    (t.view i).Through (cfg i).numMsgs := by
  have hthrough : (s.view i).Through (cfg i).numMsgs := by
    cases hlinks i with
    | same h => exact hs.closed i (h ▸ hi)
    | connect _ _ k ht =>
      rw [ht] at hi
      cases hi
    | close _ h => exact h
    | accept _ _ _ ht =>
      rw [ht] at hi
      cases hi
  rw [view_of_through hs.linked hshown hthrough]
  exact hthrough

section Steps

variable {i : Fin N}

/-- The listener's number is given to nobody. -/
theorem lsd_next {act : SelectLoop.Action} {u v : SelectLoop.State c.maxClients}
    (hlsd : c.lsd ∉ u.opened) (h : SelectLoop.step c u act = some v) : c.lsd ∉ v.opened := by
  by_cases hact : ∃ fd, act = .accept fd
  · obtain ⟨fd, rfl⟩ := hact
    have hacc := SelectLoop.accepts_of_step h
    rw [hacc.opened]
    rintro (he | hmem)
    · exact hacc.ne_lsd he.symm
    · exact hlsd hmem
  · cases SelectLoop.step_effect (by simpa using hact) h with
    | client h => rwa [h.opened]
    | select h => rwa [h.opened]
    | pass h => rwa [h.opened]
    | read i left h => rwa [h.opened]
    | close i h =>
      rw [h.opened]
      exact fun hmem => hlsd hmem.1
    | sent i left rest h => rwa [h.opened]

theorem Running.table (hs : Running cfg s) {act : SelectLoop.Action}
    {v : SelectLoop.State c.maxClients} (h : SelectLoop.step c s.server act = some v)
    (hroom : SelectLoop.HasRoom s.server act) : SelectLoop.Sound v ∧ SelectLoop.Kept v := by
  have hstep : (SelectLoop.system c).step s.server act = some v := h
  exact ⟨hs.sound.step hstep, (SelectLoop.kept_step_iff hs.sound hstep).mpr ⟨hs.kept, hroom⟩⟩

theorem waiting_conn {server : SelectLoop.State c.maxClients} {k : ℕ} :
    server.conn (.waiting k) = server.backlog[k]? := rfl

theorem Running.connect (hs : Running cfg s) (hshown : Shown cfg s t) (hlinked : Linked cfg t)
    (hturn : Turn cfg s (.connect i)) (h : step c cfg s (.connect i) = some t) :
    Running cfg t := by
  have hlinks := relinks h
  obtain ⟨hlink, hserver, hsockets⟩ := connect_step h
  have ht := SelectLoop.connect_eq hserver
  have hself : (t.sockets i).link = .up (.waiting s.server.backlog.length) := by
    rw [hsockets, Function.update_self]
  have hothers : ∀ j ≠ i, (t.sockets j).link = (s.sockets j).link := by
    intro j hj
    rw [hsockets, Function.update_of_ne hj]
  constructor
  case linked => exact hlinked
  case sound => exact (hs.table hserver trivial).1
  case kept => exact (hs.table hserver trivial).2
  case lsd => exact lsd_next hs.lsd hserver
  case waiting =>
    intro k conn hconn
    rw [waiting_conn, ht] at hconn
    dsimp only at hconn
    rw [List.getElem?_append] at hconn
    split_ifs at hconn with hk
    · exact hs.waiting k conn hconn
    · have hmem := List.mem_of_getElem? hconn
      rw [List.mem_singleton] at hmem
      subst conn
      exact ⟨rfl, rfl⟩
  case closed => exact hs.closed_next hshown hlinks
  case order => exact hs.order_next hshown hlinks hturn
  case opened =>
    have hsum := sum_link Link.isUp hothers
    simp only [hlink, hself, Link.isUp_unopened, Link.isUp_up] at hsum
    rw [ht, hs.opened]
    dsimp only
    omega
  case room =>
    have hsum := sum_link Link.isAccepted hothers
    simp only [hlink, hself, Link.isAccepted_unopened, Link.isAccepted_waiting] at hsum
    have hroom := hs.room
    rw [ht]
    dsimp only
    omega
  case due =>
    rw [ht]
    apply hs.due.mono
    case hpc | hfds | hclients | hevents => rfl
    intro w x hx
    refine ⟨x, ?_, id⟩
    cases w with
    | waiting k =>
      rw [waiting_conn] at hx ⊢
      have hk : k < s.server.backlog.length := (List.getElem?_eq_some_iff.mp hx).1
      rw [List.getElem?_append_left hk]
      exact hx
    | accepted fd => exact hx

/-- What the clients do to their connections changes neither the scan nor the table. -/
theorem due_of_onConn {u v : SelectLoop.State c.maxClients} {w : Target} {f : Conn → Conn}
    (hd : Due u) (hf : ∀ conn, Waits conn → Waits (f conn)) (h : u.onConn w f = some v) :
    Due v := by
  obtain ⟨conn, hconn, _, hnew, hothers, hv⟩ := SelectLoop.onConn_cases h
  apply hd.mono
  case hpc => rw [hv]
  case hfds => rw [hv]
  case hclients => rw [hv]
  case hevents => rw [hv]
  case hconn =>
    intro w' x hx
    by_cases hw : w' = w
    · rw [hw] at hx ⊢
      have he : x = conn := Option.some.inj (hx.symm.trans hconn)
      exact ⟨f conn, hnew, fun hwaits => hf conn (he ▸ hwaits)⟩
    · exact ⟨x, by rw [hothers w' hw, hx], id⟩

theorem Running.client {act : TcpEcho.Action} (hs : Running cfg s) (hshown : Shown cfg s t)
    (hlinked : Linked cfg t) (hturn : Turn cfg s (.client i act))
    (h : step c cfg s (.client i act) = some t) : Running cfg t := by
  have hlinks := relinks h
  obtain ⟨w, v, hlink, _, _, hserver, hsockets⟩ := client_step h
  obtain ⟨conn, hconn, _, hnew, hothers, ht⟩ := SelectLoop.onConn_cases hserver
  have hsame : ∀ j, (t.sockets j).link = (s.sockets j).link := by
    intro j
    by_cases hj : j = i
    · rw [hj, hsockets, Function.update_self, hlink]
      rfl
    · rw [hsockets, Function.update_of_ne hj]
  constructor
  case linked => exact hlinked
  case sound => exact (hs.table hserver trivial).1
  case kept => exact (hs.table hserver trivial).2
  case lsd => exact lsd_next hs.lsd hserver
  case waiting =>
    intro k x hx
    by_cases hw : .waiting k = w
    · rw [hw, hnew] at hx
      rw [← Option.some.inj hx]
      exact hs.waiting k conn (hw ▸ hconn)
    · rw [hothers _ hw] at hx
      exact hs.waiting k x hx
  case closed => exact hs.closed_next hshown hlinks
  case order => exact hs.order_next hshown hlinks hturn
  case opened =>
    simp only [hsame]
    rw [ht]
    exact hs.opened
  case room =>
    simp only [hsame]
    rw [ht]
    exact hs.room
  case due =>
    apply due_of_onConn hs.due _ hserver
    rintro x (hinbox | hopen)
    · exact .inl (List.append_ne_nil_of_left_ne_nil hinbox _)
    · exact .inr hopen

/-- A socket that is closed has been accepted: something has come back over it. -/
theorem Running.accepted_of_through (hs : Running cfg s) (hsuited : Suited c cfg) {w : Target}
    (hlink : (s.sockets i).link = .up w) (hthrough : (s.view i).Through (cfg i).numMsgs) :
    ∃ fd, w = .accepted fd := by
  cases w with
  | accepted fd => exact ⟨fd, rfl⟩
  | waiting k =>
    obtain ⟨conn, hconn, _, hle⟩ := hs.linked.up i _ hlink
    have hfinished := TcpEcho.finished_of_top (hs.linked.views i) hthrough.1 hthrough.2
    have hlen : (s.sockets i).received.length = _ := hfinished.received_length
    have hpos := Nat.mul_pos (hsuited.msgs i) (TcpEcho.msg_length_pos (cfg i))
    rw [(hs.waiting k conn hconn).2, List.length_nil, hlen] at hle
    omega

theorem Running.close (hs : Running cfg s) (hsuited : Suited c cfg) (hshown : Shown cfg s t)
    (hlinked : Linked cfg t) (hturn : Turn cfg s (.close i))
    (h : step c cfg s (.close i) = some t) : Running cfg t := by
  have hlinks := relinks h
  obtain ⟨w, hlink, hthrough, hstep, hsockets⟩ := close_step h
  obtain ⟨server, hon, hserver⟩ := Option.map_eq_some_iff.mp hstep
  obtain ⟨conn, hconn, _, hnew, hothers, ht⟩ := SelectLoop.onConn_cases hon
  obtain ⟨fd, rfl⟩ := hs.accepted_of_through hsuited hlink hthrough
  have hself : (t.sockets i).link = .closed := by rw [hsockets, Function.update_self]
  have hrest : ∀ j ≠ i, (t.sockets j).link = (s.sockets j).link := by
    intro j hj
    rw [hsockets, Function.update_of_ne hj]
  have hconns : ∀ w', t.server.conn w' = server.conn w' := by
    intro w'
    rw [← hserver]
    cases w' <;> rfl
  constructor
  case linked => exact hlinked
  case sound => exact (hs.table hstep trivial).1
  case kept => exact (hs.table hstep trivial).2
  case lsd => exact lsd_next hs.lsd hstep
  case waiting =>
    intro k x hx
    rw [hconns, hothers _ (by simp)] at hx
    exact hs.waiting k x hx
  case closed => exact hs.closed_next hshown hlinks
  case order => exact hs.order_next hshown hlinks hturn
  case opened =>
    have hsum := sum_link Link.isUp hrest
    simp only [hlink, hself, Link.isUp_up, Link.isUp_closed] at hsum
    have hopened := hs.opened
    rw [← hserver, ht]
    dsimp only
    omega
  case room =>
    have hsum := sum_link Link.isAccepted hrest
    simp only [hlink, hself, Link.isAccepted_accepted, Link.isAccepted_closed] at hsum
    have hroom := hs.room
    rw [← hserver, ht]
    dsimp only
    omega
  case due =>
    have hd : Due server := due_of_onConn hs.due (fun _ _ => .inr rfl) hon
    rw [← hserver]
    apply hd.mono
    case hpc | hfds | hclients | hevents => rfl
    intro w' x hx
    refine ⟨x, ?_, id⟩
    cases w' <;> exact hx

theorem isUp_afterCall (link : Link) (act : SelectLoop.Action) :
    (link.afterCall act).isUp = link.isUp := by
  cases act with
  | accept fd => cases link <;> rfl
  | _ => rfl

/-- The connection at the head of the queue is one that has not been accepted. -/
theorem Running.exists_waiting (hs : Running cfg s) (hbacklog : s.server.backlog ≠ []) :
    ∃ i, (s.sockets i).link = .up (.waiting 0) := by
  obtain ⟨conn, rest, hcons⟩ := List.exists_cons_of_ne_nil hbacklog
  have hconn : s.server.conn (.waiting 0) = some conn := by
    rw [waiting_conn, hcons]
    rfl
  exact hs.linked.owned _ conn hconn (hs.waiting 0 conn hconn).1

/-- As long as one waits, the table is not full. -/
theorem Running.hasRoom (hs : Running cfg s) (hsuited : Suited c cfg)
    (hbacklog : s.server.backlog ≠ []) : ∃ j, s.server.clients j = 0 := by
  obtain ⟨i, hi⟩ := hs.exists_waiting hbacklog
  apply exists_empty
  have hle : ∀ k, (s.sockets k).link.isAccepted ≤ 1 := by
    intro k
    rcases (s.sockets k).link with _ | (_ | _) | _ <;> simp
  have hlt : ∑ k, (s.sockets k).link.isAccepted < ∑ _k : Fin N, 1 :=
    Finset.sum_lt_sum (fun k _ => hle k) ⟨i, Finset.mem_univ i, by simp [hi]⟩
  rw [Finset.sum_const, Finset.card_univ, Fintype.card_fin, smul_eq_mul, mul_one] at hlt
  have hroom := hs.room
  have hN := hsuited.le
  omega

theorem Running.sum_isAccepted (hs : Running cfg s) (hbacklog : s.server.backlog ≠ []) (fd : ℕ) :
    ∑ j, ((s.sockets j).link.accept fd).isAccepted =
      ∑ j, (s.sockets j).link.isAccepted + 1 := by
  obtain ⟨i, hi⟩ := hs.exists_waiting hbacklog
  have hothers : ∀ j ≠ i, ((s.sockets j).link.accept fd).isAccepted =
      (s.sockets j).link.isAccepted := by
    intro j hj
    cases hlink : (s.sockets j).link with
    | up w =>
      cases w with
      | waiting k =>
        cases k with
        | zero => exact absurd (hs.linked.distinct j i _ hlink hi) hj
        | succ k => rfl
      | accepted fd' => rfl
    | unopened => rfl
    | closed => rfl
  have hsum := sum_change (f := fun j => (s.sockets j).link.isAccepted)
    (g := fun j => ((s.sockets j).link.accept fd).isAccepted) (i := i) hothers
  simpa [hi, Link.accept, SelectLoop.Target.accept] using hsum

theorem Running.accept {fd : ℕ} (hs : Running cfg s) (hsuited : Suited c cfg)
    (hshown : Shown cfg s t) (hlinked : Linked cfg t)
    (h : step c cfg s (.server (.accept fd)) = some t) : Running cfg t := by
  have hlinks := relinks h
  obtain ⟨_, _, hstep, hsockets⟩ := server_step h
  obtain ⟨conn, rest, _, hbacklog, _, hpos, _, _, ht⟩ := SelectLoop.accept_cases hstep
  have hne : s.server.backlog ≠ [] := by simp [hbacklog]
  constructor
  case linked => exact hlinked
  case sound => exact (hs.table hstep (hs.hasRoom hsuited hne)).1
  case kept => exact (hs.table hstep (hs.hasRoom hsuited hne)).2
  case lsd => exact lsd_next hs.lsd hstep
  case waiting =>
    intro k x hx
    apply hs.waiting (k + 1) x
    rw [waiting_conn, ht] at hx
    rw [waiting_conn, hbacklog, List.getElem?_cons_succ]
    exact hx
  case closed => exact hs.closed_next hshown hlinks
  case order => exact hs.order_next hshown hlinks trivial
  case opened =>
    simp only [hsockets, isUp_afterCall]
    rw [ht]
    exact hs.opened
  case room =>
    have hsum := hs.sum_isAccepted hne fd
    have hempty := emptySlots_store s.server.clients hpos
    have hroom := hs.room
    simp only [hsockets, Link.afterCall]
    rw [hsum, ht]
    dsimp only
    omega
  case due => exact hs.due.accept hs.sound hstep

/-- The other calls leave the queue and the links alone, and may empty a slot. -/
theorem Running.same {act : SelectLoop.Action} (hs : Running cfg s) (hshown : Shown cfg s t)
    (hlinked : Linked cfg t) (h : step c cfg s (.server act) = some t)
    (hact : ∀ fd, act ≠ .accept fd) (hbacklog : t.server.backlog = s.server.backlog)
    (hopen : t.server.clientOpen = s.server.clientOpen)
    (hempty : emptySlots s.server.clients ≤ emptySlots t.server.clients)
    (hdue : Due t.server) : Running cfg t := by
  have hlinks := relinks h
  obtain ⟨_, _, hstep, hsockets⟩ := server_step h
  have hsame := sockets_eq hact hsockets
  constructor
  case linked => exact hlinked
  case sound => exact (hs.table hstep (SelectLoop.hasRoom_of_ne hact)).1
  case kept => exact (hs.table hstep (SelectLoop.hasRoom_of_ne hact)).2
  case lsd => exact lsd_next hs.lsd hstep
  case waiting =>
    intro k x hx
    rw [waiting_conn, hbacklog] at hx
    exact hs.waiting k x hx
  case closed => exact hs.closed_next hshown hlinks
  case order => exact hs.order_next hshown hlinks trivial
  case opened => rw [hopen, hsame, hs.opened]
  case room =>
    have hroom := hs.room
    rw [hsame]
    omega
  case due => exact hdue

theorem Running.server {act : SelectLoop.Action} (hs : Running cfg s) (hsuited : Suited c cfg)
    (hserves : Serves s (.server act)) (hshown : Shown cfg s t) (hlinked : Linked cfg t)
    (h : step c cfg s (.server act) = some t) : Running cfg t := by
  obtain ⟨hserver, _, hstep, _⟩ := server_step h
  cases act with
  | accept fd => exact hs.accept hsuited hshown hlinked h
  | select ready =>
    have hdue := Due.select hs.sound hs.lsd hserves hstep
    obtain ⟨_, _, ht⟩ := SelectLoop.select_cases hstep
    exact hs.same hshown hlinked h (by simp) (by rw [ht]) (by rw [ht]) (by rw [ht]) hdue
  | skip =>
    have hdue := hs.due.skip hstep
    rcases SelectLoop.skip_cases hstep with ⟨_, _, ht⟩ | ⟨_, _, _, ht⟩
    all_goals
      exact hs.same hshown hlinked h (by simp) (by rw [ht]) (by rw [ht]) (by rw [ht]) hdue
  | read k =>
    have hdue := hs.due.read hs.sound hstep
    obtain ⟨i, _, _, _, hset, hread⟩ := SelectLoop.read_cases hstep
    rcases hread with ⟨_, _, _, ht⟩ | ⟨_, _, _, ht⟩
    · exact hs.same hshown hlinked h (by simp) (by rw [ht]) (by rw [ht]) (by rw [ht]) hdue
    · have hne : s.server.clients i ≠ 0 := by
        intro hzero
        rw [hzero] at hset
        exact hs.sound.set hset
      refine hs.same hshown hlinked h (by simp) (by rw [ht]) (by rw [ht]) ?_ hdue
      rw [ht]
      dsimp only
      rw [emptySlots_clear hne]
      exact Nat.le_succ _
  | send k =>
    have hdue := hs.due.send hs.sound hstep
    obtain ⟨_, _, _, _, _, ht⟩ := SelectLoop.send_cases hstep
    exact hs.same hshown hlinked h (by simp) (by rw [ht]) (by rw [ht]) (by rw [ht]) hdue
  | sendNone minusOne =>
    simp only [SelectLoop.step] at hstep
    split at hstep
    · rename_i j hpc
      exact absurd rfl (hs.linked.echoing j [] hpc).1
    · cases hstep
  | connect => cases hserver
  | clientSend w bytes => cases hserver
  | clientClose w => cases hserver
  | _ => exact hserves.elim

theorem noSendFails_of_serves {act : Action N} (h : Serves s act) : NoSendFails s act := by
  cases act with
  | server act =>
    cases act with
    | sendFail => exact h
    | _ => trivial
  | _ => trivial

theorem Running.next {act : Action N} (hs : Running cfg s) (hsuited : Suited c cfg)
    (hok : InOrder cfg s act) (h : (system c cfg).step s act = some t) :
    Running cfg t ∧ Shown cfg s t := by
  obtain ⟨hshown, hlinked⟩ := step_shown hsuited.zero hsuited.line hs.linked
    (noSendFails_of_serves hok.1) h
  refine ⟨?_, hshown⟩
  cases act with
  | connect i => exact hs.connect hshown hlinked hok.2 h
  | client i act => exact hs.client hshown hlinked hok.2 h
  | close i => exact hs.close hsuited hshown hlinked hok.2 h
  | server act => exact hs.server hsuited hok.1 hshown hlinked h

theorem running_init : Running cfg (system c cfg).init where
  linked := linked_init
  sound := SelectLoop.sound_init
  kept := SelectLoop.kept_init
  lsd := by simp [system, SelectLoop.system, SelectLoop.State.opened]
  waiting := by
    intro k conn h
    cases h
  closed := by
    intro i h
    cases h
  order := fun i h => absurd rfl h
  opened := by simp [system, SelectLoop.system]
  room := by simp [system, SelectLoop.system, emptySlots]
  due := by
    constructor <;> simp [system, SelectLoop.system, Ahead]

theorem running_of_reachable (hsuited : Suited c cfg)
    (h : (system c cfg).ReachableBy (InOrder cfg) s) : Running cfg s :=
  h.invariant running_init (fun _ _ _ hs hok hst => (hs.next hsuited hok hst).1)

end Steps

end InfinibandWorkshop.SelectClients
