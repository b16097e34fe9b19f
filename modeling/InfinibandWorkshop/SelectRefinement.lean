import InfinibandWorkshop.SelectClients

/-!
# The select loop as handlers side by side

What a socket sees of the server is a connection with a handler of its own: the chunk that
the loop has read and not sent back is what that handler holds. As long as no send fails,
the table, the descriptor set and the order in which `select` reports its descriptors
cannot be told from thread-per-connection.
-/
namespace InfinibandWorkshop.SelectClients
open CText (Byte cstr)
open SelectLoop (Conn Target scanFrom)
open Throughput (maxPacketSize maxPacketSize_pos)

variable {N : ℕ} {c : SelectLoop.Config} {cfg : Fin N → TcpEcho.Config}
  {s t : State N c.maxClients}

section Links

theorem held_eq_nil {server : SelectLoop.State c.maxClients}
    (h : ∀ j left, server.pc ≠ .echo j left) (w : Target) : server.held w = [] := by
  cases w with
  | waiting k => rfl
  | accepted fd =>
    unfold SelectLoop.State.held
    dsimp only
    split
    · rename_i j left hpc
      exact absurd hpc (h j left)
    · rfl

theorem view_eq {i : Fin N} (hsocket : ∃ link, t.sockets i = { s.sockets i with link := link })
    (hconn : t.conn i = s.conn i) (hheld : t.held i = s.held i) : t.view i = s.view i := by
  obtain ⟨link, hsocket⟩ := hsocket
  simp only [State.view, hsocket, hconn, hheld]

/-- Where a socket and its connection are as they were, so is the view. -/
theorem view_eq_of_up {i : Fin N} (hsocket : t.sockets i = s.sockets i)
    (hconn : ∀ w, (s.sockets i).link = .up w → t.server.conn w = s.server.conn w)
    (hheld : ∀ w, (s.sockets i).link = .up w → t.server.held w = s.server.held w) :
    t.view i = s.view i := by
  apply view_eq ⟨(s.sockets i).link, hsocket⟩
  · unfold State.conn
    rw [hsocket]
    cases hlink : (s.sockets i).link with
    | up w => simp only [hconn w hlink]
    | unopened => rfl
    | closed => rfl
  · unfold State.held
    rw [hsocket]
    cases hlink : (s.sockets i).link with
    | up w => simp only [hheld w hlink]
    | unopened => rfl
    | closed => rfl

/-- Every connection that is open belongs to one socket, and what the server holds came over
one of these. One that its client has closed has nothing more to say. -/
structure Linked (cfg : Fin N → TcpEcho.Config) (s : State N c.maxClients) : Prop where
  unopened : ∀ i, (s.sockets i).link = .unopened → (s.sockets i).received = []
  up : ∀ i w, (s.sockets i).link = .up w → ∃ conn, s.server.conn w = some conn ∧
    conn.isOpen = true ∧ (s.sockets i).received.length ≤ conn.outbox.length
  distinct : ∀ i j w, (s.sockets i).link = .up w → (s.sockets j).link = .up w → i = j
  owned : ∀ w conn, s.server.conn w = some conn → conn.isOpen = true →
    ∃ i, (s.sockets i).link = .up w
  orphan : ∀ w conn, s.server.conn w = some conn → conn.isOpen = false → conn.inbox = []
  echoing : ∀ j left, s.server.pc = .echo j left →
    left ≠ [] ∧ ∃ i, (s.sockets i).link = .up (.accepted (s.server.clients j))
  views : ∀ i, (TcpEcho.system (cfg i)).Reachable (s.view i)

/-- What a step is for the views: nothing, or a step of one connection. -/
def Shown (cfg : Fin N → TcpEcho.Config) (s t : State N c.maxClients) : Prop :=
  (∀ i, t.view i = s.view i) ∨
    ∃ i act, (∃ w, (s.sockets i).link = .up w) ∧
      TcpEcho.step (cfg i) (s.view i) act = some (t.view i) ∧ ∀ j ≠ i, t.view j = s.view j

theorem Shown.views (h : Shown cfg s t) (hs : Linked cfg s) (i : Fin N) :
    (TcpEcho.system (cfg i)).Reachable (t.view i) := by
  rcases h with hsame | ⟨k, act, _, hstep, hothers⟩
  · exact hsame i ▸ hs.views i
  · by_cases hi : i = k
    · subst i
      exact (hs.views k).next trivial hstep
    · exact hothers i hi ▸ hs.views i

end Links

section Steps

/-- Steps of the server that leave its connections alone. -/
structure Quiet (s t : SelectLoop.State c.maxClients) : Prop where
  backlog : t.backlog = s.backlog
  conns : t.conns = s.conns
  before : ∀ j left, s.pc ≠ .echo j left
  after : ∀ j left, t.pc ≠ .echo j left

theorem scanFrom_ne_echo {n k : ℕ} (j : Fin n) (left : List Byte) : scanFrom n k ≠ .echo j left :=
  (SelectLoop.between_scanFrom n k).ne_echo j left

theorem Quiet.conn {u v : SelectLoop.State c.maxClients} (h : Quiet u v) (w : Target) :
    v.conn w = u.conn w := by
  cases w with
  | waiting k => simp only [SelectLoop.State.conn, h.backlog]
  | accepted fd => simp only [SelectLoop.State.conn, h.conns]

theorem Quiet.shown (h : Quiet s.server t.server) (hsockets : t.sockets = s.sockets) (i : Fin N) :
    t.view i = s.view i := by
  apply view_eq_of_up (by rw [hsockets]) (fun w _ => h.conn w)
  intro w _
  rw [held_eq_nil h.before, held_eq_nil h.after]

theorem Quiet.linked (h : Quiet s.server t.server) (hsockets : t.sockets = s.sockets)
    (hs : Linked cfg s) : Linked cfg t where
  unopened := by
    rw [hsockets]
    exact hs.unopened
  up := by
    intro i w hup
    rw [hsockets] at hup ⊢
    rw [h.conn]
    exact hs.up i w hup
  distinct := by
    rw [hsockets]
    exact hs.distinct
  owned := by
    intro w conn hconn
    rw [h.conn] at hconn
    rw [hsockets]
    exact hs.owned w conn hconn
  orphan := by
    intro w conn hconn
    rw [h.conn] at hconn
    exact hs.orphan w conn hconn
  echoing := fun j left hpc => absurd hpc (h.after j left)
  views := fun i => h.shown hsockets i ▸ hs.views i

section Accept

variable {fd : ℕ}

theorem up_of_accept {link : Link} {w : Target} (h : link.accept fd = .up w) :
    ∃ w', link = .up w' ∧ w = w'.accept fd := by
  cases link with
  | up w' =>
    cases h
    exact ⟨w', rfl, rfl⟩
  | unopened => cases h
  | closed => cases h

theorem accept_eq_unopened {link : Link} : link.accept fd = .unopened ↔ link = .unopened := by
  cases link <;> simp [Link.accept]

theorem accept_shown (hs : Linked cfg s)
    (h : SelectLoop.step c s.server (.accept fd) = some t.server)
    (hsockets : ∀ i, t.sockets i =
      { s.sockets i with link := (s.sockets i).link.accept fd }) (i : Fin N) :
    t.view i = s.view i := by
  obtain ⟨conn, rest, hpc, hbacklog, _, _, _, hfresh, ht⟩ := SelectLoop.accept_cases h
  have hrest : t.server.backlog = rest := by rw [ht]
  have hconns : t.server.conns = Function.update s.server.conns fd (some conn) := by rw [ht]
  have hafter : ∀ j left, t.server.pc ≠ .echo j left := by
    rw [ht]
    exact scanFrom_ne_echo
  have hbefore : ∀ j left, s.server.pc ≠ .echo j left := by simp [hpc]
  have hconn : t.conn i = s.conn i := by
    unfold State.conn
    rw [hsockets]
    cases hlink : (s.sockets i).link with
    | up w =>
      obtain ⟨x, hx, _⟩ := hs.up i w hlink
      simp only [Link.accept, SelectLoop.conn_accept hbacklog hfresh hrest hconns
        (Option.ne_none_iff_exists'.mpr ⟨x, hx⟩)]
    | unopened => rfl
    | closed => rfl
  have hheld : t.held i = s.held i := by
    unfold State.held
    rw [hsockets]
    cases hlink : (s.sockets i).link with
    | up w => simp only [Link.accept, held_eq_nil hbefore, held_eq_nil hafter]
    | unopened => rfl
    | closed => rfl
  exact view_eq ⟨_, hsockets i⟩ hconn hheld

theorem accept_linked (hs : Linked cfg s)
    (h : SelectLoop.step c s.server (.accept fd) = some t.server)
    (hsockets : ∀ i, t.sockets i =
      { s.sockets i with link := (s.sockets i).link.accept fd }) : Linked cfg t := by
  have hviews := accept_shown hs h hsockets
  obtain ⟨conn, rest, hpc, hbacklog, _, _, _, hfresh, ht⟩ := SelectLoop.accept_cases h
  have hrest : t.server.backlog = rest := by rw [ht]
  have hconns : t.server.conns = Function.update s.server.conns fd (some conn) := by rw [ht]
  constructor
  case unopened =>
    intro i hlink
    rw [hsockets] at hlink ⊢
    exact hs.unopened i (accept_eq_unopened.mp hlink)
  case up =>
    intro i w hlink
    rw [hsockets] at hlink ⊢
    obtain ⟨w', hlink', rfl⟩ := up_of_accept hlink
    obtain ⟨x, hx, hopen, hle⟩ := hs.up i w' hlink'
    refine ⟨x, ?_, hopen, hle⟩
    rw [SelectLoop.conn_accept hbacklog hfresh hrest hconns (by simp [hx]), hx]
  case distinct =>
    intro i j w hi hj
    rw [hsockets] at hi hj
    obtain ⟨w₁, hi', rfl⟩ := up_of_accept hi
    obtain ⟨w₂, hj', he⟩ := up_of_accept hj
    obtain ⟨x, hx, _⟩ := hs.up i w₁ hi'
    obtain ⟨y, hy, _⟩ := hs.up j w₂ hj'
    have hw : w₁ = w₂ := SelectLoop.accept_injective hfresh (by simp [hx]) (by simp [hy]) he
    exact hs.distinct i j w₁ hi' (hw ▸ hj')
  case owned =>
    intro w x hx hopen
    obtain ⟨w', rfl, hx'⟩ := SelectLoop.exists_accept hbacklog hrest hconns hx
    obtain ⟨i, hi⟩ := hs.owned w' x hx' hopen
    exact ⟨i, by rw [hsockets, hi]; rfl⟩
  case orphan =>
    intro w x hx hopen
    obtain ⟨w', rfl, hx'⟩ := SelectLoop.exists_accept hbacklog hrest hconns hx
    exact hs.orphan w' x hx' hopen
  case echoing =>
    intro j left he
    rw [ht] at he
    exact absurd he (scanFrom_ne_echo j left)
  case views => exact fun i => hviews i ▸ hs.views i

end Accept

section Touch

variable {i : Fin N} {w : Target} {conn : Conn}

/-- A step that concerns one connection, that of socket `i`. -/
structure Touches (s t : State N c.maxClients) (i : Fin N) (w : Target) : Prop where
  link : (s.sockets i).link = .up w
  links : ∀ j, (t.sockets j).link = (s.sockets j).link
  sockets : ∀ j ≠ i, t.sockets j = s.sockets j
  conn : ∀ w' ≠ w, t.server.conn w' = s.server.conn w'
  held : ∀ w' ≠ w, t.server.held w' = s.server.held w'

theorem Touches.view_of_ne (h : Touches s t i w) (hs : Linked cfg s) {j : Fin N} (hj : j ≠ i) :
    t.view j = s.view j := by
  have hne : ∀ w', (s.sockets j).link = .up w' → w' ≠ w := by
    rintro w' hup rfl
    exact hj (hs.distinct j i w' hup h.link)
  exact view_eq_of_up (h.sockets j hj) (fun w' hup => h.conn w' (hne w' hup))
    (fun w' hup => h.held w' (hne w' hup))

theorem Touches.shown (h : Touches s t i w) (hs : Linked cfg s) {act : TcpEcho.Action}
    (hstep : TcpEcho.step (cfg i) (s.view i) act = some (t.view i)) : Shown cfg s t :=
  .inr ⟨i, act, ⟨w, h.link⟩, hstep, fun _ hj => h.view_of_ne hs hj⟩

theorem Touches.linked (h : Touches s t i w) (hs : Linked cfg s) (hshown : Shown cfg s t)
    (hconn : t.server.conn w = some conn) (hopen : conn.isOpen = true)
    (hle : (t.sockets i).received.length ≤ conn.outbox.length)
    (hecho : ∀ j left, t.server.pc = .echo j left →
      left ≠ [] ∧ ∃ i, (s.sockets i).link = .up (.accepted (t.server.clients j))) :
    Linked cfg t where
  unopened := by
    intro j hj
    rw [h.links] at hj
    have hne : j ≠ i := by
      rintro rfl
      rw [h.link] at hj
      cases hj
    rw [h.sockets j hne]
    exact hs.unopened j hj
  up := by
    intro j w' hj
    rw [h.links] at hj
    by_cases hji : j = i
    · subst j
      rw [h.link] at hj
      cases hj
      exact ⟨conn, hconn, hopen, hle⟩
    · have hne : w' ≠ w := by
        rintro rfl
        exact hji (hs.distinct j i w' hj h.link)
      rw [h.sockets j hji, h.conn w' hne]
      exact hs.up j w' hj
  distinct := by
    intro j k w' hj hk
    rw [h.links] at hj hk
    exact hs.distinct j k w' hj hk
  owned := by
    intro w' x hx hopen'
    simp only [h.links]
    by_cases hw : w' = w
    · subst w'
      exact ⟨i, h.link⟩
    · rw [h.conn w' hw] at hx
      exact hs.owned w' x hx hopen'
  orphan := by
    intro w' x hx hclosed
    by_cases hw : w' = w
    · subst w'
      rw [hconn] at hx
      cases hx
      rw [hopen] at hclosed
      cases hclosed
    · rw [h.conn w' hw] at hx
      exact hs.orphan w' x hx hclosed
  echoing := by
    simp only [h.links]
    exact hecho
  views := hshown.views hs

end Touch

section Calls

variable {i : Fin N} {w : Target} {conn : Conn} {j : Fin c.maxClients} {left : List Byte} {k : ℕ}

theorem conn_of_up (hlink : (s.sockets i).link = .up w) (hconn : s.server.conn w = some conn) :
    s.conn i = conn := by
  simp [State.conn, hlink, hconn]

theorem held_of_up (hlink : (s.sockets i).link = .up w) : s.held i = s.server.held w := by
  simp [State.held, hlink]

theorem held_echo {server : SelectLoop.State c.maxClients} (hpc : server.pc = .echo j left) :
    server.held (.accepted (server.clients j)) = left := by
  simp [SelectLoop.State.held, hpc]

theorem held_echo_ne {server : SelectLoop.State c.maxClients} (hpc : server.pc = .echo j left)
    {w : Target} (hw : w ≠ .accepted (server.clients j)) : server.held w = [] := by
  cases w with
  | waiting k => rfl
  | accepted fd =>
    have hne : server.clients j ≠ fd := fun he => hw (by rw [he])
    simp [SelectLoop.State.held, hpc, hne]

/-- What is on its way to the server has been copied from the message. -/
theorem mem_msg_of_toServer (hs : Linked cfg s) {x : Byte} (hx : x ∈ (s.view i).toServer) :
    x ∈ (cfg i).msg := by
  have hbytes := (TcpEcho.conserved_of_reachable (hs.views i)).bytes
  have hcontents := (TcpEcho.begun_of_reachable (hs.views i)).contents
  have hsent : x ∈ (s.view i).sent := by
    rw [hbytes]
    exact List.mem_append_right _ hx
  have hall := List.mem_append_left (s.view i).client.left hsent
  rw [hcontents, List.mem_flatten] at hall
  obtain ⟨msg, hmsg, hx⟩ := hall
  rwa [List.eq_of_mem_replicate hmsg] at hx

theorem conns_update_ne {server : SelectLoop.State c.maxClients} {fd : ℕ} {x : Option Conn}
    (hbacklog : server.backlog = s.server.backlog)
    (hconns : server.conns = Function.update s.server.conns fd x) {w : Target}
    (hw : w ≠ .accepted fd) : server.conn w = s.server.conn w := by
  cases w with
  | waiting k => simp [SelectLoop.State.conn, hbacklog]
  | accepted fd' =>
    have hne : fd' ≠ fd := fun he => hw (by rw [he])
    simp [SelectLoop.State.conn, hconns, hne]

/-- A chunk is read from the connection that is scanned. -/
theorem read_shown (hzero : ∀ i, (0 : Byte) ∉ (cfg i).msg)
    (hline : ∀ i, (cfg i).lineSize = maxPacketSize) (hs : Linked cfg s)
    (hpc : s.server.pc = .scan j) (hconn : s.server.conns (s.server.clients j) = some conn)
    (hk : 0 < k) (hmax : k ≤ maxPacketSize) (hle : k ≤ conn.inbox.length)
    (ht : t.server = { s.server with
      conns := Function.update s.server.conns (s.server.clients j)
        (some { conn with inbox := conn.inbox.drop k })
      events := .read (s.server.clients j) :: s.server.events
      pc := .echo j (cstr (conn.inbox.take k)) })
    (hsockets : t.sockets = s.sockets) :
    ∃ i, (s.sockets i).link = .up (.accepted (s.server.clients j)) ∧
      Touches s t i (.accepted (s.server.clients j)) ∧
      TcpEcho.step (cfg i) (s.view i) (.serverRead k) = some (t.view i) ∧ Linked cfg t := by
  have hopen : conn.isOpen = true := by
    by_contra hclosed
    have hnil := hs.orphan (.accepted (s.server.clients j)) conn hconn
      (Bool.eq_false_iff.mpr hclosed)
    rw [hnil, List.length_nil] at hle
    omega
  obtain ⟨i, hi⟩ := hs.owned (.accepted (s.server.clients j)) conn hconn hopen
  have hbefore : ∀ j left, s.server.pc ≠ .echo j left := by simp [hpc]
  have hview : (s.view i).toServer = conn.inbox := by
    show (s.conn i).inbox = _
    rw [conn_of_up hi hconn]
  have hstr : cstr (conn.inbox.take k) = conn.inbox.take k := by
    rw [EchoBuffer.cstr_eq_iff]
    intro h0
    apply hzero i
    apply mem_msg_of_toServer hs
    rw [hview]
    exact List.mem_of_mem_take h0
  rw [hstr] at ht
  have hpc' : t.server.pc = .echo j (conn.inbox.take k) := by rw [ht]
  have hclients : t.server.clients = s.server.clients := by rw [ht]
  have htconn : t.server.conn (.accepted (s.server.clients j)) =
      some { conn with inbox := conn.inbox.drop k } := by
    simp [SelectLoop.State.conn, ht]
  have htouch : Touches s t i (.accepted (s.server.clients j)) := by
    constructor
    case link => exact hi
    case links => simp [hsockets]
    case sockets => simp [hsockets]
    case conn => exact fun w' hw => conns_update_ne (by rw [ht]) (by rw [ht]) hw
    case held =>
      intro w' hw
      rw [held_eq_nil hbefore, held_echo_ne hpc' (by rwa [hclients])]
  have hlink : (t.sockets i).link = .up (.accepted (s.server.clients j)) := by rw [hsockets, hi]
  have hheld : t.held i = conn.inbox.take k := by
    rw [held_of_up hlink, ← hclients, held_echo hpc']
  have hstep : TcpEcho.step (cfg i) (s.view i) (.serverRead k) = some (t.view i) := by
    have hnil : (s.view i).held = [] := by
      show s.held i = _
      rw [held_of_up hi, held_eq_nil hbefore]
    simp only [TcpEcho.step]
    rw [if_pos ⟨hnil, hk, by rwa [hline], by rwa [hview]⟩]
    simp only [State.view, hsockets, hheld, conn_of_up hi hconn, conn_of_up hlink htconn]
  have hlinked : Linked cfg t := by
    obtain ⟨x, hx, _, hreceived⟩ := hs.up i _ hi
    have hxc : x = conn := Option.some.inj (hx.symm.trans hconn)
    apply htouch.linked hs (htouch.shown hs hstep) htconn hopen
    · rw [hsockets]
      exact hxc ▸ hreceived
    · intro j' left he
      rw [hpc'] at he
      cases he
      refine ⟨?_, i, by rw [hclients]; exact hi⟩
      rw [← List.length_pos_iff, List.length_take]
      omega
  exact ⟨i, hi, htouch, hstep, hlinked⟩

/-- A part of the chunk is sent back. -/
theorem send_shown (hs : Linked cfg s) (hpc : s.server.pc = .echo j left) (hk : 0 < k)
    (hle : k ≤ left.length) (hfits : Fits cfg s (.send k))
    (ht : t.server = { s.server with
      conns := Function.update s.server.conns (s.server.clients j)
        ((s.server.conns (s.server.clients j)).map
          (fun conn => { conn with outbox := conn.outbox ++ left.take k }))
      events := .sent (s.server.clients j) :: s.server.events
      pc := if left.drop k = [] then scanFrom _ (j.val + 1) else .echo j (left.drop k) })
    (hsockets : t.sockets = s.sockets) :
    ∃ i, (s.sockets i).link = .up (.accepted (s.server.clients j)) ∧
      Touches s t i (.accepted (s.server.clients j)) ∧
      TcpEcho.step (cfg i) (s.view i) (.serverWrite k) = some (t.view i) ∧ Linked cfg t := by
  obtain ⟨hleft, i, hi⟩ := hs.echoing j left hpc
  obtain ⟨conn, hconn, hopen, hreceived⟩ := hs.up i _ hi
  have hconn' : s.server.conns (s.server.clients j) = some conn := hconn
  rw [hconn', Option.map_some] at ht
  have hclients : t.server.clients = s.server.clients := by rw [ht]
  have htconn : t.server.conn (.accepted (s.server.clients j)) =
      some { conn with outbox := conn.outbox ++ left.take k } := by
    simp [SelectLoop.State.conn, ht]
  have hheld : ∀ w, t.server.held w =
      if w = .accepted (s.server.clients j) then left.drop k else [] := by
    intro w
    by_cases hdrop : left.drop k = []
    · have hafter : ∀ j left, t.server.pc ≠ .echo j left := by
        intro j' left'
        rw [ht, hdrop, if_pos rfl]
        exact scanFrom_ne_echo j' left'
      rw [held_eq_nil hafter, hdrop, ite_self]
    · have hpc' : t.server.pc = .echo j (left.drop k) := by
        rw [ht]
        exact if_neg hdrop
      split_ifs with hw
      · rw [hw, ← hclients, held_echo hpc']
      · exact held_echo_ne hpc' (by rwa [hclients])
  have htouch : Touches s t i (.accepted (s.server.clients j)) := by
    constructor
    case link => exact hi
    case links => simp [hsockets]
    case sockets => simp [hsockets]
    case conn => exact fun w' hw => conns_update_ne (by rw [ht]) (by rw [ht]) hw
    case held =>
      intro w' hw
      rw [hheld, if_neg hw, held_echo_ne hpc hw]
  have hlink : (t.sockets i).link = .up (.accepted (s.server.clients j)) := by rw [hsockets, hi]
  have hsheld : s.held i = left := by rw [held_of_up hi, held_echo hpc]
  have htheld : t.held i = left.drop k := by rw [held_of_up hlink, hheld, if_pos rfl]
  have hstep : TcpEcho.step (cfg i) (s.view i) (.serverWrite k) = some (t.view i) := by
    have hroom := hfits i (by rwa [hsheld])
    have hlen : k ≤ (s.view i).held.length := by
      show k ≤ (s.held i).length
      rwa [hsheld]
    simp only [TcpEcho.step]
    rw [if_pos ⟨hk, hlen, hroom⟩]
    simp only [State.view, hsockets, hsheld, htheld, conn_of_up hi hconn, conn_of_up hlink htconn,
      List.drop_append_of_le_length hreceived]
  have hlinked : Linked cfg t := by
    apply htouch.linked hs (htouch.shown hs hstep) htconn hopen
    · rw [hsockets, List.length_append]
      omega
    · intro j' left' he
      rw [ht] at he
      dsimp only at he
      split_ifs at he with hdrop
      · exact absurd he (scanFrom_ne_echo j' left')
      · cases he
        exact ⟨hdrop, i, by rw [hclients]; exact hi⟩
  exact ⟨i, hi, htouch, hstep, hlinked⟩

/-- The server closes a connection that its client has closed: no socket has it. -/
theorem eof_linked (hs : Linked cfg s) (hpc : s.server.pc = .scan j)
    (hconn : s.server.conns (s.server.clients j) = some conn) (hopen : conn.isOpen = false)
    (ht : t.server = { s.server with
      conns := Function.update s.server.conns (s.server.clients j) none
      clients := Function.update s.server.clients j 0
      events := .closed (s.server.clients j) :: .read (s.server.clients j) :: s.server.events
      pc := scanFrom _ (j.val + 1) })
    (hsockets : t.sockets = s.sockets) : (∀ i, t.view i = s.view i) ∧ Linked cfg t := by
  have hbefore : ∀ j left, s.server.pc ≠ .echo j left := by simp [hpc]
  have hafter : ∀ j left, t.server.pc ≠ .echo j left := by
    rw [ht]
    exact scanFrom_ne_echo
  have hne : ∀ i w, (s.sockets i).link = .up w → w ≠ .accepted (s.server.clients j) := by
    rintro i w hup rfl
    obtain ⟨x, hx, hxopen, _⟩ := hs.up i _ hup
    rw [Option.some.inj (hx.symm.trans hconn), hopen] at hxopen
    cases hxopen
  have hkeep : ∀ w, w ≠ .accepted (s.server.clients j) → t.server.conn w = s.server.conn w :=
    fun w hw => conns_update_ne (by rw [ht]) (by rw [ht]) hw
  have hgone : t.server.conn (.accepted (s.server.clients j)) = none := by
    simp [SelectLoop.State.conn, ht]
  have hviews : ∀ i, t.view i = s.view i := by
    intro i
    apply view_eq_of_up (by rw [hsockets]) (fun w hup => hkeep w (hne i w hup))
    intro w _
    rw [held_eq_nil hbefore, held_eq_nil hafter]
  refine ⟨hviews, ?_⟩
  constructor
  case unopened =>
    rw [hsockets]
    exact hs.unopened
  case up =>
    intro i w hup
    rw [hsockets] at hup ⊢
    rw [hkeep w (hne i w hup)]
    exact hs.up i w hup
  case distinct =>
    rw [hsockets]
    exact hs.distinct
  case owned =>
    intro w x hx
    have hw : w ≠ .accepted (s.server.clients j) := by
      rintro rfl
      rw [hgone] at hx
      cases hx
    rw [hkeep w hw] at hx
    rw [hsockets]
    exact hs.owned w x hx
  case orphan =>
    intro w x hx
    have hw : w ≠ .accepted (s.server.clients j) := by
      rintro rfl
      rw [hgone] at hx
      cases hx
    rw [hkeep w hw] at hx
    exact hs.orphan w x hx
  case echoing => exact fun j' left he => absurd he (hafter j' left)
  case views => exact fun i => hviews i ▸ hs.views i

end Calls

section Client

variable {i : Fin N} {w : Target} {act : TcpEcho.Action} {u v : TcpEcho.State}

/-- A client writes behind what is in the stream, and reads from the front of the other. -/
theorem ofClient_effect {d : TcpEcho.Config} (hact : act.ofClient)
    (h : TcpEcho.step d u act = some v) : v.held = u.held ∧
      (∃ bytes, v.toServer = u.toServer ++ bytes) ∧
      ∃ k ≤ u.toClient.length, v.received = u.received ++ u.toClient.take k ∧
        v.toClient = u.toClient.drop k := by
  cases act with
  | send =>
    simp only [TcpEcho.step] at h
    split_ifs at h
    rw [← Option.some.inj h]
    exact ⟨rfl, ⟨[], by simp⟩, 0, Nat.zero_le _, by simp, by simp⟩
  | clientWrite k =>
    simp only [TcpEcho.step] at h
    split at h
    · split_ifs at h
      all_goals
        rw [← Option.some.inj h]
        exact ⟨rfl, ⟨_, rfl⟩, 0, Nat.zero_le _, by simp, by simp⟩
    · cases h
  | clientRead k =>
    simp only [TcpEcho.step] at h
    split_ifs at h with hg
    all_goals
      rw [← Option.some.inj h]
      exact ⟨rfl, ⟨[], by simp⟩, k, hg.2.2.2, rfl, rfl⟩
  | serverRead k => exact hact.elim
  | serverWrite k => exact hact.elim

theorem held_congr {server server' : SelectLoop.State c.maxClients} (hpc : server'.pc = server.pc)
    (hclients : server'.clients = server.clients) (w : Target) :
    server'.held w = server.held w := by
  cases w with
  | waiting k => rfl
  | accepted fd => simp only [SelectLoop.State.held, hpc, hclients]

theorem client_shown (hs : Linked cfg s) (hlink : (s.sockets i).link = .up w)
    (hact : act.ofClient) (hv : TcpEcho.step (cfg i) (s.view i) act = some v)
    (hserver : SelectLoop.step c s.server
      (.clientSend w (v.toServer.drop (s.view i).toServer.length)) = some t.server)
    (hsockets : t.sockets = Function.update s.sockets i (.ofView (.up w) v)) :
    Touches s t i w ∧ t.view i = v ∧ Linked cfg t := by
  obtain ⟨conn, hconn, hopen, htconn, hothers, ht⟩ := SelectLoop.onConn_cases hserver
  have hpc : t.server.pc = s.server.pc := by rw [ht]
  have hclients : t.server.clients = s.server.clients := by rw [ht]
  obtain ⟨hheld, ⟨bytes, hbytes⟩, k, hk, hreceived, hclient⟩ := ofClient_effect hact hv
  have hself : t.sockets i = .ofView (.up w) v := by rw [hsockets, Function.update_self]
  have hsock : ∀ j ≠ i, t.sockets j = s.sockets j := by
    intro j hj
    rw [hsockets, Function.update_of_ne hj]
  have hlink' : (t.sockets i).link = .up w := by rw [hself]; rfl
  have htouch : Touches s t i w := by
    constructor
    case link => exact hlink
    case links =>
      intro j
      by_cases hj : j = i
      · rw [hj, hlink', hlink]
      · rw [hsock j hj]
    case sockets => exact hsock
    case conn => exact hothers
    case held => exact fun w' _ => held_congr hpc hclients w'
  obtain ⟨x, hx, _, hle⟩ := hs.up i w hlink
  have hxc : x = conn := Option.some.inj (hx.symm.trans hconn)
  rw [hxc] at hle
  have hback : (s.view i).toClient = conn.outbox.drop (s.sockets i).received.length := by
    show (s.conn i).outbox.drop _ = _
    rw [conn_of_up hlink hconn]
  have hlen : v.received.length = (s.sockets i).received.length + k := by
    rw [hreceived, List.length_append, List.length_take, min_eq_left hk]
    rfl
  have hview : t.view i = v := by
    have hinbox : (t.conn i).inbox = v.toServer := by
      rw [conn_of_up hlink' htconn]
      show conn.inbox ++ _ = _
      have hold : (s.view i).toServer = conn.inbox := by
        show (s.conn i).inbox = _
        rw [conn_of_up hlink hconn]
      rw [hbytes, List.drop_left, hold]
    have houtbox : (t.conn i).outbox = conn.outbox := by rw [conn_of_up hlink' htconn]
    have hheld' : t.held i = v.held := by
      rw [hheld, held_of_up hlink', held_congr hpc hclients]
      exact (held_of_up hlink).symm
    unfold State.view
    rw [hself]
    simp only [Socket.ofView, hinbox, houtbox, hheld']
    rw [hlen, ← List.drop_drop, ← hback, ← hclient]
  rw [hback, List.length_drop] at hk
  refine ⟨htouch, hview, htouch.linked hs (htouch.shown hs (hview ▸ hv)) htconn hopen ?_ ?_⟩
  · rw [hself]
    show v.received.length ≤ conn.outbox.length
    omega
  · rw [hpc, hclients]
    exact hs.echoing

/-- A step that concerns socket `i` and the connection `w`: the others, to which `w` does not
belong, are left alone. -/
structure Apart (s t : State N c.maxClients) (i : Fin N) (w : Target) : Prop where
  sockets : ∀ j ≠ i, t.sockets j = s.sockets j
  conn : ∀ w' ≠ w, t.server.conn w' = s.server.conn w'
  others : ∀ j ≠ i, ∀ w', (s.sockets j).link = .up w' → w' ≠ w
  pc : t.server.pc = s.server.pc
  clients : t.server.clients = s.server.clients

theorem Apart.views (h : Apart s t i w) (hview : t.view i = s.view i) (j : Fin N) :
    t.view j = s.view j := by
  by_cases hj : j = i
  · exact hj ▸ hview
  · exact view_eq_of_up (h.sockets j hj) (fun w' hup => h.conn w' (h.others j hj w' hup))
      (fun w' _ => held_congr h.pc h.clients w')

theorem Apart.up (h : Apart s t i w) {j : Fin N} (hj : j ≠ i) {w' : Target}
    (hup : (t.sockets j).link = .up w') : (s.sockets j).link = .up w' ∧ w' ≠ w := by
  rw [h.sockets j hj] at hup
  exact ⟨hup, h.others j hj w' hup⟩

/-- It is enough to look at the socket and the connection that are concerned. -/
theorem Apart.linked (h : Apart s t i w) (hs : Linked cfg s) (hview : t.view i = s.view i)
    (hbefore : ∀ w', (s.sockets i).link = .up w' → w' = w) (hheld : s.held i = [])
    (hopened : (t.sockets i).link ≠ .unopened)
    (hafter : ∀ w', (t.sockets i).link = .up w' → w' = w ∧ ∃ conn, t.server.conn w = some conn ∧
      conn.isOpen = true ∧ (t.sockets i).received.length ≤ conn.outbox.length)
    (howned : ∀ conn, t.server.conn w = some conn → conn.isOpen = true →
      (t.sockets i).link = .up w)
    (horphan : ∀ conn, t.server.conn w = some conn → conn.isOpen = false → conn.inbox = []) :
    Linked cfg t where
  unopened := by
    intro j hj
    have hji : j ≠ i := by
      rintro rfl
      exact hopened hj
    rw [h.sockets j hji] at hj ⊢
    exact hs.unopened j hj
  up := by
    intro j w' hj
    by_cases hji : j = i
    · subst j
      obtain ⟨rfl, hconn⟩ := hafter w' hj
      exact hconn
    · obtain ⟨hup, hne⟩ := h.up hji hj
      rw [h.sockets j hji, h.conn w' hne]
      exact hs.up j w' hup
  distinct := by
    intro j k w' hj hk
    by_cases hji : j = i <;> by_cases hki : k = i
    · rw [hji, hki]
    · subst j
      exact absurd (hafter w' hj).1 (h.up hki hk).2
    · subst k
      exact absurd (hafter w' hk).1 (h.up hji hj).2
    · exact hs.distinct j k w' (h.up hji hj).1 (h.up hki hk).1
  owned := by
    intro w' x hx hopen
    by_cases hw : w' = w
    · subst w'
      exact ⟨i, howned x hx hopen⟩
    · rw [h.conn w' hw] at hx
      obtain ⟨j, hj⟩ := hs.owned w' x hx hopen
      have hji : j ≠ i := by
        rintro rfl
        exact hw (hbefore w' hj)
      exact ⟨j, by rw [h.sockets j hji, hj]⟩
  orphan := by
    intro w' x hx hclosed
    by_cases hw : w' = w
    · subst w'
      exact horphan x hx hclosed
    · rw [h.conn w' hw] at hx
      exact hs.orphan w' x hx hclosed
  echoing := by
    intro j left he
    rw [h.pc] at he
    obtain ⟨hleft, k, hk⟩ := hs.echoing j left he
    have hki : k ≠ i := by
      rintro rfl
      apply hleft
      rw [← held_echo he, ← held_of_up hk, hheld]
    exact ⟨hleft, k, by rw [h.clients, h.sockets k hki, hk]⟩
  views := fun j => h.views hview j ▸ hs.views j

theorem connect_apart (hs : Linked cfg s)
    (hserver : SelectLoop.step c s.server .connect = some t.server)
    (hsockets : t.sockets = Function.update s.sockets i
      { s.sockets i with link := .up (.waiting s.server.backlog.length) }) :
    Apart s t i (.waiting s.server.backlog.length) := by
  have ht := SelectLoop.connect_eq hserver
  constructor
  case sockets =>
    intro j hj
    rw [hsockets, Function.update_of_ne hj]
  case conn =>
    intro w hw
    cases w with
    | waiting k =>
      have hne : k ≠ s.server.backlog.length := fun he => hw (by rw [he])
      rw [SelectLoop.State.conn, ht]
      by_cases hk : k < s.server.backlog.length
      · exact List.getElem?_append_left hk
      · rw [List.getElem?_eq_none (by simp; omega), SelectLoop.State.conn,
          List.getElem?_eq_none (by omega)]
    | accepted fd => simp [SelectLoop.State.conn, ht]
  case others =>
    rintro j - w hup rfl
    obtain ⟨x, hx, _⟩ := hs.up j _ hup
    simp [SelectLoop.State.conn] at hx
  case pc => rw [ht]
  case clients => rw [ht]

theorem connect_linked (hs : Linked cfg s) (hlink : (s.sockets i).link = .unopened)
    (hserver : SelectLoop.step c s.server .connect = some t.server)
    (hsockets : t.sockets = Function.update s.sockets i
      { s.sockets i with link := .up (.waiting s.server.backlog.length) }) :
    (∀ j, t.view j = s.view j) ∧ Linked cfg t := by
  have hapart := connect_apart hs hserver hsockets
  have hself : t.sockets i =
      { s.sockets i with link := .up (.waiting s.server.backlog.length) } := by
    rw [hsockets, Function.update_self]
  have hup : (t.sockets i).link = .up (.waiting s.server.backlog.length) := by rw [hself]
  have hnew : t.server.conn (.waiting s.server.backlog.length) = some ⟨true, [], []⟩ := by
    simp [SelectLoop.State.conn, SelectLoop.connect_eq hserver]
  have hheld : s.held i = [] := by simp [State.held, hlink]
  have hview : t.view i = s.view i := by
    unfold State.view
    rw [conn_of_up hup hnew, held_of_up hup, hself]
    simp [State.conn, hlink, hheld, SelectLoop.State.held]
  refine ⟨hapart.views hview, hapart.linked hs hview ?_ hheld (by simp [hup]) ?_ ?_ ?_⟩
  · intro w' hw'
    rw [hlink] at hw'
    cases hw'
  · intro w' hw'
    rw [hup] at hw'
    cases hw'
    exact ⟨rfl, _, hnew, rfl, by rw [hself, hs.unopened i hlink]⟩
  · exact fun _ _ _ => hup
  · intro conn hconn hclosed
    rw [hnew] at hconn
    cases hconn
    cases hclosed

theorem close_apart (hs : Linked cfg s) (hlink : (s.sockets i).link = .up w)
    (hserver : SelectLoop.step c s.server (.clientClose w) = some t.server)
    (hsockets : t.sockets = Function.update s.sockets i { s.sockets i with link := .closed }) :
    Apart s t i w ∧ ∃ conn, s.server.conn w = some conn ∧
      t.server.conn w = some { conn with isOpen := false } := by
  obtain ⟨server, hon, hserver⟩ := Option.map_eq_some_iff.mp hserver
  obtain ⟨conn, hconn, _, htconn, hothers, hon⟩ := SelectLoop.onConn_cases hon
  have ht : t.server = { server with clientOpen := server.clientOpen - 1 } := hserver.symm
  have hsame : ∀ w', t.server.conn w' = server.conn w' := by
    intro w'
    cases w' <;> simp [SelectLoop.State.conn, ht]
  refine ⟨?_, conn, hconn, (hsame w).trans htconn⟩
  constructor
  case sockets =>
    intro j hj
    rw [hsockets, Function.update_of_ne hj]
  case conn => exact fun w' hw' => (hsame w').trans (hothers w' hw')
  case others =>
    rintro j hj w' hup rfl
    exact hj (hs.distinct j i w' hup hlink)
  case pc => rw [ht, hon]
  case clients => rw [ht, hon]

/-- When a client is through with a socket there is nothing left on its way. -/
theorem close_linked (hs : Linked cfg s) (hlink : (s.sockets i).link = .up w)
    (hthrough : (s.view i).Through (cfg i).numMsgs)
    (hserver : SelectLoop.step c s.server (.clientClose w) = some t.server)
    (hsockets : t.sockets = Function.update s.sockets i { s.sockets i with link := .closed }) :
    (∀ j, t.view j = s.view j) ∧ Linked cfg t := by
  have hfinished := TcpEcho.finished_of_top (hs.views i) hthrough.1 hthrough.2
  obtain ⟨hapart, conn, hconn, htconn⟩ := close_apart hs hlink hserver hsockets
  have hself : t.sockets i = { s.sockets i with link := .closed } := by
    rw [hsockets, Function.update_self]
  have hinbox : conn.inbox = [] := by
    have h := hfinished.toServer
    rwa [State.view, conn_of_up hlink hconn] at h
  have hback : conn.outbox.drop (s.sockets i).received.length = [] := by
    have h := hfinished.toClient
    rwa [State.view, conn_of_up hlink hconn] at h
  have hheld : s.held i = [] := hfinished.held
  have hview : t.view i = s.view i := by
    unfold State.view
    rw [conn_of_up hlink hconn, hheld, hself, hback, hinbox]
    simp [State.conn, State.held, hself]
  refine ⟨hapart.views hview, hapart.linked hs hview ?_ hheld (by simp [hself]) ?_ ?_ ?_⟩
  · intro w' hw'
    rw [hlink] at hw'
    cases hw'
    rfl
  · intro w' hw'
    rw [hself] at hw'
    cases hw'
  · intro x hx hopen
    rw [htconn] at hx
    cases hx
    cases hopen
  · intro x hx _
    rw [htconn] at hx
    cases hx
    exact hinbox

end Client

end Steps

section Refinement

/-- Calls that move no bytes: the descriptor set, the scan, and what ends the server. -/
def isQuiet : SelectLoop.Action → Bool
  | .select _ | .selectFail | .skip | .acceptFail | .readFail => true
  | _ => false

theorem quiet_of_step (act : SelectLoop.Action) {u v : SelectLoop.State c.maxClients}
    (hact : isQuiet act) (h : SelectLoop.step c u act = some v) : Quiet u v := by
  cases act with
  | select ready =>
    obtain ⟨hpc, _, rfl⟩ := SelectLoop.select_cases h
    exact ⟨rfl, rfl, by simp [hpc], by simp⟩
  | selectFail =>
    simp only [SelectLoop.step] at h
    split_ifs at h with hpc
    rw [← Option.some.inj h]
    exact ⟨rfl, rfl, by simp [hpc], by simp⟩
  | skip =>
    rcases SelectLoop.skip_cases h with ⟨hpc, _, rfl⟩ | ⟨i, hpc, _, rfl⟩
    · exact ⟨rfl, rfl, by simp [hpc], scanFrom_ne_echo⟩
    · exact ⟨rfl, rfl, by simp [hpc], scanFrom_ne_echo⟩
  | acceptFail =>
    simp only [SelectLoop.step] at h
    split_ifs at h with hif
    rw [← Option.some.inj h]
    exact ⟨rfl, rfl, by simp [hif.1], by simp⟩
  | readFail =>
    obtain ⟨i, hpc, _, rfl⟩ := SelectLoop.readFail_cases h
    exact ⟨rfl, rfl, by simp [hpc], by simp⟩
  | _ => cases hact

/-- A failed send loses what the server has read. -/
def NoSendFails (_ : State N c.maxClients) : Action N → Prop
  | .server .sendFail => False
  | _ => True

instance (s : State N c.maxClients) (act : Action N) : Decidable (NoSendFails s act) :=
  match act with
  | .server .sendFail => isFalse id
  | .connect _ | .client _ _ | .close _ => isTrue trivial
  | .server .connect | .server (.clientSend _ _) | .server (.clientClose _)
  | .server (.select _) | .server .selectFail | .server .skip | .server (.accept _)
  | .server .acceptFail | .server (.read _) | .server .readFail | .server (.send _)
  | .server (.sendNone _) => isTrue trivial

theorem linked_init : Linked cfg (system c cfg).init where
  unopened _ _ := rfl
  up := by
    intro i w h
    cases h
  distinct := by
    intro i j w h
    cases h
  owned := by
    intro w conn h
    cases w <;> cases h
  orphan := by
    intro w conn h
    cases w <;> cases h
  echoing := by
    intro j left h
    cases h
  views _ := Machine.reachableBy_init

theorem connect_step {i : Fin N} (h : step c cfg s (.connect i) = some t) :
    (s.sockets i).link = .unopened ∧ SelectLoop.step c s.server .connect = some t.server ∧
      t.sockets = Function.update s.sockets i
        { s.sockets i with link := .up (.waiting s.server.backlog.length) } := by
  simp only [step] at h
  split_ifs at h with hlink
  obtain ⟨server, hserver, rfl⟩ := Option.map_eq_some_iff.mp h
  exact ⟨hlink, hserver, rfl⟩

theorem client_step {i : Fin N} {act : TcpEcho.Action}
    (h : step c cfg s (.client i act) = some t) :
    ∃ w v, (s.sockets i).link = .up w ∧ act.ofClient ∧
      TcpEcho.step (cfg i) (s.view i) act = some v ∧
      SelectLoop.step c s.server
        (.clientSend w (v.toServer.drop (s.view i).toServer.length)) = some t.server ∧
      t.sockets = Function.update s.sockets i (.ofView (.up w) v) := by
  simp only [step] at h
  split at h
  · rename_i w hlink
    split_ifs at h with hact
    obtain ⟨v, hv, h⟩ := Option.bind_eq_some_iff.mp h
    obtain ⟨server, hserver, rfl⟩ := Option.map_eq_some_iff.mp h
    exact ⟨w, v, hlink, hact, hv, hserver, rfl⟩
  · cases h

theorem close_step {i : Fin N} (h : step c cfg s (.close i) = some t) :
    ∃ w, (s.sockets i).link = .up w ∧ (s.view i).Through (cfg i).numMsgs ∧
      SelectLoop.step c s.server (.clientClose w) = some t.server ∧
      t.sockets = Function.update s.sockets i { s.sockets i with link := .closed } := by
  simp only [step] at h
  split at h
  · rename_i w hlink
    split_ifs at h with hthrough
    obtain ⟨server, hserver, rfl⟩ := Option.map_eq_some_iff.mp h
    exact ⟨w, hlink, hthrough, hserver, rfl⟩
  · cases h

theorem server_step {act : SelectLoop.Action} (h : step c cfg s (.server act) = some t) :
    ofServer act = true ∧ Fits cfg s act ∧ SelectLoop.step c s.server act = some t.server ∧
      ∀ i, t.sockets i =
        { s.sockets i with link := (s.sockets i).link.afterCall act } := by
  simp only [step] at h
  split_ifs at h with hif
  obtain ⟨server, hserver, rfl⟩ := Option.map_eq_some_iff.mp h
  exact ⟨hif.1, hif.2, hserver, fun _ => rfl⟩

theorem sockets_eq {act : SelectLoop.Action} (hact : ∀ fd, act ≠ .accept fd)
    (h : ∀ i, t.sockets i = { s.sockets i with link := (s.sockets i).link.afterCall act }) :
    t.sockets = s.sockets := by
  funext i
  rw [h]
  cases act with
  | accept fd => exact absurd rfl (hact fd)
  | _ => rfl

theorem server_shown (hzero : ∀ i, (0 : Byte) ∉ (cfg i).msg)
    (hline : ∀ i, (cfg i).lineSize = maxPacketSize) (hs : Linked cfg s)
    {act : SelectLoop.Action} (hok : NoSendFails s (.server act))
    (h : step c cfg s (.server act) = some t) : Shown cfg s t ∧ Linked cfg t := by
  obtain ⟨hserver, hfits, hstep, hsockets⟩ := server_step h
  by_cases hquiet : isQuiet act = true
  · have hsame : t.sockets = s.sockets := by
      apply sockets_eq _ hsockets
      rintro fd rfl
      cases hquiet
    have hq := quiet_of_step act hquiet hstep
    exact ⟨.inl (fun i => hq.shown hsame i), hq.linked hsame hs⟩
  · cases act with
    | accept fd => exact ⟨.inl (accept_shown hs hstep hsockets), accept_linked hs hstep hsockets⟩
    | read k =>
      have hsame := sockets_eq (by simp) hsockets
      obtain ⟨j, conn, hpc, hconn, _, hread⟩ := SelectLoop.read_cases hstep
      rcases hread with ⟨hk, hmax, hle, ht⟩ | ⟨_, _, hopen, ht⟩
      · obtain ⟨i, _, htouch, hview, hlinked⟩ :=
          read_shown hzero hline hs hpc hconn hk hmax hle ht hsame
        exact ⟨htouch.shown hs hview, hlinked⟩
      · obtain ⟨hviews, hlinked⟩ := eof_linked hs hpc hconn hopen ht hsame
        exact ⟨.inl hviews, hlinked⟩
    | send k =>
      have hsame := sockets_eq (by simp) hsockets
      obtain ⟨j, left, hpc, hk, hle, ht⟩ := SelectLoop.send_cases hstep
      obtain ⟨i, _, htouch, hview, hlinked⟩ := send_shown hs hpc hk hle hfits ht hsame
      exact ⟨htouch.shown hs hview, hlinked⟩
    | sendNone minusOne =>
      simp only [SelectLoop.step] at hstep
      split at hstep
      · rename_i j hpc
        exact absurd rfl (hs.echoing j [] hpc).1
      · cases hstep
    | sendFail => exact hok.elim
    | connect => cases hserver
    | clientSend w bytes => cases hserver
    | clientClose w => cases hserver
    | _ => exact absurd rfl hquiet

theorem step_shown (hzero : ∀ i, (0 : Byte) ∉ (cfg i).msg)
    (hline : ∀ i, (cfg i).lineSize = maxPacketSize) (hs : Linked cfg s) {act : Action N}
    (hok : NoSendFails s act) (h : (system c cfg).step s act = some t) :
    Shown cfg s t ∧ Linked cfg t := by
  change step c cfg s act = some t at h
  cases act with
  | connect i =>
    obtain ⟨hlink, hserver, hsockets⟩ := connect_step h
    obtain ⟨hviews, hlinked⟩ := connect_linked hs hlink hserver hsockets
    exact ⟨.inl hviews, hlinked⟩
  | client i act =>
    obtain ⟨w, v, hlink, hact, hv, hserver, hsockets⟩ := client_step h
    obtain ⟨htouch, hview, hlinked⟩ := client_shown hs hlink hact hv hserver hsockets
    exact ⟨htouch.shown hs (hview ▸ hv), hlinked⟩
  | close i =>
    obtain ⟨w, hlink, hthrough, hserver, hsockets⟩ := close_step h
    obtain ⟨hviews, hlinked⟩ := close_linked hs hlink hthrough hserver hsockets
    exact ⟨.inl hviews, hlinked⟩
  | server act => exact server_shown hzero hline hs hok h

theorem linked_of_reachable (hzero : ∀ i, (0 : Byte) ∉ (cfg i).msg)
    (hline : ∀ i, (cfg i).lineSize = maxPacketSize)
    (h : (system c cfg).ReachableBy NoSendFails s) : Linked cfg s :=
  h.invariant linked_init (fun _ _ _ hs hok hst => (step_shown hzero hline hs hok hst).2)

/-- Over the select loop a socket sees what it would see of a handler of its own: every
interleaving of the one thread and the clients is one of handlers side by side. -/
theorem select_refines_handlers (hzero : ∀ i, (0 : Byte) ∉ (cfg i).msg)
    (hline : ∀ i, (cfg i).lineSize = maxPacketSize)
    (h : (system c cfg).ReachableBy NoSendFails s) :
    (Machine.family (fun i => TcpEcho.system (cfg i))).Reachable s.view := by
  apply Machine.ReachableBy.project (f := State.view) _ _ h
  · rfl
  · intro u act v hu hok hst
    have hlinked := linked_of_reachable hzero hline hu
    rcases (step_shown hzero hline hlinked hok hst).1 with hsame | ⟨i, b, _, hstep, hothers⟩
    · exact .inl (funext hsame)
    · refine .inr ⟨⟨i, b⟩, trivial, ?_⟩
      refine (Machine.family_step hstep).trans (congrArg some ?_)
      funext j
      by_cases hj : j = i
      · subst j
        rw [Function.update_self]
      · rw [Function.update_of_ne hj, hothers j hj]

/-- Two sockets that send the bytes 1 to 3. -/
def twoSockets (_ : Fin 2) : TcpEcho.Config :=
  { TcpEcho.threeBytes with lineSize := maxPacketSize, lineSize_pos := maxPacketSize_pos }

def firstSocket : Fin 2 := ⟨0, Nat.two_pos⟩

def secondSocket : Fin 2 := ⟨1, Nat.one_lt_two⟩

/-- The second socket is accepted and writes while the first one's bytes are sent back. -/
def crossing : List (Action 2) :=
  [.connect firstSocket, .connect secondSocket, .client firstSocket .send,
      .client firstSocket (.clientWrite 2), .server (.select [3]), .server (.accept 4)] ++
    List.replicate 10 (.server .skip) ++
    [.server (.select [3, 4]), .server (.accept 5), .server (.read 2), .server (.send 1),
      .client secondSocket .send, .client secondSocket (.clientWrite 3),
      .client firstSocket (.clientWrite 1)]

theorem select_refines_handlers_crossing : ∃ s : State 2 SelectLoop.tenClients.maxClients,
    (s.view firstSocket).held = [2] ∧ (s.view secondSocket).toServer = [1, 2, 3] ∧
      (Machine.family (fun i => TcpEcho.system (twoSockets i))).Reachable s.view := by
  have hexec : ((system SelectLoop.tenClients twoSockets).exec NoSendFails
      (system SelectLoop.tenClients twoSockets).init crossing).map
        (fun s => ((s.view firstSocket).held, (s.view secondSocket).toServer)) =
      some ([2], [1, 2, 3]) := by
    decide +kernel
  obtain ⟨s, hs, hval⟩ := Option.map_eq_some_iff.mp hexec
  obtain ⟨hheld, hserver⟩ := Prod.mk.inj hval
  exact ⟨s, hheld, hserver, select_refines_handlers (by decide) (fun _ => rfl)
    ⟨_, Machine.run_of_exec hs⟩⟩

end Refinement

end InfinibandWorkshop.SelectClients
