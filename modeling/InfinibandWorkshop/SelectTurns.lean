import InfinibandWorkshop.SelectRefinement

/-!
# The client's loops and the scan of the select loop

MultiStreamTcpClient.cpp opens a socket, sends all its messages over it, opens the next one,
and closes them all when it is through. The server sees of this what `select` reports, and
what it has reported it finds when its scan gets there.
-/
namespace InfinibandWorkshop.SelectClients
open CText (Byte)
open SelectLoop (Conn Pc Target storeClient scanFrom)
open scoped BigOperators

variable {N : ℕ} {c : SelectLoop.Config} {cfg : Fin N → TcpEcho.Config}
  {s t : State N c.maxClients}

section Order

/-- A call for this descriptor returns at once. -/
def Ready (c : SelectLoop.Config) (server : SelectLoop.State c.maxClients) (fd : ℕ) : Prop :=
  (fd = c.lsd ∧ server.backlog ≠ []) ∨
    ∃ conn, server.conns fd = some conn ∧ (conn.inbox ≠ [] ∨ conn.isOpen = false)

/-- `select` waits for something to report, and no call fails. -/
def Serves (s : State N c.maxClients) : Action N → Prop
  | .server (.select ready) => ready ≠ [] ∧ ∀ fd ∈ ready, Ready c s.server fd
  | .server .selectFail | .server .acceptFail | .server .readFail | .server .sendFail => False
  | _ => True

/-- The client has opened socket `i` and is through with it. -/
def State.Past (cfg : Fin N → TcpEcho.Config) (s : State N c.maxClients) (i : Fin N) : Prop :=
  (s.sockets i).link ≠ .unopened ∧ (s.view i).Through (cfg i).numMsgs

/-- The two loops of `main` over the sockets. -/
def Turn (cfg : Fin N → TcpEcho.Config) (s : State N c.maxClients) : Action N → Prop
  | .connect i | .client i _ => ∀ j < i, s.Past cfg j
  | .close i => (∀ j, s.Past cfg j) ∧ ∀ j < i, (s.sockets j).link = .closed
  | .server _ => True

def InOrder (cfg : Fin N → TcpEcho.Config) (s : State N c.maxClients) (act : Action N) : Prop :=
  Serves s act ∧ Turn cfg s act

/-- The client is through, and the server has nothing open. -/
structure Over (cfg : Fin N → TcpEcho.Config) (s : State N c.maxClients) : Prop where
  finished : ∀ i, TcpEcho.Finished (cfg i) (s.view i)
  closed : ∀ i, (s.sockets i).link = .closed
  idle : { s.server with fds := [], reported := [], events := [] } = (SelectLoop.system c).init

end Order

section Counts

def Link.isUp : Link → ℕ
  | .up _ => 1
  | _ => 0

/-- Whether the connection has ever been in the table. -/
def Link.isAccepted : Link → ℕ
  | .unopened | .up (.waiting _) => 0
  | .up (.accepted _) | .closed => 1

@[simp] theorem Link.isUp_unopened : Link.unopened.isUp = 0 := rfl

@[simp] theorem Link.isUp_up (w : Target) : (Link.up w).isUp = 1 := rfl

@[simp] theorem Link.isUp_closed : Link.closed.isUp = 0 := rfl

@[simp] theorem Link.isAccepted_unopened : Link.unopened.isAccepted = 0 := rfl

@[simp] theorem Link.isAccepted_waiting (k : ℕ) : (Link.up (.waiting k)).isAccepted = 0 := rfl

@[simp] theorem Link.isAccepted_accepted (fd : ℕ) : (Link.up (.accepted fd)).isAccepted = 1 := rfl

@[simp] theorem Link.isAccepted_closed : Link.closed.isAccepted = 1 := rfl

def emptySlots {n : ℕ} (clients : Fin n → ℕ) : ℕ := ∑ j, if clients j = 0 then 1 else 0

/-- Sums that differ in one term. -/
theorem sum_change {n : ℕ} {f g : Fin n → ℕ} {i : Fin n} (h : ∀ j ≠ i, g j = f j) :
    ∑ j, g j + f i = ∑ j, f j + g i := by
  have hrest : ∑ j ∈ Finset.univ.erase i, g j = ∑ j ∈ Finset.univ.erase i, f j :=
    Finset.sum_congr rfl (fun j hj => h j (Finset.ne_of_mem_erase hj))
  rw [← Finset.add_sum_erase _ g (Finset.mem_univ i),
    ← Finset.add_sum_erase _ f (Finset.mem_univ i), hrest]
  omega

theorem sum_view {i : Fin N} (f : TcpEcho.State → ℕ) (hothers : ∀ j ≠ i, t.view j = s.view j) :
    ∑ j, f (t.view j) + f (s.view i) = ∑ j, f (s.view j) + f (t.view i) :=
  sum_change (f := fun j => f (s.view j)) (g := fun j => f (t.view j))
    (fun j hj => by rw [hothers j hj])

theorem sum_link {i : Fin N} (f : Link → ℕ)
    (hothers : ∀ j ≠ i, (t.sockets j).link = (s.sockets j).link) :
    ∑ j, f (t.sockets j).link + f (s.sockets i).link =
      ∑ j, f (s.sockets j).link + f (t.sockets i).link :=
  sum_change (f := fun j => f (s.sockets j).link) (g := fun j => f (t.sockets j).link)
    (fun j hj => by rw [hothers j hj])

variable {n fd : ℕ} {clients : Fin n → ℕ}

theorem emptySlots_update (clients : Fin n → ℕ) (fd : ℕ) (i : Fin n) :
    emptySlots (Function.update clients i fd) + (if clients i = 0 then 1 else 0) =
      emptySlots clients + if fd = 0 then 1 else 0 := by
  have hchange := sum_change (f := fun j => if clients j = 0 then 1 else 0)
    (g := fun j => if Function.update clients i fd j = 0 then 1 else 0) (i := i)
    (fun j hj => by rw [Function.update_of_ne hj])
  rwa [Function.update_self] at hchange

theorem emptySlots_store (clients : Fin n → ℕ) (hfd : 0 < fd) :
    emptySlots clients ≤ emptySlots (storeClient clients fd) + 1 := by
  by_cases hroom : ∃ j, clients j = 0
  · obtain ⟨i, hi, hstore⟩ := SelectLoop.storeClient_of_room fd hroom
    have hupdate := emptySlots_update clients fd i
    rw [if_pos hi, if_neg hfd.ne'] at hupdate
    rw [hstore]
    omega
  · rw [SelectLoop.storeClient_of_full fd hroom]
    exact Nat.le_succ _

theorem emptySlots_clear {i : Fin n} (hi : clients i ≠ 0) :
    emptySlots (Function.update clients i 0) = emptySlots clients + 1 := by
  have hupdate := emptySlots_update clients 0 i
  rwa [if_neg hi, if_pos rfl, Nat.add_zero] at hupdate

theorem exists_empty (h : 0 < emptySlots clients) : ∃ j, clients j = 0 := by
  by_contra hnone
  push Not at hnone
  have hzero : emptySlots clients = 0 := Finset.sum_eq_zero (fun j _ => if_neg (hnone j))
  omega

theorem emptySlots_le (clients : Fin n → ℕ) : emptySlots clients ≤ n := by
  have hle : emptySlots clients ≤ ∑ _j : Fin n, 1 :=
    Finset.sum_le_sum (fun j _ => by split_ifs <;> omega)
  simpa using hle

end Counts

section Due

/-- Where the scan has yet to come. -/
def Ahead {n : ℕ} : Pc n → Fin n → Prop
  | .listener, _ => True
  | .scan i, j => i ≤ j
  | .echo i _, j => i < j
  | _, _ => False

/-- A read returns: with bytes, or because the client has closed the connection. -/
def Waits (conn : Conn) : Prop := conn.inbox ≠ [] ∨ conn.isOpen = false

/-- What `select` has reported is still to be had, and an iteration in which nothing has
been done has something before it. -/
structure Due (server : SelectLoop.State c.maxClients) : Prop where
  listener : server.pc = .listener → c.lsd ∈ server.fds → server.conn (.waiting 0) ≠ none
  slots : ∀ j, Ahead server.pc j → server.clients j ∈ server.fds →
    ∃ conn, server.conn (.accepted (server.clients j)) = some conn ∧ Waits conn
  atListener : server.events = [] → server.pc = .listener →
    c.lsd ∈ server.fds ∨ ∃ j, server.clients j ∈ server.fds
  atScan : ∀ i, server.events = [] → server.pc = .scan i →
    ∃ j, i ≤ j ∧ server.clients j ∈ server.fds
  running : ∀ status, server.pc ≠ .stopped status

variable {u v : SelectLoop.State c.maxClients}

/-- Whatever clients do, a read that would return still does. -/
theorem Due.mono (h : Due u) (hpc : v.pc = u.pc) (hfds : v.fds = u.fds)
    (hclients : v.clients = u.clients) (hevents : v.events = u.events)
    (hconn : ∀ w x, u.conn w = some x → ∃ y, v.conn w = some y ∧ (Waits x → Waits y)) :
    Due v where
  listener := by
    rw [hpc, hfds]
    intro hl hset
    obtain ⟨x, hx⟩ := Option.ne_none_iff_exists'.mp (h.listener hl hset)
    obtain ⟨y, hy, _⟩ := hconn _ x hx
    simp [hy]
  slots := by
    rw [hpc, hfds, hclients]
    intro j hj hset
    obtain ⟨x, hx, hwaits⟩ := h.slots j hj hset
    obtain ⟨y, hy, himp⟩ := hconn _ x hx
    exact ⟨y, hy, himp hwaits⟩
  atListener := by
    rw [hpc, hfds, hclients, hevents]
    exact h.atListener
  atScan := by
    rw [hpc, hfds, hclients, hevents]
    exact h.atScan
  running := by
    rw [hpc]
    exact h.running

theorem scanFrom_cases (n k : ℕ) :
    (∃ h : k < n, scanFrom n k = .scan ⟨k, h⟩) ∨ (n ≤ k ∧ scanFrom n k = .collect) := by
  unfold scanFrom
  split_ifs with h
  · exact .inl ⟨h, rfl⟩
  · exact .inr ⟨not_lt.mp h, rfl⟩

theorem ahead_scanFrom {n k : ℕ} {j : Fin n} (h : Ahead (scanFrom n k) j) : k ≤ j := by
  rcases scanFrom_cases n k with ⟨hlt, he⟩ | ⟨_, he⟩
  · rw [he] at h
    exact h
  · rw [he] at h
    exact h.elim

theorem scanFrom_ne_stopped (n k : ℕ) (status : ℤ) : scanFrom n k ≠ .stopped status := by
  rcases scanFrom_cases n k with ⟨_, he⟩ | ⟨_, he⟩ <;> rw [he] <;> simp

/-- At the next slot after something has been done in this iteration. -/
theorem Due.scanned {k : ℕ} (hpc : v.pc = scanFrom _ k) (hevents : v.events ≠ [])
    (hslots : ∀ j, k ≤ j.val → v.clients j ∈ v.fds →
      ∃ conn, v.conn (.accepted (v.clients j)) = some conn ∧ Waits conn) : Due v where
  listener := by
    intro hl
    rw [hpc] at hl
    exact absurd hl (SelectLoop.between_scanFrom _ _).ne_listener
  slots := by
    intro j hj
    rw [hpc] at hj
    exact hslots j (ahead_scanFrom hj)
  atListener := fun he => absurd he hevents
  atScan := fun _ he => absurd he hevents
  running := by
    rw [hpc]
    exact scanFrom_ne_stopped _ _

/-- While something is sent back. -/
theorem Due.echoing {i : Fin c.maxClients} {left : List Byte} (hpc : v.pc = .echo i left)
    (hslots : ∀ j, i < j → v.clients j ∈ v.fds →
      ∃ conn, v.conn (.accepted (v.clients j)) = some conn ∧ Waits conn) : Due v where
  listener := by simp [hpc]
  slots := by
    rw [hpc]
    exact hslots
  atListener := by simp [hpc]
  atScan := by simp [hpc]
  running := by simp [hpc]

theorem Due.select {ready : List ℕ} (hs : SelectLoop.Sound u) (hlsd : c.lsd ∉ u.opened)
    (hready : ready ≠ [] ∧ ∀ fd ∈ ready, Ready c u fd)
    (h : SelectLoop.step c u (.select ready) = some v) : Due v := by
  obtain ⟨_, hsub, rfl⟩ := SelectLoop.select_cases h
  obtain ⟨hne, hready⟩ := hready
  constructor
  case listener =>
    intro _ hset
    rcases hready _ hset with ⟨_, hbacklog⟩ | ⟨conn, hconn, _⟩
    · simpa [SelectLoop.State.conn] using hbacklog
    · exact absurd (SelectLoop.mem_opened.mpr ⟨conn, hconn⟩) hlsd
  case slots =>
    intro j _ hset
    rcases hready _ hset with ⟨he, _⟩ | ⟨conn, hconn, hwaits⟩
    · -- the listener is in no slot
      have hmem := hs.table.mem j (by rw [he]; exact c.lsd_pos.ne')
      rw [he] at hmem
      exact absurd hmem hlsd
    · exact ⟨conn, hconn, hwaits⟩
  case atListener =>
    intro _ _
    obtain ⟨fd, hfd⟩ := List.exists_mem_of_ne_nil ready hne
    rcases SelectLoop.mem_watched.mp (hsub hfd) with he | ⟨_, j, he⟩
    · exact .inl (he ▸ hfd)
    · exact .inr ⟨j, he.symm ▸ hfd⟩
  case atScan => simp
  case running => simp

theorem Due.skip (hd : Due u) (h : SelectLoop.step c u .skip = some v) : Due v := by
  rcases SelectLoop.skip_cases h with ⟨hpc, hset, rfl⟩ | ⟨i, hpc, hset, rfl⟩
  · constructor
    case listener => exact fun hl => absurd hl (SelectLoop.between_scanFrom _ _).ne_listener
    case slots => exact fun j _ hj => hd.slots j (by rw [hpc]; trivial) hj
    case atListener =>
      exact fun _ hl => absurd hl (SelectLoop.between_scanFrom _ _).ne_listener
    case atScan =>
      intro i hevents hi
      obtain ⟨j, hj⟩ := (hd.atListener hevents hpc).resolve_left hset
      refine ⟨j, ?_, hj⟩
      rcases scanFrom_cases c.maxClients 0 with ⟨_, he⟩ | ⟨_, he⟩
      · rw [he] at hi
        cases hi
        exact Fin.le_def.mpr (Nat.zero_le _)
      · rw [he] at hi
        cases hi
    case running => exact scanFrom_ne_stopped _ _
  · constructor
    case listener => exact fun hl => absurd hl (SelectLoop.between_scanFrom _ _).ne_listener
    case slots =>
      intro j hj hmem
      have hle := ahead_scanFrom hj
      exact hd.slots j (by rw [hpc]; exact Fin.le_def.mpr (by omega)) hmem
    case atListener =>
      exact fun _ hl => absurd hl (SelectLoop.between_scanFrom _ _).ne_listener
    case atScan =>
      intro i' hevents hi'
      obtain ⟨j, hle, hj⟩ := hd.atScan i hevents hpc
      have hne : j ≠ i := by
        rintro rfl
        exact hset hj
      have hlt : i.val < j.val := lt_of_le_of_ne hle (fun he => hne (Fin.ext he.symm))
      refine ⟨j, ?_, hj⟩
      rcases scanFrom_cases c.maxClients (i.val + 1) with ⟨_, he⟩ | ⟨_, he⟩
      · rw [he] at hi'
        cases hi'
        exact Fin.le_def.mpr hlt
      · rw [he] at hi'
        cases hi'
    case running => exact scanFrom_ne_stopped _ _

theorem Due.accept (hd : Due u) (hs : SelectLoop.Sound u) {fd : ℕ}
    (h : SelectLoop.step c u (.accept fd) = some v) : Due v := by
  have hv : SelectLoop.Sound v := hs.step (a := .accept fd) h
  obtain ⟨conn, rest, hpc, hbacklog, _, hpos, _, hfresh, rfl⟩ := SelectLoop.accept_cases h
  -- the new descriptor is not in the set
  have hnew : fd ∉ u.fds := hv.accepted fd (List.mem_cons_self ..)
  apply Due.scanned rfl (List.cons_ne_nil _ _)
  intro j _ hset
  dsimp only at hset ⊢
  have hold : storeClient u.clients fd j = u.clients j := by
    by_cases hroom : ∃ i, u.clients i = 0
    · obtain ⟨i, _, hstore⟩ := SelectLoop.storeClient_of_room fd hroom
      rw [hstore] at hset ⊢
      by_cases hj : j = i
      · rw [hj, Function.update_self] at hset
        exact absurd hset hnew
      · rw [Function.update_of_ne hj]
    · rw [SelectLoop.storeClient_of_full fd hroom]
  rw [hold] at hset ⊢
  obtain ⟨x, hx, hwaits⟩ := hd.slots j (by rw [hpc]; trivial) hset
  refine ⟨x, ?_, hwaits⟩
  have hne : u.clients j ≠ fd := by
    intro he
    rw [he] at hset
    exact hnew hset
  simpa [SelectLoop.State.conn, Function.update_of_ne hne] using hx

/-- No other slot has the descriptor that is in this one. -/
theorem clients_ne (hs : SelectLoop.Sound u) {i j : Fin c.maxClients} (hij : j ≠ i)
    (hset : u.clients j ∈ u.fds) : u.clients j ≠ u.clients i := by
  intro he
  have hne : u.clients j ≠ 0 := by
    intro hzero
    rw [hzero] at hset
    exact hs.set hset
  exact hij (hs.table.distinct j i hne he)

theorem Due.read (hd : Due u) (hs : SelectLoop.Sound u) {k : ℕ}
    (h : SelectLoop.step c u (.read k) = some v) : Due v := by
  obtain ⟨i, conn, hpc, _, _, hread⟩ := SelectLoop.read_cases h
  rcases hread with ⟨_, _, _, rfl⟩ | ⟨_, _, _, rfl⟩
  · apply Due.echoing rfl
    intro j hij hset
    obtain ⟨x, hx, hwaits⟩ := hd.slots j (by rw [hpc]; exact hij.le) hset
    refine ⟨x, ?_, hwaits⟩
    simpa [SelectLoop.State.conn, Function.update_of_ne (clients_ne hs hij.ne' hset)] using hx
  · apply Due.scanned rfl (List.cons_ne_nil _ _)
    intro j hij hset
    have hne : j ≠ i := by
      rintro rfl
      omega
    dsimp only at hset ⊢
    rw [Function.update_of_ne hne] at hset ⊢
    obtain ⟨x, hx, hwaits⟩ := hd.slots j (by rw [hpc]; exact Fin.le_def.mpr (by omega)) hset
    refine ⟨x, ?_, hwaits⟩
    simpa [SelectLoop.State.conn, Function.update_of_ne (clients_ne hs hne hset)] using hx

theorem Due.send (hd : Due u) (hs : SelectLoop.Sound u) {k : ℕ}
    (h : SelectLoop.step c u (.send k) = some v) : Due v := by
  obtain ⟨i, left, hpc, _, _, hv⟩ := SelectLoop.send_cases h
  have hslots : ∀ j, i < j → v.clients j ∈ v.fds →
      ∃ conn, v.conn (.accepted (v.clients j)) = some conn ∧ Waits conn := by
    intro j hij hset
    rw [hv] at hset ⊢
    obtain ⟨x, hx, hwaits⟩ := hd.slots j (by rw [hpc]; exact hij) hset
    refine ⟨x, ?_, hwaits⟩
    simpa [SelectLoop.State.conn, Function.update_of_ne (clients_ne hs hij.ne' hset)] using hx
  by_cases hdrop : left.drop k = []
  · apply Due.scanned (k := i.val + 1)
    · rw [hv, hdrop, if_pos rfl]
    · rw [hv]
      exact List.cons_ne_nil _ _
    · exact fun j hij => hslots j (Fin.lt_def.mpr hij)
  · have hpc' : v.pc = .echo i (left.drop k) := by
      rw [hv]
      exact if_neg hdrop
    exact Due.echoing hpc' hslots

end Due


end InfinibandWorkshop.SelectClients
