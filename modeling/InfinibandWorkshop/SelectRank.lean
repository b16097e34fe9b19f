import InfinibandWorkshop.SelectRunning

/-!
# How long a round over the select loop can take

Every step gets a byte or a socket on, or the scan nearer to something that it has to do: an
iteration in which nothing happens is not possible while `select` reports what is there.
-/
namespace InfinibandWorkshop.SelectClients
open SelectLoop (Target storeClient scanFrom)
open scoped BigOperators

variable {N : ℕ} {c : SelectLoop.Config} {cfg : Fin N → TcpEcho.Config}
  {s t : State N c.maxClients}

variable {i : Fin N} {act : Action N} {server server' : SelectLoop.State c.maxClients}

/-- What the server has read from a connection. -/
def reads (v : TcpEcho.State) : ℕ := v.received.length + v.toClient.length + v.held.length

def chunk : TcpEcho.Action → ℕ
  | .serverRead k => k
  | _ => 0

theorem reads_of_step {d : TcpEcho.Config} {u v : TcpEcho.State} {act : TcpEcho.Action}
    (h : TcpEcho.step d u act = some v) : reads v = reads u + chunk act := by
  cases act with
  | serverRead k =>
    simp only [TcpEcho.step] at h
    split_ifs at h with hg
    rw [← Option.some.inj h]
    simp only [reads, chunk, hg.1, List.length_nil, List.length_take]
    omega
  | serverWrite k =>
    simp only [TcpEcho.step] at h
    split_ifs at h with hg
    rw [← Option.some.inj h]
    simp only [reads, chunk, List.length_append, List.length_take, List.length_drop]
    omega
  | clientRead k =>
    simp only [TcpEcho.step] at h
    split_ifs at h with hg
    all_goals
      rw [← Option.some.inj h]
      simp only [reads, chunk, List.length_append, List.length_take, List.length_drop]
      omega
  | send =>
    simp only [TcpEcho.step] at h
    split_ifs at h
    rw [← Option.some.inj h]
    rfl
  | clientWrite k =>
    simp only [TcpEcho.step] at h
    split at h
    · split_ifs at h
      all_goals
        rw [← Option.some.inj h]
        rfl
    · cases h

def Link.stage : Link → ℕ
  | .unopened => 0
  | .up _ => 1
  | .closed => 2

@[simp] theorem Link.stage_unopened : Link.unopened.stage = 0 := rfl

@[simp] theorem Link.stage_up (w : Target) : (Link.up w).stage = 1 := rfl

@[simp] theorem Link.stage_closed : Link.closed.stage = 2 := rfl

/-- How far the iteration has got. One in which something has been done gives back what an
iteration costs. -/
def scanRank (server : SelectLoop.State c.maxClients) : ℕ :=
  match server.pc with
  | .collect => c.maxClients + 2
  | .listener => c.maxClients + 3
  | .scan j | .echo j _ => if server.events = [] then c.maxClients + 4 + j else 2 + j
  | .stopped _ => 0

/-- The clients' steps, and for all that the server does an iteration each. -/
def rank (s : State N c.maxClients) : ℕ :=
  ∑ i, TcpEcho.rank (s.view i) + ∑ i, (s.sockets i).link.stage +
    (c.maxClients + 3) * (∑ i, reads (s.view i) + 2 * ∑ i, (s.sockets i).link.isAccepted +
      emptySlots s.server.clients) + scanRank s.server

theorem scanRank_congr (hpc : server'.pc = server.pc) (hevents : server'.events = server.events) :
    scanRank server' = scanRank server := by
  simp only [scanRank, hpc, hevents]

theorem scanRank_scanFrom {k : ℕ} (hpc : server.pc = scanFrom _ k) (hk : k ≤ c.maxClients)
    (hevents : server.events ≠ []) : scanRank server = 2 + k := by
  rcases scanFrom_cases c.maxClients k with ⟨_, he⟩ | ⟨hle, he⟩
  · simp only [scanRank, hpc, he, if_neg hevents]
  · simp only [scanRank, hpc, he]
    omega

theorem scanRank_le (server : SelectLoop.State c.maxClients) :
    scanRank server ≤ 2 * c.maxClients + 3 := by
  unfold scanRank
  split
  · omega
  · omega
  · rename_i j _
    have hj := j.isLt
    split_ifs <;> omega
  · rename_i j _ _
    have hj := j.isLt
    split_ifs <;> omega
  · omega

theorem rank_connect (hs : Running cfg s) (h : step c cfg s (.connect i) = some t) :
    rank s < rank t := by
  obtain ⟨hlink, hserver, hsockets⟩ := connect_step h
  obtain ⟨hviews, _⟩ := connect_linked hs.linked hlink hserver hsockets
  have ht := SelectLoop.connect_eq hserver
  have hself : (t.sockets i).link = .up (.waiting s.server.backlog.length) := by
    rw [hsockets, Function.update_self]
  have hothers : ∀ j ≠ i, (t.sockets j).link = (s.sockets j).link := by
    intro j hj
    rw [hsockets, Function.update_of_ne hj]
  have hstage := sum_link Link.stage hothers
  have haccepted := sum_link Link.isAccepted hothers
  simp only [hlink, hself, Link.stage_unopened, Link.stage_up] at hstage
  simp only [hlink, hself, Link.isAccepted_unopened, Link.isAccepted_waiting, Nat.add_zero]
    at haccepted
  have hscan : scanRank t.server = scanRank s.server := by
    apply scanRank_congr <;> rw [ht]
  have hclients : t.server.clients = s.server.clients := by rw [ht]
  simp only [rank, hviews, haccepted, hscan, hclients]
  omega

theorem rank_client {act : TcpEcho.Action} (hs : Running cfg s)
    (h : step c cfg s (.client i act) = some t) : rank s < rank t := by
  obtain ⟨w, v, hlink, hact, hv, hserver, hsockets⟩ := client_step h
  obtain ⟨htouch, hview, _⟩ := client_shown hs.linked hlink hact hv hserver hsockets
  obtain ⟨_, _, _, _, _, ht⟩ := SelectLoop.onConn_cases hserver
  have hothers : ∀ j ≠ i, t.view j = s.view j := fun j hj => htouch.view_of_ne hs.linked hj
  have hsteps := sum_view TcpEcho.rank hothers
  have hreads := sum_view reads hothers
  have hlt := TcpEcho.rank_lt hv
  have heq := reads_of_step hv
  have hzero : chunk act = 0 := by
    cases act with
    | serverRead k => exact hact.elim
    | _ => rfl
  rw [hview] at hsteps hreads
  have hsame : ∑ j, reads (t.view j) = ∑ j, reads (s.view j) := by omega
  have hscan : scanRank t.server = scanRank s.server := by
    apply scanRank_congr <;> rw [ht]
  have hclients : t.server.clients = s.server.clients := by rw [ht]
  simp only [rank, hsame, htouch.links, hscan, hclients]
  omega

theorem rank_close (hs : Running cfg s) (hsuited : Suited c cfg)
    (h : step c cfg s (.close i) = some t) : rank s < rank t := by
  obtain ⟨w, hlink, hthrough, hserver, hsockets⟩ := close_step h
  obtain ⟨hviews, _⟩ := close_linked hs.linked hlink hthrough hserver hsockets
  obtain ⟨fd, rfl⟩ := hs.accepted_of_through hsuited hlink hthrough
  obtain ⟨server, hon, hclose⟩ := Option.map_eq_some_iff.mp hserver
  obtain ⟨_, _, _, _, _, ht⟩ := SelectLoop.onConn_cases hon
  have hself : (t.sockets i).link = .closed := by rw [hsockets, Function.update_self]
  have hothers : ∀ j ≠ i, (t.sockets j).link = (s.sockets j).link := by
    intro j hj
    rw [hsockets, Function.update_of_ne hj]
  have hstage := sum_link Link.stage hothers
  have haccepted := sum_link Link.isAccepted hothers
  simp only [hlink, hself, Link.stage_up, Link.stage_closed] at hstage
  simp only [hlink, hself, Link.isAccepted_accepted, Link.isAccepted_closed,
    Nat.add_right_cancel_iff] at haccepted
  have hscan : scanRank t.server = scanRank s.server := by
    rw [← hclose]
    apply scanRank_congr <;> rw [ht]
  have hclients : t.server.clients = s.server.clients := by rw [← hclose, ht]
  simp only [rank, hviews, haccepted, hscan, hclients]
  omega

/-- Calls that move no bytes and change no link. -/
theorem rank_of_scan (hviews : ∀ i, t.view i = s.view i) (hsockets : t.sockets = s.sockets)
    (hclients : t.server.clients = s.server.clients)
    (hscan : scanRank s.server < scanRank t.server) : rank s < rank t := by
  simp only [rank, hviews, hsockets, hclients]
  omega

theorem rank_select {ready : List ℕ} (h : step c cfg s (.server (.select ready)) = some t) :
    rank s < rank t := by
  obtain ⟨_, _, hstep, hsockets⟩ := server_step h
  have hsame := sockets_eq (by simp) hsockets
  have hviews := (quiet_of_step (.select ready) rfl hstep).shown hsame
  obtain ⟨hpc, _, ht⟩ := SelectLoop.select_cases hstep
  apply rank_of_scan hviews hsame (by rw [ht])
  simp only [scanRank, hpc, ht]
  omega

theorem rank_skip (hs : Running cfg s) (h : step c cfg s (.server .skip) = some t) :
    rank s < rank t := by
  obtain ⟨_, _, hstep, hsockets⟩ := server_step h
  have hsame := sockets_eq (by simp) hsockets
  have hviews := (quiet_of_step .skip rfl hstep).shown hsame
  rcases SelectLoop.skip_cases hstep with ⟨hpc, hset, ht⟩ | ⟨j, hpc, hset, ht⟩
  · -- something is in the set, so there is a slot
    have hevents := (hs.sound.before hpc).1
    obtain ⟨k, _⟩ := (hs.due.atListener hevents hpc).resolve_left hset
    have hk := k.isLt
    have hscan : scanFrom c.maxClients 0 = .scan ⟨0, by omega⟩ := dif_pos _
    apply rank_of_scan hviews hsame (by rw [ht])
    simp only [scanRank, hpc, ht, hscan, if_pos hevents]
    omega
  · apply rank_of_scan hviews hsame (by rw [ht])
    by_cases hevents : s.server.events = []
    · -- what is in the set is still ahead
      obtain ⟨k, hle, hmem⟩ := hs.due.atScan j hevents hpc
      have hne : k ≠ j := by
        rintro rfl
        exact hset hmem
      have hlt : j.val < k.val := lt_of_le_of_ne hle (fun he => hne (Fin.ext he.symm))
      have hk := k.isLt
      have hscan : scanFrom c.maxClients (j.val + 1) = .scan ⟨j.val + 1, by omega⟩ := dif_pos _
      simp only [scanRank, hpc, ht, hscan, if_pos hevents]
      omega
    · have hscan : scanRank t.server = 2 + (j.val + 1) := by
        apply scanRank_scanFrom
        · rw [ht]
        · exact j.isLt
        · rwa [ht]
      rw [hscan]
      simp only [scanRank, hpc, if_neg hevents]
      omega

theorem rank_accept {fd : ℕ} (hs : Running cfg s)
    (h : step c cfg s (.server (.accept fd)) = some t) : rank s < rank t := by
  obtain ⟨_, _, hstep, hsockets⟩ := server_step h
  have hviews := accept_shown hs.linked hstep hsockets
  obtain ⟨conn, rest, hpc, hbacklog, _, hpos, _, _, ht⟩ := SelectLoop.accept_cases hstep
  have haccepted := hs.sum_isAccepted (by simp [hbacklog]) fd
  have hempty := emptySlots_store s.server.clients hpos
  have hstage : ∀ j, (t.sockets j).link.stage = (s.sockets j).link.stage := by
    intro j
    rw [hsockets]
    cases hlink : (s.sockets j).link <;> rfl
  have hlinks : ∀ j, (t.sockets j).link = (s.sockets j).link.accept fd := by
    intro j
    rw [hsockets]
    rfl
  have hold : scanRank s.server = c.maxClients + 3 := by simp only [scanRank, hpc]
  have hnew : scanRank t.server = 2 := by
    apply scanRank_scanFrom (k := 0)
    · rw [ht]
    · exact Nat.zero_le _
    · rw [ht]
      exact List.cons_ne_nil _ _
  have hclients : t.server.clients = storeClient s.server.clients fd := by rw [ht]
  have hcost : (c.maxClients + 3) * (∑ i, reads (s.view i) +
        2 * ∑ i, (s.sockets i).link.isAccepted + emptySlots s.server.clients) +
      (c.maxClients + 3) ≤ (c.maxClients + 3) * (∑ i, reads (t.view i) +
        2 * ∑ i, (t.sockets i).link.isAccepted + emptySlots t.server.clients) := by
    rw [← Nat.mul_succ]
    apply Nat.mul_le_mul_left
    simp only [hviews, hlinks, haccepted, hclients]
    omega
  simp only [rank, hold, hnew]
  simp only [hviews, hstage] at hcost ⊢
  omega

theorem rank_send {k : ℕ} (hs : Running cfg s) (h : step c cfg s (.server (.send k)) = some t) :
    rank s < rank t := by
  obtain ⟨_, hfits, hstep, hsockets⟩ := server_step h
  have hsame := sockets_eq (by simp) hsockets
  obtain ⟨j, left, hpc, hk, hle, ht⟩ := SelectLoop.send_cases hstep
  obtain ⟨i, _, htouch, hview, _⟩ := send_shown hs.linked hpc hk hle hfits ht hsame
  have hothers : ∀ j ≠ i, t.view j = s.view j := fun j hj => htouch.view_of_ne hs.linked hj
  have hsteps := sum_view TcpEcho.rank hothers
  have hreads := sum_view reads hothers
  have hlt := TcpEcho.rank_lt hview
  have heq := reads_of_step hview
  have hzero : chunk (.serverWrite k) = 0 := rfl
  have hsum : ∑ j, reads (t.view j) = ∑ j, reads (s.view j) := by omega
  have hevents : s.server.events ≠ [] := by
    intro he
    have hlast := hs.sound.echo j left hpc
    rw [he] at hlast
    cases hlast
  have hold : scanRank s.server = 2 + j := by
    unfold scanRank
    rw [hpc]
    exact if_neg hevents
  have hnew : 2 + j.val ≤ scanRank t.server := by
    have hmore : t.server.events ≠ [] := by
      rw [ht]
      exact List.cons_ne_nil _ _
    by_cases hdrop : left.drop k = []
    · rw [scanRank_scanFrom (k := j.val + 1) (by rw [ht, hdrop, if_pos rfl]) j.isLt hmore]
      omega
    · have hpc' : t.server.pc = .echo j (left.drop k) := by
        rw [ht]
        exact if_neg hdrop
      simp only [scanRank, hpc', if_neg hmore, le_refl]
  have hclients : t.server.clients = s.server.clients := by rw [ht]
  simp only [rank, hsum, hsame, hclients, hold]
  omega

theorem rank_read {k : ℕ} (hs : Running cfg s) (hsuited : Suited c cfg)
    (h : step c cfg s (.server (.read k)) = some t) : rank s < rank t := by
  obtain ⟨_, _, hstep, hsockets⟩ := server_step h
  have hsame := sockets_eq (by simp) hsockets
  obtain ⟨j, conn, hpc, hconn, hset, hread⟩ := SelectLoop.read_cases hstep
  have hj := j.isLt
  have hold : scanRank s.server ≤ c.maxClients + 4 + j := by
    simp only [scanRank, hpc]
    split_ifs <;> omega
  rcases hread with ⟨hk, hmax, hle, ht⟩ | ⟨_, _, hopen, ht⟩
  · obtain ⟨i, _, htouch, hview, _⟩ := read_shown hsuited.zero hsuited.line hs.linked hpc hconn
      hk hmax hle ht hsame
    have hothers : ∀ j ≠ i, t.view j = s.view j := fun j hj => htouch.view_of_ne hs.linked hj
    have hsteps := sum_view TcpEcho.rank hothers
    have hreads := sum_view reads hothers
    have hlt := TcpEcho.rank_lt hview
    have heq := reads_of_step hview
    have hchunk : chunk (.serverRead k) = k := rfl
    have hnew : scanRank t.server = 2 + j := by
      simp only [scanRank, ht]
      exact if_neg (List.cons_ne_nil _ _)
    have hclients : t.server.clients = s.server.clients := by rw [ht]
    have hcost : (c.maxClients + 3) * (∑ i, reads (s.view i) +
          2 * ∑ i, (s.sockets i).link.isAccepted + emptySlots s.server.clients) +
        (c.maxClients + 3) ≤ (c.maxClients + 3) * (∑ i, reads (t.view i) +
          2 * ∑ i, (t.sockets i).link.isAccepted + emptySlots t.server.clients) := by
      rw [← Nat.mul_succ]
      apply Nat.mul_le_mul_left
      simp only [hsame, hclients]
      omega
    simp only [hsame] at hcost
    simp only [rank, hnew, hsame]
    omega
  · obtain ⟨hviews, _⟩ := eof_linked hs.linked hpc hconn hopen ht hsame
    have hne : s.server.clients j ≠ 0 := by
      intro hzero
      rw [hzero] at hset
      exact hs.sound.set hset
    have hempty := emptySlots_clear hne
    have hclients : t.server.clients = Function.update s.server.clients j 0 := by rw [ht]
    have hnew : scanRank t.server = 2 + (j.val + 1) := by
      apply scanRank_scanFrom
      · rw [ht]
      · exact hj
      · rw [ht]
        exact List.cons_ne_nil _ _
    simp only [rank, hviews, hsame, hclients, hempty, hnew, Nat.mul_add, Nat.mul_one]
    omega

theorem rank_climbs (hsuited : Suited c cfg) :
    (system c cfg).Climbs (InOrder cfg) rank := by
  intro s act t hr hok h
  have hs := running_of_reachable hsuited hr
  change step c cfg s act = some t at h
  cases act with
  | connect i => exact rank_connect hs h
  | client i act => exact rank_client hs h
  | close i => exact rank_close hs hsuited h
  | server act =>
    cases act with
    | select ready => exact rank_select h
    | skip => exact rank_skip hs h
    | accept fd => exact rank_accept hs h
    | read k => exact rank_read hs hsuited h
    | send k => exact rank_send hs h
    | sendNone minusOne =>
      obtain ⟨_, _, hstep, _⟩ := server_step h
      simp only [SelectLoop.step] at hstep
      split at hstep
      · rename_i j hpc
        exact absurd rfl (hs.linked.echoing j [] hpc).1
      · cases hstep
    | connect => cases (server_step h).1
    | clientSend w bytes => cases (server_step h).1
    | clientClose w => cases (server_step h).1
    | _ => exact hok.1.elim

/-- What the clients do, and an iteration for every byte read, every socket accepted and
closed, and every slot. -/
def stepBound (c : SelectLoop.Config) (cfg : Fin N → TcpEcho.Config) : ℕ :=
  ∑ i, (cfg i).numMsgs * (4 * (cfg i).msg.length + 1) + 2 * N +
    (c.maxClients + 3) * (∑ i, (cfg i).numMsgs * (cfg i).msg.length + 2 * N + c.maxClients) +
    (2 * c.maxClients + 3)

theorem rank_le (hs : Running cfg s) : rank s ≤ stepBound c cfg := by
  have hsteps : ∑ i, TcpEcho.rank (s.view i) ≤
      ∑ i, (cfg i).numMsgs * (4 * (cfg i).msg.length + 1) :=
    Finset.sum_le_sum (fun i _ => TcpEcho.rank_le (hs.linked.views i))
  have hreads : ∑ i, reads (s.view i) ≤ ∑ i, (cfg i).numMsgs * (cfg i).msg.length := by
    apply Finset.sum_le_sum
    intro i _
    have hlen := (TcpEcho.conserved_of_reachable (hs.linked.views i)).length
    have hsent := (TcpEcho.begun_of_reachable (hs.linked.views i)).sent_le
    rw [reads]
    omega
  have hstage : ∑ i, (s.sockets i).link.stage ≤ ∑ _i : Fin N, 2 :=
    Finset.sum_le_sum (fun i _ => by cases (s.sockets i).link <;> simp)
  have haccepted : ∑ i, (s.sockets i).link.isAccepted ≤ ∑ _i : Fin N, 1 :=
    Finset.sum_le_sum (fun i _ => by rcases (s.sockets i).link with _ | (_ | _) | _ <;> simp)
  rw [Finset.sum_const, Finset.card_univ, Fintype.card_fin, smul_eq_mul] at hstage haccepted
  have hempty := emptySlots_le s.server.clients
  have hscan := scanRank_le s.server
  have hcost : (c.maxClients + 3) * (∑ i, reads (s.view i) +
        2 * ∑ i, (s.sockets i).link.isAccepted + emptySlots s.server.clients) ≤
      (c.maxClients + 3) * (∑ i, (cfg i).numMsgs * (cfg i).msg.length + 2 * N +
        c.maxClients) := by
    apply Nat.mul_le_mul_left
    omega
  rw [rank, stepBound]
  omega

end InfinibandWorkshop.SelectClients
