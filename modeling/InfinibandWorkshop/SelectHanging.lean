import InfinibandWorkshop.SelectProgress

/-!
# A round over the select loop that hangs

What the first socket and a handler of its own can do, the socket and the select loop can do
as well, while the others are not opened yet. So where the former hang, so does the round.
-/
namespace InfinibandWorkshop.SelectClients
open CText (cstr)
open SelectLoop (storeClient scanFrom watched)

variable {N : ℕ} {c : SelectLoop.Config} {cfg : Fin N → TcpEcho.Config}
  {s t : State N c.maxClients}

variable {i : Fin N} {j : Fin c.maxClients} {a b k m : ℕ}

/-- A call of the server that may be made. -/
theorem reach_server (act : SelectLoop.Action) {v : SelectLoop.State c.maxClients}
    (hr : (system c cfg).ReachableBy (InOrder cfg) s) (hserver : ofServer act = true)
    (hserves : Serves s (.server act)) (hfits : Fits cfg s act)
    (h : SelectLoop.step c s.server act = some v) :
    ∃ t, (system c cfg).ReachableBy (InOrder cfg) t ∧ t.server = v ∧
      ∀ i, t.sockets i = { s.sockets i with link := (s.sockets i).link.afterCall act } := by
  refine ⟨⟨v, _⟩, hr.next (a := .server act) ⟨hserves, trivial⟩ ?_, rfl, fun _ => rfl⟩
  simp only [system, step, h]
  rw [if_pos ⟨hserver, hfits⟩, Option.map_some]

/-- The state when the scan has come to slot `m`. -/
def State.scanned (s : State N c.maxClients) (m : ℕ) : State N c.maxClients :=
  { s with server := { s.server with pc := scanFrom _ m } }

theorem eq_scanned (hserver : t.server = (s.scanned m).server)
    (hsockets : ∀ i, t.sockets i = s.sockets i) : t = s.scanned m := by
  obtain ⟨server, sockets⟩ := t
  rw [State.scanned, State.mk.injEq]
  exact ⟨hserver, funext hsockets⟩

/-- Slots that are not in the set are passed over. -/
theorem reachable_scanned (hr : (system c cfg).ReachableBy (InOrder cfg) (s.scanned k))
    (hkm : k ≤ m) (hm : m ≤ c.maxClients)
    (hout : ∀ l : Fin c.maxClients, k ≤ l → l < m → s.server.clients l ∉ s.server.fds) :
    (system c cfg).ReachableBy (InOrder cfg) (s.scanned m) := by
  induction m, hkm using Nat.le_induction with
  | base => exact hr
  | succ m hkm ih =>
    have hprev := ih (by omega) (fun l hl hlm => hout l hl (by omega))
    have hscan : scanFrom c.maxClients m = .scan ⟨m, by omega⟩ := dif_pos _
    have hset := hout ⟨m, by omega⟩ hkm (Nat.lt_succ_self m)
    have hskip : SelectLoop.step c (s.scanned m).server .skip =
        some (s.scanned (m + 1)).server := by
      simp only [SelectLoop.step, State.scanned, hscan]
      rw [if_neg hset]
    obtain ⟨t, ht, hserver, hsockets⟩ := reach_server .skip hprev rfl trivial trivial hskip
    have he : t = s.scanned (m + 1) := eq_scanned hserver hsockets
    exact he ▸ ht

theorem view_scanned (h : s.server.pc = scanFrom _ k) (i : Fin N) :
    (s.scanned m).view i = s.view i := by
  apply view_eq_of_up (s := s) (t := s.scanned m) rfl
  · intro w _
    cases w <;> rfl
  · have hafter : ∀ j left, (s.scanned m).server.pc ≠ .echo j left := scanFrom_ne_echo
    intro w _
    rw [held_eq_nil hafter, held_eq_nil (by rw [h]; exact scanFrom_ne_echo)]

theorem scanned_self (h : s.server.pc = scanFrom _ k) : s.scanned k = s := by
  obtain ⟨server, sockets⟩ := s
  obtain ⟨pc, clients, fds, reported, events, conns, backlog, clientOpen⟩ := server
  simp only at h
  simp only [State.scanned, h]

/-- Socket `i` is alone with the server and has slot `j`. -/
structure Parked (s : State N c.maxClients) (i : Fin N) (j : Fin c.maxClients) : Prop where
  link : (s.sockets i).link = .up (.accepted (s.server.clients j))
  alone : ∀ k ≠ j, s.server.clients k = 0
  pc : s.server.pc = .collect ∨ ∃ left, s.server.pc = .echo j left

theorem scanFrom_all (n : ℕ) : scanFrom n n = .collect := dif_neg (lt_irrefl n)

/-- The server goes back to `select` when it is done with the only slot in use. -/
theorem reach_collect (hr : (system c cfg).ReachableBy (InOrder cfg) s)
    (hpc : s.server.pc = scanFrom _ k) (hk : k ≤ c.maxClients)
    (hout : ∀ l : Fin c.maxClients, k ≤ l → s.server.clients l ∉ s.server.fds) :
    ∃ t, (system c cfg).ReachableBy (InOrder cfg) t ∧ t.server.pc = .collect ∧
      t.server.clients = s.server.clients ∧ t.sockets = s.sockets ∧
      ∀ i, t.view i = s.view i := by
  refine ⟨s.scanned c.maxClients, ?_, scanFrom_all _, rfl, rfl, view_scanned hpc⟩
  apply reachable_scanned (k := k) _ hk le_rfl (fun l hl _ => hout l hl)
  rwa [scanned_self hpc]

/-- The first socket is connected, before the server has taken notice. -/
theorem exists_waiting (c : SelectLoop.Config) (cfg : Fin N → TcpEcho.Config)
    (hi : ∀ k, ¬ k < i) :
    ∃ s, (system c cfg).ReachableBy (InOrder cfg) s ∧
      (s.sockets i).link = .up (.waiting 0) ∧ s.server.backlog = [⟨true, [], []⟩] ∧
      s.server.pc = .collect ∧ (∀ k, s.server.clients k = 0) ∧ (∀ fd, s.server.conns fd = none) ∧
      s.view i = (TcpEcho.system (cfg i)).init := by
  obtain ⟨s, hs⟩ : ∃ s, step c cfg (system c cfg).init (.connect i) = some s := by
    simp [step, system, SelectLoop.step]
  obtain ⟨hlink, hserver, hsockets⟩ := connect_step hs
  obtain ⟨hviews, _⟩ := connect_linked (linked_init : Linked cfg _) hlink hserver hsockets
  have ht := SelectLoop.connect_eq hserver
  have hr : (system c cfg).ReachableBy (InOrder cfg) s :=
    Machine.reachableBy_init.next (a := .connect i) ⟨trivial, fun k hk => absurd hk (hi k)⟩ hs
  exact ⟨s, hr, by rw [hsockets, Function.update_self]; rfl, by rw [ht]; rfl, by rw [ht]; rfl,
    fun k => by rw [ht]; rfl, fun fd => by rw [ht]; rfl, hviews i⟩

theorem exists_parked (hsuited : Suited c cfg) (hi : ∀ k, ¬ k < i) :
    ∃ s j, (system c cfg).ReachableBy (InOrder cfg) s ∧ Parked s i j ∧
      s.view i = (TcpEcho.system (cfg i)).init := by
  obtain ⟨s, hr, hlink, hbacklog, hpc, hclients, hconns, hview⟩ := exists_waiting c cfg hi
  have hpos : 0 < c.maxClients := lt_of_lt_of_le i.pos hsuited.le
  -- the listener is reported
  have hserves : Serves s (.server (.select [c.lsd])) :=
    ⟨List.cons_ne_nil _ _, by simp [Ready, hbacklog]⟩
  have hselect : SelectLoop.step c s.server (.select [c.lsd]) =
      some { s.server with fds := [c.lsd], reported := [c.lsd], events := [], pc := .listener } :=
    if_pos ⟨hpc, by simp [watched]⟩
  obtain ⟨u, hu, huserver, husockets⟩ :=
    reach_server (.select [c.lsd]) hr rfl hserves trivial hselect
  have husame := sockets_eq (by simp) husockets
  have huview : u.view i = s.view i := by
    apply (quiet_of_step (.select [c.lsd]) rfl _).shown husame
    rw [huserver, hselect]
  -- and the connection accepted
  have hroom : ∃ k, s.server.clients k = 0 := ⟨⟨0, hpos⟩, hclients _⟩
  obtain ⟨j, _, hstore⟩ := SelectLoop.storeClient_of_room (c.lsd + 1) hroom
  have haccept : SelectLoop.step c u.server (.accept (c.lsd + 1)) = some { u.server with
      clients := storeClient u.server.clients (c.lsd + 1)
      conns := Function.update u.server.conns (c.lsd + 1) (some ⟨true, [], []⟩)
      backlog := []
      events := .accepted (c.lsd + 1) :: u.server.events
      pc := scanFrom _ 0 } := by
    rw [huserver]
    simp only [SelectLoop.step, hbacklog]
    rw [if_pos ⟨List.mem_singleton_self _, Nat.succ_pos _, Nat.succ_ne_self _, hconns _⟩]
  obtain ⟨v, hv, hvserver, hvsockets⟩ :=
    reach_server (.accept (c.lsd + 1)) hu rfl trivial trivial haccept
  have hvview : v.view i = u.view i := by
    have hlinked := (running_of_reachable hsuited hu).linked
    exact accept_shown hlinked (by rw [haccept, hvserver]) hvsockets i
  have hvclients : v.server.clients = Function.update s.server.clients j (c.lsd + 1) := by
    rw [hvserver, ← hstore, huserver]
  have hout : ∀ l : Fin c.maxClients, 0 ≤ l.val → v.server.clients l ∉ v.server.fds := by
    intro l _
    have hfds : v.server.fds = [c.lsd] := by rw [hvserver, huserver]
    have hlsd := c.lsd_pos
    rw [hfds, hvclients, List.mem_singleton]
    by_cases hl : l = j
    · rw [hl, Function.update_self]
      omega
    · rw [Function.update_of_ne hl, hclients]
      omega
  obtain ⟨t, ht, htpc, htclients, htsockets, htview⟩ :=
    reach_collect hv (by rw [hvserver]) (Nat.zero_le _) hout
  refine ⟨t, j, ht, ⟨?_, ?_, .inl htpc⟩, by rw [htview, hvview, huview, hview]⟩
  · rw [htsockets, hvsockets, husame, hlink, htclients, hvclients, Function.update_self]
    rfl
  · intro l hl
    rw [htclients, hvclients, Function.update_of_ne hl, hclients]

variable {v : TcpEcho.State}

theorem follow_client (act : TcpEcho.Action) (hsuited : Suited c cfg)
    (hr : (system c cfg).ReachableBy (InOrder cfg) s) (hp : Parked s i j) (hact : act.ofClient)
    (h : TcpEcho.step (cfg i) (s.view i) act = some v) :
    ∃ t, (system c cfg).ReachableBy (InOrder cfg) t ∧ Parked t i j ∧ t.view i = v := by
  have hs := running_of_reachable hsuited hr
  obtain ⟨t, ht⟩ := exists_client_step hs.linked hp.link hact h
  have hok : InOrder cfg s (.client i act) := ⟨trivial, hs.order i (by simp [hp.link])⟩
  obtain ⟨w, v', hlink, _, hv, hserver, hsockets⟩ := client_step ht
  obtain ⟨htouch, hview, _⟩ := client_shown hs.linked hlink hact hv hserver hsockets
  obtain ⟨_, _, _, _, _, heq⟩ := SelectLoop.onConn_cases hserver
  have hclients : t.server.clients = s.server.clients := by rw [heq]
  have hpc : t.server.pc = s.server.pc := by rw [heq]
  refine ⟨t, hr.next hok ht, ⟨?_, ?_, ?_⟩, ?_⟩
  · rw [htouch.links, hclients, hp.link]
  · rw [hclients]
    exact hp.alone
  · rw [hpc]
    exact hp.pc
  · rw [hview]
    exact Option.some.inj (hv.symm.trans h)

/-- The only socket is reported, and the scan comes to its slot. -/
theorem reach_slot (hsuited : Suited c cfg) (hr : (system c cfg).ReachableBy (InOrder cfg) s)
    (hp : Parked s i j) (hpc : s.server.pc = .collect)
    (hready : Ready c s.server (s.server.clients j)) :
    ∃ u, (system c cfg).ReachableBy (InOrder cfg) u ∧ u.sockets = s.sockets ∧
      u.server = { s.server with
        fds := [s.server.clients j], reported := [s.server.clients j], events := []
        pc := .scan j } := by
  have hs := running_of_reachable hsuited hr
  obtain ⟨conn, hconn, _⟩ := hs.linked.up i _ hp.link
  have hmem : s.server.clients j ∈ s.server.opened := SelectLoop.mem_opened.mpr ⟨conn, hconn⟩
  have hne : s.server.clients j ≠ 0 := hs.sound.table.ne_empty hmem
  have hserves : Serves s (.server (.select [s.server.clients j])) :=
    ⟨List.cons_ne_nil _ _, by simpa using hready⟩
  have hwatched : [s.server.clients j] ⊆ watched c s.server.clients := by
    simpa using SelectLoop.mem_watched.mpr (.inr ⟨hne, j, rfl⟩)
  have hselect : SelectLoop.step c s.server (.select [s.server.clients j]) =
      some { s.server with
        fds := [s.server.clients j], reported := [s.server.clients j], events := []
        pc := .listener } := if_pos ⟨hpc, hwatched⟩
  obtain ⟨u, hu, huserver, husockets⟩ :=
    reach_server (.select [s.server.clients j]) hr rfl hserves trivial hselect
  have hlsd : c.lsd ∉ u.server.fds := by
    rw [huserver, List.mem_singleton]
    intro he
    exact hs.lsd (he ▸ hmem)
  have hskip : SelectLoop.step c u.server .skip = some (u.scanned 0).server := by
    have hlistener : u.server.pc = .listener := by rw [huserver]
    simp only [SelectLoop.step, hlistener]
    rw [if_neg hlsd]
    rfl
  obtain ⟨u', hu', huserver', husockets'⟩ := reach_server .skip hu rfl trivial trivial hskip
  have he : u' = u.scanned 0 := eq_scanned huserver' husockets'
  refine ⟨u.scanned j, ?_, sockets_eq (by simp) husockets, ?_⟩
  · apply reachable_scanned (he ▸ hu') (Nat.zero_le _) j.isLt.le
    intro l _ hl
    have hlj : l ≠ j := by
      rintro rfl
      exact lt_irrefl _ hl
    rw [huserver, hp.alone l hlj, List.mem_singleton]
    exact hne.symm
  · rw [State.scanned, huserver]
    simp only [SelectLoop.State.mk.injEq, and_true]
    exact dif_pos j.isLt

theorem follow_read (hsuited : Suited c cfg) (hr : (system c cfg).ReachableBy (InOrder cfg) s)
    (hp : Parked s i j) (h : TcpEcho.step (cfg i) (s.view i) (.serverRead k) = some v) :
    ∃ t, (system c cfg).ReachableBy (InOrder cfg) t ∧ Parked t i j ∧ t.view i = v := by
  have hs := running_of_reachable hsuited hr
  have hg := h
  simp only [TcpEcho.step] at hg
  split_ifs at hg with hif
  obtain ⟨hheld, hk, hmax, hle⟩ := hif
  rw [hsuited.line] at hmax
  obtain ⟨conn, hconn, _⟩ := hs.linked.up i _ hp.link
  have hinbox : (s.view i).toServer = conn.inbox := by
    show (s.conn i).inbox = _
    rw [conn_of_up hp.link hconn]
  rw [hinbox] at hle
  have hpc : s.server.pc = .collect := by
    rcases hp.pc with hpc | ⟨left, hpc⟩
    · exact hpc
    · have hleft : s.held i = left := by rw [held_of_up hp.link, held_echo hpc]
      exact absurd (hleft.symm.trans hheld) (hs.linked.echoing j left hpc).1
  obtain ⟨u, hu, husockets, huserver⟩ := reach_slot hsuited hr hp hpc
    (.inr ⟨conn, hconn, .inl (List.length_pos_iff.mp (by omega))⟩)
  have hupc : u.server.pc = .scan j := by rw [huserver]
  have huclients : u.server.clients = s.server.clients := by rw [huserver]
  have huconns : u.server.conns (u.server.clients j) = some conn := by
    rw [huserver]
    exact hconn
  have huview : u.view i = s.view i := by
    apply view_eq_of_up (by rw [husockets])
    · intro w _
      rw [huserver]
      cases w <;> rfl
    · intro w _
      rw [held_eq_nil (by simp [hupc]), held_eq_nil (by simp [hpc])]
  have hread : SelectLoop.step c u.server (.read k) = some { u.server with
      conns := Function.update u.server.conns (u.server.clients j)
        (some { conn with inbox := conn.inbox.drop k })
      events := .read (u.server.clients j) :: u.server.events
      pc := .echo j (cstr (conn.inbox.take k)) } := by
    have hset : u.server.clients j ∈ u.server.fds := by
      rw [huserver]
      exact List.mem_singleton_self _
    simp only [SelectLoop.step, hupc, huconns]
    rw [if_pos hset, if_pos ⟨hk, hmax, hle⟩]
  obtain ⟨t, ht, htserver, htsockets⟩ := reach_server (.read k) hu rfl trivial trivial hread
  have htsame := sockets_eq (by simp) htsockets
  have hlinked := (running_of_reachable hsuited hu).linked
  obtain ⟨i', hi', _, hstep, _⟩ := read_shown hsuited.zero hsuited.line hlinked hupc huconns
    hk hmax hle htserver htsame
  have hlink : (u.sockets i).link = .up (.accepted (u.server.clients j)) := by
    rw [husockets, huclients, hp.link]
  have hii : i' = i := hlinked.distinct i' i _ hi' hlink
  subst i'
  have htclients : t.server.clients = s.server.clients := by rw [htserver, huclients]
  refine ⟨t, ht, ⟨?_, ?_, .inr ⟨_, by rw [htserver]⟩⟩, ?_⟩
  · rw [htsame, hlink, huclients, htclients]
  · rw [htclients]
    exact hp.alone
  · rw [huview, h] at hstep
    exact (Option.some.inj hstep).symm

theorem follow_write (hsuited : Suited c cfg) (hr : (system c cfg).ReachableBy (InOrder cfg) s)
    (hp : Parked s i j) (h : TcpEcho.step (cfg i) (s.view i) (.serverWrite k) = some v) :
    ∃ t, (system c cfg).ReachableBy (InOrder cfg) t ∧ Parked t i j ∧ t.view i = v := by
  have hs := running_of_reachable hsuited hr
  have hg := h
  simp only [TcpEcho.step] at hg
  split_ifs at hg with hif
  obtain ⟨hk, hle, hroom⟩ := hif
  have hheldView : (s.view i).held = s.server.held (.accepted (s.server.clients j)) :=
    held_of_up hp.link
  rcases hp.pc with hpc | ⟨left, hpc⟩
  · rw [hheldView, held_eq_nil (by simp [hpc]), List.length_nil] at hle
    omega
  · rw [hheldView, held_echo hpc] at hle
    have hfits : Fits cfg s (.send k) := by
      intro i' hi'
      rw [held_unique hs.linked hpc hp.link hi']
      exact hroom
    have hsend : SelectLoop.step c s.server (.send k) = some { s.server with
        conns := Function.update s.server.conns (s.server.clients j)
          ((s.server.conns (s.server.clients j)).map
            (fun conn => { conn with outbox := conn.outbox ++ left.take k }))
        events := .sent (s.server.clients j) :: s.server.events
        pc := if left.drop k = [] then scanFrom _ (j.val + 1) else .echo j (left.drop k) } := by
      simp only [SelectLoop.step, hpc]
      rw [if_pos ⟨hk, hle⟩]
    obtain ⟨t, ht, htserver, htsockets⟩ := reach_server (.send k) hr rfl trivial hfits hsend
    have htsame := sockets_eq (by simp) htsockets
    obtain ⟨i', hi', _, hstep, _⟩ := send_shown hs.linked hpc hk hle hfits htserver htsame
    have hii : i' = i := hs.linked.distinct i' i _ hi' hp.link
    subst i'
    have hview : t.view i = v := (Option.some.inj (h.symm.trans hstep)).symm
    have htclients : t.server.clients = s.server.clients := by rw [htserver]
    have htlink : (t.sockets i).link = .up (.accepted (t.server.clients j)) := by
      rw [htsame, htclients, hp.link]
    by_cases hdrop : left.drop k = []
    · -- the chunk is done with, and nobody else is in the set
      have hout : ∀ l : Fin c.maxClients, j.val + 1 ≤ l →
          t.server.clients l ∉ t.server.fds := by
        intro l hl
        have hlj : l ≠ j := by
          rintro rfl
          omega
        have hfds : t.server.fds = s.server.fds := by rw [htserver]
        rw [htclients, hfds, hp.alone l hlj]
        exact hs.sound.set
      obtain ⟨t', ht', hpc', hc', hsock', hview'⟩ :=
        reach_collect ht (k := j.val + 1) (by rw [htserver, hdrop, if_pos rfl]) j.isLt hout
      refine ⟨t', ht', ⟨?_, ?_, .inl hpc'⟩, by rw [hview', hview]⟩
      · rw [hsock', hc', htlink]
      · rw [hc', htclients]
        exact hp.alone
    · refine ⟨t, ht, ⟨htlink, ?_, .inr ⟨left.drop k, ?_⟩⟩, hview⟩
      · rw [htclients]
        exact hp.alone
      · rw [htserver]
        exact if_neg hdrop

/-- What a connection with a handler of its own can do, the first socket can do. -/
theorem exists_view (hsuited : Suited c cfg) (hi : ∀ k, ¬ k < i) {u : TcpEcho.State}
    (h : (TcpEcho.system (cfg i)).Reachable u) :
    ∃ s j, (system c cfg).ReachableBy (InOrder cfg) s ∧ Parked s i j ∧ s.view i = u := by
  apply h.invariant (exists_parked hsuited hi)
  rintro u act v ⟨s, j, hr, hp, rfl⟩ _ hstep
  have hfollow : ∃ t, (system c cfg).ReachableBy (InOrder cfg) t ∧ Parked t i j ∧ t.view i = v := by
    cases act with
    | serverRead k => exact follow_read hsuited hr hp hstep
    | serverWrite k => exact follow_write hsuited hr hp hstep
    | send => exact follow_client .send hsuited hr hp trivial hstep
    | clientWrite k => exact follow_client (.clientWrite k) hsuited hr hp trivial hstep
    | clientRead k => exact follow_client (.clientRead k) hsuited hr hp trivial hstep
  obtain ⟨t, ht, hp', hview⟩ := hfollow
  exact ⟨t, j, ht, hp', hview⟩

/-- A first socket that can hang keeps the round from its end. -/
theorem not_completes (hsuited : Suited c cfg) (hi : ∀ k, ¬ k < i) {u : TcpEcho.State}
    (hu : (TcpEcho.system (cfg i)).Reachable u) (hhang : TcpEcho.Hangs (cfg i) u) (bound : ℕ) :
    ¬ (system c cfg).Completes (InOrder cfg) bound (Over cfg) := by
  intro h
  obtain ⟨s, _, ⟨as, hrun⟩, _, hview⟩ := exists_view hsuited hi hu
  have hs := running_of_reachable hsuited ⟨as, hrun⟩
  have hkeep : ∀ v act w, Running cfg v ∧ v.view i = u → InOrder cfg v act →
      (system c cfg).step v act = some w → Running cfg w ∧ w.view i = u := by
    rintro v act w ⟨hv, hvu⟩ hok hst
    obtain ⟨hw, hshown⟩ := hv.next hsuited hok hst
    refine ⟨hw, ?_⟩
    rcases hshown with hsame | ⟨k, act, _, hstep, hothers⟩
    · rw [hsame, hvu]
    · by_cases hk : i = k
      · subst k
        rw [hvu] at hstep
        exact absurd ⟨_, hstep⟩ (hhang.2 act)
      · rw [hothers i hk, hvu]
  obtain ⟨_, t, _, _, hover, _, hkept⟩ := h.extends hkeep hrun ⟨hs, hview⟩
  apply hhang.1
  rw [← hkept]
  exact (hover.finished i).top

end InfinibandWorkshop.SelectClients
