import InfinibandWorkshop.MultithreadServer

/-!
# Rounds of the InfiniBand sweeps and their listeners

Both programs play one round after another. In each round the server's main
opens a listener, accepts the round's connections, closes the listener and joins
its threads, while the client's main connects and joins its own. Nothing but the
connections themselves orders the two mains.
-/
namespace InfinibandWorkshop.Handover

/-- The rounds of a sweep: how many connections the server's loop accepts in each
and the client's loop opens. -/
structure Sweep where
  rounds : ℕ
  accepts : ℕ → ℕ
  connects : ℕ → ℕ
  same : ∀ r, accepts r = connects r

section Sweeps

/-- `for (x = 1; x <= bound; x *= 2)` on a 32-bit int. -/
def doublings (bound : ℕ) : List ℕ := go 31 1
where
  go : ℕ → ℕ → List ℕ
  | 0, _ => []
  | k + 1, x => if x ≤ bound then x :: go k (x * 2) else []

def maxMsgSize : ℕ := 1048576

/-- multistreamTestRunner.c: message size and number of QPs of each round. -/
def multistreamRounds (peerNum : ℕ) : List (ℕ × ℕ) :=
  (doublings maxMsgSize).flatMap fun varsize =>
    (List.range peerNum).map fun q => (varsize, q + 1)

/-- One connection in every round. -/
def multistreamSweep (peerNum : ℕ) : Sweep where
  rounds := (multistreamRounds peerNum).length
  accepts := fun _ => 1
  connects := fun _ => 1
  same := fun _ => rfl

/-- multithreadIB.c: message size and number of threads of each round. -/
def multithreadRounds (maxThreadNum : ℕ) : List (ℕ × ℕ) :=
  (doublings maxMsgSize).flatMap fun varsize =>
    (doublings maxThreadNum).map fun numThreads => (varsize, numThreads)

/-- Connections that the server's loop accepts from `thread` on: a thread without
payload is skipped. -/
def acceptLoop (sizePerPeer : ℕ → ℕ) (numThreads thread : ℕ) : ℕ :=
  if thread < numThreads then
    if sizePerPeer thread = 0 then acceptLoop sizePerPeer numThreads (thread + 1)
    else acceptLoop sizePerPeer numThreads (thread + 1) + 1
  else 0
termination_by numThreads - thread

/-- Connections that the client's loop opens from `thread` on. Here the skip
counts `thread` twice, in the branch and in the `for`. -/
def connectLoop (sizePerPeer : ℕ → ℕ) (numThreads thread : ℕ) : ℕ :=
  if thread < numThreads then
    if sizePerPeer thread = 0 then connectLoop sizePerPeer numThreads (thread + 2)
    else connectLoop sizePerPeer numThreads (thread + 1) + 1
  else 0
termination_by numThreads - thread

theorem acceptLoop_eq_zero {size : ℕ → ℕ} {n thread : ℕ} (h : ∀ u, thread ≤ u → size u = 0) :
    acceptLoop size n thread = 0 := by
  fun_induction acceptLoop size n thread with
  | case1 thread hlt hsize ih => exact ih (fun u hu => h u (by omega))
  | case2 thread hlt hsize ih => exact absurd (h thread le_rfl) hsize
  | case3 thread hlt => rfl

theorem connectLoop_eq_zero {size : ℕ → ℕ} {n thread : ℕ} (h : ∀ u, thread ≤ u → size u = 0) :
    connectLoop size n thread = 0 := by
  fun_induction connectLoop size n thread with
  | case1 thread hlt hsize ih => exact ih (fun u hu => h u (by omega))
  | case2 thread hlt hsize ih => exact absurd (h thread le_rfl) hsize
  | case3 thread hlt => rfl

/-- The two skips agree once a thread without payload is followed only by such
threads. -/
theorem acceptLoop_eq_connectLoop {size : ℕ → ℕ} {n thread : ℕ}
    (h : ∀ u v, thread ≤ u → u ≤ v → size u = 0 → size v = 0) :
    acceptLoop size n thread = connectLoop size n thread := by
  fun_induction acceptLoop size n thread with
  | case1 thread hlt hsize _ =>
    have hzero : ∀ v, thread ≤ v → size v = 0 := fun v hv => h thread v le_rfl hv hsize
    rw [acceptLoop_eq_zero (fun v hv => hzero v (by omega)), connectLoop_eq_zero hzero]
  | case2 thread hlt hsize ih =>
    rw [connectLoop, if_pos hlt, if_neg hsize, ih (fun u v hu => h u v (by omega))]
  | case3 thread hlt => rw [connectLoop, if_neg hlt]

open Multithread.Server (sizePerPeer)

theorem sizePerPeer_zero {varsize n : ℕ} (hsize : 0 < varsize) : sizePerPeer varsize n 0 ≠ 0 := by
  have hdiv : varsize / n * n ≤ varsize := Nat.div_mul_le_self varsize n
  have hlt : varsize / n * (n - 1) < varsize := by
    rcases Nat.eq_zero_or_pos (varsize / n * (n - 1)) with hz | hpos
    · omega
    · have hn : n - 1 < n := Nat.sub_one_lt (by rintro rfl; simp at hpos)
      exact (Nat.mul_lt_mul_of_pos_left hn (Nat.pos_of_mul_pos_right hpos)).trans_le hdiv
  rw [sizePerPeer, if_pos rfl]
  omega

/-- Thread 0 always has a payload, and the others have equal ones. -/
theorem sizePerPeer_tail {varsize n : ℕ} (hsize : 0 < varsize) {u v : ℕ} (huv : u ≤ v)
    (h : sizePerPeer varsize n u = 0) : sizePerPeer varsize n v = 0 := by
  have hu : u ≠ 0 := by
    rintro rfl
    exact sizePerPeer_zero hsize h
  have hv : v ≠ 0 := by omega
  rw [sizePerPeer, if_neg hu] at h
  rw [sizePerPeer, if_neg hv, h]

/-- The loop is left when `x` has been doubled past its bound. -/
theorem length_doublings_le {bound m : ℕ} (hm : bound < 2 ^ m) :
    (doublings bound).length ≤ m := by
  have hgo : ∀ k x m, bound < x * 2 ^ m → (doublings.go bound k x).length ≤ m := by
    intro k
    induction k with
    | zero =>
      intro x m _
      exact Nat.zero_le m
    | succ k ih =>
      intro x m hlt
      rw [doublings.go]
      split_ifs with hx
      · cases m with
        | zero => omega
        | succ m =>
          have hnext : bound < x * 2 * 2 ^ m := by
            rw [mul_assoc, ← pow_succ']
            exact hlt
          exact Nat.succ_le_succ (ih (x * 2) m hnext)
      · exact Nat.zero_le m
  exact hgo 31 1 m (by rwa [one_mul])

theorem doublings_pos {bound x : ℕ} (hx : x ∈ doublings bound) : 0 < x := by
  have hgo : ∀ k start, 0 < start → x ∈ doublings.go bound k start → 0 < x := by
    intro k
    induction k with
    | zero => simp [doublings.go]
    | succ k ih =>
      intro start hstart hmem
      rw [doublings.go] at hmem
      split_ifs at hmem
      · rcases List.mem_cons.mp hmem with rfl | hmem
        · exact hstart
        · exact ih (start * 2) (by omega) hmem
      · cases hmem
  exact hgo 31 1 one_pos hx

theorem mem_multistreamRounds {peerNum : ℕ} {p : ℕ × ℕ} (h : p ∈ multistreamRounds peerNum) :
    p.1 ∈ doublings maxMsgSize ∧ 0 < p.2 := by
  obtain ⟨size, hsize, hp⟩ := List.mem_flatMap.mp h
  obtain ⟨q, _, rfl⟩ := List.mem_map.mp hp
  exact ⟨hsize, Nat.succ_pos q⟩

theorem le_of_mem_multistreamRounds {peerNum : ℕ} {p : ℕ × ℕ} (h : p ∈ multistreamRounds peerNum) :
    p.2 ≤ peerNum := by
  obtain ⟨size, _, hp⟩ := List.mem_flatMap.mp h
  obtain ⟨q, hq, rfl⟩ := List.mem_map.mp hp
  exact List.mem_range.mp hq

theorem mem_multithreadRounds {maxThreadNum : ℕ} {p : ℕ × ℕ}
    (h : p ∈ multithreadRounds maxThreadNum) : p.1 ∈ doublings maxMsgSize ∧ 0 < p.2 := by
  obtain ⟨size, hsize, hp⟩ := List.mem_flatMap.mp h
  obtain ⟨n, hn, rfl⟩ := List.mem_map.mp hp
  exact ⟨hsize, doublings_pos hn⟩

/-- A connection for every thread with a payload. -/
def multithreadSweep (maxThreadNum : ℕ) : Sweep where
  rounds := (multithreadRounds maxThreadNum).length
  accepts := fun r =>
    match (multithreadRounds maxThreadNum)[r]? with
    | some (varsize, numThreads) => acceptLoop (sizePerPeer varsize numThreads) numThreads 0
    | none => 0
  connects := fun r =>
    match (multithreadRounds maxThreadNum)[r]? with
    | some (varsize, numThreads) => connectLoop (sizePerPeer varsize numThreads) numThreads 0
    | none => 0
  same := by
    intro r
    split
    · rename_i varsize numThreads hr
      obtain ⟨x, hx, hmem⟩ := List.mem_flatMap.mp (List.mem_of_getElem? hr)
      obtain ⟨n, -, hpair⟩ := List.mem_map.mp hmem
      obtain ⟨rfl, rfl⟩ := Prod.mk.inj hpair
      exact acceptLoop_eq_connectLoop
        (fun u v _ huv => sizePerPeer_tail (doublings_pos hx) huv)
    · rfl

end Sweeps

/-- The connection number `index` that the client opens in a round. -/
structure Conn where
  round : ℕ
  index : ℕ
  deriving DecidableEq, Repr

/-- Where the server's main is: before `createServerConnection` of a round, in its
accept loop, or past `close(sockfd)` and joining. -/
inductive Server
  | start (round : ℕ)
  | accepting (round accepted : ℕ)
  | joining (round : ℕ)
  deriving DecidableEq, Repr

/-- The round of the open listener. -/
def Server.listening : Server → Option ℕ
  | .accepting round _ => some round
  | .start _ | .joining _ => none

/-- `round` and `opened` say where the client's main is: how many of its round's
connections it has opened. The backlog is the open listener's; an accepted
connection comes with the round of the listener it was taken from. -/
structure State where
  server : Server
  round : ℕ
  opened : ℕ
  backlog : List Conn
  accepted : List (Conn × ℕ)
  discarded : List Conn
  ended : List (Role × Conn)

inductive Action
  | listen
  | connect
  | accept
  | closeListener
  | finish (X : Role) (conn : Conn)
  | join (X : Role)
  deriving DecidableEq, Repr

section Steps

variable (c : Sweep)

def step (s : State) : Action → Option State
  | .listen =>
    match s.server with
    | .start round =>
      if round < c.rounds then some { s with server := .accepting round 0 } else none
    | _ => none
  | .connect =>
    if s.round < c.rounds ∧ s.opened < c.connects s.round ∧ s.server.listening.isSome then
      some { s with backlog := s.backlog ++ [⟨s.round, s.opened⟩], opened := s.opened + 1 }
    else none
  | .accept =>
    match s.server, s.backlog with
    | .accepting round n, conn :: rest =>
      if n < c.accepts round then
        some { s with
          server := .accepting round (n + 1)
          backlog := rest
          accepted := s.accepted ++ [(conn, round)] }
      else none
    | _, _ => none
  | .closeListener =>
    match s.server with
    | .accepting round n =>
      if n < c.accepts round then none
      else some { s with
        server := .joining round
        backlog := []
        discarded := s.discarded ++ s.backlog }
    | _ => none
  | .finish X conn =>
    if conn ∈ s.accepted.map Prod.fst ∧ (X, conn) ∉ s.ended then
      some { s with ended := s.ended ++ [(X, conn)] }
    else none
  | .join .client =>
    if s.round < c.rounds ∧ ¬ s.opened < c.connects s.round ∧
        ∀ i < s.opened, (Role.client, ⟨s.round, i⟩) ∈ s.ended then
      some { s with round := s.round + 1, opened := 0 }
    else none
  | .join .server =>
    match s.server with
    | .joining round =>
      if ∀ p ∈ s.accepted, p.2 = round → (Role.server, p.1) ∈ s.ended then
        some { s with server := .start (round + 1) }
      else none
    | _ => none

def system : Machine State Action where
  init := ⟨.start 0, 0, 0, [], [], [], []⟩
  step := step c

/-- The client connects only while the listener of its own round is open. -/
def InRound (s : State) (a : Action) : Prop :=
  a = .connect → s.server.listening = some s.round

instance (s : State) (a : Action) : Decidable (InRound s a) :=
  inferInstanceAs (Decidable (a = .connect → s.server.listening = some s.round))

/-- The connections that the client has opened so far. -/
def Opened (s : State) (conn : Conn) : Prop :=
  conn.round < s.round ∧ conn.index < c.connects conn.round ∨
    conn.round = s.round ∧ conn.index < s.opened

/-- Every connection is accepted by the listener of its own round; until then it
waits there, and the client in that round. None is discarded. -/
structure HandedOver (s : State) : Prop where
  opened : ∀ conn, Opened c s conn → (conn, conn.round) ∈ s.accepted ∨ conn ∈ s.backlog
  own : ∀ p ∈ s.accepted, p.2 = p.1.round
  waiting : ∀ conn ∈ s.backlog, s.server.listening = some conn.round ∧ conn.round = s.round
  kept : s.discarded = []

/-- Both mains have played all rounds. -/
def Finished (s : State) : Prop := s.server = .start c.rounds ∧ s.round = c.rounds

end Steps

section Steps

variable {c : Sweep} {s t : State}

theorem step_listen (h : step c s .listen = some t) :
    ∃ k, s.server = .start k ∧ k < c.rounds ∧ t = { s with server := .accepting k 0 } := by
  simp only [step] at h
  split at h
  · rename_i k hs
    split_ifs at h with hk
    exact ⟨k, hs, hk, (Option.some.inj h).symm⟩
  · cases h

theorem step_connect (h : step c s .connect = some t) :
    s.round < c.rounds ∧ s.opened < c.connects s.round ∧ s.server.listening.isSome ∧
      t = { s with
        backlog := s.backlog ++ [⟨s.round, s.opened⟩]
        opened := s.opened + 1 } := by
  simp only [step] at h
  split_ifs at h with hc
  exact ⟨hc.1, hc.2.1, hc.2.2, (Option.some.inj h).symm⟩

theorem step_accept (h : step c s .accept = some t) :
    ∃ k n conn rest, s.server = .accepting k n ∧ s.backlog = conn :: rest ∧ n < c.accepts k ∧
      t = { s with
        server := .accepting k (n + 1)
        backlog := rest
        accepted := s.accepted ++ [(conn, k)] } := by
  simp only [step] at h
  split at h
  · rename_i k n conn rest hs hb
    split_ifs at h with hn
    exact ⟨k, n, conn, rest, hs, hb, hn, (Option.some.inj h).symm⟩
  · cases h

theorem step_closeListener (h : step c s .closeListener = some t) :
    ∃ k n, s.server = .accepting k n ∧ ¬ n < c.accepts k ∧
      t = { s with
        server := .joining k
        backlog := []
        discarded := s.discarded ++ s.backlog } := by
  simp only [step] at h
  split at h
  · rename_i k n hs
    split_ifs at h with hn
    exact ⟨k, n, hs, hn, (Option.some.inj h).symm⟩
  · cases h

theorem step_finish {X : Role} {conn : Conn} (h : step c s (.finish X conn) = some t) :
    conn ∈ s.accepted.map Prod.fst ∧ t = { s with ended := s.ended ++ [(X, conn)] } := by
  simp only [step] at h
  split_ifs at h with hc
  exact ⟨hc.1, (Option.some.inj h).symm⟩

theorem step_join_client (h : step c s (.join .client) = some t) :
    s.round < c.rounds ∧ ¬ s.opened < c.connects s.round ∧
      (∀ i < s.opened, (Role.client, ⟨s.round, i⟩) ∈ s.ended) ∧
      t = { s with round := s.round + 1, opened := 0 } := by
  simp only [step] at h
  split_ifs at h with hc
  exact ⟨hc.1, hc.2.1, hc.2.2, (Option.some.inj h).symm⟩

theorem step_join_server (h : step c s (.join .server) = some t) :
    ∃ k, s.server = .joining k ∧ t = { s with server := .start (k + 1) } := by
  simp only [step] at h
  split at h
  · rename_i k hs
    split_ifs at h
    exact ⟨k, hs, (Option.some.inj h).symm⟩
  · cases h

end Steps

section Counts

/-- A loop over rounds with `f r` turns in round `r` stands at turn `n` of round
`k`: how many turns of round `r` are behind it. -/
def upTo (f : ℕ → ℕ) (k n r : ℕ) : ℕ := if r < k then f r else if r = k then n else 0

variable {f : ℕ → ℕ} {k n r : ℕ}

@[simp] theorem upTo_self (f : ℕ → ℕ) (k n : ℕ) : upTo f k n k = n := by simp [upTo]

theorem upTo_start (f : ℕ → ℕ) (r : ℕ) : upTo f 0 0 r = 0 := by
  unfold upTo
  split_ifs <;> omega

theorem upTo_of_lt (h : r < k) : upTo f k n r = f r := if_pos h

theorem upTo_le (h : n ≤ f k) : upTo f k n r ≤ f r := by
  unfold upTo
  split_ifs with hlt heq
  · exact le_rfl
  · rw [heq]
    exact h
  · exact Nat.zero_le _

theorem upTo_succ : upTo f k (n + 1) r = upTo f k n r + if k = r then 1 else 0 := by
  unfold upTo
  split_ifs <;> omega

theorem upTo_next (f : ℕ → ℕ) (k r : ℕ) : upTo f (k + 1) 0 r = upTo f k (f k) r := by
  unfold upTo
  by_cases h : r = k
  · subst r
    simp
  · by_cases hlt : r < k
    · simp [hlt, Nat.lt_succ_of_lt hlt]
    · have hgt : ¬ r < k + 1 := by omega
      simp [hlt, h, hgt]

variable (c : Sweep)

def roundConns (k n : ℕ) : List Conn := (List.range n).map (Conn.mk k)

/-- The connections opened before number `n` of round `k`, in order. -/
def openedConns : ℕ → ℕ → List Conn
  | 0, n => roundConns 0 n
  | k + 1, n => openedConns k (c.connects k) ++ roundConns (k + 1) n

theorem mem_roundConns {conn : Conn} : conn ∈ roundConns k n ↔ conn.round = k ∧ conn.index < n := by
  cases conn with
  | mk r i =>
    simp only [roundConns, List.mem_map, List.mem_range, Conn.mk.injEq]
    constructor
    · rintro ⟨j, hj, rfl, rfl⟩
      exact ⟨rfl, hj⟩
    · rintro ⟨rfl, hi⟩
      exact ⟨i, hi, rfl, rfl⟩

theorem roundConns_succ (k n : ℕ) : roundConns k (n + 1) = roundConns k n ++ [⟨k, n⟩] := by
  simp [roundConns, List.range_succ]

theorem openedConns_succ (k n : ℕ) :
    openedConns c k (n + 1) = openedConns c k n ++ [⟨k, n⟩] := by
  cases k <;> simp [openedConns, roundConns_succ]

theorem openedConns_next (k : ℕ) : openedConns c (k + 1) 0 = openedConns c k (c.connects k) := by
  simp [openedConns, roundConns]

theorem mem_openedConns {conn : Conn} : conn ∈ openedConns c k n ↔
    conn.round < k ∧ conn.index < c.connects conn.round ∨ conn.round = k ∧ conn.index < n := by
  induction k generalizing n with
  | zero => simp [openedConns, mem_roundConns]
  | succ k ih =>
    rw [openedConns, List.mem_append, ih, mem_roundConns]
    constructor
    · rintro ((⟨hlt, hi⟩ | ⟨rfl, hi⟩) | h)
      · exact .inl ⟨by omega, hi⟩
      · exact .inl ⟨by omega, hi⟩
      · exact .inr h
    · rintro (⟨hlt, hi⟩ | h)
      · rcases Nat.lt_succ_iff_lt_or_eq.mp hlt with hlt | rfl
        · exact .inl (.inl ⟨hlt, hi⟩)
        · exact .inl (.inr ⟨rfl, hi⟩)
      · exact .inr h

theorem nodup_roundConns (k n : ℕ) : (roundConns k n).Nodup :=
  List.nodup_range.map (fun _ _ h => (Conn.mk.inj h).2)

theorem nodup_openedConns (k n : ℕ) : (openedConns c k n).Nodup := by
  induction k generalizing n with
  | zero => exact nodup_roundConns 0 n
  | succ k ih =>
    refine List.nodup_append.mpr ⟨ih _, nodup_roundConns _ _, ?_⟩
    rintro x hx y hy rfl
    have hlt : x.round < k + 1 := by
      rcases (mem_openedConns c).mp hx with h | h <;> omega
    have heq := (mem_roundConns.mp hy).1
    omega

theorem countP_roundConns (k n r : ℕ) :
    (roundConns k n).countP (fun x => x.round = r) = if k = r then n else 0 := by
  induction n with
  | zero => simp [roundConns]
  | succ n ih =>
    rw [roundConns_succ, List.countP_append, ih]
    by_cases h : k = r <;> simp [h]

theorem countP_openedConns (k n r : ℕ) :
    (openedConns c k n).countP (fun x => x.round = r) = upTo c.connects k n r := by
  induction k generalizing n with
  | zero =>
    rw [openedConns, countP_roundConns]
    by_cases h : r = 0 <;> simp [upTo, h, eq_comm]
  | succ k ih =>
    rw [openedConns, List.countP_append, ih, ← upTo_next, countP_roundConns]
    unfold upTo
    split_ifs <;> omega

end Counts

section Safety

variable {c : Sweep} {s t : State}

/-- The server's position in its accept loops. -/
def Server.turn : Server → ℕ × ℕ
  | .start k => (k, 0)
  | .accepting k n => (k, n)
  | .joining k => (k + 1, 0)

/-- The rounds whose listener has been opened. -/
def Server.begun : Server → ℕ
  | .start k => k
  | .accepting k _ | .joining k => k + 1

/-- What holds while every connect is made in its round. -/
structure Orderly (c : Sweep) (s : State) : Prop where
  listed : s.accepted.map Prod.fst ++ s.backlog = openedConns c s.round s.opened
  taken : ∀ r, s.accepted.countP (fun p => p.2 = r) =
    upTo c.accepts s.server.turn.1 s.server.turn.2 r
  taken_le : s.server.turn.2 ≤ c.accepts s.server.turn.1
  opened_le : s.opened ≤ c.connects s.round
  server_le : s.server.begun ≤ c.rounds
  client_le : s.round ≤ c.rounds
  ended : ∀ X conn, (X, conn) ∈ s.ended → conn ∈ s.accepted.map Prod.fst
  own : ∀ p ∈ s.accepted, p.2 = p.1.round
  waiting : ∀ conn ∈ s.backlog, s.server.listening = some conn.round ∧ conn.round = s.round
  kept : s.discarded = []

theorem orderly_init : Orderly c (system c).init where
  listed := rfl
  taken := fun r => (upTo_start c.accepts r).symm
  taken_le := Nat.zero_le _
  opened_le := Nat.zero_le _
  server_le := Nat.zero_le _
  client_le := Nat.zero_le _
  ended := by simp [system]
  own := by simp [system]
  waiting := by simp [system]
  kept := rfl

theorem mem_accepted {accepted : List (Conn × ℕ)} (hown : ∀ p ∈ accepted, p.2 = p.1.round)
    {conn : Conn} (h : conn ∈ accepted.map Prod.fst) : (conn, conn.round) ∈ accepted := by
  obtain ⟨⟨x, r⟩, hp, rfl⟩ := List.mem_map.mp h
  obtain rfl : r = x.round := hown _ hp
  exact hp

theorem Orderly.handedOver (h : Orderly c s) : HandedOver c s := by
  refine ⟨?_, h.own, h.waiting, h.kept⟩
  intro conn hconn
  have hmem : conn ∈ openedConns c s.round s.opened := (mem_openedConns c).mpr hconn
  rw [← h.listed] at hmem
  rcases List.mem_append.mp hmem with hacc | hwait
  · exact .inl (mem_accepted h.own hacc)
  · exact .inr hwait

/-- The connections of a round are those accepted in it and those in the backlog. -/
theorem Orderly.count (h : Orderly c s) (r : ℕ) :
    upTo c.accepts s.server.turn.1 s.server.turn.2 r + s.backlog.countP (fun x => x.round = r) =
      upTo c.connects s.round s.opened r := by
  have hfst : s.accepted.countP (fun p => p.2 = r) =
      (s.accepted.map Prod.fst).countP (fun x => x.round = r) := by
    rw [List.countP_map]
    apply List.countP_congr
    intro p hp
    simp [h.own p hp]
  rw [← h.taken r, hfst, ← List.countP_append, h.listed, countP_openedConns]

theorem Orderly.backlog_of_deaf (h : Orderly c s) (hs : s.server.listening = none) :
    s.backlog = [] := by
  apply List.eq_nil_iff_forall_not_mem.mpr
  intro conn hconn
  have hlisten := (h.waiting conn hconn).1
  rw [hs] at hlisten
  cases hlisten

/-- Only connections of its own round wait at a listener. -/
theorem Orderly.round_of_waiting (h : Orderly c s) {k n : ℕ} (hs : s.server = .accepting k n)
    {conn : Conn} (hconn : conn ∈ s.backlog) : conn.round = k := by
  have hlisten := (h.waiting conn hconn).1
  rw [hs] at hlisten
  exact (Option.some.inj hlisten).symm

/-- A listener that has accepted its round's connections has an empty backlog. -/
theorem Orderly.backlog_of_full (h : Orderly c s) {k n : ℕ} (hs : s.server = .accepting k n)
    (hn : ¬ n < c.accepts k) : s.backlog = [] := by
  have hall : s.backlog.countP (fun x => x.round = k) = s.backlog.length := by
    apply List.countP_eq_length.mpr
    intro conn hconn
    exact decide_eq_true (h.round_of_waiting hs hconn)
  have hcount := h.count k
  have hle : upTo c.connects s.round s.opened k ≤ c.connects k := upTo_le h.opened_le
  have hsame := c.same k
  rw [hall, hs] at hcount
  simp only [Server.turn, upTo_self] at hcount
  -- the round's connections are all accepted, and only its own can wait here
  exact List.length_eq_zero_iff.mp (by omega)

/-- A client that has joined its round's threads leaves no connection waiting. -/
theorem Orderly.backlog_of_joined (h : Orderly c s)
    (hend : ∀ i < s.opened, (Role.client, ⟨s.round, i⟩) ∈ s.ended) : s.backlog = [] := by
  apply List.eq_nil_iff_forall_not_mem.mpr
  intro conn hconn
  have hround : conn.round = s.round := (h.waiting conn hconn).2
  have hmem : conn ∈ openedConns c s.round s.opened := by
    rw [← h.listed]
    exact List.mem_append_right _ hconn
  have hindex : conn.index < s.opened := by
    rcases (mem_openedConns c).mp hmem with ⟨hlt, -⟩ | ⟨-, hi⟩
    · omega
    · exact hi
  have hended : (Role.client, conn) ∈ s.ended := by
    have hi := hend conn.index hindex
    rwa [← hround] at hi
  -- a thread can end only once accepted, and no connection is in both lists
  have hnodup := nodup_openedConns c s.round s.opened
  rw [← h.listed] at hnodup
  exact (List.nodup_append.mp hnodup).2.2 conn (h.ended _ _ hended) conn hconn rfl

/-- Between two rounds, the server goes on from where it is. -/
theorem Orderly.goOn (h : Orderly c s) {server : Server} (hturn : server.turn = s.server.turn)
    (hbegun : server.begun ≤ c.rounds) (hempty : s.backlog = []) :
    Orderly c { s with server := server } :=
  { h with
    taken := by
      intro r
      show _ = upTo c.accepts server.turn.1 server.turn.2 r
      rw [hturn]
      exact h.taken r
    taken_le := by
      show server.turn.2 ≤ c.accepts server.turn.1
      rw [hturn]
      exact h.taken_le
    server_le := hbegun
    waiting := by simp [hempty] }

/-- A connection made in its round waits behind the others. -/
theorem Orderly.connect (h : Orderly c s) (hlt : s.opened < c.connects s.round)
    (hin : s.server.listening = some s.round) :
    Orderly c { s with
      backlog := s.backlog ++ [⟨s.round, s.opened⟩]
      opened := s.opened + 1 } := by
  refine { h with listed := ?_, opened_le := hlt, waiting := ?_ }
  · rw [← List.append_assoc, h.listed, openedConns_succ]
  · intro conn hconn
    rcases List.mem_append.mp hconn with hold | hnew
    · exact h.waiting conn hold
    · rw [List.mem_singleton.mp hnew]
      exact ⟨hin, rfl⟩

/-- The connection that is accepted belongs to the listener; the others keep waiting. -/
theorem Orderly.accept (h : Orderly c s) {k n : ℕ} {conn : Conn} {rest : List Conn}
    (hs : s.server = .accepting k n) (hb : s.backlog = conn :: rest) (hn : n < c.accepts k) :
    Orderly c { s with
      server := .accepting k (n + 1)
      backlog := rest
      accepted := s.accepted ++ [(conn, k)] } := by
  have hround : conn.round = k := h.round_of_waiting hs (by simp [hb])
  have hbegun := h.server_le
  rw [hs] at hbegun
  refine { h with listed := ?_, taken := ?_, taken_le := hn, server_le := hbegun, ended := ?_,
                  own := ?_, waiting := ?_ }
  · rw [← h.listed, hb]
    simp
  · intro r
    have htaken := h.taken r
    rw [hs] at htaken
    rw [List.countP_append, htaken]
    simp [Server.turn, upTo_succ]
  · intro X x hx
    simp [h.ended X x hx]
  · intro p hp
    rcases List.mem_append.mp hp with hold | hnew
    · exact h.own p hold
    · rw [List.mem_singleton.mp hnew]
      exact hround.symm
  · intro x hx
    have hwait := h.waiting x (by simp [hb, hx])
    rw [hs] at hwait
    exact hwait

/-- Nobody waits any more when the listener is closed. -/
theorem Orderly.closeListener (h : Orderly c s) {k n : ℕ} (hs : s.server = .accepting k n)
    (hn : ¬ n < c.accepts k) :
    Orderly c { s with
      server := .joining k
      backlog := []
      discarded := s.discarded ++ s.backlog } := by
  have hempty : s.backlog = [] := h.backlog_of_full hs hn
  have hlisted := h.listed
  have htaken := h.taken
  have hle := h.taken_le
  have hbegun := h.server_le
  rw [hs] at htaken hle hbegun
  have hfull : n = c.accepts k := le_antisymm hle (not_lt.mp hn)
  refine { h with listed := ?_, taken := ?_, taken_le := Nat.zero_le _,
                  server_le := hbegun, waiting := by simp, kept := ?_ }
  · rwa [hempty] at hlisted
  · intro r
    rw [htaken r, hfull]
    exact (upTo_next c.accepts k r).symm
  · rw [h.kept, hempty]
    rfl

theorem Orderly.finish (h : Orderly c s) {X : Role} {conn : Conn}
    (hconn : conn ∈ s.accepted.map Prod.fst) :
    Orderly c { s with ended := s.ended ++ [(X, conn)] } := by
  refine { h with ended := ?_ }
  intro Y x hx
  rcases List.mem_append.mp hx with hold | hnew
  · exact h.ended Y x hold
  · obtain ⟨rfl, rfl⟩ : Y = X ∧ x = conn := by simpa using hnew
    exact hconn

/-- The client leaves a round with all its connections accepted. -/
theorem Orderly.joinClient (h : Orderly c s) (hround : s.round < c.rounds)
    (hfull : ¬ s.opened < c.connects s.round)
    (hend : ∀ i < s.opened, (Role.client, ⟨s.round, i⟩) ∈ s.ended) :
    Orderly c { s with round := s.round + 1, opened := 0 } := by
  have hempty : s.backlog = [] := h.backlog_of_joined hend
  have heq : s.opened = c.connects s.round := le_antisymm h.opened_le (not_lt.mp hfull)
  refine { h with listed := ?_, opened_le := Nat.zero_le _, client_le := hround,
                  waiting := by simp [hempty] }
  rw [h.listed, heq, openedConns_next]

theorem Orderly.next (h : Orderly c s) {a : Action} (hin : InRound s a)
    (hst : step c s a = some t) : Orderly c t := by
  cases a with
  | listen =>
    obtain ⟨k, hs, hk, rfl⟩ := step_listen hst
    exact h.goOn (by rw [hs]; rfl) hk (h.backlog_of_deaf (by rw [hs]; rfl))
  | connect =>
    obtain ⟨-, hlt, -, rfl⟩ := step_connect hst
    exact h.connect hlt (hin rfl)
  | accept =>
    obtain ⟨k, n, conn, rest, hs, hb, hn, rfl⟩ := step_accept hst
    exact h.accept hs hb hn
  | closeListener =>
    obtain ⟨k, n, hs, hn, rfl⟩ := step_closeListener hst
    exact h.closeListener hs hn
  | finish X conn =>
    obtain ⟨hconn, rfl⟩ := step_finish hst
    exact h.finish hconn
  | join X =>
    cases X with
    | client =>
      obtain ⟨hround, hfull, hend, rfl⟩ := step_join_client hst
      exact h.joinClient hround hfull hend
    | server =>
      obtain ⟨k, hs, rfl⟩ := step_join_server hst
      have hbegun := h.server_le
      rw [hs] at hbegun
      exact h.goOn (by rw [hs]; rfl) hbegun (h.backlog_of_deaf (by rw [hs]; rfl))

end Safety

section Progress

variable {c : Sweep} {s : State}

theorem inRound_of_ne {a : Action} (h : a ≠ .connect) : InRound s a := fun he => absurd he h

/-- Once its round's connections are all accepted, the client can go on. -/
theorem Orderly.client_moves (h : Orderly c s) (hround : s.round < c.rounds)
    (hfull : s.opened = c.connects s.round) (hempty : s.backlog = []) :
    ∃ a, InRound s a ∧ (system c).Enabled s a := by
  by_cases hend : ∀ i < s.opened, (Role.client, ⟨s.round, i⟩) ∈ s.ended
  · refine ⟨.join .client, inRound_of_ne (by simp), Machine.enabled_of_isSome ?_⟩
    have hnot : ¬ s.opened < c.connects s.round := by omega
    simp only [system, step]
    rw [if_pos ⟨hround, hnot, hend⟩]
    rfl
  · push Not at hend
    obtain ⟨i, hi, hnot⟩ := hend
    have hmem : (⟨s.round, i⟩ : Conn) ∈ openedConns c s.round s.opened :=
      (mem_openedConns c).mpr (.inr ⟨rfl, hi⟩)
    rw [← h.listed, hempty, List.append_nil] at hmem
    refine ⟨.finish .client ⟨s.round, i⟩, inRound_of_ne (by simp), Machine.enabled_of_isSome ?_⟩
    simp [system, step, -List.mem_map, hmem, hnot]

/-- A round behind the server has all its connections accepted. -/
theorem Orderly.client_behind (h : Orderly c s) (hlt : s.round < s.server.turn.1)
    (hempty : s.backlog = []) : s.opened = c.connects s.round := by
  have hcount := h.count s.round
  rw [upTo_of_lt hlt, hempty, upTo_self] at hcount
  have hsame := c.same s.round
  simp only [List.countP_nil] at hcount
  omega

theorem Orderly.progress (h : Orderly c s) (hfin : ¬ Finished c s) :
    ∃ a, InRound s a ∧ (system c).Enabled s a := by
  have hbegun := h.server_le
  cases hs : s.server with
  | start k =>
    have hempty : s.backlog = [] := h.backlog_of_deaf (by rw [hs]; rfl)
    rw [hs] at hbegun
    by_cases hk : k < c.rounds
    · refine ⟨.listen, inRound_of_ne (by simp), Machine.enabled_of_isSome ?_⟩
      simp [system, step, hs, hk]
    · obtain rfl : k = c.rounds := le_antisymm hbegun (not_lt.mp hk)
      have hround : s.round < c.rounds := lt_of_le_of_ne h.client_le fun he => hfin ⟨hs, he⟩
      exact h.client_moves hround (h.client_behind (by rw [hs]; exact hround) hempty) hempty
  | accepting k n =>
    rw [hs] at hbegun
    by_cases hn : n < c.accepts k
    · cases hb : s.backlog with
      | cons conn rest =>
        refine ⟨.accept, inRound_of_ne (by simp), Machine.enabled_of_isSome ?_⟩
        simp [system, step, hs, hb, hn]
      | nil =>
        -- nobody waits, so the client has still to connect, in this round or before
        have hcount := h.count k
        have hsame := c.same k
        rw [hs, hb] at hcount
        simp only [Server.turn, upTo_self, List.countP_nil, Nat.add_zero] at hcount
        rcases lt_trichotomy s.round k with hlt | rfl | hgt
        · exact h.client_moves (hlt.trans hbegun)
            (h.client_behind (by rw [hs]; exact hlt) hb) hb
        · rw [upTo_self] at hcount
          have hlt : s.opened < c.connects s.round := by omega
          refine ⟨.connect, fun _ => by rw [hs]; rfl, Machine.enabled_of_isSome ?_⟩
          simp [system, step, hs, Server.listening, hlt, Nat.lt_of_succ_le hbegun]
        · rw [upTo_of_lt hgt] at hcount
          omega
    · refine ⟨.closeListener, inRound_of_ne (by simp), Machine.enabled_of_isSome ?_⟩
      simp [system, step, hs, hn]
  | joining k =>
    by_cases hend : ∀ p ∈ s.accepted, p.2 = k → (Role.server, p.1) ∈ s.ended
    · refine ⟨.join .server, inRound_of_ne (by simp), Machine.enabled_of_isSome ?_⟩
      simp only [system, step, hs]
      rw [if_pos hend]
      rfl
    · push Not at hend
      obtain ⟨p, hp, -, hnot⟩ := hend
      have hmem : p.1 ∈ s.accepted.map Prod.fst := List.mem_map_of_mem hp
      refine ⟨.finish .server p.1, inRound_of_ne (by simp), Machine.enabled_of_isSome ?_⟩
      simp [system, step, -List.mem_map, hmem, hnot]

end Progress

section Results

variable {c : Sweep}

/-- A connection has gone to the listener of another round, or has been lost. -/
def Astray (s : State) : Prop :=
  s.discarded ≠ [] ∨ (∃ p ∈ s.accepted, p.2 ≠ p.1.round) ∨
    ∃ conn ∈ s.backlog, ∃ k, s.server.listening = some k ∧ k ≠ conn.round

theorem Astray.not_handedOver {s : State} (h : Astray s) : ¬ HandedOver c s := by
  intro hover
  rcases h with hlost | ⟨p, hp, hne⟩ | ⟨conn, hconn, k, hk, hne⟩
  · exact hlost hover.kept
  · exact hne (hover.own p hp)
  · have hlisten := (hover.waiting conn hconn).1
    rw [hk] at hlisten
    exact hne (Option.some.inj hlisten)

/-- What has gone astray never comes back: the listener it waits at takes it or
drops it. -/
theorem Astray.next {s t : State} (h : Astray s) {a : Action} (hst : step c s a = some t) :
    Astray t := by
  cases a with
  | listen =>
    obtain ⟨k, hs, -, rfl⟩ := step_listen hst
    refine h.imp_right (Or.imp_right ?_)
    rintro ⟨conn, -, k', hk', -⟩
    rw [hs] at hk'
    cases hk'
  | connect =>
    obtain ⟨-, -, -, rfl⟩ := step_connect hst
    refine h.imp_right (Or.imp_right ?_)
    rintro ⟨conn, hconn, hlisten⟩
    exact ⟨conn, List.mem_append_left _ hconn, hlisten⟩
  | accept =>
    obtain ⟨k, n, conn, rest, hs, hb, -, rfl⟩ := step_accept hst
    rcases h with hlost | ⟨p, hp, hne⟩ | ⟨x, hx, k', hk', hne⟩
    · exact .inl hlost
    · exact .inr (.inl ⟨p, List.mem_append_left _ hp, hne⟩)
    · rw [hs] at hk'
      obtain rfl : k = k' := Option.some.inj hk'
      rw [hb] at hx
      rcases List.mem_cons.mp hx with rfl | hrest
      · exact .inr (.inl ⟨(x, k), List.mem_append_right _ (List.mem_singleton.mpr rfl), hne⟩)
      · exact .inr (.inr ⟨x, hrest, k, rfl, hne⟩)
  | closeListener =>
    obtain ⟨k, n, -, -, rfl⟩ := step_closeListener hst
    rcases h with hlost | hacc | ⟨x, hx, -⟩
    · exact .inl (List.append_ne_nil_of_left_ne_nil hlost _)
    · exact .inr (.inl hacc)
    · exact .inl (List.append_ne_nil_of_right_ne_nil _ (List.ne_nil_of_mem hx))
  | finish X conn =>
    obtain ⟨-, rfl⟩ := step_finish hst
    exact h
  | join X =>
    cases X with
    | client =>
      obtain ⟨-, -, -, rfl⟩ := step_join_client hst
      exact h
    | server =>
      obtain ⟨k, hs, rfl⟩ := step_join_server hst
      refine h.imp_right (Or.imp_right ?_)
      rintro ⟨conn, -, k', hk', -⟩
      rw [hs] at hk'
      cases hk'

theorem astray_of_early {s t : State} {a : Action} (hin : ¬ InRound s a)
    (hst : step c s a = some t) : Astray t := by
  obtain ⟨rfl, hne⟩ : a = .connect ∧ s.server.listening ≠ some s.round := by
    simpa [InRound] using hin
  obtain ⟨-, -, hopen, rfl⟩ := step_connect hst
  obtain ⟨k, hk⟩ := Option.isSome_iff_exists.mp hopen
  have hround : k ≠ s.round := by
    rintro rfl
    exact hne hk
  exact .inr (.inr ⟨_, List.mem_append_right _ (List.mem_singleton.mpr rfl), k, hk, hround⟩)

/-- A run is either in order throughout, or something has gone astray. -/
theorem inRound_or_astray {as : List Action} {s : State}
    (h : (system c).Run (fun _ _ => True) as s) : (system c).Run InRound as s ∨ Astray s := by
  induction h with
  | start => exact .inl .start
  | @next as s t a _ _ hst ih =>
    rcases ih with hrun | hastray
    · by_cases hin : InRound s a
      · exact .inl (hrun.next hin hst)
      · exact .inr (astray_of_early hin hst)
    · exact .inr (hastray.next hst)

theorem orderly_of_run {as : List Action} {s : State} (h : (system c).Run InRound as s) :
    Orderly c s :=
  h.invariant orderly_init (fun _ _ _ ho hin hst => ho.next hin hst)

/-- Along every run of the two mains and their threads, all connections are handed
over to the listener of their own round if and only if each connect was made while
that listener was open. In that case the run can always go on until both mains
have played all rounds, and then every connection has been accepted. -/
theorem handed_over_iff {as : List Action} {s : State}
    (h : (system c).Run (fun _ _ => True) as s) :
    ((system c).Run InRound as s ↔ HandedOver c s) ∧
      ((system c).Run InRound as s →
        (¬ Finished c s → ∃ a, InRound s a ∧ (system c).Enabled s a) ∧
        (Finished c s → ∀ conn, Opened c s conn → (conn, conn.round) ∈ s.accepted)) := by
  refine ⟨⟨fun hrun => (orderly_of_run hrun).handedOver, ?_⟩, ?_⟩
  · intro hover
    rcases inRound_or_astray h with hrun | hastray
    · exact hrun
    · exact absurd hover hastray.not_handedOver
  · intro hrun
    have horderly := orderly_of_run hrun
    refine ⟨horderly.progress, ?_⟩
    intro hfin conn hconn
    have hempty : s.backlog = [] := horderly.backlog_of_deaf (by rw [hfin.1]; rfl)
    rcases horderly.handedOver.opened conn hconn with hacc | hwait
    · exact hacc
    · rw [hempty] at hwait
      cases hwait

/-- The client plays its first round to the end while the server's main has yet to
close the listener. -/
def firstRound : List Action :=
  [.listen, .connect, .accept, .finish .server ⟨0, 0⟩, .finish .client ⟨0, 0⟩, .join .client]

theorem handed_over_iff_firstRound :
    ∃ s, (system (multistreamSweep 2)).Run (fun _ _ => True) firstRound s ∧
      ((system (multistreamSweep 2)).Run InRound firstRound s ↔
        HandedOver (multistreamSweep 2) s) := by
  have hrun : ((system (multistreamSweep 2)).exec (fun _ _ => True)
      (system (multistreamSweep 2)).init firstRound).isSome = true := by
    decide +kernel
  obtain ⟨s, hs⟩ := Option.isSome_iff_exists.mp hrun
  exact ⟨s, Machine.run_of_exec hs, (handed_over_iff (Machine.run_of_exec hs)).1⟩

/-- It then connects for its second round, to the listener of the first, which the
server closes. -/
theorem early_connect_discarded : ¬ ∀ s, (system (multistreamSweep 2)).Reachable s →
    HandedOver (multistreamSweep 2) s := by
  intro h
  have hrun : ((system (multistreamSweep 2)).exec (fun _ _ => True)
      (system (multistreamSweep 2)).init (firstRound ++ [.connect, .closeListener])).map
        (fun s => s.discarded) = some [⟨1, 0⟩] := by
    decide +kernel
  obtain ⟨s, hs, hlost⟩ := Option.map_eq_some_iff.mp hrun
  have hkept := (h s ⟨_, Machine.run_of_exec hs⟩).kept
  rw [hlost] at hkept
  cases hkept

end Results

end InfinibandWorkshop.Handover
