import InfinibandWorkshop.Descriptors
import InfinibandWorkshop.Machine

/-!
# Who closes which connection in the server of multithreadIB.c

In each round main accepts one connection for every thread with a payload and
hands its number to the thread. `pp_server_exch_dest` closes that number at `out:`
on every path through it, and after a successful exchange `runPingPong` closes it
again. Between the two, main may accept another connection under the same number.
-/
namespace InfinibandWorkshop.Multithread.Server

/-- What a descriptor of the server process denotes: the listener, the connection
handed to a thread of this round, or anything else. Threads of earlier rounds are
joined, so what they left open is `other`. -/
inductive Open (n : ℕ)
  | other
  | listener
  | conn (thread : Fin n)
  deriving DecidableEq, Repr

/-- `sizePerPeer`: thread 0 takes what the division leaves over. -/
def sizePerPeer (varsize numThreads thread : ℕ) : ℕ :=
  let regularSize := varsize / numThreads
  if thread = 0 then varsize - regularSize * (numThreads - 1) else regularSize

structure Config where
  numThreads : ℕ
  varsize : ℕ
  opened : Descriptors (Open numThreads)
  opened_ne : ∀ fd thread, opened.get fd ≠ some (.conn thread)

/-- Where main is in its round: at the accept loop with the listener's number and
the loop index, or joining. -/
inductive Main
  | start
  | loop (sockfd thread : ℕ)
  | joining
  deriving DecidableEq, Repr

/-- Where a thread is, with the number `connfd` it was given: up to and in the
exchange, at `out:` with the exchange's result, back in `runPingPong` after a
successful exchange, or past its last close. -/
inductive Phase
  | idle
  | exchange (connfd : ℕ)
  | out (connfd : ℕ) (ok : Bool)
  | back (connfd : ℕ)
  | abandoned (connfd : ℕ)
  | ended
  deriving DecidableEq, Repr

/-- The number of the connection that the thread still has to close. -/
def Phase.holds : Phase → Option ℕ
  | .exchange connfd | .out connfd _ | .abandoned connfd => some connfd
  | .idle | .back _ | .ended => none

structure State (n : ℕ) where
  table : Descriptors (Open n)
  main : Main
  phase : Fin n → Phase

/-- Moves of main, of the threads, and of the verbs library, which keeps device
descriptors of its own in the same table. -/
inductive Action (n : ℕ)
  | listen
  | accept
  | skip
  | closeListener
  | openDevice
  | closeDevice (fd : ℕ)
  | giveUp (thread : Fin n)
  | goOut (thread : Fin n) (ok : Bool)
  | close (thread : Fin n)
  | closeAgain (thread : Fin n)
  deriving DecidableEq, Repr

section Steps

variable (c : Config)

def State.setPhase {n : ℕ} (s : State n) (thread : Fin n) (p : Phase) : State n :=
  { s with phase := Function.update s.phase thread p }

def step (s : State c.numThreads) : Action c.numThreads → Option (State c.numThreads)
  | .listen =>
    if s.main = .start then
      some { s with table := s.table.alloc .listener, main := .loop s.table.lowest 0 }
    else none
  | .accept =>
    match s.main with
    | .loop sockfd thread =>
      if h : thread < c.numThreads then
        if sizePerPeer c.varsize c.numThreads thread ≠ 0 then
          let connfd := s.table.lowest
          some ({ s with
            table := s.table.alloc (.conn ⟨thread, h⟩)
            main := .loop sockfd (thread + 1) }.setPhase ⟨thread, h⟩ (.exchange connfd))
        else none
      else none
    | _ => none
  | .skip =>
    match s.main with
    | .loop sockfd thread =>
      if thread < c.numThreads then
        if sizePerPeer c.varsize c.numThreads thread = 0 then
          some { s with main := .loop sockfd (thread + 1) }
        else none
      else none
    | _ => none
  | .closeListener =>
    match s.main with
    | .loop sockfd thread =>
      if thread < c.numThreads then none
      else some { s with table := s.table.close sockfd, main := .joining }
    | _ => none
  | .openDevice => some { s with table := s.table.alloc .other }
  | .closeDevice fd =>
    if s.table.get fd = some .other then some { s with table := s.table.close fd } else none
  | .giveUp thread =>
    match s.phase thread with
    | .exchange connfd => some (s.setPhase thread (.abandoned connfd))
    | _ => none
  | .goOut thread ok =>
    match s.phase thread with
    | .exchange connfd => some (s.setPhase thread (.out connfd ok))
    | _ => none
  | .close thread =>
    match s.phase thread with
    | .out connfd ok =>
      some ({ s with table := s.table.close connfd }.setPhase thread
        (if ok then .back connfd else .ended))
    | _ => none
  | .closeAgain thread =>
    match s.phase thread with
    | .back connfd =>
      some ({ s with table := s.table.close connfd }.setPhase thread .ended)
    | _ => none

def system : Machine (State c.numThreads) (Action c.numThreads) where
  init := ⟨c.opened, .start, fun _ => .idle⟩
  step := step c

end Steps

section Steps

variable {c : Config} {s t : State c.numThreads}

@[simp] theorem setPhase_table {n : ℕ} (s : State n) (thread : Fin n) (p : Phase) :
    (s.setPhase thread p).table = s.table := rfl

@[simp] theorem setPhase_self {n : ℕ} (s : State n) (thread : Fin n) (p : Phase) :
    (s.setPhase thread p).phase thread = p := Function.update_self _ _ _

theorem setPhase_ne {n : ℕ} (s : State n) {thread u : Fin n} (p : Phase) (h : u ≠ thread) :
    (s.setPhase thread p).phase u = s.phase u := Function.update_of_ne h _ _

theorem step_listen (h : step c s .listen = some t) : s.main = .start ∧
    t = { s with table := s.table.alloc .listener, main := .loop s.table.lowest 0 } := by
  simp only [step] at h
  split_ifs at h with hm
  exact ⟨hm, (Option.some.inj h).symm⟩

theorem step_accept (h : step c s .accept = some t) :
    ∃ sockfd thread, s.main = .loop sockfd thread.val ∧
      t = { s with
        table := s.table.alloc (.conn thread)
        main := .loop sockfd (thread.val + 1) }.setPhase thread (.exchange s.table.lowest) := by
  simp only [step] at h
  split at h
  · rename_i sockfd thread hm
    split_ifs at h with hlt hsize
    exact ⟨sockfd, ⟨thread, hlt⟩, hm, (Option.some.inj h).symm⟩
  · cases h

theorem step_skip (h : step c s .skip = some t) :
    ∃ sockfd thread, s.main = .loop sockfd thread ∧
      t = { s with main := .loop sockfd (thread + 1) } := by
  simp only [step] at h
  split at h
  · rename_i sockfd thread hm
    split_ifs at h with hlt hsize
    exact ⟨sockfd, thread, hm, (Option.some.inj h).symm⟩
  · cases h

theorem step_closeListener (h : step c s .closeListener = some t) :
    ∃ sockfd thread, s.main = .loop sockfd thread ∧
      t = { s with table := s.table.close sockfd, main := .joining } := by
  simp only [step] at h
  split at h
  · rename_i sockfd thread hm
    split_ifs at h
    exact ⟨sockfd, thread, hm, (Option.some.inj h).symm⟩
  · cases h

theorem step_openDevice (h : step c s .openDevice = some t) :
    t = { s with table := s.table.alloc .other } := (Option.some.inj h).symm

theorem step_closeDevice {fd : ℕ} (h : step c s (.closeDevice fd) = some t) :
    s.table.get fd = some .other ∧ t = { s with table := s.table.close fd } := by
  simp only [step] at h
  split_ifs at h with hfd
  exact ⟨hfd, (Option.some.inj h).symm⟩

theorem step_giveUp {u : Fin c.numThreads} (h : step c s (.giveUp u) = some t) :
    ∃ connfd, s.phase u = .exchange connfd ∧ t = s.setPhase u (.abandoned connfd) := by
  simp only [step] at h
  split at h
  · rename_i connfd hp
    exact ⟨connfd, hp, (Option.some.inj h).symm⟩
  · cases h

theorem step_goOut {u : Fin c.numThreads} {ok : Bool} (h : step c s (.goOut u ok) = some t) :
    ∃ connfd, s.phase u = .exchange connfd ∧ t = s.setPhase u (.out connfd ok) := by
  simp only [step] at h
  split at h
  · rename_i connfd hp
    exact ⟨connfd, hp, (Option.some.inj h).symm⟩
  · cases h

theorem step_close {u : Fin c.numThreads} (h : step c s (.close u) = some t) :
    ∃ connfd ok, s.phase u = .out connfd ok ∧
      t = { s with table := s.table.close connfd }.setPhase u
        (if ok then .back connfd else .ended) := by
  simp only [step] at h
  split at h
  · rename_i connfd ok hp
    exact ⟨connfd, ok, hp, (Option.some.inj h).symm⟩
  · cases h

theorem step_closeAgain {u : Fin c.numThreads} (h : step c s (.closeAgain u) = some t) :
    ∃ connfd, s.phase u = .back connfd ∧
      t = { s with table := s.table.close connfd }.setPhase u .ended := by
  simp only [step] at h
  split at h
  · rename_i connfd hp
    exact ⟨connfd, hp, (Option.some.inj h).symm⟩
  · cases h

end Steps

section Ownership

variable {c : Config} {s t : State c.numThreads}

/-- The close that an action of a thread performs. -/
def closing (s : State c.numThreads) : Action c.numThreads → Option (Fin c.numThreads × ℕ)
  | .close thread =>
    match s.phase thread with
    | .out connfd _ => some (thread, connfd)
    | _ => none
  | .closeAgain thread =>
    match s.phase thread with
    | .back connfd => some (thread, connfd)
    | _ => none
  | _ => none

/-- A thread that closes a number closes its own connection. -/
def ClosesOwn (s : State c.numThreads) (a : Action c.numThreads) : Prop :=
  ∀ thread connfd, closing s a = some (thread, connfd) →
    s.table.get connfd = some (.conn thread)

/-- No thread closes its number a second time. -/
def ClosesOnce (_ : State c.numThreads) (a : Action c.numThreads) : Prop :=
  ∀ thread, a ≠ .closeAgain thread

/-- Threads that main has not yet come to. -/
def Main.Ahead : Main → ℕ → Prop
  | .start, _ => True
  | .loop _ thread, u => thread ≤ u
  | .joining, _ => False

/-- Whatever threads do, an open connection is the one that its thread holds. -/
structure Held (s : State c.numThreads) : Prop where
  idle : ∀ u, s.main.Ahead u.val → s.phase u = .idle
  holds : ∀ u fd, s.table.get fd = some (.conn u) → (s.phase u).holds = some fd

/-- Changing a thread's phase and the table keeps `Held` if the table gains
nothing and the thread's own connection is closed or still held. -/
theorem Held.setPhase (h : Held s) {u : Fin c.numThreads} {p : Phase}
    {table : Descriptors (Open c.numThreads)} (hu : s.phase u ≠ .idle)
    (ht : ∀ fd o, table.get fd = some o → s.table.get fd = some o)
    (hp : ∀ fd, table.get fd = some (.conn u) → p.holds = some fd) :
    Held ({ s with table := table }.setPhase u p) := by
  constructor
  · intro v hv
    have hidle := h.idle v hv
    have hne : v ≠ u := by
      rintro rfl
      exact hu hidle
    rw [setPhase_ne _ p hne]
    exact hidle
  · intro v fd hfd
    by_cases hv : v = u
    · subst v
      rw [setPhase_self]
      exact hp fd hfd
    · rw [setPhase_ne _ p hv]
      exact h.holds v fd (ht fd _ hfd)

/-- Opening something that is no connection gives no thread a number. -/
theorem Held.alloc (h : Held s) {o : Open c.numThreads} (ho : ∀ u, o ≠ .conn u)
    {u : Fin c.numThreads} {fd : ℕ} (hfd : (s.table.alloc o).get fd = some (.conn u)) :
    (s.phase u).holds = some fd := by
  rw [Descriptors.get_alloc] at hfd
  split_ifs at hfd
  · exact absurd (Option.some.inj hfd) (ho u)
  · exact h.holds u fd hfd

theorem held_init : Held (system c).init := by
  refine ⟨fun _ _ => rfl, ?_⟩
  intro u fd h
  exact absurd h (c.opened_ne fd u)

theorem Held.next (h : Held s) {a : Action c.numThreads} (hst : step c s a = some t) : Held t := by
  cases a with
  | listen =>
    obtain ⟨hm, rfl⟩ := step_listen hst
    exact ⟨fun u _ => h.idle u (by rw [hm]; trivial), fun u fd hfd => h.alloc (by simp) hfd⟩
  | accept =>
    obtain ⟨sockfd, u, hm, rfl⟩ := step_accept hst
    constructor
    · intro v hv
      have hlt : u.val + 1 ≤ v.val := hv
      have hne : v ≠ u := by
        rintro rfl
        omega
      rw [setPhase_ne _ _ hne]
      exact h.idle v (by rw [hm]; exact Nat.le_of_succ_le hlt)
    · intro v fd hfd
      simp only [setPhase_table, Descriptors.get_alloc] at hfd
      split_ifs at hfd with he
      · obtain rfl : u = v := by simpa using hfd
        rw [setPhase_self, he]
        rfl
      · have hv := h.holds v fd hfd
        have hne : v ≠ u := by
          rintro rfl
          rw [h.idle v (by rw [hm]; exact le_rfl)] at hv
          cases hv
        rw [setPhase_ne _ _ hne]
        exact hv
  | skip =>
    obtain ⟨sockfd, thread, hm, rfl⟩ := step_skip hst
    refine ⟨?_, h.holds⟩
    intro u hu
    exact h.idle u (by rw [hm]; exact Nat.le_of_succ_le hu)
  | closeListener =>
    obtain ⟨sockfd, thread, hm, rfl⟩ := step_closeListener hst
    exact ⟨fun _ hu => hu.elim, fun u fd hfd => h.holds u fd (Descriptors.get_of_get_close hfd).2⟩
  | openDevice =>
    obtain rfl := step_openDevice hst
    exact ⟨h.idle, fun u fd hfd => h.alloc (by simp) hfd⟩
  | closeDevice fd =>
    obtain ⟨-, rfl⟩ := step_closeDevice hst
    exact ⟨h.idle, fun u fd' hfd => h.holds u fd' (Descriptors.get_of_get_close hfd).2⟩
  | giveUp u =>
    obtain ⟨connfd, hp, rfl⟩ := step_giveUp hst
    refine h.setPhase (by simp [hp]) (fun _ _ hfd => hfd) ?_
    intro fd hfd
    simpa [hp, Phase.holds] using h.holds u fd hfd
  | goOut u ok =>
    obtain ⟨connfd, hp, rfl⟩ := step_goOut hst
    refine h.setPhase (by simp [hp]) (fun _ _ hfd => hfd) ?_
    intro fd hfd
    simpa [hp, Phase.holds] using h.holds u fd hfd
  | close u =>
    obtain ⟨connfd, ok, hp, rfl⟩ := step_close hst
    refine h.setPhase (by simp [hp]) (fun _ _ hfd => (Descriptors.get_of_get_close hfd).2) ?_
    intro fd hfd
    obtain ⟨hne, hfd⟩ := Descriptors.get_of_get_close hfd
    -- the number just closed is the only one under which `u` could be open
    have hheld := h.holds u fd hfd
    simp only [hp, Phase.holds, Option.some.injEq] at hheld
    exact absurd hheld.symm hne
  | closeAgain u =>
    obtain ⟨connfd, hp, rfl⟩ := step_closeAgain hst
    refine h.setPhase (by simp [hp]) (fun _ _ hfd => (Descriptors.get_of_get_close hfd).2) ?_
    intro fd hfd
    have hheld := h.holds u fd (Descriptors.get_of_get_close hfd).2
    rw [hp] at hheld
    cases hheld

/-- As long as no number is closed twice, a thread's number is its connection's
and main's is the listener's. -/
structure Intact (s : State c.numThreads) : Prop where
  holds : ∀ u fd, (s.phase u).holds = some fd → s.table.get fd = some (.conn u)
  listens : ∀ sockfd thread, s.main = .loop sockfd thread → s.table.get sockfd = some .listener

/-- A thread's move keeps `Intact` if the table loses at most that thread's
connection, and this only when the thread does not hold it any more. -/
theorem Intact.setPhase (h : Intact s) {u : Fin c.numThreads} {p : Phase}
    {table : Descriptors (Open c.numThreads)}
    (ht : ∀ fd o, s.table.get fd = some o → o ≠ .conn u → table.get fd = some o)
    (hp : ∀ fd, p.holds = some fd → table.get fd = some (.conn u)) :
    Intact ({ s with table := table }.setPhase u p) := by
  refine ⟨?_, fun sockfd thread hm => ht _ _ (h.listens sockfd thread hm) (by simp)⟩
  intro v fd hv
  by_cases hvu : v = u
  · subst v
    rw [setPhase_self] at hv
    exact hp fd hv
  · rw [setPhase_ne _ p hvu] at hv
    exact ht fd _ (h.holds v fd hv) (by simpa using hvu)

theorem intact_init : Intact (system c).init := by
  constructor
  · intro u fd h
    cases h
  · intro sockfd thread h
    cases h

theorem Intact.next (h : Intact s) {a : Action c.numThreads} (ho : ClosesOnce s a)
    (hst : step c s a = some t) : Intact t := by
  cases a with
  | listen =>
    obtain ⟨-, rfl⟩ := step_listen hst
    refine ⟨fun u fd hu => s.table.get_alloc_of_open (h.holds u fd hu), ?_⟩
    intro sockfd thread hm
    cases hm
    exact s.table.get_alloc_lowest _
  | accept =>
    obtain ⟨sockfd, u, hm, rfl⟩ := step_accept hst
    have hloop : s.table.get sockfd = some .listener := h.listens _ _ hm
    constructor
    · intro v fd hv
      by_cases hvu : v = u
      · subst v
        rw [setPhase_self] at hv
        obtain rfl : s.table.lowest = fd := by simpa [Phase.holds] using hv
        exact s.table.get_alloc_lowest _
      · rw [setPhase_ne _ _ hvu] at hv
        exact s.table.get_alloc_of_open (h.holds v fd hv)
    · intro sockfd' thread hm'
      cases hm'
      exact s.table.get_alloc_of_open hloop
  | skip =>
    obtain ⟨sockfd, thread, hm, rfl⟩ := step_skip hst
    refine ⟨h.holds, ?_⟩
    intro sockfd' thread' hm'
    cases hm'
    exact h.listens _ _ hm
  | closeListener =>
    obtain ⟨sockfd, thread, hm, rfl⟩ := step_closeListener hst
    refine ⟨?_, fun _ _ hm' => by cases hm'⟩
    intro u fd hu
    exact Descriptors.get_close_of_open (h.listens _ _ hm) (h.holds u fd hu) (by simp)
  | openDevice =>
    obtain rfl := step_openDevice hst
    exact ⟨fun u fd hu => s.table.get_alloc_of_open (h.holds u fd hu),
      fun sockfd thread hm => s.table.get_alloc_of_open (h.listens sockfd thread hm)⟩
  | closeDevice fd =>
    obtain ⟨hfd, rfl⟩ := step_closeDevice hst
    constructor
    · intro u fd' hu
      exact Descriptors.get_close_of_open hfd (h.holds u fd' hu) (by simp)
    · intro sockfd thread hm
      exact Descriptors.get_close_of_open hfd (h.listens sockfd thread hm) (by simp)
  | giveUp u =>
    obtain ⟨connfd, hp, rfl⟩ := step_giveUp hst
    refine h.setPhase (fun _ _ hfd _ => hfd) ?_
    intro fd hfd
    exact h.holds u fd (by rw [hp]; exact hfd)
  | goOut u ok =>
    obtain ⟨connfd, hp, rfl⟩ := step_goOut hst
    refine h.setPhase (fun _ _ hfd _ => hfd) ?_
    intro fd hfd
    exact h.holds u fd (by rw [hp]; exact hfd)
  | close u =>
    obtain ⟨connfd, ok, hp, rfl⟩ := step_close hst
    have hown : s.table.get connfd = some (.conn u) := h.holds u connfd (by rw [hp]; rfl)
    refine h.setPhase (fun _ _ hfd hne => Descriptors.get_close_of_open hown hfd hne.symm) ?_
    intro fd hfd
    cases ok <;> cases hfd
  | closeAgain u => exact absurd rfl (ho u)

/-- The close at `out:` is always the thread's own, unless a number was closed
twice before. -/
theorem Intact.closesOwn (h : Intact s) {a : Action c.numThreads} (ho : ClosesOnce s a) :
    ClosesOwn s a := by
  intro thread connfd hcl
  cases a with
  | close u =>
    simp only [closing] at hcl
    split at hcl
    · rename_i fd ok hp
      obtain ⟨rfl, rfl⟩ : u = thread ∧ fd = connfd := by simpa using hcl
      exact h.holds u fd (by rw [hp]; rfl)
    · cases hcl
  | closeAgain u => exact absurd rfl (ho u)
  | _ => cases hcl

/-- A second close never is: the thread's connection is closed by then. -/
theorem Held.not_closesOwn (h : Held s) {u : Fin c.numThreads}
    (hst : step c s (.closeAgain u) = some t) : ¬ ClosesOwn s (.closeAgain u) := by
  intro hown
  obtain ⟨connfd, hp, -⟩ := step_closeAgain hst
  have hheld := h.holds u connfd (hown u connfd (by simp [closing, hp]))
  rw [hp] at hheld
  cases hheld

end Ownership

section Results

variable {c : Config}

/-- In any interleaving of main and the threads, every close of a thread is of
its own connection if and only if no thread comes to its second close. -/
theorem closes_own_iff {as : List (Action c.numThreads)} {s : State c.numThreads}
    (h : (system c).Run (fun _ _ => True) as s) :
    (system c).Run ClosesOwn as s ↔ ∀ thread, .closeAgain thread ∉ as := by
  have hmem : (system c).Run ClosesOnce as s ↔ ∀ thread, .closeAgain thread ∉ as := by
    have hall := h.forall_mem (P := fun a => ∀ thread, a ≠ Action.closeAgain thread)
    refine hall.trans ⟨fun hno u hu => hno _ hu u rfl, ?_⟩
    rintro hno a ha u rfl
    exact hno u ha
  rw [← hmem]
  constructor
  · intro hr
    apply hr.upgrade held_init
    intro s a t hheld hown hst
    refine ⟨?_, hheld.next hst⟩
    rintro u rfl
    exact hheld.not_closesOwn hst hown
  · intro hr
    apply hr.upgrade intact_init
    intro s a t hintact honce hst
    exact ⟨hintact.closesOwn honce, hintact.next honce hst⟩

/-- Two threads with one byte each, in a process that has nothing open. -/
def twoThreads : Config where
  numThreads := 2
  varsize := 2
  opened := ⟨[]⟩
  opened_ne := by
    intro fd thread
    simp [Descriptors.get]

def firstThread : Fin twoThreads.numThreads := ⟨0, by decide⟩

def secondThread : Fin twoThreads.numThreads := ⟨1, by decide⟩

/-- The first thread has closed its connection at `out:` when main accepts the
second one, which gets the same number. -/
def reused : List (Action twoThreads.numThreads) :=
  [.listen, .accept, .goOut firstThread true, .close firstThread, .accept]

theorem closes_own_iff_twoThreads :
    ∃ s, (system twoThreads).Run (fun _ _ => True) reused s ∧
      ((system twoThreads).Run ClosesOwn reused s ↔
        ∀ thread, .closeAgain thread ∉ reused) := by
  have hrun : ((system twoThreads).exec (fun _ _ => True) (system twoThreads).init
      reused).isSome = true := by
    decide +kernel
  obtain ⟨s, hs⟩ := Option.isSome_iff_exists.mp hrun
  exact ⟨s, Machine.run_of_exec hs, closes_own_iff (Machine.run_of_exec hs)⟩

/-- The first thread can then close the connection that main has handed to the
second. -/
theorem stale_close_hits_other :
    ∃ s, (system twoThreads).Reachable s ∧
      (system twoThreads).Enabled s (.closeAgain firstThread) ∧
      closing s (.closeAgain firstThread) = some (firstThread, 1) ∧
      s.table.get 1 = some (.conn secondThread) := by
  have hrun : ((system twoThreads).exec (fun _ _ => True) (system twoThreads).init reused).map
      (fun s => (((system twoThreads).step s (.closeAgain firstThread)).isSome,
        closing s (.closeAgain firstThread), s.table.get 1)) =
      some (true, some (firstThread, 1), some (.conn secondThread)) := by
    decide +kernel
  obtain ⟨s, hs, heq⟩ := Option.map_eq_some_iff.mp hrun
  simp only [Prod.mk.injEq] at heq
  obtain ⟨hstep, hclosing, hget⟩ := heq
  exact ⟨s, ⟨reused, Machine.run_of_exec hs⟩, Machine.enabled_of_isSome hstep, hclosing, hget⟩

theorem stale_close : ¬ ∀ s a, (system twoThreads).Reachable s →
    (system twoThreads).Enabled s a → ClosesOwn s a := by
  intro h
  obtain ⟨s, hs, henabled, hclosing, hget⟩ := stale_close_hits_other
  have hown := h s (.closeAgain firstThread) hs henabled firstThread 1 hclosing
  rw [hget] at hown
  revert hown
  decide

end Results

end InfinibandWorkshop.Multithread.Server
