import InfinibandWorkshop.SelectTable
import Mathlib.Logic.Relation

/-!
# The calls of the select loop

What the server calls next, on which descriptor, and what `select` had said about it.
As long as `select` succeeds no call is made on a descriptor that was not reported.
After a failed one the whole set counts as reported, and a failed read or send ends
the server for every client.
-/
namespace InfinibandWorkshop.SelectLoop
open CText (Byte)

variable {c : Config} {s t : State c.maxClients} {a : Action}

section Calls

/-- A system call on a descriptor. -/
inductive Call
  | accept
  | read (fd : ℕ)
  | send (fd : ℕ)
  deriving DecidableEq

/-- The call that the server makes next, whether it returns or blocks. -/
def nextCall (s : State c.maxClients) : Option Call :=
  match s.pc with
  | .listener => if c.lsd ∈ s.fds then some .accept else none
  | .scan i => if s.clients i ∈ s.fds then some (.read (s.clients i)) else none
  | .echo i (_ :: _) => some (.send (s.clients i))
  | _ => none

/-- The calls that an action can be the outcome of. -/
def Action.outcomeOf : Action → Call → Prop
  | .accept _, .accept | .acceptFail, .accept => True
  | .read _, .read _ | .readFail, .read _ => True
  | .send _, .send _ | .sendFail, .send _ => True
  | _, _ => False

theorem nextCall_scan {i : Fin c.maxClients} (hpc : s.pc = .scan i) (h : s.clients i ∈ s.fds) :
    nextCall s = some (.read (s.clients i)) := by
  simp [nextCall, hpc, h]

theorem nextCall_echo {i : Fin c.maxClients} {left : List Byte} (hpc : s.pc = .echo i left)
    (h : left ≠ []) : nextCall s = some (.send (s.clients i)) := by
  obtain ⟨b, rest, rfl⟩ := List.exists_cons_of_ne_nil h
  simp [nextCall, hpc]

/-- A call returns only when it is the next one. -/
theorem nextCall_of_step {call : Call} (ha : a.outcomeOf call)
    (h : (system c).step s a = some t) :
    ∃ call', a.outcomeOf call' ∧ nextCall s = some call' := by
  cases a with
  | accept fd =>
    have hacc := accepts_of_step h
    exact ⟨.accept, trivial, by simp [nextCall, hacc.pc_old, hacc.ready]⟩
  | acceptFail =>
    simp only [system, step] at h
    split_ifs at h with hif
    exact ⟨.accept, trivial, by simp [nextCall, hif]⟩
  | read n =>
    simp only [system, step] at h
    split at h
    · next i hpc =>
      split at h
      · split_ifs at h with hset
        · exact ⟨.read (s.clients i), trivial, nextCall_scan hpc hset⟩
        · exact ⟨.read (s.clients i), trivial, nextCall_scan hpc hset⟩
      · cases h
    · cases h
  | readFail =>
    obtain ⟨i, hpc, hset, _⟩ := readFail_cases h
    exact ⟨.read (s.clients i), trivial, nextCall_scan hpc hset⟩
  | send n =>
    simp only [system, step] at h
    split at h
    · next i left hpc =>
      split_ifs at h with hif hleft
      all_goals
        have hne : left ≠ [] := List.ne_nil_of_length_pos (by omega)
        exact ⟨.send (s.clients i), trivial, nextCall_echo hpc hne⟩
    · cases h
  | sendFail =>
    obtain ⟨i, b, left, hpc, _⟩ := sendFail_cases h
    have hne : b :: left ≠ [] := List.cons_ne_nil b left
    exact ⟨.send (s.clients i), trivial, nextCall_echo hpc hne⟩
  | _ => cases call <;> exact ha.elim

/-- What the table and the next call are like in an iteration as it should be. -/
structure Orderly (s : State c.maxClients) : Prop where
  distinct : ∀ i j, s.clients i ≠ 0 → s.clients i = s.clients j → i = j
  opened : ∀ i, s.clients i ≠ 0 → s.clients i ∈ s.opened
  accepts : nextCall s = some .accept → c.lsd ∈ s.reported
  reads : ∀ fd, nextCall s = some (.read fd) →
    fd ∈ s.reported ∧ fd ≠ 0 ∧ .accepted fd ∉ s.events ∧ .closed fd ∉ s.events
  sends : ∀ fd, nextCall s = some (.send fd) → lastRead s.events = some fd

/-- Where the server is when it makes a call. -/
theorem nextCall_spec {call : Call} (h : nextCall s = some call) :
    match call with
    | .accept => c.lsd ∈ s.fds
    | .read fd => ∃ i, s.clients i = fd ∧ fd ∈ s.fds
    | .send fd => ∃ i left, s.pc = .echo i left ∧ s.clients i = fd := by
  unfold nextCall at h
  split at h
  · split_ifs at h with hset
    cases h
    exact hset
  · next i hpc =>
    split_ifs at h with hset
    cases h
    exact ⟨i, rfl, hset⟩
  · next i b left hpc =>
    cases h
    exact ⟨i, b :: left, hpc, rfl⟩
  · cases h

def SelectSucceeds (_ : State c.maxClients) (a : Action) : Prop := a ≠ .selectFail

instance (s : State c.maxClients) (a : Action) : Decidable (SelectSucceeds s a) :=
  inferInstanceAs (Decidable (a ≠ .selectFail))

/-- The set is what `select` has reported. -/
def SetReported (s : State c.maxClients) : Prop := s.fds = s.reported

theorem setReported_step (hs : SetReported s) (ha : SelectSucceeds s a)
    (h : (system c).step s a = some t) : SetReported t := by
  unfold SetReported at *
  by_cases hacc : ∃ fd, a = .accept fd
  · obtain ⟨fd, rfl⟩ := hacc
    have heff := accepts_of_step h
    rw [heff.fds, heff.reported, hs]
  · cases step_effect (by simpa using hacc) h with
    | client h => rw [h.fds, h.reported, hs]
    | select h hpc hev hfds hrep => exact hrep.resolve_right ha
    | pass h => rw [h.fds, h.reported, hs]
    | read i left h => rw [h.fds, h.reported, hs]
    | close i h => rw [h.fds, h.reported, hs]
    | sent i left rest h => rw [h.fds, h.reported, hs]

theorem setReported_of_reachable (h : (system c).ReachableBy SelectSucceeds s) :
    SetReported s := by
  have hinit : SetReported (system c).init := rfl
  exact h.invariant hinit (fun _ _ _ hs hok hst => setReported_step hs hok hst)

/-- While no `select` fails, no call is made on a descriptor that was not reported or
is not the one it is meant for. -/
theorem orderly (h : (system c).ReachableBy SelectSucceeds s) : Orderly s := by
  have hs := sound_of_reachable h
  have hrep : s.fds = s.reported := setReported_of_reachable h
  constructor
  case distinct => exact hs.table.distinct
  case opened => exact hs.table.mem
  case accepts =>
    intro hcall
    have hset : c.lsd ∈ s.fds := nextCall_spec hcall
    exact hrep ▸ hset
  case reads =>
    intro fd hcall
    obtain ⟨i, hi, hfd⟩ := nextCall_spec hcall
    have hne : fd ≠ 0 := by
      intro h0
      exact hs.set (h0 ▸ hfd)
    have haccepted : .accepted fd ∉ s.events := fun hmem => hs.accepted fd hmem hfd
    have hclosed : .closed fd ∉ s.events := fun hmem => (hs.closed fd hmem).2 i hi
    exact ⟨hrep ▸ hfd, hne, haccepted, hclosed⟩
  case sends =>
    intro fd hcall
    obtain ⟨i, left, hpc, rfl⟩ := nextCall_spec hcall
    exact hs.echo i left hpc

/-- One client is accepted, sends, and is reported. -/
def oneClient : List Action :=
  [.connect, .select [3], .accept 4] ++ List.replicate 10 .skip
    ++ [.clientSend (.accepted 4) [104, 105], .select [4], .skip]

theorem orderly_oneClient : ∃ s, (system tenClients).ReachableBy SelectSucceeds s ∧
    nextCall s = some (.read 4) ∧ Orderly s := by
  have hexec : ((system tenClients).exec SelectSucceeds (system tenClients).init oneClient).map
      nextCall = some (some (.read 4)) := by
    decide +kernel
  obtain ⟨s, hs, hcall⟩ := Option.map_eq_some_iff.mp hexec
  have hreach : (system tenClients).ReachableBy SelectSucceeds s := ⟨_, Machine.run_of_exec hs⟩
  exact ⟨s, hreach, hcall, orderly hreach⟩

end Calls

section Failures

/-- A call made for one connection fails, or `select` does. -/
def Failure : Action → Prop
  | .selectFail | .readFail | .sendFail => True
  | _ => False

/-- The slot of the connection that the server is busy with. -/
def Serves (s : State c.maxClients) (i : Fin c.maxClients) : Prop :=
  s.pc = .scan i ∨ ∃ left, s.pc = .echo i left

/-- `t` comes after `s` in the same iteration. -/
def Continues (s t : State c.maxClients) : Prop :=
  Relation.ReflTransGen (fun u v => ∃ a, a ≠ .selectFail ∧ (∀ ready, a ≠ .select ready) ∧
    (system c).step u a = some v) s t

/-- The failure that led from `s` to `t` is no concern of the other clients. -/
structure Isolated (s t : State c.maxClients) : Prop where
  running : ∀ status, t.pc ≠ .stopped status
  others : ∀ i, ¬ Serves s i →
    t.clients i = s.clients i ∧ t.conns (s.clients i) = s.conns (s.clients i)
  accepts : ∀ u, Continues t u → nextCall u = some .accept → c.lsd ∈ u.reported
  reads : ∀ u, Continues t u → ∀ fd, nextCall u = some (.read fd) → fd ∈ u.reported

/-- After a failed `select` the set is the one passed in, so the listener is in it. -/
theorem accept_of_selectFail (h : (system c).step s .selectFail = some t) :
    nextCall t = some .accept ∧ t.reported = [] := by
  simp only [system, step] at h
  split_ifs at h
  cases h
  have hlsd : c.lsd ∈ watched c s.clients := mem_watched.mpr (Or.inl rfl)
  exact ⟨if_pos hlsd, rfl⟩

theorem stopped_of_readFail (h : (system c).step s .readFail = some t) : t.pc = .stopped 1 := by
  obtain ⟨i, _, _, rfl⟩ := readFail_cases h
  rfl

theorem stopped_of_sendFail (h : (system c).step s .sendFail = some t) : t.pc = .stopped 1 := by
  obtain ⟨i, b, left, _, rfl⟩ := sendFail_cases h
  rfl

/-- What a failure spoils is not the table. -/
theorem failure_keeps_table (ha : Failure a) (h : (system c).step s a = some t) :
    t.clients = s.clients ∧ t.conns = s.conns := by
  cases a with
  | selectFail =>
    simp only [system, step] at h
    split_ifs at h
    cases h
    exact ⟨rfl, rfl⟩
  | readFail =>
    obtain ⟨i, _, _, rfl⟩ := readFail_cases h
    exact ⟨rfl, rfl⟩
  | sendFail =>
    obtain ⟨i, b, left, _, rfl⟩ := sendFail_cases h
    exact ⟨rfl, rfl⟩
  | _ => exact ha.elim

/-- No failure is isolated, in whatever state it happens. -/
theorem failure_not_isolated (ha : Failure a) (h : (system c).step s a = some t) :
    ¬ Isolated s t := by
  intro hiso
  cases a with
  | selectFail =>
    obtain ⟨hcall, hrep⟩ := accept_of_selectFail h
    have hmem := hiso.accepts t .refl hcall
    rw [hrep] at hmem
    exact List.not_mem_nil hmem
  | readFail => exact hiso.running 1 (stopped_of_readFail h)
  | sendFail => exact hiso.running 1 (stopped_of_sendFail h)
  | _ => exact ha

/-- Two clients are connected, and the first one is reported. -/
def twoClients : List Action :=
  [.connect, .connect, .select [3], .accept 4] ++ List.replicate 10 .skip
    ++ [.select [3], .accept 5] ++ List.replicate 10 .skip ++ [.select [4], .skip]

theorem twoClients_reached : ∃ s t, (system tenClients).Reachable s ∧
    (system tenClients).step s .readFail = some t := by
  have hexec : (((system tenClients).exec (fun _ _ => True) (system tenClients).init
      twoClients).bind (fun s => (system tenClients).step s .readFail)).isSome = true := by
    decide +kernel
  obtain ⟨t, ht⟩ := Option.isSome_iff_exists.mp hexec
  obtain ⟨s, hs, hst⟩ := Option.bind_eq_some_iff.mp ht
  exact ⟨s, t, ⟨_, Machine.run_of_exec hs⟩, hst⟩

theorem failure_not_isolated_twoClients : ∃ s t, (system tenClients).Reachable s ∧
    (system tenClients).step s .readFail = some t ∧ ¬ Isolated s t := by
  obtain ⟨s, t, hs, hst⟩ := twoClients_reached
  exact ⟨s, t, hs, hst, failure_not_isolated (a := .readFail) trivial hst⟩

/-- The read of the first client fails and the second one has no server. -/
theorem readFail_ends_server : ¬ ∀ (c : Config) (s t : State c.maxClients) (a : Action),
    (system c).Reachable s → Failure a → (system c).step s a = some t → Isolated s t := by
  intro h
  obtain ⟨s, t, hs, hst⟩ := twoClients_reached
  have hiso := h tenClients s t .readFail hs trivial hst
  exact hiso.running 1 (stopped_of_readFail hst)

end Failures

end InfinibandWorkshop.SelectLoop
