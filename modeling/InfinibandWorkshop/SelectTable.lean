import InfinibandWorkshop.SelectLoop
import InfinibandWorkshop.SlotTable

/-!
# The table of the select loop

The table is sound in every run: two slots never hold one descriptor, and what a slot
holds is open. The set that `select` filled is read against a table that has changed
since; a descriptor that was accepted or closed in the iteration is not in both. What
can go wrong is that a connection is accepted while every slot is in use.
-/
namespace InfinibandWorkshop.SelectLoop
open CText (Byte)

variable {c : Config} {s t : State c.maxClients} {a : Action}

/-- The descriptors that `accept` has returned and the server has not closed. -/
def State.opened {n : ℕ} (s : State n) : Set ℕ := {fd | (s.conns fd).isSome}

theorem mem_opened {fd : ℕ} : fd ∈ s.opened ↔ ∃ conn, s.conns fd = some conn := by
  simp [State.opened, Option.isSome_iff_exists]

theorem opened_update_some {fd : ℕ} {conn : Conn}
    (h : t.conns = Function.update s.conns fd (some conn)) :
    t.opened = insert fd s.opened := by
  ext x
  by_cases hx : x = fd
  · simp [State.opened, h, hx]
  · simp [State.opened, h, hx]

theorem opened_update_none {fd : ℕ} (h : t.conns = Function.update s.conns fd none) :
    t.opened = s.opened \ {fd} := by
  ext x
  by_cases hx : x = fd
  · simp [State.opened, h, hx]
  · simp [State.opened, h, hx]

theorem opened_update_map {fd : ℕ} {f : Conn → Conn}
    (h : t.conns = Function.update s.conns fd ((s.conns fd).map f)) : t.opened = s.opened := by
  ext x
  by_cases hx : x = fd
  · simp [State.opened, h, hx]
  · simp [State.opened, h, Function.update_of_ne hx]

section Store

variable {n : ℕ} {clients : Fin n → ℕ}

theorem storeClient_of_room (fd : ℕ) (h : ∃ i, clients i = 0) :
    ∃ i, clients i = 0 ∧ storeClient clients fd = Function.update clients i fd := by
  obtain ⟨j, hj⟩ := h
  cases hf : (List.finRange n).find? (fun i => clients i = 0) with
  | none =>
    have hnone := List.find?_eq_none.mp hf j (List.mem_finRange j)
    simp [hj] at hnone
  | some i =>
    have hi := List.find?_some hf
    exact ⟨i, by simpa using hi, by simp [storeClient, hf]⟩

theorem storeClient_of_full (fd : ℕ) (h : ¬ ∃ i, clients i = 0) :
    storeClient clients fd = clients := by
  have hf : (List.finRange n).find? (fun i => clients i = 0) = none := by
    rw [List.find?_eq_none]
    intro i _ hi
    exact h ⟨i, by simpa using hi⟩
  simp [storeClient, hf]

theorem mem_watched {clients : Fin c.maxClients → ℕ} {fd : ℕ} :
    fd ∈ watched c clients ↔ fd = c.lsd ∨ fd ≠ 0 ∧ ∃ i, clients i = fd := by
  simp [watched, Nat.pos_iff_ne_zero, and_comm]

end Store

section Steps

/-- Where the server neither tests the listener nor echoes. -/
def Pc.between {n : ℕ} : Pc n → Prop
  | .listener | .echo _ _ => False
  | _ => True

theorem between_scanFrom (n i : ℕ) : (scanFrom n i).between := by
  unfold scanFrom
  split <;> trivial

/-- The descriptor of the last read of the iteration, if only sends came after it. -/
def lastRead : List Event → Option ℕ
  | .read fd :: _ => some fd
  | .sent _ :: events => lastRead events
  | _ => none

structure SameTable (s t : State c.maxClients) : Prop where
  clients : t.clients = s.clients
  opened : t.opened = s.opened

/-- The set is as it was, and no connection was accepted or closed. -/
structure SameSet (s t : State c.maxClients) : Prop extends SameTable s t where
  fds : t.fds = s.fds
  reported : t.reported = s.reported
  accepted : ∀ fd, .accepted fd ∈ t.events → .accepted fd ∈ s.events
  closed : ∀ fd, .closed fd ∈ t.events → .closed fd ∈ s.events

structure Accepts (s : State c.maxClients) (fd : ℕ) (t : State c.maxClients) : Prop where
  pc_old : s.pc = .listener
  ready : c.lsd ∈ s.fds
  ne_zero : fd ≠ 0
  ne_lsd : fd ≠ c.lsd
  fresh : fd ∉ s.opened
  clients : t.clients = storeClient s.clients fd
  opened : t.opened = insert fd s.opened
  fds : t.fds = s.fds
  reported : t.reported = s.reported
  events : t.events = .accepted fd :: s.events
  pc : t.pc.between

structure Closes (s : State c.maxClients) (i : Fin c.maxClients) (t : State c.maxClients) :
    Prop where
  mem : s.clients i ∈ s.opened
  clients : t.clients = Function.update s.clients i 0
  opened : t.opened = s.opened \ {s.clients i}
  fds : t.fds = s.fds
  reported : t.reported = s.reported
  events : t.events = .closed (s.clients i) :: .read (s.clients i) :: s.events
  pc : t.pc.between

/-- What a step that is no `accept` does. -/
inductive Effect (s : State c.maxClients) (a : Action) (t : State c.maxClients) : Prop
  | client (hs : SameSet s t) (hpc : t.pc = s.pc) (hev : t.events = s.events)
  | select (hs : SameTable s t) (hpc : t.pc = .listener) (hev : t.events = [])
      (hfds : t.fds ⊆ watched c s.clients) (hrep : t.fds = t.reported ∨ a = .selectFail)
  | pass (hs : SameSet s t) (hpc : t.pc.between)
  | read (i : Fin c.maxClients) (left : List Byte) (hs : SameSet s t) (hpc : t.pc = .echo i left)
      (hev : t.events = .read (s.clients i) :: s.events)
  | close (i : Fin c.maxClients) (hc : Closes s i t)
  | sent (i : Fin c.maxClients) (left rest : List Byte) (hs : SameSet s t)
      (hold : s.pc = .echo i left) (hpc : t.pc = .echo i rest)
      (hev : t.events = .sent (s.clients i) :: s.events)

theorem accepts_of_step {fd : ℕ} (h : step c s (.accept fd) = some t) : Accepts s fd t := by
  simp only [step] at h
  split at h
  · next conn rest hpc hbl =>
    split_ifs at h with hif
    obtain ⟨hready, hpos, hlsd, hfresh⟩ := hif
    cases h
    exact ⟨hpc, hready, hpos.ne', hlsd, by simp [State.opened, hfresh], rfl,
      opened_update_some rfl, rfl, rfl, rfl, between_scanFrom _ _⟩
  · cases h

theorem SameSet.of_events (h : SameTable s t) (hfds : t.fds = s.fds)
    (hrep : t.reported = s.reported) (hev : t.events = s.events) : SameSet s t :=
  ⟨h, hfds, hrep, by simp [hev], by simp [hev]⟩

theorem readFail_cases (h : step c s .readFail = some t) :
    ∃ i, s.pc = .scan i ∧ s.clients i ∈ s.fds ∧
      t = { s with events := .read (s.clients i) :: s.events, pc := .stopped 1 } := by
  simp only [step] at h
  split at h
  · next i hpc =>
    split_ifs at h with hset
    exact ⟨i, hpc, hset, (Option.some.inj h).symm⟩
  · cases h

theorem sendFail_cases (h : step c s .sendFail = some t) :
    ∃ i b left, s.pc = .echo i (b :: left) ∧
      t = { s with events := .sent (s.clients i) :: s.events, pc := .stopped 1 } := by
  simp only [step] at h
  split at h
  · next i b left hpc => exact ⟨i, b, left, hpc, (Option.some.inj h).symm⟩
  · cases h

theorem onConn_effect {w : Target} {f : Conn → Conn} (h : s.onConn w f = some t) :
    SameSet s t ∧ t.pc = s.pc ∧ t.events = s.events := by
  cases w with
  | waiting k =>
    simp only [State.onConn] at h
    split at h
    · split_ifs at h
      cases h
      exact ⟨.of_events ⟨rfl, rfl⟩ rfl rfl rfl, rfl, rfl⟩
    · cases h
  | accepted fd =>
    simp only [State.onConn] at h
    split at h
    · next conn hconn =>
      split_ifs at h
      cases h
      have hopened : ({ s with conns := Function.update s.conns fd (some (f conn)) }).opened
          = s.opened := by
        rw [opened_update_some rfl, Set.insert_eq_of_mem (mem_opened.mpr ⟨conn, hconn⟩)]
      exact ⟨.of_events ⟨rfl, hopened⟩ rfl rfl rfl, rfl, rfl⟩
    · cases h

theorem read_effect {n : ℕ} (h : step c s (.read n) = some t) : Effect s (.read n) t := by
  simp only [step] at h
  split at h
  · next i hpc =>
    split at h
    · next conn hconn =>
      have hmem : s.clients i ∈ s.opened := mem_opened.mpr ⟨conn, hconn⟩
      split_ifs at h with hset hdata heof
      · cases h
        refine .read i _ ⟨⟨rfl, ?_⟩, rfl, rfl, by simp, by simp⟩ rfl rfl
        rw [opened_update_some rfl, Set.insert_eq_of_mem hmem]
      · cases h
        exact .close i ⟨hmem, rfl, opened_update_none rfl, rfl, rfl, rfl, between_scanFrom _ _⟩
    · cases h
  · cases h

theorem send_effect {n : ℕ} (h : step c s (.send n) = some t) : Effect s (.send n) t := by
  simp only [step] at h
  split at h
  · next i left hpc =>
    split_ifs at h with hif hleft
    · cases h
      exact .pass ⟨⟨rfl, opened_update_map rfl⟩, rfl, rfl, by simp, by simp⟩
        (between_scanFrom _ _)
    · cases h
      exact .sent i left _ ⟨⟨rfl, opened_update_map rfl⟩, rfl, rfl, by simp, by simp⟩ hpc rfl rfl
  · cases h

theorem step_effect (ha : ∀ fd, a ≠ .accept fd) (h : step c s a = some t) : Effect s a t := by
  cases a with
  | connect =>
    cases h
    exact .client (.of_events ⟨rfl, rfl⟩ rfl rfl rfl) rfl rfl
  | clientSend w bytes =>
    obtain ⟨hs, hpc, hev⟩ := onConn_effect h
    exact .client hs hpc hev
  | clientClose w =>
    obtain ⟨u, hu, rfl⟩ := Option.map_eq_some_iff.mp h
    obtain ⟨hs, hpc, hev⟩ := onConn_effect hu
    exact .client ⟨⟨hs.clients, hs.opened⟩, hs.fds, hs.reported, hs.accepted, hs.closed⟩ hpc hev
  | select ready =>
    simp only [step] at h
    split_ifs at h with hif
    cases h
    exact .select ⟨rfl, rfl⟩ rfl rfl hif.2 (Or.inl rfl)
  | selectFail =>
    simp only [step] at h
    split_ifs at h
    cases h
    exact .select ⟨rfl, rfl⟩ rfl rfl (List.Subset.refl _) (Or.inr rfl)
  | skip =>
    simp only [step] at h
    split at h
    · split_ifs at h
      cases h
      exact .pass (.of_events ⟨rfl, rfl⟩ rfl rfl rfl) (between_scanFrom _ _)
    · split_ifs at h
      cases h
      exact .pass (.of_events ⟨rfl, rfl⟩ rfl rfl rfl) (between_scanFrom _ _)
    · cases h
  | accept fd => exact absurd rfl (ha fd)
  | acceptFail =>
    simp only [step] at h
    split_ifs at h
    cases h
    exact .pass (.of_events ⟨rfl, rfl⟩ rfl rfl rfl) trivial
  | read n => exact read_effect h
  | readFail =>
    obtain ⟨i, _, _, rfl⟩ := readFail_cases h
    exact .pass ⟨⟨rfl, rfl⟩, rfl, rfl, by simp, by simp⟩ trivial
  | send n => exact send_effect h
  | sendNone minusOne =>
    simp only [step] at h
    split at h
    · cases h
      refine .pass (.of_events ⟨rfl, rfl⟩ rfl rfl rfl) ?_
      cases minusOne with
      | true => trivial
      | false => exact between_scanFrom _ _
    · cases h
  | sendFail =>
    obtain ⟨i, b, left, _, rfl⟩ := sendFail_cases h
    exact .pass ⟨⟨rfl, rfl⟩, rfl, rfl, by simp, by simp⟩ trivial

end Steps

section Sound

theorem Pc.between.ne_listener {n : ℕ} {pc : Pc n} (h : pc.between) : pc ≠ .listener := by
  intro he
  rw [he] at h
  exact h

theorem Pc.between.ne_echo {n : ℕ} {pc : Pc n} (h : pc.between) (i : Fin n)
    (left : List Byte) : pc ≠ .echo i left := by
  intro he
  rw [he] at h
  exact h

/-- What holds in every run, failed calls of `select` included. -/
structure Sound (s : State c.maxClients) : Prop where
  table : SlotTable.Sound 0 s.clients s.opened
  set : 0 ∉ s.fds
  before : s.pc = .listener → s.events = [] ∧ s.fds ⊆ watched c s.clients
  accepted : ∀ fd, .accepted fd ∈ s.events → fd ∉ s.fds
  closed : ∀ fd, .closed fd ∈ s.events → fd ≠ 0 ∧ ∀ i, s.clients i ≠ fd
  echo : ∀ i left, s.pc = .echo i left → lastRead s.events = some (s.clients i)

theorem sound_init : Sound (system c).init where
  table := by
    have hopened : (system c).init.opened = ∅ := by
      ext fd
      simp [system, State.opened]
    rw [hopened]
    exact SlotTable.sound_init
  set := List.not_mem_nil
  before := by
    intro h
    cases h
  accepted := by simp [system]
  closed := by simp [system]
  echo := by
    intro i left h
    cases h

theorem zero_notMem_watched (clients : Fin c.maxClients → ℕ) : 0 ∉ watched c clients := by
  intro h
  rcases mem_watched.mp h with h | h
  · exact c.lsd_pos.ne h
  · exact h.1 rfl

theorem Sound.accept (hs : Sound s) {fd : ℕ} (h : Accepts s fd t) : Sound t where
  table := by
    rw [h.clients, h.opened]
    by_cases hroom : ∃ i, s.clients i = 0
    · obtain ⟨i, _, hi⟩ := storeClient_of_room fd hroom
      rw [hi]
      exact hs.table.store h.fresh h.ne_zero
    · rw [storeClient_of_full fd hroom]
      exact hs.table.drop h.ne_zero
  set := by
    rw [h.fds]
    exact hs.set
  before := fun hpc => absurd hpc h.pc.ne_listener
  accepted := by
    intro fd' hmem hfd
    obtain ⟨hev, hsub⟩ := hs.before h.pc_old
    rw [h.fds] at hfd
    simp only [h.events, hev, List.mem_singleton, Event.accepted.injEq] at hmem
    subst fd'
    -- the number is new, so no slot held it when the set was filled
    rcases mem_watched.mp (hsub hfd) with hlsd | ⟨_, i, hi⟩
    · exact h.ne_lsd hlsd
    · exact hs.table.ne_of_notMem h.fresh h.ne_zero i hi
  closed := by
    intro fd' hmem
    obtain ⟨hev, _⟩ := hs.before h.pc_old
    simp [h.events, hev] at hmem
  echo := fun i left hpc => absurd hpc (h.pc.ne_echo i left)

theorem Sound.close (hs : Sound s) {i : Fin c.maxClients} (h : Closes s i t) : Sound t := by
  have hi : s.clients i ≠ 0 := hs.table.ne_empty h.mem
  constructor
  case table =>
    rw [h.clients, h.opened]
    exact hs.table.clear hi
  case set =>
    rw [h.fds]
    exact hs.set
  case before => exact fun hpc => absurd hpc h.pc.ne_listener
  case accepted =>
    intro fd hmem
    rw [h.fds]
    apply hs.accepted fd
    simpa [h.events] using hmem
  case closed =>
    intro fd hmem
    rw [h.clients]
    simp only [h.events, List.mem_cons, Event.closed.injEq, reduceCtorEq, false_or] at hmem
    rcases hmem with hfd | hmem
    · subst fd
      exact ⟨hi, hs.table.update_ne hi⟩
    · obtain ⟨hne, hslots⟩ := hs.closed fd hmem
      exact ⟨hne, SlotTable.update_empty_ne hne hslots i⟩
  case echo => exact fun j left hpc => absurd hpc (h.pc.ne_echo j left)

/-- Steps that change neither the table nor the set. -/
theorem Sound.same (hs : Sound s) (h : SameSet s t)
    (hbefore : t.pc = .listener → t.events = [] ∧ t.fds ⊆ watched c t.clients)
    (hecho : ∀ i left, t.pc = .echo i left → lastRead t.events = some (t.clients i)) :
    Sound t where
  table := by
    rw [h.clients, h.opened]
    exact hs.table
  set := by
    rw [h.fds]
    exact hs.set
  before := hbefore
  accepted := by
    intro fd hmem
    rw [h.fds]
    exact hs.accepted fd (h.accepted fd hmem)
  closed := by
    intro fd hmem
    rw [h.clients]
    exact hs.closed fd (h.closed fd hmem)
  echo := hecho

/-- Among them those that leave the server echoing what it has read last. -/
theorem Sound.echoing (hs : Sound s) (h : SameSet s t) {i : Fin c.maxClients} {left : List Byte}
    (hpc : t.pc = .echo i left) (hlast : lastRead t.events = some (s.clients i)) : Sound t := by
  apply hs.same h
  · intro hl
    rw [hpc] at hl
    cases hl
  · intro j left' he
    rw [hpc] at he
    cases he
    rw [h.clients]
    exact hlast

theorem Sound.effect (hs : Sound s) (h : Effect s a t) : Sound t := by
  cases h with
  | client h hpc hev =>
    apply hs.same h
    · rw [hpc, hev, h.fds, h.clients]
      exact hs.before
    · rw [hpc, hev, h.clients]
      exact hs.echo
  | select h hpc hev hfds =>
    constructor
    case table =>
      rw [h.clients, h.opened]
      exact hs.table
    case set => exact fun h0 => zero_notMem_watched s.clients (hfds h0)
    case before =>
      rw [h.clients]
      exact fun _ => ⟨hev, hfds⟩
    case accepted => simp [hev]
    case closed => simp [hev]
    case echo =>
      intro i left hi
      rw [hpc] at hi
      cases hi
  | pass h hpc =>
    exact hs.same h (fun hl => absurd hl hpc.ne_listener)
      (fun i left he => absurd he (hpc.ne_echo i left))
  | read i left h hpc hev =>
    apply hs.echoing h hpc
    rw [hev]
    rfl
  | close i h => exact hs.close h
  | sent i left rest h hold hpc hev =>
    apply hs.echoing h hpc
    rw [hev]
    exact hs.echo i left hold

theorem Sound.step (hs : Sound s) (h : (system c).step s a = some t) : Sound t := by
  by_cases ha : ∃ fd, a = .accept fd
  · obtain ⟨fd, rfl⟩ := ha
    exact hs.accept (accepts_of_step h)
  · exact hs.effect (step_effect (by simpa using ha) h)

theorem sound_of_reachable {ok : State c.maxClients → Action → Prop}
    (h : (system c).ReachableBy ok s) : Sound s :=
  h.invariant sound_init (fun _ _ _ hs _ hst => hs.step hst)

end Sound

section Kept

/-- Every open descriptor is in exactly one slot. -/
def Kept (s : State c.maxClients) : Prop := ∀ fd ∈ s.opened, ∃! i, s.clients i = fd

theorem kept_iff_complete : Kept s ↔ SlotTable.Complete s.clients s.opened := Iff.rfl

/-- What is in a slot is in the set of the next `select`. -/
theorem Kept.watched (hk : Kept s) (hs : Sound s) {fd : ℕ} (hfd : fd ∈ s.opened) :
    fd ∈ watched c s.clients := by
  obtain ⟨i, hi, _⟩ := hk fd hfd
  exact mem_watched.mpr (Or.inr ⟨hs.table.ne_empty hfd, i, hi⟩)

/-- `accept` is called while a slot is empty. -/
def HasRoom (s : State c.maxClients) : Action → Prop
  | .accept _ => ∃ i, s.clients i = 0
  | _ => True

theorem hasRoom_of_ne (ha : ∀ fd, a ≠ .accept fd) : HasRoom s a := by
  cases a with
  | accept fd => exact absurd rfl (ha fd)
  | _ => trivial

theorem kept_accept_iff (hs : Sound s) {fd : ℕ} (h : Accepts s fd t) :
    Kept t ↔ Kept s ∧ HasRoom s (.accept fd) := by
  rw [kept_iff_complete, kept_iff_complete, h.clients, h.opened]
  by_cases hroom : ∃ i, s.clients i = 0
  · obtain ⟨i, hi, hstore⟩ := storeClient_of_room fd hroom
    rw [hstore, hs.table.complete_store_iff h.fresh h.ne_zero hi]
    exact (and_iff_left hroom).symm
  · rw [storeClient_of_full fd hroom]
    have hno := hs.table.not_complete_drop h.fresh h.ne_zero
    exact iff_of_false hno (fun hk => hroom hk.2)

theorem kept_congr (h : SameTable s t) : Kept t ↔ Kept s := by
  rw [Kept, Kept, h.clients, h.opened]

theorem kept_effect_iff (hs : Sound s) (h : Effect s a t) : Kept t ↔ Kept s := by
  cases h with
  | client h => exact kept_congr h.toSameTable
  | select h => exact kept_congr h
  | pass h => exact kept_congr h.toSameTable
  | read i left h => exact kept_congr h.toSameTable
  | close i h =>
    rw [kept_iff_complete, kept_iff_complete, h.clients, h.opened]
    exact hs.table.complete_clear_iff (hs.table.ne_empty h.mem)
  | sent i left rest h => exact kept_congr h.toSameTable

theorem kept_step_iff (hs : Sound s) (h : (system c).step s a = some t) :
    Kept t ↔ Kept s ∧ HasRoom s a := by
  by_cases ha : ∃ fd, a = .accept fd
  · obtain ⟨fd, rfl⟩ := ha
    exact kept_accept_iff hs (accepts_of_step h)
  · have hne : ∀ fd, a ≠ .accept fd := by simpa using ha
    rw [kept_effect_iff hs (step_effect hne h)]
    exact (and_iff_left (hasRoom_of_ne hne)).symm

theorem kept_init : Kept (system c).init := by
  intro fd hfd
  cases hfd

/-- No connection is forgotten in the runs that accept only while a slot is empty,
and in every other run one is, from the first such `accept` on. -/
theorem kept_iff {as : List Action} (h : (system c).Run (fun _ _ => True) as s) :
    (system c).Run HasRoom as s ↔ Kept s :=
  h.permitted_iff sound_init kept_init (fun _ _ _ hs hst => ⟨hs.step hst, kept_step_iff hs hst⟩)

/-- `MAX_CLIENTS`, with the numbers a fresh process gives out. -/
def tenClients : Config := ⟨10, 3, by decide⟩

/-- Ten clients connect, one an iteration. -/
def tenConnect : List Action :=
  (List.range 10).flatMap
    (fun k => [.connect, .select [3], .accept (4 + k)] ++ List.replicate 10 .skip)

theorem kept_iff_tenConnect :
    ∃ s, (system tenClients).Run (fun _ _ => True) tenConnect s ∧
      ((system tenClients).Run HasRoom tenConnect s ↔ Kept s) := by
  have hexec : ((system tenClients).exec (fun _ _ => True) (system tenClients).init
      tenConnect).isSome = true := by
    decide +kernel
  have hrun := Machine.run_of_exec (Option.some_get hexec).symm
  exact ⟨_, hrun, kept_iff hrun⟩

/-- No more than `maxClients` connections are open at the clients at once. -/
def WithinLimit (s : State c.maxClients) : Action → Prop
  | .connect => s.clientOpen < c.maxClients
  | _ => True

instance (s : State c.maxClients) (a : Action) : Decidable (WithinLimit s a) :=
  match a with
  | .connect => inferInstanceAs (Decidable (s.clientOpen < c.maxClients))
  | .clientSend _ _ | .clientClose _ | .select _ | .selectFail | .skip | .accept _ | .acceptFail
  | .read _ | .readFail | .send _ | .sendNone _ | .sendFail => isTrue trivial

/-- The ten close their sockets and one connects again, before the next `select`. -/
def roundChange : List Action :=
  tenConnect ++ (List.range 10).map (fun k => .clientClose (.accepted (4 + k)))
    ++ [.connect, .select ((List.range 11).map (3 + ·)), .accept 14]

/-- Descriptor 14 is open and in no slot. -/
theorem roundChange_forgets :
    ¬ ∀ (c : Config) (s : State c.maxClients), (system c).ReachableBy WithinLimit s → Kept s := by
  intro h
  have hexec : ((system tenClients).exec WithinLimit (system tenClients).init
      roundChange).map (fun s => ((s.conns 14).isSome, decide (∃ i, s.clients i = 14))) =
      some (true, false) := by
    decide +kernel
  obtain ⟨s, hs, hval⟩ := Option.map_eq_some_iff.mp hexec
  obtain ⟨hopen, hslot⟩ := Prod.mk.inj hval
  obtain ⟨i, hi, _⟩ := h tenClients s ⟨_, Machine.run_of_exec hs⟩ 14 hopen
  exact of_decide_eq_false hslot ⟨i, hi⟩

end Kept

end InfinibandWorkshop.SelectLoop
