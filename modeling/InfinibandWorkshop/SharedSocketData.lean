import InfinibandWorkshop.Machine
import InfinibandWorkshop.Throughput

/-!
# One `socketData` for all threads of MultiThreadTcpClient.cpp

For every thread, main stores three fields of the one structure and creates the
thread, without waiting until the thread has read them. A thread copies the size
and its number once, and reads the message pointer and the size again at every
send, in either order, since they are two arguments of one call. A message pointer
is modelled by the index of its buffer in `msgs`. Every store and every read is one
step; the server echoes what it gets.
-/
namespace InfinibandWorkshop.SharedData
open Throughput (msgSizes msgSizes_pos maxPacketSize)

/-- The fields that main stores for every thread, in the order of the stores. -/
inductive Field
  | threadNum
  | msgSize
  | msg
  deriving DecidableEq, Repr

/-- The points where a thread reads a field: its two locals and the two arguments
of a send. -/
inductive Read
  | msgSize
  | threadNum
  | msgArg
  | sizeArg
  deriving DecidableEq, Repr

def Read.field : Read → Field
  | msgSize | sizeArg => .msgSize
  | threadNum => .threadNum
  | msgArg => .msg

/-- One round of main: `shared` holds what the round before has left. -/
structure Config where
  msgSize : ℕ
  coreCount : ℕ
  msgNum : ℕ
  old : Field → ℕ
  msgSize_pos : 1 ≤ msgSize
  coreCount_pos : 1 ≤ coreCount

/-- What main stores in a field for thread `j`. -/
def Config.value (c : Config) (j : ℕ) : Field → ℕ
  | .threadNum | .msg => j
  | .msgSize => msgSizes c.msgSize c.coreCount j

/-- The next statement of main. -/
inductive MainPc
  | store (j : ℕ) (f : Field)
  | create (j : ℕ)
  | join (j : ℕ)
  deriving DecidableEq, Repr

inductive Phase
  | notCreated
  | readMsgSize
  | readThreadNum
  | sendArgs
  | receive
  | finished
  deriving DecidableEq, Repr

/-- Where a thread is when it makes a read. -/
def Read.phase : Read → Phase
  | msgSize => .readMsgSize
  | threadNum => .readThreadNum
  | msgArg | sizeArg => .sendArgs

/-- A thread: the values it has read, every send with its buffer and size, what it has
read back in each of the iterations that are over, and the bytes that are still on their
way back. -/
structure Thread where
  phase : Phase
  taken : Read → Option ℕ
  sent : List (ℕ × ℕ)
  received : List ℕ
  outstanding : ℕ
  bytesRead : ℕ

structure State where
  main : MainPc
  shared : Field → ℕ
  thread : ℕ → Thread

inductive Action
  | main
  | take (j : ℕ) (r : Read)
  | send (j : ℕ)
  | receive (j n : ℕ)
  deriving DecidableEq, Repr

namespace State

def setThread (s : State) (j : ℕ) (t : Thread) : State :=
  { s with thread := Function.update s.thread j t }

@[simp] theorem setThread_main (s : State) (j : ℕ) (t : Thread) :
    (s.setThread j t).main = s.main := rfl

@[simp] theorem setThread_shared (s : State) (j : ℕ) (t : Thread) :
    (s.setThread j t).shared = s.shared := rfl

@[simp] theorem setThread_self (s : State) (j : ℕ) (t : Thread) :
    (s.setThread j t).thread j = t := Function.update_self _ _ _

theorem setThread_ne (s : State) {j i : ℕ} (t : Thread) (h : i ≠ j) :
    (s.setThread j t).thread i = s.thread i := Function.update_of_ne h _ _

end State

variable (c : Config)

/-- The statement of main after the stores of a field. -/
def afterStore (j : ℕ) : Field → MainPc
  | .threadNum => .store j .msgSize
  | .msgSize => .store j .msg
  | .msg => .create j

/-- The head of the loop that creates the threads, and the loop that joins them. -/
def afterCreate (j : ℕ) : MainPc :=
  if j + 1 < c.coreCount then .store (j + 1) .threadNum else .join 0

/-- The head of the loop over the messages. -/
def Thread.iterate (t : Thread) : Thread :=
  { t with phase := if t.sent.length < c.msgNum then .sendArgs else .finished }

/-- A read that has not been made yet, and what the thread does after it. -/
def Thread.take (t : Thread) (r : Read) (v : ℕ) : Option Thread :=
  if t.phase = r.phase ∧ t.taken r = none then
    let t' := { t with taken := Function.update t.taken r (some v) }
    match r with
    | .msgSize => some { t' with phase := .readThreadNum }
    | .threadNum => some (t'.iterate c)
    | .msgArg | .sizeArg => some t'
  else none

/-- `stream->send(handlerData->msg, handlerData->msgSize)`, its arguments evaluated. -/
def Thread.send (t : Thread) : Option Thread :=
  match t.taken .msgArg, t.taken .sizeArg with
  | some msg, some size =>
    if t.phase = .sendArgs then
      some { t with
        phase := .receive
        taken := Function.update (Function.update t.taken .msgArg none) .sizeArg none
        sent := t.sent ++ [(msg, size)]
        outstanding := t.outstanding + size
        bytesRead := 0 }
    else none
  | _, _ => none

/-- One call of `receive`, and the loop test after it. An iteration that is over prints
`bytesRead`. -/
def Thread.receive (t : Thread) (n : ℕ) : Option Thread :=
  match t.taken .msgSize with
  | some msgSize =>
    if t.phase = .receive ∧ 0 < n ∧ n ≤ maxPacketSize ∧ n ≤ t.outstanding then
      let t' := { t with outstanding := t.outstanding - n, bytesRead := t.bytesRead + n }
      some (if t'.bytesRead < msgSize then t'
        else { t' with received := t.received ++ [t'.bytesRead] }.iterate c)
    else none
  | none => none

def step (s : State) : Action → Option State
  | .main =>
    match s.main with
    | .store j f =>
      some { s with
        shared := Function.update s.shared f (c.value j f)
        main := afterStore j f }
    | .create j =>
      some { s.setThread j { s.thread j with phase := .readMsgSize } with
        main := afterCreate c j }
    | .join j =>
      if j < c.coreCount ∧ (s.thread j).phase = .finished then some { s with main := .join (j + 1) }
      else none
  | .take j r => ((s.thread j).take c r (s.shared r.field)).map (s.setThread j)
  | .send j => (s.thread j).send.map (s.setThread j)
  | .receive j n => ((s.thread j).receive c n).map (s.setThread j)

def system : Machine State Action where
  init :=
    { main := .store 0 .threadNum
      shared := c.old
      thread := fun _ => ⟨.notCreated, fun _ => none, [], [], 0, 0⟩ }
  step := step c

section Stores

/-- How often main has stored a field. -/
def stores : MainPc → Field → ℕ
  | .store j .threadNum, _ => j
  | .store j .msgSize, .threadNum => j + 1
  | .store j .msgSize, _ => j
  | .store j .msg, .msg => j
  | .store j .msg, _ => j + 1
  | .create j, _ => j + 1
  | .join _, _ => c.coreCount

/-- How many threads main has created. -/
def created : MainPc → ℕ
  | .store j _ | .create j => j
  | .join _ => c.coreCount

/-- The value that a field holds after main's stores so far. -/
def current (m : MainPc) (f : Field) : ℕ :=
  if stores c m f = 0 then c.old f else c.value (stores c m f - 1) f

theorem stores_afterStore (j : ℕ) (f g : Field) :
    stores c (afterStore j f) g = if g = f then j + 1 else stores c (.store j f) g := by
  cases f <;> cases g <;> rfl

@[simp] theorem stores_store_self (j : ℕ) (f : Field) : stores c (.store j f) f = j := by
  cases f <;> rfl

theorem stores_afterCreate {j : ℕ} (hj : j < c.coreCount) (f : Field) :
    stores c (afterCreate c j) f = j + 1 := by
  unfold afterCreate
  split_ifs with hlast
  · cases f <;> rfl
  · rw [stores]
    omega

theorem created_afterCreate {j : ℕ} (hj : j < c.coreCount) :
    created c (afterCreate c j) = j + 1 := by
  unfold afterCreate
  split_ifs with hlast
  · rfl
  · rw [created]
    omega

theorem created_le_stores (m : MainPc) (f : Field) : created c m ≤ stores c m f := by
  cases m with
  | store j g => cases g <;> cases f <;> simp [created, stores]
  | create j => simp [created, stores]
  | join j => exact le_rfl

end Stores

section Handover

variable {c} {s t : State} {th th' : Thread} {a : Action} {j v : ℕ} {r : Read}

/-- Main's position is one of its loops, the fields hold what main stored last, and
only created threads run. -/
structure Sound (c : Config) (s : State) : Prop where
  inRange : ∀ j, (∃ f, s.main = .store j f) ∨ s.main = .create j → j < c.coreCount
  shared : ∀ f, s.shared f = current c s.main f
  created : ∀ j, (s.thread j).phase ≠ .notCreated → j < created c s.main

theorem sound_init : Sound c (system c).init := by
  constructor
  · rintro j (⟨f, hf⟩ | hf)
    · obtain ⟨rfl, _⟩ := MainPc.store.inj hf
      exact c.coreCount_pos
    · cases hf
  · intro f
    rfl
  · intro j hj
    exact absurd rfl hj

theorem current_afterStore (j : ℕ) (f g : Field) :
    current c (afterStore j f) g =
      Function.update (current c (.store j f)) f (c.value j f) g := by
  rw [current, stores_afterStore]
  by_cases hg : g = f
  · subst g
    simp
  · rw [if_neg hg, Function.update_of_ne hg, current]

theorem created_afterStore (j : ℕ) (f : Field) : created c (afterStore j f) = j := by
  cases f <;> rfl

theorem Sound.stores_le (h : Sound c s) (f : Field) : stores c s.main f ≤ c.coreCount := by
  cases hm : s.main with
  | store j g =>
    have hj := h.inRange j (.inl ⟨g, hm⟩)
    cases g <;> cases f <;> simp only [stores] <;> omega
  | create j =>
    have hj := h.inRange j (.inr hm)
    exact hj
  | join j => exact le_rfl

/-- A thread that reads a field finds what main's last store put there. -/
theorem Sound.read (h : Sound c s) (hj : (s.thread j).phase ≠ .notCreated) (f : Field) :
    s.shared f = c.value (stores c s.main f - 1) f := by
  have hpos : stores c s.main f ≠ 0 := by
    have hlt := (h.created j hj).trans_le (created_le_stores c s.main f)
    omega
  rw [h.shared, current, if_neg hpos]

/-- Changing a thread that has been created changes nothing for main. -/
theorem Sound.setThread (h : Sound c s) (hj : (s.thread j).phase ≠ .notCreated) (th : Thread) :
    Sound c (s.setThread j th) := by
  refine ⟨h.inRange, h.shared, ?_⟩
  intro i hi
  by_cases hij : i = j
  · subst i
    exact h.created j hj
  · rw [State.setThread_ne s th hij] at hi
    exact h.created i hi

theorem take_created (h : th.take c r v = some th') : th.phase ≠ .notCreated := by
  unfold Thread.take at h
  split_ifs at h with hg
  rw [hg.1]
  cases r <;> decide

theorem send_created (h : th.send = some th') : th.phase ≠ .notCreated := by
  unfold Thread.send at h
  split at h
  · split_ifs at h with hg
    rw [hg]
    decide
  · cases h

theorem receive_created (h : th.receive c v = some th') : th.phase ≠ .notCreated := by
  unfold Thread.receive at h
  split at h
  · split_ifs at h with hg
    rw [hg.1]
    decide
  · cases h

theorem Sound.next (h : Sound c s) (hst : step c s a = some t) : Sound c t := by
  cases a with
  | main =>
    simp only [step] at hst
    split at hst
    · rename_i j f hm
      rw [← Option.some.inj hst]
      have hj := h.inRange j (.inl ⟨f, hm⟩)
      refine ⟨?_, ?_, ?_⟩
      · intro i hi
        have hij : i = j := by
          cases f <;> simpa [afterStore, eq_comm] using hi
        exact hij ▸ hj
      · intro g
        rw [current_afterStore]
        by_cases hg : g = f
        · subst g
          simp
        · simp [hg, h.shared, hm]
      · intro i hi
        have hlt := h.created i hi
        rw [hm] at hlt
        rw [created_afterStore]
        exact hlt
    · rename_i j hm
      rw [← Option.some.inj hst]
      have hj := h.inRange j (.inr hm)
      refine ⟨?_, ?_, ?_⟩
      · intro i hi
        simp only [afterCreate] at hi
        split_ifs at hi with hlast
        · have hij : i = j + 1 := by simpa [eq_comm] using hi
          exact hij ▸ hlast
        · simp at hi
      · intro f
        rw [current, stores_afterCreate c hj]
        simp [h.shared, hm, current, stores]
      · intro i hi
        rw [created_afterCreate c hj]
        by_cases hij : i = j
        · omega
        · have hlt := h.created i (by simpa [State.setThread, hij] using hi)
          rw [hm, SharedData.created] at hlt
          omega
    · rename_i j hm
      split_ifs at hst
      rw [← Option.some.inj hst]
      refine ⟨by simp, ?_, ?_⟩
      · intro f
        rw [h.shared, hm]
        rfl
      · intro i hi
        have hlt := h.created i hi
        rwa [hm] at hlt
  | take j r =>
    obtain ⟨th, hth, rfl⟩ := Option.map_eq_some_iff.mp hst
    exact h.setThread (take_created hth) th
  | send j =>
    obtain ⟨th, hth, rfl⟩ := Option.map_eq_some_iff.mp hst
    exact h.setThread (send_created hth) th
  | receive j n =>
    obtain ⟨th, hth, rfl⟩ := Option.map_eq_some_iff.mp hst
    exact h.setThread (receive_created hth) th

/-- Thread `j` has taken its own number and size, and each of its sends was of the
whole of its own message. -/
structure Own (c : Config) (j : ℕ) (th : Thread) : Prop where
  taken : ∀ r v, th.taken r = some v → v = c.value j r.field
  sent : ∀ p ∈ th.sent, p = (c.value j .msg, c.value j .msgSize)

/-- Besides, every iteration has read back as many bytes as it had sent, no fewer and no
more, the current one has yet to read those that are on their way, and the thread is not
finished before the last one. -/
structure Honoured (c : Config) (j : ℕ) (th : Thread) : Prop extends Own c j th where
  received : ∀ n ∈ th.received, n = c.value j .msgSize
  waits : th.phase = .receive → th.bytesRead < c.value j .msgSize ∧
    th.bytesRead + th.outstanding = c.value j .msgSize
  idle : th.phase ≠ .receive → th.outstanding = 0
  waited : th.sent.length = th.received.length + if th.phase = .receive then 1 else 0
  sends_le : th.sent.length ≤ c.msgNum
  more : th.phase = .sendArgs → th.sent.length < c.msgNum
  all : th.phase = .finished → th.sent.length = c.msgNum

/-- A thread reads a field while it still holds what main stored for this thread. -/
def OnTime (c : Config) (s : State) : Action → Prop
  | .take j r => c.value (stores c s.main r.field - 1) r.field = c.value j r.field
  | _ => True

theorem own_start (c : Config) (j : ℕ) (phase : Phase) :
    Own c j ⟨phase, fun _ => none, [], [], 0, 0⟩ := by
  constructor
  · intro r v hv
    cases hv
  · intro p hp
    cases hp

theorem Own.congr (htaken : th'.taken = th.taken) (hsent : th'.sent = th.sent) :
    Own c j th' ↔ Own c j th := by
  constructor
  · intro h
    exact ⟨htaken ▸ h.taken, hsent ▸ h.sent⟩
  · intro h
    exact ⟨htaken.symm ▸ h.taken, hsent.symm ▸ h.sent⟩

theorem taken_of_take (h : th.take c r v = some th') :
    th.taken r = none ∧ th'.taken = Function.update th.taken r (some v) ∧ th'.sent = th.sent := by
  unfold Thread.take at h
  split_ifs at h with hg
  cases r <;> rw [← Option.some.inj h] <;> exact ⟨hg.2, rfl, rfl⟩

/-- A thread keeps to its own values in a read exactly when it reads its own value. -/
theorem own_take (h : th.take c r v = some th') :
    Own c j th' ↔ Own c j th ∧ v = c.value j r.field := by
  obtain ⟨hnone, htaken, hsent⟩ := taken_of_take h
  constructor
  · intro hh
    refine ⟨⟨?_, hsent ▸ hh.sent⟩, hh.taken r v (by rw [htaken, Function.update_self])⟩
    intro q w hq
    have hne : q ≠ r := by
      rintro rfl
      rw [hnone] at hq
      cases hq
    exact hh.taken q w (by rw [htaken, Function.update_of_ne hne, hq])
  · rintro ⟨hh, hv⟩
    refine ⟨?_, hsent.symm ▸ hh.sent⟩
    intro q w hq
    rw [htaken] at hq
    by_cases hqr : q = r
    · subst q
      rw [Function.update_self] at hq
      exact Option.some.inj hq ▸ hv
    · rw [Function.update_of_ne hqr] at hq
      exact hh.taken q w hq

/-- A send moves its two arguments into the history. -/
theorem own_send (h : th.send = some th') : Own c j th' ↔ Own c j th := by
  unfold Thread.send at h
  split at h
  · rename_i msg size hmsg hsize
    split_ifs at h with hg
    rw [← Option.some.inj h]
    constructor
    · intro hh
      obtain ⟨hm, hs⟩ := Prod.mk.inj (hh.sent (msg, size) (by simp))
      refine ⟨?_, fun p hp => hh.sent p (List.mem_append_left _ hp)⟩
      intro q w hq
      cases q with
      | msgSize => exact hh.taken .msgSize w (by simpa using hq)
      | threadNum => exact hh.taken .threadNum w (by simpa using hq)
      | msgArg => exact (Option.some.inj (hq.symm.trans hmsg)).trans hm
      | sizeArg => exact (Option.some.inj (hq.symm.trans hsize)).trans hs
    · intro hh
      refine ⟨?_, ?_⟩
      · intro q w hq
        cases q with
        | msgSize => exact hh.taken .msgSize w (by simpa using hq)
        | threadNum => exact hh.taken .threadNum w (by simpa using hq)
        | msgArg => simp at hq
        | sizeArg => simp at hq
      · intro p hp
        rcases List.mem_append.mp hp with hp | hp
        · exact hh.sent p hp
        · rw [List.mem_singleton.mp hp, hh.taken _ _ hmsg, hh.taken _ _ hsize]
          rfl
  · cases h

theorem own_receive {n : ℕ} (h : th.receive c n = some th') :
    Own c j th' ↔ Own c j th := by
  unfold Thread.receive at h
  split at h
  · split_ifs at h with hg
    rw [← Option.some.inj h]
    split_ifs <;> exact Own.congr rfl rfl
  · cases h

/-- Replacing one thread by one that is as well off. -/
theorem own_setThread {ok : Prop}
    (h : Own c j th ↔ Own c j (s.thread j) ∧ ok) :
    (∀ i, Own c i ((s.setThread j th).thread i)) ↔
      (∀ i, Own c i (s.thread i)) ∧ ok := by
  constructor
  · intro hall
    have hj := h.mp (by simpa using hall j)
    refine ⟨?_, hj.2⟩
    intro i
    by_cases hij : i = j
    · exact hij ▸ hj.1
    · rw [← State.setThread_ne s th hij]
      exact hall i
  · rintro ⟨hall, hok⟩ i
    by_cases hij : i = j
    · subst i
      rw [State.setThread_self]
      exact h.mpr ⟨hall j, hok⟩
    · rw [State.setThread_ne s th hij]
      exact hall i

/-- One step, by main or by a thread: all threads keep to their own values,
unless one reads too late. -/
theorem own_step (h : Sound c s) (hst : step c s a = some t) :
    (∀ i, Own c i (t.thread i)) ↔ (∀ i, Own c i (s.thread i)) ∧ OnTime c s a := by
  cases a with
  | main =>
    simp only [step] at hst
    split at hst
    · rw [← Option.some.inj hst]
      simp [OnTime]
    · rename_i j hm
      rw [← Option.some.inj hst]
      have honTime : OnTime c s .main := trivial
      apply own_setThread
      rw [and_iff_left honTime]
      exact Own.congr rfl rfl
    · split_ifs at hst
      rw [← Option.some.inj hst]
      simp [OnTime]
  | take j r =>
    obtain ⟨th, hth, rfl⟩ := Option.map_eq_some_iff.mp hst
    apply own_setThread
    rw [own_take hth, h.read (take_created hth)]
    rfl
  | send j =>
    obtain ⟨th, hth, rfl⟩ := Option.map_eq_some_iff.mp hst
    exact own_setThread ((own_send hth).trans (and_iff_left trivial).symm)
  | receive j n =>
    obtain ⟨th, hth, rfl⟩ := Option.map_eq_some_iff.mp hst
    exact own_setThread ((own_receive hth).trans (and_iff_left trivial).symm)

end Handover

section Iterations

variable {c} {s t : State} {th th' : Thread} {a : Action} {j v : ℕ} {r : Read}

theorem Config.value_msgSize_pos (c : Config) (j : ℕ) : 0 < c.value j .msgSize :=
  msgSizes_pos c.msgSize_pos c.coreCount_pos j

theorem honoured_start (c : Config) (j : ℕ) :
    Honoured c j ⟨.notCreated, fun _ => none, [], [], 0, 0⟩ where
  toOwn := own_start c j _
  received := by simp
  waits := by simp
  idle _ := rfl
  waited := rfl
  sends_le := Nat.zero_le _
  more := by simp
  all := by simp

theorem Honoured.create (h : Honoured c j th) (hphase : th.phase = .notCreated) :
    Honoured c j { th with phase := .readMsgSize } where
  toOwn := ⟨h.taken, h.sent⟩
  received := h.received
  waits := by simp
  idle _ := h.idle (by simp [hphase])
  waited := by simpa [hphase] using h.waited
  sends_le := h.sends_le
  more := by simp
  all := by simp

theorem iterate_phase_ne (c : Config) (th : Thread) : (th.iterate c).phase ≠ .receive := by
  unfold Thread.iterate
  dsimp only
  split_ifs <;> simp

/-- At the head of the loop nothing is on its way. -/
theorem honoured_iterate (hown : Own c j th) (hreceived : ∀ n ∈ th.received, n = c.value j .msgSize)
    (hidle : th.outstanding = 0) (hwaited : th.sent.length = th.received.length)
    (hle : th.sent.length ≤ c.msgNum) : Honoured c j (th.iterate c) where
  toOwn := ⟨hown.taken, hown.sent⟩
  received := hreceived
  waits hphase := absurd hphase (iterate_phase_ne c th)
  idle _ := hidle
  waited := by
    rw [if_neg (iterate_phase_ne c th)]
    exact hwaited
  sends_le := hle
  more := by
    simp only [Thread.iterate]
    split_ifs with hlt
    · exact fun _ => hlt
    · simp
  all := by
    simp only [Thread.iterate]
    split_ifs with hlt
    · simp
    · exact fun _ => le_antisymm hle (not_lt.mp hlt)

theorem Honoured.take (h : Honoured c j th) (ht : th.take c r v = some th')
    (hown : Own c j th') : Honoured c j th' := by
  unfold Thread.take at ht
  split_ifs at ht with hg
  have hne : th.phase ≠ .receive := by
    rw [hg.1]
    cases r <;> decide
  have hwaited := h.waited
  rw [if_neg hne] at hwaited
  cases r with
  | msgSize =>
    rw [← Option.some.inj ht] at hown ⊢
    exact ⟨hown, h.received, by simp, fun _ => h.idle hne, by simpa using hwaited, h.sends_le,
      by simp, by simp⟩
  | threadNum =>
    rw [← Option.some.inj ht] at hown ⊢
    exact honoured_iterate ⟨hown.taken, hown.sent⟩ h.received (h.idle hne) hwaited h.sends_le
  | msgArg | sizeArg =>
    rw [← Option.some.inj ht] at hown ⊢
    exact ⟨hown, h.received, h.waits, h.idle, h.waited, h.sends_le, h.more, h.all⟩

/-- What is sent is what will be waited for. -/
theorem Honoured.send (h : Honoured c j th) (ht : th.send = some th') (hown : Own c j th') :
    Honoured c j th' := by
  unfold Thread.send at ht
  split at ht
  · rename_i msg size hmsg hsize
    split_ifs at ht with hg
    rw [← Option.some.inj ht] at hown ⊢
    have hvalue : size = c.value j .msgSize := h.taken .sizeArg size hsize
    have hidle := h.idle (by simp [hg])
    have hwaited := h.waited
    have hmore := h.more hg
    have hpos := c.value_msgSize_pos j
    refine ⟨hown, h.received, ?_, by simp, ?_, ?_, by simp, by simp⟩
    · intro _
      constructor
      · exact hpos
      · show 0 + (th.outstanding + size) = _
        omega
    · simpa [hg] using hwaited
    · simpa using hmore
  · cases ht

/-- The last call of an iteration reads what is left of it. -/
theorem Honoured.receive {n : ℕ} (h : Honoured c j th) (ht : th.receive c n = some th') :
    Honoured c j th' := by
  unfold Thread.receive at ht
  split at ht
  · rename_i msgSize hmsgSize
    split_ifs at ht with hg
    obtain ⟨hphase, hpos, -, hn⟩ := hg
    have hvalue : msgSize = c.value j .msgSize := h.taken .msgSize msgSize hmsgSize
    obtain ⟨hlt, hsum⟩ := h.waits hphase
    have hwaited := h.waited
    rw [if_pos hphase] at hwaited
    rw [← Option.some.inj ht]
    dsimp only
    split_ifs with hagain
    · refine ⟨⟨h.taken, h.sent⟩, h.received, ?_, ?_, ?_, h.sends_le, ?_, ?_⟩
      · intro _
        constructor
        · show th.bytesRead + n < _
          omega
        · show th.bytesRead + n + (th.outstanding - n) = _
          omega
      · exact fun hne => absurd hphase hne
      · rw [if_pos hphase]
        exact hwaited
      · simp [hphase]
      · simp [hphase]
    · apply honoured_iterate
      · exact ⟨h.taken, h.sent⟩
      · intro m hm
        rcases List.mem_append.mp hm with hm | hm
        · exact h.received m hm
        · rw [List.mem_singleton.mp hm]
          omega
      · show th.outstanding - n = 0
        omega
      · simpa using hwaited
      · exact h.sends_le
  · cases ht

/-- A thread that keeps to its own values in a step is honoured after it. -/
theorem Honoured.next {i : ℕ} (hs : Sound c s) (hst : step c s a = some t)
    (h : Honoured c i (s.thread i)) (hown : Own c i (t.thread i)) : Honoured c i (t.thread i) := by
  have hone : ∀ {j th}, t = s.setThread j th → (i = j → Honoured c i th) →
      Honoured c i (t.thread i) := by
    rintro j th rfl hth
    by_cases hij : i = j
    · subst i
      rw [State.setThread_self]
      exact hth rfl
    · rwa [State.setThread_ne s th hij]
  cases a with
  | main =>
    simp only [step] at hst
    split at hst
    · rw [← Option.some.inj hst]
      exact h
    · rename_i j hm
      rw [← Option.some.inj hst]
      by_cases hij : i = j
      · subst i
        have hphase : (s.thread j).phase = .notCreated := by
          by_contra hne
          have hlt := hs.created j hne
          rw [hm, created] at hlt
          exact lt_irrefl j hlt
        simpa [State.setThread] using h.create hphase
      · simpa [State.setThread, hij] using h
    · split_ifs at hst
      rw [← Option.some.inj hst]
      exact h
  | take j r =>
    obtain ⟨th, hth, rfl⟩ := Option.map_eq_some_iff.mp hst
    apply hone rfl
    rintro rfl
    exact h.take hth (by simpa using hown)
  | send j =>
    obtain ⟨th, hth, rfl⟩ := Option.map_eq_some_iff.mp hst
    apply hone rfl
    rintro rfl
    exact h.send hth (by simpa using hown)
  | receive j n =>
    obtain ⟨th, hth, rfl⟩ := Option.map_eq_some_iff.mp hst
    apply hone rfl
    rintro rfl
    exact h.receive hth

/-- Threads that have kept to their own values are honoured. -/
theorem honoured_iff_own (h : (system c).Reachable s) :
    (∀ j, Honoured c j (s.thread j)) ↔ ∀ j, Own c j (s.thread j) := by
  constructor
  · exact fun hall j => (hall j).toOwn
  · have hinv : Sound c s ∧
        ((∀ j, Own c j (s.thread j)) → ∀ j, Honoured c j (s.thread j)) := by
      apply h.invariant ⟨sound_init, fun _ j => honoured_start c j⟩
      intro s a t hi _ hst
      refine ⟨hi.1.next hst, fun hown j => ?_⟩
      have hbefore := ((own_step hi.1 hst).mp hown).1
      exact (hi.2 hbefore j).next hi.1 hst (hown j)
    exact hinv.2

end Iterations

section Results

variable {c : Config} {s : State}

/-- At the end of a run every thread has used its own number, message and size, and has
waited for as much as it had sent, exactly when every read of it was on time. -/
theorem honoured_iff_onTime {as : List Action}
    (h : (system c).Run (fun _ _ => True) as s) :
    (system c).Run (OnTime c) as s ↔ ∀ j, Honoured c j (s.thread j) := by
  rw [honoured_iff_own ⟨as, h⟩]
  have hstart : ∀ j, Own c j ((system c).init.thread j) := fun j => own_start c j _
  apply h.permitted_iff sound_init hstart
  intro s a t hs hst
  exact ⟨hs.next hst, own_step hs hst⟩

/-- Three bytes for two threads. -/
def twoThreads : Config where
  msgSize := 3
  coreCount := 2
  msgNum := 1
  old := fun _ => 0
  msgSize_pos := Nat.le_add_left 1 2
  coreCount_pos := Nat.two_pos

/-- Thread 0 makes all its reads before main goes on to thread 1. -/
def promptReads : List Action :=
  [.main, .main, .main, .main, .take 0 .msgSize, .take 0 .threadNum, .take 0 .sizeArg,
    .take 0 .msgArg, .send 0, .main, .main, .main, .main, .receive 0 2]

theorem honoured_promptReads : ∃ s, (system twoThreads).Run (fun _ _ => True) promptReads s ∧
    ((system twoThreads).Run (OnTime twoThreads) promptReads s ↔
      ∀ j, Honoured twoThreads j (s.thread j)) := by
  have hrun : ((system twoThreads).exec (fun _ _ => True) (system twoThreads).init
      promptReads).isSome = true := by
    decide +kernel
  obtain ⟨s, hs⟩ := Option.isSome_iff_exists.mp hrun
  exact ⟨s, Machine.run_of_exec hs, honoured_iff_onTime (Machine.run_of_exec hs)⟩

/-- Main stores the fields of thread 1 between the two reads that thread 0 makes of
its size. -/
def lateReads : List Action :=
  [.main, .main, .main, .main, .take 0 .msgSize, .take 0 .threadNum, .main, .main, .main,
    .take 0 .msgArg, .take 0 .sizeArg, .send 0, .receive 0 1]

/-- Thread 0 waits for two bytes and has sent the one byte of the message of thread 1. -/
theorem lateReads_dishonour : ¬ ∀ (c : Config) (s : State), (system c).Reachable s →
    ∀ j, Honoured c j (s.thread j) := by
  intro h
  have hrun : ((system twoThreads).exec (fun _ _ => True) (system twoThreads).init lateReads).map
      (fun s => ((s.thread 0).taken .msgSize, (s.thread 0).sent)) = some (some 2, [(1, 1)]) := by
    decide +kernel
  obtain ⟨s, hs, hsent⟩ := Option.map_eq_some_iff.mp hrun
  have hmem : (1, 1) ∈ (s.thread 0).sent := by
    rw [(Prod.mk.inj hsent).2]
    exact List.mem_singleton_self _
  have hown := (h twoThreads s ⟨lateReads, Machine.run_of_exec hs⟩ 0).sent (1, 1) hmem
  cases hown

/-- With one thread every read is on time: main has nothing left to store. -/
theorem Sound.onTime_of_single (h : Sound c s) (hc : c.coreCount = 1) {t : State} {a : Action}
    (hst : step c s a = some t) : OnTime c s a := by
  cases a with
  | take j r =>
    obtain ⟨th, hth, _⟩ := Option.map_eq_some_iff.mp hst
    have hcreated := h.created j (take_created hth)
    have hle := created_le_stores c s.main r.field
    have hmax := h.stores_le r.field
    have hj : j = 0 := by omega
    have hs : stores c s.main r.field - 1 = 0 := by omega
    rw [OnTime, hs, hj]
  | main => trivial
  | send j => trivial
  | receive j n => trivial

/-- Main stores the number of thread 1 before thread 0 has read its own. -/
def overtaken : List Action :=
  [.main, .main, .main, .main, .main, .take 0 .msgSize, .take 0 .threadNum]

/-- Every run serves every thread exactly in the rounds with one thread. -/
theorem always_honoured_iff : (∀ s, (system c).Reachable s → ∀ j, Honoured c j (s.thread j)) ↔
    c.coreCount = 1 := by
  constructor
  · intro h
    by_contra hc
    have hmore : 1 < c.coreCount := by
      have hpos := c.coreCount_pos
      omega
    have hrun : ((system c).exec (fun _ _ => True) (system c).init overtaken).map
        (fun s => (s.thread 0).taken .threadNum) = some (some 1) := by
      simp [overtaken, Machine.exec, system, step, afterStore, afterCreate, hmore, Thread.take,
        Thread.iterate, Read.phase, Read.field, Config.value]
    obtain ⟨s, hs, hnum⟩ := Option.map_eq_some_iff.mp hrun
    have hown := (h s ⟨overtaken, Machine.run_of_exec hs⟩ 0).taken .threadNum 1 hnum
    cases hown
  · intro hc s hs
    rw [honoured_iff_own hs]
    have hinv : Sound c s ∧ ∀ j, Own c j (s.thread j) := by
      apply hs.invariant ⟨sound_init, fun j => own_start c j _⟩
      intro s a t hi _ hst
      exact ⟨hi.1.next hst, (own_step hi.1 hst).mpr ⟨hi.2, hi.1.onTime_of_single hc hst⟩⟩
    exact hinv.2

end Results

end InfinibandWorkshop.SharedData
