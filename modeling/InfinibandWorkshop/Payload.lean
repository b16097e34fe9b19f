import InfinibandWorkshop.BufferSegments
import InfinibandWorkshop.RoundEnds
import InfinibandWorkshop.CText

/-!
# What the messages carry

`pp_init_ctx` fills the buffer with one byte, another one at the server, and nothing but
arriving messages writes to it later. A message is sent from the segment that the last one
on its queue pair was received into. The device reads a message some time after it was
posted and writes it some time later; in between other messages may be written, also to
bytes that belong to two queue pairs.
-/
namespace InfinibandWorkshop.Verbs

section Frame

variable {n : ℕ} {Loc Ret : Type} {P : Role → Program n Loc Ret} {s t : State n Loc Ret}

/-- Only a delivery makes a message arrive. -/
theorem arrived_of_not_deliver {a : Action n} (h : step P s a = some t)
    (ha : ∀ X q, a ≠ .deliver X q) : t.arrived = s.arrived := by
  cases a with
  | deliver X q => exact absurd rfl (ha X q)
  | vanish X q =>
    obtain ⟨_, _, rfl⟩ := step_vanish h
    rfl
  | abort X q =>
    obtain ⟨w, rfl⟩ := step_abort_eq h
    rfl
  | poll X k =>
    obtain ⟨_, _, _, _, _, rfl⟩ := step_poll h
    rfl
  | handle X =>
    obtain ⟨_, _, _, _, _, rfl⟩ := step_handle h
    rfl

/-- What two stretches of a program post together, one of them has posted. -/
theorem Outcome.mem_bind {Loc' : Type} {o : Outcome n Loc Ret} {f : Loc → Outcome n Loc' Ret}
    {w : WorkRequest n} (hw : w ∈ (o.bind f).posted) :
    w ∈ o.posted ∨ ∃ l, w ∈ (f l).posted := by
  unfold Outcome.bind at hw
  split at hw
  · exact (List.mem_append.mp hw).imp_right (fun h => ⟨_, h⟩)
  · exact .inl hw

/-- Everything that the two hosts have posted is `good`. -/
def Posted (good : WorkRequest n → Prop) (s : State n Loc Ret) : Prop :=
  ∀ X, ∀ w ∈ (s.host X).posted, good w

/-- What holds of all requests that the programs can post holds of those they have posted. -/
theorem posted_of_reachable {good : WorkRequest n → Prop}
    {ok : State n Loc Ret → Action n → Prop}
    (h0 : ∀ X, ∀ w ∈ (P X).start.posted, good w)
    (hh : ∀ X room l wc, ∀ w ∈ ((P X).handle room l wc).posted, good w)
    (h : (system P).ReachableBy ok s) : Posted good s := by
  have hinit : Posted good (system P).init := h0
  apply h.invariant hinit
  intro u a t hu _ hst Y w hw
  cases a with
  | deliver Z q =>
    obtain ⟨_, _, _, _, _, _, rfl⟩ := step_deliver hst
    exact hu Y w (by simpa using hw)
  | vanish Z q =>
    obtain ⟨_, _, rfl⟩ := step_vanish hst
    exact hu Y w hw
  | abort Z q =>
    obtain ⟨e, rfl⟩ := step_abort_eq hst
    by_cases hY : Y = Z
    · subst Y
      have he : ((u.setHost Z ((u.host Z).complete e)).host Z).posted = (u.host Z).posted := by
        rw [State.setHost_self]
        rfl
      exact hu Z w (he ▸ hw)
    · exact hu Y w (State.setHost_ne u _ hY ▸ hw)
  | poll Z k =>
    obtain ⟨_, _, _, _, _, rfl⟩ := step_poll hst
    by_cases hY : Y = Z
    · subst Y
      exact hu Z w (by simpa using hw)
    · exact hu Y w (State.setHost_ne u _ hY ▸ hw)
  | handle Z =>
    obtain ⟨l, e, es, _, _, rfl⟩ := step_handle hst
    by_cases hY : Y = Z
    · subst Y
      rw [State.setHost_self, handled_posted, List.mem_append] at hw
      exact hw.elim (hu Z w) (hh Z _ l e w)
    · exact hu Y w (State.setHost_ne u _ hY ▸ hw)

end Frame

end InfinibandWorkshop.Verbs

namespace InfinibandWorkshop.Payload
open Verbs
open CText (Byte)
open scoped BigOperators

section Memory

/-- The memory of a process, with addresses relative to the registered buffer. -/
abbrev Memory : Type := ℤ → Byte

def load (m : Memory) (offset length : ℤ) : List Byte :=
  (List.range length.toNat).map (fun i : ℕ => m (offset + i))

def store (m : Memory) (offset : ℤ) (data : List Byte) : Memory := fun b =>
  if offset ≤ b then (data[(b - offset).toNat]?).getD (m b) else m b

@[simp] theorem length_load (m : Memory) (offset length : ℤ) :
    (load m offset length).length = length.toNat := by simp [load]

theorem load_eq_replicate {m : Memory} {offset length : ℤ} {v : Byte}
    (h : ∀ b, offset ≤ b → b < offset + length → m b = v) :
    load m offset length = List.replicate length.toNat v := by
  rw [List.eq_replicate_iff]
  refine ⟨length_load m offset length, ?_⟩
  intro x hx
  obtain ⟨i, hi, rfl⟩ := List.mem_map.mp hx
  have hlt := List.mem_range.mp hi
  exact h _ (by omega) (by omega)

theorem store_replicate (m : Memory) (offset : ℤ) (k : ℕ) (v : Byte) (b : ℤ) :
    store m offset (List.replicate k v) b =
      if offset ≤ b ∧ b < offset + k then v else m b := by
  unfold store
  by_cases hle : offset ≤ b
  · by_cases hlt : b < offset + k
    · have hidx : (b - offset).toNat < k := by omega
      simp [hle, hlt, hidx]
    · have hnone : (List.replicate k v)[(b - offset).toNat]? = none := by
        rw [List.getElem?_eq_none_iff, List.length_replicate]
        omega
      simp [hle, hlt, hnone]
  · simp [hle]

end Memory

/-- The two hosts, their memories, and what was read of the message that each queue pair
sends next. -/
structure State (n : ℕ) (Loc Ret : Type) where
  hosts : Verbs.State n Loc Ret
  mem : Role → Memory
  wire : Role → Fin n → Option (List Byte)

/-- The device of `X` reads the message that `q` sends next, or something happens to the
hosts. A message may be read again before it is delivered. -/
inductive Action (n : ℕ)
  | transmit (X : Role) (q : Fin n)
  | host (a : Verbs.Action n)
  deriving DecidableEq, Repr

section System

variable {n : ℕ} {Loc Ret : Type} (P : Role → Program n Loc Ret)

/-- The request of the message that `X` sends next on `q`. -/
def nextSend (s : Verbs.State n Loc Ret) (X : Role) (q : Fin n) : Option (WorkRequest n) :=
  ((s.host X).requests .send q)[s.arrived X q + s.lost X q]?

/-- The receive that the peer of `X` has posted for it. -/
def nextRecv (s : Verbs.State n Loc Ret) (X : Role) (q : Fin n) : Option (WorkRequest n) :=
  ((s.host X.peer).requests .recv q)[s.arrived X q]?

def putWire (wire : Role → Fin n → Option (List Byte)) (X : Role) (q : Fin n)
    (m : Option (List Byte)) : Role → Fin n → Option (List Byte) :=
  fun Y r => if Y = X ∧ r = q then m else wire Y r

/-- A message that is longer than the receive posted for it is not delivered. -/
def step (s : State n Loc Ret) : Action n → Option (State n Loc Ret)
  | .transmit X q =>
    (nextSend s.hosts X q).map (fun w =>
      { s with wire := putWire s.wire X q (some (load (s.mem X) w.offset w.length)) })
  | .host (.deliver X q) =>
    match s.wire X q, nextRecv s.hosts X q with
    | some data, some r =>
      if data.length ≤ r.length.toNat then
        (Verbs.step P s.hosts (.deliver X q)).map (fun h =>
          { hosts := h
            mem := Function.update s.mem X.peer (store (s.mem X.peer) r.offset data)
            wire := putWire s.wire X q none })
      else none
    | _, _ => none
  | .host (.vanish X q) =>
    (Verbs.step P s.hosts (.vanish X q)).map
      (fun h => { s with hosts := h, wire := putWire s.wire X q none })
  | .host (.abort X q) =>
    (Verbs.step P s.hosts (.abort X q)).map
      (fun h => { s with hosts := h, wire := putWire s.wire X q none })
  | .host (.poll X k) => (Verbs.step P s.hosts (.poll X k)).map (fun h => { s with hosts := h })
  | .host (.handle X) => (Verbs.step P s.hosts (.handle X)).map (fun h => { s with hosts := h })

/-- Nothing has been read when the hosts enter their loops. -/
def system (mem : Role → Memory) : Machine (State n Loc Ret) (Action n) where
  init := ⟨(Verbs.system P).init, mem, fun _ _ => none⟩
  step := step P

/-- A condition on what happens to the hosts. -/
def onHosts (ok : Verbs.State n Loc Ret → Verbs.Action n → Prop) (s : State n Loc Ret) :
    Action n → Prop
  | .transmit _ _ => True
  | .host a => ok s.hosts a

instance (ok : Verbs.State n Loc Ret → Verbs.Action n → Prop) [∀ s a, Decidable (ok s a)]
    (s : State n Loc Ret) (a : Action n) : Decidable (onHosts ok s a) := by
  cases a <;> unfold onHosts <;> infer_instance

end System

section Steps

variable {n : ℕ} {Loc Ret : Type} {P : Role → Program n Loc Ret} {s t : State n Loc Ret}

theorem step_transmit {X : Role} {q : Fin n} (h : step P s (.transmit X q) = some t) :
    ∃ w, nextSend s.hosts X q = some w ∧
      t = { s with wire := putWire s.wire X q (some (load (s.mem X) w.offset w.length)) } := by
  obtain ⟨w, hw, rfl⟩ := Option.map_eq_some_iff.mp h
  exact ⟨w, hw, rfl⟩

theorem step_deliver {X : Role} {q : Fin n} (h : step P s (.host (.deliver X q)) = some t) :
    ∃ data r h', s.wire X q = some data ∧ nextRecv s.hosts X q = some r ∧
      Verbs.step P s.hosts (.deliver X q) = some h' ∧
      t = ⟨h', Function.update s.mem X.peer (store (s.mem X.peer) r.offset data),
        putWire s.wire X q none⟩ := by
  simp only [step] at h
  split at h
  · rename_i data r hd hr
    split_ifs at h with hlen
    obtain ⟨h', hst, rfl⟩ := Option.map_eq_some_iff.mp h
    exact ⟨data, r, h', hd, hr, hst, rfl⟩
  · cases h

/-- Everything but a delivery leaves the memories alone and reads nothing. -/
theorem step_other {a : Verbs.Action n} (h : step P s (.host a) = some t)
    (ha : ∀ X q, a ≠ .deliver X q) :
    Verbs.step P s.hosts a = some t.hosts ∧ t.mem = s.mem ∧
      ∀ X q m, t.wire X q = some m → s.wire X q = some m := by
  cases a with
  | deliver X q => exact absurd rfl (ha X q)
  | vanish X q | abort X q =>
    obtain ⟨h', hst, rfl⟩ := Option.map_eq_some_iff.mp h
    refine ⟨hst, rfl, ?_⟩
    intro Y r m hm
    by_cases he : Y = X ∧ r = q
    · simp [putWire, he] at hm
    · simpa [putWire, he] using hm
  | poll X k | handle X =>
    obtain ⟨h', hst, rfl⟩ := Option.map_eq_some_iff.mp h
    exact ⟨hst, rfl, fun _ _ _ hm => hm⟩

/-- What happens to the hosts is a step of theirs. -/
theorem step_hosts {a : Action n} (h : step P s a = some t) :
    (∃ X q, a = .transmit X q ∧ t.hosts = s.hosts) ∨
      ∃ b, a = .host b ∧ Verbs.step P s.hosts b = some t.hosts := by
  cases a with
  | transmit X q =>
    obtain ⟨w, _, rfl⟩ := step_transmit h
    exact .inl ⟨X, q, rfl, rfl⟩
  | host b =>
    refine .inr ⟨b, rfl, ?_⟩
    by_cases hb : ∃ X q, b = .deliver X q
    · obtain ⟨X, q, rfl⟩ := hb
      obtain ⟨_, _, _, _, _, hst, rfl⟩ := step_deliver h
      exact hst
    · push Not at hb
      exact (step_other h hb).1

end Steps

/-- All requests of a queue pair use one segment of the registered buffer. -/
structure Layout (n : ℕ) where
  size : ℕ
  offset : Fin n → ℤ
  length : Fin n → ℤ
  inside : ∀ q, 0 ≤ offset q ∧ offset q + length q ≤ size

namespace Layout

variable {n : ℕ} (L : Layout n)

/-- The byte at `b` belongs to the segment of `q`. -/
def Covers (q : Fin n) (b : ℤ) : Prop := L.offset q ≤ b ∧ b < L.offset q + L.length q

def Uses (w : WorkRequest n) : Prop := w.offset = L.offset w.qp ∧ w.length = L.length w.qp

/-- The payload of a message on `q` whose bytes are all `v`. -/
def filled (q : Fin n) (v : Byte) : List Byte := List.replicate (L.length q).toNat v

theorem load_filled {L : Layout n} {m : Memory} {w : WorkRequest n} {v : Byte} (hw : L.Uses w)
    (h : ∀ b, L.Covers w.qp b → m b = v) : load m w.offset w.length = L.filled w.qp v := by
  obtain ⟨ho, hl⟩ := hw
  rw [filled, ho, hl]
  exact load_eq_replicate (fun b hb hb' => h b ⟨hb, hb'⟩)

theorem store_filled (m : Memory) (q : Fin n) (v : Byte) (b : ℤ) :
    (L.Covers q b → store m (L.offset q) (L.filled q v) b = v) ∧
      (¬ L.Covers q b → store m (L.offset q) (L.filled q v) b = m b) := by
  rw [filled, store_replicate, Covers]
  constructor
  · intro hb
    exact if_pos (by omega)
  · intro hb
    exact if_neg (by omega)

end Layout

section Carried

variable {n : ℕ} {Loc Ret : Type} {P : Role → Program n Loc Ret} (L : Layout n) (v : Byte)
  (mem : Role → Memory)

/-- What the two programs contribute: their requests keep to the layout, and the server
sends on a queue pair what it has got there, no more. -/
structure Echoes (h : Verbs.State n Loc Ret) : Prop where
  uses : ∀ X, ∀ w ∈ (h.host X).posted, L.Uses w
  turn : ∀ q, h.sends .server q ≤ h.arrived .client q

/-- Every message on the wire has the client's bytes and the length of the receive that
awaits it, the client's memory is what it was, and so is the server's outside of the
segments that a message has come into. -/
structure Carried (s : State n Loc Ret) : Prop where
  wire : ∀ X q data, s.wire X q = some data → data = L.filled q v
  client : ∀ b, s.mem .client b = mem .client b
  seen : ∀ q b, 0 < s.hosts.arrived .client q → L.Covers q b → s.mem .server b = v
  unseen : ∀ b, (∀ q, 0 < s.hosts.arrived .client q → ¬ L.Covers q b) →
    s.mem .server b = mem .server b

variable {L v mem} {s t : State n Loc Ret}

theorem Carried.nothing : Carried L v mem (system P mem).init where
  wire _ _ _ h := by cases h
  client _ := rfl
  seen _ _ h _ := absurd h (lt_irrefl 0)
  unseen _ _ := rfl

theorem Echoes.nextSend {X : Role} {q : Fin n} {w : WorkRequest n} (h : Echoes L s.hosts)
    (hw : nextSend s.hosts X q = some w) : L.Uses w ∧ w.qp = q ∧
      s.hosts.arrived X q + s.hosts.lost X q < s.hosts.sends X q := by
  obtain ⟨hmem, _, hq⟩ := mem_onQueue.mp (List.mem_of_getElem? hw)
  exact ⟨h.uses X w hmem, hq, (List.getElem?_eq_some_iff.mp hw).1⟩

theorem Echoes.nextRecv {X : Role} {q : Fin n} {r : WorkRequest n} (h : Echoes L s.hosts)
    (hr : nextRecv s.hosts X q = some r) : L.Uses r ∧ r.qp = q := by
  obtain ⟨hmem, _, hq⟩ := mem_onQueue.mp (List.mem_of_getElem? hr)
  exact ⟨h.uses X.peer r hmem, hq⟩

/-- The bytes that a message is read from: the server sends only after something has come
into the segment. -/
theorem Carried.covered (h : Carried L v mem s) (hv : ∀ q b, L.Covers q b → mem .client b = v)
    (he : Echoes L s.hosts) {X : Role} {q : Fin n}
    (hlt : s.hosts.arrived X q + s.hosts.lost X q < s.hosts.sends X q) (b : ℤ)
    (hb : L.Covers q b) : s.mem X b = v := by
  cases X with
  | client => rw [h.client, hv q b hb]
  | server =>
    have hturn := he.turn q
    exact h.seen q b (by omega) hb

theorem Carried.transmit (h : Carried L v mem s)
    (hv : ∀ q b, L.Covers q b → mem .client b = v) (he : Echoes L s.hosts) {X : Role}
    {q : Fin n} {w : WorkRequest n} (hw : Payload.nextSend s.hosts X q = some w) :
    Carried L v mem
      { s with wire := putWire s.wire X q (some (load (s.mem X) w.offset w.length)) } := by
  obtain ⟨huse, rfl, hlt⟩ := he.nextSend hw
  refine { h with wire := ?_ }
  intro Y r data hd
  by_cases hr : Y = X ∧ r = w.qp
  · obtain ⟨rfl, rfl⟩ := hr
    have hload : load (s.mem Y) w.offset w.length = data := by simpa [putWire] using hd
    rw [← hload]
    exact Layout.load_filled huse (h.covered hv he hlt)
  · exact h.wire Y r data (by simpa [putWire, hr] using hd)

theorem Carried.deliver (h : Carried L v mem s)
    (hv : ∀ q b, L.Covers q b → mem .client b = v) (he : Echoes L s.hosts) {X : Role}
    {q : Fin n} {data : List Byte} {r : WorkRequest n} {h' : Verbs.State n Loc Ret}
    (hd : s.wire X q = some data) (hr : Payload.nextRecv s.hosts X q = some r)
    (ha : h'.arrived = bump s.hosts.arrived X q) :
    Carried L v mem ⟨h', Function.update s.mem X.peer (store (s.mem X.peer) r.offset data),
      putWire s.wire X q none⟩ := by
  obtain ⟨⟨ho, _⟩, rfl⟩ := he.nextRecv hr
  obtain rfl := h.wire X r.qp data hd
  have hwire : ∀ Y u m, putWire s.wire X r.qp none Y u = some m → m = L.filled u v := by
    intro Y u m hm
    by_cases hu : Y = X ∧ u = r.qp
    · simp [putWire, hu] at hm
    · exact h.wire Y u m (by simpa [putWire, hu] using hm)
  rw [ho]
  cases X with
  | client =>
    -- the server's segment takes the client's byte
    refine ⟨hwire, h.client, ?_, ?_⟩
    · intro q b hq hb
      show store (s.mem .server) _ _ b = v
      by_cases hcov : L.Covers r.qp b
      · exact (L.store_filled _ _ _ _).1 hcov
      · have hne : q ≠ r.qp := fun he => hcov (he ▸ hb)
        rw [(L.store_filled _ _ _ _).2 hcov]
        exact h.seen q b (by simpa [ha, bump_of_ne _ _ _ hne] using hq) hb
    · intro b hb
      have hcov : ¬ L.Covers r.qp b := hb r.qp (by simp [ha])
      show store (s.mem .server) _ _ b = _
      rw [(L.store_filled _ _ _ _).2 hcov]
      apply h.unseen b
      intro q hq
      apply hb q
      rw [ha]
      exact hq.trans_le (le_bump _ _ _ _ _)
  | server =>
    -- the client gets back what it has sent
    have hkeep : ∀ q, h'.arrived .client q = s.hosts.arrived .client q := by
      intro q
      rw [ha, bump_of_role_ne _ _ _ (by decide)]
    refine ⟨hwire, ?_, ?_, ?_⟩
    · intro b
      show store (s.mem .client) _ _ b = _
      by_cases hcov : L.Covers r.qp b
      · rw [(L.store_filled _ _ _ _).1 hcov, hv r.qp b hcov]
      · rw [(L.store_filled _ _ _ _).2 hcov, h.client]
    · intro q b hq hb
      exact h.seen q b (by rwa [← hkeep]) hb
    · intro b hb
      exact h.unseen b (fun q hq => hb q (by rwa [hkeep]))

theorem Carried.next (h : Carried L v mem s)
    (hv : ∀ q b, L.Covers q b → mem .client b = v) (he : Echoes L s.hosts) {a : Action n}
    (hst : step P s a = some t) : Carried L v mem t := by
  cases a with
  | transmit X q =>
    obtain ⟨w, hw, rfl⟩ := step_transmit hst
    exact h.transmit hv he hw
  | host a =>
    by_cases ha : ∃ X q, a = .deliver X q
    · obtain ⟨X, q, rfl⟩ := ha
      obtain ⟨data, r, h', hd, hr, hs, rfl⟩ := step_deliver hst
      obtain ⟨_, _, _, _, _, _, rfl⟩ := Verbs.step_deliver hs
      exact h.deliver hv he hd hr rfl
    · push Not at ha
      obtain ⟨hs, hm, hw⟩ := step_other hst ha
      have harr := arrived_of_not_deliver hs ha
      refine ⟨fun X q m hwire => h.wire X q m (hw X q m hwire), ?_, ?_, ?_⟩
      · rw [hm]; exact h.client
      · rw [hm, harr]; exact h.seen
      · rw [hm, harr]; exact h.unseen

/-- No message is too long for the receive it meets. -/
theorem Carried.delivers (h : Carried L v mem s) (he : Echoes L s.hosts) {X : Role} {q : Fin n}
    (hd : s.wire X q ≠ none) (hen : (Verbs.system P).Enabled s.hosts (.deliver X q)) :
    (system P mem).Enabled s (.host (.deliver X q)) := by
  obtain ⟨data, hd⟩ := Option.ne_none_iff_exists'.mp hd
  obtain ⟨h', hst⟩ := hen
  have hst : Verbs.step P s.hosts (.deliver X q) = some h' := hst
  obtain ⟨_, _, _, _, _, hr, _⟩ := Verbs.step_deliver hst
  obtain ⟨r, hr⟩ : ∃ r, Payload.nextRecv s.hosts X q = some r :=
    ⟨_, List.getElem?_eq_getElem hr⟩
  obtain ⟨⟨_, hlen⟩, rfl⟩ := he.nextRecv hr
  have hle : data.length ≤ r.length.toNat := by
    rw [h.wire X r.qp data hd, hlen, Layout.filled, List.length_replicate]
  apply Machine.enabled_of_isSome
  show (step P s (.host (.deliver X r.qp))).isSome = true
  simp only [step, hd, hr, if_pos hle, hst]
  rfl

/-- What holds of a run of two hosts that echo, with their memories. -/
structure Sound (P : Role → Program n Loc Ret) (L : Layout n) (v : Byte) (mem : Role → Memory)
    (s : State n Loc Ret) : Prop extends Carried L v mem s where
  delivers : ∀ X q, s.wire X q ≠ none → (Verbs.system P).Enabled s.hosts (.deliver X q) →
    (system P mem).Enabled s (.host (.deliver X q))

theorem sound {ok : Verbs.State n Loc Ret → Verbs.Action n → Prop}
    (hv : ∀ q b, L.Covers q b → mem .client b = v)
    (he : ∀ h, (Verbs.system P).ReachableBy ok h → Echoes L h)
    (h : (system P mem).ReachableBy (onHosts ok) s) : Sound P L v mem s := by
  have hboth : (Verbs.system P).ReachableBy ok s.hosts ∧ Carried L v mem s := by
    apply h.invariant ⟨Machine.reachableBy_init, Carried.nothing⟩
    intro u a t ⟨hu, hc⟩ hok hst
    refine ⟨?_, hc.next hv (he _ hu) hst⟩
    rcases step_hosts hst with ⟨X, q, rfl, hsame⟩ | ⟨b, rfl, hb⟩
    · exact hsame ▸ hu
    · exact hu.next hok hb
  exact ⟨hboth.2, fun X q => hboth.2.delivers (he _ hboth.1)⟩

end Carried

section Fill

/-- `0x7b + is_server`. -/
def fillByte : Role → Byte
  | .client => 0x7b
  | .server => 0x7b + 1

/-- `memset` of `pp_init_ctx`: `size` bytes of the memory get the host's byte. -/
def filledBuffer (size : ℕ) (mem : Role → Memory) (X : Role) : Memory := fun b =>
  if 0 ≤ b ∧ b < size then fillByte X else mem X b

theorem filledBuffer_covers {n : ℕ} (L : Layout n) (mem : Role → Memory) (X : Role)
    {q : Fin n} {b : ℤ} (hb : L.Covers q b) : filledBuffer L.size mem X b = fillByte X := by
  have hin := L.inside q
  unfold Layout.Covers at hb
  exact if_pos (by omega)

end Fill

end InfinibandWorkshop.Payload

namespace InfinibandWorkshop.Multistream
open Verbs Payload

variable {c : Config}

section Posted

variable {n : ℕ} (ctx : PingpongContext n)

/-- A request of the segment of its queue pair. -/
def Posts (w : WorkRequest n) : Prop := ∃ k q, w = request ctx k q

theorem posts_creditReceive (room : Room n) (q : Fin n) (s : Locals n) :
    ∀ w ∈ (creditReceive ctx room q s).posted, Posts ctx w := by
  intro w hw
  have hmem : w ∈ ppPostRecvPQp ctx (room.recv q) q
      ((ctx.rxDepth : ℤ) - (s.routsArr q - 1)).toNat := by
    simp only [creditReceive] at hw
    split_ifs at hw
    · exact hw
    · exact hw
    · cases hw
  rw [ppPostRecvPQp_eq] at hmem
  exact ⟨.recv, q, (List.mem_replicate.mp hmem).2⟩

theorem posts_countCompletion (room : Room n) (q : Fin n) (id : BitVec 32) (s : Locals n) :
    ∀ w ∈ (countCompletion ctx room q id s).posted, Posts ctx w := by
  intro w hw
  unfold countCompletion at hw
  split_ifs at hw
  · cases hw
  · rcases Outcome.mem_bind hw with hw | ⟨l, hw⟩
    · exact posts_creditReceive ctx room q s w hw
    · cases hw
  · cases hw

theorem posts_repost (iters : ℕ) (room : Room n) (q : Fin n) (id : BitVec 32) (s : Locals n) :
    ∀ w ∈ (repost ctx iters room q id s).posted, Posts ctx w := by
  intro w hw
  by_cases hroom : room.send q = 0
  · simp only [repost, ppPostSendQp, if_pos hroom] at hw
    split_ifs at hw <;> cases hw
  · simp only [repost, ppPostSendQp, if_neg hroom] at hw
    split_ifs at hw
    · exact ⟨.send, q, List.mem_singleton.mp hw⟩
    · cases hw

theorem posts_handleCompletion (iters : ℕ) (room : Room n) (s : Locals n) (wc : IbvWc) :
    ∀ w ∈ (handleCompletion ctx iters room s wc).posted, Posts ctx w := by
  intro w hw
  unfold handleCompletion at hw
  split at hw
  · cases hw
  · rename_i q _
    split_ifs at hw
    · cases hw
    · rcases Outcome.mem_bind hw with hw | ⟨l, hw⟩
      · exact posts_countCompletion ctx room q _ s w hw
      · exact posts_repost ctx iters room q _ l w hw

theorem posts_setup (X : Role) : ∀ w ∈ (setup ctx X).posted, Posts ctx w := by
  intro w hw
  rw [setup_eq, List.mem_append, List.mem_flatMap] at hw
  rcases hw with ⟨q, _, hw⟩ | hw
  · exact ⟨.recv, q, (List.mem_replicate.mp hw).2⟩
  · cases X with
    | client =>
      obtain ⟨q, _, rfl⟩ := List.mem_map.mp hw
      exact ⟨.send, q, rfl⟩
    | server => cases hw

end Posted

/-- The segments of `pp_init_ctx`. -/
def layout (c : Config) : Layout c.peerNum where
  size := c.size
  offset q := (request (c.ctx .client) .send q).offset
  length q := (request (c.ctx .client) .send q).length
  inside q := by
    have hend := segment_end_le c.size q.isLt
    simp only [request, Config.ctx, sizePerQP_eq]
    exact ⟨by positivity, by exact_mod_cast hend⟩

/-- The loops of the two programs with the bytes they move. -/
def payloadSystem (c : Config) (mem : Role → Memory) :
    Machine (Payload.State c.peerNum (Locals c.peerNum) Exit) (Payload.Action c.peerNum) :=
  Payload.system c.program (filledBuffer c.size mem)

theorem uses_of_posts {X : Role} {w : WorkRequest c.peerNum} (hw : Posts (c.ctx X) w) :
    (layout c).Uses w := by
  obtain ⟨k, q, rfl⟩ := hw
  exact ⟨rfl, rfl⟩

theorem echoes {s : c.State} (h : c.Reaches s) : Echoes (layout c) s where
  uses := by
    have hstart : ∀ X, ∀ w ∈ (c.program X).start.posted, (layout c).Uses w :=
      fun X w hw => uses_of_posts (posts_setup (c.ctx X) X w hw)
    have hhandle : ∀ X room l wc, ∀ w ∈ ((c.program X).handle room l wc).posted,
        (layout c).Uses w := fun X room l wc w hw =>
      uses_of_posts (posts_handleCompletion (c.ctx X) c.iters room l wc w hw)
    exact posted_of_reachable hstart hhandle h
  turn q := by
    obtain ⟨L, _, hc⟩ := Config.Reaches.accounted h
    have hdue := L.lawful.due_le .server q
    have hgot := L.lawful.got_le .server q
    rw [← hc.sent, ← hc.arrived]
    simp only [Rally.Tally.due, Rally.serve, Role.peer] at hdue hgot
    omega

variable {mem : Role → Memory} {s : Payload.State c.peerNum (Locals c.peerNum) Exit}

/-- The bytes of a round: all of them are the client's, whatever segments overlap and
whenever the devices get to read and write them, as long as no completion reports an error. -/
theorem payload_sound (h : (payloadSystem c mem).ReachableBy (onHosts Silent) s) :
    Sound c.program (layout c) (fillByte .client) (filledBuffer c.size mem) s :=
  sound (fun _ _ hb => filledBuffer_covers (layout c) mem .client hb) (fun _ hr => echoes hr) h

def firstPair : Fin smallConfig.peerNum := ⟨0, by decide⟩

/-- The first message of the first queue pair is read and delivered. -/
def smallTransfer : List (Payload.Action smallConfig.peerNum) :=
  [.transmit .client firstPair, .host (.deliver .client firstPair)]

def transferredState : Payload.State smallConfig.peerNum (Locals smallConfig.peerNum) Exit :=
  ((payloadSystem smallConfig (fun _ _ => 0)).exec (onHosts Silent)
    (payloadSystem smallConfig (fun _ _ => 0)).init smallTransfer).get (by decide +kernel)

theorem payload_sound_small : Sound smallConfig.program (layout smallConfig) (fillByte .client)
    (filledBuffer smallConfig.size (fun _ _ => 0)) transferredState :=
  payload_sound (Machine.reachableBy_of_exec _)

example : (transferredState.mem .server 0, transferredState.mem .server 1) =
    (fillByte .client, 0) := by decide +kernel

end InfinibandWorkshop.Multistream

namespace InfinibandWorkshop.Multithread
open Verbs Payload

variable {c : Config}

/-- The one segment is the whole buffer. -/
def layout (c : Config) : Layout 1 where
  size := c.size
  offset _ := 0
  length _ := c.size
  inside _ := ⟨le_rfl, (zero_add _).le⟩

def payloadSystem (c : Config) (mem : Role → Memory) :
    Machine (Payload.State 1 Locals Exit) (Payload.Action 1) :=
  Payload.system c.program (filledBuffer c.size mem)

theorem echoes {s : State} (h : c.system.Reachable s) : Echoes (layout c) s := by
  have hmap := Multistream.echoes (reaches_single (reachableBy_silent h))
  refine ⟨?_, hmap.turn⟩
  intro X w hw
  obtain ⟨ho, hl⟩ := hmap.uses X w hw
  have hreq := request_spread c .client .send
  have hq : w.qp = (0 : Fin 1) := Subsingleton.elim _ _
  simp only [Multistream.layout, hq, hreq] at ho hl
  exact ⟨ho, hl⟩

variable {mem : Role → Memory} {s : Payload.State 1 Locals Exit}

/-- The bytes of a round of two threads, which end up the same at both. -/
structure Exchanged (c : Config) (mem : Role → Memory) (s : Payload.State 1 Locals Exit) :
    Prop extends Sound c.program (layout c) (fillByte .client) (filledBuffer c.size mem) s where
  equal : Played c s.hosts →
    ∀ X (b : ℤ), 0 ≤ b → b < c.size → s.mem X b = fillByte .client

theorem thread_payload (h : (payloadSystem c mem).Reachable s) : Exchanged c mem s := by
  have hfill : ∀ q b, (layout c).Covers q b →
      filledBuffer c.size mem .client b = fillByte .client :=
    fun _ _ hb => filledBuffer_covers (layout c) mem .client hb
  have hrun : (payloadSystem c mem).ReachableBy (onHosts (fun _ _ => True)) s :=
    h.restrict (fun _ a _ _ _ => by cases a <;> trivial)
  have hs : Sound c.program (layout c) (fillByte .client) (filledBuffer c.size mem) s :=
    sound hfill (fun _ hr => echoes hr) hrun
  refine ⟨hs, ?_⟩
  intro hplayed X b hb0 hb
  have hcov : (layout c).Covers 0 b := ⟨hb0, by simpa [layout] using hb⟩
  cases X with
  | client => rw [hs.client, hfill 0 b hcov]
  | server =>
    have harr := (hplayed.arrived .client).2
    have hpos := c.iters_pos
    exact hs.seen 0 b (by omega) hcov

/-- One iteration, there and back. -/
def shortTransfer : List (Payload.Action 1) :=
  [.transmit .client ⟨0, Nat.one_pos⟩, .host (.deliver .client ⟨0, Nat.one_pos⟩),
    .host (.poll .server 1), .host (.handle .server),
    .transmit .server ⟨0, Nat.one_pos⟩, .host (.deliver .server ⟨0, Nat.one_pos⟩)]

def shortTransferState : Payload.State 1 Locals Exit :=
  ((payloadSystem shortConfig (fun _ _ => 0)).exec (fun _ _ => True)
    (payloadSystem shortConfig (fun _ _ => 0)).init shortTransfer).get (by decide +kernel)

theorem thread_payload_short : Exchanged shortConfig (fun _ _ => 0) shortTransferState :=
  thread_payload (Machine.reachableBy_of_exec _)

end InfinibandWorkshop.Multithread
