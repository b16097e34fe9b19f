import InfinibandWorkshop.MultistreamGuarantees

/-!
# Where the shared counters and the shared completion queue are not enough

The completion queue is created with `rx_depth + 1` entries for the completions
of all queue pairs, and the loop test looks only at totals over all queue pairs.
Both are tight: schedules that keep one side from polling, or let one queue pair
rally alone, show for which `peerNum` they suffice. A schedule is followed on the
tallies; every step taken there is a step of the two programs.
-/
namespace InfinibandWorkshop.Multistream
open Verbs Rally
open scoped BigOperators

section Schedules

variable {c : Config} {t : Tally (Fin c.peerNum)}
  {cq : Role → List (Queue × Fin c.peerNum)}

/-- The programs can reach a state between batches with the tally `t` and with
completions of the queues `cq` unpolled. -/
def Shows (c : Config) (t : Tally (Fin c.peerNum))
    (cq : Role → List (Queue × Fin c.peerNum)) : Prop :=
  ∃ (s : c.State) (L : Ledger (Fin c.peerNum) c.iters), c.Reaches s ∧ Coupled c s L ∧
    L.toTally = t ∧ ∀ X, (s.host X).wc = [] ∧
      (s.host X).cq.map (fun w => (w.opcode, w.qpNum)) =
        (cq X).map (fun p => (p.1, (c.program X).qpNum p.2))

theorem Shows.of_eq {t' : Tally (Fin c.peerNum)} (h : Shows c t cq) (he : t = t') :
    Shows c t' cq := he ▸ h

theorem shows_opening :
    Shows c (Ledger.opening (Fin c.peerNum) c.iters_pos).toTally (fun _ => []) :=
  ⟨_, _, Machine.reachableBy_init, coupled_init, rfl, fun _ => ⟨rfl, rfl⟩⟩

/-- A message in flight can be delivered. -/
theorem Shows.deliver (h : Shows c t cq) {X : Role} {q : Fin c.peerNum}
    (hf : t.arrived X q + t.lost X q < t.sent X q) :
    Shows c (t.deliver X q) (fun Y => cq Y ++ [(if Y = X then .send else .recv, q)]) := by
  obtain ⟨s, L, hr, hc, rfl, hq⟩ := h
  have hsent : s.arrived X q + s.lost X q < s.sends X q := by
    rw [← hc.arrived, ← hc.lost, ← hc.sent]
    exact hf
  obtain ⟨s', hst⟩ := deliver_enabled hsent (hc.recv_ready X q)
  obtain ⟨w, r, hw, hr', hs, hp, rfl⟩ := step_deliver hst
  obtain ⟨L', _, hL', hc'⟩ := hc.deliver hw hr' hs hp
  refine ⟨_, L', hr.next (by exact trivial) hst, hc', hL', ?_⟩
  intro Y
  obtain ⟨hwc, hcq⟩ := hq Y
  refine ⟨by rw [delivered_wc, hwc], ?_⟩
  rw [delivered_cq, List.map_append, hcq, List.map_append]
  by_cases hY : Y = X
  · subst Y; simp [arrival]
  · obtain rfl := Role.eq_peer_of_ne hY
    simp [arrival]

/-- A side still in its loop can poll and handle the first entry of its queue. -/
theorem Shows.serve (h : Shows c t cq) {X : Role} {k : Queue} {q : Fin c.peerNum}
    {u : List (Queue × Fin c.peerNum)} (hX : cq X = (k, q) :: u)
    (hopen : ¬ (c.iters ≤ ∑ r, t.acked X r ∧ c.iters ≤ ∑ r, t.got X r)) :
    Shows c ((counted k t X q).answer c.iters X q) (Function.update cq X u) := by
  obtain ⟨s, L, hr, hc, rfl, hq⟩ := h
  obtain ⟨hwc, hcq⟩ := hq X
  obtain ⟨w, ws, hw, hws⟩ : ∃ w ws, (s.host X).cq = w :: ws ∧
      (w.opcode, w.qpNum) = (k, (c.program X).qpNum q) ∧
      ws.map (fun w => (w.opcode, w.qpNum)) =
        u.map (fun p => (p.1, (c.program X).qpNum p.2)) := by
    rw [hX, List.map_cons, List.map_eq_cons_iff] at hcq
    obtain ⟨w, ws, hw, hk, hws⟩ := hcq
    exact ⟨w, ws, hw, hk, hws⟩
  obtain ⟨⟨rfl, hnum⟩, hrest⟩ := And.imp_left Prod.mk.inj hws
  have hleft : ¬ (s.host X).Left (c.program X) :=
    fun hl => hopen ((hc.left_iff X).mp hl).2
  obtain ⟨_, s₁, hpoll⟩ := hc.poll_enabled hwc hleft (by simp [hw])
  have hr₁ := hr.next (by exact trivial) hpoll
  obtain ⟨_, _, _, _, _, rfl⟩ := step_poll hpoll
  have hc₁ := hc.poll hwc 1 hleft
  obtain ⟨l, hl, _⟩ := hc₁.tracks X
  obtain ⟨s₂, hhandle⟩ := handle_enabled (P := c.program) hl (by simp [hw])
  have hr₂ := hr₁.next (by exact trivial) hhandle
  obtain ⟨l, v, vs, hl, hv, rfl⟩ := step_handle hhandle
  obtain ⟨rfl, rfl⟩ : v = w ∧ vs = [] := by
    rw [State.setHost_self, hw] at hv
    simpa using hv.symm
  obtain ⟨l', L', hok, _, hL', hc₂⟩ := hc₁.handle hl hv hnum
  refine ⟨_, L', hr₂, hc₂, hL', ?_⟩
  intro Y
  by_cases hY : Y = X
  · subst Y
    rw [State.setHost_self, Function.update_self, handled_cq, State.setHost_self]
    exact ⟨handled_wc _ _ _ hok, by simpa [hw] using hrest⟩
  · rw [State.setHost_ne _ _ hY, State.setHost_ne _ _ hY, Function.update_of_ne hY]
    exact hq Y

/-- Serving an entry that leaves its queue pair idle, while sends are still due. -/
theorem Shows.reply (h : Shows c t cq) {X : Role} {k : Queue} {q : Fin c.peerNum}
    {u : List (Queue × Fin c.peerNum)} (hX : cq X = (k, q) :: u)
    (hopen : ¬ (c.iters ≤ ∑ r, t.acked X r ∧ c.iters ≤ ∑ r, t.got X r))
    (hlt : ∑ r, (counted k t X q).acked X r < c.iters) (hidle : (counted k t X q).Idle X q) :
    Shows c { counted k t X q with sent := bump (counted k t X q).sent X q }
      (Function.update cq X u) := by
  have hs := h.serve hX hopen
  rwa [Tally.answer, if_pos ⟨hlt, hidle⟩] at hs

/-- Serving an entry whose queue pair still waits for something. -/
theorem Shows.note (h : Shows c t cq) {X : Role} {k : Queue} {q : Fin c.peerNum}
    {u : List (Queue × Fin c.peerNum)} (hX : cq X = (k, q) :: u)
    (hopen : ¬ (c.iters ≤ ∑ r, t.acked X r ∧ c.iters ≤ ∑ r, t.got X r))
    (hbusy : ¬ (counted k t X q).Idle X q) :
    Shows c (counted k t X q) (Function.update cq X u) := by
  have hs := h.serve hX hopen
  rwa [Tally.answer, if_neg (fun hn => hbusy hn.2)] at hs

end Schedules

section Flood

variable {c : Config}

/-- The server has answered on the queue pairs below `a`, its answers on those
below `d` have arrived, and the client has not polled anything. -/
def flood (c : Config) (a d : ℕ) : Tally (Fin c.peerNum) where
  sent X q := match X with
    | .client => 1
    | .server => if q.val < a then 1 else 0
  arrived X q := match X with
    | .client => if q.val < a then 1 else 0
    | .server => if q.val < d then 1 else 0
  lost _ _ := 0
  acked _ _ := 0
  got X q := match X with
    | .client => 0
    | .server => if q.val < a then 1 else 0

theorem flood_answers {a : ℕ} (ha : a ≤ c.peerNum) :
    ∃ cq, cq .server = [] ∧ Shows c (flood c a 0) cq := by
  induction a with
  | zero =>
    refine ⟨fun _ => [], rfl, shows_opening.of_eq ?_⟩
    ext X q <;> cases X <;> rfl
  | succ a ih =>
    obtain ⟨cq, hcq, h⟩ := ih (by omega)
    have hq : a < c.peerNum := by omega
    have hiters : 0 < c.iters := c.iters_pos
    have h₁ := h.deliver (X := .client) (q := ⟨a, hq⟩) (by simp [flood])
    have h₂ := h₁.reply (X := .server) (k := .recv) (q := ⟨a, hq⟩) (u := [])
      (by simp [hcq]) (by simp [Tally.deliver, flood]; omega)
      (by simpa [counted, Tally.countMsg, Tally.deliver, flood] using hiters)
      (by simp [counted, Tally.Idle, Tally.AwaitsMsg, Tally.AwaitsAck, Tally.due, serve,
        Tally.countMsg, Tally.deliver, flood])
    refine ⟨_, Function.update_self _ _ _, h₂.of_eq ?_⟩
    ext X q <;> cases X <;>
      simp [counted, Tally.countMsg, Tally.deliver, flood, bump, Fin.ext_iff] <;>
      split_ifs <;> omega

/-- The client can be left with both completions of every queue pair unpolled. -/
theorem flood_arrives {d : ℕ} (hd : d ≤ c.peerNum) : ∃ cq, Shows c (flood c c.peerNum d) cq := by
  induction d with
  | zero =>
    obtain ⟨cq, _, h⟩ := flood_answers (c := c) le_rfl
    exact ⟨cq, h⟩
  | succ d ih =>
    obtain ⟨cq, h⟩ := ih (by omega)
    have hq : d < c.peerNum := by omega
    have h₁ := h.deliver (X := .server) (q := ⟨d, hq⟩) (by simp [flood])
    refine ⟨_, h₁.of_eq ?_⟩
    ext X q <;> cases X <;> simp [Tally.deliver, flood, bump, Fin.ext_iff]
    split_ifs <;> omega

theorem Coupled.cq_length {s : c.State} {L : Ledger (Fin c.peerNum) c.iters}
    (h : Coupled c s L) (X : Role) : (s.host X).cq.length =
      ∑ q, (count (c.program X) .send q (s.host X).cq +
        count (c.program X) .recv q (s.host X).cq) := by
  apply length_eq_sum_count (c.program X)
  intro w hw
  obtain ⟨_, _, q, hq, _⟩ := h.reads (X := X) (w := w) (by simp [Host.completions, hw])
  exact ⟨q, hq⟩

/-- Never more than a send and a receive completion of each queue pair. -/
theorem cq_length_le {s : c.State} (h : c.Reaches s) (X : Role) :
    (s.host X).cq.length ≤ 2 * c.peerNum := by
  obtain ⟨L, _, hc⟩ := h.accounted
  have hle : ∀ q, count (c.program X) .send q (s.host X).cq +
      count (c.program X) .recv q (s.host X).cq ≤ 2 := by
    intro q
    have hs := hc.unhandled_le X .send q
    have hr := hc.unhandled_le X .recv q
    rw [count_append] at hs hr
    omega
  rw [hc.cq_length]
  refine (Finset.sum_le_sum (fun q _ => hle q)).trans_eq ?_
  simp [mul_comm]

theorem cq_length_reached (c : Config) :
    ∃ s, c.Reaches s ∧ (s.host .client).cq.length = 2 * c.peerNum := by
  obtain ⟨cq, s, L, hr, hc, hL, hq⟩ := flood_arrives (c := c) le_rfl
  refine ⟨s, hr, ?_⟩
  have htwo : ∀ q, count (c.program .client) .send q (s.host .client).cq +
      count (c.program .client) .recv q (s.host .client).cq = 2 := by
    intro q
    have ha := hc.pending_acks .client q
    have hm := hc.pending_msgs .client q
    simp only [(hq .client).1, hL, flood, Role.peer, q.isLt, if_true, count_nil] at ha hm
    omega
  rw [hc.cq_length]
  simp [htwo, mul_comm]

/-- No reachable state holds more completions than the queue has entries. -/
def CqFits (c : Config) : Prop :=
  ∀ s, c.Reaches s → ∀ X, (s.host X).cq.length ≤ cqEntries (c.ctx X)

/-- The completion queue is large enough exactly when it has two entries for
every queue pair. -/
theorem cqFits_iff (c : Config) : CqFits c ↔ 2 * c.peerNum ≤ c.rxDepth + 1 := by
  constructor
  · intro h
    obtain ⟨s, hs, hlen⟩ := cq_length_reached c
    exact hlen ▸ h s hs .client
  · intro h s hs X
    exact (cq_length_le hs X).trans h

/-- The constants of the source, with any number of queue pairs. -/
def sourceConfig (peerNum size : ℕ) (h : 1 ≤ peerNum) : Config where
  peerNum := peerNum
  iters := 1000
  rxDepth := 500
  size := size
  peerNum_pos := h
  iters_pos := by decide
  two_le_rxDepth := by decide
  qpNum := fun _ q => q.val
  qpNum_injective := fun _ => Fin.val_injective

theorem cq_overruns_at_251 : ¬ CqFits (sourceConfig 251 1 (by decide)) := by
  intro h
  obtain ⟨s, hs, hlen⟩ := cq_length_reached (sourceConfig 251 1 (by decide))
  have hle := h s hs .client
  rw [hlen] at hle
  exact absurd hle (by decide)

end Flood

section Teardown

variable {c : Config}

def Config.first (c : Config) : Fin c.peerNum := ⟨0, c.peerNum_pos⟩

/-- Only the first queue pair is in play: the server has completed `a` rounds on
it and the client `b`; the first sends on all others are still in flight. -/
def solo (c : Config) (a b : ℕ) : Tally (Fin c.peerNum) where
  sent X q := match X with
    | .client => if q = c.first then b + 1 else 1
    | .server => if q = c.first then a else 0
  arrived _ q := if q = c.first then a else 0
  lost _ _ := 0
  acked X q := match X with
    | .client => if q = c.first then b else 0
    | .server => if q = c.first then a else 0
  got X q := match X with
    | .client => if q = c.first then b else 0
    | .server => if q = c.first then a else 0

/-- The server completes a round: it answers, and sees its answer acknowledged. -/
theorem solo_server {j : ℕ} (hj : j < c.iters) (h : Shows c (solo c j j) (fun _ => [])) :
    ∃ cq, cq .server = [] ∧ cq .client = [(.send, c.first), (.recv, c.first)] ∧
      Shows c (solo c (j + 1) j) cq := by
  have h₁ := h.deliver (X := .client) (q := c.first) (by simp [solo])
  have h₂ := h₁.reply (X := .server) (k := .recv) (q := c.first) (u := []) rfl
    (by simp [Tally.deliver, solo]; omega)
    (by simpa [counted, Tally.countMsg, Tally.deliver, solo] using hj)
    (by simp [counted, Tally.Idle, Tally.AwaitsMsg, Tally.AwaitsAck, Tally.due, serve,
      Tally.countMsg, Tally.deliver, solo])
  have h₃ := h₂.deliver (X := .server) (q := c.first)
    (by simp [counted, Tally.countMsg, Tally.deliver, solo, bump])
  have h₄ := h₃.note (X := .server) (k := .send) (q := c.first) (u := []) (by simp)
    (by simp [counted, Tally.countMsg, Tally.deliver, solo]; omega)
    (by simp [counted, Tally.Idle, Tally.AwaitsMsg, Tally.due, serve, Tally.countAck,
      Tally.countMsg, Tally.deliver, solo])
  refine ⟨_, Function.update_self _ _ _, by simp, h₄.of_eq ?_⟩
  ext X q <;> cases X <;> by_cases hq : q = c.first <;>
    simp [counted, Tally.countMsg, Tally.countAck, Tally.deliver, solo, bump, hq]

/-- The client completes it, and opens the next one. -/
theorem solo_client {j : ℕ} (hj : j + 1 < c.iters)
    {cq : Role → List (Queue × Fin c.peerNum)} (hs : cq .server = [])
    (hc : cq .client = [(.send, c.first), (.recv, c.first)])
    (h : Shows c (solo c (j + 1) j) cq) :
    Shows c (solo c (j + 1) (j + 1)) (fun _ => []) := by
  have h₁ := h.note (X := .client) hc
    (by simp [solo]; omega)
    (by simp [counted, Tally.Idle, Tally.AwaitsMsg, Tally.due, serve, Tally.countAck, solo])
  have h₂ := h₁.reply (X := .client) (Function.update_self _ _ _)
    (by simp [counted, Tally.countAck, solo, sum_bump_self]; omega)
    (by simpa [counted, Tally.countMsg, Tally.countAck, solo, sum_bump_self] using hj)
    (by simp [counted, Tally.Idle, Tally.AwaitsMsg, Tally.AwaitsAck, Tally.due, serve,
      Tally.countMsg, Tally.countAck, solo])
  have hempty : Function.update (Function.update cq .client [(.recv, c.first)]) .client [] =
      fun _ => [] := by
    funext X
    cases X <;> simp [hs]
  rw [hempty] at h₂
  refine h₂.of_eq ?_
  ext X q <;> cases X <;> by_cases hq : q = c.first <;>
    simp [counted, Tally.countMsg, Tally.countAck, solo, bump, hq]

theorem solo_rounds {j : ℕ} (hj : j < c.iters) : Shows c (solo c j j) (fun _ => []) := by
  induction j with
  | zero =>
    apply shows_opening.of_eq
    ext X q <;> cases X <;> simp [Ledger.opening, solo, serve]
  | succ j ih =>
    obtain ⟨cq, hs, hc, h⟩ := solo_server (by omega) (ih (by omega))
    exact solo_client hj hs hc h

/-- With a second queue pair, the server can leave while the client's first send
there has not arrived. -/
theorem leaves_undelivered (c : Config) (hn : 2 ≤ c.peerNum) :
    ∃ s, c.Reaches s ∧ (s.host .server).Left (c.program .server) ∧
      ∃ q, s.arrived .client q < s.sends .client q := by
  have hiters := c.iters_pos
  have hrounds := solo_rounds (c := c) (j := c.iters - 1) (by omega)
  obtain ⟨cq, _, _, s, L, hr, hc, hL, hq⟩ := solo_server (by omega) hrounds
  rw [Nat.sub_add_cancel hiters] at hL
  refine ⟨s, hr, (hc.left_iff .server).mpr ⟨(hq .server).1, ?_, ?_⟩, ⟨1, hn⟩, ?_⟩
  · simp [hL, solo]
  · simp [hL, solo]
  · have hne : (⟨1, hn⟩ : Fin c.peerNum) ≠ c.first := by simp [Config.first, Fin.ext_iff]
    rw [← hc.arrived, ← hc.sent, hL]
    simp [solo, hne]

/-- Once a side has left, nothing sent by either is undelivered, and no
completion of either ever reports an error. -/
def SafeTeardown (c : Config) : Prop :=
  ∀ s, c.system.Reachable s →
    (∀ X, (s.host X).Left (c.program X) → ∀ Y q, s.arrived Y q = s.sends Y q) ∧
      ∀ X, ∀ w ∈ (s.host X).completions, w.status = ibvWcSuccess

theorem not_safeTeardown (c : Config) (hn : 2 ≤ c.peerNum) : ¬ SafeTeardown c := by
  intro h
  obtain ⟨s, hs, hleft, q, hq⟩ := leaves_undelivered c hn
  exact absurd ((h s hs.reachable).1 .server hleft .client q) hq.ne

/-- On a single queue pair, a side leaves only after everything has arrived. -/
theorem drained_of_left (hn : c.peerNum = 1) {s : c.State} (h : c.Reaches s) {X : Role}
    (hX : (s.host X).Left (c.program X)) (Y : Role) (q : Fin c.peerNum) :
    s.arrived Y q = c.iters ∧ s.sends Y q = c.iters := by
  obtain ⟨L, _, hc⟩ := h.accounted
  have : Unique (Fin c.peerNum) := hn ▸ inferInstanceAs (Unique (Fin 1))
  rw [← hc.arrived, ← hc.sent]
  exact ((hc.left_iff X).mp hX).2.drained Y q

/-- A side that leaves has then counted exactly `iters` of each kind. -/
theorem counters_of_left (hn : c.peerNum = 1) {s : c.State} (h : c.Reaches s) {X : Role}
    (hX : (s.host X).Left (c.program X)) :
    ∃ l, (s.host X).loop = .ok l ∧ l.scnt = c.iters ∧ l.rcnt = c.iters := by
  obtain ⟨L, _, hc⟩ := h.accounted
  obtain ⟨l, hl, _⟩ := hc.tracks X
  have hle := hc.counters_le hl
  have hge := hc.counters_of_left hX hl
  exact ⟨l, hl, by omega, by omega⟩

theorem sends_le (hn : c.peerNum = 1) {s : c.State} (h : c.Reaches s) (X : Role)
    (q : Fin c.peerNum) : s.sends X q ≤ c.iters := by
  obtain ⟨L, _, hc⟩ := h.accounted
  have hsingle := Finset.single_le_sum (fun r _ => Nat.zero_le (L.sent X r)) (Finset.mem_univ q)
  have hsum := sum_sent_le L X
  rw [← hc.sent]
  omega

/-- Nothing comes back as an error when nothing is cut off. -/
theorem reaches_of_reachable (hn : c.peerNum = 1) {s : c.State} (h : c.system.Reachable s) :
    c.Reaches s := by
  apply h.restrict
  intro u a t hu hst
  cases a with
  | abort X q =>
    obtain ⟨hleft, hlt⟩ := step_abort hst
    have hd := drained_of_left hn hu hleft X q
    omega
  | _ => trivial

/-- Leaving is safe exactly when there is one queue pair only. -/
theorem safeTeardown_iff (c : Config) : SafeTeardown c ↔ c.peerNum = 1 := by
  constructor
  · intro h
    have hpos := c.peerNum_pos
    by_contra hne
    exact not_safeTeardown c (by omega) h
  · intro hn s hs
    have hr := reaches_of_reachable hn hs
    constructor
    · intro X hX Y q
      obtain ⟨ha, hsent⟩ := drained_of_left hn hr hX Y q
      rw [ha, hsent]
    · intro X w hw
      exact ((balanced_of_reachable hr).reports X w hw).1

theorem teardown_unsafe_at_2 : ¬ SafeTeardown (sourceConfig 2 1 (by decide)) :=
  not_safeTeardown _ le_rfl

end Teardown

end InfinibandWorkshop.Multistream
