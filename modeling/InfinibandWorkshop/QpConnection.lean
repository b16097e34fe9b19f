import InfinibandWorkshop.AddressAlignment

/-!
# The queue pairs that the exchange connects

The server connects a queue pair before it answers the record of its peer, the
client after it has confirmed the answer. In runs of whole reads the order of the
messages makes one of these an observation of the other: once the client has the
record of queue pair `k`, the server has connected its own `k`.
-/
namespace InfinibandWorkshop.Exchange
open CText

section Program

variable {n : ℕ} {X : Role} {s : Side n} {k : Fin n} {op : Op}

@[simp] theorem next_qp : (s.next X).qp = s.qp := by
  unfold Side.next
  split <;> rfl

theorem mem_of_recvs {todo : List (Fin n × Op)} (h : .dest k ∈ todo.filterMap recvOf) :
    (k, .readDest) ∈ todo := by
  obtain ⟨⟨k', op⟩, hmem, he⟩ := List.mem_filterMap.mp h
  cases op <;> simp only [recvOf, Option.some.injEq, reduceCtorEq, Message.dest.injEq] at he
  exact he ▸ hmem

theorem mem_todo {ks : List (Fin n)} (hr : s.rounds = k :: ks) (k' : Fin n) (op : Op) :
    (k', op) ∈ s.todo X ↔ (k' = k ∧ op ∈ s.ops) ∨ (k' ∈ ks ∧ op ∈ exchDest X) := by
  simp only [Side.todo, hr, List.mem_append, List.mem_map, List.mem_flatMap, Prod.mk.injEq]
  constructor
  · rintro (⟨o, ho, rfl, rfl⟩ | ⟨j, hj, o, ho, rfl, rfl⟩)
    · exact .inl ⟨rfl, ho⟩
    · exact .inr ⟨hj, ho⟩
  · rintro (⟨rfl, ho⟩ | ⟨hj, ho⟩)
    · exact .inl ⟨op, ho, rfl, rfl⟩
    · exact .inr ⟨k', hj, op, ho, rfl, rfl⟩

/-- The server answers a record after it has connected the queue pair. -/
theorem OnTrack.write_of_connect (h : OnTrack .server s) (hc : (k, .connect) ∈ s.todo .server) :
    (k, .writeDest) ∈ s.todo .server := by
  have hops : ∀ os ∈ (exchDest .server).tails, .connect ∈ os → .writeDest ∈ os := by decide
  cases hr : s.rounds with
  | nil =>
    rw [Side.todo, hr] at hc
    cases hc
  | cons j ks =>
    rw [mem_todo hr] at hc ⊢
    rcases hc with ⟨rfl, hc⟩ | ⟨hk, _⟩
    · exact .inl ⟨rfl, hops _ ((List.mem_tails _ _).mpr h.ops) hc⟩
    · exact .inr ⟨hk, by decide⟩

/-- The client reads every record once. -/
theorem OnTrack.read_once (h : OnTrack .client s) (hc : s.current = some (k, .readDest)) :
    (k, .readDest) ∉ (s.next .client).todo .client := by
  obtain ⟨_, ks, ops, hr, ho⟩ := current_eq hc
  have hops : ∀ os ∈ (exchDest .client).tails, os.head? = some .readDest →
      .readDest ∉ os.tail := by
    decide
  have hread := hops _ ((List.mem_tails _ _).mpr h.ops) (by rw [ho]; rfl)
  have hnodup : (k :: ks).Nodup := (List.nodup_finRange n).sublist (hr ▸ h.rounds).sublist
  have htodo : s.todo .client = (k, .readDest) :: (ops.map (fun op => (k, op)) ++
      ks.flatMap (fun k => (exchDest .client).map (fun op => (k, op)))) := by
    rw [Side.todo, hr, ho]
    rfl
  have hnext := List.tail_eq_of_cons_eq ((todo_next (X := .client) hc).symm.trans htodo)
  rw [hnext, List.mem_append, List.mem_map, List.mem_flatMap]
  rintro (⟨o, ho', he⟩ | ⟨j, hj, he⟩)
  · rw [ho, List.tail_cons] at hread
    exact hread ((Prod.mk.inj he).2 ▸ ho')
  · obtain ⟨_, _, he⟩ := List.mem_map.mp he
    exact (List.nodup_cons.mp hnodup).1 ((Prod.mk.inj he).1 ▸ hj)

theorem Side.Finished.todo_eq (h : s.Finished) : s.todo X = [] := by
  rw [Side.todo, h.2]

end Program

section Connected

variable {c : Config} {s t : State c.peerNum} {X : Role} {k : Fin c.peerNum} {op : Op}
  {a : Action}

/-- Queue pair `k` of `X` as connecting leaves it: nothing depends on what it was. -/
def connectedQp (c : Config) (X : Role) (k : Fin c.peerNum) : Qp :=
  ppConnectCtxPerQp ⟨.init, 0, 0, 0, 0, none⟩ (c.myDest X k).psn
    (c.myDest X.peer k).toPingpongDest

/-- Side `X` has performed `op`, having turned into `a` on the way. -/
theorem moved {a : Side c.peerNum} (hc : a.current = some (k, op))
    (hsame : a.todo X = (s.side X).todo X) :
    (Function.update s.side X (a.next X)) X.peer = s.side X.peer ∧
      (s.side X).todo X = (k, op) :: ((Function.update s.side X (a.next X)) X).todo X ∧
      ((Function.update s.side X (a.next X)) X).qp = a.qp := by
  refine ⟨Function.update_of_ne (Role.peer_ne X) _ _, ?_, ?_⟩
  · rw [Function.update_self, ← hsame, todo_next hc]
  · rw [Function.update_self, next_qp]

/-- One step of a run of whole reads: one side performs its current operation, and
only connecting changes a queue pair. -/
theorem Synced.step_cases (h : Synced c s) (ha : WholeReads c s a) (hst : step c s a = some t) :
    ∃ X k op, (s.side X).current = some (k, op) ∧ t.side X.peer = s.side X.peer ∧
      (s.side X).todo X = (k, op) :: (t.side X).todo X ∧
      (t.side X).qp = (if op = .connect then
        Function.update (s.side X).qp k (connectedQp c X k) else (s.side X).qp) ∧
      (op = .readDest → s.wire X.peer ≠ []) := by
  cases a with
  | run X =>
    simp only [step] at hst
    split at hst
    · rename_i k hc
      obtain ⟨hpeer, htodo, hqp⟩ := moved (s := s) hc rfl
      rw [← Option.some.inj hst]
      exact ⟨X, k, .writeDest, hc, hpeer, htodo, hqp, by simp⟩
    · rename_i k hc
      obtain ⟨hpeer, htodo, hqp⟩ := moved (s := s) hc rfl
      rw [← Option.some.inj hst]
      exact ⟨X, k, .writeDone, hc, hpeer, htodo, hqp, by simp⟩
    · rename_i k hc
      split at hst
      · rename_i dest hdest
        have hrem := (h.known X k).resolve_left ((h.onTrack X).read_of_connect hc)
        obtain rfl := Option.some.inj (hdest.symm.trans hrem)
        rw [← Option.some.inj hst]
        obtain ⟨hpeer, htodo, hqp⟩ := moved (s := s) (X := X) (a := { s.side X with
          qp := Function.update (s.side X).qp k (connectedQp c X k) }) hc rfl
        exact ⟨X, k, .connect, hc, hpeer, htodo, hqp, by simp⟩
      · cases hst
    · cases hst
  | read X m =>
    simp only [step] at hst
    split at hst
    · rename_i k hc
      have hm : m = msgSize := by simpa only [WholeReads, hc, Whole] using ha
      subst m
      rw [if_pos rfl] at hst
      split_ifs at hst with hr
      rw [← Option.some.inj hst]
      obtain ⟨hpeer, htodo, hqp⟩ := moved (s := s) (X := X) (a := { s.side X with
        remDest := Function.update (s.side X).remDest k
          (some (decode (c.endian X) (c.old X k) ((s.wire X.peer).take msgSize))) }) hc rfl
      exact ⟨X, k, .readDest, hc, hpeer, htodo, hqp, fun _ => wire_ne_nil hr (by decide)⟩
    · rename_i k hc
      split_ifs at hst with hr
      obtain ⟨hpeer, htodo, hqp⟩ := moved (s := s) hc rfl
      rw [← Option.some.inj hst]
      exact ⟨X, k, .readDone, hc, hpeer, htodo, hqp, by simp⟩
    · cases hst

/-- What has been connected, and what the client's progress says of the server's. -/
structure Wired (c : Config) (s : State c.peerNum) : Prop where
  synced : Synced c s
  connected : ∀ X k, (k, .connect) ∈ (s.side X).todo X ∨ (s.side X).qp k = connectedQp c X k
  server_first : ∀ k, (k, .connect) ∈ (s.side .server).todo .server →
    (k, .readDest) ∈ (s.side .client).todo .client

theorem mem_todo_start (X : Role) (remDest : Fin c.peerNum → Option PingpongDest)
    (qp : Fin c.peerNum → Qp) (hop : op ∈ exchDest X) :
    (k, op) ∈ Side.todo X ⟨List.finRange c.peerNum, exchDest X, none, remDest, qp⟩ := by
  rw [todo_start, List.mem_flatMap]
  exact ⟨k, List.mem_finRange k, List.mem_map_of_mem hop⟩

theorem wired_init : Wired c (system c).init where
  synced := synced_init
  connected X k := .inl (mem_todo_start X _ _ (by cases X <;> decide))
  server_first k _ := mem_todo_start .client _ _ (by decide)

/-- The record that the client is about to read has been written by a server that
has connected the queue pair before. -/
theorem Wired.server_connected (h : Wired c s)
    (hc : (s.side .client).current = some (k, .readDest)) (hw : s.wire .server ≠ []) :
    (k, .connect) ∉ (s.side .server).todo .server := by
  intro hmem
  have hwrite := (h.synced.onTrack .server).write_of_connect hmem
  have hsend : .dest k ∈ ((s.side .server).todo .server).filterMap sendOf :=
    List.mem_filterMap.mpr ⟨_, hwrite, rfl⟩
  -- the record is in the stream, so what is still to be sent is due after it
  obtain ⟨rest, _, pending, hdue, _⟩ := (h.synced.due hc (m := .dest k) rfl).head hw
  have hlater : .dest k ∈ (((s.side .client).next .client).todo .client).filterMap recvOf := by
    rw [hdue]
    exact List.mem_append_right _ hsend
  exact (h.synced.onTrack .client).read_once hc (mem_of_recvs hlater)

theorem Wired.next (h : Wired c s) (ha : WholeReads c s a) (hst : step c s a = some t) :
    Wired c t := by
  obtain ⟨X, k, op, hc, hpeer, htodo, hqp, hw⟩ := h.synced.step_cases ha hst
  refine ⟨h.synced.next ha hst, ?_, ?_⟩
  · intro Y k'
    by_cases hY : Y = X
    · subst Y
      have hold := h.connected X k'
      rw [htodo, List.mem_cons] at hold
      rw [hqp]
      rcases hold with (he | hmem) | hold
      · obtain ⟨rfl, rfl⟩ := Prod.mk.inj he
        exact .inr (by rw [if_pos rfl, Function.update_self])
      · exact .inl hmem
      · right
        split_ifs
        · by_cases hk : k' = k
          · rw [hk, Function.update_self]
          · rw [Function.update_of_ne hk, hold]
        · exact hold
    · obtain rfl := Role.eq_peer_of_ne hY
      rw [hpeer]
      exact h.connected X.peer k'
  · intro k' hmem
    cases X with
    | client =>
      rw [show t.side .server = s.side .server from hpeer] at hmem
      have hread := h.server_first k' hmem
      rw [htodo, List.mem_cons] at hread
      rcases hread with he | hread
      · obtain ⟨rfl, rfl⟩ := Prod.mk.inj he
        exact absurd hmem (h.server_connected hc (hw rfl))
      · exact hread
    | server =>
      rw [show t.side .client = s.side .client from hpeer]
      apply h.server_first
      rw [htodo]
      exact List.mem_cons_of_mem _ hmem

/-- A finished side has connected all its queue pairs. -/
theorem Wired.qp_of_finished (h : Wired c s) (hf : (s.side X).Finished) (k : Fin c.peerNum) :
    (s.side X).qp k = connectedQp c X k := by
  refine (h.connected X k).resolve_left ?_
  simp [hf.todo_eq]

/-- When the client has finished, the server has connected all its queue pairs too. -/
theorem Wired.all_connected (h : Wired c s) (hf : (s.side .client).Finished) (X : Role)
    (k : Fin c.peerNum) : (s.side X).qp k = connectedQp c X k := by
  cases X with
  | client => exact h.qp_of_finished hf k
  | server =>
    refine (h.connected .server k).resolve_left ?_
    intro hmem
    have hread := h.server_first k hmem
    rw [hf.todo_eq] at hread
    cases hread

/-- A side that has finished stays finished. -/
theorem Synced.finished_mono (h : Synced c s) (ha : WholeReads c s a)
    (hst : step c s a = some t) (hf : (s.side X).Finished) : (t.side X).Finished := by
  obtain ⟨Y, k, op, hc, hpeer, _⟩ := h.step_cases ha hst
  have hY : X ≠ Y := by
    intro hXY
    obtain ⟨_, ks, _, hr, _⟩ := current_eq hc
    rw [← hXY, hf.2] at hr
    cases hr
  rw [Role.eq_peer_of_ne hY] at hf ⊢
  rwa [hpeer]

end Connected

end InfinibandWorkshop.Exchange
