import InfinibandWorkshop.AddressExchange

/-!
# When the address exchange works

Nothing frames the records, so the two parsers stay together only as long as
every read takes exactly what one write has put there. Under that condition no
side fails or gets stuck, and both end with the records of their peer; the last
read of the last round may take what it likes.
-/
namespace InfinibandWorkshop.Exchange
open CText

inductive Message (n : ℕ)
  | dest (k : Fin n)
  | done (k : Fin n)
  deriving DecidableEq

/-- The message an operation writes, and the one it expects to read. -/
def sendOf {n : ℕ} : Fin n × Op → Option (Message n)
  | (k, .writeDest) => some (.dest k)
  | (k, .writeDone) => some (.done k)
  | _ => none

def recvOf {n : ℕ} : Fin n × Op → Option (Message n)
  | (k, .readDest) => some (.dest k)
  | (k, .readDone) => some (.done k)
  | _ => none

def bytesOfMessage (c : Config) (X : Role) : Message c.peerNum → List Byte
  | .dest k => encode (c.endian X) (c.myDest X k).toPingpongDest
  | .done _ => doneMsg

/-- All that a side still has to do. -/
def Side.todo {n : ℕ} (X : Role) (s : Side n) : List (Fin n × Op) :=
  match s.rounds with
  | [] => []
  | k :: ks => s.ops.map (fun op => (k, op)) ++
      ks.flatMap (fun k => (exchDest X).map (fun op => (k, op)))

/-- A read of `m` bytes takes one whole message: a record, or `"done"` where another
round follows. -/
def Whole {n : ℕ} : Option (Fin n × Op) → ℕ → Prop
  | some (_, .readDest), m => m = msgSize
  | some (k, .readDone), m => k.val + 1 < n → m = doneMsg.length
  | _, _ => True

instance {n : ℕ} : ∀ (o : Option (Fin n × Op)) (m : ℕ), Decidable (Whole o m)
  | some (_, .readDest), m => inferInstanceAs (Decidable (m = msgSize))
  | some (k, .readDone), m => inferInstanceAs (Decidable (k.val + 1 < n → m = doneMsg.length))
  | some (_, .writeDest), _ | some (_, .writeDone), _ | some (_, .connect), _ | none, _ =>
    isTrue trivial

def WholeReads (c : Config) (s : State c.peerNum) : Action → Prop
  | .run _ => True
  | .read X m => Whole (s.side X).current m

instance (c : Config) (s : State c.peerNum) : ∀ a, Decidable (WholeReads c s a)
  | .run _ => isTrue trivial
  | .read X m => inferInstanceAs (Decidable (Whole (s.side X).current m))

section Program

variable {n : ℕ} {X : Role} {s : Side n} {k : Fin n} {op : Op}

/-- A side whose position is a position of its program. -/
structure OnTrack (X : Role) (s : Side n) : Prop where
  unfailed : s.failure = none
  rounds : s.rounds <:+ List.finRange n
  ops : s.ops <:+ exchDest X
  ops_ne : s.ops ≠ []

theorem exchDest_ne_nil (X : Role) : exchDest X ≠ [] := by cases X <;> decide

theorem OnTrack.start (X : Role) (remDest : Fin n → Option PingpongDest) (qp : Fin n → Qp) :
    OnTrack X ⟨List.finRange n, exchDest X, none, remDest, qp⟩ :=
  ⟨rfl, List.suffix_refl _, List.suffix_refl _, exchDest_ne_nil X⟩

/-- Initially the whole program is still to be done. -/
theorem todo_start (X : Role) (remDest : Fin n → Option PingpongDest) (qp : Fin n → Qp) :
    Side.todo X ⟨List.finRange n, exchDest X, none, remDest, qp⟩ =
      (List.finRange n).flatMap (fun k => (exchDest X).map (fun op => (k, op))) := by
  unfold Side.todo
  cases List.finRange n <;> rfl

theorem current_eq (h : s.current = some (k, op)) :
    s.failure = none ∧ ∃ ks ops, s.rounds = k :: ks ∧ s.ops = op :: ops := by
  unfold Side.current at h
  split at h
  · rename_i hf hr ho
    obtain ⟨rfl, rfl⟩ := Prod.mk.inj (Option.some.inj h)
    exact ⟨hf, _, _, hr, ho⟩
  · cases h

/-- A side on track that is not finished is at some operation. -/
theorem OnTrack.exists_current (h : OnTrack X s) (hn : ¬ s.Finished) :
    ∃ k op, s.current = some (k, op) := by
  obtain ⟨op, ops, hops⟩ := List.exists_cons_of_ne_nil h.ops_ne
  cases hr : s.rounds with
  | nil => exact absurd ⟨h.unfailed, hr⟩ hn
  | cons k ks => exact ⟨k, op, by simp [Side.current, h.unfailed, hr, hops]⟩

theorem todo_next (h : s.current = some (k, op)) :
    s.todo X = (k, op) :: (s.next X).todo X := by
  obtain ⟨_, ks, ops, hr, ho⟩ := current_eq h
  cases ops with
  | nil =>
    cases ks <;> simp [Side.todo, Side.next, hr, ho]
  | cons op' ops => simp [Side.todo, Side.next, hr, ho]

theorem next_remDest : (s.next X).remDest = s.remDest := by
  unfold Side.next
  split <;> rfl

theorem OnTrack.next (h : OnTrack X s) (hc : s.current = some (k, op)) :
    OnTrack X (s.next X) := by
  obtain ⟨_, ks, ops, hr, ho⟩ := current_eq hc
  cases ops with
  | nil =>
    have hsuf : ks <:+ List.finRange n :=
      (List.suffix_cons k ks).trans (hr ▸ h.rounds)
    have hnext : s.next X = { s with rounds := ks, ops := exchDest X } := by
      simp [Side.next, ho, hr]
    rw [hnext]
    exact ⟨h.unfailed, hsuf, List.suffix_refl _, exchDest_ne_nil X⟩
  | cons op' ops =>
    have hsuf : op' :: ops <:+ exchDest X :=
      (List.suffix_cons op (op' :: ops)).trans (ho ▸ h.ops)
    have hnext : s.next X = { s with ops := op' :: ops } := by
      simp [Side.next, ho]
    rw [hnext]
    exact ⟨h.unfailed, h.rounds, hsuf, List.cons_ne_nil _ _⟩

/-- The current round is the last one exactly when no round follows it. -/
theorem OnTrack.last_iff (h : OnTrack X s) {ks : List (Fin n)} (hr : s.rounds = k :: ks) :
    ks = [] ↔ k.val + 1 = n := by
  obtain ⟨t, ht⟩ := hr ▸ h.rounds
  have hlen := congrArg List.length ht
  have hk : (List.finRange n)[t.length]? = some k := by
    rw [← ht]
    simp
  obtain ⟨_, hk⟩ := List.getElem?_eq_some_iff.mp hk
  rw [List.getElem_finRange] at hk
  rw [List.length_append, List.length_cons, List.length_finRange] at hlen
  rw [← List.length_eq_zero_iff, ← hk]
  simp only [Fin.val_cast]
  omega

/-- A record is read once, before its queue pair is connected. -/
theorem OnTrack.read_of_connect (h : OnTrack X s) (hc : s.current = some (k, .connect)) :
    (k, .readDest) ∉ s.todo X := by
  obtain ⟨_, ks, ops, hr, ho⟩ := current_eq hc
  have hops : ∀ Y, ∀ os ∈ (exchDest Y).tails, os.head? = some .connect → .readDest ∉ os := by
    intro Y
    cases Y <;> decide
  have hread := hops X _ ((List.mem_tails _ _).mpr h.ops) (by rw [ho]; rfl)
  have hnodup : (k :: ks).Nodup :=
    (List.nodup_finRange n).sublist (hr ▸ h.rounds).sublist
  simp only [Side.todo, hr, List.mem_append, List.mem_map, List.mem_flatMap, not_or]
  constructor
  · rintro ⟨op, hop, he⟩
    exact hread ((Prod.mk.inj he).2 ▸ hop)
  · rintro ⟨k', hk', op, _, he⟩
    exact (List.nodup_cons.mp hnodup).1 ((Prod.mk.inj he).1 ▸ hk')

/-- The last read ends its round, and in the last round the exchange. -/
theorem OnTrack.todo_nil_of_last (h : OnTrack X s) (hc : s.current = some (k, .readDone))
    (hk : ¬ k.val + 1 < n) : (s.next X).todo X = [] := by
  obtain ⟨_, ks, ops, hr, ho⟩ := current_eq hc
  have hops : ∀ Y, ∀ os ∈ (exchDest Y).tails, os.head? = some .readDone → os = [.readDone] := by
    intro Y
    cases Y <;> decide
  have hlast := hops X _ ((List.mem_tails _ _).mpr h.ops) (by rw [ho]; rfl)
  have hks : ks = [] := (h.last_iff hr).mpr (by omega)
  have hnext : s.next X = { s with rounds := [], ops := exchDest X } := by
    simp [Side.next, hlast, hr, hks]
  rw [hnext]
  rfl

/-- Where the client waits for a record, it still has to confirm that record. -/
theorem OnTrack.client_waits (h : OnTrack .client s) (hc : s.current = some (k, op))
    (hop : op = .readDest ∨ op = .readDone) :
    ∃ rest, s.todo .client = (k, .readDest) :: (k, .writeDone) :: rest := by
  obtain ⟨_, ks, ops, hr, ho⟩ := current_eq hc
  have hops : ∀ os ∈ (exchDest .client).tails,
      (os.head? = some .readDest ∨ os.head? = some .readDone) →
        os = [.readDest, .writeDone, .connect] := by
    decide
  have hall := hops _ ((List.mem_tails _ _).mpr h.ops)
    (by rw [ho]; exact hop.imp (congrArg some) (congrArg some))
  exact ⟨_, by rw [Side.todo, hr, hall]; rfl⟩

/-- Where the server waits, it waits for a record, or for the end of a round whose
record it has already sent. -/
theorem OnTrack.server_waits (h : OnTrack .server s) (hc : s.current = some (k, op))
    (hop : op = .readDest ∨ op = .readDone) :
    (∃ rest, s.todo .server = (k, .readDest) :: rest) ∨
      ∃ rest, s.todo .server = (k, .readDone) :: rest ∧ (k, .writeDest) ∉ rest := by
  obtain ⟨_, ks, ops, hr, ho⟩ := current_eq hc
  have hops : ∀ os ∈ (exchDest .server).tails, os.head? = some .readDone → os = [.readDone] := by
    decide
  rcases hop with rfl | rfl
  · exact .inl ⟨_, by rw [Side.todo, hr, ho]; rfl⟩
  · have hall := hops _ ((List.mem_tails _ _).mpr h.ops) (by rw [ho]; rfl)
    have hnodup : (k :: ks).Nodup :=
      (List.nodup_finRange n).sublist (hr ▸ h.rounds).sublist
    refine .inr ⟨ks.flatMap (fun k => (exchDest .server).map (fun op => (k, op))),
      by rw [Side.todo, hr, hall]; rfl, ?_⟩
    intro hmem
    simp only [List.mem_flatMap, List.mem_map] at hmem
    obtain ⟨k', hk', op', _, he⟩ := hmem
    exact (List.nodup_cons.mp hnodup).1 ((Prod.mk.inj he).1 ▸ hk')

theorem mem_of_sends {todo : List (Fin n × Op)} (h : .dest k ∈ todo.filterMap sendOf) :
    (k, .writeDest) ∈ todo := by
  obtain ⟨⟨k', op⟩, hmem, he⟩ := List.mem_filterMap.mp h
  cases op <;> simp only [sendOf, Option.some.injEq, reduceCtorEq, Message.dest.injEq] at he
  exact he ▸ hmem

end Program

section Sync

variable {c : Config} {s t : State c.peerNum} {X : Role} {k : Fin c.peerNum} {op : Op}

/-- Both sides are on track, every byte in flight belongs to the message that its
reader expects, and a record that is not still to be read is the peer's own. -/
structure Synced (c : Config) (s : State c.peerNum) : Prop where
  onTrack : ∀ X, OnTrack X (s.side X)
  aligned : ∀ X, ((s.side X.peer).todo X.peer).filterMap recvOf = [] ∨
    Aligned (bytesOfMessage c X) (s.wire X) (((s.side X.peer).todo X.peer).filterMap recvOf)
      (((s.side X).todo X).filterMap sendOf)
  known : ∀ X k, (k, .readDest) ∈ (s.side X).todo X ∨
    (s.side X).remDest k = some (c.myDest X.peer k).toPingpongDest

theorem synced_init : Synced c (system c).init := by
  refine ⟨?_, ?_, ?_⟩
  · intro X
    exact OnTrack.start X _ _
  · -- what one side is to write is what the other is to read, round by round
    intro X
    right
    have hround : ∀ k : Fin c.peerNum,
        ((exchDest X.peer).map (fun op => (k, op))).filterMap recvOf =
          ((exchDest X).map (fun op => (k, op))).filterMap sendOf := by
      intro k
      cases X <;> rfl
    simp only [system, todo_start, List.filterMap_flatMap, hround]
    exact Aligned.start _ _
  · intro X k
    left
    have hread : .readDest ∈ exchDest X := by cases X <;> decide
    simp only [system, todo_start, List.mem_flatMap, List.mem_map]
    exact ⟨k, List.mem_finRange k, .readDest, hread, rfl⟩

/-- A change of side `X` and of the streams keeps the sides in step if the side
stays on track and both streams stay aligned with what it still does. -/
theorem Synced.update (h : Synced c s) {a : Side c.peerNum} {wire : Role → List Byte}
    (htrack : OnTrack X a)
    (hsend : ((s.side X.peer).todo X.peer).filterMap recvOf = [] ∨
      Aligned (bytesOfMessage c X) (wire X) (((s.side X.peer).todo X.peer).filterMap recvOf)
        ((a.todo X).filterMap sendOf))
    (hrecv : (a.todo X).filterMap recvOf = [] ∨
      Aligned (bytesOfMessage c X.peer) (wire X.peer) ((a.todo X).filterMap recvOf)
        (((s.side X.peer).todo X.peer).filterMap sendOf))
    (hknown : ∀ k, (k, .readDest) ∈ a.todo X ∨
      a.remDest k = some (c.myDest X.peer k).toPingpongDest) :
    Synced c ⟨Function.update s.side X a, wire⟩ := by
  have hpeer : (Function.update s.side X a) X.peer = s.side X.peer :=
    Function.update_of_ne (Role.peer_ne X) _ _
  refine ⟨?_, ?_, ?_⟩ <;> intro Y <;> by_cases hY : Y = X
  · subst Y
    simpa only [Function.update_self] using htrack
  · obtain rfl := Role.eq_peer_of_ne hY
    simpa only [hpeer] using h.onTrack X.peer
  · subst Y
    simpa only [Function.update_self, hpeer] using hsend
  · obtain rfl := Role.eq_peer_of_ne hY
    simpa only [Role.peer_peer, Function.update_self, hpeer] using hrecv
  · subst Y
    simpa only [Function.update_self] using hknown
  · obtain rfl := Role.eq_peer_of_ne hY
    simpa only [hpeer] using h.known X.peer

theorem Synced.write (h : Synced c s) (hc : (s.side X).current = some (k, op))
    {m : Message c.peerNum} (hm : sendOf (k, op) = some m) (hr : recvOf (k, op) = none) :
    Synced c ((s.write X (bytesOfMessage c X m)).setSide X ((s.side X).next X)) := by
  have htodo := todo_next (X := X) hc
  refine h.update ((h.onTrack X).next hc) ?_ ?_ ?_
  · have ha := h.aligned X
    rw [htodo, List.filterMap_cons_some hm] at ha
    rcases ha with ha | ha
    · exact .inl ha
    · right
      simpa [State.write] using ha.write
  · have ha := h.aligned X.peer
    rw [Role.peer_peer, htodo, List.filterMap_cons_none hr] at ha
    simpa [State.write] using ha
  · intro k'
    have hk := h.known X k'
    rw [htodo, List.mem_cons] at hk
    rcases hk with (hk | hk) | hk
    · obtain ⟨rfl, rfl⟩ := Prod.mk.inj hk
      cases hm
    · exact .inl hk
    · exact .inr (by rw [next_remDest]; exact hk)

/-- A step that neither reads nor writes. -/
theorem Synced.connect (h : Synced c s) {a : Side c.peerNum}
    (hc : a.current = some (k, .connect)) (hsame : a.todo X = (s.side X).todo X)
    (htrack : OnTrack X a) (hrem : a.remDest = (s.side X).remDest) :
    Synced c (s.setSide X (a.next X)) := by
  have htodo := todo_next (X := X) hc
  have hsend := h.aligned X
  have hrecv := h.aligned X.peer
  rw [← hsame, htodo, List.filterMap_cons_none rfl] at hsend
  rw [Role.peer_peer, ← hsame, htodo, List.filterMap_cons_none rfl] at hrecv
  refine h.update (htrack.next hc) hsend hrecv ?_
  intro k'
  have hk := h.known X k'
  rw [← hsame, htodo, List.mem_cons, ← hrem] at hk
  rcases hk with (hk | hk) | hk
  · cases (Prod.mk.inj hk).2
  · exact .inl hk
  · exact .inr (by rw [next_remDest]; exact hk)

/-- The bytes of the message that is due are there whole once any are there. -/
theorem Synced.due (h : Synced c s) (hc : (s.side X).current = some (k, op))
    {m : Message c.peerNum} (hm : recvOf (k, op) = some m) :
    Aligned (bytesOfMessage c X.peer) (s.wire X.peer)
      (m :: (((s.side X).next X).todo X).filterMap recvOf)
      (((s.side X.peer).todo X.peer).filterMap sendOf) := by
  have ha := h.aligned X.peer
  rw [Role.peer_peer, todo_next hc, List.filterMap_cons_some hm] at ha
  exact ha.resolve_left (List.cons_ne_nil _ _)

/-- Reading the whole of a message, or anything when no message is due after it. -/
theorem Synced.read (h : Synced c s) {a : Side c.peerNum} (hc : a.current = some (k, op))
    (hsame : a.todo X = (s.side X).todo X) (htrack : OnTrack X a)
    {m : Message c.peerNum} (hm : recvOf (k, op) = some m) (hs : sendOf (k, op) = none) {n : ℕ}
    (hn : ((a.next X).todo X).filterMap recvOf = [] ∨
      (s.wire X.peer ≠ [] ∧ n = (bytesOfMessage c X.peer m).length))
    (hknown : ∀ k, (k, .readDest) ∈ (a.next X).todo X ∨
      a.remDest k = some (c.myDest X.peer k).toPingpongDest) :
    Synced c ((s.consume X.peer n).setSide X (a.next X)) := by
  have htodo := todo_next (X := X) hc
  refine h.update (htrack.next hc) ?_ ?_ (by simpa only [next_remDest] using hknown)
  · have ha := h.aligned X
    rw [← hsame, htodo, List.filterMap_cons_none hs] at ha
    simpa [State.consume] using ha
  · rcases hn with hn | ⟨hw, rfl⟩
    · exact .inl hn
    · right
      have ha := h.aligned X.peer
      rw [Role.peer_peer, ← hsame, htodo, List.filterMap_cons_some hm] at ha
      have hread := ((ha.resolve_left (List.cons_ne_nil _ _)).read hw).2
      simpa [State.consume] using hread

theorem bytesOfMessage_ne_nil (c : Config) (X : Role) (m : Message c.peerNum) :
    bytesOfMessage c X m ≠ [] := by
  cases m with
  | dest k =>
    intro he
    have hlen := encode_length (c.endian X) (c.myDest X k)
    rw [show encode (c.endian X) (c.myDest X k).toPingpongDest = [] from he] at hlen
    cases hlen
  | done k => exact List.cons_ne_nil _ _

theorem wire_ne_nil {m : ℕ} (h : s.Readable X m) (hm : 0 < m) : s.wire X.peer ≠ [] := by
  intro he
  rcases h with ⟨_, _, hle⟩ | ⟨h0, _⟩
  · rw [he, List.length_nil] at hle
    omega
  · omega

/-- A whole record that is read is the peer's record. -/
theorem Synced.decoded (h : Synced c s) (hc : (s.side X).current = some (k, .readDest))
    (hr : s.Readable X msgSize) :
    decode (c.endian X) (c.old X k) ((s.wire X.peer).take msgSize) =
      (c.myDest X.peer k).toPingpongDest := by
  have hread := ((h.due hc (m := .dest k) rfl).read (wire_ne_nil hr (by decide))).1
  have hlen := encode_length (c.endian X.peer) (c.myDest X.peer k)
  rw [bytesOfMessage, hlen] at hread
  rw [hread, decode_encode]

/-- The read of a record stores the peer's record. -/
theorem Synced.readDest (h : Synced c s) (hc : (s.side X).current = some (k, .readDest))
    (hr : s.Readable X msgSize) :
    Synced c ((s.consume X.peer msgSize).setSide X ({ s.side X with
      remDest := Function.update (s.side X).remDest k
        (some (c.myDest X.peer k).toPingpongDest) }.next X)) := by
  have ht := h.onTrack X
  have hlen := encode_length (c.endian X.peer) (c.myDest X.peer k)
  obtain ⟨a, ha⟩ : ∃ a, a = { s.side X with
      remDest := Function.update (s.side X).remDest k
        (some (c.myDest X.peer k).toPingpongDest) } := ⟨_, rfl⟩
  have hc' : a.current = some (k, .readDest) := by rw [ha]; exact hc
  have hsame : a.todo X = (s.side X).todo X := by rw [ha]; rfl
  have htrack : OnTrack X a := by
    rw [ha]
    exact ⟨ht.unfailed, ht.rounds, ht.ops, ht.ops_ne⟩
  rw [← ha]
  refine h.read hc' hsame htrack (m := .dest k) rfl rfl
    (.inr ⟨wire_ne_nil hr (by decide), hlen.symm⟩) ?_
  intro k'
  by_cases hk : k' = k
  · subst k'
    exact .inr (by rw [ha]; exact Function.update_self _ _ _)
  · have hknown := h.known X k'
    rw [← hsame, todo_next hc', List.mem_cons] at hknown
    rcases hknown with (he | hmem) | hrem
    · exact absurd (Prod.mk.inj he).1 hk
    · exact .inl hmem
    · exact .inr (by rw [ha]; exact (Function.update_of_ne hk _ _).trans hrem)

theorem Synced.next (h : Synced c s) {a : Action} (ha : WholeReads c s a)
    (hst : step c s a = some t) : Synced c t := by
  cases a with
  | run X =>
    simp only [step] at hst
    split at hst
    · rename_i k hc
      rw [← Option.some.inj hst]
      exact h.write hc (m := .dest k) rfl rfl
    · rename_i k hc
      rw [← Option.some.inj hst]
      exact h.write hc (m := .done k) rfl rfl
    · rename_i k hc
      split at hst
      · rw [← Option.some.inj hst]
        have ht := h.onTrack X
        exact h.connect hc rfl ⟨ht.unfailed, ht.rounds, ht.ops, ht.ops_ne⟩ rfl
      · cases hst
    · cases hst
  | read X n =>
    have ht := h.onTrack X
    simp only [step] at hst
    split at hst
    · rename_i k hc
      have hn : n = msgSize := by simpa only [WholeReads, hc, Whole] using ha
      subst n
      rw [if_pos rfl] at hst
      split_ifs at hst with hr
      rw [h.decoded hc hr] at hst
      rw [← Option.some.inj hst]
      exact h.readDest hc hr
    · rename_i k hc
      split_ifs at hst with hr
      rw [← Option.some.inj hst]
      refine h.read hc rfl ht (m := .done k) rfl rfl ?_ ?_
      · by_cases hk : k.val + 1 < c.peerNum
        · have hn : n = doneMsg.length := by
            have hw := ha
            simp only [WholeReads, hc, Whole] at hw
            exact hw hk
          subst n
          exact .inr ⟨wire_ne_nil hr (by decide), rfl⟩
        · exact .inl (by rw [ht.todo_nil_of_last hc hk]; rfl)
      · intro k'
        have hknown := h.known X k'
        rw [todo_next hc, List.mem_cons] at hknown
        rcases hknown with (hk | hk) | hk
        · cases (Prod.mk.inj hk).2
        · exact .inl hk
        · exact .inr hk
    · cases hst

theorem Synced.run_enabled (h : Synced c s) (hc : (s.side X).current = some (k, op))
    (hop : op ≠ .readDest ∧ op ≠ .readDone) : (system c).Enabled s (.run X) := by
  apply Machine.enabled_of_isSome
  cases op with
  | writeDest => simp [system, step, hc]
  | writeDone => simp [system, step, hc]
  | connect =>
    have hrem := (h.known X k).resolve_left ((h.onTrack X).read_of_connect hc)
    simp [system, step, hc, hrem]
  | readDest => exact absurd rfl hop.1
  | readDone => exact absurd rfl hop.2

/-- A side that waits on a non-empty stream finds its whole message there. -/
theorem Synced.read_enabled (h : Synced c s) (hc : (s.side X).current = some (k, op))
    (hop : op = .readDest ∨ op = .readDone) (hw : s.wire X.peer ≠ []) :
    ∃ n, WholeReads c s (.read X n) ∧ (system c).Enabled s (.read X n) := by
  have hlen : ∀ m, recvOf (k, op) = some m →
      (bytesOfMessage c X.peer m).length ≤ (s.wire X.peer).length := by
    intro m hm
    obtain ⟨rest, hwire, _⟩ := (h.due hc hm).head hw
    rw [hwire, List.length_append]
    exact Nat.le_add_right _ _
  rcases hop with rfl | rfl
  · have hle := hlen (.dest k) rfl
    rw [bytesOfMessage, encode_length] at hle
    have hr : s.Readable X msgSize := .inl ⟨by decide, le_rfl, hle⟩
    refine ⟨msgSize, by simp only [WholeReads, hc, Whole], Machine.enabled_of_isSome ?_⟩
    simp [system, step, hc, hr]
  · have hle := hlen (.done k) rfl
    have hr : s.Readable X doneMsg.length := .inl ⟨by decide, by decide, hle⟩
    refine ⟨doneMsg.length, ?_, Machine.enabled_of_isSome ?_⟩
    · simp [WholeReads, hc, Whole]
    · simp [system, step, hc, hr]

/-- On an empty stream a reader waits for exactly what its peer still writes. -/
theorem Synced.waits (h : Synced c s) {rest : List (Fin c.peerNum × Op)}
    {m : Message c.peerNum} (htodo : (s.side X).todo X = (k, op) :: rest)
    (hm : recvOf (k, op) = some m) (hw : s.wire X.peer = []) :
    m :: rest.filterMap recvOf = ((s.side X.peer).todo X.peer).filterMap sendOf := by
  have ha := h.aligned X.peer
  rw [Role.peer_peer, htodo, List.filterMap_cons_some hm, hw] at ha
  exact (ha.resolve_left (List.cons_ne_nil _ _)).eq_of_empty (bytesOfMessage_ne_nil c X.peer)

/-- The two sides never wait for each other. -/
theorem Synced.not_both_wait (h : Synced c s) {k' : Fin c.peerNum} {op' : Op}
    (hc : (s.side .client).current = some (k, op)) (hop : op = .readDest ∨ op = .readDone)
    (hs : (s.side .server).current = some (k', op')) (hop' : op' = .readDest ∨ op' = .readDone)
    (hw : ∀ X, s.wire X = []) : False := by
  obtain ⟨rc, hrc⟩ := (h.onTrack .client).client_waits hc hop
  have hclient := h.waits hrc (m := .dest k) rfl (hw _)
  rcases (h.onTrack .server).server_waits hs hop' with ⟨rs, hrs⟩ | ⟨rs, hrs, hno⟩
  · -- the server waits for a record and the client for its turn to confirm one
    have hserver := h.waits hrs (m := .dest k') rfl (hw _)
    simp only [Role.peer, hrc, List.filterMap_cons, sendOf, List.cons.injEq, reduceCtorEq,
      false_and] at hserver
  · -- the server waits for the confirmation of the very record the client waits for
    have hserver := h.waits hrs (m := .done k') rfl (hw _)
    simp only [Role.peer, hrc, List.filterMap_cons, sendOf, List.cons.injEq,
      Message.done.injEq] at hserver
    obtain ⟨rfl, _⟩ := hserver
    simp only [Role.peer, hrs, List.filterMap_cons, sendOf] at hclient
    exact hno (mem_of_sends (hclient ▸ List.mem_cons_self))

theorem Synced.progress (h : Synced c s) (hn : ∃ X, ¬ (s.side X).Finished) :
    ∃ a, WholeReads c s a ∧ (system c).Enabled s a := by
  by_contra hstuck
  -- whoever is not finished waits on an empty stream
  have hwait : ∀ X, ¬ (s.side X).Finished → ∃ k op, (s.side X).current = some (k, op) ∧
      (op = .readDest ∨ op = .readDone) ∧ s.wire X.peer = [] := by
    intro X hX
    obtain ⟨k, op, hc⟩ := (h.onTrack X).exists_current hX
    have hop : op = .readDest ∨ op = .readDone := by
      by_contra hne
      exact hstuck ⟨.run X, trivial, h.run_enabled hc (not_or.mp hne)⟩
    refine ⟨k, op, hc, hop, ?_⟩
    by_contra hw
    obtain ⟨n, hwhole, hread⟩ := h.read_enabled hc hop hw
    exact hstuck ⟨.read X n, hwhole, hread⟩
  -- and what it waits for, its peer has still to write
  have hpeer : ∀ X, ¬ (s.side X).Finished → ¬ (s.side X.peer).Finished := by
    intro X hX hP
    obtain ⟨k, op, hc, hop, hw⟩ := hwait X hX
    have hnil : (s.side X.peer).todo X.peer = [] := by simp [Side.todo, hP.2]
    rcases hop with rfl | rfl
    · have hsend := h.waits (todo_next hc) (m := .dest k) rfl hw
      rw [hnil] at hsend
      exact absurd hsend (List.cons_ne_nil _ _)
    · have hsend := h.waits (todo_next hc) (m := .done k) rfl hw
      rw [hnil] at hsend
      exact absurd hsend (List.cons_ne_nil _ _)
  have hall : ∀ X, ¬ (s.side X).Finished := by
    obtain ⟨X, hX⟩ := hn
    intro Y
    by_cases hY : Y = X
    · exact hY ▸ hX
    · exact Role.eq_peer_of_ne hY ▸ hpeer X hX
  obtain ⟨k, op, hc, hop, hws⟩ := hwait .client (hall .client)
  obtain ⟨k', op', hs, hop', hwc⟩ := hwait .server (hall .server)
  exact h.not_both_wait hc hop hs hop' (fun X => by cases X; exacts [hwc, hws])

end Sync

section Results

variable {c : Config} {s : State c.peerNum}

/-- No side has failed, and once both are finished each holds the other's records. -/
structure Agrees (c : Config) (s : State c.peerNum) : Prop where
  unfailed : ∀ X, (s.side X).failure = none
  records : (∀ X, (s.side X).Finished) → ∀ X k,
    (s.side X).remDest k = some (c.myDest X.peer k).toPingpongDest

/-- In every run of whole reads the exchange works, and it can always be carried
on with whole reads until both sides are finished. -/
theorem exchange_agrees (h : (system c).ReachableBy (WholeReads c) s) :
    Agrees c s ∧ ((∃ X, ¬ (s.side X).Finished) →
      ∃ a, WholeReads c s a ∧ (system c).Enabled s a) := by
  have hsync : Synced c s := h.invariant synced_init (fun _ _ _ hi ha hst => hi.next ha hst)
  refine ⟨⟨fun X => (hsync.onTrack X).unfailed, ?_⟩, hsync.progress⟩
  intro hfin X k
  refine (hsync.known X k).resolve_left ?_
  simp [Side.todo, (hfin X).2]

/-- Two queue pairs on each side, on hosts of different byte order. -/
def twoPairs : Config where
  peerNum := 2
  myDest X k := match X with
    | .client => ⟨⟨3, if k = 0 then 17 else 18, 5, fun j => BitVec.ofNat 8 j⟩,
      by decide +revert, by decide +revert, by decide +revert⟩
    | .server => ⟨⟨4, 99, 7, fun _ => 0⟩, by decide, by decide, by decide⟩
  endian X := match X with
    | .client => .little
    | .server => .big
  old := fun _ _ => ⟨⟨0, 0, 0, fun _ => 0⟩, [], 0⟩

/-- The second round ends before the server has made its last read. -/
def wholeRun : List Action :=
  [.run .client, .read .server 52, .run .server, .run .server, .read .client 52, .run .client,
    .run .client, .run .client, .read .server 5, .read .server 52, .run .server, .run .server,
    .read .client 52, .run .client, .run .client]

def wholeState : State twoPairs.peerNum :=
  ((system twoPairs).exec (WholeReads twoPairs) (system twoPairs).init wholeRun).get
    (by decide +kernel)

theorem exchange_agrees_twoPairs :
    Agrees twoPairs wholeState ∧ ((∃ X, ¬ (wholeState.side X).Finished) →
      ∃ a, WholeReads twoPairs wholeState a ∧ (system twoPairs).Enabled wholeState a) :=
  exchange_agrees (Machine.reachableBy_of_exec _)

/-- Every read takes all that is there, up to the length it asks for. The client's
second record has arrived when the server makes its last read of the first round. -/
def coalesced : List Action :=
  [.run .client, .read .server 52, .run .server, .run .server, .read .client 52, .run .client,
    .run .client, .run .client, .read .server 52, .read .server 5]

theorem coalesced_fails : ¬ ∀ s, (system twoPairs).Reachable s → Agrees twoPairs s := by
  intro h
  have hrun : ((system twoPairs).exec (fun _ _ => True) (system twoPairs).init coalesced).map
      (fun s => (s.side .server).failure) = some (some ⟨5, msgSize⟩) := by
    decide +kernel
  obtain ⟨s, hs, hfail⟩ := Option.map_eq_some_iff.mp hrun
  have hno := (h s ⟨coalesced, Machine.run_of_exec hs⟩).unfailed .server
  rw [hfail] at hno
  cases hno

end Results

end InfinibandWorkshop.Exchange
