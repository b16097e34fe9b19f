import InfinibandWorkshop.ReceiveLoop
import InfinibandWorkshop.TcpEcho
import InfinibandWorkshop.Turns

/-!
# The rounds of the TCP clients

A connection whose client writes its messages, each before it reads the echo, comes to its
end when a message fits into the two streams and one byte at the server, and hangs
otherwise. A round plays several connections: MultiStreamTcpClient.cpp one after the other,
MultiThreadTcpClient.cpp in threads of their own.
-/
namespace InfinibandWorkshop.TcpEcho
open CText (Byte)
open scoped BigOperators

section Connection

variable {c : Config} {s t : State} {act : Action}

/-- The messages that the client has begun to send. -/
def State.starts (s : State) : ℕ := s.iterations + if s.client = .top then 0 else 1

/-- What it has not copied of the last one. -/
def Client.left : Client → List Byte
  | .sending left => left
  | _ => []

/-- The client sends copies of one message, and no more than it was told. -/
structure Begun (c : Config) (s : State) : Prop where
  starts_le : s.starts ≤ c.numMsgs
  contents : s.sent ++ s.client.left = (List.replicate s.starts c.msg).flatten

theorem begun_init : Begun c (system c).init where
  starts_le := Nat.zero_le _
  contents := rfl

theorem Begun.next (h : Begun c s) (hst : step c s act = some t) : Begun c t := by
  have hle := h.starts_le
  have hcontents := h.contents
  cases act with
  | send =>
    simp only [step] at hst
    split_ifs at hst with hg
    rw [← Option.some.inj hst]
    simp only [State.starts, hg.1, if_true, Nat.add_zero, Client.left, List.append_nil] at hcontents
    refine ⟨hg.2, ?_⟩
    show s.sent ++ c.msg = (List.replicate (s.iterations + 1) c.msg).flatten
    rw [List.replicate_succ', List.flatten_append, ← hcontents, List.flatten_singleton]
  | clientWrite n =>
    simp only [step] at hst
    split at hst
    · rename_i left hleft
      simp only [State.starts, hleft, Client.left, reduceCtorEq, if_false] at hle hcontents
      split_ifs at hst with hg hlast
      · rw [← Option.some.inj hst]
        refine ⟨hle, ?_⟩
        have htake : left.take n = left := by
          conv_rhs => rw [← List.take_append_drop n left, hlast, List.append_nil]
        show s.sent ++ left.take n ++ [] = (List.replicate (s.iterations + 1) c.msg).flatten
        rw [htake, List.append_nil, hcontents]
      · rw [← Option.some.inj hst]
        refine ⟨hle, ?_⟩
        show s.sent ++ left.take n ++ left.drop n =
          (List.replicate (s.iterations + 1) c.msg).flatten
        rw [List.append_assoc, List.take_append_drop, hcontents]
    · cases hst
  | clientRead n =>
    simp only [step] at hst
    split_ifs at hst with hg hagain
    all_goals
      rw [← Option.some.inj hst]
      simp only [State.starts, hg.1, Client.left, reduceCtorEq, if_false] at hle hcontents
      exact ⟨hle, hcontents⟩
  | serverRead n =>
    simp only [step] at hst
    split_ifs at hst
    rw [← Option.some.inj hst]
    exact ⟨hle, hcontents⟩
  | serverWrite n =>
    simp only [step] at hst
    split_ifs at hst
    rw [← Option.some.inj hst]
    exact ⟨hle, hcontents⟩

theorem begun_of_reachable (h : (system c).Reachable s) : Begun c s :=
  h.invariant begun_init (fun _ _ _ hi _ hst => hi.next hst)

/-- The sends begun, and for every byte how far it has got. -/
def rank (s : State) : ℕ :=
  s.starts + s.sent.length + (s.received.length + s.toClient.length + s.held.length) +
    (s.received.length + s.toClient.length) + s.received.length

theorem rank_lt (hst : step c s act = some t) : rank s < rank t := by
  cases act with
  | send =>
    simp only [step] at hst
    split_ifs at hst with hg
    rw [← Option.some.inj hst]
    simp only [rank, State.starts, hg.1, reduceCtorEq, if_true, if_false]
    omega
  | clientWrite n =>
    simp only [step] at hst
    split at hst
    · rename_i left hleft
      have htake : (left.take n).length = min n left.length := List.length_take
      split_ifs at hst with hg hlast
      all_goals
        rw [← Option.some.inj hst]
        simp only [rank, State.starts, hleft, reduceCtorEq, if_false, List.length_append]
        omega
    · cases hst
  | clientRead n =>
    simp only [step] at hst
    split_ifs at hst with hg hagain
    all_goals
      rw [← Option.some.inj hst]
      simp only [rank, State.starts, hg.1, reduceCtorEq, if_true, if_false, List.length_append,
        List.length_take, List.length_drop]
      omega
  | serverRead n =>
    simp only [step] at hst
    split_ifs at hst with hg
    rw [← Option.some.inj hst]
    simp only [rank, State.starts, hg.1, List.length_nil, List.length_take]
    omega
  | serverWrite n =>
    simp only [step] at hst
    split_ifs at hst with hg
    rw [← Option.some.inj hst]
    simp only [rank, State.starts, List.length_append, List.length_take, List.length_drop]
    omega

/-- The client has got all its messages back, and nothing is underway. -/
structure Finished (c : Config) (s : State) : Prop where
  top : s.client = .top
  iterations : s.iterations = c.numMsgs
  received : s.received = (List.replicate c.numMsgs c.msg).flatten
  sent : s.sent = s.received
  toServer : s.toServer = []
  held : s.held = []
  toClient : s.toClient = []

theorem Begun.sent_le (h : Begun c s) : s.sent.length ≤ c.numMsgs * c.msg.length := by
  have hlen := congrArg List.length h.contents
  rw [List.length_append, List.length_flatten, List.map_replicate, List.sum_replicate,
    smul_eq_mul] at hlen
  have hmul := Nat.mul_le_mul_right c.msg.length h.starts_le
  omega

theorem rank_le (h : (system c).Reachable s) : rank s ≤ c.numMsgs * (4 * c.msg.length + 1) := by
  have hbegun := begun_of_reachable h
  have hlen := (conserved_of_reachable h).length
  have hstarts := hbegun.starts_le
  have hsent := hbegun.sent_le
  have hmul : c.numMsgs * (4 * c.msg.length + 1) =
      4 * (c.numMsgs * c.msg.length) + c.numMsgs := by ring
  rw [hmul, rank]
  omega

theorem finished_of_top (h : (system c).Reachable s) (htop : s.client = .top)
    (hall : s.iterations = c.numMsgs) : Finished c s := by
  have hcons := conserved_of_reachable h
  have hcontents := (begun_of_reachable h).contents
  have hacc := hcons.accounts
  have hlen := hcons.length
  rw [htop] at hacc
  obtain ⟨hsent, hrecv, _⟩ := hacc
  have hserver : s.toServer = [] := List.length_eq_zero_iff.mp (by omega)
  have hheld : s.held = [] := List.length_eq_zero_iff.mp (by omega)
  have hclient : s.toClient = [] := List.length_eq_zero_iff.mp (by omega)
  have hbytes := hcons.bytes
  simp only [hserver, hheld, hclient, List.append_nil] at hbytes
  refine ⟨htop, hall, ?_, hbytes, hserver, hheld, hclient⟩
  simpa [State.starts, htop, Client.left, hall, hbytes] using hcontents

variable {a b : ℕ}

theorem not_stuck (ha : c.toServer = some a) (hb : c.toClient = some b) (ha0 : 0 < a)
    (hb0 : 0 < b) (hfits : c.msg.length ≤ a + b + 1 ∨ c.numMsgs = 0) (h : (system c).Reachable s)
    (hnot : ¬ Finished c s) : ¬ (system c).Stuck (fun _ _ => True) s := by
  intro hstuck
  have hdisabled : ∀ act, ¬ (system c).Enabled s act := by
    rintro act ⟨t, ht⟩
    exact hstuck act t trivial ht
  have hstarts := (begun_of_reachable h).starts_le
  by_cases htop : s.client = .top
  · rw [State.starts, if_pos htop, Nat.add_zero] at hstarts
    have hlt : s.iterations < c.numMsgs :=
      hstarts.lt_of_ne (fun he => hnot (finished_of_top h htop he))
    apply hdisabled .send
    refine ⟨{ s with client := .sending c.msg, bytesRead := 0 }, ?_⟩
    simp only [system, step]
    rw [if_pos ⟨htop, hlt⟩]
  · rw [State.starts, if_neg htop] at hstarts
    have hge := (conserved_of_reachable h).length_of_hangs ha hb ha0 hb0 ⟨htop, hdisabled⟩
    omega

/-- Whatever the sizes of its reads and writes. -/
theorem completes_of_fits (ha : c.toServer = some a) (hb : c.toClient = some b) (ha0 : 0 < a)
    (hb0 : 0 < b) (hfits : c.msg.length ≤ a + b + 1 ∨ c.numMsgs = 0) :
    (system c).Completes (fun _ _ => True) (c.numMsgs * (4 * c.msg.length + 1)) (Finished c) :=
  Machine.completes (fun _ _ _ _ _ hst => rank_lt hst) (fun _ h => rank_le h)
    (fun _ h hnot => not_stuck ha hb ha0 hb0 hfits h hnot)

/-- A connection is played to its end exactly when it cannot hang. -/
theorem connection_ends_iff (ha : c.toServer = some a) (hb : c.toClient = some b) (ha0 : 0 < a)
    (hb0 : 0 < b) : (system c).Completes (fun _ _ => True)
      (c.numMsgs * (4 * c.msg.length + 1)) (Finished c) ↔
      c.msg.length ≤ a + b + 1 ∨ c.numMsgs = 0 := by
  constructor
  · intro h
    by_contra hno
    obtain ⟨hlen, hmsgs⟩ := not_or.mp hno
    obtain ⟨s, hs, hhang⟩ := hangs_of_lt ha hb ha0 (Nat.pos_of_ne_zero hmsgs) (not_le.mp hlen)
    have hfinished := h.goal hs (fun act t _ ht => hhang.2 act ⟨t, ht⟩)
    exact hhang.1 hfinished.top
  · exact completes_of_fits ha hb ha0 hb0

theorem connection_ends_iff_defaultStreams :
    (system (defaultStreams 131072 (by decide))).Completes (fun _ _ => True)
      ((defaultStreams 131072 (by decide)).numMsgs *
        (4 * (defaultStreams 131072 (by decide)).msg.length + 1))
      (Finished (defaultStreams 131072 (by decide))) ↔
      (defaultStreams 131072 (by decide)).msg.length ≤ 212992 + 212992 + 1 ∨
        (defaultStreams 131072 (by decide)).numMsgs = 0 :=
  connection_ends_iff rfl rfl (by decide) (by decide)

end Connection

section Rounds

open MessageSplit (prepare_size holds_prepare Holds)
open Throughput (Round Benchmark msgSizes msgSizes_pos maxPacketSize)
open EchoBuffer (slice slice_length)

/-- What the client sends over socket `i` in each iteration. -/
def sentBytes (client : MessageSplit.Client) (mem : ℕ → ℕ → Byte) (msgSize socketNum i : ℕ) :
    List Byte :=
  let msg := client.split mem msgSize socketNum i
  slice msg.1.block.mem 0 msg.2

def benchmark : MessageSplit.Client → Benchmark
  | .multiStreamTcpClient => .multiStreamTcpClient
  | .multiThreadTcpClient => .multiThreadTcpClient

variable {client : MessageSplit.Client} {mem : ℕ → ℕ → Byte} {r : Round} {a b : ℕ}

theorem split_size (client : MessageSplit.Client) (mem : ℕ → ℕ → Byte) (msgSize n i : ℕ) :
    (client.split mem msgSize n i).2 = msgSizes msgSize n i := by
  cases client <;> exact prepare_size _ _ mem i

theorem sentBytes_length (client : MessageSplit.Client) (mem : ℕ → ℕ → Byte) (msgSize n i : ℕ) :
    (sentBytes client mem msgSize n i).length = msgSizes msgSize n i := by
  rw [sentBytes, slice_length, split_size]

/-- With a byte for each socket the shares are made of the message character. -/
theorem mem_sentBytes {msgSize n i : ℕ} (hle : n ≤ msgSize) {x : Byte}
    (hx : x ∈ sentBytes client mem msgSize n i) : x = CText.ch 'w' := by
  have hholds : Holds (client.split mem msgSize n i).1 (client.split mem msgSize n i).2
      (CText.ch 'w') := by
    cases client <;> exact holds_prepare _ _ mem hle i
  obtain ⟨k, hk, rfl⟩ := List.mem_map.mp hx
  rw [Nat.zero_add]
  exact hholds.base k (List.mem_range.mp hk)

/-- Socket 0 has the largest share. -/
theorem msgSizes_le_zero {msgSize n : ℕ} (hsize : 0 < msgSize) (i : ℕ) :
    msgSizes msgSize n i ≤ msgSizes msgSize n 0 := by
  simp only [msgSizes]
  split_ifs <;> omega

/-- Socket `i` of a round, over streams of `a` and `b` bytes. -/
def socketConfig (client : MessageSplit.Client) (mem : ℕ → ℕ → Byte) (numMsgs a b : ℕ)
    {msgSize socketNum : ℕ} (hsize : 0 < msgSize) (i : Fin socketNum) : Config where
  msg := sentBytes client mem msgSize socketNum i
  numMsgs := numMsgs
  ackSize := ReceiveLoop.ackSize client
  lineSize := maxPacketSize
  toServer := some a
  toClient := some b
  msg_ne := by
    rw [← List.length_pos_iff, sentBytes_length]
    exact msgSizes_pos hsize i.pos i
  ackSize_pos := by cases client <;> exact Nat.succ_pos _
  lineSize_pos := Nat.succ_pos _

theorem msgSize_pos (r : Round) : 0 < r.msgSize := r.socketNum_pos.trans r.socketNum_le

def roundConfig (client : MessageSplit.Client) (mem : ℕ → ℕ → Byte) (r : Round) (a b : ℕ)
    (i : Fin r.socketNum) : Config :=
  socketConfig client mem r.numMsgs a b (msgSize_pos r) i

/-- Every connection has a handler of its own at the server. -/
def roundSystem (client : MessageSplit.Client) (mem : ℕ → ℕ → Byte) (r : Round) (a b : ℕ) :
    Machine (Fin r.socketNum → State) ((_ : Fin r.socketNum) × Action) :=
  Machine.family (fun i => system (roundConfig client mem r a b i))

def Action.ofClient : Action → Prop
  | .send | .clientWrite _ | .clientRead _ => True
  | .serverRead _ | .serverWrite _ => False

instance (act : Action) : Decidable act.ofClient :=
  match act with
  | .send | .clientWrite _ | .clientRead _ => isTrue trivial
  | .serverRead _ | .serverWrite _ => isFalse id

/-- The client is through with its messages. -/
def State.Through (s : State) (numMsgs : ℕ) : Prop := s.client = .top ∧ s.iterations = numMsgs

instance (s : State) (numMsgs : ℕ) : Decidable (s.Through numMsgs) :=
  inferInstanceAs (Decidable (_ ∧ _))

/-- How far a socket has to be for what another one after it is about to do.
MultiStreamTcpClient.cpp turns to a socket when it is through with those before it; the
threads of MultiThreadTcpClient.cpp do not wait for each other. -/
def Passed (client : MessageSplit.Client) (numMsgs : ℕ) (s : State) (act : Action) : Prop :=
  client = .multiStreamTcpClient → act.ofClient → s.Through numMsgs

def InTurn (client : MessageSplit.Client) (r : Round) :
    (Fin r.socketNum → State) → (_ : Fin r.socketNum) × Action → Prop :=
  Machine.waiting (fun _ _ _ => True) id (fun _ s act => Passed client r.numMsgs s act.2)

/-- All connections are finished, their bytes are those of the message character and make up
the traffic of the round, and the figure that is saved is their rate once for each. -/
structure RoundPlayed (client : MessageSplit.Client) (mem : ℕ → ℕ → Byte) (r : Round) (a b : ℕ)
    (s : Fin r.socketNum → State) (resultIndex : ℕ) (results : ℕ → ℚ) : Prop where
  finished : ∀ i, Finished (roundConfig client mem r a b i) (s i)
  echoed : ∀ i, ∀ x ∈ (s i).received, x = CText.ch 'w'
  sent : ∑ i, (s i).sent.length = ((benchmark client).traffic r).sent
  received : ∑ i, (s i).received.length = ((benchmark client).traffic r).received
  figure : ((benchmark client).row r resultIndex results).throughput =
    r.socketNum * (8 * 10 ^ (-6 : ℤ) *
      (∑ i, (s i).sent.length + ∑ i, (s i).received.length : ℕ) / (benchmark client).elapsed r)

theorem Finished.received_length {c : Config} {s : State} (h : Finished c s) :
    s.received.length = c.numMsgs * c.msg.length := by
  rw [h.received, List.length_flatten, List.map_replicate, List.sum_replicate, smul_eq_mul]

theorem msg_length (client : MessageSplit.Client) (mem : ℕ → ℕ → Byte) (r : Round) (a b : ℕ)
    (i : Fin r.socketNum) :
    (roundConfig client mem r a b i).msg.length = msgSizes r.msgSize r.socketNum i :=
  sentBytes_length client mem r.msgSize r.socketNum i

theorem sum_msg_length (client : MessageSplit.Client) (mem : ℕ → ℕ → Byte) (r : Round)
    (a b : ℕ) : ∑ i, (roundConfig client mem r a b i).msg.length = r.msgSize := by
  simp only [msg_length]
  rw [← Finset.sum_range (msgSizes r.msgSize r.socketNum),
    Throughput.sum_msgSizes r.socketNum_pos r.socketNum_le]

theorem roundPlayed_of_finished {s : Fin r.socketNum → State}
    (h : ∀ i, Finished (roundConfig client mem r a b i) (s i)) (resultIndex : ℕ)
    (results : ℕ → ℚ) : RoundPlayed client mem r a b s resultIndex results := by
  have hreceived : ∑ i, (s i).received.length = r.numMsgs * r.msgSize := by
    have heach : ∀ i, (s i).received.length =
        r.numMsgs * (roundConfig client mem r a b i).msg.length := fun i =>
      (h i).received_length
    simp only [heach]
    rw [← Finset.mul_sum, sum_msg_length]
  have hsent : ∑ i, (s i).sent.length = r.numMsgs * r.msgSize := by
    have heach : ∀ i, (s i).sent.length = (s i).received.length := fun i => by rw [(h i).sent]
    simp only [heach, hreceived]
  constructor
  case finished => exact h
  case echoed =>
    intro i x hx
    rw [(h i).received, List.mem_flatten] at hx
    obtain ⟨msg, hmsg, hx⟩ := hx
    rw [List.eq_of_mem_replicate hmsg] at hx
    exact mem_sentBytes r.socketNum_le hx
  case sent => rw [hsent, Benchmark.traffic_eq]
  case received => rw [hreceived, Benchmark.traffic_eq]
  case figure =>
    rw [Benchmark.throughput_eq, Benchmark.traffic_eq, hsent, hreceived]
    push_cast
    rfl

/-- A round of either client with a byte for each socket is played to its end exactly when the
largest share, that of socket 0, fits into the streams. -/
theorem round_of_sockets_ends_iff (client : MessageSplit.Client) (mem : ℕ → ℕ → Byte)
    (r : Round) (ha0 : 0 < a) (hb0 : 0 < b) (resultIndex : ℕ) (results : ℕ → ℚ) :
    (roundSystem client mem r a b).Completes (InTurn client r)
      (r.numMsgs * (4 * r.msgSize + r.socketNum))
      (fun s => RoundPlayed client mem r a b s resultIndex results) ↔
      msgSizes r.msgSize r.socketNum 0 ≤ a + b + 1 := by
  have hpassed : ∀ (j : Fin r.socketNum) (s : State) (act : (_ : Fin r.socketNum) × Action),
      Finished (roundConfig client mem r a b j) s → Passed client r.numMsgs s act.2 :=
    fun _ _ _ h _ _ => ⟨h.top, h.iterations⟩
  constructor
  · intro h
    by_contra hlt
    let zero : Fin r.socketNum := ⟨0, r.socketNum_pos⟩
    obtain ⟨u, hu, hhang⟩ := hangs_of_lt (c := roundConfig client mem r a b zero) rfl rfl ha0
      r.numMsgs_pos (by rw [msg_length]; exact not_le.mp hlt)
    have hall : (roundSystem client mem r a b).Completes (InTurn client r) _
        (fun s => ∀ i, Finished (roundConfig client mem r a b i) (s i)) :=
      h.mono (fun _ _ hs => hs.finished)
    exact absurd hall (Machine.not_completes_in_turn (i := zero) hu hhang.2
      (fun h => hhang.1 h.top) hpassed)
  · intro hfits
    have hmember : ∀ i, (system (roundConfig client mem r a b i)).Completes (fun _ _ => True)
        (r.numMsgs * (4 * (roundConfig client mem r a b i).msg.length + 1))
        (Finished (roundConfig client mem r a b i)) := by
      intro i
      have hlen := msg_length client mem r a b i
      have hle := msgSizes_le_zero (n := r.socketNum) (msgSize_pos r) i
      exact completes_of_fits rfl rfl ha0 hb0 (.inl (by omega))
    have hall : (roundSystem client mem r a b).Completes (InTurn client r) _
        (fun s => ∀ i, Finished (roundConfig client mem r a b i) (s i)) :=
      Machine.Completes.in_turn hmember hpassed
    have hbound : ∑ i, r.numMsgs * (4 * (roundConfig client mem r a b i).msg.length + 1) =
        r.numMsgs * (4 * r.msgSize + r.socketNum) := by
      rw [← Finset.mul_sum, Finset.sum_add_distrib, ← Finset.mul_sum, sum_msg_length]
      simp
    rw [hbound] at hall
    exact hall.mono (fun _ _ hs => roundPlayed_of_finished hs _ _)

/-- Eight bytes over two sockets, three times. -/
theorem round_of_sockets_ends_iff_twoSockets :
    (roundSystem .multiStreamTcpClient (fun _ _ => 0) Throughput.Benchmark.twoSockets 4
      4).Completes (InTurn .multiStreamTcpClient Throughput.Benchmark.twoSockets)
      (Throughput.Benchmark.twoSockets.numMsgs *
        (4 * Throughput.Benchmark.twoSockets.msgSize +
          Throughput.Benchmark.twoSockets.socketNum))
      (fun s => RoundPlayed .multiStreamTcpClient (fun _ _ => 0)
        Throughput.Benchmark.twoSockets 4 4 s 0 0) ↔
      msgSizes Throughput.Benchmark.twoSockets.msgSize
        Throughput.Benchmark.twoSockets.socketNum 0 ≤ 4 + 4 + 1 :=
  round_of_sockets_ends_iff _ _ _ (by decide) (by decide) _ _

end Rounds

end InfinibandWorkshop.TcpEcho
