import InfinibandWorkshop.CText
import InfinibandWorkshop.Machine

/-!
# Stop-and-wait echo over TCP

One connection between a client of the TCP benchmarks (MultiStreamTcpClient.cpp,
MultiThreadTcpClient.cpp) and the `ConnectionHandler` of MultiThreadTcpServer.cpp.
Each direction is a FIFO of bytes, bounded by a capacity or not. A blocking write
copies its bytes into the stream in as many portions as there is room for, and
returns after the last; a read returns any non-empty part of what is there, up to
the size of its buffer.
-/
namespace InfinibandWorkshop.TcpEcho
open CText (Byte)

/-- Every iteration sends the same message; the two sides read into buffers of
`ackSize` and `lineSize` bytes. -/
structure Config where
  msg : List Byte
  numMsgs : ℕ
  ackSize : ℕ
  lineSize : ℕ
  toServer : Option ℕ
  toClient : Option ℕ
  msg_ne : msg ≠ []
  ackSize_pos : 0 < ackSize
  lineSize_pos : 0 < lineSize

/-- Where the client is: at its loop test, in a write with the bytes that it has not
copied yet, or in its receive loop. -/
inductive Client
  | top
  | sending (left : List Byte)
  | receiving
  deriving DecidableEq

/-- `toServer` and `toClient` are the bytes in the streams, `held` those that the
server has read and not written back; it reads again when there are none left. `sent`
and `received` are histories of the client. -/
structure State where
  client : Client
  iterations : ℕ
  bytesRead : ℕ
  sent : List Byte
  received : List Byte
  toServer : List Byte
  held : List Byte
  toClient : List Byte
  deriving DecidableEq

inductive Action
  | send
  | clientWrite (n : ℕ)
  | clientRead (n : ℕ)
  | serverRead (n : ℕ)
  | serverWrite (n : ℕ)
  deriving DecidableEq, Repr

/-- There is room for `n` bytes behind those in the stream. -/
def Room (capacity : Option ℕ) (stream : List Byte) (n : ℕ) : Prop :=
  ∀ size ∈ capacity, stream.length + n ≤ size

instance (capacity : Option ℕ) (stream : List Byte) (n : ℕ) :
    Decidable (Room capacity stream n) :=
  match capacity with
  | none => isTrue (fun _ h => nomatch h)
  | some size => decidable_of_iff (stream.length + n ≤ size)
      ⟨fun h _ hs => Option.some.inj hs ▸ h, fun h => h size rfl⟩

variable (c : Config)

def step (s : State) : Action → Option State
  | .send =>
    if s.client = .top ∧ s.iterations < c.numMsgs then
      some { s with client := .sending c.msg, bytesRead := 0 }
    else none
  | .clientWrite n =>
    match s.client with
    | .sending left =>
      if 0 < n ∧ n ≤ left.length ∧ Room c.toServer s.toServer n then
        some { s with
          client := if left.drop n = [] then .receiving else .sending (left.drop n)
          sent := s.sent ++ left.take n
          toServer := s.toServer ++ left.take n }
      else none
    | _ => none
  | .clientRead n =>
    if s.client = .receiving ∧ 0 < n ∧ n ≤ c.ackSize ∧ n ≤ s.toClient.length then
      let again := s.bytesRead + n < c.msg.length
      some { s with
        client := if again then .receiving else .top
        iterations := if again then s.iterations else s.iterations + 1
        bytesRead := s.bytesRead + n
        received := s.received ++ s.toClient.take n
        toClient := s.toClient.drop n }
    else none
  | .serverRead n =>
    if s.held = [] ∧ 0 < n ∧ n ≤ c.lineSize ∧ n ≤ s.toServer.length then
      some { s with held := s.toServer.take n, toServer := s.toServer.drop n }
    else none
  | .serverWrite n =>
    if 0 < n ∧ n ≤ s.held.length ∧ Room c.toClient s.toClient n then
      some { s with held := s.held.drop n, toClient := s.toClient ++ s.held.take n }
    else none

/-- A new connection. -/
def system : Machine State Action where
  init := ⟨.top, 0, 0, [], [], [], [], []⟩
  step := step c

section Conservation

variable {c} {s t : State} {a : Action}

/-- What the client's position says about the bytes it has sent and received. -/
def Accounts (c : Config) (s : State) : Client → Prop
  | .top =>
    s.sent.length = s.iterations * c.msg.length ∧
      s.received.length = s.iterations * c.msg.length ∧
      s.bytesRead = if s.iterations = 0 then 0 else c.msg.length
  | .sending left =>
    left ≠ [] ∧ s.sent.length + left.length = (s.iterations + 1) * c.msg.length ∧
      s.received.length = s.iterations * c.msg.length ∧ s.bytesRead = 0
  | .receiving =>
    s.sent.length = (s.iterations + 1) * c.msg.length ∧
      s.received.length = s.iterations * c.msg.length + s.bytesRead ∧
      s.bytesRead < c.msg.length

/-- Nothing is lost, repeated or reordered on the way to the server and back. -/
structure Conserved (c : Config) (s : State) : Prop where
  bytes : s.sent = s.received ++ s.toClient ++ s.held ++ s.toServer
  accounts : Accounts c s s.client

theorem msg_length_pos (c : Config) : 0 < c.msg.length := List.length_pos_iff.mpr c.msg_ne

theorem conserved_init : Conserved c (system c).init where
  bytes := rfl
  accounts := by simp [system, Accounts]

/-- The bytes underway are those sent and not received. -/
theorem Conserved.length (h : Conserved c s) : s.sent.length =
    s.received.length + s.toClient.length + s.held.length + s.toServer.length := by
  rw [h.bytes]
  simp only [List.length_append]

theorem Conserved.clientWrite {n : ℕ} (h : Conserved c s)
    (hst : step c s (.clientWrite n) = some t) : Conserved c t := by
  simp only [step] at hst
  split at hst
  · rename_i left hleft
    have hacc := h.accounts
    rw [hleft] at hacc
    obtain ⟨_, hsent, hrecv, hread⟩ := hacc
    have hdrop : (left.drop n).length = left.length - n := List.length_drop
    have hbytes : s.sent ++ left.take n =
        s.received ++ s.toClient ++ s.held ++ (s.toServer ++ left.take n) := by
      simp [h.bytes]
    split_ifs at hst with hg hlast
    · -- the last portion of the message
      have hall : left.length = n := by
        rw [hlast, List.length_nil] at hdrop
        omega
      have htake : left.take n = left := by rw [← hall, List.take_length]
      rw [← Option.some.inj hst]
      refine ⟨hbytes, ?_, ?_, ?_⟩
      · rw [htake, List.length_append, hsent]
      · rw [hrecv, hread, Nat.add_zero]
      · rw [hread]
        exact msg_length_pos c
    · rw [← Option.some.inj hst]
      refine ⟨hbytes, hlast, ?_, hrecv, hread⟩
      rw [List.length_append, List.length_take, hdrop, ← hsent]
      omega
  · cases hst

theorem Conserved.clientRead {n : ℕ} (h : Conserved c s)
    (hst : step c s (.clientRead n) = some t) : Conserved c t := by
  simp only [step] at hst
  have hlen := h.length
  have hbytes : s.sent =
      s.received ++ s.toClient.take n ++ s.toClient.drop n ++ s.held ++ s.toServer := by
    simp [h.bytes]
  have hmul : (s.iterations + 1) * c.msg.length = s.iterations * c.msg.length + c.msg.length := by
    rw [Nat.add_mul, Nat.one_mul]
  split_ifs at hst with hg hagain
  · obtain ⟨hphase, _, _, hle⟩ := hg
    have hacc := h.accounts
    rw [hphase] at hacc
    rw [← Option.some.inj hst]
    refine ⟨hbytes, hacc.1, ?_, hagain⟩
    rw [List.length_append, List.length_take, hacc.2.1, min_eq_left hle, Nat.add_assoc]
  · obtain ⟨hphase, _, _, hle⟩ := hg
    have hacc := h.accounts
    rw [hphase] at hacc
    obtain ⟨hsent, hrecv, hlt⟩ := hacc
    -- no more than the whole message can have come back
    have hfull : s.bytesRead + n = c.msg.length := by omega
    rw [← Option.some.inj hst]
    refine ⟨hbytes, hsent, ?_, hfull⟩
    rw [List.length_append, List.length_take, min_eq_left hle, hrecv, Nat.add_assoc, hfull, hmul]

theorem Conserved.next (h : Conserved c s) (hst : step c s a = some t) : Conserved c t := by
  cases a with
  | send =>
    simp only [step] at hst
    split_ifs at hst with hg
    have hacc := h.accounts
    rw [hg.1] at hacc
    rw [← Option.some.inj hst]
    refine ⟨h.bytes, c.msg_ne, ?_, hacc.2.1, rfl⟩
    rw [hacc.1, Nat.add_mul, Nat.one_mul]
  | clientWrite n => exact h.clientWrite hst
  | clientRead n => exact h.clientRead hst
  | serverRead n =>
    simp only [step] at hst
    split_ifs at hst with hg
    rw [← Option.some.inj hst]
    refine ⟨?_, h.accounts⟩
    simp [h.bytes, hg.1]
  | serverWrite n =>
    simp only [step] at hst
    split_ifs at hst with hg
    rw [← Option.some.inj hst]
    refine ⟨?_, h.accounts⟩
    simp [h.bytes]

theorem conserved_of_reachable (h : (system c).Reachable s) : Conserved c s :=
  h.invariant conserved_init (fun _ _ _ hi _ hst => hi.next hst)

/-- What has been sent and not received is in the two streams and at the server, in
this order, and a finished iteration leaves nothing there. -/
structure Echoed (c : Config) (s : State) : Prop where
  inOrder : s.sent = s.received ++ s.toClient ++ s.held ++ s.toServer
  underway : (s.sent.length : ℤ) - s.received.length =
    s.toServer.length + s.toClient.length + s.held.length
  never_more : s.bytesRead ≤ c.msg.length
  clean : s.client = .top → s.iterations ≠ 0 →
    s.bytesRead = c.msg.length ∧ s.toServer = [] ∧ s.toClient = [] ∧ s.held = []

theorem echo_conserved (h : (system c).Reachable s) : Echoed c s := by
  have hcons := conserved_of_reachable h
  have hacc := hcons.accounts
  have hlen := hcons.length
  refine ⟨hcons.bytes, by omega, ?_, ?_⟩
  · cases hc : s.client with
    | top =>
      rw [hc] at hacc
      rw [hacc.2.2]
      split_ifs
      · exact Nat.zero_le _
      · exact le_rfl
    | sending left =>
      rw [hc] at hacc
      rw [hacc.2.2.2]
      exact Nat.zero_le _
    | receiving =>
      rw [hc] at hacc
      exact hacc.2.2.le
  · intro hc hi
    rw [hc] at hacc
    obtain ⟨hsent, hrecv, hread⟩ := hacc
    rw [if_neg hi] at hread
    refine ⟨hread, ?_, ?_, ?_⟩ <;> apply List.length_eq_zero_iff.mp <;> omega

/-- Messages of three bytes, over unbounded streams and small buffers. -/
def threeBytes : Config where
  msg := [1, 2, 3]
  numMsgs := 2
  ackSize := 8
  lineSize := 2
  toServer := none
  toClient := none
  msg_ne := by decide
  ackSize_pos := by decide
  lineSize_pos := by decide

/-- One whole message and a part of the next; the server cuts the first in two. -/
def cutRun : List Action :=
  [.send, .clientWrite 3, .serverRead 2, .serverWrite 2, .clientRead 1, .serverRead 1,
    .serverWrite 1, .clientRead 2, .send, .clientWrite 3, .serverRead 1]

theorem echo_conserved_cutRun : Echoed threeBytes
    ⟨.receiving, 1, 0, [1, 2, 3, 1, 2, 3], [1, 2, 3], [2, 3], [1], []⟩ := by
  have hrun : (system threeBytes).exec (fun _ _ => True) (system threeBytes).init cutRun =
      some ⟨.receiving, 1, 0, [1, 2, 3, 1, 2, 3], [1, 2, 3], [2, 3], [1], []⟩ := by
    decide +kernel
  exact echo_conserved ⟨cutRun, Machine.run_of_exec hrun⟩

end Conservation

section Hanging

variable {c} {s t : State} {left : List Byte} {n a b : ℕ}

/-- The client waits for bytes of its message, and nobody can take a step. -/
def Hangs (c : Config) (s : State) : Prop :=
  s.client ≠ .top ∧ ∀ a, ¬ (system c).Enabled s a

theorem room_some {size : ℕ} {stream : List Byte} :
    Room (some size) stream n ↔ stream.length + n ≤ size := by
  simp [Room]

theorem step_clientWrite (hc : s.client = .sending left) (hn : 0 < n) (hle : n ≤ left.length)
    (hr : Room c.toServer s.toServer n) : (system c).step s (.clientWrite n) =
      some { s with
        client := if left.drop n = [] then .receiving else .sending (left.drop n)
        sent := s.sent ++ left.take n
        toServer := s.toServer ++ left.take n } := by
  simp only [system, step, hc]
  rw [if_pos ⟨hn, hle, hr⟩]

theorem step_serverRead (hheld : s.held = []) (hn : 0 < n) (hline : n ≤ c.lineSize)
    (hle : n ≤ s.toServer.length) : (system c).step s (.serverRead n) =
      some { s with held := s.toServer.take n, toServer := s.toServer.drop n } := by
  simp only [system, step]
  rw [if_pos ⟨hheld, hn, hline, hle⟩]

theorem step_serverWrite (hn : 0 < n) (hle : n ≤ s.held.length)
    (hr : Room c.toClient s.toClient n) : (system c).step s (.serverWrite n) =
      some { s with held := s.held.drop n, toClient := s.toClient ++ s.held.take n } := by
  simp only [system, step]
  rw [if_pos ⟨hn, hle, hr⟩]

/-- A server that cannot move holds bytes that do not fit, or has nothing to read. -/
theorem server_stuck (hb : c.toClient = some b) (h : ∀ a, ¬ (system c).Enabled s a) :
    (s.held ≠ [] ∧ b ≤ s.toClient.length) ∨ (s.held = [] ∧ s.toServer = []) := by
  by_cases hheld : s.held = []
  · right
    refine ⟨hheld, ?_⟩
    by_contra hne
    exact h (.serverRead 1)
      ⟨_, step_serverRead hheld Nat.one_pos c.lineSize_pos (List.length_pos_iff.mpr hne)⟩
  · left
    refine ⟨hheld, ?_⟩
    by_contra hlt
    have hr : Room c.toClient s.toClient 1 := by
      rw [hb, room_some]
      omega
    exact h (.serverWrite 1)
      ⟨_, step_serverWrite Nat.one_pos (List.length_pos_iff.mpr hheld) hr⟩

/-- Whoever hangs has filled both streams and left a byte at each side. -/
theorem Conserved.length_of_hangs (h : Conserved c s) (ha : c.toServer = some a)
    (hb : c.toClient = some b) (ha0 : 0 < a) (hb0 : 0 < b) (hs : Hangs c s) :
    a + b + 2 ≤ c.msg.length := by
  obtain ⟨hphase, hstuck⟩ := hs
  have hacc := h.accounts
  have hlen := h.length
  cases hc : s.client with
  | top => exact absurd hc hphase
  | sending left =>
    rw [hc] at hacc
    obtain ⟨hleft, hsent, hrecv, _⟩ := hacc
    rw [Nat.add_mul, Nat.one_mul] at hsent
    have hpos : 0 < left.length := List.length_pos_iff.mpr hleft
    have hfull : a ≤ s.toServer.length := by
      by_contra hlt
      have hr : Room c.toServer s.toServer 1 := by
        rw [ha, room_some]
        omega
      exact hstuck (.clientWrite 1) ⟨_, step_clientWrite hc Nat.one_pos hpos hr⟩
    rcases server_stuck hb hstuck with ⟨hheld, hle⟩ | ⟨_, hnil⟩
    · have hone : 0 < s.held.length := List.length_pos_iff.mpr hheld
      omega
    · rw [hnil, List.length_nil] at hfull
      omega
  | receiving =>
    rw [hc] at hacc
    obtain ⟨hsent, hrecv, hlt⟩ := hacc
    rw [Nat.add_mul, Nat.one_mul] at hsent
    -- the client would read whatever is there
    have hnil : s.toClient = [] := by
      by_contra hne
      have hpos : 1 ≤ s.toClient.length := List.length_pos_iff.mpr hne
      have hstep : ((system c).step s (.clientRead 1)).isSome = true := by
        simp only [system, step]
        rw [if_pos ⟨hc, Nat.one_pos, c.ackSize_pos, hpos⟩]
        rfl
      exact hstuck (.clientRead 1) (Machine.enabled_of_isSome hstep)
    rw [hnil, List.length_nil] at hlen
    rcases server_stuck hb hstuck with ⟨_, hle⟩ | ⟨hheld, hserver⟩
    · rw [hnil, List.length_nil] at hle
      omega
    · rw [hheld, hserver, List.length_nil] at hlen
      omega

/-- One more byte goes to a server that has nothing to do. -/
theorem pass_byte (h : (system c).Reachable s) (ha : c.toServer = some a) (ha0 : 0 < a)
    (hc : s.client = .sending left) (hleft : 1 < left.length) (hserver : s.toServer = [])
    (hheld : s.held = []) :
    ∃ t, (system c).Reachable t ∧ t.client = .sending (left.drop 1) ∧ t.toServer = [] ∧
      t.held.length = 1 ∧ t.toClient = s.toClient := by
  have hr : Room c.toServer s.toServer 1 := by
    rw [ha, room_some, hserver, List.length_nil]
    omega
  have hmore : left.drop 1 ≠ [] := by
    rw [← List.length_pos_iff, List.length_drop]
    omega
  have hchunk : (left.take 1).length = 1 := by
    rw [List.length_take]
    omega
  have hwrite := h.next trivial (step_clientWrite hc Nat.one_pos hleft.le hr)
  rw [if_neg hmore, hserver, List.nil_append] at hwrite
  have hread := hwrite.next trivial
    (step_serverRead hheld Nat.one_pos c.lineSize_pos hchunk.ge)
  refine ⟨_, hread, rfl, ?_, ?_, rfl⟩
  · exact List.drop_eq_nil_of_le hchunk.le
  · show ((left.take 1).take 1).length = 1
    rw [List.length_take, hchunk, min_self]

/-- The stream back fills up byte by byte while the client is still writing. -/
theorem fill_back (ha : c.toServer = some a) (hb : c.toClient = some b) (ha0 : 0 < a)
    (hmsgs : 0 < c.numMsgs) (k : ℕ) (hk : k ≤ b) (hlen : k + 1 ≤ c.msg.length) :
    ∃ s, (system c).Reachable s ∧ s.client = .sending (c.msg.drop k) ∧ s.toServer = [] ∧
      s.held = [] ∧ s.toClient.length = k := by
  induction k with
  | zero =>
    have hstep : (system c).step (system c).init .send =
        some { (system c).init with client := .sending c.msg, bytesRead := 0 } := by
      simp only [system, step]
      rw [if_pos ⟨trivial, hmsgs⟩]
    exact ⟨_, Machine.reachableBy_init.next trivial hstep, rfl, rfl, rfl, rfl⟩
  | succ k ih =>
    obtain ⟨s, hs, hc, hserver, hheld, hback⟩ := ih (by omega) (by omega)
    have hleft : 1 < (c.msg.drop k).length := by
      rw [List.length_drop]
      omega
    obtain ⟨t, ht, hct, hst, hone, hbt⟩ := pass_byte hs ha ha0 hc hleft hserver hheld
    have hr : Room c.toClient t.toClient 1 := by
      rw [hb, room_some, hbt, hback]
      omega
    refine ⟨_, ht.next trivial (step_serverWrite Nat.one_pos hone.ge hr), ?_, hst, ?_, ?_⟩
    · show t.client = _
      rw [hct, List.drop_drop]
    · exact List.drop_eq_nil_of_le hone.le
    · show (t.toClient ++ t.held.take 1).length = k + 1
      rw [List.length_append, List.length_take, hbt, hback, hone, min_self]

/-- A client that cannot copy and a server that cannot copy wait for each other. -/
theorem hangs_of_full (ha : c.toServer = some a) (hb : c.toClient = some b)
    (hc : s.client = .sending left) (hserver : a ≤ s.toServer.length) (hheld : s.held ≠ [])
    (hback : b ≤ s.toClient.length) : Hangs c s := by
  refine ⟨by rw [hc]; exact Client.noConfusion, ?_⟩
  intro act
  rintro ⟨t, ht⟩
  cases act with
  | send => simp [system, step, hc] at ht
  | clientWrite n =>
    simp only [system, step, hc, ha, room_some] at ht
    rw [if_neg (by omega)] at ht
    cases ht
  | clientRead n => simp [system, step, hc] at ht
  | serverRead n => simp [system, step, hheld] at ht
  | serverWrite n =>
    simp only [system, step, hb, room_some] at ht
    rw [if_neg (by omega)] at ht
    cases ht

theorem hangs_of_lt (ha : c.toServer = some a) (hb : c.toClient = some b) (ha0 : 0 < a)
    (hmsgs : 0 < c.numMsgs) (hlen : a + b + 1 < c.msg.length) :
    ∃ s, (system c).Reachable s ∧ Hangs c s := by
  obtain ⟨s, hs, hc, hserver, hheld, hback⟩ := fill_back ha hb ha0 hmsgs b le_rfl (by omega)
  have hleft : (c.msg.drop b).length = c.msg.length - b := List.length_drop
  obtain ⟨t, ht, hct, hst, hone, hbt⟩ := pass_byte hs ha ha0 hc (by omega) hserver hheld
  have hleft' : ((c.msg.drop b).drop 1).length = c.msg.length - b - 1 := by
    rw [List.length_drop, hleft]
  have hr : Room c.toServer t.toServer a := by
    rw [ha, room_some, hst, List.length_nil, Nat.zero_add]
  have hmore : ((c.msg.drop b).drop 1).drop a ≠ [] := by
    rw [← List.length_pos_iff, List.length_drop, hleft']
    omega
  have hfill := step_clientWrite hct ha0 (by omega) hr
  rw [if_neg hmore] at hfill
  refine ⟨_, ht.next trivial hfill, hangs_of_full ha hb rfl ?_ ?_ ?_⟩
  · show a ≤ (t.toServer ++ ((c.msg.drop b).drop 1).take a).length
    rw [List.length_append, List.length_take, hleft']
    omega
  · exact List.length_pos_iff.mp (hone ▸ Nat.one_pos)
  · exact (hbt ▸ hback).ge

/-- The client is at its loop test. -/
def State.AtTop (s : State) : Prop := s.client = .top

theorem top_of_no_messages (hmsgs : c.numMsgs = 0) (h : (system c).Reachable s) : s.AtTop := by
  have hinit : (system c).init.AtTop := rfl
  apply h.invariant hinit
  intro s act t hs _ hst
  rw [State.AtTop] at hs
  cases act with
  | send => simp [system, step, hmsgs] at hst
  | clientWrite n => simp [system, step, hs] at hst
  | clientRead n => simp [system, step, hs] at hst
  | serverRead n =>
    simp only [system, step] at hst
    split_ifs at hst
    rw [← Option.some.inj hst]
    exact hs
  | serverWrite n =>
    simp only [system, step] at hst
    split_ifs at hst
    rw [← Option.some.inj hst]
    exact hs

/-- No run hangs exactly when a message fits into both streams and one byte at the
server. -/
theorem never_hangs_iff (ha : c.toServer = some a) (hb : c.toClient = some b) (ha0 : 0 < a)
    (hb0 : 0 < b) : (∀ s, (system c).Reachable s → ¬ Hangs c s) ↔
      c.msg.length ≤ a + b + 1 ∨ c.numMsgs = 0 := by
  constructor
  · intro h
    by_contra hno
    obtain ⟨hlen, hmsgs⟩ := not_or.mp hno
    obtain ⟨s, hs, hhang⟩ := hangs_of_lt ha hb ha0 (Nat.pos_of_ne_zero hmsgs) (not_le.mp hlen)
    exact h s hs hhang
  · rintro (hlen | hmsgs) s hs hhang
    · have hge := (conserved_of_reachable hs).length_of_hangs ha hb ha0 hb0 hhang
      omega
    · exact hhang.1 (top_of_no_messages hmsgs hs)

/-- A message of `m` bytes between sockets with 208 KiB of buffer in each direction. -/
def defaultStreams (m : ℕ) (hm : 0 < m) : Config where
  msg := List.replicate m (CText.ch 'w')
  numMsgs := 1
  ackSize := 131072
  lineSize := 131072
  toServer := some 212992
  toClient := some 212992
  msg_ne := fun h => hm.ne' (List.replicate_eq_nil_iff _ |>.mp h)
  ackSize_pos := by decide
  lineSize_pos := by decide

theorem defaultStreams_length (m : ℕ) (hm : 0 < m) :
    (defaultStreams m hm).msg.length = m := List.length_replicate

theorem never_hangs_iff_defaultStreams :
    (∀ s, (system (defaultStreams 131072 (by decide))).Reachable s →
      ¬ Hangs (defaultStreams 131072 (by decide)) s) ↔
      (defaultStreams 131072 (by decide)).msg.length ≤ 212992 + 212992 + 1 ∨
        (defaultStreams 131072 (by decide)).numMsgs = 0 :=
  never_hangs_iff rfl rfl (by decide) (by decide)

/-- The largest message of the benchmarks can hang. -/
theorem largest_message_hangs : ¬ ∀ (c : Config) (a b : ℕ), c.toServer = some a →
    c.toClient = some b → 0 < a → 0 < b → ∀ s, (system c).Reachable s → ¬ Hangs c s := by
  intro h
  have hlen : 212992 + 212992 + 1 < (defaultStreams 1048576 (by decide)).msg.length := by
    rw [defaultStreams_length]
    norm_num
  obtain ⟨s, hs, hhang⟩ := hangs_of_lt rfl rfl (by decide) Nat.one_pos hlen
  exact h (defaultStreams 1048576 (by decide)) 212992 212992 rfl rfl (by decide) (by decide) s hs
    hhang

end Hanging

end InfinibandWorkshop.TcpEcho
