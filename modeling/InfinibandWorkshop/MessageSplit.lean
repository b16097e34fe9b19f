import InfinibandWorkshop.EchoBuffer

/-!
# The messages of the TCP clients

Before a round, MultiStreamTcpClient.cpp and MultiThreadTcpClient.cpp split the
message over their sockets and make a buffer for every share. With at least as many
bytes as sockets the shares add up and the buffers fit. With fewer, every socket but
the first one sends a byte that the message does not have; MultiThreadTcpClient.cpp
gives that byte no room, and stores its terminator behind the allocated block.
-/
namespace InfinibandWorkshop.MessageSplit
open CText (Byte ch)
open EchoBuffer (Buffer)
open Throughput (msgSizes)
open scoped BigOperators

/-- A block of `malloc`, with the memory behind it. -/
structure Msg where
  allocated : ℕ
  block : Buffer

/-- `createMsg`; `mem` is what the memory holds before. -/
def createMsg (mem : ℕ → Byte) (sizeMsg : ℕ) (baseChar : Byte) : Msg where
  allocated := sizeMsg + 1
  block := Buffer.fill ⟨mem, []⟩ (List.replicate sizeMsg baseChar)

/-- `msg[i] = '\0'`. -/
def Msg.terminate (m : Msg) (i : ℕ) : Msg := { m with block := m.block.store i 0 }

/-- What `main` prepares for socket `i`: `msgs[i]` and `msgSizes[i]`. The two clients
differ in the size that they pass to `createMsg` where there are fewer bytes than
sockets. -/
def prepare (spare : ℕ) (baseChar : Byte) (mem : ℕ → ℕ → Byte) (msgSize socketNum i : ℕ) :
    Msg × ℕ :=
  if msgSize < socketNum then
    if i = 0 then ((createMsg (mem i) msgSize baseChar).terminate msgSize, msgSize)
    else ((createMsg (mem i) spare baseChar).terminate 1, 1)
  else
    let size := if i = 0 then msgSize / socketNum + msgSize % socketNum else msgSize / socketNum
    ((createMsg (mem i) size baseChar).terminate size, size)

inductive Client
  | multiStreamTcpClient
  | multiThreadTcpClient
  deriving DecidableEq

/-- The split as the client makes it; both use the character `w`. -/
def Client.split : Client → (ℕ → ℕ → Byte) → ℕ → ℕ → ℕ → Msg × ℕ
  | .multiStreamTcpClient => prepare 1 (ch 'w')
  | .multiThreadTcpClient => prepare 0 (ch 'w')

section Buffers

variable (mem : ℕ → Byte) (baseChar : Byte) (sizeMsg i : ℕ)

theorem terminate_allocated (m : Msg) : (m.terminate i).allocated = m.allocated := rfl

theorem createMsg_allocated : (createMsg mem sizeMsg baseChar).allocated = sizeMsg + 1 := rfl

theorem mem_written {k : ℕ} : k ∈ ((createMsg mem sizeMsg baseChar).terminate i).block.written ↔
    k < sizeMsg ∨ k = i := by
  simp [createMsg, Msg.terminate, Buffer.fill, Buffer.store]

theorem terminate_mem_self (m : Msg) : (m.terminate i).block.mem i = 0 := by
  simp [Msg.terminate, Buffer.store]

/-- The bytes in front of the terminator are the base character. -/
theorem createMsg_mem {k : ℕ} (hk : k < sizeMsg) (hki : k ≠ i) :
    ((createMsg mem sizeMsg baseChar).terminate i).block.mem k = baseChar := by
  simp [createMsg, Msg.terminate, Buffer.fill, Buffer.store, Function.update_of_ne hki, hk]

/-- A buffer with room for `size` bytes and the terminator, made of the base character
and terminated. -/
structure Holds (m : Msg) (size : ℕ) (baseChar : Byte) : Prop where
  room : size + 1 ≤ m.allocated
  inside : ∀ k ∈ m.block.written, k < m.allocated
  base : ∀ k < size, m.block.mem k = baseChar
  terminated : m.block.mem size = 0

theorem holds_createMsg :
    Holds ((createMsg mem sizeMsg baseChar).terminate sizeMsg) sizeMsg baseChar where
  room := le_rfl
  inside := by
    intro k hk
    rw [mem_written] at hk
    rw [terminate_allocated, createMsg_allocated]
    omega
  base := fun k hk => createMsg_mem mem baseChar sizeMsg sizeMsg hk hk.ne
  terminated := terminate_mem_self sizeMsg _

end Buffers

section Shares

variable {msgSize n : ℕ}

theorem prepare_size (spare : ℕ) (baseChar : Byte) (mem : ℕ → ℕ → Byte) (i : ℕ) :
    (prepare spare baseChar mem msgSize n i).2 = msgSizes msgSize n i := by
  unfold prepare msgSizes
  split_ifs <;> rfl

/-- With fewer bytes than sockets, each socket but the first one adds a byte. -/
theorem sum_msgSizes_of_lt (hlt : msgSize < n) :
    ∑ i ∈ Finset.range n, msgSizes msgSize n i = msgSize + (n - 1) := by
  apply Throughput.sum_shares (Nat.zero_lt_of_lt hlt) (q := 1)
  · rw [msgSizes, if_pos hlt, if_pos rfl, Nat.one_mul]
  · intro i hi
    rw [msgSizes, if_pos hlt, if_neg hi]

theorem sum_msgSizes_iff (hsize : 1 ≤ msgSize) (hn : 1 ≤ n) :
    ∑ i ∈ Finset.range n, msgSizes msgSize n i = msgSize ↔ n ≤ msgSize := by
  constructor
  · intro hsum
    by_contra hle
    rw [sum_msgSizes_of_lt (not_le.mp hle)] at hsum
    omega
  · exact Throughput.sum_msgSizes hn

/-- With enough bytes both clients make every buffer of the size that it is sent with. -/
theorem holds_prepare (spare : ℕ) (baseChar : Byte) (mem : ℕ → ℕ → Byte) (hle : n ≤ msgSize)
    (i : ℕ) : Holds (prepare spare baseChar mem msgSize n i).1
      (prepare spare baseChar mem msgSize n i).2 baseChar := by
  unfold prepare
  rw [if_neg hle.not_gt]
  exact holds_createMsg _ _ _

/-- MultiStreamTcpClient.cpp makes room for the bytes that the message does not have. -/
theorem multiStream_holds (mem : ℕ → ℕ → Byte) (msgSize n i : ℕ) :
    Holds (Client.multiStreamTcpClient.split mem msgSize n i).1
      (Client.multiStreamTcpClient.split mem msgSize n i).2 (ch 'w') := by
  simp only [Client.split, prepare]
  split_ifs
  all_goals exact holds_createMsg _ _ _

/-- MultiThreadTcpClient.cpp does not. -/
theorem multiThread_overflows (mem : ℕ → ℕ → Byte) (hlt : msgSize < n) {i : ℕ} (hi : i ≠ 0) :
    ¬ Holds (Client.multiThreadTcpClient.split mem msgSize n i).1
      (Client.multiThreadTcpClient.split mem msgSize n i).2 (ch 'w') := by
  intro h
  have hroom := h.room
  simp only [Client.split, prepare, if_pos hlt, if_neg hi, terminate_allocated,
    createMsg_allocated] at hroom
  omega

/-- The shares make up the message, and every buffer holds the share of its socket. -/
structure SplitsMessage (split : ℕ → Msg × ℕ) (msgSize n : ℕ) : Prop where
  total : ∑ i ∈ Finset.range n, (split i).2 = msgSize
  holds : ∀ i < n, Holds (split i).1 (split i).2 (ch 'w')

/-- Both clients split the message exactly when there is a byte for every socket. -/
theorem splitsMessage_iff (client : Client) (mem : ℕ → ℕ → Byte) (hsize : 1 ≤ msgSize)
    (hn : 1 ≤ n) : SplitsMessage (client.split mem msgSize n) msgSize n ↔ n ≤ msgSize := by
  have hshare : ∀ i, (client.split mem msgSize n i).2 = msgSizes msgSize n i := by
    intro i
    cases client <;> exact prepare_size _ _ mem i
  have htotal : ∑ i ∈ Finset.range n, (client.split mem msgSize n i).2 = msgSize ↔
      n ≤ msgSize := by
    rw [Finset.sum_congr rfl (fun i _ => hshare i), sum_msgSizes_iff hsize hn]
  constructor
  · intro h
    exact htotal.mp h.total
  · intro hle
    refine ⟨htotal.mpr hle, ?_⟩
    intro i _
    cases client <;> exact holds_prepare _ _ mem hle i

/-- Eight bytes over three sockets. -/
theorem splitsMessage_iff_eightBytes :
    SplitsMessage (Client.multiThreadTcpClient.split (fun _ _ => 0) 8 3) 8 3 ↔ 3 ≤ 8 :=
  splitsMessage_iff .multiThreadTcpClient (fun _ _ => 0) (by decide) (by decide)

/-- One byte is sent over two sockets as two bytes. -/
theorem oneByte_twoSockets : ¬ ∀ (client : Client) (mem : ℕ → ℕ → Byte) (msgSize n : ℕ),
    1 ≤ msgSize → 1 ≤ n → SplitsMessage (client.split mem msgSize n) msgSize n := by
  intro h
  have hsplit := h .multiStreamTcpClient (fun _ _ => 0) 1 2 (by decide) (by decide)
  have htotal := hsplit.total
  simp [Client.split, prepare_size, msgSizes] at htotal

end Shares

end InfinibandWorkshop.MessageSplit
