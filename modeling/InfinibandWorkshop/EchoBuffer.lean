import InfinibandWorkshop.CText
import InfinibandWorkshop.Machine
import InfinibandWorkshop.Throughput

/-!
# The buffers that the TCP servers echo from

Both servers read a chunk into a `char` array of `MAX_PACKET_SIZE` bytes, store a
terminator behind it and send from the array. NonBlockingTcpServer.cpp takes the
length from the contents again and repeats partial sends; MultiThreadTcpServer.cpp
writes the chunk once and ignores how much of it was taken. What lies behind the
array is ordinary memory here, so that a write past its end can be seen.
-/
namespace InfinibandWorkshop.EchoBuffer
open CText (Byte cstr)
open Throughput (maxPacketSize)

/-- A `char` array with the memory behind it, and the indices written so far. -/
structure Buffer where
  mem : ℕ → Byte
  written : List ℕ

/-- The `n` bytes from `i` on. -/
def slice (mem : ℕ → Byte) (i n : ℕ) : List Byte := (List.range n).map (fun j => mem (i + j))

namespace Buffer

/-- `read` into the array. -/
def fill (b : Buffer) (chunk : List Byte) : Buffer where
  mem i := chunk[i]?.getD (b.mem i)
  written := b.written ++ List.range chunk.length

def store (b : Buffer) (i : ℕ) (v : Byte) : Buffer where
  mem := Function.update b.mem i v
  written := b.written ++ [i]

/-- A chunk is read and terminated, as both servers do it. -/
def receive (b : Buffer) (chunk : List Byte) : Buffer := (b.fill chunk).store chunk.length 0

end Buffer

section Memory

variable (b : Buffer) (chunk : List Byte)

theorem slice_length (mem : ℕ → Byte) (i n : ℕ) : (slice mem i n).length = n := by
  simp [slice]

theorem slice_append (mem : ℕ → Byte) (i k m : ℕ) :
    slice mem i k ++ slice mem (i + k) m = slice mem i (k + m) := by
  simp [slice, List.range_add, Function.comp_def, Nat.add_assoc]

theorem receive_mem {i : ℕ} (h : i < chunk.length) : (b.receive chunk).mem i = chunk[i] := by
  simp [Buffer.receive, Buffer.store, Buffer.fill, Function.update_of_ne h.ne, h]

theorem slice_receive {n : ℕ} (h : n ≤ chunk.length) :
    slice (b.receive chunk).mem 0 n = chunk.take n := by
  apply List.ext_getElem
  · rw [slice_length, List.length_take, min_eq_left h]
  · intro i hi hi'
    rw [slice_length] at hi
    simp only [slice, List.getElem_map, List.getElem_range, Nat.zero_add, List.getElem_take]
    exact receive_mem b chunk (hi.trans_le h)

theorem mem_receive_written {i : ℕ} : i ∈ (b.receive chunk).written ↔
    i ∈ b.written ∨ i ≤ chunk.length := by
  simp only [Buffer.receive, Buffer.store, Buffer.fill, List.mem_append, List.mem_range,
    List.mem_singleton, or_assoc]
  rw [Nat.le_iff_lt_or_eq]

end Memory

section SendVerifier

/-- `strlen` from `i` on, in memory that has a terminator `bound` bytes further. -/
def strlen (mem : ℕ → Byte) : ℕ → ℕ → ℕ
  | 0, i => i
  | bound + 1, i => if mem i = 0 then i else strlen mem bound (i + 1)

/-- The loop of `sendVerifier`: `send call asked` is what the call returns, `none`
for -1. The bytes handed over, and the last value of `n`. -/
def sendLoop (send : ℕ → ℕ → Option ℕ) (mem : ℕ → Byte) (len : ℕ) :
    ℕ → ℕ → ℕ → ℕ → ℤ → List Byte × ℤ
  | 0, _, _, _, n => ([], n)
  | fuel + 1, call, total, bytesleft, n =>
    if total < len then
      match send call bytesleft with
      | none => ([], -1)
      | some k =>
        let rest := sendLoop send mem len fuel (call + 1) (total + k) (bytesleft - k) k
        (slice mem total k ++ rest.1, rest.2)
    else ([], n)

/-- `sendVerifier` with its return value; `n` is what its local `n` holds at first.
Every call that does not fail takes a byte, so `len` turns of the loop suffice. -/
def sendVerifier (send : ℕ → ℕ → Option ℕ) (mem : ℕ → Byte) (len : ℕ) (n : ℤ) :
    List Byte × ℤ :=
  let r := sendLoop send mem len len 0 0 len n
  (r.1, if r.2 = -1 then -1 else 0)

theorem cstr_length_le (chunk : List Byte) : (cstr chunk).length ≤ chunk.length :=
  (List.takeWhile_sublist _).length_le

theorem take_cstr (chunk : List Byte) : chunk.take (cstr chunk).length = cstr chunk :=
  (List.prefix_iff_eq_take.mp (List.takeWhile_prefix _)).symm

theorem cstr_eq_iff (chunk : List Byte) : cstr chunk = chunk ↔ (0 : Byte) ∉ chunk := by
  rw [cstr, List.takeWhile_eq_self_iff]
  constructor
  · intro h h0
    simpa using h 0 h0
  · intro h x hx
    rw [decide_eq_true_iff]
    rintro rfl
    exact h hx

theorem strlen_eq {mem : ℕ → Byte} {chunk : List Byte} {i : ℕ}
    (hmem : ∀ j (hj : j < chunk.length), mem (i + j) = chunk[j]) :
    strlen mem chunk.length i = i + (cstr chunk).length := by
  induction chunk generalizing i with
  | nil => rfl
  | cons x xs ih =>
    have hx : mem i = x := hmem 0 (Nat.succ_pos _)
    have hrest : ∀ j (hj : j < xs.length), mem (i + 1 + j) = xs[j] := by
      intro j hj
      have h := hmem (j + 1) (Nat.succ_lt_succ hj)
      rwa [List.getElem_cons_succ, ← Nat.add_assoc, Nat.add_right_comm] at h
    rw [List.length_cons, strlen, hx]
    by_cases h0 : x = 0
    · simp [h0, cstr]
    · have hcons : cstr (x :: xs) = x :: cstr xs := by simpa [cstr, List.takeWhile_cons] using h0
      rw [if_neg h0, ih hrest, hcons, List.length_cons]
      omega

/-- The length that the server echoes is that of the string in the chunk. -/
theorem strlen_receive (b : Buffer) (chunk : List Byte) :
    strlen (b.receive chunk).mem chunk.length 0 = (cstr chunk).length := by
  rw [strlen_eq, Nat.zero_add]
  intro j hj
  rw [Nat.zero_add]
  exact receive_mem b chunk hj

/-- However the sends are cut, all the bytes are handed over, in order. -/
theorem sendLoop_eq {send : ℕ → ℕ → Option ℕ}
    (hsend : ∀ call asked, 0 < asked → ∃ k, send call asked = some k ∧ 0 < k ∧ k ≤ asked)
    (mem : ℕ → Byte) {len : ℕ} (fuel call total bytesleft : ℕ) (n : ℤ) (hfuel : bytesleft ≤ fuel)
    (hlen : total + bytesleft = len) :
    (sendLoop send mem len fuel call total bytesleft n).1 = slice mem total bytesleft ∧
      (0 < bytesleft ∨ 0 ≤ n → 0 ≤ (sendLoop send mem len fuel call total bytesleft n).2) := by
  induction fuel generalizing call total bytesleft n with
  | zero =>
    obtain rfl := Nat.le_zero.mp hfuel
    exact ⟨rfl, fun h => h.resolve_left (lt_irrefl 0)⟩
  | succ fuel ih =>
    rw [sendLoop]
    by_cases hlt : total < len
    · obtain ⟨k, hk, hpos, hle⟩ := hsend call bytesleft (by omega)
      obtain ⟨hbytes, hret⟩ := ih (call + 1) (total + k) (bytesleft - k) k (by omega) (by omega)
      simp only [if_pos hlt, hk]
      constructor
      · rw [hbytes, slice_append, Nat.add_sub_cancel' hle]
      · exact fun _ => hret (.inr (Int.natCast_nonneg k))
    · have hnone : bytesleft = 0 := by omega
      subst hnone
      rw [if_neg hlt]
      exact ⟨rfl, fun h => h.resolve_left (lt_irrefl 0)⟩

end SendVerifier

section Echoing

/-- One connection: the array of its server, all bytes read from it and sent back to
it, and whether the server still runs. -/
structure Echo where
  buf : Buffer
  read : List Byte
  sent : List Byte
  running : Bool

/-- What a server does with a chunk after it has read it: the bytes that it sends
back, and whether it goes on. -/
structure Handler (τ : Type*) where
  chunk : τ → List Byte
  reply : (ℕ → Byte) → τ → List Byte × Bool

variable {τ : Type*} (H : Handler τ) (mem : ℕ → Byte) {size : ℕ} {e : Echo} {ts : List τ}

/-- A chunk is read, terminated and answered. -/
def Handler.turn (e : Echo) (t : τ) : Echo :=
  let buf := e.buf.receive (H.chunk t)
  let r := H.reply buf.mem t
  ⟨buf, e.read ++ H.chunk t, e.sent ++ r.1, r.2⟩

/-- The echo loop; `mem` is what the array and the memory behind it hold at first. -/
def Handler.loop : Machine Echo τ where
  init := ⟨⟨mem, []⟩, [], [], true⟩
  step e t := if e.running then some (H.turn e t) else none

/-- What came was sent back, and nothing was written outside the array. -/
structure Exact (size : ℕ) (e : Echo) : Prop where
  echoed : e.sent = e.read
  inside : ∀ i ∈ e.buf.written, i < size

/-- The handler never sends more than it has read, and all of it under a condition. -/
structure Handler.Replies (H : Handler τ) (good : τ → Prop) : Prop where
  le : ∀ (b : Buffer) t,
    (H.reply (b.receive (H.chunk t)).mem t).1.length ≤ (H.chunk t).length
  eq_iff : ∀ (b : Buffer) t, (H.reply (b.receive (H.chunk t)).mem t).1 = H.chunk t ↔ good t

variable {H} {mem}

theorem append_eq_iff {α : Type*} {s r out chunk : List α} (hs : s.length ≤ r.length)
    (ho : out.length ≤ chunk.length) : s ++ out = r ++ chunk ↔ s = r ∧ out = chunk := by
  constructor
  · intro h
    have hlen := congrArg List.length h
    simp only [List.length_append] at hlen
    exact List.append_inj h (by omega)
  · rintro ⟨rfl, rfl⟩
    rfl

/-- Nothing is sent that has not been read. -/
def Echo.Owes (e : Echo) : Prop := e.sent.length ≤ e.read.length

/-- A step loses bytes, or writes outside, exactly by a chunk that is not handled
well or that fills the array. -/
theorem Handler.Replies.exact_step {good : τ → Prop} (h : H.Replies good) {f : Echo} {t : τ}
    (hle : e.Owes) (hst : (H.loop mem).step e t = some f) :
    f.Owes ∧ (Exact size f ↔ Exact size e ∧ good t ∧ (H.chunk t).length < size) := by
  simp only [Handler.loop] at hst
  split_ifs at hst with hrun
  rw [← Option.some.inj hst]
  have hout := h.le e.buf t
  constructor
  · simp only [Echo.Owes, Handler.turn, List.length_append] at *
    omega
  · constructor
    · rintro ⟨hsent, hinside⟩
      obtain ⟨hsame, hchunk⟩ := (append_eq_iff hle hout).mp hsent
      refine ⟨⟨hsame, fun i hi => hinside i ?_⟩, (h.eq_iff e.buf t).mp hchunk, hinside _ ?_⟩
      · exact (mem_receive_written e.buf _).mpr (.inl hi)
      · exact (mem_receive_written e.buf _).mpr (.inr le_rfl)
    · rintro ⟨⟨hsame, hinside⟩, hgood, hlt⟩
      refine ⟨(append_eq_iff hle hout).mpr ⟨hsame, (h.eq_iff e.buf t).mpr hgood⟩, ?_⟩
      intro i hi
      rcases (mem_receive_written e.buf _).mp hi with hi | hi
      · exact hinside i hi
      · exact hi.trans_lt hlt

/-- A whole connection is echoed exactly when every chunk of it is. -/
theorem Handler.Replies.exact_iff {good : τ → Prop} (h : H.Replies good)
    (hr : (H.loop mem).Run (fun _ _ => True) ts e) :
    Exact size e ↔ ∀ t ∈ ts, good t ∧ (H.chunk t).length < size := by
  have hinit : Exact size (H.loop mem).init := by
    refine ⟨rfl, ?_⟩
    intro i hi
    cases hi
  have howes : (H.loop mem).init.Owes := le_refl 0
  have hiff : (H.loop mem).Run (fun _ t => good t ∧ (H.chunk t).length < size) ts e ↔
      Exact size e :=
    hr.permitted_iff howes hinit (fun _ _ _ hle hst => h.exact_step hle hst)
  rw [← hiff, hr.forall_mem]

theorem Handler.run_single (H : Handler τ) (mem : ℕ → Byte) (t : τ) :
    (H.loop mem).Run (fun _ _ => True) [t] (H.turn (H.loop mem).init t) :=
  Machine.Run.start.next trivial rfl

end Echoing

section NonBlocking

/-- What the system gives NonBlockingTcpServer.cpp for one chunk: its bytes, how much
each `send` takes of what it is asked to, and what the stack leaves in `n`. -/
structure Turn where
  chunk : List Byte
  taken : ℕ → ℕ → ℕ
  n : ℤ
  chunk_ne : chunk ≠ []
  chunk_le : chunk.length ≤ maxPacketSize
  taken_pos : ∀ call asked, 0 < asked → 0 < taken call asked
  taken_le : ∀ call asked, taken call asked ≤ asked

/-- `sendVerifier(cur_sd, buffer, strlen(buffer))`, and the `return` when it fails. -/
def nonBlocking : Handler Turn where
  chunk := Turn.chunk
  reply mem t :=
    let r := sendVerifier (fun call asked => some (t.taken call asked)) mem
      (strlen mem t.chunk.length 0) t.n
    (r.1, decide (0 ≤ r.2))

theorem nonBlocking_reply (b : Buffer) (t : Turn) :
    (nonBlocking.reply (b.receive t.chunk).mem t).1 = cstr t.chunk := by
  have hsend : ∀ call asked, 0 < asked →
      ∃ k, some (t.taken call asked) = some k ∧ 0 < k ∧ k ≤ asked := by
    intro call asked hpos
    exact ⟨_, rfl, t.taken_pos call asked hpos, t.taken_le call asked⟩
  obtain ⟨hbytes, _⟩ := sendLoop_eq hsend (b.receive t.chunk).mem (cstr t.chunk).length 0 0
    (cstr t.chunk).length t.n le_rfl (Nat.zero_add _)
  rw [slice_receive b t.chunk (cstr_length_le t.chunk), take_cstr] at hbytes
  simp only [nonBlocking, sendVerifier, strlen_receive]
  exact hbytes

theorem nonBlocking_replies : nonBlocking.Replies (fun t => (0 : Byte) ∉ t.chunk) where
  le b t := (congrArg List.length (nonBlocking_reply b t)).trans_le (cstr_length_le t.chunk)
  eq_iff b t := (Eq.congr_left (nonBlocking_reply b t)).trans (cstr_eq_iff t.chunk)

/-- NonBlockingTcpServer.cpp echoes a connection exactly, and stays inside its buffer,
if and only if no chunk has a NUL byte in it or fills the buffer. -/
theorem nonBlocking_exact_iff {mem : ℕ → Byte} {ts : List Turn} {e : Echo}
    (h : (nonBlocking.loop mem).Run (fun _ _ => True) ts e) :
    Exact maxPacketSize e ↔ ∀ t ∈ ts, (0 : Byte) ∉ t.chunk ∧ t.chunk.length < maxPacketSize :=
  nonBlocking_replies.exact_iff h

/-- A chunk with a NUL byte in the middle; the system takes one byte at a time. -/
def nulChunk : Turn where
  chunk := [97, 0, 98]
  taken := fun _ asked => min 1 asked
  n := 0
  chunk_ne := by decide
  chunk_le := by decide
  taken_pos := by
    intro call asked hpos
    exact lt_min Nat.one_pos hpos
  taken_le := fun _ asked => min_le_right 1 asked

theorem nonBlocking_exact_iff_nulChunk :
    Exact maxPacketSize (nonBlocking.turn (nonBlocking.loop (fun _ => 0)).init nulChunk) ↔
      ∀ t ∈ [nulChunk], (0 : Byte) ∉ t.chunk ∧ t.chunk.length < maxPacketSize :=
  nonBlocking_exact_iff (nonBlocking.run_single (fun _ => 0) nulChunk)

/-- Three bytes are read and one comes back. -/
theorem nulChunk_cut : ¬ ∀ (mem : ℕ → Byte) (ts : List Turn) (e : Echo),
    (nonBlocking.loop mem).Run (fun _ _ => True) ts e → Exact maxPacketSize e := by
  intro h
  have hrun := nonBlocking.run_single (fun _ => 0) nulChunk
  have hechoed := (h (fun _ => 0) [nulChunk] _ hrun).echoed
  have hsent : (nonBlocking.turn (nonBlocking.loop (fun _ => 0)).init nulChunk).sent = [97] := by
    decide +kernel
  rw [hsent] at hechoed
  cases hechoed

end NonBlocking

section ConnectionHandler

/-- One turn of the loop of `ConnectionHandler`: a chunk, and what `write` returns. -/
structure Written where
  chunk : List Byte
  count : ℕ
  chunk_ne : chunk ≠ []
  chunk_le : chunk.length ≤ maxPacketSize
  count_pos : 0 < count
  count_le : count ≤ chunk.length

/-- `stream->send(line, len)`. -/
def connectionHandler : Handler Written where
  chunk := Written.chunk
  reply mem w := (slice mem 0 w.count, true)

theorem connectionHandler_replies :
    connectionHandler.Replies (fun w => w.count = w.chunk.length) where
  le b w := by
    simp only [connectionHandler, slice_length]
    exact w.count_le
  eq_iff b w := by
    simp only [connectionHandler, slice_receive b w.chunk w.count_le]
    rw [List.take_eq_self_iff]
    exact ⟨fun h => le_antisymm w.count_le h, fun h => h.ge⟩

/-- `ConnectionHandler` echoes a connection exactly, and stays inside `line`, if and
only if every write takes its whole chunk and no chunk fills `line`. -/
theorem connectionHandler_exact_iff {mem : ℕ → Byte} {ws : List Written} {e : Echo}
    (h : (connectionHandler.loop mem).Run (fun _ _ => True) ws e) :
    Exact maxPacketSize e ↔
      ∀ w ∈ ws, w.count = w.chunk.length ∧ w.chunk.length < maxPacketSize :=
  connectionHandler_replies.exact_iff h

/-- A chunk as long as `line`, written back at once. -/
def fullChunk : Written where
  chunk := List.replicate maxPacketSize (CText.ch 'w')
  count := maxPacketSize
  chunk_ne := fun h => absurd ((List.replicate_eq_nil_iff _).mp h) (by decide)
  chunk_le := List.length_replicate.le
  count_pos := by decide
  count_le := List.length_replicate.ge

theorem connectionHandler_exact_iff_fullChunk :
    Exact maxPacketSize
        (connectionHandler.turn (connectionHandler.loop (fun _ => 0)).init fullChunk) ↔
      ∀ w ∈ [fullChunk], w.count = w.chunk.length ∧ w.chunk.length < maxPacketSize :=
  connectionHandler_exact_iff (connectionHandler.run_single (fun _ => 0) fullChunk)

/-- The terminator of a full chunk is stored behind `line`. -/
theorem fullChunk_overflows : ¬ ∀ (mem : ℕ → Byte) (ws : List Written) (e : Echo),
    (connectionHandler.loop mem).Run (fun _ _ => True) ws e → Exact maxPacketSize e := by
  intro h
  have hrun := connectionHandler.run_single (fun _ => 0) fullChunk
  have hinside := (h (fun _ => 0) [fullChunk] _ hrun).inside
  have hlen : fullChunk.chunk.length = maxPacketSize := List.length_replicate
  have hlt := hinside maxPacketSize ((mem_receive_written _ _).mpr (.inr hlen.ge))
  exact lt_irrefl _ hlt

end ConnectionHandler

end InfinibandWorkshop.EchoBuffer
