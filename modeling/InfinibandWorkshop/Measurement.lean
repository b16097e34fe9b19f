import InfinibandWorkshop.PingPongThread
import InfinibandWorkshop.ResultTable
import Mathlib.Data.List.ReduceOption

/-!
# From the results of the threads to a row

At the end of a round main joins the threads one after another, takes each result for the
address of a time and reads it; multithreadIB.c keeps the longest. Then it saves a row.
Neither main looks at a result before it reads through it. The memory is that of the
times: threads store theirs in blocks of their own, and nothing is mapped elsewhere.
-/
namespace InfinibandWorkshop.Measurement
open Calls ThreadExits
open ResultTable (SavedRound Program)
open Throughput (defaultThreadTime maxThreadTime)

section Threads

/-- What a thread was started for. -/
inductive Source
  | multithreadIB (ctx : Multithread.PingpongContext) (X : Role)
  | multistreamTestRunner {n : ℕ} (ctx : Multistream.PingpongContext n) (hn : 1 ≤ n) (X : Role)

namespace Source

def program : Source → Program
  | multithreadIB _ _ => .multithreadIB
  | multistreamTestRunner _ _ _ => .multistreamTestRunner

def runPingPong (iters : ℕ) : Source → Calls Event Exit (BitVec 64 × ℚ)
  | multithreadIB ctx X => MultithreadIB.runPingPong ctx iters X
  | multistreamTestRunner ctx _ X => MultistreamTestRunner.runPingPong ctx iters X

/-- The queue pair numbers that the thread knows. -/
def Known : Source → ℕ → Prop
  | multithreadIB _ _ => Found MultithreadIB.findQp
  | multistreamTestRunner ctx _ _ => Found (Multistream.findQp ctx)

theorem gives_runPingPong (iters : ℕ) (s : Source) : Gives s.Known (s.runPingPong iters) := by
  cases s with
  | multithreadIB ctx X => exact MultithreadIB.gives_runPingPong ctx iters X
  | multistreamTestRunner ctx hn X =>
    exact MultistreamTestRunner.gives_runPingPong ctx iters hn X

theorem ends_runPingPong (iters : ℕ) (s : Source) :
    Ends (s.runPingPong iters) (fun cell => FitsDouble cell.1) := by
  cases s with
  | multithreadIB ctx X => exact MultithreadIB.ends_runPingPong ctx iters X
  | multistreamTestRunner ctx hn X => exact MultistreamTestRunner.ends_runPingPong ctx iters X

end Source

/-- A thread with all the answers that its calls have had. -/
structure Thread where
  source : Source
  iters : ℕ
  answers : List Event
  whole : (source.runPingPong iters answers).Whole

namespace Thread

/-- A call of the thread has failed. -/
def Failed (th : Thread) : Prop := ∃ e ∈ th.answers, e.Failed th.source.Known

/-- The time that the thread has stored at its normal end, with its address. -/
def stored (th : Thread) : Option (BitVec 64 × ℚ) :=
  match th.source.runPingPong th.iters th.answers with
  | .done cell _ => some cell
  | _ => none

/-- What `pthread_join` hands over, once the thread has returned. -/
def result (th : Thread) : Option (BitVec 64) :=
  match th.source.runPingPong th.iters th.answers with
  | .done cell _ => some cell.1
  | .returned (.code p) _ => some p
  | _ => none

variable {th : Thread} {p : BitVec 64} {t : ℚ}

theorem fits_of_stored (h : th.stored = some (p, t)) : FitsDouble p := by
  rw [stored] at h
  split at h
  · rename_i cell rest hdone
    obtain rfl := Option.some.inj h
    exact th.source.ends_runPingPong th.iters th.answers _ rest hdone
  · cases h

/-- A thread that has returned either stored its time, and none of its calls failed, or
one did, and the result is a code. -/
theorem result_cases (h : th.result = some p) :
    (¬ th.Failed ∧ ∃ t, th.stored = some (p, t)) ∨
      (th.Failed ∧ th.stored = none ∧ ¬ FitsDouble p) := by
  have hgives := th.source.gives_runPingPong th.iters
  rw [result] at h
  split at h
  · rename_i cell rest hdone
    obtain rfl := Option.some.inj h
    refine Or.inl ⟨?_, cell.2, ?_⟩
    · rintro ⟨e, he, hfailed⟩
      exact hgives.done_of_whole hdone th.whole e he hfailed
    · simp only [stored, hdone]
  · rename_i q rest hreturned
    obtain rfl := Option.some.inj h
    obtain ⟨hcode, hfailed⟩ := hgives.returned_of_whole hreturned th.whole
    refine Or.inr ⟨hfailed, ?_, not_fits_of_code hcode⟩
    simp only [stored, hreturned]
  · cases h

/-- A client that sends one message, and gets one back, in its second poll. -/
def oneTripAnswers : List Event :=
  List.flatten [[.served .setAffinity true, .devices (some 1)],
    MultithreadIB.ppInitCtx.map (.served · true), List.replicate 2 (.served .postRecv true),
    [.port (some ⟨1, true⟩)], (MultithreadIB.exchange .client).map (.served · true),
    [.served .postSend true, .clock (some ⟨0, 0⟩), .polled 0, .polled 2, .entry ⟨2, 0, .send, 0⟩,
      .entry ⟨1, 0, .recv, 0⟩, .served .postRecv true, .clock (some ⟨1, 5⟩)],
    MultithreadIB.ppCloseCtx.map (.served · true), [.block 4096]]

def oneTrip : Thread := ⟨.multithreadIB ⟨0, 1, 2⟩ .client, 1, oneTripAnswers, rfl⟩

example : oneTrip.stored = some (4096, Throughput.timeDifference ⟨0, 0⟩ ⟨1, 5⟩) := rfl

end Thread

end Threads

section Joining

/-- How far main comes: it waits for a thread, perhaps until that one ends the process, or
reads where no memory is, or gets through. -/
inductive Joined
  | waiting
  | fault
  | time (t : ℚ)
  deriving DecidableEq

/-- Main, with the pointers that it has read through and the threads it had them from. -/
structure Main where
  reads : List (Thread × BitVec 64)
  joined : Joined

/-- `curTime = *((double *)result)` for one thread after another; a handle may be null. -/
def joinAll (memory : BitVec 64 → Option ℚ) (fold : ℚ → ℚ → ℚ) :
    List (Option Thread) → ℚ → Main
  | [], time => ⟨[], .time time⟩
  | none :: pthread, time => joinAll memory fold pthread time
  | some th :: pthread, time =>
    match th.result with
    | none => ⟨[], .waiting⟩
    | some result =>
      match memory result with
      | none => ⟨[(th, result)], .fault⟩
      | some curTime =>
        let rest := joinAll memory fold pthread (fold time curTime)
        ⟨(th, result) :: rest.reads, rest.joined⟩

/-- multithreadIB.c: the longest time of all threads. -/
def joinThreads (memory : BitVec 64 → Option ℚ) (pthread : List (Option Thread)) : Main :=
  joinAll memory (fun maxTime curTime => if maxTime < curTime then curTime else maxTime) pthread
    defaultThreadTime

/-- multistreamTestRunner.c: the time of the one thread. -/
def joinThread (memory : BitVec 64 → Option ℚ) (pthread : List (Option Thread)) : Main :=
  joinAll memory (fun _ curTime => curTime) pthread 0

/-- The threads up to the first that does not return. -/
def returned (pthread : List (Option Thread)) : List Thread :=
  pthread.reduceOption.takeWhile (fun th => th.result.isSome)

/-- The blocks of the threads. -/
def cells (pthread : List (Option Thread)) : List (BitVec 64 × ℚ) :=
  pthread.reduceOption.filterMap Thread.stored

variable {memory : BitVec 64 → Option ℚ} {fold : ℚ → ℚ → ℚ} {pthread : List (Option Thread)}
  {time : ℚ} {th : Thread}

theorem mem_reduceOption : th ∈ pthread.reduceOption ↔ some th ∈ pthread := by
  simp [List.reduceOption]

/-- The memory holds what the threads stored, at places for a `double` only. -/
structure Holds (memory : BitVec 64 → Option ℚ) (pthread : List (Option Thread)) : Prop where
  stored : ∀ th ∈ pthread.reduceOption, ∀ p t, th.stored = some (p, t) → memory p = some t
  aligned : ∀ p, ¬ FitsDouble p → memory p = none

theorem Holds.tail {handle : Option Thread} (h : Holds memory (handle :: pthread)) :
    Holds memory pthread := by
  refine ⟨?_, h.aligned⟩
  intro th hth
  rw [mem_reduceOption] at hth
  exact h.stored th (mem_reduceOption.mpr (List.mem_cons_of_mem _ hth))

theorem joinAll_waiting (h : th.result = none) :
    joinAll memory fold (some th :: pthread) time = ⟨[], .waiting⟩ := by
  rw [joinAll, h]

theorem joinAll_fault {p : BitVec 64} (h : th.result = some p) (hmemory : memory p = none) :
    joinAll memory fold (some th :: pthread) time = ⟨[(th, p)], .fault⟩ := by
  simp only [joinAll, h, hmemory]

theorem joinAll_read {p : BitVec 64} {t : ℚ} (h : th.result = some p)
    (hmemory : memory p = some t) : joinAll memory fold (some th :: pthread) time =
      ⟨(th, p) :: (joinAll memory fold pthread (fold time t)).reads,
        (joinAll memory fold pthread (fold time t)).joined⟩ := by
  simp only [joinAll, h, hmemory]

theorem returned_waiting (h : th.result = none) : returned (some th :: pthread) = [] := by
  rw [returned, List.reduceOption_cons_of_some, List.takeWhile_cons_of_neg]
  rw [h]
  exact Bool.false_ne_true

theorem returned_read {p : BitVec 64} (h : th.result = some p) :
    returned (some th :: pthread) = th :: returned pthread := by
  rw [returned, List.reduceOption_cons_of_some, List.takeWhile_cons_of_pos, returned]
  rw [h]
  rfl

/-- If no thread that main gets a result of has failed, every pointer that it reads
through is the address of the time of its thread. -/
theorem joinAll_sound (h : Holds memory pthread) (hgood : ∀ th ∈ returned pthread, ¬ th.Failed) :
    ∀ x ∈ (joinAll memory fold pthread time).reads,
      ∃ t, x.1.stored = some (x.2, t) ∧ memory x.2 = some t := by
  induction pthread generalizing time with
  | nil => exact fun x hx => absurd hx List.not_mem_nil
  | cons handle pthread ih =>
    cases handle with
    | none => exact ih h.tail hgood
    | some th =>
      cases hresult : th.result with
      | none =>
        rw [joinAll_waiting hresult]
        exact fun x hx => absurd hx List.not_mem_nil
      | some p =>
        rw [returned_read hresult] at hgood
        obtain ⟨hth, hrest⟩ := List.forall_mem_cons.mp hgood
        obtain ⟨-, t, hstored⟩ := (Thread.result_cases hresult).resolve_right
          (fun hbad => hth hbad.1)
        have hmemory := h.stored th (mem_reduceOption.mpr List.mem_cons_self) p t hstored
        rw [joinAll_read hresult hmemory]
        intro x hx
        rcases List.mem_cons.mp hx with rfl | hx
        · exact ⟨t, hstored, hmemory⟩
        · exact ih h.tail hrest x hx

/-- If one of them has, main reads through the code of the first. -/
theorem joinAll_unsound (h : Holds memory pthread) {bad : Thread} (hbad : bad ∈ returned pthread)
    (hfailed : bad.Failed) : ∃ x ∈ (joinAll memory fold pthread time).reads,
      x.1.stored = none := by
  induction pthread generalizing time with
  | nil => exact absurd hbad List.not_mem_nil
  | cons handle pthread ih =>
    cases handle with
    | none => exact ih h.tail hbad
    | some th =>
      cases hresult : th.result with
      | none =>
        rw [returned_waiting hresult] at hbad
        exact absurd hbad List.not_mem_nil
      | some p =>
        rcases Thread.result_cases hresult with ⟨hgood, t, hstored⟩ | ⟨-, hnone, haligned⟩
        · -- this one went well, and the failed one comes later
          have hmemory := h.stored th (mem_reduceOption.mpr List.mem_cons_self) p t hstored
          rw [returned_read hresult] at hbad
          rcases List.mem_cons.mp hbad with rfl | hbad
          · exact absurd hfailed hgood
          · rw [joinAll_read hresult hmemory]
            obtain ⟨x, hx, hnone⟩ := ih h.tail hbad
            exact ⟨x, List.mem_cons_of_mem _ hx, hnone⟩
        · rw [joinAll_fault hresult (h.aligned p haligned)]
          exact ⟨(th, p), List.mem_singleton_self _, hnone⟩

/-- Main gets through its joins only if every thread has stored a time. -/
theorem joinAll_time (h : Holds memory pthread) {t : ℚ}
    (htime : (joinAll memory fold pthread time).joined = .time t) :
    (∀ th ∈ pthread.reduceOption, th.stored.isSome) ∧
      t = ((cells pthread).map Prod.snd).foldl fold time := by
  induction pthread generalizing time with
  | nil =>
    obtain rfl : time = t := Joined.time.inj htime
    exact ⟨fun th hth => absurd hth List.not_mem_nil, rfl⟩
  | cons handle pthread ih =>
    cases handle with
    | none => exact ih h.tail htime
    | some th =>
      cases hresult : th.result with
      | none =>
        rw [joinAll_waiting hresult] at htime
        cases htime
      | some p =>
        rcases Thread.result_cases hresult with ⟨-, u, hstored⟩ | ⟨-, -, haligned⟩
        · have hmemory := h.stored th (mem_reduceOption.mpr List.mem_cons_self) p u hstored
          rw [joinAll_read hresult hmemory] at htime
          obtain ⟨hrest, ht⟩ := ih h.tail htime
          have hcells : cells (some th :: pthread) = (p, u) :: cells pthread := by
            rw [cells, List.reduceOption_cons_of_some, List.filterMap_cons_some hstored, cells]
          rw [List.reduceOption_cons_of_some, List.forall_mem_cons, hstored, hcells]
          exact ⟨⟨rfl, hrest⟩, ht⟩
        · rw [joinAll_fault hresult (h.aligned p haligned)] at htime
          cases htime

end Joining

section Rounds

/-- A round of one of the programs with its threads. Blocks that are in use at the same
time are different ones. -/
structure Round where
  program : Program
  varsize : ℕ
  count : ℕ
  pthread : List (Option Thread)
  started : ∀ th ∈ pthread.reduceOption, th.source.program = program
  handles : match program with
    | .multithreadIB => pthread.length = count
    | .multistreamTestRunner => ∃ th, pthread = [some th]
  distinct : ((cells pthread).map Prod.fst).Nodup

namespace Round

variable (r : Round)

def memory (p : BitVec 64) : Option ℚ := (cells r.pthread).lookup p

/-- The end of the round's turn in `main`, as far as the joins. -/
def main : Main :=
  match r.program with
  | .multithreadIB => joinThreads r.memory r.pthread
  | .multistreamTestRunner => joinThread r.memory r.pthread

/-- What is saved when they are over. -/
def row : Option SavedRound :=
  match r.main.joined with
  | .time t => some (r.program.figures (r.varsize, r.count) t)
  | _ => none

/-- Main reads times only where its threads stored them, and saves a row only if every
thread came to its normal end. -/
structure Sound : Prop where
  reads : ∀ x ∈ r.main.reads, ∃ t, x.1.stored = some (x.2, t) ∧ r.memory x.2 = some t
  saved : r.row.isSome → ∀ th ∈ r.pthread.reduceOption, th.stored.isSome

end Round

theorem lookup_of_mem {α β : Type} [DecidableEq α] {cells : List (α × β)} {a : α} {b : β}
    (h : (cells.map Prod.fst).Nodup) (hmem : (a, b) ∈ cells) : cells.lookup a = some b := by
  induction cells with
  | nil => exact absurd hmem List.not_mem_nil
  | cons c cells ih =>
    obtain ⟨hnotin, hnodup⟩ := List.nodup_cons.mp h
    rcases List.mem_cons.mp hmem with rfl | hmem
    · exact List.lookup_cons_self
    · have hne : (a == c.1) = false := by
        rw [beq_eq_false_iff_ne]
        intro heq
        exact hnotin (heq ▸ List.mem_map_of_mem hmem)
      rw [List.lookup_cons, hne]
      exact ih hnodup hmem

theorem Round.holds (r : Round) : Holds r.memory r.pthread where
  stored := by
    intro th hth p t hstored
    exact lookup_of_mem r.distinct (List.mem_filterMap.mpr ⟨th, hth, hstored⟩)
  aligned := by
    intro p hp
    rw [Round.memory, List.lookup_eq_none_iff]
    intro cell hcell
    obtain ⟨th, -, hstored⟩ := List.mem_filterMap.mp hcell
    have haligned := Thread.fits_of_stored hstored
    rw [bne_iff_ne]
    intro heq
    exact hp (heq ▸ haligned)

/-- Both mains join alike. -/
theorem Round.main_eq (r : Round) :
    ∃ fold time, r.main = joinAll r.memory fold r.pthread time := by
  unfold Round.main
  cases r.program with
  | multithreadIB => exact ⟨_, _, rfl⟩
  | multistreamTestRunner => exact ⟨_, _, rfl⟩

/-- Neither program ever saves a row for a round with a failed thread: its main does not
survive the read. -/
theorem Round.stored_of_row (r : Round) (h : r.row.isSome) :
    ∀ th ∈ r.pthread.reduceOption, th.stored.isSome := by
  obtain ⟨fold, time, hmain⟩ := r.main_eq
  cases hjoined : r.main.joined with
  | time t =>
    rw [hmain] at hjoined
    exact (joinAll_time r.holds hjoined).1
  | _ =>
    rw [Round.row, hjoined] at h
    cases h

/-- The row of multithreadIB.c is made from the longest of the threads' times. -/
theorem Round.row_multithreadIB (r : Round) (hprogram : r.program = .multithreadIB)
    {row : SavedRound} (h : r.row = some row) :
    row = Program.multithreadIB.figures (r.varsize, r.count)
      (maxThreadTime ((cells r.pthread).map Prod.snd)) := by
  have hmain : r.main = joinThreads r.memory r.pthread := by rw [Round.main, hprogram]
  rw [Round.row, hmain, hprogram] at h
  cases hjoined : (joinThreads r.memory r.pthread).joined with
  | time t =>
    obtain ⟨-, rfl⟩ := joinAll_time r.holds hjoined
    rw [hjoined] at h
    exact (Option.some.inj h).symm
  | _ =>
    rw [hjoined] at h
    cases h

theorem measured_iff (r : Round) :
    r.Sound ↔ ∀ th ∈ returned r.pthread, ∀ e ∈ th.answers, ¬ e.Failed th.source.Known := by
  obtain ⟨fold, time, hmain⟩ := r.main_eq
  constructor
  · intro hsound th hth e he hfailed
    obtain ⟨x, hx, hnone⟩ : ∃ x ∈ r.main.reads, x.1.stored = none := by
      rw [hmain]
      exact joinAll_unsound r.holds hth ⟨e, he, hfailed⟩
    obtain ⟨t, hstored, -⟩ := hsound.reads x hx
    rw [hnone] at hstored
    cases hstored
  · intro hgood
    refine ⟨?_, r.stored_of_row⟩
    rw [hmain]
    apply joinAll_sound r.holds
    rintro th hth ⟨e, he, hfailed⟩
    exact hgood th hth e he hfailed

/-- A client thread of a host without InfiniBand. -/
def noDevices : Thread where
  source := .multithreadIB ⟨0, 1, 500⟩ .client
  iters := 1000
  answers := [.served .setAffinity true, .devices none]
  whole := rfl

def noDevicesRound : Round where
  program := .multithreadIB
  varsize := 1
  count := 1
  pthread := [some noDevices]
  started := fun _ hth => by rw [List.mem_singleton.mp hth]; rfl
  handles := rfl
  distinct := List.nodup_nil

/-- Main reads a time at address 1. -/
theorem noDevices_read : ¬ ∀ r : Round, r.Sound := by
  intro h
  obtain ⟨t, hstored, -⟩ := (h noDevicesRound).reads (noDevices, 1) (List.mem_singleton_self _)
  cases hstored

end Rounds

end InfinibandWorkshop.Measurement
