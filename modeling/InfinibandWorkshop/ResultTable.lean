import InfinibandWorkshop.RoundHandover
import InfinibandWorkshop.Throughput

/-!
# The table of results

After every round `saveResults` stores six figures behind those of the rounds before;
at the end `createCSV` (`createResultFile` in Metrics.cpp) steps through the array six
cells at a time and writes one line for each step. The table holds the rounds saved and
then zeros. Neither function knows the length of the array: the callers' sweeps and the
length that they pass decide whether the cells exist.
-/
namespace InfinibandWorkshop.ResultTable
open Throughput (saveResults Row csvRow csvRow_saveResults)

section Saving

/-- What `saveResults` is called with after a round. -/
structure SavedRound where
  rtt : ℚ
  throughput : ℚ
  packetRate : ℚ
  numOfSockets : ℕ
  msgSize : ℕ
  totalNumOfMsg : ℕ

def SavedRound.save (a : SavedRound) (resultIndex : ℕ) (results : ℕ → ℚ) : (ℕ → ℚ) × ℕ :=
  saveResults a.rtt a.throughput a.packetRate resultIndex results a.numOfSockets a.msgSize
    a.totalNumOfMsg

/-- The stores of one call, in order. -/
def SavedRound.stores (a : SavedRound) (resultIndex : ℕ) : List (ℕ × ℚ) :=
  [(resultIndex, a.rtt), (resultIndex + 1, a.throughput), (resultIndex + 2, a.packetRate),
    (resultIndex + 3, a.numOfSockets), (resultIndex + 4, a.msgSize),
    (resultIndex + 5, a.totalNumOfMsg)]

theorem save_eq_stores (a : SavedRound) (i : ℕ) (results : ℕ → ℚ) :
    a.save i results = ((a.stores i).foldl (fun f c => Function.update f c.1 c.2) results,
      i + (a.stores i).length) := rfl

theorem mem_stores {a : SavedRound} {i k : ℕ} :
    k ∈ (a.stores i).map Prod.fst ↔ i ≤ k ∧ k < i + 6 := by
  simp only [SavedRound.stores, List.map_cons, List.map_nil, List.mem_cons, List.not_mem_nil,
    or_false]
  omega

theorem save_index (a : SavedRound) (i : ℕ) (results : ℕ → ℚ) :
    (a.save i results).2 = i + 6 := rfl

theorem foldl_update_of_notMem (cells : List (ℕ × ℚ)) (results : ℕ → ℚ) {k : ℕ}
    (hk : k ∉ cells.map Prod.fst) :
    cells.foldl (fun f c => Function.update f c.1 c.2) results k = results k := by
  induction cells generalizing results with
  | nil => rfl
  | cons c cells ih =>
    rw [List.map_cons, List.mem_cons, not_or] at hk
    obtain ⟨hne, hk⟩ := hk
    rw [List.foldl_cons, ih _ hk, Function.update_of_ne hne]

/-- The other cells keep what they held. -/
theorem save_frame (a : SavedRound) {i k : ℕ} (results : ℕ → ℚ) (hk : k < i ∨ i + 6 ≤ k) :
    (a.save i results).1 k = results k := by
  rw [save_eq_stores]
  apply foldl_update_of_notMem
  rw [mem_stores]
  omega

/-- Successive calls, each from the index that the one before returned. -/
def saveAll : List SavedRound → ℕ → (ℕ → ℚ) → ℕ → ℚ
  | [], _, results => results
  | a :: rounds, resultIndex, results =>
    saveAll rounds (a.save resultIndex results).2 (a.save resultIndex results).1

theorem saveAll_frame (rounds : List SavedRound) {i k : ℕ} (results : ℕ → ℚ)
    (hk : k < i ∨ i + 6 * rounds.length ≤ k) : saveAll rounds i results k = results k := by
  induction rounds generalizing i results with
  | nil => rfl
  | cons a rounds ih =>
    rw [List.length_cons] at hk
    rw [saveAll, ih _ (by rw [save_index]; omega), save_frame a results (by omega)]

end Saving

section Lines

/-- The cells that a line is made of, in the order of its columns. -/
def csvCells (i : ℕ) : List ℕ := [i + 3, i + 5, i + 4, i + 4, i + 3, i, i + 1, i + 2]

theorem mem_csvCells {i k : ℕ} : k ∈ csvCells i ↔ i ≤ k ∧ k < i + 6 := by
  simp only [csvCells, List.mem_cons, List.not_mem_nil, or_false]
  omega

/-- The conversion of a `double` to `int`. -/
def toInt (x : ℚ) : ℤ := x.num.tdiv x.den

/-- The line of `createResultFile`, which converts the packet size before it divides. -/
def resultRow (results : ℕ → ℚ) (i : ℕ) : Row :=
  { csvRow results i with sizePerMessage := toInt (results (i + 4)) / results (i + 3) }

variable {results results' : ℕ → ℚ} {i : ℕ}

/-- A line depends on its cells only. -/
theorem csvRow_congr (h : ∀ k ∈ csvCells i, results k = results' k) :
    csvRow results i = csvRow results' i := by
  have hcell : ∀ j < 6, results (i + j) = results' (i + j) := by
    intro j hj
    exact h _ (mem_csvCells.mpr ⟨by omega, by omega⟩)
  have h0 := hcell 0 (by omega)
  rw [Nat.add_zero] at h0
  simp only [csvRow, h0, hcell 1 (by omega), hcell 2 (by omega), hcell 3 (by omega),
    hcell 4 (by omega), hcell 5 (by omega)]

theorem resultRow_congr (h : ∀ k ∈ csvCells i, results k = results' k) :
    resultRow results i = resultRow results' i := by
  rw [resultRow, resultRow, csvRow_congr h, h (i + 4) (mem_csvCells.mpr ⟨by omega, by omega⟩),
    h (i + 3) (mem_csvCells.mpr ⟨by omega, by omega⟩)]

/-- The conversion does nothing to a packet size that is an integer. -/
theorem resultRow_eq_csvRow {m : ℕ} (h : results (i + 4) = m) :
    resultRow results i = csvRow results i := by
  have hint : ((toInt (results (i + 4)) : ℤ) : ℚ) = results (i + 4) := by
    rw [h, toInt, Rat.num_natCast, Rat.den_natCast, Nat.cast_one, Int.tdiv_one, Int.cast_natCast]
  rw [resultRow, hint]
  rfl

/-- The rounds that were saved are in the cells of their lines. -/
theorem csvRow_saveAll (rounds : List SavedRound) (i : ℕ) (results : ℕ → ℚ) {r : ℕ}
    (hr : r < rounds.length) : csvRow (saveAll rounds i results) (i + 6 * r) =
      ⟨rounds[r].numOfSockets, rounds[r].totalNumOfMsg, rounds[r].msgSize,
        rounds[r].msgSize / rounds[r].numOfSockets, rounds[r].rtt, rounds[r].throughput,
        rounds[r].packetRate⟩ := by
  induction rounds generalizing i results r with
  | nil => cases hr
  | cons a rounds ih =>
    cases r with
    | zero =>
      -- the later rounds are saved behind this one
      have hkeep : ∀ k ∈ csvCells i,
          saveAll (a :: rounds) i results k = (a.save i results).1 k := by
        intro k hk
        have hlt := (mem_csvCells.mp hk).2
        rw [saveAll, saveAll_frame rounds _ (by rw [save_index]; omega)]
      rw [Nat.mul_zero, Nat.add_zero, csvRow_congr hkeep]
      exact csvRow_saveResults _ _ _ _ _ _ _ _
    | succ r =>
      have hindex : i + 6 * (r + 1) = (a.save i results).2 + 6 * r := by
        rw [save_index]
        omega
      rw [saveAll, hindex]
      exact ih _ _ (Nat.lt_of_succ_lt_succ hr)

end Lines

section Files

/-- The texts of the columns. -/
inductive Column
  | results
  | sockets
  | messages
  | packetSize
  | sizePerMessage
  | rtt
  | throughput
  | packetRate
  deriving DecidableEq, Repr

def Column.text : Column → String
  | results => "Results"
  | sockets => "Number of Threads/Sockets[Integer]"
  | messages => "Number Of messages[Integer]"
  | packetSize => "Packet Size[Bytes]"
  | sizePerMessage => "Size per message[Bytes]"
  | rtt => "RTT[us]"
  | throughput => "Throughput[Mib/s]"
  | packetRate => "Packet Rate[P/s]"

def columns : List Column :=
  [.sockets, .messages, .packetSize, .sizePerMessage, .rtt, .throughput, .packetRate]

/-- The fields of a line in the order in which they are printed. -/
def fields (row : Row) : List (Option ℚ) :=
  [some row.numberOfSockets, some row.numberOfMessages, some row.packetSize,
    some row.sizePerMessage, some row.rtt, some row.throughput, some row.packetRate]

/-- A file with an optional line of its own before the header. A field that is left
empty is `none`. -/
structure ResultFile where
  title : Option Column
  header : List Column
  rows : List (List (Option ℚ))

/-- The loop over the array, `i += 6`. -/
def lines {α : Type} (line : ℕ → α) (n i : ℕ) : List α :=
  if i < n then line i :: lines line n (i + 6) else []
termination_by n - i

inductive Writer
  | createCSV
  | createResultFile
  deriving DecidableEq, Repr

/-- A line of either file; that of `createCSV` starts with an empty field. -/
def Writer.line : Writer → (ℕ → ℚ) → ℕ → List (Option ℚ)
  | createCSV, results, i => none :: fields (csvRow results i)
  | createResultFile, results, i => fields (resultRow results i)

def createCSV (results : ℕ → ℚ) (n : ℕ) : ResultFile :=
  ⟨none, .results :: columns, lines (Writer.createCSV.line results) n 0⟩

def createResultFile (resultLength : ℕ) (results : ℕ → ℚ) : ResultFile :=
  ⟨some .results, columns, lines (Writer.createResultFile.line results) resultLength 0⟩

def Writer.file : Writer → (ℕ → ℚ) → ℕ → ResultFile
  | .createCSV, results, n => ResultTable.createCSV results n
  | .createResultFile, results, n => ResultTable.createResultFile n results

/-- What stands under a column of the header in line `r`. -/
def ResultFile.under (file : ResultFile) (r : ℕ) (column : Column) : Option ℚ :=
  ((file.rows[r]?.getD [])[file.header.idxOf column]?).join

/-- The figure of a round that belongs under a column. -/
def SavedRound.value (a : SavedRound) : Column → Option ℚ
  | .results => none
  | .sockets => some a.numOfSockets
  | .messages => some a.totalNumOfMsg
  | .packetSize => some a.msgSize
  | .sizePerMessage => some (a.msgSize / a.numOfSockets)
  | .rtt => some a.rtt
  | .throughput => some a.throughput
  | .packetRate => some a.packetRate

variable {α : Type} {line : ℕ → α}

theorem lines_getElem? {n i r : ℕ} (hr : i + 6 * r < n) :
    (lines line n i)[r]? = some (line (i + 6 * r)) := by
  induction r generalizing i with
  | zero =>
    rw [lines, if_pos (by omega)]
    rfl
  | succ r ih =>
    have hindex : i + 6 * (r + 1) = i + 6 + 6 * r := by omega
    rw [lines, if_pos (by omega), List.getElem?_cons_succ, ih (by omega), hindex]

theorem lines_length {n m i : ℕ} (hn : n = i + 6 * m) : (lines line n i).length = m := by
  induction m generalizing i with
  | zero =>
    rw [lines, if_neg (by omega)]
    rfl
  | succ m ih => rw [lines, if_pos (by omega), List.length_cons, ih (by omega)]

theorem file_rows (writer : Writer) (results : ℕ → ℚ) (n : ℕ) :
    (writer.file results n).rows = lines (writer.line results) n 0 := by
  cases writer <;> rfl

theorem line_congr (writer : Writer) {results results' : ℕ → ℚ} {i : ℕ}
    (h : ∀ k ∈ csvCells i, results k = results' k) :
    writer.line results i = writer.line results' i := by
  cases writer with
  | createCSV => rw [Writer.line, Writer.line, csvRow_congr h]
  | createResultFile => rw [Writer.line, Writer.line, resultRow_congr h]

/-- The array after the rounds were saved into zeros. -/
def saved (rounds : List SavedRound) : ℕ → ℚ := saveAll rounds 0 (fun _ => 0)

/-- In the line of a saved round, each figure stands under its column. -/
theorem under_saved (writer : Writer) (rounds : List SavedRound) {n r : ℕ}
    (hr : r < rounds.length) (hroom : 6 * rounds.length ≤ n) (column : Column) :
    (writer.file (saved rounds) n).under r column = rounds[r].value column := by
  have hrow := csvRow_saveAll rounds 0 (fun _ => 0) hr
  rw [← saved] at hrow
  have hsize : saved rounds (0 + 6 * r + 4) = rounds[r].msgSize := congrArg Row.packetSize hrow
  have hline : (lines (writer.line (saved rounds)) n 0)[r]? =
      some (writer.line (saved rounds) (0 + 6 * r)) := lines_getElem? (by omega)
  rw [ResultFile.under, file_rows, hline, Option.getD_some]
  cases writer with
  | createCSV =>
    rw [Writer.line, hrow]
    cases column <;> rfl
  | createResultFile =>
    rw [Writer.line, resultRow_eq_csvRow hsize, hrow]
    cases column <;> rfl

/-- The file has a line for every six cells; the first ones are the rounds, column by
column, and the others are what zeros give, where the source prints 0/0 as a NaN. -/
structure Tabulates (writer : Writer) (rounds : List SavedRound) (n : ℕ) : Prop where
  count : (writer.file (saved rounds) n).rows.length = n / 6
  figures : ∀ (r : ℕ) (hr : r < rounds.length) (column : Column),
    (writer.file (saved rounds) n).under r column = rounds[r].value column
  rest : ∀ r, rounds.length ≤ r → r < n / 6 →
    (∀ k ∈ csvCells (6 * r), saved rounds k = 0) ∧
      (writer.file (saved rounds) n).rows[r]? = some (writer.line (fun _ => 0) (6 * r))

theorem results_table (writer : Writer) (rounds : List SavedRound) {n : ℕ} (hdvd : 6 ∣ n)
    (hroom : 6 * rounds.length ≤ n) : Tabulates writer rounds n where
  count := by
    rw [file_rows, lines_length (m := n / 6)]
    omega
  figures := fun r hr column => under_saved writer rounds hr hroom column
  rest := by
    intro r hr hlt
    have hzero : ∀ k ∈ csvCells (6 * r), saved rounds k = 0 := by
      intro k hk
      have hle := (mem_csvCells.mp hk).1
      rw [saved, saveAll_frame rounds _ (by omega)]
    refine ⟨hzero, ?_⟩
    have hindex : 0 + 6 * r < n := by omega
    rw [file_rows, lines_getElem? hindex, Nat.zero_add, line_congr writer hzero]

/-- One round in an array of twelve cells. -/
theorem results_table_oneRound : Tabulates .createCSV [⟨20, 80, 5, 2, 8, 6⟩] 12 :=
  results_table .createCSV _ (by decide) (by decide)

end Files

section Bounds

open Handover (multistreamRounds multithreadRounds doublings maxMsgSize)
open Throughput (calcAverageRTT calcAverageThroughput calcAveragePacketRate)

/-- The indices that successive calls of `saveResults` store to. -/
def writtenCells : List SavedRound → ℕ → List ℕ
  | [], _ => []
  | a :: rounds, resultIndex =>
    (a.stores resultIndex).map Prod.fst ++
      writtenCells rounds (resultIndex + (a.stores resultIndex).length)

/-- The indices that the loop of `createCSV` reads when it is given `n`. -/
def readCells (n : ℕ) : List ℕ := (lines csvCells n 0).flatten

theorem mem_writtenCells {rounds : List SavedRound} {i k : ℕ} :
    k ∈ writtenCells rounds i ↔ i ≤ k ∧ k < i + 6 * rounds.length := by
  induction rounds generalizing i with
  | nil =>
    rw [writtenCells, List.length_nil]
    simp
  | cons a rounds ih =>
    have hlen : (a.stores i).length = 6 := rfl
    rw [writtenCells, List.mem_append, mem_stores, hlen, ih, List.length_cons]
    omega

theorem mem_lines {α : Type} {line : ℕ → α} {n i : ℕ} {x : α} :
    x ∈ lines line n i ↔ ∃ r, i + 6 * r < n ∧ x = line (i + 6 * r) := by
  fun_induction lines line n i with
  | case1 i hlt ih =>
    rw [List.mem_cons, ih]
    constructor
    · rintro (rfl | ⟨r, hr, rfl⟩)
      · exact ⟨0, hlt, rfl⟩
      · have hindex : i + 6 + 6 * r = i + 6 * (r + 1) := by omega
        exact ⟨r + 1, by omega, by rw [hindex]⟩
    · rintro ⟨r, hr, rfl⟩
      cases r with
      | zero => exact Or.inl rfl
      | succ r =>
        have hindex : i + 6 * (r + 1) = i + 6 + 6 * r := by omega
        exact Or.inr ⟨r, by omega, by rw [hindex]⟩
  | case2 i hlt =>
    simp only [List.not_mem_nil, false_iff, not_exists]
    omega

theorem mem_readCells {n k : ℕ} : k ∈ readCells n ↔ ∃ r, 6 * r < n ∧ 6 * r ≤ k ∧ k < 6 * r + 6 := by
  rw [readCells, List.mem_flatten]
  constructor
  · rintro ⟨cells, hcells, hk⟩
    obtain ⟨r, hr, rfl⟩ := mem_lines.mp hcells
    rw [Nat.zero_add] at hr hk
    exact ⟨r, hr, mem_csvCells.mp hk⟩
  · rintro ⟨r, hr, hk⟩
    refine ⟨csvCells (0 + 6 * r), mem_lines.mpr ⟨r, by omega, rfl⟩, ?_⟩
    rw [Nat.zero_add]
    exact mem_csvCells.mpr hk

/-- The last line starts in the array and ends in it only if the lines fill it. -/
theorem readCells_lt_iff {n : ℕ} : (∀ k ∈ readCells n, k < n) ↔ 6 ∣ n := by
  constructor
  · intro h
    by_contra hdvd
    have hlast : n ∈ readCells n := mem_readCells.mpr ⟨n / 6, by omega, by omega, by omega⟩
    exact lt_irrefl n (h n hlast)
  · intro hdvd k hk
    obtain ⟨r, hr, hle, hlt⟩ := mem_readCells.mp hk
    omega

theorem writtenCells_lt_iff (rounds : List SavedRound) (n : ℕ) :
    (∀ k ∈ writtenCells rounds 0, k < n) ↔ 6 * rounds.length ≤ n := by
  constructor
  · intro h
    by_contra hlt
    have hmem : n ∈ writtenCells rounds 0 := mem_writtenCells.mpr (by omega)
    exact lt_irrefl n (h n hmem)
  · intro hle k hk
    have hlt := (mem_writtenCells.mp hk).2
    omega

/-- The programs that sweep over message sizes and write one table at the end. -/
inductive Program
  | multistreamTestRunner
  | multithreadIB
  deriving DecidableEq, Repr

namespace Program

/-- The length that `results` is declared with, and that `createCSV` is given. -/
def resultsLength : Program → ℕ
  | multistreamTestRunner => 3000
  | multithreadIB => 1000

/-- Message size and number of QPs or threads of each round, by the command line. -/
def rounds : Program → ℕ → List (ℕ × ℕ)
  | multistreamTestRunner => multistreamRounds
  | multithreadIB => multithreadRounds

def defaultNumOfMsgs : ℕ := 1000

/-- What `main` saves of a round that took `time`. -/
def figures : Program → ℕ × ℕ → ℚ → SavedRound
  | multistreamTestRunner, (varsize, numOfQps), time =>
    { rtt := calcAverageRTT numOfQps defaultNumOfMsgs time
      throughput := calcAverageThroughput defaultNumOfMsgs varsize time / numOfQps
      packetRate := calcAveragePacketRate defaultNumOfMsgs time / numOfQps
      numOfSockets := numOfQps
      msgSize := varsize
      totalNumOfMsg := defaultNumOfMsgs }
  | multithreadIB, (varsize, numThreads), time =>
    { rtt := calcAverageRTT 1 (defaultNumOfMsgs * numThreads) time
      throughput := calcAverageThroughput (defaultNumOfMsgs * numThreads) varsize time
      packetRate := calcAveragePacketRate (defaultNumOfMsgs * numThreads) time
      numOfSockets := numThreads
      msgSize := varsize
      totalNumOfMsg := numThreads * defaultNumOfMsgs }

/-- The rounds of a whole sweep, with the time that each of them took. -/
def sweep (prog : Program) (arg : ℕ) (times : ℕ → ℚ) : List SavedRound :=
  (prog.rounds arg).mapIdx (fun r round => prog.figures round (times r))

/-- Every cell that the sweep stores to, and every cell that is read for the table, is in
the array. -/
structure InBounds (prog : Program) (arg : ℕ) (times : ℕ → ℚ) : Prop where
  written : ∀ k ∈ writtenCells (prog.sweep arg times) 0, k < prog.resultsLength
  read : ∀ k ∈ readCells prog.resultsLength, k < prog.resultsLength

theorem length_doublings : (doublings maxMsgSize).length = 21 := by decide

theorem length_multistreamRounds (peerNum : ℕ) :
    (multistreamRounds peerNum).length = 21 * peerNum := by
  simp only [multistreamRounds, List.length_flatMap, List.length_map, List.length_range,
    List.map_const', List.sum_replicate, smul_eq_mul, length_doublings]

theorem length_sweep (prog : Program) (arg : ℕ) (times : ℕ → ℚ) :
    (prog.sweep arg times).length = (prog.rounds arg).length := List.length_mapIdx

theorem length_multithreadRounds (maxThreadNum : ℕ) :
    (multithreadRounds maxThreadNum).length = 21 * (doublings maxThreadNum).length := by
  simp only [multithreadRounds, List.length_flatMap, List.length_map, List.map_const',
    List.sum_replicate, smul_eq_mul, length_doublings]

theorem written_lt_iff (prog : Program) (arg : ℕ) (times : ℕ → ℚ) :
    (∀ k ∈ writtenCells (prog.sweep arg times) 0, k < prog.resultsLength) ↔
      6 * (prog.rounds arg).length ≤ prog.resultsLength := by
  rw [writtenCells_lt_iff, length_sweep]

/-- What a whole sweep saves is in the array, however long the rounds took. -/
def StoresFit (prog : Program) (arg : ℕ) : Prop :=
  ∀ times, ∀ k ∈ writtenCells (prog.sweep arg times) 0, k < prog.resultsLength

theorem multistream_storesFit {peerNum : ℕ} (h : peerNum ≤ 23) :
    multistreamTestRunner.StoresFit peerNum := by
  intro times
  rw [written_lt_iff, rounds, length_multistreamRounds, resultsLength]
  omega

theorem multithread_storesFit {maxThreadNum : ℕ} (h : maxThreadNum < 128) :
    multithreadIB.StoresFit maxThreadNum := by
  intro times
  have hlen : (doublings maxThreadNum).length ≤ 7 := Handover.length_doublings_le h
  rw [written_lt_iff, rounds, length_multithreadRounds, resultsLength]
  omega

/-- 1000 cells are no whole number of lines, so that the last line of multithreadIB.c
ends behind the array; multistreamTestRunner.c has room for 500 rounds. -/
theorem inBounds_iff (prog : Program) (arg : ℕ) (times : ℕ → ℚ) :
    prog.InBounds arg times ↔ prog = multistreamTestRunner ∧ arg ≤ 23 := by
  have hwritten := written_lt_iff prog arg times
  cases prog with
  | multistreamTestRunner =>
    rw [rounds, length_multistreamRounds, resultsLength] at hwritten
    have hread : ∀ k ∈ readCells 3000, k < 3000 := readCells_lt_iff.mpr (by decide)
    constructor
    · intro h
      have hle := hwritten.mp h.written
      exact ⟨rfl, by omega⟩
    · rintro ⟨-, hle⟩
      exact ⟨hwritten.mpr (by omega), hread⟩
  | multithreadIB =>
    constructor
    · intro h
      have hdvd : 6 ∣ 1000 := readCells_lt_iff.mp h.read
      omega
    · rintro ⟨hprog, -⟩
      cases hprog

/-- With one thread, the table of multithreadIB.c is read from two cells too many. -/
theorem oneThread_reads_behind : ¬ ∀ (prog : Program) (arg : ℕ) (times : ℕ → ℚ), 1 ≤ arg →
    (prog = multithreadIB → arg < 2 ^ 30) → prog.InBounds arg times := by
  intro h
  have hread := (h multithreadIB 1 (fun _ => 0) le_rfl (fun _ => by decide)).read
  have hmem : 1001 ∈ readCells 1000 := mem_readCells.mpr ⟨166, by decide, by decide, by decide⟩
  have hlt : 1001 < 1000 := hread 1001 hmem
  omega

end Program

end Bounds

end InfinibandWorkshop.ResultTable
