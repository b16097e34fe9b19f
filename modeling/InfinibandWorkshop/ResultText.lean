import InfinibandWorkshop.Decimals
import InfinibandWorkshop.ResultTable

/-!
# The text of the result files

`createCSV` prints its figures with a fixed number of decimals, `createResultFile` with a
number of significant digits that depends on the column. Read again as lines of fields,
with blanks ignored, either file has every figure of every saved round under its column,
rounded the way it was printed. A figure that was divided by zero is no number.
-/
namespace InfinibandWorkshop.ResultTable
open Decimal

section Separators

variable {x : Char} {ls : List (List Char)}

/-- Lines that are each ended are found again, and an empty one behind the last end. -/
theorem splitOn_flatMap (h : ∀ l ∈ ls, x ∉ l) :
    (ls.flatMap (fun l => l ++ [x])).splitOn x = ls ++ [[]] := by
  induction ls with
  | nil => rfl
  | cons l ls ih =>
    rw [List.forall_mem_cons] at h
    rw [List.flatMap_cons, List.append_assoc, List.singleton_append,
      List.splitOn_append_cons_self_of_not_mem h.1, ih h.2, List.cons_append]

theorem notMem_intercalate {c : Char} (hx : c ≠ x) (h : ∀ l ∈ ls, c ∉ l) :
    c ∉ [x].intercalate ls := by
  induction ls with
  | nil => exact List.not_mem_nil
  | cons l ls ih =>
    rw [List.forall_mem_cons] at h
    cases ls with
    | nil =>
      rw [List.intercalate_singleton]
      exact h.1
    | cons l' ls =>
      rw [List.intercalate_cons_cons, List.mem_append, List.mem_append, List.mem_singleton,
        not_or, not_or]
      exact ⟨⟨h.1, hx⟩, ih h.2⟩

end Separators

section Printing

/-- A `double`, as far as it is printed. -/
inductive Figure
  | finite (x : ℚ)
  | infinite (negative : Bool)
  | nan
  deriving DecidableEq

def divide (x y : ℚ) : Figure :=
  if y ≠ 0 then .finite (x / y) else if x = 0 then .nan else .infinite (x < 0)

/-- The sign of 0/0 is set. -/
def Figure.text (digits : ℚ → List Char) : Figure → List Char
  | .finite x => digits x
  | .infinite negative => if negative then ['-', 'i', 'n', 'f'] else ['i', 'n', 'f']
  | .nan => ['-', 'n', 'a', 'n']

/-- `fprintf(fp, ",%.df", x)`, with what the format has behind the number. -/
def fprintf (d : ℕ) (x : Figure) (tail : List Char) : List Char :=
  ',' :: (x.text (fixed d) ++ tail)

/-- The loop body of `createCSV`. -/
def csvText (results : ℕ → ℚ) (i : ℕ) : List Char :=
  fprintf 0 (.finite (results (i + 3))) [' '] ++
  fprintf 0 (.finite (results (i + 5))) [' '] ++
  fprintf 0 (.finite (results (i + 4))) [] ++
  fprintf 2 (divide (results (i + 4)) (results (i + 3))) [] ++
  fprintf 2 (.finite (results i)) [' '] ++
  fprintf 2 (.finite (results (i + 1))) [' '] ++
  fprintf 2 (.finite (results (i + 2))) ['\n']

/-- `ss << setprecision(p) << x << endl` -/
def stream (p : ℕ) (x : Figure) : List Char := x.text (general p) ++ ['\n']

/-- The loop body of `createResultFile`. -/
def resultText (results : ℕ → ℚ) (i : ℕ) : List Char :=
  let rttSS := stream 5 (.finite (results i))
  let throughputSS := stream 5 (.finite (results (i + 1)))
  let packetRateSS := stream 5 (.finite (results (i + 2)))
  let packetSizeSS := stream 6 (.finite (results (i + 4)))
  let numOfSocketsSS := stream 1 (.finite (results (i + 3)))
  let totalNumOfMsgsSS := stream 5 (.finite (results (i + 5)))
  let msgSizeSS := stream 5 (divide (toInt (results (i + 4))) (results (i + 3)))
  let writeToFile := numOfSocketsSS ++ [','] ++ totalNumOfMsgsSS ++ [','] ++ packetSizeSS ++
    [','] ++ msgSizeSS ++ [','] ++ rttSS ++ [','] ++ throughputSS ++ [','] ++ packetRateSS
  writeToFile.filter (· ≠ '\n') ++ ['\n']

/-- The line with the headings. -/
def Writer.header : Writer → List Column
  | createCSV => .results :: columns
  | createResultFile => columns

/-- And one before it in the second file. -/
def Writer.title : Writer → List (List Column)
  | createCSV => []
  | createResultFile => [[.results]]

def headings (line : List Column) : List (List Char) := line.map (fun column => column.text.toList)

def headText (line : List Column) : List Char := [','].intercalate (headings line) ++ ['\n']

def Writer.body : Writer → (ℕ → ℚ) → ℕ → List Char
  | createCSV => csvText
  | createResultFile => resultText

/-- The whole file. -/
def Writer.text (writer : Writer) (results : ℕ → ℚ) (n : ℕ) : List Char :=
  (writer.title ++ [writer.header]).flatMap headText ++ (lines (writer.body results) n 0).flatten

end Printing

section Fields

/-- What is printed under a column. -/
def Writer.figure (writer : Writer) (results : ℕ → ℚ) (i : ℕ) : Column → Option Figure
  | .results => none
  | .sockets => some (.finite (results (i + 3)))
  | .messages => some (.finite (results (i + 5)))
  | .packetSize => some (.finite (results (i + 4)))
  | .sizePerMessage => some <| match writer with
    | createCSV => divide (results (i + 4)) (results (i + 3))
    | createResultFile => divide (toInt (results (i + 4))) (results (i + 3))
  | .rtt => some (.finite (results i))
  | .throughput => some (.finite (results (i + 1)))
  | .packetRate => some (.finite (results (i + 2)))

/-- With how many decimals or significant digits. -/
def Writer.precision : Writer → Column → ℕ
  | createCSV, .sockets | createCSV, .messages | createCSV, .packetSize => 0
  | createCSV, _ => 2
  | createResultFile, .sockets => 1
  | createResultFile, .packetSize => 6
  | createResultFile, _ => 5

def Writer.digits : Writer → ℕ → ℚ → List Char
  | createCSV => fixed
  | createResultFile => general

/-- The number that the digits stand for. -/
def Writer.rounded : Writer → ℕ → ℚ → ℚ
  | createCSV => toDecimals
  | createResultFile => toSignificant

/-- A blank behind the number, in some columns of `createCSV`. -/
def Writer.tail : Writer → Column → List Char
  | createCSV, .sockets | createCSV, .messages | createCSV, .rtt | createCSV, .throughput => [' ']
  | _, _ => []

def Writer.field (writer : Writer) (results : ℕ → ℚ) (i : ℕ) (column : Column) : List Char :=
  match writer.figure results i column with
  | none => []
  | some x => x.text (writer.digits (writer.precision column)) ++ writer.tail column

variable (writer : Writer) (results : ℕ → ℚ) (i : ℕ)

theorem numeral_digits (p : ℕ) (x : ℚ) : Numeral (writer.digits p x) := by
  cases writer with
  | createCSV => exact numeral_fixed p x
  | createResultFile => exact numeral_general p x

theorem number_digits (column : Column) (x : ℚ) :
    number (writer.digits (writer.precision column) x) =
      some (writer.rounded (writer.precision column) x) := by
  cases writer with
  | createCSV => exact number_fixed _ x
  | createResultFile =>
    apply number_general
    cases column <;> decide

theorem notMem_text {digits : ℚ → List Char} (hdigits : ∀ x, Numeral (digits x)) {c : Char}
    (hdigit : c.isDigit = false) (hc : c ∉ ['-', '+', '.', 'e', 'i', 'n', 'f', 'a'])
    (x : Figure) : c ∉ x.text digits := by
  simp only [List.mem_cons, List.not_mem_nil, or_false, not_or] at hc
  cases x with
  | finite x =>
    exact (hdigits x).notMem hdigit (by simp only [List.mem_cons, List.not_mem_nil]; tauto)
  | infinite negative => cases negative <;> simp [Figure.text] <;> tauto
  | nan => simp [Figure.text]; tauto

theorem filter_text {digits : ℚ → List Char} (hdigits : ∀ x, Numeral (digits x)) {c : Char}
    (hdigit : c.isDigit = false) (hc : c ∉ ['-', '+', '.', 'e', 'i', 'n', 'f', 'a'])
    (x : Figure) : (x.text digits).filter (· ≠ c) = x.text digits := by
  rw [List.filter_eq_self]
  intro b hb
  have hnot := notMem_text hdigits hdigit hc x
  rw [decide_eq_true_eq]
  rintro rfl
  exact hnot hb

theorem filter_stream (p : ℕ) (x : Figure) :
    (stream p x).filter (· ≠ '\n') = x.text (general p) := by
  rw [stream, List.filter_append, filter_text (numeral_general p) (by decide) (by decide)]
  simp

/-- A line has the fields of its columns, with commas between them. -/
theorem body_eq : writer.body results i =
    [','].intercalate (writer.header.map (writer.field results i)) ++ ['\n'] := by
  cases writer with
  | createCSV =>
    simp [Writer.body, csvText, fprintf, Writer.header, columns, Writer.field, Writer.figure,
      Writer.digits, Writer.precision, Writer.tail]
  | createResultFile =>
    simp only [Writer.body, resultText, List.filter_append, filter_stream]
    simp [Writer.header, columns, Writer.field, Writer.figure, Writer.digits, Writer.precision,
      Writer.tail]

/-- No field has a separator in it. -/
theorem notMem_field {c : Char} (hc : c = ',' ∨ c = '\n') (column : Column) :
    c ∉ writer.field results i column := by
  have hdigit : c.isDigit = false := by rcases hc with rfl | rfl <;> decide
  have hother : c ∉ ['-', '+', '.', 'e', 'i', 'n', 'f', 'a'] := by
    rcases hc with rfl | rfl <;> decide
  have htail : c ∉ writer.tail column := by
    rcases hc with rfl | rfl <;> cases writer <;> cases column <;> decide
  unfold Writer.field
  split
  · exact List.not_mem_nil
  · next x _ =>
    rw [List.mem_append, not_or]
    exact ⟨notMem_text (numeral_digits writer _) hdigit hother x, htail⟩

theorem notMem_headings {c : Char} (hc : c = ',' ∨ c = '\n') (line : List Column) :
    ∀ field ∈ headings line, c ∉ field := by
  intro field hfield
  obtain ⟨column, _, rfl⟩ := List.mem_map.mp hfield
  rcases hc with rfl | rfl
  · cases column <;> decide
  · cases column <;> decide

end Fields

section Reading

/-- The lines of a text, each with its fields. -/
def readTable (text : List Char) : List (List (List Char)) :=
  (text.splitOn '\n').map (fun line => line.splitOn ',')

/-- The number under a heading in line `r` behind the header. -/
def Writer.read (writer : Writer) (text : List Char) (r : ℕ) (column : Column) : Option ℚ := do
  let header ← (readTable text)[writer.title.length]?
  let fields ← (readTable text)[writer.title.length + 1 + r]?
  let field ← fields[header.idxOf column.text.toList]?
  number (field.filter (· ≠ ' '))

theorem lines_map {α β : Type} (f : ℕ → α) (g : α → β) (n i : ℕ) :
    (lines f n i).map g = lines (fun i => g (f i)) n i := by
  fun_induction lines f n i with
  | case1 i hlt ih =>
    conv_rhs => rw [lines, if_pos hlt]
    rw [List.map_cons, ih]
  | case2 i hlt =>
    rw [lines, if_neg hlt]
    rfl

/-- Lines of fields without separators are read as such. -/
theorem readTable_flatMap {table : List (List (List Char))} (hne : ∀ line ∈ table, line ≠ [])
    (h : ∀ line ∈ table, ∀ field ∈ line, ',' ∉ field ∧ '\n' ∉ field) :
    readTable (table.flatMap (fun line => [','].intercalate line ++ ['\n'])) =
      table ++ [[[]]] := by
  have hends : ∀ l ∈ table.map (fun line => [','].intercalate line), '\n' ∉ l := by
    intro l hl
    obtain ⟨line, hline, rfl⟩ := List.mem_map.mp hl
    exact notMem_intercalate (by decide) (fun field hfield => (h line hline field hfield).2)
  have hlines := splitOn_flatMap hends
  rw [List.flatMap_map] at hlines
  rw [readTable, hlines, List.map_append, List.map_map]
  congr 1
  conv_rhs => rw [← List.map_id table]
  apply List.map_congr_left
  intro line hline
  exact List.splitOn_intercalate ',' (fun field hfield => (h line hline field hfield).1)
    (hne line hline)

variable (writer : Writer) (results : ℕ → ℚ)

theorem headings_ne_nil : ∀ line ∈ (writer.title ++ [writer.header]).map headings, line ≠ [] := by
  cases writer <;> decide

theorem header_ne_nil : writer.header ≠ [] := by
  cases writer <;> exact List.cons_ne_nil _ _

/-- The file, read as a table. -/
theorem readTable_text (n : ℕ) : readTable (writer.text results n) =
    (writer.title ++ [writer.header]).map headings ++
      lines (fun i => writer.header.map (writer.field results i)) n 0 ++ [[[]]] := by
  have htext : writer.text results n =
      ((writer.title ++ [writer.header]).map headings ++
        lines (fun i => writer.header.map (writer.field results i)) n 0).flatMap
        (fun line => [','].intercalate line ++ ['\n']) := by
    have hbody : writer.body results = fun i =>
        [','].intercalate (writer.header.map (writer.field results i)) ++ ['\n'] :=
      funext (body_eq writer results)
    rw [Writer.text, hbody]
    conv_rhs => rw [List.flatMap_append, List.flatMap_map, List.flatMap_def (l := lines _ _ _),
      lines_map]
    rfl
  rw [htext]
  apply readTable_flatMap
  · intro line hline
    rcases List.mem_append.mp hline with hline | hline
    · exact headings_ne_nil writer line hline
    · obtain ⟨r, _, rfl⟩ := mem_lines.mp hline
      exact fun h => header_ne_nil writer (List.map_eq_nil_iff.mp h)
  · intro line hline field hfield
    rcases List.mem_append.mp hline with hline | hline
    · obtain ⟨columns, _, rfl⟩ := List.mem_map.mp hline
      exact ⟨notMem_headings (.inl rfl) _ field hfield, notMem_headings (.inr rfl) _ field hfield⟩
    · obtain ⟨r, _, rfl⟩ := mem_lines.mp hline
      obtain ⟨column, _, rfl⟩ := List.mem_map.mp hfield
      exact ⟨notMem_field writer results _ (.inl rfl) column,
        notMem_field writer results _ (.inr rfl) column⟩

def Figure.read (round : ℚ → ℚ) : Figure → Option ℚ
  | .finite x => some (round x)
  | .infinite _ | .nan => none

theorem number_special : number [] = none ∧ number ['i', 'n', 'f'] = none ∧
    number ['-', 'i', 'n', 'f'] = none ∧ number ['-', 'n', 'a', 'n'] = none := by
  have hnil : unsigned [] = none :=
    unsigned_eq_none (fun h => h.1 rfl) List.not_mem_nil List.not_mem_nil
  have hinf : unsigned ['i', 'n', 'f'] = none :=
    unsigned_eq_none (fun h => h.notMem (c := 'n') (by decide) (by simp)) (by simp) (by simp)
  have hnan : unsigned ['n', 'a', 'n'] = none :=
    unsigned_eq_none (fun h => h.notMem (c := 'n') (by decide) (by simp)) (by simp) (by simp)
  simp [number, hnil, hinf, hnan]

theorem number_field (i : ℕ) (column : Column) :
    number ((writer.field results i column).filter (· ≠ ' ')) =
      (writer.figure results i column).bind
        (Figure.read (writer.rounded (writer.precision column))) := by
  have htail : (writer.tail column).filter (· ≠ ' ') = [] := by
    cases writer <;> cases column <;> decide
  unfold Writer.field
  cases writer.figure results i column with
  | none => exact number_special.1
  | some x =>
    rw [List.filter_append, filter_text (numeral_digits writer _) (by decide) (by decide), htail,
      List.append_nil, Option.bind_some]
    cases x with
    | finite x => exact number_digits writer column x
    | infinite negative =>
      cases negative with
      | true => exact number_special.2.2.1
      | false => exact number_special.2.1
    | nan => exact number_special.2.2.2

theorem idxOf_headings (column : Column) :
    (headings writer.header).idxOf column.text.toList = writer.header.idxOf column := by
  cases writer <;> cases column <;> decide

/-- Under every column of a line stands what was printed there, rounded. -/
theorem read_text {n r : ℕ} (hr : 6 * r < n) (column : Column) :
    writer.read (writer.text results n) r column =
      (writer.figure results (6 * r) column).bind
        (Figure.read (writer.rounded (writer.precision column))) := by
  have hline : (lines (fun i => writer.header.map (writer.field results i)) n 0)[r]? =
      some (writer.header.map (writer.field results (0 + 6 * r))) := lines_getElem? (by omega)
  rw [Nat.zero_add] at hline
  have hheader : (readTable (writer.text results n))[writer.title.length]? =
      some (headings writer.header) := by
    rw [readTable_text]
    cases writer <;> rfl
  have hrow : (readTable (writer.text results n))[writer.title.length + 1 + r]? =
      some (writer.header.map (writer.field results (6 * r))) := by
    have hlt := (List.getElem?_eq_some_iff.mp hline).1
    have hlen : ((writer.title ++ [writer.header]).map headings).length =
        writer.title.length + 1 := by simp
    rw [readTable_text, List.append_assoc, List.getElem?_append_right (by omega), hlen,
      Nat.add_sub_cancel_left, List.getElem?_append_left hlt, hline]
  simp only [Writer.read, hheader, hrow, Option.bind_eq_bind, Option.bind_some, idxOf_headings]
  by_cases hmem : column ∈ writer.header
  · rw [List.getElem?_map, List.getElem?_idxOf hmem, Option.map_some, Option.bind_some,
      number_field]
  · -- the first file has a heading without a figure, the second one not even that
    have hnone : writer.figure results (6 * r) column = none := by
      cases writer <;> cases column <;> first | rfl | exact absurd (by decide) hmem
    have hout : (writer.header.map (writer.field results (6 * r)))[writer.header.idxOf column]? =
        none := by
      rw [List.getElem?_eq_none_iff, List.length_map, List.idxOf_eq_length hmem]
    rw [hout, hnone]
    rfl

end Reading

section Files

variable {writer : Writer} {rounds : List SavedRound} {n r : ℕ}

theorem toInt_natCast (m : ℕ) : toInt (m : ℚ) = m := by
  rw [toInt, Rat.num_natCast, Rat.den_natCast, Nat.cast_one, Int.tdiv_one]

/-- A saved round is printed as it was saved. -/
theorem figure_saved (writer : Writer) (hr : r < rounds.length)
    (hpos : 0 < rounds[r].numOfSockets) (column : Column) :
    writer.figure (saved rounds) (6 * r) column = (rounds[r].value column).map .finite := by
  have hrow := csvRow_saveAll rounds 0 (fun _ => 0) hr
  rw [← saved, Nat.zero_add] at hrow
  simp only [Throughput.csvRow, Throughput.Row.mk.injEq] at hrow
  obtain ⟨hsockets, hmessages, hsize, -, hrtt, hthroughput, hrate⟩ := hrow
  cases column with
  | results => rfl
  | sockets => rw [Writer.figure, hsockets]; rfl
  | messages => rw [Writer.figure, hmessages]; rfl
  | packetSize => rw [Writer.figure, hsize]; rfl
  | sizePerMessage =>
    cases writer with
    | createCSV => simp [Writer.figure, divide, hsockets, hsize, hpos.ne', SavedRound.value]
    | createResultFile =>
      simp [Writer.figure, divide, hsockets, hsize, hpos.ne', SavedRound.value, toInt_natCast]
  | rtt => rw [Writer.figure, hrtt]; rfl
  | throughput => rw [Writer.figure, hthroughput]; rfl
  | packetRate => rw [Writer.figure, hrate]; rfl

/-- Where nothing was saved, zeros are printed, one of them divided by another. -/
theorem figure_zero (writer : Writer) {results : ℕ → ℚ} {i : ℕ} (h : ∀ k, i ≤ k → results k = 0)
    {column : Column} (hcolumn : column ≠ .results) :
    writer.figure results i column =
      some (if column = .sizePerMessage then .nan else .finite 0) := by
  have hcell : ∀ j, results (i + j) = 0 := fun j => h _ (Nat.le_add_right i j)
  have htoInt : toInt 0 = 0 := by exact_mod_cast toInt_natCast 0
  cases column with
  | results => exact absurd rfl hcolumn
  | sizePerMessage => cases writer <;> simp [Writer.figure, hcell, divide, htoInt]
  | rtt => simp [Writer.figure, h i le_rfl]
  | sockets | messages | packetSize | throughput | packetRate => simp [Writer.figure, hcell]

/-- A number that was read is off the figure by half a unit of the last digit at most: of the
last one behind the point, or of the last significant one. -/
def Writer.Close (writer : Writer) (column : Column) (x y : ℚ) : Prop :=
  match writer with
  | createCSV => |y - x| ≤ 1 / 2 / 10 ^ writer.precision column
  | createResultFile =>
    |y - x| ≤ 1 / 2 * 10 ^ (Int.log 10 |x| - ((writer.precision column : ℤ) - 1))

/-- The natural numbers that are printed as they are. -/
def Writer.Exact (writer : Writer) (column : Column) (m : ℕ) : Prop :=
  match writer with
  | createCSV => True
  | createResultFile => 10 ^ (Nat.log 10 m + 1 - writer.precision column) ∣ m

theorem precision_pos (column : Column) : 1 ≤ Writer.createResultFile.precision column := by
  cases column <;> decide

theorem close_rounded (writer : Writer) (column : Column) (x : ℚ) :
    writer.Close column x (writer.rounded (writer.precision column) x) := by
  cases writer with
  | createCSV => exact abs_toDecimals_sub_le _ x
  | createResultFile => exact abs_toSignificant_sub_le (precision_pos column) x

theorem rounded_natCast_iff (writer : Writer) (column : Column) (m : ℕ) :
    writer.rounded (writer.precision column) m = m ↔ writer.Exact column m := by
  cases writer with
  | createCSV => exact ⟨fun _ => trivial, fun _ => toDecimals_natCast _ m⟩
  | createResultFile => exact toSignificant_natCast_iff (precision_pos column) m

theorem rounded_zero (writer : Writer) (p : ℕ) : writer.rounded p 0 = 0 := by
  cases writer with
  | createCSV => exact_mod_cast toDecimals_natCast p 0
  | createResultFile => simp [Writer.rounded, toSignificant]

/-- The text has a line for every six cells. In that of a saved round every figure is read
back under its column, as close as its digits allow; the others have zeros, and no number
where zero was divided by zero. -/
structure ReadBack (writer : Writer) (rounds : List SavedRound) (n : ℕ) : Prop where
  count : (readTable (writer.text (saved rounds) n)).length = writer.title.length + n / 6 + 2
  figures : ∀ (r : ℕ) (hr : r < rounds.length) (column : Column) (x : ℚ),
    rounds[r].value column = some x →
      ∃ y, writer.read (writer.text (saved rounds) n) r column = some y ∧ writer.Close column x y
  numbers : ∀ (r : ℕ) (hr : r < rounds.length) (column : Column) (m : ℕ),
    rounds[r].value column = some (m : ℚ) →
      (writer.read (writer.text (saved rounds) n) r column = some (m : ℚ) ↔
        writer.Exact column m)
  unsaved : ∀ r, rounds.length ≤ r → r < n / 6 → ∀ column, column ≠ .results →
    writer.read (writer.text (saved rounds) n) r column =
      if column = .sizePerMessage then none else some 0

theorem text_read_back (writer : Writer) (rounds : List SavedRound) (hdvd : 6 ∣ n)
    (hroom : 6 * rounds.length ≤ n) (hsockets : ∀ a ∈ rounds, 0 < a.numOfSockets) :
    ReadBack writer rounds n := by
  have hread : ∀ r (hr : r < rounds.length) column x, rounds[r].value column = some x →
      writer.read (writer.text (saved rounds) n) r column =
        some (writer.rounded (writer.precision column) x) := by
    intro r hr column x hx
    have hpos := hsockets _ (List.getElem_mem hr)
    rw [read_text writer _ (by omega), figure_saved writer hr hpos, hx]
    rfl
  constructor
  case count =>
    rw [readTable_text, List.length_append, List.length_append,
      lines_length (m := n / 6) (by omega)]
    simp
    omega
  case figures =>
    intro r hr column x hx
    exact ⟨_, hread r hr column x hx, close_rounded writer column x⟩
  case numbers =>
    intro r hr column m hm
    rw [hread r hr column m hm, Option.some.injEq]
    exact rounded_natCast_iff writer column m
  case unsaved =>
    intro r hr hlt column hcolumn
    have hzero : ∀ k, 6 * r ≤ k → saved rounds k = 0 := by
      intro k hk
      rw [saved, saveAll_frame rounds _ (by omega)]
    rw [read_text writer _ (by omega), figure_zero writer hzero hcolumn, Option.bind_some]
    split_ifs
    · rfl
    · exact congrArg some (rounded_zero writer _)

theorem text_read_back_oneRound : ReadBack .createResultFile [⟨20, 80, 5, 2, 8, 6⟩] 12 :=
  text_read_back _ _ (by decide) (by decide) (by decide)

/-- The largest message of the sweeps has too many digits for its column. -/
example : ¬ Writer.createResultFile.Exact .packetSize 1048576 := by
  have hlog : Nat.log 10 1048576 = 6 := Nat.log_eq_of_pow_le_of_lt_pow (by decide) (by decide)
  simp [Writer.Exact, Writer.precision, hlog]

end Files

end InfinibandWorkshop.ResultTable
