import Mathlib.Data.List.Induction
import Mathlib.Data.List.TakeWhile
import Mathlib.Data.Nat.Digits.Defs
import Mathlib.Tactic.IntervalCases
import Mathlib.Tactic.Ring

/-!
# Text as C writes and scans it

Strings are lists of bytes. Numbers are printed in base 16 with a minimum width
(`%0wx`), and scanned back by `%x`, words by `%s`, the way the C library defines
the conversions: leading white space, a sign and a `0x` prefix are accepted, the
number is read as an `unsigned long` and stored in 32 bits. What was printed is
scanned back as the same number.
-/
namespace InfinibandWorkshop.CText

abbrev Byte := BitVec 8

def ch (c : Char) : Byte := BitVec.ofNat 8 c.toNat

/-- The string held in a buffer: everything before the first NUL. -/
def cstr (buf : List Byte) : List Byte := buf.takeWhile (· ≠ 0)

def isSpace (b : Byte) : Bool := b.toNat = 32 ∨ (9 ≤ b.toNat ∧ b.toNat ≤ 13)

section Digits

/-- The digit `d`, in lower case. -/
def digit (d : ℕ) : Byte := if d < 10 then BitVec.ofNat 8 (48 + d) else BitVec.ofNat 8 (87 + d)

def digitValue (b : Byte) : Option ℕ :=
  if 48 ≤ b.toNat ∧ b.toNat ≤ 57 then some (b.toNat - 48)
  else if 97 ≤ b.toNat ∧ b.toNat ≤ 102 then some (b.toNat - 87)
  else if 65 ≤ b.toNat ∧ b.toNat ≤ 70 then some (b.toNat - 55)
  else none

theorem digitValue_digit {d : ℕ} (hd : d < 16) : digitValue (digit d) = some d := by
  interval_cases d <;> rfl

/-- A digit is none of the characters that mean something else to a scan. -/
theorem digit_plain {d : ℕ} (hd : d < 16) : digit d ≠ 0 ∧ isSpace (digit d) = false ∧
    digit d ≠ ch '-' ∧ digit d ≠ ch '+' ∧ digit d ≠ ch 'x' ∧ digit d ≠ ch 'X' := by
  interval_cases d <;> decide

/-- The digits of a number below `16 ^ fuel`, most significant first and without
leading zeros. -/
def digits : ℕ → ℕ → List ℕ
  | 0, _ => []
  | fuel + 1, v => if v = 0 then [] else digits fuel (v / 16) ++ [v % 16]

def value (ds : List ℕ) : ℕ := ds.foldl (fun v d => 16 * v + d) 0

theorem value_append_singleton (ds : List ℕ) (d : ℕ) : value (ds ++ [d]) = 16 * value ds + d := by
  simp [value]

theorem value_replicate_zero_append (k : ℕ) (ds : List ℕ) :
    value (List.replicate k 0 ++ ds) = value ds := by
  induction k with
  | zero => rfl
  | succ k ih => simpa [value, List.replicate_succ] using ih

theorem value_digits {fuel v : ℕ} (hv : v < 16 ^ fuel) : value (digits fuel v) = v := by
  induction fuel generalizing v with
  | zero =>
    have : v = 0 := by omega
    rw [this]
    rfl
  | succ fuel ih =>
    by_cases h0 : v = 0
    · subst v
      rfl
    · have hdiv : v / 16 < 16 ^ fuel := by
        rw [pow_succ] at hv
        omega
      rw [digits, if_neg h0, value_append_singleton, ih hdiv]
      omega

theorem digits_lt {fuel v d : ℕ} (hd : d ∈ digits fuel v) : d < 16 := by
  induction fuel generalizing v with
  | zero => cases hd
  | succ fuel ih =>
    rw [digits] at hd
    split_ifs at hd
    · cases hd
    · rcases List.mem_append.mp hd with hd | hd
      · exact ih hd
      · rw [List.mem_singleton.mp hd]
        omega

theorem digits_length_le {fuel v w : ℕ} (hv : v < 16 ^ w) : (digits fuel v).length ≤ w := by
  induction fuel generalizing v w with
  | zero => exact Nat.zero_le w
  | succ fuel ih =>
    rw [digits]
    split_ifs with h0
    · exact Nat.zero_le w
    · cases w with
      | zero => omega
      | succ w =>
        have hdiv : v / 16 < 16 ^ w := by
          rw [pow_succ] at hv
          omega
        have hle := ih hdiv
        rw [List.length_append, List.length_singleton]
        omega

theorem value_eq_ofDigits (ds : List ℕ) : value ds = Nat.ofDigits 16 ds.reverse := by
  induction ds using List.reverseRecOn with
  | nil => rfl
  | append_singleton ds d ih =>
    rw [value_append_singleton, ih, List.reverse_append, List.reverse_singleton,
      List.singleton_append, Nat.ofDigits_cons, Nat.add_comm]

theorem value_lt {ds : List ℕ} (hds : ∀ d ∈ ds, d < 16) : value ds < 16 ^ ds.length := by
  rw [value_eq_ofDigits, ← List.length_reverse]
  exact Nat.ofDigits_lt_base_pow_length (by decide) (by simpa using hds)

/-- Digits of the same number that are equally many are the same digits. -/
theorem eq_of_value_eq {ds es : List ℕ} (hlen : ds.length = es.length) (hds : ∀ d ∈ ds, d < 16)
    (hes : ∀ d ∈ es, d < 16) (h : value ds = value es) : ds = es := by
  rw [value_eq_ofDigits, value_eq_ofDigits] at h
  have hrev := Nat.ofDigits_inj_of_len_eq (by decide) (by simpa using hlen) (by simpa using hds)
    (by simpa using hes) h
  exact List.reverse_inj.mp hrev

end Digits

section Format

/-- The digits that `%0wx` prints, for `w ≥ 1`. -/
def padded (w : ℕ) (v : BitVec 32) : List ℕ :=
  let ds := digits 8 v.toNat
  List.replicate (w - ds.length) 0 ++ ds

def formatHex (w : ℕ) (v : BitVec 32) : List Byte := (padded w v).map digit

theorem padded_lt {w : ℕ} {v : BitVec 32} {d : ℕ} (hd : d ∈ padded w v) : d < 16 := by
  rcases List.mem_append.mp hd with hd | hd
  · rw [List.eq_of_mem_replicate hd]
    omega
  · exact digits_lt hd

theorem value_padded (w : ℕ) (v : BitVec 32) : value (padded w v) = v.toNat := by
  rw [padded, value_replicate_zero_append]
  apply value_digits
  have := v.isLt
  omega

/-- A number that fits is printed with exactly the given width. -/
theorem padded_length {w : ℕ} {v : BitVec 32} (hv : v.toNat < 16 ^ w) :
    (padded w v).length = w := by
  have hle : (digits 8 v.toNat).length ≤ w := digits_length_le hv
  rw [padded, List.length_append, List.length_replicate]
  omega

/-- A number that does not fit is printed with more digits than the width. -/
theorem le_formatHex_length (w : ℕ) (v : BitVec 32) : w ≤ (formatHex w v).length := by
  rw [formatHex, padded, List.length_map, List.length_append, List.length_replicate]
  omega

theorem formatHex_length {w : ℕ} {v : BitVec 32} (hv : v.toNat < 16 ^ w) :
    (formatHex w v).length = w := by
  rw [formatHex, List.length_map, padded_length hv]

theorem mem_formatHex {w : ℕ} {v : BitVec 32} {b : Byte} (hb : b ∈ formatHex w v) :
    ∃ d < 16, b = digit d := by
  obtain ⟨d, hd, rfl⟩ := List.mem_map.mp hb
  exact ⟨d, padded_lt hd, rfl⟩

theorem formatHex_ne_zero {w : ℕ} {v : BitVec 32} {b : Byte} (hb : b ∈ formatHex w v) :
    b ≠ 0 := by
  obtain ⟨d, hd, rfl⟩ := mem_formatHex hb
  exact (digit_plain hd).1

/-- Digits that fill the width are printed as they are. -/
theorem formatHex_value {w : ℕ} (hw : w ≤ 8) {ds : List ℕ} (hds : ∀ d ∈ ds, d < 16)
    (hlen : ds.length = w) : formatHex w (BitVec.ofNat 32 (value ds)) = ds.map digit := by
  have hlt : value ds < 16 ^ w := hlen ▸ value_lt hds
  have hle : 16 ^ w ≤ 16 ^ 8 := Nat.pow_le_pow_right (by decide) hw
  have hval : (BitVec.ofNat 32 (value ds)).toNat = value ds := by
    rw [BitVec.toNat_ofNat]
    omega
  have hpadded : padded w (BitVec.ofNat 32 (value ds)) = ds := by
    refine eq_of_value_eq ?_ (fun d hd => padded_lt hd) hds ?_
    · rw [padded_length (by rw [hval]; exact hlt), hlen]
    · rw [value_padded, hval]
  rw [formatHex, hpadded]

end Format

section Scan

/-- The longest run of digits at the start, and what follows it. -/
def scanDigits : List Byte → List ℕ × List Byte
  | [] => ([], [])
  | b :: s =>
    match digitValue b with
    | some d => (d :: (scanDigits s).1, (scanDigits s).2)
    | none => ([], b :: s)

/-- An optional sign; `true` for a minus. -/
def scanSign : List Byte → Bool × List Byte
  | [] => (false, [])
  | b :: s => if b = ch '-' then (true, s) else if b = ch '+' then (false, s) else (false, b :: s)

/-- The optional prefix of a number in base 16. -/
def skipPrefix : List Byte → List Byte
  | z :: x :: s => if z = ch '0' ∧ (x = ch 'x' ∨ x = ch 'X') then s else z :: x :: s
  | s => s

/-- `strtoul` and the store into 32 bits: an overflow reads as all ones. -/
def store (neg : Bool) (v : ℕ) : BitVec 32 :=
  if 2 ^ 64 ≤ v then BitVec.allOnes 32
  else if neg then -BitVec.ofNat 32 v else BitVec.ofNat 32 v

/-- `%x`: the number and the rest of the input, or `none` on a matching failure. A prefix
`0x` without a digit behind it is one in ISO C; glibc reads it as 0. -/
def scanHex (s : List Byte) : Option (BitVec 32 × List Byte) :=
  let (neg, s) := scanSign (s.dropWhile isSpace)
  let (ds, rest) := scanDigits (skipPrefix s)
  if ds = [] then none else some (store neg (value ds), rest)

/-- An ordinary character of the format. -/
def scanChar (c : Byte) : List Byte → Option (List Byte)
  | [] => none
  | b :: s => if b = c then some s else none

/-- `%s`: a non-empty run of characters other than white space. -/
def scanWord (s : List Byte) : Option (List Byte) :=
  let w := (s.dropWhile isSpace).takeWhile (fun b => !isSpace b)
  if w = [] then none else some w

/-- Nothing at the start of `s` could continue a number. -/
def Stops (s : List Byte) : Prop :=
  ∀ b ∈ s.head?, digitValue b = none ∧ b ≠ ch 'x' ∧ b ≠ ch 'X'

theorem scanDigits_map_digit {ds : List ℕ} (hds : ∀ d ∈ ds, d < 16) {s : List Byte}
    (hs : Stops s) : scanDigits (ds.map digit ++ s) = (ds, s) := by
  induction ds with
  | nil =>
    cases s with
    | nil => rfl
    | cons b s => simp [scanDigits, (hs b (by simp)).1]
  | cons d ds ih =>
    obtain ⟨hd, hds⟩ := List.forall_mem_cons.mp hds
    simp [scanDigits, digitValue_digit hd, ih hds]

theorem skipPrefix_map_digit {ds : List ℕ} (hds : ∀ d ∈ ds, d < 16) (hne : ds ≠ [])
    {s : List Byte} (hs : Stops s) : skipPrefix (ds.map digit ++ s) = ds.map digit ++ s := by
  have hkeep : ∀ z x t, x ≠ ch 'x' ∧ x ≠ ch 'X' → skipPrefix (z :: x :: t) = z :: x :: t := by
    intro z x t hx
    simp [skipPrefix, hx.1, hx.2]
  match ds, hds with
  | [d], _ =>
    cases s with
    | nil => rfl
    | cons b s => exact hkeep _ _ _ (hs b (by simp)).2
  | d :: e :: ds, hds =>
    have hp := digit_plain (hds e (by simp))
    exact hkeep _ _ _ ⟨hp.2.2.2.2.1, hp.2.2.2.2.2⟩

/-- A printed number is scanned back, up to the character that ends it. -/
theorem scanHex_map_digit {ds : List ℕ} (hds : ∀ d ∈ ds, d < 16) (hne : ds ≠ [])
    (hv : value ds < 2 ^ 64) {s : List Byte} (hs : Stops s) :
    scanHex (ds.map digit ++ s) = some (BitVec.ofNat 32 (value ds), s) := by
  obtain ⟨d, ds', rfl⟩ := List.exists_cons_of_ne_nil hne
  have hp := digit_plain (hds d (by simp))
  have hspace : ((d :: ds').map digit ++ s).dropWhile isSpace = (d :: ds').map digit ++ s := by
    simp [hp.2.1]
  have hsign : scanSign ((d :: ds').map digit ++ s) = (false, (d :: ds').map digit ++ s) := by
    simp [scanSign, hp.2.2.1, hp.2.2.2.1]
  rw [scanHex, hspace, hsign]
  simp only [skipPrefix_map_digit hds hne hs, scanDigits_map_digit hds hs, if_neg hne]
  rw [store, if_neg (not_le.mpr hv), if_neg Bool.false_ne_true]

theorem scanHex_formatHex {w : ℕ} (hw : 0 < w) (v : BitVec 32) {s : List Byte} (hs : Stops s) :
    scanHex (formatHex w v ++ s) = some (v, s) := by
  have hne : padded w v ≠ [] := by
    intro he
    have hlen := congrArg List.length he
    rw [padded, List.length_append, List.length_replicate, List.length_nil] at hlen
    omega
  have hlt : value (padded w v) < 2 ^ 64 := by
    rw [value_padded]
    have := v.isLt
    omega
  rw [formatHex, scanHex_map_digit (fun d hd => padded_lt hd) hne hlt hs, value_padded,
    BitVec.ofNat_toNat, BitVec.setWidth_eq]

/-- A word of digits is read to the end of the input. -/
theorem scanWord_digits {s : List Byte} (hs : ∀ b ∈ s, ∃ d < 16, b = digit d) (hne : s ≠ []) :
    scanWord s = some s := by
  have hplain : ∀ b ∈ s, isSpace b = false := by
    intro b hb
    obtain ⟨d, hd, rfl⟩ := hs b hb
    exact (digit_plain hd).2.1
  have hdrop : s.dropWhile isSpace = s := by
    obtain ⟨b, s', rfl⟩ := List.exists_cons_of_ne_nil hne
    simp [hplain b (by simp)]
  have htake : s.takeWhile (fun b => !isSpace b) = s := by
    rw [List.takeWhile_eq_self_iff]
    intro b hb
    simp [hplain b hb]
  simp only [scanWord, hdrop, htake, if_neg hne]

theorem cstr_eq_self {s : List Byte} (hs : ∀ b ∈ s, b ≠ 0) : cstr s = s := by
  rw [cstr, List.takeWhile_eq_self_iff]
  simpa using hs

/-- A string without NUL is what its terminated buffer holds. -/
theorem cstr_append_zero {s : List Byte} (hs : ∀ b ∈ s, b ≠ 0) (t : List Byte) :
    cstr (s ++ 0 :: t) = s := by
  rw [cstr, List.takeWhile_append_of_pos (by simpa using hs)]
  simp

end Scan

end InfinibandWorkshop.CText
