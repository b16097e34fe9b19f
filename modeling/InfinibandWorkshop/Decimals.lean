import Mathlib.Algebra.Order.Field.Power
import Mathlib.Algebra.Order.Field.Rat
import Mathlib.Algebra.Order.Floor.Semiring
import Mathlib.Data.Int.Log
import Mathlib.Data.List.DropRight
import Mathlib.Data.Rat.Floor
import Mathlib.Tactic.Linarith
import Mathlib.Tactic.Positivity
import Mathlib.Tactic.Ring

/-!
# Decimal numbers as text

The conversions `%.df` and `%.pg` of the C library, as functions on rational numbers, and
a reader for what they print. The first gives a number to `d` decimals, the second to `p`
significant digits, without zeros at the end and with an exponent where the number is
large or small. What is read back is the number that was printed, rounded.
-/
namespace InfinibandWorkshop.Decimal

section Rounding

/-- The nearest natural number, the even one of two. -/
def nearest (x : ℚ) : ℕ :=
  if x - ⌊x⌋₊ < 1 / 2 ∨ x - ⌊x⌋₊ = 1 / 2 ∧ ⌊x⌋₊ % 2 = 0 then ⌊x⌋₊ else ⌊x⌋₊ + 1

theorem abs_sub_nearest {x : ℚ} (hx : 0 ≤ x) : |(nearest x : ℚ) - x| ≤ 1 / 2 := by
  have hle := Nat.floor_le hx
  have hlt := Nat.lt_floor_add_one x
  rw [abs_le]
  unfold nearest
  split_ifs with h
  · rcases h with h | h
    · constructor <;> linarith
    · constructor <;> linarith [h.1]
  · rw [not_or, not_lt] at h
    push_cast
    constructor <;> linarith [h.1]

@[simp] theorem nearest_natCast (n : ℕ) : nearest n = n := by
  simp [nearest]

end Rounding

section Digits

/-- A number in digits: there is one, and nothing else. -/
def Digits (cs : List Char) : Prop := cs ≠ [] ∧ ∀ c ∈ cs, c.isDigit = true

instance (cs : List Char) : Decidable (Digits cs) :=
  inferInstanceAs (Decidable (cs ≠ [] ∧ ∀ c ∈ cs, c.isDigit = true))

def value (cs : List Char) : ℕ := Nat.ofDigitChars 10 cs 0

theorem value_append (cs ds : List Char) :
    value (cs ++ ds) = 10 ^ ds.length * value cs + value ds := by
  rw [value, Nat.ofDigitChars_append, Nat.ofDigitChars_eq_ofDigitChars_zero]
  rfl

@[simp] theorem value_toDigits (n : ℕ) : value (Nat.toDigits 10 n) = n :=
  Nat.ofDigitChars_ten_toDigits

@[simp] theorem value_replicate_zero (k : ℕ) : value (List.replicate k '0') = 0 := by
  simp [value]

theorem digits_toDigits (n : ℕ) : Digits (Nat.toDigits 10 n) :=
  ⟨Nat.toDigits_ne_nil, fun _ hc => Nat.isDigit_of_mem_toDigits (by decide) (by decide) hc⟩

theorem Digits.notMem {cs : List Char} (h : Digits cs) {c : Char} (hc : c.isDigit = false) :
    c ∉ cs := by
  intro hmem
  rw [h.2 c hmem] at hc
  cases hc

/-- The last `d` digits. -/
def lowDigits : ℕ → ℕ → List Char
  | 0, _ => []
  | d + 1, n => lowDigits d (n / 10) ++ [Nat.digitChar (n % 10)]

theorem lowDigits_length (d n : ℕ) : (lowDigits d n).length = d := by
  induction d generalizing n with
  | zero => rfl
  | succ d ih => rw [lowDigits, List.length_append, ih, List.length_singleton]

theorem isDigit_lowDigits {d n : ℕ} {c : Char} (hc : c ∈ lowDigits d n) : c.isDigit = true := by
  induction d generalizing n with
  | zero => cases hc
  | succ d ih =>
    rcases List.mem_append.mp hc with hc | hc
    · exact ih hc
    · rw [List.mem_singleton.mp hc, Nat.isDigit_digitChar, decide_eq_true_eq]
      exact Nat.mod_lt _ (by decide)

theorem value_lowDigits (d n : ℕ) : value (lowDigits d n) = n % 10 ^ d := by
  induction d generalizing n with
  | zero => simp [lowDigits, value, Nat.mod_one]
  | succ d ih =>
    have hdigit : value [Nat.digitChar (n % 10)] = n % 10 := by
      rw [value, Nat.ofDigitChars_cons_digitChar_of_lt_ten (Nat.mod_lt _ (by decide))]
      simp
    rw [lowDigits, value_append, ih, hdigit, List.length_singleton, pow_one, Nat.pow_succ',
      Nat.mod_mul]
    omega

/-- The digits before the point and those behind it make up the number. -/
theorem value_toDigits_append_lowDigits (d n : ℕ) :
    value (Nat.toDigits 10 (n / 10 ^ d) ++ lowDigits d n) = n := by
  rw [value_append, lowDigits_length, value_toDigits, value_lowDigits, Nat.div_add_mod]

end Digits

section Reading

/-- Digits, perhaps with a point and more digits. -/
def plain (cs : List Char) : Option ℚ :=
  match cs.splitOn '.' with
  | [whole] => if Digits whole then some (value whole) else none
  | [whole, frac] =>
    if Digits whole ∧ Digits frac then some ((value (whole ++ frac) : ℚ) / 10 ^ frac.length)
    else none
  | _ => none

/-- A sign and digits. -/
def exponent : List Char → Option ℤ
  | '+' :: ds => if Digits ds then some (value ds) else none
  | '-' :: ds => if Digits ds then some (-value ds) else none
  | _ => none

def unsigned (cs : List Char) : Option ℚ :=
  match cs.splitOn 'e' with
  | [m] => plain m
  | [m, e] => (plain m).bind (fun x => (exponent e).map (fun k => x * 10 ^ k))
  | _ => none

/-- The number that a text stands for. -/
def number : List Char → Option ℚ
  | '-' :: cs => (unsigned cs).map Neg.neg
  | cs => unsigned cs

def sign (x : ℚ) : List Char := if x < 0 then ['-'] else []

def withSign (x y : ℚ) : ℚ := if x < 0 then -y else y

def withPoint (whole frac : List Char) : List Char :=
  whole ++ if frac = [] then [] else '.' :: frac

variable {whole frac cs : List Char}

theorem plain_withPoint (hw : Digits whole) (hf : ∀ c ∈ frac, c.isDigit = true) :
    plain (withPoint whole frac) = some ((value (whole ++ frac) : ℚ) / 10 ^ frac.length) := by
  have hpoint : '.' ∉ whole := hw.notMem (by decide)
  rw [withPoint, plain]
  by_cases hnil : frac = []
  · subst frac
    rw [if_pos rfl, List.append_nil, List.splitOn_eq_singleton hpoint]
    simp [hw]
  · have hfrac : Digits frac := ⟨hnil, hf⟩
    have hpoint' : '.' ∉ frac := hfrac.notMem (by decide)
    rw [if_neg hnil, List.splitOn_append_cons_self_of_not_mem hpoint,
      List.splitOn_eq_singleton hpoint']
    simp [hw, hfrac]

theorem notMem_withPoint (hw : Digits whole) (hf : ∀ c ∈ frac, c.isDigit = true) {c : Char}
    (hc : c.isDigit = false) (hpoint : c ≠ '.') : c ∉ withPoint whole frac := by
  rw [withPoint, List.mem_append, not_or]
  refine ⟨hw.notMem hc, ?_⟩
  split_ifs
  · exact List.not_mem_nil
  · rw [List.mem_cons, not_or]
    refine ⟨hpoint, ?_⟩
    intro hmem
    rw [hf c hmem] at hc
    cases hc

theorem unsigned_withPoint (hw : Digits whole) (hf : ∀ c ∈ frac, c.isDigit = true) :
    unsigned (withPoint whole frac) = some ((value (whole ++ frac) : ℚ) / 10 ^ frac.length) := by
  rw [unsigned, List.splitOn_eq_singleton (notMem_withPoint hw hf (by decide) (by decide))]
  exact plain_withPoint hw hf

theorem unsigned_eq_none (h : ¬ Digits cs) (hpoint : '.' ∉ cs) (he : 'e' ∉ cs) :
    unsigned cs = none := by
  rw [unsigned, List.splitOn_eq_singleton he]
  show plain cs = none
  rw [plain, List.splitOn_eq_singleton hpoint]
  exact if_neg h

/-- A sign in front of a text that starts with a digit. -/
theorem number_sign_append (x : ℚ) (hcs : ∃ c ds, cs = c :: ds ∧ c.isDigit = true) :
    number (sign x ++ cs) = (unsigned cs).map (withSign x) := by
  by_cases hx : x < 0
  · have hneg : withSign x = Neg.neg := by
      funext y
      simp [withSign, hx]
    simp [sign, hx, number, hneg]
  · have hid : withSign x = id := by
      funext y
      simp [withSign, hx]
    obtain ⟨c, ds, rfl, hdigit⟩ := hcs
    have hne : c ≠ '-' := by
      rintro rfl
      cases hdigit
    rw [sign, if_neg hx, List.nil_append, hid, Option.map_id, id]
    unfold number
    split
    · next h => exact absurd (List.cons.inj h).1 hne
    · rfl

theorem exists_digit_withPoint (hw : Digits whole) (rest : List Char) :
    ∃ c ds, withPoint whole frac ++ rest = c :: ds ∧ c.isDigit = true := by
  obtain ⟨c, ds, rfl⟩ := List.exists_cons_of_ne_nil hw.1
  exact ⟨c, _, rfl, hw.2 c List.mem_cons_self⟩

end Reading

section Fixed

/-- `%.df` -/
def fixed (d : ℕ) (x : ℚ) : List Char :=
  let m := nearest (|x| * 10 ^ d)
  sign x ++ withPoint (Nat.toDigits 10 (m / 10 ^ d)) (lowDigits d m)

def toDecimals (d : ℕ) (x : ℚ) : ℚ := withSign x (nearest (|x| * 10 ^ d) / 10 ^ d)

theorem number_fixed (d : ℕ) (x : ℚ) : number (fixed d x) = some (toDecimals d x) := by
  have hw := digits_toDigits (nearest (|x| * 10 ^ d) / 10 ^ d)
  have hf : ∀ c ∈ lowDigits d (nearest (|x| * 10 ^ d)), c.isDigit = true :=
    fun _ hc => isDigit_lowDigits hc
  have hstart : ∃ c ds, withPoint (Nat.toDigits 10 (nearest (|x| * 10 ^ d) / 10 ^ d))
      (lowDigits d (nearest (|x| * 10 ^ d))) = c :: ds ∧ c.isDigit = true := by
    rw [← List.append_nil (withPoint _ _)]
    exact exists_digit_withPoint hw []
  rw [fixed, number_sign_append x hstart, unsigned_withPoint hw hf,
    value_toDigits_append_lowDigits, lowDigits_length]
  rfl

theorem abs_withSign_sub (x : ℚ) {y : ℚ} : |withSign x y - x| = |y - abs x| := by
  unfold withSign
  split_ifs with hx
  · rw [abs_of_neg hx, ← abs_neg]
    congr 1
    ring
  · rw [abs_of_nonneg (not_lt.mp hx)]

/-- It is off by half a unit of the last decimal at most. -/
theorem abs_toDecimals_sub_le (d : ℕ) (x : ℚ) : |toDecimals d x - x| ≤ 1 / 2 / 10 ^ d := by
  have hnear := abs_sub_nearest (x := |x| * 10 ^ d) (by positivity)
  have hpos : (0 : ℚ) < 10 ^ d := by positivity
  have hdiv : (nearest (|x| * 10 ^ d) : ℚ) / 10 ^ d - |x| =
      (nearest (|x| * 10 ^ d) - |x| * 10 ^ d) / 10 ^ d := by
    rw [sub_div, mul_div_cancel_right₀ _ hpos.ne']
  rw [toDecimals, abs_withSign_sub, hdiv, abs_div, abs_of_pos hpos]
  exact div_le_div_of_nonneg_right hnear hpos.le

/-- A natural number is given exactly. -/
theorem toDecimals_natCast (d n : ℕ) : toDecimals d n = n := by
  have hpos : (0 : ℚ) < 10 ^ d := by positivity
  have hmul : |(n : ℚ)| * 10 ^ d = ((n * 10 ^ d : ℕ) : ℚ) := by
    rw [abs_of_nonneg (Nat.cast_nonneg n)]
    push_cast
    rfl
  rw [toDecimals, hmul, nearest_natCast, withSign, if_neg (Nat.cast_nonneg n).not_gt]
  push_cast
  exact mul_div_cancel_right₀ _ hpos.ne'

end Fixed

section General

/-- `p` significant digits of a positive number, and the exponent of the first of them. -/
def leading (p : ℕ) (x : ℚ) : ℕ × ℤ :=
  let e := Int.log 10 x
  let m := nearest (x * 10 ^ ((p : ℤ) - 1 - e))
  if m = 10 ^ p then (10 ^ (p - 1), e + 1) else (m, e)

/-- A number with `d` decimals, without the zeros at the end. -/
def trimmed (d m : ℕ) : List Char :=
  withPoint (Nat.toDigits 10 (m / 10 ^ d)) ((lowDigits d m).rdropWhile (· = '0'))

/-- At least two digits behind the sign. -/
def exponentText (e : ℤ) : List Char :=
  let ds := Nat.toDigits 10 e.natAbs
  (if e < 0 then '-' else '+') :: if e.natAbs < 10 then '0' :: ds else ds

/-- `%.pg`, where `p` is not 0. -/
def general (p : ℕ) (x : ℚ) : List Char :=
  if x = 0 then ['0'] else
    let (m, e) := leading p |x|
    sign x ++
      if -4 ≤ e ∧ e < p then trimmed ((p : ℤ) - 1 - e).toNat m
      else trimmed (p - 1) m ++ 'e' :: exponentText e

def toSignificant (p : ℕ) (x : ℚ) : ℚ :=
  if x = 0 then 0 else
    withSign x ((leading p |x|).1 * 10 ^ ((leading p |x|).2 - ((p : ℤ) - 1)))

variable {p d m : ℕ} {x : ℚ}

theorem exists_rdropWhile_append (cs : List Char) :
    ∃ k, cs = cs.rdropWhile (· = '0') ++ List.replicate k '0' := by
  refine ⟨(cs.rtakeWhile (· = '0')).length, ?_⟩
  have hzeros : cs.rtakeWhile (· = '0') =
      List.replicate (cs.rtakeWhile (· = '0')).length '0' := by
    apply List.eq_replicate_of_mem
    intro c hc
    simpa using List.mem_rtakeWhile_imp hc
  have happend := List.rdropWhile_append_rtakeWhile (p := fun c => decide (c = '0')) (l := cs)
  rw [hzeros] at happend
  exact happend.symm

theorem isDigit_trimmed {c : Char} (hc : c ∈ (lowDigits d m).rdropWhile (· = '0')) :
    c.isDigit = true :=
  isDigit_lowDigits ((List.rdropWhile_prefix _ _).subset hc)

theorem plain_trimmed (d m : ℕ) : plain (trimmed d m) = some ((m : ℚ) / 10 ^ d) := by
  obtain ⟨k, hk⟩ := exists_rdropWhile_append (lowDigits d m)
  have hvalue := value_toDigits_append_lowDigits d m
  have hlen := lowDigits_length d m
  rw [trimmed, plain_withPoint (digits_toDigits _) (fun _ hc => isDigit_trimmed hc)]
  generalize (lowDigits d m).rdropWhile (· = '0') = frac at *
  generalize Nat.toDigits 10 (m / 10 ^ d) = whole at *
  rw [hk, ← List.append_assoc, value_append, value_replicate_zero, List.length_replicate,
    Nat.add_zero] at hvalue
  rw [hk, List.length_append, List.length_replicate] at hlen
  have hpos : (0 : ℚ) < 10 ^ k := by positivity
  rw [← hvalue, ← hlen, pow_add, Option.some.injEq]
  push_cast
  rw [mul_comm ((10 : ℚ) ^ k), mul_div_mul_right _ _ hpos.ne']

theorem notMem_trimmed : 'e' ∉ trimmed d m :=
  notMem_withPoint (digits_toDigits _) (fun _ hc => isDigit_trimmed hc) (by decide) (by decide)

theorem value_cons_zero (cs : List Char) : value ('0' :: cs) = value cs := by
  simp [value, Nat.ofDigitChars_cons]

theorem exponent_exponentText (e : ℤ) : exponent (exponentText e) = some e := by
  have hdigits := digits_toDigits e.natAbs
  have hdigits' : Digits ('0' :: Nat.toDigits 10 e.natAbs) := by
    refine ⟨List.cons_ne_nil _ _, ?_⟩
    intro c hc
    rcases List.mem_cons.mp hc with rfl | hc
    · decide
    · exact hdigits.2 c hc
  by_cases he : e < 0
  · by_cases hten : e.natAbs < 10
    · simp [exponentText, exponent, he, hten, hdigits', value_cons_zero, abs_of_neg he]
    · simp [exponentText, exponent, he, hten, hdigits, abs_of_neg he]
  · have habs := abs_of_nonneg (not_lt.mp he)
    by_cases hten : e.natAbs < 10
    · simp [exponentText, exponent, he, hten, hdigits', value_cons_zero, habs]
    · simp [exponentText, exponent, he, hten, hdigits, habs]

theorem notMem_exponentText (e : ℤ) : 'e' ∉ exponentText e := by
  have hnot : 'e' ∉ Nat.toDigits 10 e.natAbs := (digits_toDigits _).notMem (by decide)
  unfold exponentText
  by_cases he : e < 0
  · by_cases hten : e.natAbs < 10
    · simp [he, hten, hnot]
    · simp [he, hten, hnot]
  · by_cases hten : e.natAbs < 10
    · simp [he, hten, hnot]
    · simp [he, hten, hnot]

theorem exists_digit_trimmed (d m : ℕ) (rest : List Char) :
    ∃ c ds, trimmed d m ++ rest = c :: ds ∧ c.isDigit = true :=
  exists_digit_withPoint (digits_toDigits _) rest

theorem unsigned_trimmed (d m : ℕ) : unsigned (trimmed d m) = some ((m : ℚ) / 10 ^ d) := by
  rw [unsigned, List.splitOn_eq_singleton notMem_trimmed]
  exact plain_trimmed d m

theorem unsigned_trimmed_exponentText (d m : ℕ) (e : ℤ) :
    unsigned (trimmed d m ++ 'e' :: exponentText e) = some ((m : ℚ) / 10 ^ d * 10 ^ e) := by
  rw [unsigned, List.splitOn_append_cons_self_of_not_mem notMem_trimmed,
    List.splitOn_eq_singleton (notMem_exponentText e)]
  simp [plain_trimmed, exponent_exponentText]

/-- The two styles stand for the same number. -/
theorem number_general (hp : 1 ≤ p) (x : ℚ) : number (general p x) = some (toSignificant p x) := by
  by_cases hx : x = 0
  · subst x
    have hzero : number ['0'] = some 0 := by
      have h := number_fixed 0 0
      simpa [fixed, sign, nearest, withPoint, lowDigits, toDecimals, withSign] using h
    simpa [general, toSignificant] using hzero
  · rw [general, toSignificant, if_neg hx, if_neg hx]
    generalize leading p |x| = me
    obtain ⟨m, e⟩ := me
    show number (sign x ++ if -4 ≤ e ∧ e < p then _ else _) = _
    have hten : (10 : ℚ) ≠ 0 := by norm_num
    split_ifs with he
    · have hstart := exists_digit_trimmed ((p : ℤ) - 1 - e).toNat m []
      rw [List.append_nil] at hstart
      rw [number_sign_append x hstart, unsigned_trimmed, Option.map_some, Option.some.injEq]
      have hexp : (((p : ℤ) - 1 - e).toNat : ℤ) = (p : ℤ) - 1 - e := by omega
      rw [← zpow_natCast, hexp, div_eq_mul_inv, ← zpow_neg, neg_sub]
    · have hstart := exists_digit_trimmed (p - 1) m ('e' :: exponentText e)
      rw [number_sign_append x hstart, unsigned_trimmed_exponentText, Option.map_some,
        Option.some.injEq]
      have hexp : ((p - 1 : ℕ) : ℤ) = (p : ℤ) - 1 := by omega
      rw [← zpow_natCast, hexp, div_mul_eq_mul_div, mul_div_assoc, ← zpow_sub₀ hten]

/-- A carry into another digit makes no difference. -/
theorem leading_eq (hp : 1 ≤ p) (x : ℚ) :
    ((leading p x).1 : ℚ) * 10 ^ ((leading p x).2 - ((p : ℤ) - 1)) =
      nearest (x * 10 ^ ((p : ℤ) - 1 - Int.log 10 x)) * 10 ^ (Int.log 10 x - ((p : ℤ) - 1)) := by
  have hten : (10 : ℚ) ≠ 0 := by norm_num
  rw [leading]
  split_ifs with hcarry
  · have hexp : ((p - 1 : ℕ) : ℤ) + (Int.log 10 x + 1 - ((p : ℤ) - 1)) =
        (p : ℤ) + (Int.log 10 x - ((p : ℤ) - 1)) := by omega
    rw [hcarry]
    push_cast
    rw [← zpow_natCast, ← zpow_natCast, ← zpow_add₀ hten, ← zpow_add₀ hten, hexp]
  · rfl

/-- It is off by half a unit of the last of the `p` digits at most. -/
theorem abs_toSignificant_sub_le (hp : 1 ≤ p) (x : ℚ) :
    |toSignificant p x - x| ≤ 1 / 2 * 10 ^ (Int.log 10 |x| - ((p : ℤ) - 1)) := by
  by_cases hx : x = 0
  · have hzero : toSignificant p x - x = 0 := by simp [toSignificant, hx]
    rw [hzero, abs_zero]
    positivity
  · have hten : (10 : ℚ) ≠ 0 := by norm_num
    rw [toSignificant, if_neg hx, abs_withSign_sub, leading_eq hp]
    have hy : 0 ≤ |x| := abs_nonneg x
    generalize Int.log 10 |x| = e
    generalize |x| = y at *
    have hunit : (0 : ℚ) < 10 ^ (e - ((p : ℤ) - 1)) := by positivity
    have hnear := abs_sub_nearest (x := y * 10 ^ ((p : ℤ) - 1 - e)) (by positivity)
    have hsub : (nearest (y * 10 ^ ((p : ℤ) - 1 - e)) : ℚ) * 10 ^ (e - ((p : ℤ) - 1)) - y =
        ((nearest (y * 10 ^ ((p : ℤ) - 1 - e)) : ℚ) - y * 10 ^ ((p : ℤ) - 1 - e)) *
          10 ^ (e - ((p : ℤ) - 1)) := by
      rw [sub_mul, mul_assoc y, ← zpow_add₀ hten]
      simp
    calc |(nearest (y * 10 ^ ((p : ℤ) - 1 - e)) : ℚ) * 10 ^ (e - ((p : ℤ) - 1)) - y|
        = |(nearest (y * 10 ^ ((p : ℤ) - 1 - e)) : ℚ) - y * 10 ^ ((p : ℤ) - 1 - e)| *
            10 ^ (e - ((p : ℤ) - 1)) := by rw [hsub, abs_mul, abs_of_pos hunit]
      _ ≤ 1 / 2 * 10 ^ (e - ((p : ℤ) - 1)) := mul_le_mul_of_nonneg_right hnear hunit.le

/-- A natural number is given exactly when only zeros come behind its first `p` digits. -/
theorem toSignificant_natCast_iff (hp : 1 ≤ p) (n : ℕ) :
    toSignificant p n = n ↔ 10 ^ (Nat.log 10 n + 1 - p) ∣ n := by
  by_cases hn : n = 0
  · subst n
    simp [toSignificant]
  · have hten : (10 : ℚ) ≠ 0 := by norm_num
    have habs : |(n : ℚ)| = n := Nat.abs_cast n
    have hlog : Int.log 10 (n : ℚ) = (Nat.log 10 n : ℤ) := Int.log_natCast 10 n
    rw [toSignificant, if_neg (Nat.cast_ne_zero.mpr hn), habs, leading_eq hp, hlog, withSign,
      if_neg (Nat.cast_nonneg n).not_gt]
    generalize Nat.log 10 n = e
    by_cases hfew : e + 1 ≤ p
    · -- all digits are there
      obtain ⟨k, rfl⟩ := Nat.exists_eq_add_of_le hfew
      have hdigits : (n : ℚ) * 10 ^ (((e + 1 + k : ℕ) : ℤ) - 1 - e) = ((n * 10 ^ k : ℕ) : ℚ) := by
        have hexp : ((e + 1 + k : ℕ) : ℤ) - 1 - e = k := by omega
        rw [hexp, zpow_natCast]
        push_cast
        rfl
      have hunit : (e : ℤ) - (((e + 1 + k : ℕ) : ℤ) - 1) = -(k : ℤ) := by omega
      have hzero : e + 1 - (e + 1 + k) = 0 := by omega
      rw [hdigits, nearest_natCast, hunit, hzero, pow_zero, zpow_neg, zpow_natCast]
      push_cast
      simp
    · obtain ⟨k, hk⟩ := Nat.exists_eq_add_of_lt (not_le.mp hfew)
      have hcut : e + 1 - p = k + 1 := by omega
      have hscale : ((p : ℤ) - 1 - e) = -((k + 1 : ℕ) : ℤ) := by omega
      have hunit : (e : ℤ) - ((p : ℤ) - 1) = ((k + 1 : ℕ) : ℤ) := by omega
      rw [hcut, hscale, hunit, zpow_neg, zpow_natCast]
      generalize k + 1 = j
      have hpos : (0 : ℚ) < 10 ^ j := by positivity
      constructor
      · intro h
        refine ⟨nearest (n * (10 ^ j : ℚ)⁻¹), ?_⟩
        have hcast : (n : ℚ) = ((10 ^ j * nearest (n * (10 ^ j : ℚ)⁻¹) : ℕ) : ℚ) := by
          push_cast
          rw [mul_comm]
          exact h.symm
        exact_mod_cast hcast
      · rintro ⟨q, rfl⟩
        have hq : ((10 ^ j * q : ℕ) : ℚ) * (10 ^ j : ℚ)⁻¹ = q := by
          push_cast
          rw [mul_comm, inv_mul_cancel_left₀ hpos.ne']
        rw [hq, nearest_natCast]
        push_cast
        ring

end General

section Characters

/-- The characters of a printed number. -/
def Numeral (cs : List Char) : Prop := ∀ c ∈ cs, c.isDigit = true ∨ c ∈ ['-', '+', '.', 'e']

variable {cs ds : List Char}

theorem Numeral.append (hc : Numeral cs) (hd : Numeral ds) : Numeral (cs ++ ds) := by
  intro c hmem
  rcases List.mem_append.mp hmem with hmem | hmem
  · exact hc c hmem
  · exact hd c hmem

theorem Numeral.notMem (h : Numeral cs) {c : Char} (hdigit : c.isDigit = false)
    (hc : c ∉ ['-', '+', '.', 'e']) : c ∉ cs := by
  intro hmem
  rcases h c hmem with h | h
  · rw [h] at hdigit
    cases hdigit
  · exact hc h

theorem numeral_sign (x : ℚ) : Numeral (sign x) := by
  unfold sign
  split_ifs
  · simp [Numeral]
  · simp [Numeral]

theorem Digits.numeral (h : Digits cs) : Numeral cs := fun c hc => .inl (h.2 c hc)

theorem numeral_withPoint (hw : Digits cs) (hf : ∀ c ∈ ds, c.isDigit = true) :
    Numeral (withPoint cs ds) := by
  apply hw.numeral.append
  split_ifs
  · simp [Numeral]
  · intro c hc
    rcases List.mem_cons.mp hc with rfl | hc
    · simp
    · exact .inl (hf c hc)

theorem numeral_fixed (d : ℕ) (x : ℚ) : Numeral (fixed d x) :=
  (numeral_sign x).append
    (numeral_withPoint (digits_toDigits _) (fun _ hc => isDigit_lowDigits hc))

theorem numeral_trimmed (d m : ℕ) : Numeral (trimmed d m) :=
  numeral_withPoint (digits_toDigits _) (fun _ hc => isDigit_trimmed hc)

theorem numeral_exponentText (e : ℤ) : Numeral (exponentText e) := by
  have hdigits := (digits_toDigits e.natAbs).numeral
  have hsign : Numeral [if e < 0 then '-' else '+'] := by
    intro c hc
    rw [List.mem_singleton.mp hc]
    split_ifs <;> simp
  have hrest : Numeral (if e.natAbs < 10 then '0' :: Nat.toDigits 10 e.natAbs
      else Nat.toDigits 10 e.natAbs) := by
    split_ifs
    · intro c hc
      rcases List.mem_cons.mp hc with rfl | hc
      · exact .inl rfl
      · exact hdigits c hc
    · exact hdigits
  exact hsign.append hrest

theorem numeral_general (p : ℕ) (x : ℚ) : Numeral (general p x) := by
  unfold general
  split_ifs with hx
  · intro c hc
    rw [List.mem_singleton.mp hc]
    exact .inl rfl
  · apply (numeral_sign x).append
    dsimp only
    split_ifs
    · exact numeral_trimmed _ _
    · have he : Numeral ['e'] := by simp [Numeral]
      exact (numeral_trimmed _ _).append (he.append (numeral_exponentText _))

end Characters

end InfinibandWorkshop.Decimal
