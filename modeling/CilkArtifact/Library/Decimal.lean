import Mathlib.Algebra.Order.Field.Rat
import Mathlib.Data.Int.Log
import Mathlib.Data.List.DropRight
import Mathlib.Data.Rat.Floor
import Mathlib.Tactic.FieldSimp

/-! Numbers as the conversion `%g` prints them, and the values of such texts. -/
namespace CilkArtifact.Decimal

/-! ### Rounding -/

/-- To the nearest integer, and to an even one from halfway between two. -/
def roundHalfEven (x : ℚ) : ℕ :=
  let n := ⌊x⌋₊
  if x - n < 1 / 2 then n else if 1 / 2 < x - n then n + 1 else if n % 2 = 0 then n else n + 1

theorem roundHalfEven_bounds (x : ℚ) : ⌊x⌋₊ ≤ roundHalfEven x ∧ roundHalfEven x ≤ ⌊x⌋₊ + 1 := by
  rw [roundHalfEven]
  split_ifs <;> omega

theorem le_roundHalfEven {n : ℕ} {x : ℚ} (below : (n : ℚ) ≤ x) : n ≤ roundHalfEven x :=
  (Nat.le_floor below).trans (roundHalfEven_bounds x).1

theorem roundHalfEven_le {n : ℕ} {x : ℚ} (nonneg : 0 ≤ x) (above : x < n) : roundHalfEven x ≤ n :=
  (roundHalfEven_bounds x).2.trans ((Nat.floor_lt nonneg).mpr above)

/-- `p + 1` significant digits, the first of them before the decimal point, and a power of ten. -/
structure Scientific (p : ℕ) where
  digits : ℕ
  exponent : ℤ
  lower : 10 ^ p ≤ digits
  upper : digits < 10 ^ (p + 1)

def Scientific.value {p : ℕ} (s : Scientific p) : ℚ := s.digits * 10 ^ (s.exponent - p)

section Rounding
variable (p : ℕ) (x : ℚ)

/-- The number with the decimal point moved so that `p + 1` digits are before it. -/
def scaled : ℚ := x / 10 ^ (Int.log 10 x - p)

theorem scaled_bounds (positive : 0 < x) : (10 ^ p : ℕ) ≤ scaled p x ∧ scaled p x < (10 ^ (p + 1) : ℕ) := by
  have ten : (10 : ℚ) ≠ 0 := by norm_num
  have unit : (0 : ℚ) < 10 ^ (Int.log 10 x - p) := zpow_pos (by norm_num) _
  have low : ((10 : ℕ) : ℚ) ^ Int.log 10 x ≤ x := Int.zpow_log_le_self (by norm_num) positive
  have high : x < ((10 : ℕ) : ℚ) ^ (Int.log 10 x + 1) := Int.lt_zpow_succ_log_self (by norm_num) x
  rw [Nat.cast_ofNat] at low high
  constructor
  · rw [scaled, le_div_iff₀ unit, Nat.cast_pow, Nat.cast_ofNat, ← zpow_natCast, ← zpow_add₀ ten]
    simpa using low
  · rw [scaled, div_lt_iff₀ unit, Nat.cast_pow, Nat.cast_ofNat, ← zpow_natCast, ← zpow_add₀ ten]
    refine high.trans_eq (congrArg _ ?_)
    push_cast
    ring

/-- Rounding may lead to the next power of ten. -/
def scientific (positive : 0 < x) : Scientific p :=
  if carry : roundHalfEven (scaled p x) = 10 ^ (p + 1) then
    ⟨10 ^ p, Int.log 10 x + 1, le_rfl, Nat.pow_lt_pow_right (by decide) (Nat.lt_succ_self p)⟩
  else
    ⟨roundHalfEven (scaled p x), Int.log 10 x, le_roundHalfEven (scaled_bounds p x positive).1,
      lt_of_le_of_ne (roundHalfEven_le ((Nat.cast_nonneg _).trans (scaled_bounds p x positive).1)
        (scaled_bounds p x positive).2) carry⟩

/-- The number rounded to `p + 1` significant digits. -/
def rounded : ℚ := if positive : 0 < x then (scientific p x positive).value else 0

end Rounding

/-! ### Texts -/

/-- The last `k` digits of a number. -/
def lastDigits : (k n : ℕ) → List Char
  | 0, _ => []
  | k + 1, n => lastDigits k (n / 10) ++ [(n % 10).digitChar]

/-- The last `k` digits, without zeros at the end. -/
def fraction (k n : ℕ) : List Char := (lastDigits k n).rdropWhile (· == '0')

/-- The number with the last `k` digits behind the decimal point. -/
def fixedText (n k : ℕ) : List Char :=
  Nat.toDigits 10 (n / 10 ^ k) ++ if fraction k n = [] then [] else '.' :: fraction k n

def exponentText (e : ℤ) : List Char :=
  (if e < 0 then '-' else '+') :: ((if e.natAbs < 10 then ['0'] else []) ++ Nat.toDigits 10 e.natAbs)

def Scientific.text {p : ℕ} (s : Scientific p) : List Char :=
  if -4 ≤ s.exponent ∧ s.exponent ≤ p then fixedText s.digits (p - s.exponent).toNat
  else fixedText s.digits p ++ 'e' :: exponentText s.exponent

/-- `%g` with `p + 1` significant digits. -/
def general (p : ℕ) (x : ℚ) : List Char := if positive : 0 < x then (scientific p x positive).text else ['0']

/-! ### Values of texts -/

/-- The number with these digits before and after the decimal point. -/
def digitsValue (int frac : List Char) : ℚ := Nat.ofDigitChars 10 (int ++ frac) 0 / 10 ^ frac.length

def readFixed (l : List Char) : ℚ :=
  match l.splitOn '.' with
  | [int, frac] => digitsValue int frac
  | _ => digitsValue l []

def readExponent : List Char → ℤ
  | '-' :: digits => -Nat.ofDigitChars 10 digits 0
  | '+' :: digits => Nat.ofDigitChars 10 digits 0
  | digits => Nat.ofDigitChars 10 digits 0

def readNumber (l : List Char) : ℚ :=
  match l.splitOn 'e' with
  | [mantissa, exponent] => readFixed mantissa * 10 ^ readExponent exponent
  | _ => readFixed l

theorem lastDigits_digit {k n : ℕ} {c : Char} (member : c ∈ lastDigits k n) : c.isDigit = true := by
  induction k generalizing n with
  | zero => exact (List.not_mem_nil member).elim
  | succ k ih =>
    rcases List.mem_append.mp member with before | last
    · exact ih before
    · rw [List.mem_singleton.mp last]
      rw [Nat.isDigit_digitChar]
      exact decide_eq_true (Nat.mod_lt n (by decide))

theorem ofDigitChars_lastDigits (k n : ℕ) : Nat.ofDigitChars 10 (lastDigits k n) 0 = n % 10 ^ k := by
  induction k generalizing n with
  | zero => rw [lastDigits, Nat.ofDigitChars_nil, Nat.pow_zero, Nat.mod_one]
  | succ k ih =>
    rw [lastDigits, Nat.ofDigitChars_append, ih, Nat.ofDigitChars_cons_digitChar_of_lt_ten (Nat.mod_lt n (by decide)),
      Nat.ofDigitChars_nil, Nat.pow_succ', Nat.mod_mul, Nat.add_comm]

theorem length_lastDigits (k n : ℕ) : (lastDigits k n).length = k := by
  induction k generalizing n with
  | zero => rfl
  | succ k ih => rw [lastDigits, List.length_append, ih, List.length_singleton]

theorem digitsValue_eq (int frac : List Char) :
    digitsValue int frac = Nat.ofDigitChars 10 int 0 + Nat.ofDigitChars 10 frac 0 / 10 ^ frac.length := by
  rw [digitsValue, Nat.ofDigitChars_append, Nat.ofDigitChars_eq_ofDigitChars_zero]
  push_cast
  field_simp

/-- Zeros at the end of a fraction do not count. -/
theorem digitsValue_zeros (int frac : List Char) (j : ℕ) :
    digitsValue int (frac ++ List.replicate j '0') = digitsValue int frac := by
  rw [digitsValue_eq, digitsValue_eq, Nat.ofDigitChars_append, Nat.ofDigitChars_replicate_zero, List.length_append,
    List.length_replicate]
  push_cast
  rw [pow_add]
  field_simp

theorem rdropWhile_zeros (l : List Char) : ∃ j, l.rdropWhile (· == '0') ++ List.replicate j '0' = l := by
  refine ⟨(l.rtakeWhile (· == '0')).length, ?_⟩
  have zeros : l.rtakeWhile (· == '0') = List.replicate (l.rtakeWhile (· == '0')).length '0' := by
    refine List.eq_replicate_iff.mpr ⟨rfl, fun c member => ?_⟩
    have zero : (c == '0') = true := List.mem_rtakeWhile_imp (p := fun c => c == '0') member
    exact eq_of_beq zero
  rw [← zeros]
  exact List.rdropWhile_append_rtakeWhile ..

theorem fraction_digit {k n : ℕ} {c : Char} (member : c ∈ fraction k n) : c.isDigit = true :=
  lastDigits_digit ((List.rdropWhile_prefix _ _).subset member)

theorem toDigits_digit {n : ℕ} {c : Char} (member : c ∈ Nat.toDigits 10 n) : c.isDigit = true :=
  Nat.isDigit_of_mem_toDigits (by decide) (by decide) member

theorem lastDigits_zeros {k n : ℕ} (divides : 10 ^ k ∣ n) : ∀ c ∈ lastDigits k n, c = '0' := by
  induction k generalizing n with
  | zero => exact fun c member => (List.not_mem_nil member).elim
  | succ k ih =>
    obtain ⟨m, rfl⟩ := divides
    have last : 10 ^ (k + 1) * m % 10 = 0 := by
      rw [Nat.pow_succ', Nat.mul_assoc, Nat.mul_mod_right]
    have others : 10 ^ (k + 1) * m / 10 = 10 ^ k * m := by
      rw [Nat.pow_succ', Nat.mul_assoc, Nat.mul_div_cancel_left _ (by decide)]
    intro c member
    rw [lastDigits, last, others] at member
    rcases List.mem_append.mp member with before | zero
    · exact ih (Nat.dvd_mul_right _ _) c before
    · exact List.mem_singleton.mp zero

theorem fraction_eq_nil_iff {k n : ℕ} : fraction k n = [] ↔ 10 ^ k ∣ n := by
  rw [fraction, List.rdropWhile_eq_nil_iff]
  constructor
  · intro zeros
    have replicated : lastDigits k n = List.replicate k '0' :=
      List.eq_replicate_iff.mpr ⟨length_lastDigits k n, fun c member => eq_of_beq (zeros c member)⟩
    have value := ofDigitChars_lastDigits k n
    rw [replicated, Nat.ofDigitChars_replicate_zero, Nat.mul_zero] at value
    exact Nat.dvd_of_mod_eq_zero value.symm
  · intro divides c member
    exact beq_iff_eq.mpr (lastDigits_zeros divides c member)

theorem digitsValue_fixed (n k : ℕ) : digitsValue (Nat.toDigits 10 (n / 10 ^ k)) (fraction k n) = n / 10 ^ k := by
  obtain ⟨j, whole⟩ := rdropWhile_zeros (lastDigits k n)
  rw [← digitsValue_zeros _ _ j, fraction, whole, digitsValue_eq, ofDigitChars_lastDigits, length_lastDigits,
    Nat.ofDigitChars_ten_toDigits]
  have parts : (n : ℚ) = 10 ^ k * (n / 10 ^ k : ℕ) + (n % 10 ^ k : ℕ) := by
    exact_mod_cast (Nat.div_add_mod n (10 ^ k)).symm
  rw [parts]
  field_simp

/-- A character that is no digit is in no digits. -/
theorem not_mem_digits {l : List Char} {c : Char} (digits : ∀ d ∈ l, d.isDigit = true) (other : c.isDigit = false) :
    c ∉ l := fun member => Bool.false_ne_true (other.symm.trans (digits c member))

theorem readFixed_fixedText (n k : ℕ) : readFixed (fixedText n k) = n / 10 ^ k := by
  have int : '.' ∉ Nat.toDigits 10 (n / 10 ^ k) := not_mem_digits (fun _ => toDigits_digit) rfl
  have frac : '.' ∉ fraction k n := not_mem_digits (fun _ => fraction_digit) rfl
  have value := digitsValue_fixed n k
  rw [fixedText]
  by_cases whole : fraction k n = []
  · rw [whole] at value
    rw [if_pos whole, List.append_nil, readFixed, List.splitOn_eq_singleton int, value]
  · rw [if_neg whole, readFixed, List.splitOn_append_cons_self_of_not_mem int, List.splitOn_eq_singleton frac]
    exact value

theorem fixedText_chars {n k : ℕ} {c : Char} (member : c ∈ fixedText n k) : c.isDigit = true ∨ c = '.' := by
  rw [fixedText] at member
  rcases List.mem_append.mp member with int | rest
  · exact .inl (toDigits_digit int)
  · split_ifs at rest
    · exact (List.not_mem_nil rest).elim
    · rcases List.mem_cons.mp rest with point | frac
      · exact .inr point
      · exact .inl (fraction_digit frac)

theorem e_not_mem_fixedText (n k : ℕ) : 'e' ∉ fixedText n k := by
  intro member
  rcases fixedText_chars member with digit | point
  · exact absurd digit (by decide)
  · exact absurd point (by decide)

theorem exponentText_chars {e : ℤ} {c : Char} (member : c ∈ exponentText e) : c.isDigit = true ∨ c = '-' ∨ c = '+' := by
  rw [exponentText] at member
  rcases List.mem_cons.mp member with sign | digits
  · split_ifs at sign
    · exact .inr (.inl sign)
    · exact .inr (.inr sign)
  · rcases List.mem_append.mp digits with padding | number
    · split_ifs at padding
      · rw [List.mem_singleton.mp padding]
        exact .inl rfl
      · exact (List.not_mem_nil padding).elim
    · exact .inl (toDigits_digit number)

theorem readExponent_exponentText (e : ℤ) : readExponent (exponentText e) = e := by
  have value : Nat.ofDigitChars 10 ((if e.natAbs < 10 then ['0'] else []) ++ Nat.toDigits 10 e.natAbs) 0 = e.natAbs := by
    split_ifs
    · rw [Nat.ofDigitChars_append, show Nat.ofDigitChars 10 ['0'] 0 = 0 from rfl, Nat.ofDigitChars_ten_toDigits]
    · rw [List.nil_append, Nat.ofDigitChars_ten_toDigits]
  rw [exponentText]
  by_cases negative : e < 0
  · rw [if_pos negative, readExponent, value]
    omega
  · rw [if_neg negative, readExponent, value]
    omega

theorem readNumber_fixedText (n k : ℕ) : readNumber (fixedText n k) = n / 10 ^ k := by
  rw [readNumber, List.splitOn_eq_singleton (e_not_mem_fixedText n k)]
  exact readFixed_fixedText n k

theorem readNumber_exponent (n k : ℕ) (e : ℤ) :
    readNumber (fixedText n k ++ 'e' :: exponentText e) = n / 10 ^ k * 10 ^ e := by
  have last : 'e' ∉ exponentText e := by
    intro member
    rcases exponentText_chars member with digit | minus | plus
    · exact absurd digit (by decide)
    · exact absurd minus (by decide)
    · exact absurd plus (by decide)
  rw [readNumber, List.splitOn_append_cons_self_of_not_mem (e_not_mem_fixedText n k), List.splitOn_eq_singleton last]
  dsimp only
  rw [readFixed_fixedText, readExponent_exponentText]

/-- The text denotes the number. -/
theorem readNumber_text {p : ℕ} (s : Scientific p) : readNumber s.text = s.value := by
  have ten : (10 : ℚ) ≠ 0 := by norm_num
  rw [Scientific.text, Scientific.value]
  split_ifs with plain
  · have places : s.exponent - p = -((p - s.exponent).toNat : ℤ) := by omega
    rw [readNumber_fixedText, places, zpow_neg, zpow_natCast, div_eq_mul_inv]
  · rw [readNumber_exponent, zpow_sub₀ ten, zpow_natCast]
    field_simp

theorem readNumber_general (p : ℕ) (x : ℚ) : readNumber (general p x) = rounded p x := by
  rw [general, rounded]
  split_ifs
  · exact readNumber_text _
  · have zero : ['0'] = fixedText 0 0 := by decide
    rw [zero, readNumber_fixedText, Nat.cast_zero, zero_div]

/-! ### Numbers without exponent -/

namespace Scientific
variable {p : ℕ} (s : Scientific p)

/-- The text has no exponent. -/
def Plain : Prop := -4 ≤ s.exponent ∧ s.exponent ≤ p

/-- The digits behind the decimal point, with zeros at the end. -/
def places : ℕ := (p - s.exponent).toNat

theorem value_bounds : (10 : ℚ) ^ s.exponent ≤ s.value ∧ s.value < 10 ^ (s.exponent + 1) := by
  have ten : (10 : ℚ) ≠ 0 := by norm_num
  have unit : (0 : ℚ) < 10 ^ (s.exponent - p) := zpow_pos (by norm_num) _
  have lower : ((10 : ℚ) ^ (p : ℤ)) ≤ s.digits := by exact_mod_cast s.lower
  have upper : (s.digits : ℚ) < 10 ^ ((p + 1 : ℕ) : ℤ) := by exact_mod_cast s.upper
  constructor
  · calc (10 : ℚ) ^ s.exponent = 10 ^ (p : ℤ) * 10 ^ (s.exponent - p) := by rw [← zpow_add₀ ten]; congr 1; ring
      _ ≤ s.value := mul_le_mul_of_nonneg_right lower unit.le
  · calc s.value < 10 ^ ((p + 1 : ℕ) : ℤ) * 10 ^ (s.exponent - p) := mul_lt_mul_of_pos_right upper unit
      _ = 10 ^ (s.exponent + 1) := by rw [← zpow_add₀ ten]; congr 1; push_cast; ring

theorem plain_iff : s.Plain ↔ 1 / 10 ^ 4 ≤ s.value ∧ s.value < 10 ^ (p + 1) := by
  have ten : (1 : ℚ) < 10 := by norm_num
  have lowest : (1 / 10 ^ 4 : ℚ) = 10 ^ (-4 : ℤ) := by norm_num
  have highest : (10 : ℚ) ^ (p + 1) = 10 ^ ((p : ℤ) + 1) := by exact_mod_cast (zpow_natCast (10 : ℚ) (p + 1)).symm
  obtain ⟨lower, upper⟩ := s.value_bounds
  rw [lowest, highest]
  constructor
  · rintro ⟨low, high⟩
    exact ⟨(zpow_le_zpow_right₀ ten.le low).trans lower, upper.trans_le (zpow_le_zpow_right₀ ten.le (by omega))⟩
  · rintro ⟨low, high⟩
    have above := (zpow_lt_zpow_iff_right₀ ten).mp (low.trans_lt upper)
    have below := (zpow_lt_zpow_iff_right₀ ten).mp (lower.trans_lt high)
    exact ⟨by omega, by omega⟩

variable {s}

theorem Plain.value_eq (plain : s.Plain) : s.value = s.digits / 10 ^ s.places := by
  have exponent : s.exponent - p = -(s.places : ℤ) := by
    have := plain.2
    rw [places]
    omega
  rw [value, exponent, zpow_neg, zpow_natCast, div_eq_mul_inv]

/-- The text ends before a decimal point. -/
theorem Plain.whole_iff (plain : s.Plain) : 10 ^ s.places ∣ s.digits ↔ ∃ n : ℕ, s.value = n := by
  have unit : (10 : ℚ) ^ s.places ≠ 0 := pow_ne_zero _ (by norm_num)
  rw [plain.value_eq]
  constructor
  · rintro ⟨n, whole⟩
    refine ⟨n, ?_⟩
    rw [whole]
    push_cast
    field_simp
  · rintro ⟨n, whole⟩
    refine ⟨n, ?_⟩
    rw [div_eq_iff unit] at whole
    exact_mod_cast whole.trans (mul_comm _ _)

theorem text_plain (plain : s.Plain) : s.text = fixedText s.digits s.places := if_pos plain

theorem text_exponent (large : ¬ s.Plain) : s.text = fixedText s.digits p ++ 'e' :: exponentText s.exponent :=
  if_neg large

/-- The digits alone have another value. -/
theorem value_ne (large : ¬ s.Plain) : (s.digits : ℚ) / 10 ^ p ≠ s.value := by
  have ten : (10 : ℚ) ≠ 0 := by norm_num
  have positive : (s.digits : ℚ) ≠ 0 := by
    have := (Nat.pow_pos (by decide : 0 < 10)).trans_le s.lower
    exact_mod_cast Nat.ne_of_gt this
  have moved : (10 : ℚ) ^ s.exponent ≠ 10 ^ (0 : ℤ) := by
    intro same
    have zero : s.exponent = 0 := zpow_right_injective₀ (by norm_num) (by norm_num) same
    exact large ⟨by omega, by omega⟩
  rw [value, zpow_sub₀ ten, zpow_natCast]
  intro same
  apply moved
  field_simp at same
  rw [zpow_zero]
  exact same.symm

end Scientific

end CilkArtifact.Decimal
