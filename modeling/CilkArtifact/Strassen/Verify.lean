import CilkArtifact.Strassen.Naive
import Mathlib.Algebra.Order.Field.Rat
import Mathlib.Algebra.Order.Ring.Abs
import Mathlib.Tactic.Positivity

/-! The comparison `compare_matrix` of `strassen.c`, with exact rationals for `REAL`. -/
namespace CilkArtifact.Strassen
open Buffer
variable {n rw p i j : ℕ}

/-- The relative error `c`. -/
def relativeError (a b : ℚ) : Option ℚ := divide (if a - b < 0 then -(a - b) else a - b) a

def EPSILON : ℚ := 1 / 10 ^ 6

/-- The body of the loops: `some (-1)` for `return -1`. -/
def compareEntry (A : Buffer ℕ ℚ) (an : ℕ) (B : Buffer ℕ ℚ) (bn i j : ℕ) : Option (Option ℤ) := do
  let a ← elem A 0 an i j
  let b ← elem B 0 bn i j
  let c ← relativeError a b
  if EPSILON < c then some (some (-1)) else some none

def compareMatrix (n : ℕ) (A : Buffer ℕ ℚ) (an : ℕ) (B : Buffer ℕ ℚ) (bn : ℕ) : Option ℤ := do
  let left ← returnLoop (fun i => returnLoop (compareEntry A an B bn i) n 0) n 0
  some (left.getD 0)

/-! ### Comparison -/

section Compare
variable {C C2 : Buffer ℕ ℚ} {cn bn : ℕ} {c c2 : ℕ → ℕ → ℚ}

theorem relativeError_nonzero {a : ℚ} (nonzero : a ≠ 0) (b : ℚ) : relativeError a b = some (|a - b| / a) := by
  have absolute : (if a - b < 0 then -(a - b) else a - b) = |a - b| := by
    by_cases negative : a - b < 0
    · rw [if_pos negative, abs_of_neg negative]
    · rw [if_neg negative, abs_of_nonneg (not_lt.mp negative)]
  rw [relativeError, absolute, divide_ne_zero nonzero]

theorem compareEntry_eq {a b : ℚ} (left : elem C 0 cn i j = some a) (right : elem C2 0 bn i j = some b)
    (nonzero : a ≠ 0) :
    compareEntry C cn C2 bn i j = if EPSILON < |a - b| / a then some (some (-1)) else some none := by
  simp only [compareEntry, left, right, relativeError_nonzero nonzero, Option.bind_eq_bind, Option.bind_some]

/-- All rows went through. -/
theorem compareMatrix_zero_iff : compareMatrix n C cn C2 bn = some 0 ↔
    ∀ i < n, ∀ j < n, compareEntry C cn C2 bn i j = some none := by
  have rows : returnLoop (fun i => returnLoop (compareEntry C cn C2 bn i) n 0) n 0 = some none ↔
      ∀ i < n, ∀ j < n, compareEntry C cn C2 bn i j = some none := by
    simp only [returnLoop_none_iff, Nat.zero_add]
  rw [← rows, compareMatrix]
  cases run : returnLoop (fun i => returnLoop (compareEntry C cn C2 bn i) n 0) n 0 with
  | none => simp
  | some left =>
    cases left with
    | none => simp
    | some r =>
      -- A function that was left returned a minus one.
      obtain ⟨i, _, row⟩ := returnLoop_some n 0 run
      obtain ⟨j, _, entry⟩ := returnLoop_some n 0 row
      have value : r = -1 := by
        simp only [compareEntry, Option.bind_eq_bind, Option.bind_eq_some_iff] at entry
        obtain ⟨a, _, b, _, c, _, test⟩ := entry
        by_cases large : EPSILON < c
        · rw [if_pos large] at test
          exact (Option.some.inj (Option.some.inj test)).symm
        · rw [if_neg large] at test
          cases test
      simp [value]

theorem compareMatrix_fails {r : ℤ} (run : compareMatrix n C cn C2 bn = some r) (nonzero : r ≠ 0) :
    ∃ i < n, ∃ j < n, compareEntry C cn C2 bn i j = some (some r) := by
  obtain ⟨left, loops, value⟩ := Option.bind_eq_some_iff.mp run
  cases left with
  | none =>
    cases value
    exact absurd rfl nonzero
  | some r' =>
    cases Option.some.inj value
    obtain ⟨i, row, entries⟩ := returnLoop_some n 0 loops
    obtain ⟨j, column, entry⟩ := returnLoop_some n 0 entries
    rw [Nat.zero_add] at entries entry
    rw [Nat.zero_add] at entry
    exact ⟨i, row, j, column, entry⟩

theorem compareMatrix_total (total : ∀ i < n, ∀ j < n, ∃ left, compareEntry C cn C2 bn i j = some left) :
    ∃ r, compareMatrix n C cn C2 bn = some r := by
  have rows : ∀ i < n, ∃ left, returnLoop (compareEntry C cn C2 bn i) n 0 = some left := by
    intro i row
    refine returnLoop_total n 0 fun j column => ?_
    rw [Nat.zero_add]
    exact total i row j column
  obtain ⟨left, run⟩ : ∃ left, returnLoop (fun i => returnLoop (compareEntry C cn C2 bn i) n 0) n 0 = some left := by
    refine returnLoop_total n 0 fun i row => ?_
    rw [Nat.zero_add]
    exact rows i row
  exact ⟨left.getD 0, by simp only [compareMatrix, run, Option.bind_eq_bind, Option.bind_some]⟩

/-- The comparison with any matrix of this row width returns, and it returns zero only if all entries of that are
as close to those of `C` as they have to be. -/
def ComparesSoundly (n : ℕ) (C : Buffer ℕ ℚ) (cn bn : ℕ) (c : ℕ → ℕ → ℚ) : Prop :=
  ∀ C2 c2, Holds C2 0 bn n n c2 → ∃ r, compareMatrix n C cn C2 bn = some r ∧
    (r = 0 → ∀ i < n, ∀ j < n, |c i j - c2 i j| ≤ EPSILON * |c i j|)

/-- An array for a matrix with rows of this width. -/
def matrixArray (w : ℕ) (M : ℕ → ℕ → ℚ) : Buffer ℕ ℚ := ⟨fun _ => true, fun k => some (M (k / w) (k % w))⟩

theorem matrixArray_holds (fits : n ≤ rw) (M : ℕ → ℕ → ℚ) : Holds (matrixArray rw M) 0 rw n n M := by
  intro i j _ column
  have inside : j < rw := column.trans_le fits
  rw [matrixArray, read_eq rfl, Nat.zero_add, Nat.mul_comm]
  change some (M ((rw * i + j) / rw) ((rw * i + j) % rw)) = some (M i j)
  rw [Nat.mul_add_div (by omega), Nat.div_eq_of_lt inside, Nat.mul_add_mod, Nat.mod_eq_of_lt inside, Nat.add_zero]

theorem elem_value {M : ℕ → ℕ → ℚ} {v : ℚ} {y : Buffer ℕ ℚ} (holds : Holds y p rw n n M) (row : i < n) (column : j < n)
    (found : elem y p rw i j = some v) : v = M i j := by
  obtain ⟨k, index, read⟩ := Option.bind_eq_some_iff.mp found
  obtain ⟨_, same⟩ := Option.ite_none_right_eq_some.mp index
  rw [← Option.some.inj same, ← Nat.add_assoc, holds i j row column] at read
  exact (Option.some.inj read).symm

theorem EPSILON_pos : 0 < EPSILON := by norm_num [EPSILON]

theorem comparesSoundly_of_positive (holds : Holds C 0 cn n n c) (positive : ∀ i < n, ∀ j < n, 0 < c i j)
    (indexedC : Indexed n cn) (indexedB : Indexed n bn) : ComparesSoundly n C cn bn c := by
  intro C2 c2 other
  have entry : ∀ i < n, ∀ j < n, compareEntry C cn C2 bn i j =
      if EPSILON < |c i j - c2 i j| / c i j then some (some (-1)) else some none := fun i row j column =>
    compareEntry_eq (indexedC.elem holds row column) (indexedB.elem other row column) (positive i row j column).ne'
  obtain ⟨r, run⟩ : ∃ r, compareMatrix n C cn C2 bn = some r := by
    refine compareMatrix_total fun i row j column => ?_
    rw [entry i row j column]
    split
    · exact ⟨_, rfl⟩
    · exact ⟨_, rfl⟩
  refine ⟨r, run, ?_⟩
  rintro rfl i row j column
  have passed := compareMatrix_zero_iff.mp run i row j column
  rw [entry i row j column] at passed
  have close : |c i j - c2 i j| / c i j ≤ EPSILON := by
    by_contra large
    rw [if_pos (not_le.mp large)] at passed
    cases passed
  rw [abs_of_pos (positive i row j column)]
  exact (div_le_iff₀ (positive i row j column)).mp close

/-- A comparison of equal matrices only stops at an index that overflows. -/
theorem compareMatrix_self (holds : Holds C 0 cn n n c) (other : Holds C2 0 bn n n c) {r : ℤ}
    (run : compareMatrix n C cn C2 bn = some r) : Indexed n cn ∧ Indexed n bn := by
  have passed : r = 0 := by
    by_contra nonzero
    obtain ⟨i, row, j, column, entry⟩ := compareMatrix_fails run nonzero
    simp only [compareEntry, Option.bind_eq_bind, Option.bind_eq_some_iff] at entry
    obtain ⟨a, left, b, right, e, error, test⟩ := entry
    rw [elem_value holds row column left, elem_value other row column right, relativeError, sub_self,
      if_neg (lt_irrefl 0), divide] at error
    obtain ⟨_, same⟩ := Option.ite_none_left_eq_some.mp error
    rw [← Option.some.inj same, zero_div, if_neg (not_lt.mpr EPSILON_pos.le)] at test
    cases test
  rcases Nat.eq_zero_or_pos n with rfl | nonempty
  · exact ⟨indexed_zero cn, indexed_zero bn⟩
  · rw [passed] at run
    have last := compareMatrix_zero_iff.mp run (n - 1) (by omega) (n - 1) (by omega)
    simp only [compareEntry, Option.bind_eq_bind, Option.bind_eq_some_iff] at last
    obtain ⟨a, left, b, right, _⟩ := last
    obtain ⟨_, indexC⟩ := elem_index left
    obtain ⟨_, indexB⟩ := elem_index right
    exact ⟨indexed_of_last nonempty indexC, indexed_of_last nonempty indexB⟩

/-- A negative entry is never compared: its relative error is not positive. -/
theorem compareMatrix_negative (holds : Holds C 0 cn n n c) (nonzero : ∀ i < n, ∀ j < n, c i j ≠ 0)
    (indexedC : Indexed n cn) (indexedB : Indexed n bn) (negative : c i j < 0) (v : ℚ)
    (other : Holds C2 0 bn n n (setEntry c i j v)) : compareMatrix n C cn C2 bn = some 0 := by
  refine compareMatrix_zero_iff.mpr fun i' row j' column => ?_
  rw [compareEntry_eq (indexedC.elem holds row column) (indexedB.elem other row column) (nonzero i' row j' column)]
  refine if_neg (not_lt.mpr ?_)
  by_cases here : i' = i ∧ j' = j
  · obtain ⟨rfl, rfl⟩ := here
    exact (div_nonpos_of_nonneg_of_nonpos (abs_nonneg _) negative.le).trans EPSILON_pos.le
  · rw [setEntry, if_neg here, sub_self, abs_zero, zero_div]
    exact EPSILON_pos.le

theorem ComparesSoundly.positive (holds : Holds C 0 cn n n c) (nonzero : ∀ i < n, ∀ j < n, c i j ≠ 0) (rows : n ≤ bn)
    (indexedC : Indexed n cn) (indexedB : Indexed n bn) (sound : ComparesSoundly n C cn bn c) :
    ∀ i < n, ∀ j < n, 0 < c i j := by
  intro i row j column
  by_contra nonpositive
  have negative : c i j < 0 := lt_of_le_of_ne (not_lt.mp nonpositive) (nonzero i row j column)
  have other := matrixArray_holds rows (setEntry c i j 0)
  obtain ⟨r, run, close⟩ := sound _ _ other
  rw [compareMatrix_negative holds nonzero indexedC indexedB negative 0 other, Option.some.injEq] at run
  have small := close run.symm i row j column
  rw [setEntry, if_pos ⟨rfl, rfl⟩, sub_zero] at small
  have size : 0 < |c i j| := abs_pos.mpr negative.ne
  have less : EPSILON * |c i j| < 1 * |c i j| := mul_lt_mul_of_pos_right (by norm_num [EPSILON]) size
  rw [one_mul] at less
  exact absurd small (not_le.mpr less)

/-- The quotient has the sign of the entry of `C`, so that only positive entries are checked. -/
theorem compareMatrix_sound_iff (holds : Holds C 0 cn n n c) (nonzero : ∀ i < n, ∀ j < n, c i j ≠ 0) (rows : n ≤ bn) :
    ComparesSoundly n C cn bn c ↔
      (∀ i < n, ∀ j < n, 0 < c i j) ∧ extent n cn ≤ 2 ^ 31 ∧ extent n bn ≤ 2 ^ 31 := by
  constructor
  · intro sound
    have same := matrixArray_holds rows c
    obtain ⟨r, run, _⟩ := sound _ _ same
    obtain ⟨indexedC, indexedB⟩ := compareMatrix_self holds same run
    exact ⟨sound.positive holds nonzero rows indexedC indexedB, indexedC, indexedB⟩
  · rintro ⟨positive, indexedC, indexedB⟩
    exact comparesSoundly_of_positive holds positive indexedC indexedB

theorem compareMatrix_sound_ones : ComparesSoundly 2 (matrixArray 3 fun _ _ => 1) 3 2 fun _ _ => 1 :=
  (compareMatrix_sound_iff (matrixArray_holds (by decide) _) (fun _ _ _ _ => one_ne_zero) (by decide)).mpr
    ⟨fun _ _ _ _ => one_pos, by decide, by decide⟩

/-- A product of minus one passes where a million is right. -/
theorem compareMatrix_accepts_wrong :
    compareMatrix 1 (matrixArray 1 fun _ _ => -1) 1 (matrixArray 1 fun _ _ => 10 ^ 6) 1 = some 0 ∧
      ¬|(-1 : ℚ) - 10 ^ 6| ≤ EPSILON * |-1| := by
  constructor
  · have entry : setEntry (fun _ _ => (-1 : ℚ)) 0 0 (10 ^ 6) 0 0 = 10 ^ 6 := if_pos ⟨rfl, rfl⟩
    refine compareMatrix_negative (i := 0) (j := 0) (matrixArray_holds (Nat.le_refl 1) _)
      (fun _ _ _ _ => by norm_num) (by rw [Indexed]; decide) (by rw [Indexed]; decide) (by norm_num)
      (10 ^ 6) ?_
    refine (matrixArray_holds (Nat.le_refl 1) _).congr fun i j row column => ?_
    rw [Nat.lt_one_iff.mp row, Nat.lt_one_iff.mp column, entry]
  · norm_num [EPSILON]

end Compare

end CilkArtifact.Strassen
