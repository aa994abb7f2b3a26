import CilkArtifact.Library.Buffer
import Mathlib.Tactic.Linarith

/-! Algorithms that fill an array column by column: columns `a, …, b - 1` of a table with `r` rows whose
rows are `m` apart. -/
namespace CilkArtifact.Buffer
variable {β : Type} {y y' y'' : Buffer ℕ β} {start a b c r m : ℕ} {value : ℕ → ℕ → β}

/-- Where row `t` of column `i` is. -/
def place (start m i t : ℕ) : ℕ := start + i + t * m

theorem place_inj {i i' t t' : ℕ} (hi : i < m) (hi' : i' < m) (same : place start m i t = place start m i' t') :
    i = i' ∧ t = t' := by
  have shifted : i + t * m = i' + t' * m := by
    rw [place, place] at same
    omega
  have column : (i + t * m) % m = i := by rw [Nat.add_mul_mod_self_right, Nat.mod_eq_of_lt hi]
  have column' : (i' + t' * m) % m = i' := by rw [Nat.add_mul_mod_self_right, Nat.mod_eq_of_lt hi']
  have row : (i + t * m) / m = t := by
    rw [Nat.add_mul_div_right _ _ (by omega), Nat.div_eq_of_lt hi, Nat.zero_add]
  have row' : (i' + t' * m) / m = t' := by
    rw [Nat.add_mul_div_right _ _ (by omega), Nat.div_eq_of_lt hi', Nat.zero_add]
  exact ⟨by rw [← column, shifted, column'], by rw [← row, shifted, row']⟩

theorem place_add (start m i t u : ℕ) : place start m i t + u * m = place start m i (t + u) := by
  rw [place, place, Nat.add_mul, Nat.add_assoc]

theorem place_succ (start m i t : ℕ) : place start m i t + m = place start m i (t + 1) := by
  rw [← place_add, Nat.one_mul]

/-- The places in the first `r` rows of columns `a, …, b - 1`. -/
def columns (start m a b r : ℕ) : Set ℕ := {k | ∃ i t, a ≤ i ∧ i < b ∧ t < r ∧ k = place start m i t}

theorem place_lt {i t : ℕ} (hi : i < m) (ht : t < r) : place start m i t < start + r * m := by
  have rows : (t + 1) * m ≤ r * m := Nat.mul_le_mul_right m ht
  rw [Nat.succ_mul] at rows
  rw [place]
  omega

theorem columns_sub_span (inside : b ≤ m) : columns start m a b r ⊆ span start (r * m) := by
  rintro _ ⟨i, t, _, upper, row, rfl⟩
  rw [mem_span]
  exact ⟨by rw [place]; omega, place_lt (by omega) row⟩

/-- From `y` to `y'`, the places of the columns received `value`, the others did not change. -/
structure Fills (start m a b r : ℕ) (value : ℕ → ℕ → β) (y y' : Buffer ℕ β) : Prop where
  changes : Changes (columns start m a b r) y y'
  filled : ∀ i t, a ≤ i → i < b → t < r → y'.cell (place start m i t) = some (value i t)

theorem Fills.empty (y : Buffer ℕ β) (a b : ℕ) : Fills start m a b 0 value y y :=
  ⟨.refl _ y, fun i t _ _ row => by cases row⟩

theorem Fills.none (y : Buffer ℕ β) (a r : ℕ) : Fills start m a a r value y y :=
  ⟨.refl _ y, fun i t lower upper => by omega⟩

/-- Columns on the left, then columns on the right. -/
theorem Fills.append (left : Fills start m a b r value y y') (right : Fills start m b c r value y' y'')
    (first : a ≤ b) (second : b ≤ c) (inside : c ≤ m) : Fills start m a c r value y y'' := by
  constructor
  · refine (left.changes.mono ?_).trans (right.changes.mono ?_)
    · rintro _ ⟨i, t, lower, upper, row, rfl⟩
      exact ⟨i, t, lower, by omega, row, rfl⟩
    · rintro _ ⟨i, t, lower, upper, row, rfl⟩
      exact ⟨i, t, by omega, upper, row, rfl⟩
  · intro i t lower upper row
    rcases Nat.lt_or_ge i b with before | after
    · rw [right.changes.frame, left.filled i t lower before row]
      rintro ⟨i', t', lower', upper', _, same⟩
      have := (place_inj (by omega) (by omega) same).1
      omega
    · exact right.filled i t after upper row

/-- The next row of a column. -/
theorem Fills.row {i t : ℕ} (fills : Fills start m i (i + 1) t value y y') (inside : i < m)
    (changes : Changes {place start m i t} y' y'') (written : y''.cell (place start m i t) = some (value i t)) :
    Fills start m i (i + 1) (t + 1) value y y'' := by
  constructor
  · refine (fills.changes.mono ?_).trans (changes.mono ?_)
    · rintro _ ⟨i', t', lower, upper, row, rfl⟩
      exact ⟨i', t', lower, upper, by omega, rfl⟩
    · rintro _ rfl
      exact ⟨i, t, by omega, by omega, by omega, rfl⟩
  · intro i' t' lower upper row
    obtain rfl : i' = i := by omega
    rcases Nat.lt_or_ge t' t with before | after
    · rw [changes.frame, fills.filled i' t' lower upper before]
      intro same
      have := (place_inj inside inside same).2
      omega
    · obtain rfl : t' = t := by omega
      exact written

/-- All columns, index by index. -/
theorem Fills.cell {j : ℕ} (fills : Fills start m 0 m r value y y') (bound : j < r * m) :
    y'.cell (start + j) = some (value (j % m) (j / m)) := by
  have positive : 0 < m := by
    rcases Nat.eq_zero_or_pos m with rfl | positive
    · omega
    · exact positive
  have found := fills.filled (j % m) (j / m) (Nat.zero_le _) (Nat.mod_lt j positive)
    (Nat.div_lt_of_lt_mul (by rwa [Nat.mul_comm]))
  rwa [place, Nat.add_assoc, Nat.mod_add_div'] at found

theorem Fills.spans {n : ℕ} (fills : Fills start m a b r value y y') (spans : y.Spans start n) : y'.Spans start n :=
  spans.changes fills.changes

theorem inside_place {i t : ℕ} (spans : y.Spans start (r * m)) (column : i < m) (row : t < r) :
    y.inside (place start m i t) = true :=
  spans _ (mem_span.mpr ⟨by rw [place]; omega, place_lt column row⟩)

end CilkArtifact.Buffer
