import CilkArtifact.Library.Window
import Mathlib.Data.Matrix.Mul

/-! Products of matrices that are left in an array, or added to what the array holds. -/
namespace CilkArtifact.Buffer
open Finset
variable {R : Type}

/-- The matrix at `C` has been written, and nothing else. -/
structure Leaves (ld C m p : ℕ) (v : ℕ → ℕ → R) (array array' : Buffer ℕ R) : Prop where
  changes : Changes (window C ld m p) array array'
  holds : Holds array' C ld m p v

variable {array array' array'' : Buffer ℕ R} {ld C m n p m1 n1 p1 : ℕ} {x y z v v₁ v₂ : ℕ → ℕ → R} {add : Bool}

theorem Leaves.refl (ld C p : ℕ) (v : ℕ → ℕ → R) (array : Buffer ℕ R) : Leaves ld C 0 p v array array :=
  ⟨.refl _ array, fun i _ row => absurd row (Nat.not_lt_zero i)⟩

/-- One entry. -/
theorem leaves_entry {w : R} (filled : array'.read C = some w) (changes : Changes {C} array array') :
    Leaves ld C 1 1 (fun _ _ => w) array array' := by
  constructor
  · apply changes.mono
    rintro _ rfl
    exact ⟨0, 0, Nat.one_pos, Nat.one_pos, by omega⟩
  · intro i k hi hk
    obtain rfl := Nat.lt_one_iff.mp hi
    obtain rfl := Nat.lt_one_iff.mp hk
    simpa using filled

/-- A matrix is made up of the rows above row `m1` and those from it on. -/
theorem mem_window_rows {k : ℕ} (split : m1 ≤ m) :
    k ∈ window C ld m p ↔ k ∈ window C ld m1 p ∨ k ∈ window (C + m1 * ld) ld (m - m1) p := by
  constructor
  · rintro ⟨i, j, hi, hj, rfl⟩
    rcases Nat.lt_or_ge i m1 with upper | lower
    · exact .inl (mem_window upper hj)
    · obtain ⟨i, rfl⟩ := Nat.exists_eq_add_of_le lower
      refine .inr ⟨i, j, by omega, hj, ?_⟩
      rw [Nat.add_mul]
      omega
  · rintro (upper | lower)
    · exact window_mono split le_rfl upper
    · exact window_below split lower

theorem mem_window_columns {k : ℕ} (split : p1 ≤ p) :
    k ∈ window C ld m p ↔ k ∈ window C ld m p1 ∨ k ∈ window (C + p1) ld m (p - p1) := by
  constructor
  · rintro ⟨i, j, hi, hj, rfl⟩
    rcases Nat.lt_or_ge j p1 with left | right
    · exact .inl (mem_window hi left)
    · exact .inr ⟨i, j - p1, hi, by omega, by omega⟩
  · rintro (left | right)
    · exact window_mono le_rfl split left
    · exact window_right split right

theorem below_apart (C p m1 m k : ℕ) (wide : p ≤ ld) (member : k ∈ window C ld m1 p) :
    k ∉ window (C + m1 * ld) ld (m - m1) p := by
  have apart := @window_apart C ld 0 0 m1 0 m1 p (m - m1) p k (by omega) (by omega) (by omega)
  simp only [Nat.zero_mul, Nat.add_zero] at apart
  exact apart member

theorem right_apart (C p p1 m k : ℕ) (wide : p ≤ ld) (split : p1 ≤ p) (member : k ∈ window C ld m p1) :
    k ∉ window (C + p1) ld m (p - p1) := by
  have apart := @window_apart C ld 0 0 0 p1 m p1 m (p - p1) k (by omega) (by omega) (by omega)
  simp only [Nat.zero_mul, Nat.add_zero] at apart
  exact apart member

/-- Two parts, one below the other. -/
theorem Leaves.rows (wide : p ≤ ld) (split : m1 ≤ m) (first : Leaves ld C m1 p v₁ array array')
    (second : Leaves ld (C + m1 * ld) (m - m1) p v₂ array' array'') (above : ∀ i k, i < m1 → k < p → v i k = v₁ i k)
    (below : ∀ i k, i < m - m1 → k < p → v (m1 + i) k = v₂ i k) : Leaves ld C m p v array array'' := by
  constructor
  · exact (first.changes.mono (window_mono split le_rfl)).trans (second.changes.mono (window_below split))
  · intro i k hi hk
    by_cases upper : i < m1
    · rw [read_changes second.changes (below_apart C p m1 m _ wide (mem_window upper hk)), first.holds i k upper hk,
        above i k upper hk]
    · obtain ⟨i, rfl⟩ := Nat.exists_eq_add_of_le (Nat.not_lt.mp upper)
      rw [below i k (by omega) hk, Nat.add_mul, ← Nat.add_assoc, second.holds i k (by omega) hk]

/-- Two parts, side by side. -/
theorem Leaves.columns (wide : p ≤ ld) (split : p1 ≤ p) (first : Leaves ld C m p1 v₁ array array')
    (second : Leaves ld (C + p1) m (p - p1) v₂ array' array'') (left : ∀ i k, i < m → k < p1 → v i k = v₁ i k)
    (right : ∀ i k, i < m → k < p - p1 → v i (p1 + k) = v₂ i k) : Leaves ld C m p v array array'' := by
  constructor
  · exact (first.changes.mono (window_mono le_rfl split)).trans (second.changes.mono (window_right split))
  · intro i k hi hk
    by_cases before : k < p1
    · rw [read_changes second.changes (right_apart C p p1 m _ wide split (mem_window hi before)),
        first.holds i k hi before, left i k hi before]
    · obtain ⟨k, rfl⟩ := Nat.exists_eq_add_of_le (Nat.not_lt.mp before)
      rw [right i k hi (by omega), show C + i * ld + (p1 + k) = C + p1 + i * ld + k by omega,
        second.holds i k hi (by omega)]

/-- There is one array with the given entries and the given other cells. -/
theorem Leaves.unique (room : Room array C ld m p) (first : Leaves ld C m p v array array')
    (second : Leaves ld C m p v array array'') : array' = array'' := by
  have cells (k : ℕ) : array'.cell k = array''.cell k := by
    by_cases member : k ∈ window C ld m p
    · have inside : array'.inside k = true := by rw [first.changes.inside, room k member]
      have inside' : array''.inside k = true := by rw [second.changes.inside, room k member]
      obtain ⟨i, j, hi, hj, rfl⟩ := member
      rw [← read_eq inside, ← read_eq inside', first.holds i j hi hj, second.holds i j hi hj]
    · rw [first.changes.frame k member, second.changes.frame k member]
  obtain ⟨inside', cell'⟩ := array'
  obtain ⟨inside'', cell''⟩ := array''
  have insides : inside' = inside'' := first.changes.inside.trans second.changes.inside.symm
  have contents : cell' = cell'' := funext cells
  rw [insides, contents]

/-! ### Products -/

section Products
variable [Semiring R]

/-- What is in the array at `C` if the product is added, or nothing to add to. -/
def Found (add : Bool) (array : Buffer ℕ R) (C ld m p : ℕ) (z : ℕ → ℕ → R) : Prop :=
  if add then Holds array C ld m p z else ∀ i k, i < m → k < p → z i k = 0

def addProduct (n : ℕ) (x y z : ℕ → ℕ → R) (i k : ℕ) : R := z i k + ∑ j ∈ range n, x i j * y j k

/-- What is found in the entry `(i, k)`, unless it has been changed. -/
theorem Found.entry {i k : ℕ} (found : Found add array C ld m p z) (row : i < m) (column : k < p)
    (same : array'.read (C + i * ld + k) = array.read (C + i * ld + k)) :
    if add then array'.read (C + i * ld + k) = some (z i k) else z i k = 0 := by
  cases add with
  | true =>
    have holds : Holds array C ld m p z := found
    exact same.trans (holds i k row column)
  | false => exact found i k row column

theorem Found.above (found : Found add array C ld m p z) (split : m1 ≤ m) : Found add array C ld m1 p z := by
  cases add with
  | true =>
    have holds : Holds array C ld m p z := found
    exact fun i k hi hk => holds i k (by omega) hk
  | false =>
    have zero : ∀ i k, i < m → k < p → z i k = 0 := found
    exact fun i k hi hk => zero i k (by omega) hk

theorem Found.left (found : Found add array C ld m p z) (split : p1 ≤ p) : Found add array C ld m p1 z := by
  cases add with
  | true =>
    have holds : Holds array C ld m p z := found
    exact fun i k hi hk => holds i k hi (by omega)
  | false =>
    have zero : ∀ i k, i < m → k < p → z i k = 0 := found
    exact fun i k hi hk => zero i k hi (by omega)

theorem Found.below (found : Found add array C ld m p z) (split : m1 ≤ m) (wide : p ≤ ld)
    (changes : Changes (window C ld m1 p) array array') :
    Found add array' (C + m1 * ld) ld (m - m1) p (part z m1 0) := by
  cases add with
  | true =>
    have holds : Holds array C ld m p z := found
    have rest : Holds array (C + m1 * ld) ld (m - m1) p (part z m1 0) :=
      holds.part (show m1 + (m - m1) ≤ m by omega) (show 0 + p ≤ p by omega)
    exact rest.changes changes fun k member before => below_apart C p m1 m k wide before member
  | false =>
    have zero : ∀ i k, i < m → k < p → z i k = 0 := found
    exact fun i k hi hk => zero _ _ (by omega) (by omega)

theorem Found.right (found : Found add array C ld m p z) (split : p1 ≤ p) (wide : p ≤ ld)
    (changes : Changes (window C ld m p1) array array') :
    Found add array' (C + p1) ld m (p - p1) (part z 0 p1) := by
  cases add with
  | true =>
    have holds : Holds array C ld m p z := found
    have rest := holds.part (show 0 + m ≤ m by omega) (show p1 + (p - p1) ≤ p by omega)
    rw [Nat.zero_mul, Nat.add_zero] at rest
    exact rest.changes changes fun k member before => right_apart C p p1 m k wide split before member
  | false =>
    have zero : ∀ i k, i < m → k < p → z i k = 0 := found
    exact fun i k hi hk => zero _ _ (by omega) (by omega)

/-- The first half of an inner product is what the second half finds. -/
theorem addProduct_inner (split : n1 ≤ n) (i k : ℕ) :
    addProduct (n - n1) (part x 0 n1) (part y n1 0) (addProduct n1 x y z) i k = addProduct n x y z i k := by
  obtain ⟨rest, rfl⟩ := Nat.exists_eq_add_of_le split
  simp only [addProduct, part, Nat.add_sub_cancel_left, Nat.zero_add, sum_range_add, add_assoc]

/-- The same with the second half first. -/
theorem addProduct_inner_second (split : n1 ≤ n) (i k : ℕ) :
    addProduct n1 x y (addProduct (n - n1) (part x 0 n1) (part y n1 0) z) i k = addProduct n x y z i k := by
  rw [← addProduct_inner split]
  simp only [addProduct, add_right_comm]

end Products

/-! ### Blocks

An array of blocks, each with `e` rows of `e` elements. -/

section Blocks
variable [Zero R] (e : ℕ)

/-- The cells of the blocks in `S`. -/
def elements (S : Set ℕ) : Set ℕ := {k | k / (e * e) ∈ S}

/-- The array as one of matrices. -/
def blocked (array : Buffer ℕ R) : Buffer ℕ (Matrix (Fin e) (Fin e) R) where
  inside P := decide (∀ s t : Fin e, array.inside (e * e * P + s * e + t) = true)
  cell P :=
    if ∀ s t : Fin e, (array.cell (e * e * P + s * e + t)).isSome then
      some (Matrix.of fun s t => (array.cell (e * e * P + s * e + t)).getD 0)
    else none

variable {e} {array array' : Buffer ℕ R} {P : ℕ} {M : Matrix (Fin e) (Fin e) R}

theorem elements_mono {S T : Set ℕ} (sub : S ⊆ T) : elements e S ⊆ elements e T := fun _ member => sub member

theorem element_div (P : ℕ) (s t : Fin e) : (e * e * P + s * e + t) / (e * e) = P := by
  have row : (s : ℕ) * e + t < e * e := by
    calc (s : ℕ) * e + t < s * e + e := by omega
      _ = (s + 1) * e := by ring
      _ ≤ e * e := Nat.mul_le_mul_right e s.isLt
  rw [Nat.add_assoc, Nat.mul_add_div (by omega), Nat.div_eq_of_lt row, Nat.add_zero]

theorem inside_blocked : (blocked e array).inside P = true ↔
    ∀ s t : Fin e, array.inside (e * e * P + s * e + t) = true := decide_eq_true_iff

theorem read_blocked : (blocked e array).read P = some M ↔
    ∀ s t : Fin e, array.read (e * e * P + s * e + t) = some (M s t) := by
  constructor
  · intro found s t
    obtain ⟨inside, filled⟩ := Option.ite_none_right_eq_some.mp found
    obtain ⟨known, same⟩ := Option.ite_none_right_eq_some.mp filled
    obtain ⟨v, value⟩ := Option.isSome_iff_exists.mp (known s t)
    rw [← Option.some.inj same, read_eq (inside_blocked.mp inside s t), value]
    simp [value]
  · intro found
    have inside (s t : Fin e) : array.inside (e * e * P + s * e + t) = true :=
      (Option.ite_none_right_eq_some.mp (found s t)).1
    have filled (s t : Fin e) : array.cell (e * e * P + s * e + t) = some (M s t) := by
      rw [← read_eq (inside s t), found s t]
    rw [read_eq (inside_blocked.mpr inside)]
    simp only [blocked, filled, Option.isSome_some, implies_true, if_true, Option.getD_some]
    rfl

theorem Changes.blocked {S : Set ℕ} (changes : Changes (elements e S) array array') :
    Changes S (blocked e array) (blocked e array') := by
  constructor
  · simp only [Buffer.blocked, changes.inside]
  · intro P outside
    have same (s t : Fin e) : array'.cell (e * e * P + s * e + t) = array.cell (e * e * P + s * e + t) := by
      refine changes.frame _ fun member => outside ?_
      rwa [elements, Set.mem_ofPred_eq, element_div] at member
    simp only [Buffer.blocked, same]

/-- The matrix of a block is in the array itself. -/
theorem holds_block [NeZero e] : Holds array (e * e * P) e e e (fun s t => M (Fin.ofNat e s) (Fin.ofNat e t)) ↔
    (blocked e array).read P = some M := by
  rw [read_blocked]
  constructor
  · intro holds s t
    simpa only [Fin.ofNat_val_eq_self] using holds s t s.isLt t.isLt
  · intro found i j hi hj
    simpa only [Fin.val_ofNat, Nat.mod_eq_of_lt hi, Nat.mod_eq_of_lt hj] using found (Fin.ofNat e i) (Fin.ofNat e j)

/-- The blocks at `C` have been written, and nothing else. -/
structure LeavesBlocks (e ld C m p : ℕ) (v : ℕ → ℕ → Matrix (Fin e) (Fin e) R) (array array' : Buffer ℕ R) :
    Prop where
  changes : Changes (elements e (window C ld m p)) array array'
  holds : Holds (blocked e array') C ld m p v

variable {array'' : Buffer ℕ R} {v v₁ v₂ : ℕ → ℕ → Matrix (Fin e) (Fin e) R}

theorem LeavesBlocks.leaves (leaves : LeavesBlocks e ld C m p v array array') :
    Leaves ld C m p v (blocked e array) (blocked e array') := ⟨leaves.changes.blocked, leaves.holds⟩

theorem LeavesBlocks.rows (wide : p ≤ ld) (split : m1 ≤ m) (first : LeavesBlocks e ld C m1 p v₁ array array')
    (second : LeavesBlocks e ld (C + m1 * ld) (m - m1) p v₂ array' array'')
    (above : ∀ i k, i < m1 → k < p → v i k = v₁ i k) (below : ∀ i k, i < m - m1 → k < p → v (m1 + i) k = v₂ i k) :
    LeavesBlocks e ld C m p v array array'' where
  changes := (first.changes.mono (elements_mono (window_mono split le_rfl))).trans
    (second.changes.mono (elements_mono (window_below split)))
  holds := (first.leaves.rows wide split second.leaves above below).holds

theorem LeavesBlocks.columns (wide : p ≤ ld) (split : p1 ≤ p) (first : LeavesBlocks e ld C m p1 v₁ array array')
    (second : LeavesBlocks e ld (C + p1) m (p - p1) v₂ array' array'')
    (left : ∀ i k, i < m → k < p1 → v i k = v₁ i k) (right : ∀ i k, i < m → k < p - p1 → v i (p1 + k) = v₂ i k) :
    LeavesBlocks e ld C m p v array array'' where
  changes := (first.changes.mono (elements_mono (window_mono le_rfl split))).trans
    (second.changes.mono (elements_mono (window_right split)))
  holds := (first.leaves.columns wide split second.leaves left right).holds

end Blocks
end CilkArtifact.Buffer
