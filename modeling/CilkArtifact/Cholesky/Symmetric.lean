import CilkArtifact.Cholesky.Factor
import Mathlib.Algebra.Order.Star.Real

/-! Matrices built with `set_matrix` from entries on and below the diagonal, and their factors. -/
namespace CilkArtifact.Cholesky
open Quadtree
variable {K : Type} {level : ℕ}

/-! ### Single entries -/

section Single
variable [Zero K]

theorem returns_assertIndices {r c : ℕ} {α : Type} {rest : Unit → Alloc α} {post : α → Prop} (hr : r < size level)
    (hc : c < size level) (returns : Returns (rest ()) post) :
    Returns (assertIndices level r c >>= rest) post := by
  have passed : Returns (assertIndices level r c) fun _ => True := by
    apply returns_assert (decide_eq_true hr)
    rw [assertTrue, if_pos (decide_eq_true hc)]
    exact returns_pure trivial
  exact passed.bind fun _ _ => returns

theorem getMatrix_spec (level : ℕ) : ∀ (a : Quadtree K level) {r c : ℕ}, r < size level → c < size level →
    Returns (getMatrix level a r c) fun value => value = get a r c := by
  induction level with
  | zero =>
    intro a r c hr hc
    cases a with
    | null => exact returns_assertIndices hr hc (returns_pure get_null.symm)
    | leaf address block => exact returns_assertIndices hr hc (returns_pure (get_leaf block).symm)
  | succ level ih =>
    intro a r c hr hc
    cases a with
    | null => exact returns_assertIndices hr hc (returns_pure get_null.symm)
    | internal address a00 a01 a10 a11 =>
      rw [getMatrix]
      apply returns_assertIndices hr hc
      rw [size_succ] at hr hc
      dsimp only
      rw [get]
      by_cases upper : r < size level
      · by_cases left : c < size level
        · simpa only [if_pos upper, if_pos left] using ih a00 upper left
        · simpa only [if_pos upper, if_neg left] using ih a01 upper (by omega)
      · by_cases left : c < size level
        · simpa only [if_neg upper, if_pos left] using ih a10 (by omega) left
        · simpa only [if_neg upper, if_neg left] using ih a11 (by omega) (by omega)

/-- The entries of `a'` are those of `a`, but for entry `(r, c)`. -/
def Sets (a : Quadtree K level) (r c : ℕ) (value : K) (a' : Quadtree K level) : Prop :=
  ∀ i j, i < size level → j < size level → get a' i j = if i = r ∧ j = c then value else get a i j

omit [Zero K] in
theorem addressOf_returns (a : Quadtree K (level + 1)) : Returns (addressOf a) fun _ => True := by
  cases a with
  | null => exact fun next => ⟨next, next + 1, rfl, trivial⟩
  | internal address a00 a01 a10 a11 => exact returns_pure trivial

theorem Sets.of_quadrants {a : Quadtree K (level + 1)} {address r c : ℕ} {value : K}
    {x00 x01 x10 x11 : Quadtree K level}
    (h00 : ∀ i j, i < size level → j < size level →
      get x00 i j = if i = r ∧ j = c then value else get (children a).c00 i j)
    (h01 : ∀ i j, i < size level → j < size level →
      get x01 i j = if i = r ∧ size level + j = c then value else get (children a).c01 i j)
    (h10 : ∀ i j, i < size level → j < size level →
      get x10 i j = if size level + i = r ∧ j = c then value else get (children a).c10 i j)
    (h11 : ∀ i j, i < size level → j < size level →
      get x11 i j = if size level + i = r ∧ size level + j = c then value else get (children a).c11 i j) :
    Sets a r c value (internal address x00 x01 x10 x11) := by
  refine forall_quadrants ?_ ?_ ?_ ?_
  · intro i j hi hj
    rw [get_00 hi hj, get_children_00 a hi hj, h00 i j hi hj]
  · intro i j hi hj
    rw [get_01 hi, get_children_01 a hi, h01 i j hi hj]
  · intro i j hi hj
    rw [get_10 hj, get_children_10 a hj, h10 i j hi hj]
  · intro i j hi hj
    rw [get_11, get_children_11 a, h11 i j hi hj]

theorem setMatrix_spec (level : ℕ) : ∀ (a : Quadtree K level) {r c : ℕ} (value : K), r < size level →
    c < size level → Returns (setMatrix level a r c value) (Sets a r c value) := by
  induction level with
  | zero =>
    intro a r c value hr hc
    rw [setMatrix]
    apply returns_assertIndices hr hc
    refine (leafOf_returns a).bind fun node fact => ?_
    obtain ⟨address, block⟩ := node
    obtain ⟨rfl, -⟩ := fact
    refine returns_pure fun i j _ _ => ?_
    rw [get_leaf, setEntry]
  | succ level ih =>
    intro a r c value hr hc
    rw [setMatrix]
    apply returns_assertIndices hr hc
    rw [size_succ] at hr hc
    refine (addressOf_returns a).bind fun address _ => ?_
    dsimp only
    by_cases upper : r < size level
    · by_cases left : c < size level
      · rw [if_pos upper, if_pos left]
        exact (ih _ value upper left).bind fun a00 sets => returns_pure (.of_quadrants sets
          (fun i j _ _ => (if_neg (by omega)).symm) (fun i j _ _ => (if_neg (by omega)).symm)
          (fun i j _ _ => (if_neg (by omega)).symm))
      · rw [if_pos upper, if_neg left]
        exact (ih _ value upper (by omega)).bind fun a01 sets => returns_pure (.of_quadrants
          (fun i j _ _ => (if_neg (by omega)).symm)
          (fun i j hi hj => (sets i j hi hj).trans (if_congr (by omega) rfl rfl))
          (fun i j _ _ => (if_neg (by omega)).symm) (fun i j _ _ => (if_neg (by omega)).symm))
    · by_cases left : c < size level
      · rw [if_neg upper, if_pos left]
        exact (ih _ value (by omega) left).bind fun a10 sets => returns_pure (.of_quadrants
          (fun i j _ _ => (if_neg (by omega)).symm) (fun i j _ _ => (if_neg (by omega)).symm)
          (fun i j hi hj => (sets i j hi hj).trans (if_congr (by omega) rfl rfl))
          (fun i j _ _ => (if_neg (by omega)).symm))
      · rw [if_neg upper, if_neg left]
        exact (ih _ value (by omega) (by omega)).bind fun a11 sets => returns_pure (.of_quadrants
          (fun i j _ _ => (if_neg (by omega)).symm) (fun i j _ _ => (if_neg (by omega)).symm)
          (fun i j _ _ => (if_neg (by omega)).symm)
          (fun i j hi hj => (sets i j hi hj).trans (if_congr (by omega) rfl rfl)))

/-- One `set_matrix` after the other, starting from `NULL`. -/
def setEntries (level : ℕ) (entries : List (ℕ × ℕ × K)) : Alloc (Quadtree K level) :=
  entries.foldlM (fun a entry => setMatrix level a entry.1 entry.2.1 entry.2.2) null

theorem setEntries_spec (level : ℕ) (entries : List (ℕ × ℕ × K))
    (below : ∀ entry ∈ entries, entry.2.1 ≤ entry.1 ∧ entry.1 < size level) :
    Returns (setEntries level entries) fun a => ∀ i j, i < j → j < size level → get a i j = 0 := by
  have steps (a : Quadtree K level) (zero : ∀ i j, i < j → j < size level → get a i j = 0) :
      Returns (entries.foldlM (fun a entry => setMatrix level a entry.1 entry.2.1 entry.2.2) a) fun a =>
        ∀ i j, i < j → j < size level → get a i j = 0 := by
    induction entries generalizing a with
    | nil => exact returns_pure zero
    | cons entry entries ih =>
      obtain ⟨inside, rest⟩ := List.forall_mem_cons.mp below
      refine (setMatrix_spec level a entry.2.2 inside.2 (by omega)).bind fun a' sets => ?_
      refine ih rest a' fun i j above bound => ?_
      rw [sets i j (by omega) bound, if_neg (by omega), zero i j above bound]
  exact steps null fun i j _ _ => get_null

end Single

/-! ### Factors over the reals -/

variable [Field K]

theorem exactRoot_sqrt : ExactRoot Real.sqrt := fun x nonnegative => ⟨x.sqrt_nonneg, Real.mul_self_sqrt nonnegative⟩

/-- The entries of a matrix. -/
def dense (a : Quadtree K level) : Matrix (Fin (size level)) (Fin (size level)) K := .of fun r c => get a r c

/-- The symmetric matrix with the entries of `a` on and below the diagonal. -/
def completion (a : Quadtree K level) : Matrix (Fin (size level)) (Fin (size level)) K :=
  .of fun r c => get a (max r.val c.val) (min r.val c.val)

/-- Entries of the product of a lower triangular matrix with its transpose. -/
theorem mul_transpose_apply {R : Quadtree K level} {G : ℕ → ℕ → K}
    (entries : ∀ i j, i < size level → j < size level → get R i j = if j ≤ i then G i j else 0)
    (r c : Fin (size level)) (above : c.val ≤ r.val) :
    (dense R * (dense R).transpose) r c = ∑ t ∈ Finset.range c, G r t * G c t + G r c * G c c := by
  have terms : (dense R * (dense R).transpose) r c =
      ∑ t ∈ Finset.range (size level), (if t ≤ r then G r t else 0) * if t ≤ c then G c t else 0 := by
    rw [Matrix.mul_apply, Finset.sum_range]
    apply Finset.sum_congr rfl
    intro t _
    rw [Matrix.transpose_apply, dense, Matrix.of_apply, Matrix.of_apply, entries r t r.isLt t.isLt,
      entries c t c.isLt t.isLt]
  rw [terms, ← Finset.sum_range_succ (fun t => G r t * G c t)]
  symm
  apply Finset.sum_subset_zero_on_sdiff
  · intro t inside
    rw [Finset.mem_range] at inside ⊢
    omega
  · intro t outside
    rw [Finset.mem_sdiff, Finset.mem_range, Finset.mem_range] at outside
    rw [if_neg (show ¬ t ≤ c.val by omega), mul_zero]
  · intro t inside
    rw [Finset.mem_range] at inside
    rw [if_pos (by omega), if_pos (by omega)]

/-- A positive definite matrix built from entries on and below the diagonal is factored without a failed
assertion, and the result is its lower triangular factor. -/
theorem cholesky_factors (level : ℕ) (entries : List (ℕ × ℕ × ℝ))
    (below : ∀ entry ∈ entries, entry.2.1 ≤ entry.1 ∧ entry.1 < size level) {a : Quadtree ℝ level} {next next' : ℕ}
    (built : setEntries level entries next = some (a, next')) (definite : (completion a).PosDef) :
    ∃ R next'', cholesky Real.sqrt level a next' = some (R, next'') ∧ (dense R).IsLowerTriangular ∧
      dense R * (dense R).transpose = completion a := by
  have zero : ∀ i j, i < j → j < size level → get a i j = 0 := by
    obtain ⟨a', s, run, zero⟩ := setEntries_spec level entries below next
    rw [built] at run
    cases run
    exact zero
  obtain ⟨G, factors, pivots⟩ := exists_isCholesky (S := fun r c => get a (max r c) (min r c))
    (fun r c => by rw [max_comm, min_comm]) definite
  have factors' : IsCholesky (size level) (get a) G := by
    intro r c above inside
    have entry := factors r c above inside
    simpa only [max_eq_left above, min_eq_right above] using entry
  obtain ⟨R, next'', run, result, -⟩ := cholesky_spec exactRoot_sqrt level pivots factors' next'
  have lower (i j : ℕ) (hi : i < size level) (hj : j < size level) : get R i j = if j ≤ i then G i j else 0 := by
    rw [result i j hi hj]
    by_cases below : j ≤ i
    · rw [if_pos below, if_pos below]
    · rw [if_neg below, if_neg below, zero i j (by omega) hj]
  have product (r c : Fin (size level)) (above : c.val ≤ r.val) :
      (dense R * (dense R).transpose) r c = completion a r c := by
    rw [mul_transpose_apply lower r c above, ← factors r c above r.isLt, completion, Matrix.of_apply]
  refine ⟨R, next'', run, ?_, ?_⟩
  · intro r c above
    have above : r < c := above
    rw [dense, Matrix.of_apply, lower r c r.isLt c.isLt, if_neg (by omega)]
  · ext r c
    rcases le_total c.val r.val with above | above
    · exact product r c above
    · have symmetric : (dense R * (dense R).transpose) r c = (dense R * (dense R).transpose) c r := by
        simp only [Matrix.mul_apply, Matrix.transpose_apply, mul_comm]
      rw [symmetric, product c r above, completion, Matrix.of_apply, Matrix.of_apply, max_comm, min_comm]

/-- The general path, with a block of zeros below the diagonal. -/
theorem cholesky_factors_zero_block :
    let entries : List (ℕ × ℕ × ℝ) :=
      [(0, 0, 4), (1, 1, 4), (2, 2, 4), (3, 3, 4), (5, 1, 0), (4, 4, 9), (5, 5, 9), (6, 6, 9), (7, 7, 9)]
    ∃ a next', setEntries 1 entries 0 = some (a, next') ∧
      ∃ R next'', cholesky Real.sqrt 1 a next' = some (R, next'') ∧ (dense R).IsLowerTriangular ∧
        dense R * (dense R).transpose = completion a := by
  intro entries
  refine ⟨_, _, rfl, ?_⟩
  apply cholesky_factors 1 entries (by decide) (show setEntries 1 entries 0 = _ from rfl)
  have diagonal : (Matrix.diagonal fun i : Fin (size 1) => if i.val < 4 then (4 : ℝ) else 9).PosDef := by
    refine Matrix.PosDef.diagonal fun i => ?_
    split <;> norm_num
  convert diagonal using 1
  ext i j
  fin_cases i <;> fin_cases j <;> rfl

end CilkArtifact.Cholesky
