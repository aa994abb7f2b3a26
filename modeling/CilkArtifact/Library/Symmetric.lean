import CilkArtifact.Library.Triangular
import Mathlib.Analysis.Matrix.PosDef
import Mathlib.Analysis.Real.Sqrt

/-! Cholesky factors of symmetric matrices, given by the entries on and below the diagonal. -/
namespace CilkArtifact

/-- The product of the factor `G` with its transpose has the entries `S` on and below the diagonal. -/
def IsCholesky {K : Type} [Field K] (n : ℕ) (S G : ℕ → ℕ → K) : Prop :=
  ∀ r c, c ≤ r → r < n → S r c = ∑ t ∈ Finset.range c, G r t * G c t + G r c * G c c

section Existence
variable {S : ℕ → ℕ → ℝ} {n : ℕ}

/-- The rows of the upper factor of a symmetric matrix are multiples of the columns of the lower one. -/
theorem doolittle_symmetric (symmetric : ∀ r c, S r c = S c r) (c : ℕ) :
    ∀ r, c < r → doolittle S r c = doolittle S c r / doolittle S c c := by
  induction c using Nat.strong_induction_on with
  | _ c ih =>
    intro r below
    have sums : ∑ t ∈ Finset.range c, doolittle S r t * doolittle S t c =
        ∑ t ∈ Finset.range c, doolittle S c t * doolittle S t r := by
      apply Finset.sum_congr rfl
      intro t before
      rw [Finset.mem_range] at before
      rw [ih t before r (by omega), ih t before c before]
      ring
    rw [doolittle_eq S r c, doolittle_eq S c r, if_neg (by omega), if_pos below.le, min_eq_right below.le,
      min_eq_left below.le, sums, symmetric r c]

/-- The Cholesky factor, from the upper factor. -/
noncomputable def choleskyFactor (S : ℕ → ℕ → ℝ) (r c : ℕ) : ℝ := doolittle S c r / √(doolittle S c c)

theorem doolittle_pivot_pos (positive : ∀ k, k ≤ n → 0 < (Matrix.of fun i j : Fin k => S i j).det) (i : ℕ)
    (inside : i < n) : 0 < doolittle S i i := by
  have pivots := doolittle_pivot_ne_zero fun k smaller => (positive k smaller).ne'
  have larger := positive (i + 1) inside
  have smaller := positive i inside.le
  rw [det_of_isLU (isLU_doolittle S (i + 1) fun j before => pivots j (by omega)), Fin.prod_univ_castSucc] at larger
  rw [det_of_isLU (isLU_doolittle S i fun j before => pivots j (by omega))] at smaller
  exact (mul_pos_iff_of_pos_left smaller).mp larger

theorem choleskyFactor_diagonal (i : ℕ) : choleskyFactor S i i = √(doolittle S i i) := by
  rw [choleskyFactor, Real.div_sqrt]

theorem isCholesky_choleskyFactor (symmetric : ∀ r c, S r c = S c r) (pivots : ∀ i < n, 0 < doolittle S i i) :
    IsCholesky n S (choleskyFactor S) := by
  intro r c above inside
  have term (r c t : ℕ) (bound : t < n) : choleskyFactor S r t * choleskyFactor S c t =
      doolittle S t r * doolittle S t c / doolittle S t t := by
    rw [choleskyFactor, choleskyFactor, div_mul_div_comm, Real.mul_self_sqrt (pivots t bound).le]
  have sums : ∑ t ∈ Finset.range c, choleskyFactor S r t * choleskyFactor S c t =
      ∑ t ∈ Finset.range c, doolittle S c t * doolittle S t r := by
    apply Finset.sum_congr rfl
    intro t before
    rw [Finset.mem_range] at before
    rw [term r c t (by omega), doolittle_symmetric symmetric t c before]
    ring
  have entry := doolittle_eq S c r
  rw [if_pos above, min_eq_left above] at entry
  rw [sums, term r c c (by omega), mul_div_cancel_right₀ _ (pivots c (by omega)).ne', entry, symmetric r c]
  ring

/-- A positive definite matrix has a Cholesky factor with a positive diagonal. -/
theorem exists_isCholesky (symmetric : ∀ r c, S r c = S c r)
    (definite : (Matrix.of fun r c : Fin n => S r c).PosDef) :
    ∃ G, IsCholesky n S G ∧ ∀ i < n, 0 < G i i := by
  have positive (k : ℕ) (smaller : k ≤ n) : 0 < (Matrix.of fun i j : Fin k => S i j).det :=
    (definite.submatrix (Fin.castLE_injective smaller)).det_pos
  have pivots := doolittle_pivot_pos positive
  refine ⟨choleskyFactor S, isCholesky_choleskyFactor symmetric pivots, fun i inside => ?_⟩
  rw [choleskyFactor_diagonal, Real.sqrt_pos]
  exact pivots i inside

end Existence

end CilkArtifact
