import Mathlib.Algebra.BigOperators.Intervals
import Mathlib.Algebra.BigOperators.Ring.Finset
import Mathlib.Tactic.Ring

/-! The discrete Fourier transform over a commutative ring and its decimation by an arbitrary radix. -/
namespace CilkArtifact
open Finset
variable {A : Type} [CommRing A]

/-- Coefficient `j` of the transform of `f 0, …, f (n - 1)` with the root of unity `w`. -/
def dft (w : A) (n : ℕ) (f : ℕ → A) (j : ℕ) : A := ∑ i ∈ range n, f i * w ^ (i * j)

theorem dft_one (w : A) (f : ℕ → A) (j : ℕ) : dft w 1 f j = f 0 := by
  simp [dft]

/-- Sums by rows. -/
theorem sum_range_rows (g : ℕ → A) (r m : ℕ) :
    ∑ t ∈ range (m * r), g t = ∑ i ∈ range m, ∑ j ∈ range r, g (i * r + j) := by
  induction m with
  | zero => simp
  | succ m ih => rw [Nat.succ_mul, sum_range_add, ih, sum_range_succ]

/-- A transform of size `m * r` from `r` transforms of size `m`, one for each residue modulo `r`. -/
theorem dft_decimate {w : A} {r m : ℕ} (root : w ^ (m * r) = 1) (f : ℕ → A) (q k : ℕ) :
    dft w (m * r) f (q + k * m) =
      ∑ j ∈ range r, dft (w ^ r) m (fun i => f (i * r + j)) q * w ^ (j * (q + k * m)) := by
  have power (i j : ℕ) : w ^ ((i * r + j) * (q + k * m)) = (w ^ r) ^ (i * q) * w ^ (j * (q + k * m)) := by
    calc w ^ ((i * r + j) * (q + k * m))
        = (w ^ (m * r)) ^ (i * k) * ((w ^ r) ^ (i * q) * w ^ (j * (q + k * m))) := by ring
      _ = (w ^ r) ^ (i * q) * w ^ (j * (q + k * m)) := by rw [root, one_pow, one_mul]
  simp only [dft, sum_range_rows, sum_mul]
  rw [sum_comm]
  refine sum_congr rfl fun j _ => sum_congr rfl fun i _ => ?_
  rw [power, mul_assoc]

end CilkArtifact
