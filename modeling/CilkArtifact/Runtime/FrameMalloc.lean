import Mathlib.Data.List.GetD
import Mathlib.Tactic.Common

/-! The block sizes of the runtime's memory allocator (`frame_malloc.c`). -/
namespace CilkArtifact.Runtime

/-- `__cilkrts_bucket_sizes` -/
def bucketSizes : List ℕ := [64, 128, 256, 512, 1024, 2048]

def FRAME_MALLOC_MAX_SIZE : ℕ := 2048

/-- `FRAME_MALLOC_BUCKET_TO_SIZE` -/
def bucketToSize (bucket : ℕ) : ℕ := bucketSizes.getD bucket 0

/-- `bucket_of_size`, which asserts that a size above `FRAME_MALLOC_MAX_SIZE` cannot happen. -/
def bucketOfSize (size : ℕ) : ℕ := bucketSizes.findIdx (size ≤ ·)

/-- `__cilkrts_frame_malloc_roundup` -/
def frameMallocRoundup (size : ℕ) : ℕ :=
  if size > FRAME_MALLOC_MAX_SIZE then size else bucketToSize (bucketOfSize size)

theorem bucketOfSize_spec {size : ℕ} (small : size ≤ FRAME_MALLOC_MAX_SIZE) :
    bucketOfSize size < bucketSizes.length ∧ size ≤ bucketToSize (bucketOfSize size) := by
  have fits : ∃ s ∈ bucketSizes, decide (size ≤ s) = true := ⟨2048, by decide, decide_eq_true small⟩
  have bound : bucketOfSize size < bucketSizes.length := List.findIdx_lt_length.mpr fits
  have least := List.findIdx_getElem (w := bound)
  rw [decide_eq_true_iff] at least
  exact ⟨bound, by rwa [bucketToSize, List.getD_eq_getElem _ _ bound]⟩

theorem le_roundup (size : ℕ) : size ≤ frameMallocRoundup size := by
  unfold frameMallocRoundup
  split
  · exact Nat.le_refl _
  · exact (bucketOfSize_spec (Nat.not_lt.mp ‹_›)).2

theorem block_le_roundup (size : ℕ) : 64 ≤ frameMallocRoundup size := by
  unfold frameMallocRoundup
  split
  · exact Nat.le_trans (by decide) (Nat.le_of_lt ‹size > FRAME_MALLOC_MAX_SIZE›)
  · have bound := (bucketOfSize_spec (Nat.not_lt.mp ‹¬ size > FRAME_MALLOC_MAX_SIZE›)).1
    have all : ∀ i < bucketSizes.length, 64 ≤ bucketToSize i := by decide
    exact all _ bound

end CilkArtifact.Runtime
