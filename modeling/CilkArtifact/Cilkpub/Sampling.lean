import CilkArtifact.Cilkpub.Repack

/-! Which elements the three samplers look at. The sorts are right for any sample, but a sampler should be able to reach
all of the input. -/
namespace CilkArtifact.Cilkpub

/-- `n_sample` for a range of length `n`. -/
def sampleCount (n : ℕ) : ℕ := floorLg2 n * chooseNumberOfBins n - 1

/-- A number that the generator can return selects place `q`. -/
def Selects (numbers : Set ℕ) (nSample q : ℕ) : Prop := ∃ number ∈ numbers, randomPlace (fun _ => number) nSample 0 = some q

/-- All samples are inside of the range and have a cell in `tmp`; those of `build_sample_tree` are in order and reach up
to the end. -/
structure SamplersInside (dprng dprand : Set ℕ) (n : ℕ) : Prop where
  room : sampleCount n ≤ O_MAX * MAX_BINS - 1
  regular : ∀ i < sampleCount n, ∃ p < n, regularPlace n (sampleCount n) i = some p
  increasing : ∀ i j p q, i < j → j < sampleCount n → regularPlace n (sampleCount n) i = some p →
    regularPlace n (sampleCount n) j = some q → p < q
  last : ∀ p, regularPlace n (sampleCount n) (sampleCount n - 1) = some p → n - sampleCount n ≤ p
  dotmix_inside : ∀ number ∈ dprng, ∃ p < n, randomPlace (fun _ => number) (sampleCount n) 0 = some p
  dprand_inside : ∀ number ∈ dprand, ∃ p < n, randomPlace (fun _ => number) (sampleCount n) 0 = some p

/-- In addition, the random samplers can select every place. -/
structure SamplersCover (dprng dprand : Set ℕ) (n : ℕ) : Prop extends SamplersInside dprng dprand n where
  dotmix_all : ∀ q < n, Selects dprng (sampleCount n) q
  dprand_all : ∀ q < n, Selects dprand (sampleCount n) q

variable {n : ℕ}

theorem thirtyTwo_mul_le_two_pow {k : ℕ} (large : 8 ≤ k) : 32 * k ≤ 2 ^ k := by
  induction k, large using Nat.le_induction with
  | base => decide
  | succ k large ih =>
    rw [pow_succ]
    omega

theorem floorLg2_bounds (large : SAMPLESORT_QSORT_CUTOFF < n) : 10 ≤ floorLg2 n ∧ 2 ^ floorLg2 n ≤ n := by
  rw [SAMPLESORT_QSORT_CUTOFF] at large
  rw [floorLg2_eq_log]
  refine ⟨?_, Nat.pow_log_le_self 2 (by omega)⟩
  exact Nat.le_log_of_pow_le (by decide) (by omega)

/-- There are fewer samples than elements. -/
theorem sampleCount_bounds (large : SAMPLESORT_QSORT_CUTOFF < n) : 1 < sampleCount n ∧ sampleCount n < n := by
  obtain ⟨d, few, bins, -⟩ := chooseNumberOfBins_spec large
  obtain ⟨ten, power⟩ := floorLg2_bounds large
  have atMost : chooseNumberOfBins n ≤ 32 := by
    rw [bins]
    exact Nat.pow_le_pow_right (by decide) few
  have positive : 0 < chooseNumberOfBins n := by
    rw [bins]
    exact Nat.two_pow_pos d
  have product : floorLg2 n * chooseNumberOfBins n ≤ 32 * floorLg2 n := by
    rw [mul_comm 32]
    exact Nat.mul_le_mul_left _ atMost
  have enough : floorLg2 n * 1 ≤ floorLg2 n * chooseNumberOfBins n := Nat.mul_le_mul_left _ positive
  have power' := thirtyTwo_mul_le_two_pow (show 8 ≤ floorLg2 n by omega)
  rw [sampleCount]
  omega

theorem regularPlace_eq (large : SAMPLESORT_QSORT_CUTOFF < n) (i : ℕ) :
    regularPlace n (sampleCount n) i = some (i * ((n - 1) / (sampleCount n - 1))) := by
  obtain ⟨several, fewer⟩ := sampleCount_bounds large
  simp only [regularPlace, subtract, if_pos (show 1 ≤ n by omega), if_pos (show 1 ≤ sampleCount n by omega), quotient,
    if_neg (show sampleCount n - 1 ≠ 0 by omega), Option.bind_eq_bind, Option.bind_some]

/-- What all samplers do. The length of a range is a `ptrdiff_t`. -/
theorem samplersInside (large : SAMPLESORT_QSORT_CUTOFF < n) (fits : n < 2 ^ 63) (dprng dprand : Set ℕ) :
    SamplersInside dprng dprand n := by
  obtain ⟨several, fewer⟩ := sampleCount_bounds large
  have gap : 1 ≤ (n - 1) / (sampleCount n - 1) := (Nat.one_le_div_iff (by omega)).mpr (by omega)
  refine ⟨?_, regularPlace_lt n _ several fewer.le, ?_, ?_, ?_, ?_⟩
  · obtain ⟨d, few, bins, -⟩ := chooseNumberOfBins_spec large
    have logarithm : floorLg2 n < 64 := by
      rw [floorLg2_eq_log]
      exact Nat.log_lt_of_lt_pow (by omega) (by omega)
    have atMost : chooseNumberOfBins n ≤ MAX_BINS := Nat.min_le_left _ _
    exact Nat.sub_le_sub_right (Nat.mul_le_mul logarithm.le atMost) 1
  · intro i j p q before _ first second
    rw [regularPlace_eq large, Option.some.injEq] at first second
    subst first second
    exact Nat.mul_lt_mul_of_pos_right before gap
  · intro p place
    rw [regularPlace_eq large, Option.some.injEq] at place
    subst place
    have whole := Nat.div_add_mod (n - 1) (sampleCount n - 1)
    have rest := Nat.mod_lt (n - 1) (show 0 < sampleCount n - 1 by omega)
    omega
  · exact fun number _ => randomPlace_lt _ n _ several fewer.le 0 (by omega)
  · exact fun number _ => randomPlace_lt _ n _ several fewer.le 0 (by omega)

/-- A random sampler selects places below the number of samples only. -/
theorem Selects.lt {numbers : Set ℕ} {nSample q : ℕ} (selects : Selects numbers nSample q) : q < nSample := by
  obtain ⟨number, -, place⟩ := selects
  rw [randomPlace, remainder] at place
  split at place
  · cases place
  · next positive =>
    rw [← Option.some.inj place]
    exact Nat.mod_lt number (Nat.pos_of_ne_zero positive)

/-- The random samplers never cover the input, whatever the generators return. -/
theorem not_samplersCover (n : ℕ) (large : SAMPLESORT_QSORT_CUTOFF < n) (dprng dprand : Set ℕ) :
    ¬ SamplersCover dprng dprand n := by
  intro cover
  obtain ⟨-, fewer⟩ := sampleCount_bounds large
  exact absurd (cover.dotmix_all _ fewer).lt (lt_irrefl _)

theorem not_samplersCover_million : SAMPLESORT_QSORT_CUTOFF < 1000000 ∧
    ¬ SamplersCover {number | number < 2 ^ 64} {number | number < 2 ^ 64} 1000000 :=
  ⟨by decide, not_samplersCover 1000000 (by decide) _ _⟩

/-- Of 2001 elements only the first nine are ever looked at. -/
theorem sampling_first_nine : sampleCount 2001 = 9 ∧ ¬ Selects {number | number < 2 ^ 64} (sampleCount 2001) 9 ∧
    ¬ SamplersCover {number | number < 2 ^ 64} {number | number < 2 ^ 64} 2001 := by
  have count : sampleCount 2001 = 9 := by
    simp [sampleCount, chooseNumberOfBins, MAX_BINS, SAMPLESORT_BIN_CUTOFF, floorLg2]
  have never : ¬ Selects {number | number < 2 ^ 64} (sampleCount 2001) 9 := by
    intro selects
    rw [count] at selects
    exact absurd selects.lt (lt_irrefl _)
  exact ⟨count, never, fun cover => never (cover.dotmix_all 9 (by decide))⟩

end CilkArtifact.Cilkpub
