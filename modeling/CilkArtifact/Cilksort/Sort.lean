import CilkArtifact.Cilksort.Merge

/-! `cilksort` itself: four recursive sorts, two merges into the scratch buffer
and one merge back. -/
namespace CilkArtifact.Cilksort
open Memory
variable {ELM : Type} [LinearOrder ELM]

def QUICKSIZE : ℤ := 2 * 1024

def cilksort (m : Cilksort ELM) (low tmp size : ℤ) : Option (Cilksort ELM) :=
  let quarter := size / 4
  if size < QUICKSIZE then seqquick m low (low + size - 1)
  else do
    let A := low
    let tmpA := tmp
    let B := A + quarter
    let tmpB := tmpA + quarter
    let C := B + quarter
    let tmpC := tmpB + quarter
    let D := C + quarter
    let tmpD := tmpC + quarter
    let m ← m |>.cilksort A tmpA quarter
    let m ← m |>.cilksort B tmpB quarter
    let m ← m |>.cilksort C tmpC quarter
    let m ← m |>.cilksort D tmpD (size - 3 * quarter)
    let m ← cilkmerge m A (A + quarter - 1) B (B + quarter - 1) tmpA
    let m ← cilkmerge m C (C + quarter - 1) D (low + size - 1) tmpC
    cilkmerge m tmpA (tmpC - 1) tmpC (tmpA + size - 1) A
partial_fixpoint

/-- The cells a call may write. -/
def footprint (low tmp size : ℤ) : Set ℤ := Set.Ico low (low + size) ∪ Set.Ico tmp (tmp + size)

/-- The array and its scratch buffer are mapped and do not overlap. -/
structure SortInput (m : Memory ELM) (low tmp size : ℤ) : Prop where
  mapped : m.MappedOn (footprint low tmp size)
  apart : low + size ≤ tmp ∨ tmp + size ≤ low

/-- The array is a sorted rearrangement, and only the footprint was written. -/
structure SortResult (m m' : Memory ELM) (low tmp size : ℤ) : Prop where
  changes : Changes (footprint low tmp size) m m'
  sorted : m'.SortedOn low (low + size)
  bags : m'.bag low (low + size) = m.bag low (low + size)

variable {m₀ m m' : Memory ELM} {low tmp size : ℤ}

theorem footprint_sub {low' tmp' size' : ℤ} (h₁ : low ≤ low') (h₂ : low' + size' ≤ low + size)
    (h₃ : tmp ≤ tmp') (h₄ : tmp' + size' ≤ tmp + size) :
    footprint low' tmp' size' ⊆ footprint low tmp size :=
  Set.union_subset_union (Set.Ico_subset_Ico h₁ h₂) (Set.Ico_subset_Ico h₃ h₄)

omit [LinearOrder ELM] in
/-- A recursive call gets a part of the array and the same part of the scratch buffer. -/
theorem SortInput.part (input : SortInput m low tmp size)
    (changes : Changes (footprint low tmp size) m m') (offset part : ℤ) (h₁ : 0 ≤ offset)
    (h₂ : offset + part ≤ size) : SortInput m' (low + offset) (tmp + offset) part := by
  constructor
  · exact (input.mapped.changes changes).mono
      (footprint_sub (by omega) (by omega) (by omega) (by omega))
  · rcases input.apart with h | h <;> omega

/-- Other parts of the array survive a recursive call. -/
theorem SortResult.kept {offset part a : ℤ} (input : SortInput m₀ low tmp size)
    (result : SortResult m m' (low + offset) (tmp + offset) part)
    (h₁ : 0 ≤ offset) (h₂ : offset + part ≤ size) (lower : low ≤ a) (upper : a < low + size)
    (apart : a < low + offset ∨ low + offset + part ≤ a) : m'.val a = m.val a := by
  apply result.changes.val
  have := input.apart
  rintro (⟨_, _⟩ | ⟨_, _⟩) <;> omega

/-- Two adjacent sorted runs are merged into a place apart from both. -/
theorem cilkmerge_runs {lo mid hi : ℤ} (dest : ℤ) (h₁ : lo ≤ mid) (h₂ : mid ≤ hi) (nonempty : lo < hi)
    (sorted₁ : m.SortedOn lo mid) (sorted₂ : m.SortedOn mid hi)
    (mapped : m.MappedOn (Set.Ico lo hi)) (mappedDest : m.MappedOn (Set.Ico dest (dest + (hi - lo))))
    (apart : dest + (hi - lo) ≤ lo ∨ hi ≤ dest) :
    ∃ m', cilkmerge m lo (mid - 1) mid (hi - 1) dest = some m' ∧
      Changes (Set.Ico dest (dest + (hi - lo))) m m' ∧ m'.SortedOn dest (dest + (hi - lo)) ∧
      m'.bag dest (dest + (hi - lo)) = m.bag lo hi := by
  have total : mid - 1 - lo + (hi - 1) - mid + 2 = hi - lo := by omega
  have first : mid - 1 + 1 = mid := by omega
  have second : hi - 1 + 1 = hi := by omega
  have input : MergeInput m lo (mid - 1) mid (hi - 1) dest := by
    constructor <;> simp only [total, first, second]
    · exact h₁
    · exact h₂
    · exact sorted₁
    · exact sorted₂
    · exact mapped.mono (Set.Ico_subset_Ico_right h₂)
    · exact mapped.mono (Set.Ico_subset_Ico_left h₁)
    · exact mappedDest
    · intro a lower upper
      omega
  obtain ⟨m', run, merged⟩ := cilkmerge_spec ((hi - lo).toNat + 1) (by omega) (by omega) input
  have changes := merged.changes
  have sorted := merged.sorted
  have bags := merged.bags
  simp only [total, first, second] at changes sorted bags
  exact ⟨m', run, changes, sorted, by rw [bags, ← m.bag_split mid h₁ h₂]⟩

/-- A recursive call on a part rearranges the array as a whole. -/
theorem SortResult.whole {offset part : ℤ} (input : SortInput m₀ low tmp size)
    (result : SortResult m m' (low + offset) (tmp + offset) part)
    (h₁ : 0 ≤ offset) (h₂ : 0 ≤ part) (h₃ : offset + part ≤ size) :
    Changes (footprint low tmp size) m m' ∧ m'.bag low (low + size) = m.bag low (low + size) := by
  have kept {a : ℤ} := result.kept input h₁ h₃ (a := a)
  have cut (m : Memory ELM) : m.bag low (low + size) = m.bag low (low + offset) +
      m.bag (low + offset) (low + offset + part) + m.bag (low + offset + part) (low + size) := by
    rw [m.bag_split (low + offset + part) (by omega) (by omega),
      m.bag_split (low + offset) (by omega) (by omega)]
  have before : m'.bag low (low + offset) = m.bag low (low + offset) :=
    bag_congr fun a _ _ => kept (by omega) (by omega) (by omega)
  have after : m'.bag (low + offset + part) (low + size) = m.bag (low + offset + part) (low + size) :=
    bag_congr fun a _ _ => kept (by omega) (by omega) (by omega)
  constructor
  · exact result.changes.mono (footprint_sub (by omega) (by omega) (by omega) (by omega))
  · rw [cut, cut, before, result.bags, after]

/-- All four parts, three of one size and the rest, are sorted in place. -/
structure Quarters (m m' : Memory ELM) (low tmp size quarter : ℤ) : Prop where
  changes : Changes (footprint low tmp size) m m'
  sortedA : m'.SortedOn low (low + quarter)
  sortedB : m'.SortedOn (low + quarter) (low + quarter + quarter)
  sortedC : m'.SortedOn (low + quarter + quarter) (low + quarter + quarter + quarter)
  sortedD : m'.SortedOn (low + quarter + quarter + quarter) (low + size)
  bags : m'.bag low (low + size) = m.bag low (low + size)

theorem cilksort_quarters {m : Memory ELM} {low tmp size quarter : ℤ}
    (bounds : 0 ≤ quarter ∧ 3 * quarter ≤ size) (input : SortInput m low tmp size)
    (sorts : ∀ {m : Memory ELM} {low tmp part : ℤ}, part = quarter ∨ part = size - 3 * quarter →
      SortInput m low tmp part → ∃ m', cilksort m low tmp part = some m' ∧
        SortResult m m' low tmp part) :
    ∃ m₁ m₂ m₃ m₄, cilksort m low tmp quarter = some m₁ ∧
      cilksort m₁ (low + quarter) (tmp + quarter) quarter = some m₂ ∧
      cilksort m₂ (low + quarter + quarter) (tmp + quarter + quarter) quarter = some m₃ ∧
      cilksort m₃ (low + quarter + quarter + quarter) (tmp + quarter + quarter + quarter)
        (size - 3 * quarter) = some m₄ ∧ Quarters m m₄ low tmp size quarter := by
  have inputA := input.part (Changes.refl _ m) 0 quarter le_rfl (by omega)
  obtain ⟨m₁, runA, resultA⟩ := sorts (.inl rfl) inputA
  obtain ⟨changesA, bagsA⟩ := resultA.whole input le_rfl (by omega) (by omega)
  have inputB := input.part changesA quarter quarter (by omega) (by omega)
  obtain ⟨m₂, runB, resultB⟩ := sorts (.inl rfl) inputB
  obtain ⟨changesB, bagsB⟩ := resultB.whole input (by omega) (by omega) (by omega)
  have inputC := input.part (changesA.trans changesB) (quarter + quarter) quarter (by omega) (by omega)
  obtain ⟨m₃, runC, resultC⟩ := sorts (.inl rfl) inputC
  obtain ⟨changesC, bagsC⟩ := resultC.whole input (by omega) (by omega) (by omega)
  have inputD := input.part ((changesA.trans changesB).trans changesC) (quarter + quarter + quarter)
    (size - 3 * quarter) (by omega) (by omega)
  obtain ⟨m₄, runD, resultD⟩ := sorts (.inr rfl) inputD
  obtain ⟨changesD, bagsD⟩ := resultD.whole input (by omega) (by omega) (by omega)
  have keptB {a : ℤ} := resultB.kept input (by omega) (by omega) (a := a)
  have keptC {a : ℤ} := resultC.kept input (by omega) (by omega) (a := a)
  have keptD {a : ℤ} := resultD.kept input (by omega) (by omega) (a := a)
  simp only [add_zero, ← add_assoc] at runA runB runC runD resultA resultB resultC resultD keptB keptC keptD
  refine ⟨m₁, m₂, m₃, m₄, runA, runB, runC, runD, ?_, ?_, ?_, ?_, ?_, ?_⟩
  · exact ((changesA.trans changesB).trans changesC).trans changesD
  · refine resultA.sorted.congr fun a lower upper => ?_
    rw [keptD (by omega) (by omega) (by omega), keptC (by omega) (by omega) (by omega),
      keptB (by omega) (by omega) (by omega)]
  · refine resultB.sorted.congr fun a lower upper => ?_
    rw [keptD (by omega) (by omega) (by omega), keptC (by omega) (by omega) (by omega)]
  · exact resultC.sorted.congr fun a lower upper => keptD (by omega) (by omega) (by omega)
  · exact resultD.sorted.sub le_rfl (by omega)
  · rw [bagsD, bagsC, bagsB, bagsA]

/-- Merging the quarters into the scratch buffer and back sorts the whole array. -/
theorem cilkmerge_quarters {quarter : ℤ} (bounds : 0 < quarter ∧ 3 * quarter ≤ size)
    (input : SortInput m₀ low tmp size) (quarters : Quarters m₀ m low tmp size quarter) :
    ∃ m₁ m₂ m₃, cilkmerge m low (low + quarter - 1) (low + quarter)
        (low + quarter + quarter - 1) tmp = some m₁ ∧
      cilkmerge m₁ (low + quarter + quarter) (low + quarter + quarter + quarter - 1)
        (low + quarter + quarter + quarter) (low + size - 1) (tmp + quarter + quarter) = some m₂ ∧
      cilkmerge m₂ tmp (tmp + quarter + quarter - 1) (tmp + quarter + quarter) (tmp + size - 1) low =
        some m₃ ∧ SortResult m₀ m₃ low tmp size := by
  have apart := input.apart
  have mapped := input.mapped.changes quarters.changes
  have array : Set.Ico low (low + size) ⊆ footprint low tmp size := Set.subset_union_left
  have scratch : Set.Ico tmp (tmp + size) ⊆ footprint low tmp size := Set.subset_union_right
  obtain ⟨m₁, run₁, changes₁, sorted₁, bags₁⟩ := cilkmerge_runs tmp (by omega) (by omega)
    (by omega) quarters.sortedA quarters.sortedB
    ((mapped.mono array).mono (Set.Ico_subset_Ico (by omega) (by omega)))
    ((mapped.mono scratch).mono (Set.Ico_subset_Ico (by omega) (by omega))) (by omega)
  have kept₁ {a : ℤ} (lower : low ≤ a) (upper : a < low + size) : m₁.val a = m.val a :=
    changes₁.val fun inside => by
      have := inside.1
      have := inside.2
      omega
  have changes₁' := changes₁.mono ((Set.Ico_subset_Ico le_rfl (by omega)).trans scratch)
  have mapped₁ := mapped.changes changes₁'
  obtain ⟨m₂, run₂, changes₂, sorted₂, bags₂⟩ := cilkmerge_runs (m := m₁)
    (tmp + quarter + quarter) (by omega) (by omega) (by omega)
    (quarters.sortedC.congr fun a _ _ => kept₁ (by omega) (by omega))
    (quarters.sortedD.congr fun a _ _ => kept₁ (by omega) (by omega))
    ((mapped₁.mono array).mono (Set.Ico_subset_Ico (by omega) (by omega)))
    ((mapped₁.mono scratch).mono (Set.Ico_subset_Ico (by omega) (by omega))) (by omega)
  have changes₂' := changes₂.mono ((Set.Ico_subset_Ico (by omega) (by omega)).trans scratch)
  have mapped₂ := mapped₁.changes changes₂'
  have kept₂ {a : ℤ} (lower : tmp ≤ a) (upper : a < tmp + quarter + quarter) :
      m₂.val a = m₁.val a := changes₂.val fun inside => by
    have := inside.1
    omega
  have size₁ : tmp + (low + quarter + quarter - low) = tmp + quarter + quarter := by omega
  have size₂ : tmp + quarter + quarter + (low + size - (low + quarter + quarter)) = tmp + size := by
    omega
  rw [size₁] at sorted₁ bags₁
  rw [size₂] at sorted₂ bags₂
  obtain ⟨m₃, run₃, changes₃, sorted₃, bags₃⟩ := cilkmerge_runs (m := m₂) low (by omega) (by omega)
    (by omega) (sorted₁.congr fun a lower upper => kept₂ lower upper) sorted₂ (mapped₂.mono scratch)
    ((mapped₂.mono array).mono (Set.Ico_subset_Ico (by omega) (by omega))) (by omega)
  rw [show tmp + size - tmp = size by omega] at changes₃ sorted₃ bags₃
  have upperBag : m₁.bag (low + quarter + quarter) (low + size) =
      m.bag (low + quarter + quarter) (low + size) :=
    bag_congr fun a _ _ => kept₁ (by omega) (by omega)
  have lowerBag : m₂.bag tmp (tmp + quarter + quarter) = m₁.bag tmp (tmp + quarter + quarter) :=
    bag_congr fun a lower upper => kept₂ lower upper
  refine ⟨m₁, m₂, m₃, run₁, run₂, run₃, ?_, sorted₃, ?_⟩
  · exact ((quarters.changes.trans changes₁').trans changes₂').trans (changes₃.mono array)
  · rw [bags₃, m₂.bag_split (tmp + quarter + quarter) (by omega) (by omega), lowerBag, bags₁, bags₂,
      upperBag, ← m.bag_split _ (by omega) (by omega), quarters.bags]

theorem cilksort_spec (n : ℕ) : ∀ {m : Memory ELM} {low tmp size : ℤ}, size < n → 0 ≤ size →
    SortInput m low tmp size →
    ∃ m', cilksort m low tmp size = some m' ∧ SortResult m m' low tmp size := by
  induction n with
  | zero => intro m low tmp size bound nonneg; omega
  | succ n ih =>
    intro m low tmp size bound nonneg input
    by_cases small : size < QUICKSIZE
    · have whole : Set.Icc low (low + size - 1) ⊆ Set.Ico low (low + size) :=
        fun a h => ⟨h.1, by have := h.2; omega⟩
      obtain ⟨m', run, changes, sorted, bags⟩ := seqquick_spec (n + 1) m low (low + size - 1) (by omega)
        ((input.mapped.mono Set.subset_union_left).mono whole)
      rw [show low + size - 1 + 1 = low + size by omega] at sorted bags
      refine ⟨m', ?_, changes.mono (whole.trans Set.subset_union_left), sorted, bags⟩
      rw [cilksort, if_pos small, run]
    · have large : 2 * 1024 ≤ size := not_lt.mp small
      have bounds : 0 < size / 4 ∧ 3 * (size / 4) ≤ size := by omega
      obtain ⟨m₁, m₂, m₃, m₄, runA, runB, runC, runD, quarters⟩ := cilksort_quarters
        ⟨bounds.1.le, bounds.2⟩ input fun part input => ih (by omega) (by omega) input
      obtain ⟨m₅, m₆, m₇, merge₁, merge₂, merge₃, result⟩ := cilkmerge_quarters bounds input quarters
      refine ⟨m₇, ?_, result⟩
      rw [cilksort, if_neg small]
      simp only [runA, runB, runC, runD, merge₁, merge₂, merge₃, Option.bind_eq_bind, Option.bind_some]

/-- `cilksort` returns; the array is then a non-decreasing rearrangement of its former contents,
and no cell outside the array and the scratch buffer has received a store. -/
theorem cilksort_sorts (m : Memory ELM) (low tmp : ℤ) (n : ℕ)
    (mapped : ∀ i : ℕ, i < n → m.mapped (low + i) = true ∧ m.mapped (tmp + i) = true)
    (apart : ∀ i j : ℕ, i < n → j < n → low + i ≠ tmp + j) :
    ∃ m', cilksort m low tmp n = some m' ∧ (m'.slice low n).Pairwise (· ≤ ·) ∧
      (m'.slice low n).Perm (m.slice low n) ∧
      ∀ a, (∀ i : ℕ, i < n → a ≠ low + i ∧ a ≠ tmp + i) → m'.cells a = m.cells a := by
  have input : SortInput m low tmp n := by
    constructor
    · rintro a (⟨lower, upper⟩ | ⟨lower, upper⟩)
      · have := (mapped (a - low).toNat (by omega)).1
        rwa [show low + ((a - low).toNat : ℤ) = a by omega] at this
      · have := (mapped (a - tmp).toNat (by omega)).2
        rwa [show tmp + ((a - tmp).toNat : ℤ) = a by omega] at this
    · by_contra overlap
      rcases le_total low tmp with h | h
      · exact apart (tmp - low).toNat 0 (by omega) (by omega) (by omega)
      · exact apart 0 (low - tmp).toNat (by omega) (by omega) (by omega)
  obtain ⟨m', run, result⟩ := cilksort_spec (n + 1) (by omega) (by omega) input
  refine ⟨m', run, result.sorted.slice_pairwise, ?_, ?_⟩
  · have bags := result.bags
    simp only [bag, show low + (n : ℤ) - low = n by omega, Int.toNat_natCast] at bags
    exact Multiset.coe_eq_coe.mp bags
  · intro a outside
    apply result.changes.frame
    rintro (⟨lower, upper⟩ | ⟨lower, upper⟩)
    · exact (outside (a - low).toNat (by omega)).1 (by omega)
    · exact (outside (a - tmp).toNat (by omega)).2 (by omega)

/-- Ten thousand cells with seven different values, with scratch space behind them: quarters of 2500 cells are sorted
and merged, and so are theirs. -/
theorem cilksort_sorts_repeated :
    let m : Memory ℤ := ⟨fun a => ⟨a % 7, 0⟩, fun a => decide (0 ≤ a ∧ a < 20000)⟩
    ∃ m', cilksort m 0 10000 10000 = some m' ∧ (m'.slice 0 10000).Pairwise (· ≤ ·) ∧
      (m'.slice 0 10000).Perm (m.slice 0 10000) ∧
      ∀ a : ℤ, (∀ i : ℕ, i < 10000 → a ≠ 0 + i ∧ a ≠ 10000 + i) → m'.cells a = m.cells a := by
  intro m
  refine cilksort_sorts m 0 10000 10000 ?_ ?_
  · intro i bound
    simp only [m, decide_eq_true_eq]
    omega
  · omega

end CilkArtifact.Cilksort
