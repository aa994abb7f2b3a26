import CilkArtifact.Cilksort.Quick

/-! The partition of `cilksort.c` on a range that `seqquick` divides. Its scans have no bounds checks: a run in a memory
that has no cells but those of the range is a run in which no pointer leaves the range. -/
namespace CilkArtifact.Cilksort
open Memory
variable {ELM : Type} [LinearOrder ELM] {m m' : Memory ELM} {low high : ℤ} {pivot : ELM}

/-! ### Runs inside of a range -/

theorem scanDown_within {currHigh : ℤ} {r : ELM × ℤ} (run : scanDown (m.within low high) pivot currHigh = some r) :
    scanDown m pivot currHigh = some r := by
  refine scanDown.partial_correctness (m.within low high) pivot
    (fun currHigh r => scanDown m pivot currHigh = some r) ?_ currHigh r run
  intro scan ih currHigh r run
  obtain ⟨h, load, rest⟩ := Option.bind_eq_some_iff.mp run
  rw [scanDown, load_within load]
  change (if pivot < h then scanDown m pivot (currHigh - 1) else some (h, currHigh)) = some r
  by_cases above : pivot < h
  · rw [if_pos above] at rest ⊢
    exact ih _ _ rest
  · rw [if_neg above] at rest ⊢
    exact rest

theorem scanUp_within {currLow : ℤ} {r : ELM × ℤ} (run : scanUp (m.within low high) pivot currLow = some r) :
    scanUp m pivot currLow = some r := by
  refine scanUp.partial_correctness (m.within low high) pivot
    (fun currLow r => scanUp m pivot currLow = some r) ?_ currLow r run
  intro scan ih currLow r run
  obtain ⟨l, load, rest⟩ := Option.bind_eq_some_iff.mp run
  rw [scanUp, load_within load]
  change (if l < pivot then scanUp m pivot (currLow + 1) else some (l, currLow)) = some r
  by_cases below : l < pivot
  · rw [if_pos below] at rest ⊢
    exact ih _ _ rest
  · rw [if_neg below] at rest ⊢
    exact rest

theorem partitionLoop_within {currLow currHigh : ℤ} {s : Memory ELM × ℤ}
    (run : partitionLoop pivot (m.within low high) currLow currHigh = some s) :
    ∃ m', partitionLoop pivot m currLow currHigh = some (m', s.2) ∧ s.1 = m'.within low high := by
  refine partitionLoop.partial_correctness pivot
    (fun part currLow currHigh s => ∀ m : Memory ELM, part = m.within low high →
      ∃ m', partitionLoop pivot m currLow currHigh = some (m', s.2) ∧ s.1 = m'.within low high) ?_ _ _ _ _ run m rfl
  rintro loop ih _ currLow currHigh s run m rfl
  simp only [Option.bind_eq_bind, Option.bind_eq_some_iff] at run
  obtain ⟨⟨h, j⟩, down, ⟨l, i⟩, up, rest⟩ := run
  rw [partitionLoop, scanDown_within down]
  simp only [Option.bind_eq_bind, Option.bind_some, scanUp_within up]
  by_cases crossed : i ≥ j
  · rw [if_pos crossed] at rest
    cases Option.some.inj rest
    exact ⟨m, if_pos crossed, rfl⟩
  · rw [if_neg crossed] at rest
    obtain ⟨_, storeHigh, m₂, storeLow, rest⟩ := by simpa only [Option.bind_eq_some_iff] using rest
    obtain ⟨m₁, first, rfl⟩ := store_within storeHigh
    obtain ⟨m₂, second, rfl⟩ := store_within storeLow
    obtain ⟨m', run, same⟩ := ih _ _ _ _ rest m₂ rfl
    refine ⟨m', ?_, same⟩
    simp only [if_neg crossed, first, second, Option.bind_some]
    exact run

theorem choosePivot_within (run : choosePivot (m.within low high) low high = some pivot) :
    choosePivot m low high = some pivot := by
  simp only [choosePivot, Option.bind_eq_bind, Option.bind_eq_some_iff] at run
  obtain ⟨a, first, b, last, c, middle, result⟩ := run
  simp only [choosePivot, Option.bind_eq_bind, load_within first, load_within last, load_within middle,
    Option.bind_some]
  exact result

theorem seqpart_within {p : ℤ} (run : seqpart (m.within low high) low high = some (m', p)) :
    ∃ m'', seqpart m low high = some (m'', p) ∧ m' = m''.within low high := by
  simp only [seqpart, Option.bind_eq_bind, Option.bind_eq_some_iff] at run
  obtain ⟨pivot, chosen, ⟨m₁, currHigh⟩, loop, result⟩ := run
  obtain ⟨m₂, loop', same⟩ := partitionLoop_within loop
  refine ⟨m₂, ?_, ?_⟩
  · simp only [seqpart, Option.bind_eq_bind, choosePivot_within chosen, loop', Option.bind_some]
    split_ifs at result ⊢ with inner
    · cases Option.some.inj result
      rfl
    · cases Option.some.inj result
      rfl
  · split_ifs at result
    · cases Option.some.inj result
      exact same
    · cases Option.some.inj result
      exact same

/-! ### Division of a range -/

/-- What `seqpart` leaves in `[low, high]`, and the result that it returns. -/
structure Partitioned (m m' : Memory ELM) (low high p : ℤ) : Prop where
  lower : low ≤ p
  upper : p < high
  changes : Changes (Set.Icc low high) m m'
  permuted : m'.bag low (high + 1) = m.bag low (high + 1)
  below : ∀ a b, low ≤ a → a ≤ p → p + 1 ≤ b → b ≤ high → m'.val a ≤ m'.val b

/-- `seqpart` ends without an access outside of the range, and leaves two parts that are shorter than the range. The
loop of `seqquick` goes on with them. -/
theorem seqpart_divides (long : high - low ≥ INSERTIONSIZE) (mapped : m.MappedOn (Set.Icc low high)) :
    ∃ m' p, seqpart m low high = some (m', p) ∧
      seqpart (m.within low high) low high = some (m'.within low high, p) ∧ Partitioned m m' low high p ∧
      (0 ≤ p - low ∧ p - low < high - low) ∧ (0 ≤ high - (p + 1) ∧ high - (p + 1) < high - low) ∧
      seqquick m low high = (seqquick m' low p).bind fun m => seqquick m (p + 1) high := by
  have wide : low < high := by
    unfold INSERTIONSIZE at long
    omega
  obtain ⟨part, p, inner, -⟩ := seqpart_spec wide (mappedOn_within mapped)
  obtain ⟨m', run, rfl⟩ := seqpart_within inner
  obtain ⟨_, _, run', lower, upper, changes, permuted, below⟩ := seqpart_spec wide mapped
  cases Option.some.inj (run.symm.trans run')
  refine ⟨m', p, run, inner, ⟨lower, upper, changes, permuted, fun a b ha hp hb hh => ?_⟩, ?_, ?_, ?_⟩
  · exact below a b ha (by omega) hb (by omega)
  · omega
  · omega
  · rw [seqquick, if_pos long, run]
    rfl

/-- Cells with three different values, and no others. -/
theorem seqpart_divides_duplicates :
    ∃ m' p, seqpart (⟨fun a => ⟨a % 3, 0⟩, fun a => decide (0 ≤ a ∧ a ≤ 20)⟩ : Memory ℤ) 0 20 = some (m', p) ∧
      Partitioned ⟨fun a => ⟨a % 3, 0⟩, fun a => decide (0 ≤ a ∧ a ≤ 20)⟩ m' 0 20 p := by
  have long : (20 : ℤ) - 0 ≥ INSERTIONSIZE := by decide
  have mapped : (⟨fun a => ⟨a % 3, 0⟩, fun a => decide (0 ≤ a ∧ a ≤ 20)⟩ : Memory ℤ).MappedOn (Set.Icc 0 20) :=
    fun a member => decide_eq_true member
  obtain ⟨m', p, run, -, part, -⟩ := seqpart_divides long mapped
  exact ⟨m', p, run, part⟩

end CilkArtifact.Cilksort
