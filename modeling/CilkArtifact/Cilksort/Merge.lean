import CilkArtifact.Cilksort.Quick

/-! The merges of `cilksort.c`: the two-phase sequential merge, the binary search
for the split point and the recursive parallel merge in serial order. Ranges are
inclusive, as in the source, and an empty range has `high = low - 1`. -/
namespace CilkArtifact.Cilksort
open Memory
variable {ELM : Type} [LinearOrder ELM]

def MERGESIZE : ℤ := 2 * 1024

def copyCells (m : Memory ELM) (dst src : ℤ) : ℕ → Option (Memory ELM)
  | 0 => some m
  | n + 1 => do
    let m ← copyCells m dst src n
    let v ← m.load (src + n)
    m.store (dst + n) v

/-- `memcpy` of `count` elements. A negative count becomes a byte count close to
2^64, which no buffer can satisfy. -/
def memcpy (m : Memory ELM) (dst src count : ℤ) : Option (Memory ELM) :=
  if count < 0 then none else copyCells m dst src count.toNat

/-- Memory, `low1`, `low2` and `lowdest` between the phases of `seqmerge`. -/
abbrev MergeState (ELM : Type) := Memory ELM × ℤ × ℤ × ℤ

/-- The first `for (;;)` of `seqmerge`: it loads the next element before the
end-of-range test, and leaves when one range is down to its last element. -/
def fastLoop (high1 high2 : ℤ) (m : Cilksort ELM) (a1 a2 : ELM) (low1 low2 lowdest : ℤ) :
    Option (MergeState ELM) :=
  if a1 < a2 then do
    let m : Cilksort ELM ← m.store lowdest a1
    let a1 ← m.load (low1 + 1)
    if low1 + 1 ≥ high1 then some (m, low1 + 1, low2, lowdest + 1)
    else m |>.fastLoop high1 high2 a1 a2 (low1 + 1) low2 (lowdest + 1)
  else do
    let m : Cilksort ELM ← m.store lowdest a2
    let a2 ← m.load (low2 + 1)
    if low2 + 1 ≥ high2 then some (m, low1, low2 + 1, lowdest + 1)
    else m |>.fastLoop high1 high2 a1 a2 low1 (low2 + 1) (lowdest + 1)
partial_fixpoint

/-- The second `for (;;)`: it tests before it loads, and empties one range. -/
def slowLoop (high1 high2 : ℤ) (m : Cilksort ELM) (a1 a2 : ELM) (low1 low2 lowdest : ℤ) :
    Option (MergeState ELM) :=
  if a1 < a2 then do
    let m : Cilksort ELM ← m.store lowdest a1
    if low1 + 1 > high1 then some (m, low1 + 1, low2, lowdest + 1)
    else do
      let a1 ← m.load (low1 + 1)
      m |>.slowLoop high1 high2 a1 a2 (low1 + 1) low2 (lowdest + 1)
  else do
    let m : Cilksort ELM ← m.store lowdest a2
    if low2 + 1 > high2 then some (m, low1, low2 + 1, lowdest + 1)
    else do
      let a2 ← m.load (low2 + 1)
      m |>.slowLoop high1 high2 a1 a2 low1 (low2 + 1) (lowdest + 1)
partial_fixpoint

def fastPhase (high1 high2 : ℤ) : MergeState ELM → Option (MergeState ELM)
  | (m, low1, low2, lowdest) =>
    if low1 < high1 ∧ low2 < high2 then do
      let a1 ← m.load low1
      let a2 ← m.load low2
      fastLoop high1 high2 m a1 a2 low1 low2 lowdest
    else some (m, low1, low2, lowdest)

def slowPhase (high1 high2 : ℤ) : MergeState ELM → Option (MergeState ELM)
  | (m, low1, low2, lowdest) =>
    if low1 ≤ high1 ∧ low2 ≤ high2 then do
      let a1 ← m.load low1
      let a2 ← m.load low2
      slowLoop high1 high2 m a1 a2 low1 low2 lowdest
    else some (m, low1, low2, lowdest)

def copyRest (high1 high2 : ℤ) : MergeState ELM → Option (Memory ELM)
  | (m, low1, low2, lowdest) =>
    if low1 > high1 then memcpy m lowdest low2 (high2 - low2 + 1)
    else memcpy m lowdest low1 (high1 - low1 + 1)

def seqmerge (m : Memory ELM) (low1 high1 low2 high2 lowdest : ℤ) : Option (Memory ELM) := do
  let s ← fastPhase high1 high2 (m, low1, low2, lowdest)
  let s ← slowPhase high1 high2 s
  copyRest high1 high2 s

/-- The loop of `binsplit`; returns the common value of `low` and `high`. -/
def binsplitLoop (m : Cilksort ELM) (val : ELM) (low high : ℤ) : Option ℤ :=
  if low ≠ high then do
    let mid := low + (high - low + 1) / 2
    let x ← m.load mid
    if val ≤ x then m |>.binsplitLoop val low (mid - 1) else m |>.binsplitLoop val mid high
  else some low
partial_fixpoint

def binsplit (m : Memory ELM) (val : ELM) (low high : ℤ) : Option ℤ := do
  let low ← binsplitLoop m val low high
  let x ← m.load low
  if val < x then return low - 1 else return low

/-- The serial projection: the spawned call runs before its continuation. -/
def cilkmerge (m : Cilksort ELM) (low1 high1 low2 high2 lowdest : ℤ) : Option (Cilksort ELM) :=
  let (low1, high1, low2, high2) :=
    if high2 - low2 > high1 - low1 then (low2, high2, low1, high1) else (low1, high1, low2, high2)
  if high1 < low1 then memcpy m lowdest low2 (high2 - low2)
  else if high2 - low2 < MERGESIZE then seqmerge m low1 high1 low2 high2 lowdest
  else do
    let split1 := (high1 - low1 + 1) / 2 + low1
    let x ← m.load split1
    let split2 ← binsplit m x low2 high2
    let lowsize := split1 - low1 + split2 - low2
    let m : Cilksort ELM ← m.store (lowdest + lowsize + 1) x
    let m ← m |>.cilkmerge low1 (split1 - 1) low2 split2 lowdest
    m |>.cilkmerge (split1 + 1) high1 (split2 + 1) high2 (lowdest + lowsize + 2)
partial_fixpoint

/-! ### What a merge is given and what it leaves -/

/-- Two sorted ranges and a destination of their total size that meets neither. -/
structure MergeInput (m : Memory ELM) (low1 high1 low2 high2 dest : ℤ) : Prop where
  range1 : low1 ≤ high1 + 1
  range2 : low2 ≤ high2 + 1
  sorted1 : m.SortedOn low1 (high1 + 1)
  sorted2 : m.SortedOn low2 (high2 + 1)
  mapped1 : m.MappedOn (Set.Ico low1 (high1 + 1))
  mapped2 : m.MappedOn (Set.Ico low2 (high2 + 1))
  mappedDest : m.MappedOn (Set.Ico dest (dest + (high1 - low1 + high2 - low2 + 2)))
  apart : ∀ a, dest ≤ a → a < dest + (high1 - low1 + high2 - low2 + 2) →
    ¬ (low1 ≤ a ∧ a ≤ high1) ∧ ¬ (low2 ≤ a ∧ a ≤ high2)

/-- The destination holds the sorted merge, and nothing else was written. -/
structure Merged (m m' : Memory ELM) (low1 high1 low2 high2 dest : ℤ) : Prop where
  changes : Changes (Set.Ico dest (dest + (high1 - low1 + high2 - low2 + 2))) m m'
  sorted : m'.SortedOn dest (dest + (high1 - low1 + high2 - low2 + 2))
  bags : m'.bag dest (dest + (high1 - low1 + high2 - low2 + 2)) =
    m.bag low1 (high1 + 1) + m.bag low2 (high2 + 1)

variable {m m' : Memory ELM} {low1 high1 low2 high2 dest : ℤ}

theorem MergeInput.symm (input : MergeInput m low1 high1 low2 high2 dest) :
    MergeInput m low2 high2 low1 high1 dest := by
  have size : high2 - low2 + high1 - low1 + 2 = high1 - low1 + high2 - low2 + 2 := by omega
  exact ⟨input.range2, input.range1, input.sorted2, input.sorted1, input.mapped2, input.mapped1,
    size ▸ input.mappedDest, fun a lower upper => (input.apart a lower (by omega)).symm⟩

theorem Merged.symm (merged : Merged m m' low1 high1 low2 high2 dest) :
    Merged m m' low2 high2 low1 high1 dest := by
  have size : high2 - low2 + high1 - low1 + 2 = high1 - low1 + high2 - low2 + 2 := by omega
  exact ⟨size ▸ merged.changes, size ▸ merged.sorted, by rw [size, merged.bags, add_comm]⟩

/-- Moving the head of the first range to the destination leaves a merge of the rest. -/
theorem MergeInput.advance (input : MergeInput m low1 high1 low2 high2 dest) (more : low1 ≤ high1) :
    MergeInput (m.write dest (m.val low1)) (low1 + 1) high1 low2 high2 (dest + 1) := by
  have range2 := input.range2
  have inside := input.apart dest le_rfl (by omega)
  have other (a : ℤ) (h : a ≠ dest) : (m.write dest (m.val low1)).val a = m.val a := val_write_other h
  refine ⟨by omega, range2, ?_, ?_, ?_, input.mapped2, ?_, ?_⟩
  · exact (input.sorted1.sub (by omega) le_rfl).congr fun a ha hb => other a (by omega)
  · exact input.sorted2.congr fun a ha hb => other a (by omega)
  · exact input.mapped1.mono (Set.Ico_subset_Ico_left (by omega))
  · exact input.mappedDest.mono (Set.Ico_subset_Ico (by omega) (by omega))
  · intro a lower upper
    have := input.apart a (by omega) (by omega)
    omega

/-- The head that was moved is the least element, so putting it first keeps order. -/
theorem Merged.advance (input : MergeInput m low1 high1 low2 high2 dest) (more : low1 ≤ high1)
    (least : ∀ a, low2 ≤ a → a ≤ high2 → m.val low1 ≤ m.val a)
    (merged : Merged (m.write dest (m.val low1)) m' (low1 + 1) high1 low2 high2 (dest + 1)) :
    Merged m m' low1 high1 low2 high2 dest := by
  have range2 := input.range2
  have inside := input.apart dest le_rfl (by omega)
  have size : dest + 1 + (high1 - (low1 + 1) + high2 - low2 + 2) =
      dest + (high1 - low1 + high2 - low2 + 2) := by omega
  have other (a : ℤ) (h : a ≠ dest) : (m.write dest (m.val low1)).val a = m.val a := val_write_other h
  have kept1 : (m.write dest (m.val low1)).bag (low1 + 1) (high1 + 1) = m.bag (low1 + 1) (high1 + 1) :=
    bag_congr fun a ha hb => other a (by omega)
  have kept2 : (m.write dest (m.val low1)).bag low2 (high2 + 1) = m.bag low2 (high2 + 1) :=
    bag_congr fun a ha hb => other a (by omega)
  obtain ⟨changes, sorted, bags⟩ := merged
  rw [size] at changes sorted bags
  rw [kept1, kept2] at bags
  have first : m'.val dest = m.val low1 := by
    rw [changes.val fun h => by have := h.1; omega, val_write_same]
  refine ⟨?_, ?_, ?_⟩
  · have stored : dest ∈ Set.Ico dest (dest + (high1 - low1 + high2 - low2 + 2)) := ⟨le_rfl, by omega⟩
    exact (Changes.write stored).trans (changes.mono (Set.Ico_subset_Ico_left (by omega)))
  · apply SortedOn.append (dest + 1) (sortedOn_short le_rfl) sorted
    intro a b ha hb ha' hb'
    rw [show a = dest by omega, first]
    have member : m'.val b ∈ m.bag (low1 + 1) (high1 + 1) + m.bag low2 (high2 + 1) :=
      bags ▸ mem_bag.mpr ⟨b, ha', hb', rfl⟩
    rcases Multiset.mem_add.mp member with h | h
    · obtain ⟨c, lower, upper, value⟩ := mem_bag.mp h
      exact value ▸ input.sorted1 low1 c le_rfl (by omega) upper
    · obtain ⟨c, lower, upper, value⟩ := mem_bag.mp h
      exact value ▸ least c lower (by omega)
  · have head : m.bag low1 (high1 + 1) = {m.val low1} + m.bag (low1 + 1) (high1 + 1) := by
      rw [m.bag_split (low1 + 1) (by omega) (by omega), bag_singleton]
    rw [bag_split _ (dest + 1) (by omega) (by omega), bag_singleton, first, bags, head, add_assoc]

/-! ### Sequential merge -/

theorem copyCells_spec (dst src : ℤ) (n : ℕ) (mappedSrc : m.MappedOn (Set.Ico src (src + n)))
    (mappedDst : m.MappedOn (Set.Ico dst (dst + n)))
    (apart : ∀ a, dst ≤ a → a < dst + n → ¬ (src ≤ a ∧ a < src + n)) :
    ∃ m', copyCells m dst src n = some m' ∧ Changes (Set.Ico dst (dst + n)) m m' ∧
      ∀ i : ℕ, i < n → m'.val (dst + i) = m.val (src + i) := by
  induction n with
  | zero => exact ⟨m, rfl, .refl _ _, fun i h => by omega⟩
  | succ n ih =>
    have wider (a : ℤ) : Set.Ico a (a + n) ⊆ Set.Ico a (a + (n + 1 : ℕ)) :=
      Set.Ico_subset_Ico_right (by omega)
    obtain ⟨m', run, changes, copied⟩ := ih (mappedSrc.mono (wider src)) (mappedDst.mono (wider dst))
      fun a h₁ h₂ => by have := apart a h₁ (by omega); omega
    have mapped := changes.mapped
    have last : dst + n ∈ Set.Ico dst (dst + (n + 1 : ℕ)) := ⟨by omega, by omega⟩
    have source : src + n ∈ Set.Ico src (src + (n + 1 : ℕ)) := ⟨by omega, by omega⟩
    have unchanged : m'.val (src + n) = m.val (src + n) := by
      apply changes.val
      rintro ⟨h₁, h₂⟩
      have := apart _ h₁ (by omega)
      omega
    refine ⟨m'.write (dst + n) (m.val (src + n)), ?_, (changes.mono (wider dst)).trans (.write last), ?_⟩
    · rw [copyCells, run]
      simp [load_mapped (m := m') (mapped ▸ mappedSrc _ source), unchanged,
        store_mapped (m := m') (mapped ▸ mappedDst _ last)]
    · intro i hi
      rcases Nat.lt_succ_iff_lt_or_eq.mp hi with less | rfl
      · rw [val_write_other (by omega), copied i less]
      · exact val_write_same

/-- With the first range used up, the rest of the second range is copied. -/
theorem copyRange_spec (input : MergeInput m low1 high1 low2 high2 dest) (empty : high1 = low1 - 1) :
    ∃ m', memcpy m dest low2 (high2 - low2 + 1) = some m' ∧ Merged m m' low1 high1 low2 high2 dest := by
  have range2 := input.range2
  obtain ⟨n, count⟩ : ∃ n : ℕ, high2 - low2 + 1 = n := ⟨(high2 - low2 + 1).toNat, by omega⟩
  have total : dest + (high1 - low1 + high2 - low2 + 2) = dest + n := by omega
  have source : high2 + 1 = low2 + n := by omega
  obtain ⟨m', run, changes, copied⟩ := copyCells_spec dest low2 n
    (source ▸ input.mapped2) (total ▸ input.mappedDest)
    (fun a h₁ h₂ => by have := input.apart a h₁ (by omega); omega)
  have same : m'.slice dest n = m.slice low2 n := slice_congr copied
  refine ⟨m', ?_, ?_, ?_, ?_⟩
  · rw [memcpy, if_neg (by omega), count]
    exact run
  · rwa [total]
  · rw [total]
    intro a b ha hab hb
    obtain ⟨i, rfl⟩ : ∃ i : ℕ, a = dest + i := ⟨(a - dest).toNat, by omega⟩
    obtain ⟨j, rfl⟩ : ∃ j : ℕ, b = dest + j := ⟨(b - dest).toNat, by omega⟩
    rw [copied i (by omega), copied j (by omega)]
    exact input.sorted2 _ _ (by omega) (by omega) (by omega)
  · have none : m.bag low1 (high1 + 1) = 0 := bag_empty (by omega)
    rw [total, none, zero_add, source, bag, bag, add_sub_cancel_left, add_sub_cancel_left]
    exact congrArg _ same

theorem copyRest_spec (input : MergeInput m low1 high1 low2 high2 dest)
    (done : high1 < low1 ∨ high2 < low2) :
    ∃ m', copyRest high1 high2 (m, low1, low2, dest) = some m' ∧
      Merged m m' low1 high1 low2 high2 dest := by
  have range1 := input.range1
  have range2 := input.range2
  by_cases first : low1 > high1
  · obtain ⟨m', run, merged⟩ := copyRange_spec input (by omega)
    exact ⟨m', by simp [copyRest, first, run], merged⟩
  · obtain ⟨m', run, merged⟩ := copyRange_spec input.symm (by omega)
    exact ⟨m', by simp [copyRest, first, run], merged.symm⟩

/-- The slow loop followed by the final copy completes the merge. -/
theorem slowLoop_spec (n : ℕ) : ∀ {m : Memory ELM} {low1 low2 dest : ℤ},
    high1 - low1 + high2 - low2 < n → low1 ≤ high1 → low2 ≤ high2 →
    MergeInput m low1 high1 low2 high2 dest →
    ∃ m', (slowLoop high1 high2 m (m.val low1) (m.val low2) low1 low2 dest >>=
      copyRest high1 high2) = some m' ∧ Merged m m' low1 high1 low2 high2 dest := by
  induction n with
  | zero => intro m low1 low2 dest size; omega
  | succ n ih =>
    intro m low1 low2 dest size more1 more2 input
    have room : m.mapped dest = true := input.mappedDest dest ⟨le_rfl, by omega⟩
    have inside := input.apart dest le_rfl (by omega)
    rw [slowLoop]
    by_cases less : m.val low1 < m.val low2
    · have next := input.advance more1
      have least : ∀ a, low2 ≤ a → a ≤ high2 → m.val low1 ≤ m.val a := fun a h₁ h₂ =>
        less.le.trans (input.sorted2 low2 a le_rfl h₁ (by omega))
      have head2 : (m.write dest (m.val low1)).val low2 = m.val low2 := val_write_other (by omega)
      simp only [if_pos less, store_mapped room, Option.bind_eq_bind, Option.bind_some]
      by_cases last : low1 + 1 > high1
      · obtain ⟨m', run, merged⟩ := copyRest_spec next (Or.inl last)
        exact ⟨m', by simpa [last] using run, merged.advance input more1 least⟩
      · obtain ⟨m', run, merged⟩ := ih (by omega) (by omega) more2 next
        refine ⟨m', ?_, merged.advance input more1 least⟩
        rw [if_neg last, load_mapped (next.mapped1 _ ⟨le_rfl, by omega⟩)]
        rwa [head2] at run
    · have next := input.symm.advance more2
      have least : ∀ a, low1 ≤ a → a ≤ high1 → m.val low2 ≤ m.val a := fun a h₁ h₂ =>
        (not_lt.mp less).trans (input.sorted1 low1 a le_rfl h₁ (by omega))
      have head1 : (m.write dest (m.val low2)).val low1 = m.val low1 := val_write_other (by omega)
      simp only [if_neg less, store_mapped room, Option.bind_eq_bind, Option.bind_some]
      by_cases last : low2 + 1 > high2
      · obtain ⟨m', run, merged⟩ := copyRest_spec next.symm (Or.inr last)
        exact ⟨m', by simpa [last] using run, (merged.symm.advance input.symm more2 least).symm⟩
      · obtain ⟨m', run, merged⟩ := ih (by omega) more1 (by omega) next.symm
        refine ⟨m', ?_, (merged.symm.advance input.symm more2 least).symm⟩
        rw [if_neg last, load_mapped (next.mapped1 _ ⟨le_rfl, by omega⟩)]
        rwa [head1] at run

theorem slowPhase_spec (input : MergeInput m low1 high1 low2 high2 dest) :
    ∃ m', (slowPhase high1 high2 (m, low1, low2, dest) >>= copyRest high1 high2) = some m' ∧
      Merged m m' low1 high1 low2 high2 dest := by
  have range1 := input.range1
  have range2 := input.range2
  by_cases both : low1 ≤ high1 ∧ low2 ≤ high2
  · obtain ⟨m', run, merged⟩ := slowLoop_spec (high1 - low1 + high2 - low2 + 1).toNat (by omega)
      both.1 both.2 input
    refine ⟨m', ?_, merged⟩
    simp only [slowPhase, if_pos both, load_mapped (input.mapped1 low1 ⟨le_rfl, by omega⟩),
      load_mapped (input.mapped2 low2 ⟨le_rfl, by omega⟩), Option.bind_eq_bind, Option.bind_some]
    exact run
  · obtain ⟨m', run, merged⟩ := copyRest_spec input (by omega)
    exact ⟨m', by simpa only [slowPhase, if_neg both, Option.bind_eq_bind, Option.bind_some] using run, merged⟩

/-- The speculative loads of the fast loop stay inside the ranges, because it
stops while each range still has an element. -/
theorem fastLoop_spec (n : ℕ) : ∀ {m : Memory ELM} {low1 low2 dest : ℤ},
    high1 - low1 + high2 - low2 < n → low1 < high1 → low2 < high2 →
    MergeInput m low1 high1 low2 high2 dest →
    ∃ m', (fastLoop high1 high2 m (m.val low1) (m.val low2) low1 low2 dest >>= fun s =>
      slowPhase high1 high2 s >>= copyRest high1 high2) = some m' ∧
      Merged m m' low1 high1 low2 high2 dest := by
  induction n with
  | zero => intro m low1 low2 dest size; omega
  | succ n ih =>
    intro m low1 low2 dest size more1 more2 input
    have room : m.mapped dest = true := input.mappedDest dest ⟨le_rfl, by omega⟩
    have inside := input.apart dest le_rfl (by omega)
    rw [fastLoop]
    by_cases less : m.val low1 < m.val low2
    · have next := input.advance more1.le
      have least : ∀ a, low2 ≤ a → a ≤ high2 → m.val low1 ≤ m.val a := fun a h₁ h₂ =>
        less.le.trans (input.sorted2 low2 a le_rfl h₁ (by omega))
      have head2 : (m.write dest (m.val low1)).val low2 = m.val low2 := val_write_other (by omega)
      simp only [if_pos less, store_mapped room, Option.bind_eq_bind, Option.bind_some,
        load_mapped (next.mapped1 (low1 + 1) ⟨le_rfl, by omega⟩)]
      by_cases last : low1 + 1 ≥ high1
      · obtain ⟨m', run, merged⟩ := slowPhase_spec next
        exact ⟨m', by simpa [last] using run, merged.advance input more1.le least⟩
      · obtain ⟨m', run, merged⟩ := ih (by omega) (by omega) more2 next
        refine ⟨m', ?_, merged.advance input more1.le least⟩
        rw [if_neg last]
        rwa [head2] at run
    · have next := input.symm.advance more2.le
      have least : ∀ a, low1 ≤ a → a ≤ high1 → m.val low2 ≤ m.val a := fun a h₁ h₂ =>
        (not_lt.mp less).trans (input.sorted1 low1 a le_rfl h₁ (by omega))
      have head1 : (m.write dest (m.val low2)).val low1 = m.val low1 := val_write_other (by omega)
      simp only [if_neg less, store_mapped room, Option.bind_eq_bind, Option.bind_some,
        load_mapped (next.mapped1 (low2 + 1) ⟨le_rfl, by omega⟩)]
      by_cases last : low2 + 1 ≥ high2
      · obtain ⟨m', run, merged⟩ := slowPhase_spec next.symm
        exact ⟨m', by simpa [last] using run, (merged.symm.advance input.symm more2.le least).symm⟩
      · obtain ⟨m', run, merged⟩ := ih (by omega) more1 (by omega) next.symm
        refine ⟨m', ?_, (merged.symm.advance input.symm more2.le least).symm⟩
        rw [if_neg last]
        rwa [head1] at run

theorem seqmerge_spec (input : MergeInput m low1 high1 low2 high2 dest) :
    ∃ m', seqmerge m low1 high1 low2 high2 dest = some m' ∧
      Merged m m' low1 high1 low2 high2 dest := by
  by_cases both : low1 < high1 ∧ low2 < high2
  · obtain ⟨m', run, merged⟩ := fastLoop_spec (high1 - low1 + high2 - low2 + 1).toNat (by omega)
      both.1 both.2 input
    refine ⟨m', ?_, merged⟩
    simp only [seqmerge, fastPhase, if_pos both, load_mapped (input.mapped1 low1 ⟨le_rfl, by omega⟩),
      load_mapped (input.mapped2 low2 ⟨le_rfl, by omega⟩), Option.bind_eq_bind, Option.bind_some]
    exact run
  · obtain ⟨m', run, merged⟩ := slowPhase_spec input
    exact ⟨m', by simpa only [seqmerge, fastPhase, if_neg both, Option.bind_eq_bind, Option.bind_some]
      using run, merged⟩

/-! ### Binary search -/

/-- Nothing outside the window `[low, high]` contradicts the search so far. -/
structure Searching (m : Memory ELM) (val : ELM) (first last low high : ℤ) : Prop where
  lower : first ≤ low
  window : low ≤ high
  upper : high ≤ last
  left : ∀ a, first ≤ a → a < low → m.val a ≤ val
  right : ∀ a, high < a → a ≤ last → val ≤ m.val a

theorem binsplitLoop_spec (val : ELM) {first last : ℤ} (n : ℕ) : ∀ {low high : ℤ},
    high - low ≤ n → m.MappedOn (Set.Ico first (last + 1)) → m.SortedOn first (last + 1) →
    Searching m val first last low high →
    ∃ r, binsplitLoop m val low high = some r ∧ Searching m val first last r r := by
  induction n with
  | zero =>
    intro low high size mapped sorted search
    obtain rfl : low = high := by have := search.window; omega
    exact ⟨low, by rw [binsplitLoop]; simp, search⟩
  | succ n ih =>
    intro low high size mapped sorted search
    obtain ⟨lower, window, upper, left, right⟩ := search
    by_cases narrow : low = high
    · subst narrow
      exact ⟨low, by rw [binsplitLoop]; simp, ⟨lower, window, upper, left, right⟩⟩
    · have middle : low < low + (high - low + 1) / 2 ∧ low + (high - low + 1) / 2 ≤ high := by omega
      rw [binsplitLoop, if_pos narrow]
      generalize low + (high - low + 1) / 2 = mid at middle
      simp only [load_mapped (mapped mid ⟨by omega, by omega⟩), Option.bind_eq_bind, Option.bind_some]
      by_cases atMost : val ≤ m.val mid
      · rw [if_pos atMost]
        refine ih (by omega) mapped sorted ⟨lower, by omega, by omega, left, ?_⟩
        intro a ha hlast
        exact atMost.trans (sorted mid a (by omega) (by omega) (by omega))
      · rw [if_neg atMost]
        refine ih (by omega) mapped sorted ⟨by omega, by omega, upper, ?_, right⟩
        intro a ha hmid
        exact (sorted a mid ha (by omega) (by omega)).trans (not_le.mp atMost).le

/-- The result splits the range: nothing up to it is above `val`, nothing after
it is below. Equal elements may fall on either side. -/
theorem binsplit_spec (val : ELM) {low high : ℤ} (nonempty : low ≤ high)
    (mapped : m.MappedOn (Set.Ico low (high + 1))) (sorted : m.SortedOn low (high + 1)) :
    ∃ r, binsplit m val low high = some r ∧ low - 1 ≤ r ∧ r ≤ high ∧
      (∀ a, low ≤ a → a ≤ r → m.val a ≤ val) ∧ ∀ a, r < a → a ≤ high → val ≤ m.val a := by
  obtain ⟨r, run, search⟩ := binsplitLoop_spec val (high - low).toNat (by omega) mapped sorted
    ⟨le_rfl, nonempty, le_rfl, fun a _ _ => by omega, fun a _ _ => by omega⟩
  obtain ⟨lower, -, upper, left, right⟩ := search
  have loaded := load_mapped (mapped r ⟨lower, by omega⟩)
  by_cases greater : val < m.val r
  · refine ⟨r - 1, by simp [binsplit, run, loaded, greater], by omega, by omega, ?_, ?_⟩
    · exact fun a h₁ h₂ => left a h₁ (by omega)
    · intro a h₁ h₂
      rcases eq_or_lt_of_le (show r ≤ a by omega) with rfl | after
      · exact greater.le
      · exact right a after h₂
  · refine ⟨r, by simp [binsplit, run, loaded, greater], by omega, upper, ?_, right⟩
    intro a h₁ h₂
    rcases eq_or_lt_of_le h₂ with rfl | before
    · exact not_lt.mp greater
    · exact left a h₁ before

/-! ### Parallel merge -/

/-- The body of `cilkmerge` once the larger range is the first one. -/
theorem cilkmerge_ordered (ordered : high2 - low2 ≤ high1 - low1) :
    cilkmerge m low1 high1 low2 high2 dest =
      if high1 < low1 then memcpy m dest low2 (high2 - low2)
      else if high2 - low2 < MERGESIZE then seqmerge m low1 high1 low2 high2 dest
      else (do
        let split1 := (high1 - low1 + 1) / 2 + low1
        let x ← m.load split1
        let split2 ← binsplit m x low2 high2
        let lowsize := split1 - low1 + split2 - low2
        let m ← m.store (dest + lowsize + 1) x
        let m ← cilkmerge m low1 (split1 - 1) low2 split2 dest
        cilkmerge m (split1 + 1) high1 (split2 + 1) high2 (dest + lowsize + 2)) := by
  rw [cilkmerge, if_neg (by omega)]

theorem cilkmerge_swap (larger : high1 - low1 < high2 - low2) :
    cilkmerge m low1 high1 low2 high2 dest = cilkmerge m low2 high2 low1 high1 dest := by
  rw [cilkmerge, if_pos (by omega), cilkmerge_ordered (by omega)]

/-- Changes outside of the ranges leave the input as it is. -/
theorem MergeInput.changes {S : Set ℤ} (input : MergeInput m low1 high1 low2 high2 dest) (changes : Changes S m m')
    (apart : ∀ a ∈ S, ¬ (low1 ≤ a ∧ a ≤ high1) ∧ ¬ (low2 ≤ a ∧ a ≤ high2)) :
    MergeInput m' low1 high1 low2 high2 dest := by
  refine ⟨input.range1, input.range2, ?_, ?_, input.mapped1.changes changes, input.mapped2.changes changes,
    input.mappedDest.changes changes, input.apart⟩
  · exact input.sorted1.congr fun a lower upper =>
      changes.val fun inside => (apart a inside).1 ⟨lower, Int.le_of_lt_add_one upper⟩
  · exact input.sorted2.congr fun a lower upper =>
      changes.val fun inside => (apart a inside).2 ⟨lower, Int.le_of_lt_add_one upper⟩

/-- The input of the call on the lower halves. -/
theorem MergeInput.lowerHalf {split1 split2 : ℤ} (input : MergeInput m low1 high1 low2 high2 dest)
    (in1 : low1 ≤ split1 ∧ split1 ≤ high1) (in2 : low2 - 1 ≤ split2 ∧ split2 ≤ high2) :
    MergeInput m low1 (split1 - 1) low2 split2 dest := by
  refine ⟨by omega, by omega, ?_, ?_, ?_, ?_, ?_, ?_⟩
  · exact input.sorted1.sub le_rfl (by omega)
  · exact input.sorted2.sub le_rfl (by omega)
  · exact input.mapped1.mono (Set.Ico_subset_Ico_right (by omega))
  · exact input.mapped2.mono (Set.Ico_subset_Ico_right (by omega))
  · exact input.mappedDest.mono (Set.Ico_subset_Ico_right (by omega))
  · intro a lower upper
    have := input.apart a lower (by omega)
    omega

/-- The input of the call on the upper halves. -/
theorem MergeInput.upperHalf {split1 split2 lowsize : ℤ} (input : MergeInput m low1 high1 low2 high2 dest)
    (in1 : low1 ≤ split1 ∧ split1 ≤ high1) (in2 : low2 - 1 ≤ split2 ∧ split2 ≤ high2)
    (size : lowsize = split1 - low1 + split2 - low2) :
    MergeInput m (split1 + 1) high1 (split2 + 1) high2 (dest + lowsize + 2) := by
  refine ⟨by omega, by omega, ?_, ?_, ?_, ?_, ?_, ?_⟩
  · exact input.sorted1.sub (by omega) le_rfl
  · exact input.sorted2.sub (by omega) le_rfl
  · exact input.mapped1.mono (Set.Ico_subset_Ico_left (by omega))
  · exact input.mapped2.mono (Set.Ico_subset_Ico_left (by omega))
  · exact input.mappedDest.mono (Set.Ico_subset_Ico (by omega) (by omega))
  · intro a lower upper
    have := input.apart a (by omega) (by omega)
    omega

/-- Changes in the destination leave the values of both ranges. -/
theorem MergeInput.kept (input : MergeInput m low1 high1 low2 high2 dest)
    (changes : Changes (Set.Ico dest (dest + (high1 - low1 + high2 - low2 + 2))) m m') (a : ℤ)
    (inside : low1 ≤ a ∧ a ≤ high1 ∨ low2 ≤ a ∧ a ≤ high2) : m'.val a = m.val a := by
  apply changes.val
  intro member
  obtain ⟨outside1, outside2⟩ := input.apart a member.1 member.2
  exact inside.elim outside1 outside2

omit [LinearOrder ELM] in
/-- The split cell and what is on each side of it make up both ranges. -/
theorem bags_split {split1 split2 : ℤ} (in1 : low1 ≤ split1 ∧ split1 ≤ high1)
    (in2 : low2 - 1 ≤ split2 ∧ split2 ≤ high2) :
    m.bag low1 (high1 + 1) + m.bag low2 (high2 + 1) =
      m.bag low1 split1 + m.bag low2 (split2 + 1) + {m.val split1} +
        (m.bag (split1 + 1) (high1 + 1) + m.bag (split2 + 1) (high2 + 1)) := by
  have whole1 : m.bag low1 (high1 + 1) =
      m.bag low1 split1 + {m.val split1} + m.bag (split1 + 1) (high1 + 1) := by
    rw [m.bag_split (split1 + 1) (by omega) (by omega), m.bag_split split1 in1.1 (by omega),
      bag_singleton]
  have whole2 : m.bag low2 (high2 + 1) = m.bag low2 (split2 + 1) + m.bag (split2 + 1) (high2 + 1) :=
    m.bag_split (split2 + 1) (by omega) (by omega)
  rw [whole1, whole2]
  ac_rfl

/-- The three pieces of one level: the lower merge fills the destination below
the split cell, the upper merge fills it above, and the split element separates
them in the order. -/
theorem merge_pieces {m₂ m₃ : Memory ELM} {split1 split2 lowsize : ℤ}
    (input : MergeInput m low1 high1 low2 high2 dest)
    (in1 : low1 ≤ split1 ∧ split1 ≤ high1) (in2 : low2 - 1 ≤ split2 ∧ split2 ≤ high2)
    (size : lowsize = split1 - low1 + split2 - low2)
    (left : ∀ a, low2 ≤ a → a ≤ split2 → m.val a ≤ m.val split1)
    (right : ∀ a, split2 < a → a ≤ high2 → m.val split1 ≤ m.val a)
    (lower : Merged (m.write (dest + lowsize + 1) (m.val split1)) m₂ low1 (split1 - 1) low2 split2 dest)
    (upper : Merged m₂ m₃ (split1 + 1) high1 (split2 + 1) high2 (dest + lowsize + 2)) :
    Merged m m₃ low1 high1 low2 high2 dest := by
  have total : dest + lowsize + 2 + (high1 - (split1 + 1) + high2 - (split2 + 1) + 2) =
      dest + (high1 - low1 + high2 - low2 + 2) := by omega
  have part : dest + (split1 - 1 - low1 + split2 - low2 + 2) = dest + lowsize + 1 := by omega
  have next : dest + lowsize + 1 + 1 = dest + lowsize + 2 := by omega
  obtain ⟨changesL, sortedL, bagsL⟩ := lower
  obtain ⟨changesU, sortedU, bagsU⟩ := upper
  rw [part] at changesL sortedL bagsL
  rw [total] at changesU sortedU bagsU
  rw [sub_add_cancel] at bagsL
  have inDest : dest + lowsize + 1 ∈ Set.Ico dest (dest + (high1 - low1 + high2 - low2 + 2)) :=
    ⟨by omega, by omega⟩
  have written := Changes.write (m := m) (v := m.val split1) inDest
  have wholeL := written.trans (changesL.mono (Set.Ico_subset_Ico_right (by omega)))
  -- both halves are merged from the values that the ranges have in `m`
  have bagL : m₂.bag dest (dest + lowsize + 1) = m.bag low1 split1 + m.bag low2 (split2 + 1) := by
    rw [bagsL, bag_congr fun a _ _ => input.kept written a (by omega),
      bag_congr fun a _ _ => input.kept written a (by omega)]
  have bagU : m₃.bag (dest + lowsize + 2) (dest + (high1 - low1 + high2 - low2 + 2)) =
      m.bag (split1 + 1) (high1 + 1) + m.bag (split2 + 1) (high2 + 1) := by
    rw [bagsU, bag_congr fun a _ _ => input.kept wholeL a (by omega),
      bag_congr fun a _ _ => input.kept wholeL a (by omega)]
  -- the upper half leaves the lower one and the split cell
  have keptL (a : ℤ) (h : a < dest + lowsize + 2) : m₃.val a = m₂.val a :=
    changesU.val fun inside => by have := inside.1; omega
  have splitVal : m₃.val (dest + lowsize + 1) = m.val split1 := by
    rw [keptL _ (by omega), changesL.val fun inside => by have := inside.2; omega, val_write_same]
  have bagL₃ : m₃.bag dest (dest + lowsize + 1) = m.bag low1 split1 + m.bag low2 (split2 + 1) := by
    rw [← bagL]
    exact bag_congr fun a _ h => keptL a (by omega)
  have small : ∀ x ∈ m₃.bag dest (dest + lowsize + 1), x ≤ m₃.val (dest + lowsize + 1) := by
    rw [bagL₃, splitVal]
    exact forall_mem_bag_add (P := (· ≤ m.val split1))
      (fun a h₁ h₂ => input.sorted1 a split1 h₁ h₂.le (by omega)) (fun a h₁ h₂ => left a h₁ (by omega))
  have large : ∀ x ∈ m₃.bag (dest + lowsize + 1 + 1) (dest + (high1 - low1 + high2 - low2 + 2)),
      m₃.val (dest + lowsize + 1) ≤ x := by
    rw [next, bagU, splitVal]
    exact forall_mem_bag_add (P := (m.val split1 ≤ ·))
      (fun a h₁ h₂ => input.sorted1 split1 a in1.1 (by omega) h₂) (fun a h₁ h₂ => right a (by omega) (by omega))
  refine ⟨wholeL.trans (changesU.mono (Set.Ico_subset_Ico_left (by omega))), ?_, ?_⟩
  · have front : m₃.SortedOn dest (dest + lowsize + 1) :=
      sortedL.congr fun a _ h => keptL a (by omega)
    rw [← next] at sortedU
    exact front.around sortedU small large
  · rw [m₃.bag_split (dest + lowsize + 1 + 1) (by omega) (by omega),
      m₃.bag_split (dest + lowsize + 1) (by omega) (by omega), bag_singleton, splitVal, bagL₃,
      next, bagU, bags_split in1 in2]

theorem cilkmerge_spec (n : ℕ) : ∀ {m : Memory ELM} {low1 high1 low2 high2 dest : ℤ},
    high1 - low1 + high2 - low2 + 2 < n → 0 < high1 - low1 + high2 - low2 + 2 →
    MergeInput m low1 high1 low2 high2 dest →
    ∃ m', cilkmerge m low1 high1 low2 high2 dest = some m' ∧
      Merged m m' low1 high1 low2 high2 dest := by
  induction n with
  | zero => intro m low1 high1 low2 high2 dest size; omega
  | succ n ih =>
    -- the larger range first; the other order is the same call after the swap
    have main {m : Memory ELM} {low1 high1 low2 high2 dest : ℤ}
        (ordered : high2 - low2 ≤ high1 - low1) (size : high1 - low1 + high2 - low2 + 2 < (n + 1 : ℕ))
        (nonempty : 0 < high1 - low1 + high2 - low2 + 2)
        (input : MergeInput m low1 high1 low2 high2 dest) :
        ∃ m', cilkmerge m low1 high1 low2 high2 dest = some m' ∧
          Merged m m' low1 high1 low2 high2 dest := by
      have range2 := input.range2
      rw [cilkmerge_ordered ordered, if_neg (by omega)]
      by_cases short : high2 - low2 < MERGESIZE
      · rw [if_pos short]
        exact seqmerge_spec input
      · rw [if_neg short]
        have big : 2048 ≤ high2 - low2 := by unfold MERGESIZE at short; omega
        have in1 : low1 < (high1 - low1 + 1) / 2 + low1 ∧ (high1 - low1 + 1) / 2 + low1 < high1 := by
          omega
        generalize (high1 - low1 + 1) / 2 + low1 = split1 at in1
        obtain ⟨split2, search, lowerBound, upperBound, left, right⟩ :=
          binsplit_spec (m.val split1) (by omega) input.mapped2 input.sorted2
        obtain ⟨lowsize, hsize⟩ : ∃ k, k = split1 - low1 + split2 - low2 := ⟨_, rfl⟩
        have inside1 : low1 ≤ split1 ∧ split1 ≤ high1 := ⟨in1.1.le, in1.2.le⟩
        have inside2 : low2 - 1 ≤ split2 ∧ split2 ≤ high2 := ⟨lowerBound, upperBound⟩
        have inDest : dest + lowsize + 1 ∈ Set.Ico dest (dest + (high1 - low1 + high2 - low2 + 2)) :=
          ⟨by omega, by omega⟩
        have apart := fun a member => input.apart a (Set.mem_Ico.mp member).1 (Set.mem_Ico.mp member).2
        have kept := input.changes (Changes.write (v := m.val split1) inDest) apart
        obtain ⟨m₂, runL, lower⟩ := ih (by omega) (by omega) (kept.lowerHalf inside1 inside2)
        have part : Set.Ico dest (dest + (split1 - 1 - low1 + split2 - low2 + 2)) ⊆
            Set.Ico dest (dest + (high1 - low1 + high2 - low2 + 2)) := Set.Ico_subset_Ico_right (by omega)
        have upperInput := (kept.changes (lower.changes.mono part) apart).upperHalf inside1 inside2 hsize
        obtain ⟨m₃, runU, upper⟩ := ih (by omega) (by omega) upperInput
        refine ⟨m₃, ?_, merge_pieces input inside1 inside2 hsize left right lower upper⟩
        simp only [load_mapped (input.mapped1 split1 ⟨by omega, by omega⟩), search, ← hsize,
          store_mapped (input.mappedDest _ inDest), runL, runU, Option.bind_eq_bind, Option.bind_some]
    intro m low1 high1 low2 high2 dest size nonempty input
    by_cases ordered : high2 - low2 ≤ high1 - low1
    · exact main ordered size nonempty input
    · obtain ⟨m', run, merged⟩ := main (by omega) (by omega) (by omega) input.symm
      exact ⟨m', by rw [cilkmerge_swap (by omega), run], merged.symm⟩

end CilkArtifact.Cilksort
