import CilkArtifact.Cilkpub.Bins

/-! The second pass of sample sort: buckets are moved to their bins, and the bins are sorted. -/
namespace CilkArtifact.Cilkpub
open Buffer
variable {α : Type} {bin : α → ℕ} {l : List α} {m blockSize : ℕ}

/-! ### Bins of the whole array -/

theorem offset_append (b : ℕ) (l l' : List α) : offset bin b (l ++ l') = offset bin b l + offset bin b l' := by
  simp only [offset, bucket_append, List.length_append, Finset.sum_add_distrib]

/-- Sums over the first blocks are sums over a part of the array. -/
theorem sum_offset_blocks (b k : ℕ) :
    ∑ i ∈ Finset.range k, offset bin b (blockOf blockSize i l) = offset bin b (l.take (k * blockSize)) := by
  induction k with
  | zero => simp [offset]
  | succ k ih => rw [Finset.sum_range_succ, ih, take_block, offset_append]

variable (bin) in
/-- The elements in bins before bin `b`. -/
def below (b : ℕ) (l : List α) : List α := l.filter fun v => decide (bin v < b)

theorem below_succ (b : ℕ) (l : List α) : (below bin (b + 1) l).Perm (below bin b l ++ bucket bin b l) := by
  induction l with
  | nil => exact .refl _
  | cons v l ih =>
    simp only [below, bucket, List.filter_cons] at ih ⊢
    rcases lt_trichotomy (bin v) b with less | rfl | more
    · simpa [less, less.ne, Nat.lt_succ_of_lt less] using ih
    · simpa using (ih.cons v).trans List.perm_middle.symm
    · simpa [more.ne', not_lt.mpr more.le, show ¬ bin v < b + 1 by omega] using ih

theorem below_length (b : ℕ) (l : List α) : (below bin b l).length = offset bin b l := by
  induction b with
  | zero => simp [below, offset]
  | succ b ih => rw [(below_succ b l).length_eq, List.length_append, ih, offset_succ]

theorem below_all (bins : ∀ v, bin v < m) : below bin m l = l := by
  rw [below, List.filter_eq_self]
  exact fun v _ => decide_eq_true (bins v)

/-! ### Places of the buckets -/

variable (bin blockSize l) in
/-- The place of the bucket of bin `b` in block `i`. -/
def slot (i b : ℕ) : Set ℕ :=
  span (i * blockSize + offset bin b (blockOf blockSize i l)) (bucket bin b (blockOf blockSize i l)).length

/-- Buckets of one block are apart. -/
theorem slot_apart_bin {i b b' k : ℕ} (less : b < b') (member : k ∈ slot bin l blockSize i b) :
    k ∉ slot bin l blockSize i b' := by
  have next := offset_succ bin (blockOf blockSize i l) b
  have ordered : offset bin (b + 1) (blockOf blockSize i l) ≤ offset bin b' (blockOf blockSize i l) :=
    offset_mono bin _ less
  rw [slot, mem_span] at member ⊢
  omega

/-- Blocks are apart. -/
theorem slot_apart_block (bins : ∀ v, bin v < m) {i i' b b' k : ℕ} (less : i < i') (bound : b < m)
    (member : k ∈ slot bin l blockSize i b) : k ∉ slot bin l blockSize i' b' := by
  have inside := offset_bucket_le bins (blockOf blockSize i l) bound
  have limit := blockOf_length blockSize i l
  have ordered : (i + 1) * blockSize ≤ i' * blockSize := Nat.mul_le_mul_right _ less
  rw [Nat.succ_mul] at ordered
  rw [slot, mem_span] at member ⊢
  omega

theorem slot_apart (bins : ∀ v, bin v < m) {i i' b b' k : ℕ} (other : i ≠ i' ∨ b ≠ b') (bound : b < m) (bound' : b' < m)
    (member : k ∈ slot bin l blockSize i b) : k ∉ slot bin l blockSize i' b' := by
  intro member'
  rcases lt_trichotomy i i' with less | rfl | more
  · exact slot_apart_block bins less bound member member'
  · rcases lt_trichotomy b b' with less | rfl | more
    · exact slot_apart_bin less member member'
    · simp at other
    · exact slot_apart_bin more member' member
  · exact slot_apart_block bins more bound' member' member

/-! ### Moves -/

theorem moveBucket_spec {L : List α} {x y : Buffer ℕ α} {source target : ℕ} (stores : y.Stores source L)
    (ySpans : y.Spans source L.length) (xSpans : x.Spans target L.length) :
    ∃ x' y', moveBucket source target L.length x y = some (x', y') ∧ x'.Stores target L ∧
      Changes (span target L.length) x x' ∧ Changes (span source L.length) y y' := by
  have steps : ∃ state : Buffer ℕ α × Buffer ℕ α, moveBucket source target L.length x y = some state ∧
      state.1.Stores target (L.take L.length) ∧ Changes (span target L.length) x state.1 ∧
      Changes (span source L.length) y state.2 := by
    refine forLoop_invariant (fun k (state : Buffer ℕ α × Buffer ℕ α) => state.1.Stores target (L.take k) ∧
      Changes (span target L.length) x state.1 ∧ Changes (span source k) y state.2) (Nat.zero_le _)
      ⟨stores_nil _ _, .refl _ _, .refl _ _⟩ ?_
    rintro k ⟨x', y'⟩ _ inside ⟨stored, xChanges, yChanges⟩
    have element : y'.cell (source + k) = some L[k] := by
      rw [yChanges.frame _ (by rw [mem_span]; omega), stores k inside, List.getElem?_eq_getElem inside]
    have length : (L.take k).length = k := by
      rw [List.length_take]
      omega
    obtain ⟨y'', moves, yChanges'⟩ :=
      move_spec ((ySpans.changes yChanges) (source + k) (by rw [mem_span]; omega)) element
    obtain ⟨x'', writes, written, xChanges'⟩ :=
      write_spec ((xSpans.changes xChanges) (target + k) (by rw [mem_span]; omega)) L[k]
    refine ⟨(x'', y''), ?_, ?_, ?_, ?_⟩
    · simp only [moves, writes, Option.bind_eq_bind, Option.bind_some]
    · rw [take_succ_eq inside]
      exact stored.push (by rw [length]; exact written) (by rw [length]; exact xChanges')
    · exact xChanges.cell xChanges' ⟨Nat.le_add_right _ _, by omega⟩
    · exact (yChanges.mono (span_mono le_rfl (by omega))).cell yChanges' ⟨Nat.le_add_right _ _, by omega⟩
  obtain ⟨⟨x', y'⟩, run, result⟩ := steps
  rw [List.take_length] at result
  exact ⟨x', y', run, result⟩

/-! ### Columns of the tally -/

section Columns
variable {tally : Buffer (ℕ × ℕ) ℕ}

theorem tally_read (few : m ≤ MAX_BINS) (table : TableRoom tally)
    (tallies : ∀ i < m, Tallies bin m i (blockOf blockSize i l) tally) {i b : ℕ} (block : i < m) (bound : b < m) :
    tally.read (i, b) = some (offset bin (b + 1) (blockOf blockSize i l)) := by
  rw [read_eq (table i b (by omega) (by omega)), tallies i block b bound]

/-- The part of row `i` before bin `j`. -/
theorem tally_before (few : m ≤ MAX_BINS) (table : TableRoom tally)
    (tallies : ∀ i < m, Tallies bin m i (blockOf blockSize i l) tally) {i j : ℕ} (block : i < m) (bound : j < m) :
    before (fun j => tally.read (i, j)) j = some (offset bin j (blockOf blockSize i l)) := by
  cases j with
  | zero => simp [before, offset]
  | succ j =>
    rw [before, if_neg (by omega), Nat.add_sub_cancel]
    exact tally_read few table tallies block (by omega)

theorem columnSums_spec (few : m ≤ MAX_BINS) (table : TableRoom tally)
    (tallies : ∀ i < m, Tallies bin m i (blockOf blockSize i l) tally) (cover : l.length ≤ m * blockSize) :
    ∃ sums, columnSums m tally = some sums ∧ sums.Spans 0 MAX_BINS ∧
      ∀ q < m, sums.cell q = some (offset bin (q + 1) l) := by
  refine forLoop_invariant (fun q (sums : Buffer ℕ ℕ) => sums.Spans 0 MAX_BINS ∧
    ∀ q' < q, sums.cell q' = some (offset bin (q' + 1) l)) (Nat.zero_le _) ⟨fun i inside => ?_, fun q none => ?_⟩ ?_
  · rw [mem_span] at inside
    exact decide_eq_true (by omega)
  · exact absurd none (Nat.not_lt_zero q)
  · rintro q sums _ bound ⟨room, done⟩
    obtain ⟨sums₁, writes, written, changes⟩ := write_spec (room q (by rw [mem_span]; omega)) 0
    have added : ∃ sums', forLoop 0 m (fun sums i => do
          let sum ← sums.read q
          let count ← tally.read (i, q)
          sums.write q (sum + count)) sums₁ = some sums' ∧ Changes {q} sums sums' ∧
        sums'.cell q = some (∑ i ∈ Finset.range m, offset bin (q + 1) (blockOf blockSize i l)) := by
      refine forLoop_invariant (fun k sums' => Changes {q} sums sums' ∧
        sums'.cell q = some (∑ i ∈ Finset.range k, offset bin (q + 1) (blockOf blockSize i l))) (Nat.zero_le _)
        ⟨changes, written⟩ ?_
      rintro k sums' _ block ⟨changed, sum⟩
      have inside : sums'.inside q = true := (room.changes changed) q (by rw [mem_span]; omega)
      obtain ⟨sums'', writes', written', changes'⟩ := write_spec inside
        (∑ i ∈ Finset.range (k + 1), offset bin (q + 1) (blockOf blockSize i l))
      refine ⟨sums'', ?_, changed.trans changes', written'⟩
      simp only [read_eq inside, sum, tally_read few table tallies block bound, Option.bind_eq_bind, Option.bind_some,
        ← Finset.sum_range_succ, writes']
    obtain ⟨sums', run, changed, sum⟩ := added
    refine ⟨sums', ?_, room.changes changed, fun q' earlier => ?_⟩
    · simp only [writes, Option.bind_eq_bind, Option.bind_some]
      exact run
    · by_cases here : q' = q
      · rw [here, sum, sum_offset_blocks, List.take_of_length_le cover]
      · rw [changed.frame q' (by rwa [Set.mem_singleton_iff]), done q' (by omega)]

end Columns

/-! ### One bin -/

/-- What is left of the buckets when the bins before `j` have been moved. -/
def BucketsFrom (bin : α → ℕ) (m blockSize : ℕ) (l : List α) (j : ℕ) (y : Buffer ℕ α) : Prop :=
  ∀ i < m, ∀ b, j ≤ b → b < m → y.Stores (i * blockSize + offset bin b (blockOf blockSize i l))
    (bucket bin b (blockOf blockSize i l))

/-- The buckets of bin `j` in the first `i` blocks have been moved. -/
structure Gathered (bin : α → ℕ) (blockSize : ℕ) (l : List α) (j i : ℕ) (x y : Buffer ℕ α)
    (state : Buffer ℕ α × Buffer ℕ α × ℕ) : Prop where
  stored : state.1.Stores (offset bin j l) (bucket bin j (l.take (i * blockSize)))
  place : state.2.2 = offset bin j l + (bucket bin j (l.take (i * blockSize))).length
  xChanges : Changes (span (offset bin j l) (bucket bin j l).length) x state.1
  yChanges : Changes {k | ∃ i' < i, k ∈ slot bin l blockSize i' j} y state.2.1

theorem Gathered.step (bins : ∀ v, bin v < m) {i j : ℕ} (block : i < m) (start : i * blockSize ≤ l.length)
    (bound : j < m) {x y x₁ y₁ : Buffer ℕ α} {place : ℕ} (xRoom : x.Spans 0 l.length) (yRoom : y.Spans 0 l.length)
    (buckets : BucketsFrom bin m blockSize l j y) (gathered : Gathered bin blockSize l j i x y (x₁, y₁, place)) :
    ∃ x' y', moveBucket (i * blockSize + offset bin j (blockOf blockSize i l)) place
        (bucket bin j (blockOf blockSize i l)).length x₁ y₁ = some (x', y') ∧
      Gathered bin blockSize l j (i + 1) x y (x', y', place + (bucket bin j (blockOf blockSize i l)).length) := by
  obtain ⟨stored, rfl, xChanges, yChanges⟩ := gathered
  have fits := offset_bucket_le bins l bound
  have next : bucket bin j (l.take ((i + 1) * blockSize)) =
      bucket bin j (l.take (i * blockSize)) ++ bucket bin j (blockOf blockSize i l) := by
    rw [take_block, bucket_append]
  have room := bucket_take_le bin l j ((i + 1) * blockSize)
  rw [next, List.length_append] at room
  have inside := offset_bucket_le bins (blockOf blockSize i l) bound
  have limit := blockOf_length blockSize i l
  have source : y₁.Stores (i * blockSize + offset bin j (blockOf blockSize i l))
      (bucket bin j (blockOf blockSize i l)) := by
    apply (buckets i block j (Nat.le_refl j) bound).changes yChanges
    rintro k member ⟨i', earlier, member'⟩
    exact slot_apart bins (.inl earlier.ne) bound bound member' member
  have target : x₁.Spans (offset bin j l + (bucket bin j (l.take (i * blockSize))).length)
      (bucket bin j (blockOf blockSize i l)).length := (xRoom.changes xChanges).sub (Nat.zero_le _) (by omega)
  obtain ⟨x', y', moves, moved, xChanges', yChanges'⟩ := moveBucket_spec source
    ((yRoom.changes yChanges).sub (Nat.zero_le _) (by omega)) target
  refine ⟨x', y', moves, ?_, ?_, ?_, ?_⟩
  · rw [next, stores_append]
    exact ⟨stored.changes xChanges' (span_apart (by omega)), moved⟩
  · rw [next, List.length_append, add_assoc]
  · exact xChanges.trans (xChanges'.mono (span_mono (Nat.le_add_right _ _) (by omega)))
  · refine (yChanges.mono ?_).trans (yChanges'.mono ?_)
    · rintro k ⟨i', earlier, member⟩
      exact ⟨i', by omega, member⟩
    · exact fun k member => ⟨i, by omega, member⟩

theorem gather_spec (few : m ≤ MAX_BINS) (bins : ∀ v, bin v < m) (starts : ∀ i < m, i * blockSize ≤ l.length)
    (cover : l.length ≤ m * blockSize) {tally : Buffer (ℕ × ℕ) ℕ} (table : TableRoom tally)
    (tallies : ∀ i < m, Tallies bin m i (blockOf blockSize i l) tally) {j : ℕ} (bound : j < m) {x y : Buffer ℕ α}
    (xRoom : x.Spans 0 l.length) (yRoom : y.Spans 0 l.length) (buckets : BucketsFrom bin m blockSize l j y) :
    ∃ x' y', gather m blockSize j (offset bin j l) tally x y =
        some (x', y', offset bin j l + (bucket bin j l).length) ∧
      x'.Stores (offset bin j l) (bucket bin j l) ∧
      Changes (span (offset bin j l) (bucket bin j l).length) x x' ∧ y'.Spans 0 l.length ∧
      BucketsFrom bin m blockSize l (j + 1) y' := by
  have rounds : ∃ state : Buffer ℕ α × Buffer ℕ α × ℕ, gather m blockSize j (offset bin j l) tally x y = some state ∧
      Gathered bin blockSize l j m x y state := by
    refine forLoop_invariant (fun i state => Gathered bin blockSize l j i x y state) (Nat.zero_le _) ?_ ?_
    · refine ⟨?_, ?_, .refl _ _, .refl _ _⟩
      · rw [Nat.zero_mul]
        exact stores_nil _ _
      · rw [Nat.zero_mul]
        rfl
    · rintro i ⟨x₁, y₁, place⟩ _ block gathered
      obtain ⟨x', y', moves, next⟩ := gathered.step bins block (starts i block) bound xRoom yRoom buckets
      refine ⟨_, ?_, next⟩
      simp only [tally_before few table tallies block bound, tally_read few table tallies block bound, subtract,
        offset_succ, if_pos (Nat.le_add_right _ _), Nat.add_sub_cancel_left, Option.bind_eq_bind, Option.bind_some,
        moves]
  obtain ⟨⟨x', y', place⟩, run, stored, rfl, xChanges, yChanges⟩ := rounds
  rw [List.take_of_length_le cover] at stored run
  refine ⟨x', y', run, stored, xChanges, yRoom.changes yChanges, fun i block b later bound' => ?_⟩
  apply (buckets i block b (by omega) bound').changes yChanges
  rintro k member ⟨i', -, member'⟩
  exact slot_apart bins (.inr (by omega)) bound bound' member' member

/-! ### All bins -/

section Packing
variable {comp : α → α → Bool}

/-- The bins before bin `j` are sorted, one after the other; the buckets of the others are untouched. -/
structure Packed (comp : α → α → Bool) (bin : α → ℕ) (m blockSize : ℕ) (l : List α) (j : ℕ)
    (state : Buffer ℕ α × Buffer ℕ α) : Prop where
  xRoom : state.1.Spans 0 l.length
  yRoom : state.2.Spans 0 l.length
  buckets : BucketsFrom bin m blockSize l j state.2
  sorted : ∃ R, state.1.Stores 0 R ∧ R.Perm (below bin j l) ∧ Sorted comp R

theorem Packed.step (std : Std α) (weak : StrictWeak comp) (ordered : ∀ a b, bin a < bin b → comp b a = false)
    (few : m ≤ MAX_BINS) (bins : ∀ v, bin v < m) (starts : ∀ i < m, i * blockSize ≤ l.length)
    (cover : l.length ≤ m * blockSize) {tally : Buffer (ℕ × ℕ) ℕ} (table : TableRoom tally)
    (tallies : ∀ i < m, Tallies bin m i (blockOf blockSize i l) tally) {j : ℕ} (bound : j < m)
    {x y : Buffer ℕ α} (packed : Packed comp bin m blockSize l j (x, y)) :
    ∃ x₁ y' x', gather m blockSize j (offset bin j l) tally x y =
        some (x₁, y', offset bin j l + (bucket bin j l).length) ∧
      x₁.onRange (offset bin j l) (bucket bin j l).length (parallelQuicksort std comp) = some x' ∧
      Packed comp bin m blockSize l (j + 1) (x', y') := by
  obtain ⟨xRoom, yRoom, buckets, R, stored, perm, sorted⟩ := packed
  have fits := offset_bucket_le bins l bound
  have length : R.length = offset bin j l := by rw [perm.length_eq, below_length]
  obtain ⟨x₁, y', gathers, moved, changes₁, yRoom', buckets'⟩ :=
    gather_spec few bins starts cover table tallies bound xRoom yRoom buckets
  obtain ⟨bucket', sorts, perm', sorted'⟩ := parallelQuicksort_spec std weak (bucket bin j l)
  obtain ⟨x', inPlace, stored', changes'⟩ := onRange_spec
    ((xRoom.changes changes₁).sub (Nat.zero_le _) (by omega)) moved sorts perm'.length_eq
  refine ⟨x₁, y', x', gathers, inPlace, (xRoom.changes changes₁).changes changes', yRoom', buckets',
    R ++ bucket', ?_, ?_, ?_⟩
  · have apart : ∀ k ∈ span 0 R.length, k ∉ span (offset bin j l) (bucket bin j l).length :=
      span_apart (by omega)
    rw [stores_append, zero_add, length]
    exact ⟨(stored.changes changes₁ apart).changes changes' apart, stored'⟩
  · exact (perm.append perm').trans (below_succ j l).symm
  · refine List.pairwise_append.mpr ⟨sorted, sorted', fun v first w second => ordered v w ?_⟩
    have less := (List.mem_filter.mp (perm.mem_iff.mp first)).2
    have same := (List.mem_filter.mp (perm'.mem_iff.mp second)).2
    rw [decide_eq_true_eq] at less
    rw [beq_iff_eq] at same
    omega

theorem repackAndSubsort_spec (std : Std α) (weak : StrictWeak comp)
    (ordered : ∀ a b, bin a < bin b → comp b a = false) (positive : 0 < m) (few : m ≤ MAX_BINS)
    (bins : ∀ v, bin v < m) (large : SAMPLESORT_QSORT_CUTOFF < l.length) {state : Bins α}
    (distributed : Distributed bin m ((l.length + m - 1) / m) l m state) :
    ∃ x y, repackAndSubsort std comp l.length m state.x state.y state.tally = some (x, y) ∧
      x.Spans 0 l.length ∧ ∃ R, x.Stores 0 R ∧ R.Perm l ∧ Sorted comp R := by
  have starts (i : ℕ) (block : i < m) := block_start_le positive few large block
  have cover := blocks_cover l.length positive
  have size : quotient (l.length + m - 1) m = some ((l.length + m - 1) / m) := if_neg positive.ne'
  generalize (l.length + m - 1) / m = blockSize at distributed starts cover size
  obtain ⟨sums, adds, sumsRoom, columns⟩ := columnSums_spec few distributed.table distributed.tallies cover
  have start (j : ℕ) (bound : j < m) : before sums.read j = some (offset bin j l) := by
    cases j with
    | zero => simp [before, offset]
    | succ j =>
      rw [before, if_neg (by omega), Nat.add_sub_cancel, read_eq (sumsRoom j (by rw [mem_span]; omega)),
        columns j (by omega)]
  have total : sums.read (m - 1) = some l.length := by
    rw [read_eq (sumsRoom _ (by rw [mem_span]; omega)), columns _ (by omega), Nat.sub_add_cancel positive,
      offset_all fun v _ => bins v]
  have init : Packed comp bin m blockSize l 0 (state.x, state.y) := by
    refine ⟨distributed.xRoom, distributed.yRoom, fun i block b _ bound => distributed.buckets i block b bound,
      [], stores_nil _ _, ?_, List.Pairwise.nil⟩
    simp [below]
  have packs : ∃ final, repackAndSubsort std comp l.length m state.x state.y state.tally = some final ∧
      Packed comp bin m blockSize l m final := by
    simp only [repackAndSubsort, adds, total, size, Option.bind_eq_bind, Option.bind_some, if_true]
    refine forLoop_invariant (fun j final => Packed comp bin m blockSize l j final) (Nat.zero_le m) init ?_
    rintro j ⟨x, y⟩ _ bound packed
    obtain ⟨x₁, y', x', gathers, inPlace, packed'⟩ := packed.step std weak ordered few bins starts cover
      distributed.table distributed.tallies bound
    refine ⟨(x', y'), ?_, packed'⟩
    simp only [start j bound, gathers, subtract, if_pos (Nat.le_add_right _ _), Nat.add_sub_cancel_left, inPlace,
      Option.bind_some]
  obtain ⟨⟨x, y⟩, run, packed⟩ := packs
  obtain ⟨R, stored, perm, sorted⟩ := packed.sorted
  rw [below_all bins] at perm
  exact ⟨x, y, run, packed.xRoom, R, stored, perm, sorted⟩

end Packing

/-! ### The sample sorts -/

section Samplesort
variable {comp : α → α → Bool}

theorem ofList_stores (l : List α) : (ofList l).Stores 0 l := by
  intro t _
  rw [zero_add]
  rfl

theorem ofList_spans (l : List α) : (ofList l).Spans 0 l.length := by
  intro i inside
  rw [mem_span] at inside
  exact decide_eq_true (by omega)

theorem raw_spans {β : Type} {n size : ℕ} (fits : n ≤ size) : (raw size : Buffer ℕ β).Spans 0 n := by
  intro i inside
  rw [mem_span] at inside
  exact decide_eq_true (by omega)

/-- A sample sort that takes its samples from inside the array. -/
theorem parallelSamplesortWith_spec (std : Std α) (weak : StrictWeak comp) {place : ℕ → ℕ → ℕ → Option ℕ}
    (places : ∀ n nSample, 1 < nSample → nSample ≤ n → ∀ i < nSample, ∃ p < n, place n nSample i = some p)
    (ySize bindexSize : ℕ) (l : List α) (fits : l.length < 2 ^ 63) :
    ∃ l', parallelSamplesortWith std comp
        (binWith comp fun x n m tree => buildSampleTreeWith std comp (place n) x n m tree) ySize bindexSize l = some l' ∧
      l'.Perm l ∧ Sorted comp l' := by
  by_cases sampled : SAMPLESORT_QSORT_CUTOFF < l.length ∧ l.length ≤ ySize ∧ l.length ≤ bindexSize
  · obtain ⟨large, yFits, bindexFits⟩ := sampled
    obtain ⟨d, depth, number, share⟩ := chooseNumberOfBins_spec large
    have positive : 0 < 2 ^ d := Nat.two_pow_pos d
    have few : 2 ^ d ≤ MAX_BINS := Nat.pow_le_pow_right (n := 2) (by decide) depth
    obtain ⟨tree, T, built, split⟩ := buildSampleTreeWith_spec std weak (ofList_stores l) (ofList_spans l) large fits
      depth share (places l.length)
    have bins (v : α) : binOf comp T (2 ^ d) v < 2 ^ d := binOf_lt T positive v
    have empty : Distributed (binOf comp T (2 ^ d)) (2 ^ d) ((l.length + 2 ^ d - 1) / 2 ^ d) l 0
        ⟨ofList l, .raw ySize, .rawTable MAX_BINS MAX_BINS, .raw bindexSize⟩ :=
      ⟨ofList_spans l, raw_spans yFits, raw_spans bindexFits, fun i j hi hj => decide_eq_true ⟨hi, hj⟩,
        fun i none => by omega, fun i none => by omega⟩
    have distribution : ∃ state, binWith comp (fun x n m tree => buildSampleTreeWith std comp (place n) x n m tree)
        l.length (2 ^ d) ⟨ofList l, .raw ySize, .rawTable MAX_BINS MAX_BINS, .raw bindexSize⟩ = some state ∧
        Distributed (binOf comp T (2 ^ d)) (2 ^ d) ((l.length + 2 ^ d - 1) / 2 ^ d) l (2 ^ d) state :=
      binWith_spec rfl few large bins (fun x i key reads => descend_spec weak split reads) built empty (ofList_stores l)
    obtain ⟨state, run, distributed⟩ := distribution
    obtain ⟨x, y, repacks, room, R, stored, perm, sorted⟩ := repackAndSubsort_spec std weak
      (fun a b => comp_of_binOf_lt weak) positive few bins large distributed
    refine ⟨R, ?_, perm, sorted⟩
    have whole : x.readRange 0 l.length = some R := by
      rw [← perm.length_eq] at room ⊢
      exact readRange_eq room stored
    rw [parallelSamplesortWith]
    dsimp only
    rw [if_pos ⟨large, yFits, bindexFits⟩, number, run]
    simp only [Option.bind_eq_bind, Option.bind_some, repacks, whole]
  · obtain ⟨l', run, result⟩ := parallelQuicksort_spec std weak l
    refine ⟨l', ?_, result⟩
    rw [parallelSamplesortWith]
    dsimp only
    rw [if_neg sampled, run]

theorem regularPlace_lt (n nSample : ℕ) (several : 1 < nSample) (fewer : nSample ≤ n) (i : ℕ) (sample : i < nSample) :
    ∃ p < n, regularPlace n nSample i = some p := by
  refine ⟨i * ((n - 1) / (nSample - 1)), ?_, ?_⟩
  · have last : i * ((n - 1) / (nSample - 1)) ≤ (nSample - 1) * ((n - 1) / (nSample - 1)) :=
      Nat.mul_le_mul_right _ (by omega)
    have inside := Nat.mul_div_le (n - 1) (nSample - 1)
    omega
  · simp only [regularPlace, subtract, if_pos (show 1 ≤ n by omega), if_pos (show 1 ≤ nSample by omega), quotient,
      if_neg (show nSample - 1 ≠ 0 by omega), Option.bind_eq_bind, Option.bind_some]

theorem randomPlace_lt (numbers : ℕ → ℕ) (n nSample : ℕ) (several : 1 < nSample) (fewer : nSample ≤ n) (i : ℕ)
    (_ : i < nSample) : ∃ p < n, randomPlace numbers nSample i = some p := by
  refine ⟨numbers i % nSample, ?_, if_neg (by omega)⟩
  exact (Nat.mod_lt _ (by omega)).trans_le fewer

/-- All three sample sorts sort, whatever temporary memory they get and whatever random numbers. The length of a
range is a `ptrdiff_t`. -/
theorem cilkSort_sorts (std : Std α) (weak : StrictWeak comp) (dprng dprand : ℕ → ℕ) (ySize bindexSize : ℕ)
    (l : List α) (fits : l.length < 2 ^ 63) :
    (∃ l', cilkSort std comp ySize bindexSize l = some l' ∧ l'.Perm l ∧ Sorted comp l') ∧
    (∃ l', cilkSortDotmix std comp dprng ySize bindexSize l = some l' ∧ l'.Perm l ∧ Sorted comp l') ∧
    ∃ l', cilkSortDprand std comp dprand ySize bindexSize l = some l' ∧ l'.Perm l ∧ Sorted comp l' := by
  refine ⟨?_, ?_, ?_⟩
  · exact parallelSamplesortWith_spec std weak regularPlace_lt ySize bindexSize l fits
  · exact parallelSamplesortWith_spec std weak (fun n => randomPlace_lt dprng n) ySize bindexSize l fits
  · exact parallelSamplesortWith_spec std weak (fun n => randomPlace_lt dprand n) ySize bindexSize l fits

/-- With enough memory and a range long enough for sampling. -/
theorem cilkSort_sorts_descending :
    let l := (List.range 3000).reverse
    let comp (a b : ℕ) : Bool := decide (a < b)
    (∃ l', cilkSort (.merging ℕ) comp 3000 3000 l = some l' ∧ l'.Perm l ∧ Sorted comp l') ∧
    (∃ l', cilkSortDotmix (.merging ℕ) comp (fun i => 7 * i + 3) 3000 3000 l = some l' ∧ l'.Perm l ∧ Sorted comp l') ∧
    ∃ l', cilkSortDprand (.merging ℕ) comp (fun i => i * i) 3000 2999 l = some l' ∧ l'.Perm l ∧ Sorted comp l' := by
  intro l comp
  have weak : StrictWeak comp := by
    refine { irrefl := ?_, trans := ?_, incomp_trans := ?_ }
    all_goals
      simp only [comp, decide_eq_true_eq]
      omega
  have fits : l.length < 2 ^ 63 := by simp [l]
  refine ⟨(cilkSort_sorts (.merging ℕ) weak (fun i => 7 * i + 3) id 3000 3000 l fits).1,
    (cilkSort_sorts (.merging ℕ) weak (fun i => 7 * i + 3) id 3000 3000 l fits).2.1,
    (cilkSort_sorts (.merging ℕ) weak id (fun i => i * i) 3000 2999 l fits).2.2⟩

end Samplesort

end CilkArtifact.Cilkpub
