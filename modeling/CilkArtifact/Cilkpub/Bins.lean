import CilkArtifact.Cilkpub.Tree
import Mathlib.Algebra.BigOperators.Intervals
import Mathlib.Algebra.Order.BigOperators.Group.Finset

/-! The first pass of sample sort: every block of the array is distributed over buckets. -/
namespace CilkArtifact.Cilkpub
open Buffer
variable {α : Type}

/-! ### Buckets of a list -/

section Buckets
variable (bin : α → ℕ)

/-- The elements of `l` that belong to bin `b`, in their order. -/
def bucket (b : ℕ) (l : List α) : List α := l.filter fun v => bin v == b

/-- The number of elements of `l` in bins before `b`. -/
def offset (b : ℕ) (l : List α) : ℕ := ∑ b' ∈ Finset.range b, (bucket bin b' l).length

variable {bin} {l l' : List α} {b m : ℕ}

@[simp] theorem bucket_nil : bucket bin b [] = [] := rfl

theorem bucket_append : bucket bin b (l ++ l') = bucket bin b l ++ bucket bin b l' := List.filter_append ..

theorem bucket_singleton (v : α) : bucket bin b [v] = if bin v = b then [v] else [] := by
  simp [bucket, List.filter_cons]

variable (bin l) in
theorem offset_succ (b : ℕ) : offset bin (b + 1) l = offset bin b l + (bucket bin b l).length :=
  Finset.sum_range_succ ..

variable (bin l) in
theorem offset_mono {b' : ℕ} (ordered : b ≤ b') : offset bin b l ≤ offset bin b' l :=
  Finset.sum_le_sum_of_subset (Finset.range_mono ordered)

/-- All elements are in one of the bins. -/
theorem offset_all (bins : ∀ v ∈ l, bin v < m) : offset bin m l = l.length := by
  induction l with
  | nil => simp [offset]
  | cons v l ih =>
    have others := ih fun w member => bins w (List.mem_cons_of_mem v member)
    have here : bin v ∈ Finset.range m := Finset.mem_range.mpr (bins v List.mem_cons_self)
    have split (b : ℕ) : (bucket bin b (v :: l)).length = (if bin v = b then 1 else 0) + (bucket bin b l).length := by
      rw [← List.singleton_append, bucket_append, bucket_singleton, List.length_append]
      split_ifs <;> rfl
    simp only [offset, split, Finset.sum_add_distrib, Finset.sum_ite_eq, if_pos here] at others ⊢
    rw [others, List.length_cons, add_comm]

/-- A bucket of a longer list is longer. -/
theorem bucket_length_le (b : ℕ) : (bucket bin b l).length ≤ (bucket bin b (l ++ l')).length := by
  rw [bucket_append, List.length_append]
  omega

end Buckets

/-! ### Bins of the keys -/

section Keys
variable {comp : α → α → Bool} {bin : α → ℕ} {x tree : Buffer ℕ α} {B : List α} {js m d : ℕ}

theorem take_succ_eq {p : ℕ} (inside : p < B.length) : B.take (p + 1) = B.take p ++ [B[p]] :=
  List.take_succ_eq_append_getElem inside

theorem clear_spec (few : m ≤ MAX_BINS) :
    ∃ freq : Buffer ℕ ℕ, forLoop 0 m (fun freq j => freq.write j 0) (.raw MAX_BINS) = some freq ∧
      freq.Spans 0 MAX_BINS ∧ ∀ b < m, freq.cell b = some 0 := by
  refine forLoop_invariant (fun j (freq : Buffer ℕ ℕ) => freq.Spans 0 MAX_BINS ∧ ∀ b < j, freq.cell b = some 0)
    (Nat.zero_le _) ⟨fun i inside => ?_, fun b none => by omega⟩ ?_
  · rw [mem_span] at inside
    exact decide_eq_true (by omega)
  · rintro j freq _ bound ⟨room, zeros⟩
    obtain ⟨freq', writes, written, changes⟩ := write_spec (room j (by rw [mem_span]; omega)) 0
    refine ⟨freq', writes, room.changes changes, fun b before => ?_⟩
    by_cases here : b = j
    · rw [here, written]
    · rw [changes.frame b (by rwa [Set.mem_singleton_iff]), zeros b (by omega)]

/-- The bins of the first `i` keys, and how many of these keys are in each bin. -/
structure Mapped (bin : α → ℕ) (m : ℕ) (B : List α) (js i : ℕ) (bindex : Buffer ℕ ℕ)
    (result : Buffer ℕ ℕ × Buffer ℕ ℕ) : Prop where
  indices : result.1.Stores js ((B.take i).map bin)
  changes : Changes (span js B.length) bindex result.1
  room : result.2.Spans 0 MAX_BINS
  counts : ∀ b < m, result.2.cell b = some (bucket bin b (B.take i)).length

theorem Mapped.step (few : m ≤ MAX_BINS) (bins : ∀ v, bin v < m) {bindex bindex₁ freq : Buffer ℕ ℕ}
    (room : bindex.Spans js B.length) {i : ℕ} (mapped : Mapped bin m B js i bindex (bindex₁, freq))
    (inside : i < B.length) :
    ∃ bindex' freq', bindex₁.write (js + i) (bin B[i]) = some bindex' ∧
      freq.read (bin B[i]) = some (bucket bin (bin B[i]) (B.take i)).length ∧
      freq.write (bin B[i]) ((bucket bin (bin B[i]) (B.take i)).length + 1) = some freq' ∧
      Mapped bin m B js (i + 1) bindex (bindex', freq') := by
  obtain ⟨indices, changed, freqRoom, counts⟩ := mapped
  have small := bins B[i]
  have place : js + i ∈ span js B.length := ⟨Nat.le_add_right js i, by omega⟩
  have counter : freq.inside (bin B[i]) = true := freqRoom _ ⟨Nat.zero_le _, by omega⟩
  obtain ⟨bindex', writes, written, changes⟩ := write_spec ((room.changes changed) (js + i) place) (bin B[i])
  obtain ⟨freq', writes', written', changes'⟩ :=
    write_spec counter ((bucket bin (bin B[i]) (B.take i)).length + 1)
  refine ⟨bindex', freq', writes, ?_, writes', ?_, changed.cell changes place, freqRoom.changes changes', ?_⟩
  · rw [read_eq counter, counts _ small]
  · have length : ((B.take i).map bin).length = i := by
      rw [List.length_map, List.length_take]
      omega
    rw [take_succ_eq inside, List.map_append]
    exact indices.push (by rw [length]; exact written) (by rw [length]; exact changes)
  · intro b bound
    rw [take_succ_eq inside, bucket_append, bucket_singleton, List.length_append]
    by_cases here : bin B[i] = b
    · rw [if_pos here, ← here, written']
      rfl
    · rw [if_neg here, changes'.frame b (by rw [Set.mem_singleton_iff]; omega), counts b bound]
      rfl

theorem mapKeysToBins_spec (number : m = 2 ^ d) (few : m ≤ MAX_BINS) (bins : ∀ v, bin v < m)
    (search : ∀ i key, x.read i = some key → descend comp x i tree d = some (m - 1 + bin key))
    (stores : x.Stores js B) (spans : x.Spans js B.length) {bindex : Buffer ℕ ℕ} (room : bindex.Spans js B.length) :
    ∃ bindex' freq, mapKeysToBins comp x js B.length tree m bindex (.raw MAX_BINS) = some (bindex', freq) ∧
      bindex'.Stores js (B.map bin) ∧ Changes (span js B.length) bindex bindex' ∧
      freq.Spans 0 MAX_BINS ∧ ∀ b < m, freq.cell b = some (bucket bin b B).length := by
  have positive : 0 < m := by
    rw [number]
    exact Nat.two_pow_pos d
  obtain ⟨freq₀, clears, freqRoom, zeros⟩ := clear_spec few
  have rounds : ∃ result : Buffer ℕ ℕ × Buffer ℕ ℕ,
      mapKeysToBins comp x js B.length tree m bindex (.raw MAX_BINS) = some result ∧
      Mapped bin m B js B.length bindex result := by
    rw [mapKeysToBins, clears, Option.bind_eq_bind, Option.bind_some]
    refine forLoop_invariant (fun i result => Mapped bin m B js i bindex result) (Nat.zero_le _)
      ⟨stores_nil _ _, .refl _ _, freqRoom, zeros⟩ ?_
    rintro i ⟨bindex₁, freq⟩ _ inside mapped
    have key := search (js + i) B[i] (stores.read_at spans inside)
    have byte : bin B[i] % 256 = bin B[i] := Nat.mod_eq_of_lt ((bins B[i]).trans_le (few.trans (by decide)))
    obtain ⟨bindex', freq', writes, count, writes', next⟩ := mapped.step few bins room inside
    refine ⟨(bindex', freq'), ?_, next⟩
    simp only [number ▸ floorLg2_pow d, key, subtract, if_pos (show 1 ≤ m by omega), Option.bind_eq_bind,
      Option.bind_some, if_pos (show m - 1 ≤ m - 1 + bin B[i] by omega), Nat.add_sub_cancel_left, byte, writes, count,
      writes']
  obtain ⟨⟨bindex', freq⟩, run, indices, changes, freqRoom', counts⟩ := rounds
  rw [List.take_length] at indices counts
  exact ⟨bindex', freq, run, indices, changes, freqRoom', counts⟩

end Keys

/-! ### Buckets of a block -/

section Block
variable {bin : α → ℕ} {B : List α} {js m i : ℕ}

/-- Row `i` of `tally` holds running sums of the sizes of the buckets. -/
def Tallies (bin : α → ℕ) (m i : ℕ) (B : List α) (tally : Buffer (ℕ × ℕ) ℕ) : Prop :=
  ∀ b < m, tally.cell (i, b) = some (offset bin (b + 1) B)

def row (i : ℕ) : Set (ℕ × ℕ) := {place | place.1 = i}

/-- Rows and columns below `MAX_BINS`. -/
def TableRoom (tally : Buffer (ℕ × ℕ) ℕ) : Prop := ∀ i j, i < MAX_BINS → j < MAX_BINS → tally.inside (i, j) = true

variable (js) in
theorem bucketStarts_spec (few : m ≤ MAX_BINS) (block : i < MAX_BINS) {freq : Buffer ℕ ℕ}
    (room : freq.Spans 0 MAX_BINS) (counts : ∀ b < m, freq.cell b = some (bucket bin b B).length)
    {tally : Buffer (ℕ × ℕ) ℕ} (table : TableRoom tally) :
    ∃ dst tally' s, bucketStarts m i js freq tally = some (dst, tally', s) ∧ dst.Spans 0 MAX_BINS ∧
      (∀ b < m, dst.cell b = some (js + offset bin b B)) ∧ Tallies bin m i B tally' ∧
      Changes (row i) tally tally' := by
  have steps : ∃ result : Buffer ℕ ℕ × Buffer (ℕ × ℕ) ℕ × ℕ, bucketStarts m i js freq tally = some result ∧
      result.1.Spans 0 MAX_BINS ∧ (∀ b < m, result.1.cell b = some (js + offset bin b B)) ∧
      (∀ b < m, result.2.1.cell (i, b) = some (offset bin (b + 1) B)) ∧ Changes (row i) tally result.2.1 ∧
      result.2.2 = offset bin m B := by
    refine forLoop_invariant (fun j (result : Buffer ℕ ℕ × Buffer (ℕ × ℕ) ℕ × ℕ) =>
      result.1.Spans 0 MAX_BINS ∧ (∀ b < j, result.1.cell b = some (js + offset bin b B)) ∧
      (∀ b < j, result.2.1.cell (i, b) = some (offset bin (b + 1) B)) ∧ Changes (row i) tally result.2.1 ∧
      result.2.2 = offset bin j B) (Nat.zero_le _) ⟨?_, ?_, ?_, .refl _ _, ?_⟩ ?_
    · intro k inside
      rw [mem_span] at inside
      exact decide_eq_true (by omega)
    · exact fun b none => absurd none (Nat.not_lt_zero b)
    · exact fun b none => absurd none (Nat.not_lt_zero b)
    · simp [offset]
    · rintro j ⟨dst, tally', s⟩ _ inside ⟨dstRoom, starts, sums, changed, rfl⟩
      obtain ⟨dst', writes, written, changes⟩ :=
        write_spec (dstRoom j (by rw [mem_span]; omega)) (js + offset bin j B)
      have cell : tally'.inside (i, j) = true := by
        rw [changed.inside]
        exact table i j block (by omega)
      obtain ⟨tally'', writes', written', changes'⟩ := write_spec cell (offset bin (j + 1) B)
      have count : freq.read j = some (bucket bin j B).length := by
        rw [read_eq (room j (by rw [mem_span]; omega)), counts j inside]
      refine ⟨(dst', tally'', offset bin (j + 1) B), ?_, dstRoom.changes changes, ?_, ?_, ?_, rfl⟩
      · simp only [writes, count, Option.bind_eq_bind, Option.bind_some, ← offset_succ, writes']
      · intro b before
        by_cases here : b = j
        · rw [here, written]
        · rw [changes.frame b (by rwa [Set.mem_singleton_iff]), starts b (by omega)]
      · intro b before
        by_cases here : b = j
        · rw [here, written']
        · rw [changes'.frame (i, b) (by simpa using here), sums b (by omega)]
      · refine changed.trans (changes'.mono ?_)
        rintro _ rfl
        rfl
  obtain ⟨⟨dst, tally', s⟩, run, dstRoom, starts, sums, changed, -⟩ := steps
  exact ⟨dst, tally', s, run, dstRoom, starts, sums, changed⟩

variable (bin B) in
theorem bucket_take_le (b p : ℕ) : (bucket bin b (B.take p)).length ≤ (bucket bin b B).length := by
  conv_rhs => rw [← List.take_append_drop p B]
  exact bucket_length_le b

variable (bin) in
/-- There is room in its bucket for the next element. -/
theorem bucket_take_lt {p : ℕ} (inside : p < B.length) :
    (bucket bin (bin B[p]) (B.take p)).length < (bucket bin (bin B[p]) B).length := by
  have next := bucket_take_le bin B (bin B[p]) (p + 1)
  rw [take_succ_eq inside, bucket_append, bucket_singleton, if_pos rfl, List.length_append, List.length_singleton] at next
  omega

/-- The place of the next element is in no other bucket. -/
theorem bucket_apart {p : ℕ} (inside : p < B.length) {b : ℕ} :
    ∀ k ∈ span (js + offset bin b B) (bucket bin b (B.take p)).length,
      k ≠ js + offset bin (bin B[p]) B + (bucket bin (bin B[p]) (B.take p)).length := by
  intro k member
  rw [mem_span] at member
  have smaller := bucket_take_le bin B b p
  have room := bucket_take_lt bin inside
  have here := offset_succ bin B b
  have there := offset_succ bin B (bin B[p])
  rcases lt_trichotomy b (bin B[p]) with less | rfl | more
  · have : offset bin (b + 1) B ≤ offset bin (bin B[p]) B := offset_mono bin B less
    omega
  · omega
  · have : offset bin (bin B[p] + 1) B ≤ offset bin b B := offset_mono bin B more
    omega

/-- The first `p` elements have been moved to their buckets. -/
structure Scattered (bin : α → ℕ) (m : ℕ) (B : List α) (js p : ℕ) (x y : Buffer ℕ α)
    (state : Buffer ℕ α × Buffer ℕ α × Buffer ℕ ℕ) : Prop where
  xChanges : Changes (span js p) x state.1
  yChanges : Changes (span js B.length) y state.2.1
  room : state.2.2.Spans 0 MAX_BINS
  places : ∀ b < m, state.2.2.cell b = some (js + offset bin b B + (bucket bin b (B.take p)).length)
  filled : ∀ b < m, state.2.1.Stores (js + offset bin b B) (bucket bin b (B.take p))

theorem Scattered.step (bins : ∀ v, bin v < m) (few : m ≤ MAX_BINS) {x y x₁ y₁ : Buffer ℕ α} {dst : Buffer ℕ ℕ}
    (xStores : x.Stores js B) (xSpans : x.Spans js B.length) (ySpans : y.Spans js B.length) {p : ℕ}
    (scattered : Scattered bin m B js p x y (x₁, y₁, dst)) (inside : p < B.length) :
    ∃ place x' y' dst', dst.read (bin B[p]) = some place ∧ x₁.move (js + p) = some (B[p], x') ∧
      y₁.write place B[p] = some y' ∧ dst.write (bin B[p]) (place + 1) = some dst' ∧
      Scattered bin m B js (p + 1) x y (x', y', dst') := by
  obtain ⟨xChanges, yChanges, room, places, filled⟩ := scattered
  have small := bins B[p]
  have within := bucket_take_lt bin inside
  have total : offset bin (bin B[p] + 1) B ≤ B.length := by
    rw [← offset_all fun v _ => bins v]
    exact offset_mono bin B small
  rw [offset_succ] at total
  have target : js + offset bin (bin B[p]) B + (bucket bin (bin B[p]) (B.take p)).length ∈ span js B.length := by
    rw [mem_span]
    omega
  have pointer : dst.inside (bin B[p]) = true := room _ ⟨Nat.zero_le _, by omega⟩
  have element : x₁.cell (js + p) = some B[p] := by
    rw [xChanges.frame _ (by rw [mem_span]; omega), xStores p inside, List.getElem?_eq_getElem inside]
  obtain ⟨x', moves, xChanges'⟩ := move_spec ((xSpans.changes xChanges) (js + p) (by rw [mem_span]; omega)) element
  obtain ⟨y', writes, written, yChanges'⟩ := write_spec ((ySpans.changes yChanges) _ target) B[p]
  obtain ⟨dst', writes', written', dstChanges⟩ := write_spec pointer
    (js + offset bin (bin B[p]) B + (bucket bin (bin B[p]) (B.take p)).length + 1)
  refine ⟨_, x', y', dst', by rw [read_eq pointer, places _ small], moves, writes, writes',
    (xChanges.mono (span_mono le_rfl (by omega))).cell xChanges' ⟨Nat.le_add_right _ _, by omega⟩,
    yChanges.cell yChanges' target, room.changes dstChanges, ?_, ?_⟩
  · intro b bound
    rw [take_succ_eq inside, bucket_append, bucket_singleton]
    by_cases here : bin B[p] = b
    · rw [if_pos here, List.length_append, List.length_singleton, ← add_assoc, ← here]
      exact written'
    · rw [if_neg here, List.append_nil, dstChanges.frame b (by rw [Set.mem_singleton_iff]; omega)]
      exact places b bound
  · intro b bound
    rw [take_succ_eq inside, bucket_append, bucket_singleton]
    by_cases here : bin B[p] = b
    · subst here
      rw [if_pos rfl]
      exact (filled _ bound).push written yChanges'
    · rw [if_neg here, List.append_nil]
      exact (filled b bound).changes yChanges' fun k member => bucket_apart inside k member

theorem scatter_spec (bins : ∀ v, bin v < m) (few : m ≤ MAX_BINS) {x y : Buffer ℕ α} {bindex dst : Buffer ℕ ℕ}
    (xStores : x.Stores js B) (xSpans : x.Spans js B.length) (ySpans : y.Spans js B.length)
    (indices : bindex.Stores js (B.map bin)) (bindexSpans : bindex.Spans js B.length) (dstRoom : dst.Spans 0 MAX_BINS)
    (starts : ∀ b < m, dst.cell b = some (js + offset bin b B)) :
    ∃ x' y' dst', scatter bindex js (js + B.length) x y dst = some (x', y', dst') ∧
      Changes (span js B.length) x x' ∧ Changes (span js B.length) y y' ∧
      ∀ b < m, y'.Stores (js + offset bin b B) (bucket bin b B) := by
  have rounds : ∃ state : Buffer ℕ α × Buffer ℕ α × Buffer ℕ ℕ,
      scatter bindex js (js + B.length) x y dst = some state ∧
      Scattered bin m B js (js + B.length - js) x y state := by
    refine forLoop_invariant (fun j state => Scattered bin m B js (j - js) x y state) (by omega) ?_ ?_
    · rw [Nat.sub_self]
      exact ⟨.refl _ _, .refl _ _, dstRoom, starts, fun b _ => stores_nil _ _⟩
    · rintro j ⟨x₁, y₁, dst₁⟩ lower upper scattered
      obtain ⟨p, rfl⟩ := Nat.exists_eq_add_of_le lower
      rw [Nat.add_sub_cancel_left] at scattered
      have inside : p < B.length := by omega
      have index : bindex.read (js + p) = some (bin B[p]) := by
        have reads := indices.read_at (by rwa [List.length_map]) (t := p) (by rwa [List.length_map])
        rwa [List.getElem_map] at reads
      obtain ⟨place, x', y', dst', reads, moves, writes, writes', next⟩ :=
        scattered.step bins few xStores xSpans ySpans inside
      refine ⟨(x', y', dst'), ?_, ?_⟩
      · simp only [index, reads, moves, writes, writes', Option.bind_eq_bind, Option.bind_some]
      · rwa [show js + p + 1 - js = p + 1 by omega]
  obtain ⟨⟨x', y', dst'⟩, run, xChanges, yChanges, -, -, filled⟩ := rounds
  rw [Nat.add_sub_cancel_left] at xChanges filled
  rw [List.take_length] at filled
  exact ⟨x', y', dst', run, xChanges, yChanges, filled⟩

end Block

/-! ### All blocks -/

/-- Block `i` of the array. -/
def blockOf (blockSize i : ℕ) (l : List α) : List α := (l.drop (i * blockSize)).take blockSize

theorem blockOf_length (blockSize i : ℕ) (l : List α) :
    (blockOf blockSize i l).length = min blockSize (l.length - i * blockSize) := by
  rw [blockOf, List.length_take, List.length_drop]

theorem take_block (blockSize i : ℕ) (l : List α) :
    l.take ((i + 1) * blockSize) = l.take (i * blockSize) ++ blockOf blockSize i l := by
  rw [blockOf, Nat.succ_mul, List.take_add]

/-- What `bin` leaves behind for the blocks before block `k`. -/
structure Distributed (bin : α → ℕ) (m blockSize : ℕ) (l : List α) (k : ℕ) (bins : Bins α) : Prop where
  xRoom : bins.x.Spans 0 l.length
  yRoom : bins.y.Spans 0 l.length
  bindexRoom : bins.bindex.Spans 0 l.length
  table : TableRoom bins.tally
  tallies : ∀ i < k, Tallies bin m i (blockOf blockSize i l) bins.tally
  buckets : ∀ i < k, ∀ b < m, bins.y.Stores (i * blockSize + offset bin b (blockOf blockSize i l))
    (bucket bin b (blockOf blockSize i l))

section Blocks
variable {comp : α → α → Bool} {bin : α → ℕ} {l : List α} {m d blockSize : ℕ}

theorem offset_bucket_le (bins : ∀ v, bin v < m) (B : List α) {b : ℕ} (bound : b < m) :
    offset bin b B + (bucket bin b B).length ≤ B.length := by
  rw [← offset_succ, ← offset_all (l := B) fun v _ => bins v]
  exact offset_mono bin B bound

theorem binBlock_spec {tree : Buffer ℕ α} (number : m = 2 ^ d) (few : m ≤ MAX_BINS) (bins : ∀ v, bin v < m)
    (search : ∀ (x : Buffer ℕ α) i key, x.read i = some key → descend comp x i tree d = some (m - 1 + bin key))
    {i : ℕ} (block : i < m) (start : i * blockSize ≤ l.length) {state : Bins α}
    (distributed : Distributed bin m blockSize l i state)
    (rest : state.x.Stores (i * blockSize) (l.drop (i * blockSize))) :
    ∃ state', binBlock comp l.length m blockSize tree state i = some state' ∧
      Distributed bin m blockSize l (i + 1) state' ∧
      Changes (span (i * blockSize) (blockOf blockSize i l).length) state.x state'.x := by
  have length := blockOf_length blockSize i l
  have stop : min (i * blockSize + blockSize) l.length = i * blockSize + (blockOf blockSize i l).length := by omega
  have size : (blockOf blockSize i l).length = i * blockSize + (blockOf blockSize i l).length - i * blockSize := by omega
  have stores : state.x.Stores (i * blockSize) (blockOf blockSize i l) := by
    rw [← List.take_append_drop blockSize (l.drop (i * blockSize)), stores_append] at rest
    exact rest.1
  have xSpans : state.x.Spans (i * blockSize) (blockOf blockSize i l).length :=
    distributed.xRoom.sub (Nat.zero_le _) (by omega)
  have ySpans : state.y.Spans (i * blockSize) (blockOf blockSize i l).length :=
    distributed.yRoom.sub (Nat.zero_le _) (by omega)
  have bindexSpans : state.bindex.Spans (i * blockSize) (blockOf blockSize i l).length :=
    distributed.bindexRoom.sub (Nat.zero_le _) (by omega)
  obtain ⟨bindex, freq, maps, indices, bindexChanges, freqRoom, counts⟩ :=
    mapKeysToBins_spec number few bins (search state.x) stores xSpans bindexSpans
  obtain ⟨dst, tally, s, begins, dstRoom, starts, tallies, tallyChanges⟩ :=
    bucketStarts_spec (i * blockSize) few (block.trans_le few) freqRoom counts distributed.table
  obtain ⟨x, y, dst', scatters, xChanges, yChanges, buckets⟩ :=
    scatter_spec bins few stores xSpans ySpans indices (bindexSpans.changes bindexChanges) dstRoom starts
  refine ⟨⟨x, y, tally, bindex⟩, ?_, ⟨?_, ?_, ?_, ?_, ?_, ?_⟩, xChanges⟩
  · simp only [binBlock, stop, subtract, if_pos (Nat.le_add_right _ _), ← size, maps, begins, scatters,
      Option.bind_eq_bind, Option.bind_some]
  · exact distributed.xRoom.changes xChanges
  · exact distributed.yRoom.changes yChanges
  · exact distributed.bindexRoom.changes bindexChanges
  · intro r c hr hc
    rw [tallyChanges.inside]
    exact distributed.table r c hr hc
  · intro i' before b bound
    rcases Nat.lt_succ_iff_lt_or_eq.mp before with earlier | rfl
    · rw [tallyChanges.frame (i', b) fun same => earlier.ne same]
      exact distributed.tallies i' earlier b bound
    · exact tallies b bound
  · intro i' before b bound
    rcases Nat.lt_succ_iff_lt_or_eq.mp before with earlier | rfl
    · have inside := offset_bucket_le bins (blockOf blockSize i' l) bound
      have limit := blockOf_length blockSize i' l
      have ordered : (i' + 1) * blockSize ≤ i * blockSize := Nat.mul_le_mul_right _ earlier
      rw [Nat.succ_mul] at ordered
      exact (distributed.buckets i' earlier b bound).changes yChanges (span_apart (by omega))
    · exact buckets b bound

theorem blocks_cover (n : ℕ) (positive : 0 < m) : n ≤ m * ((n + m - 1) / m) := by
  have upper := Nat.lt_mul_div_succ (n + m - 1) positive
  rw [Nat.mul_succ] at upper
  omega

/-- Every block starts inside the array, also when the last one is short. -/
theorem block_start_le {n : ℕ} (positive : 0 < m) (few : m ≤ MAX_BINS) (large : SAMPLESORT_QSORT_CUTOFF < n) {i : ℕ}
    (block : i < m) : i * ((n + m - 1) / m) ≤ n := by
  have rounded : (n + m - 1) / m * m ≤ n + m - 1 := Nat.div_mul_le_self _ _
  have cover := blocks_cover n positive
  generalize (n + m - 1) / m = blockSize at rounded cover ⊢
  rw [MAX_BINS] at few
  rw [SAMPLESORT_QSORT_CUTOFF] at large
  have wide : 32 < blockSize := by
    by_contra narrow
    nlinarith
  have last : (i + 1) * blockSize ≤ blockSize * m := by
    rw [Nat.mul_comm blockSize]
    exact Nat.mul_le_mul_right _ block
  rw [Nat.succ_mul] at last
  omega

theorem binWith_spec {build : Buffer ℕ α → ℕ → ℕ → Buffer ℕ α → Option (Buffer ℕ α)} {tree : Buffer ℕ α}
    (number : m = 2 ^ d) (few : m ≤ MAX_BINS) (large : SAMPLESORT_QSORT_CUTOFF < l.length) (bins : ∀ v, bin v < m)
    (search : ∀ (x : Buffer ℕ α) i key, x.read i = some key → descend comp x i tree d = some (m - 1 + bin key))
    {state : Bins α} (built : build state.x l.length m (.raw (MAX_BINS - 1)) = some tree)
    (room : Distributed bin m ((l.length + m - 1) / m) l 0 state) (stores : state.x.Stores 0 l) :
    ∃ state', binWith comp build l.length m state = some state' ∧
      Distributed bin m ((l.length + m - 1) / m) l m state' := by
  have positive : 0 < m := by
    rw [number]
    exact Nat.two_pow_pos d
  have starts (i : ℕ) (block : i < m) := block_start_le positive few large block
  simp only [binWith, built, quotient, if_neg positive.ne', Option.bind_eq_bind, Option.bind_some]
  generalize (l.length + m - 1) / m = blockSize at room starts ⊢
  have blocks : ∃ state', forLoop 0 m (binBlock comp l.length m blockSize tree) state = some state' ∧
      Distributed bin m blockSize l m state' ∧ Changes (span 0 (m * blockSize)) state.x state'.x := by
    refine forLoop_invariant (fun i state' => Distributed bin m blockSize l i state' ∧
      Changes (span 0 (i * blockSize)) state.x state'.x) (Nat.zero_le _) ⟨room, .refl _ _⟩ ?_
    rintro i state' _ block ⟨distributed, changes⟩
    have start := starts i block
    have rest : state'.x.Stores (i * blockSize) (l.drop (i * blockSize)) := by
      have whole := stores
      rw [← List.take_append_drop (i * blockSize) l, stores_append, zero_add, List.length_take,
        min_eq_left start] at whole
      exact whole.2.changes changes (span_apart (by omega))
    obtain ⟨next, run, distributed', changes'⟩ := binBlock_spec number few bins search block start distributed rest
    have limit := blockOf_length blockSize i l
    refine ⟨next, run, distributed', (changes.mono ?_).trans (changes'.mono ?_)⟩
    · exact span_mono le_rfl (by rw [Nat.succ_mul]; omega)
    · exact span_mono (Nat.zero_le _) (by rw [Nat.succ_mul]; omega)
  obtain ⟨state', run, distributed, -⟩ := blocks
  exact ⟨state', run, distributed⟩

end Blocks

end CilkArtifact.Cilkpub
