import CilkArtifact.Library.Memory

/-! The sequential sorts of `cilksort.c`: median of three, the sentinel-scan
partition, insertion sort and the tail-recursive quicksort. Pointers are cell
addresses; the element type enters only through its order. Loops are least
fixed points over `Option`, so a result is a terminating run without a fault. -/
/-- The memory of the sort. A function that calls itself is applied to it with `|>.`. -/
abbrev CilkArtifact.Cilksort (ELM : Type) := Memory ELM

namespace CilkArtifact.Cilksort
open Memory
variable {ELM : Type} [LinearOrder ELM]

def INSERTIONSIZE : ℤ := 20

def med3 (a b c : ELM) : ELM :=
  if a < b then
    if b < c then b else if a < c then c else a
  else
    if c < b then b else if c < a then c else a

def choosePivot (m : Memory ELM) (low high : ℤ) : Option ELM := do
  let a ← m.load low
  let b ← m.load high
  let c ← m.load (low + (high - low) / 2)
  return med3 a b c

/-- `while ((h = *curr_high) > pivot) curr_high--`. -/
def scanDown (m : Cilksort ELM) (pivot : ELM) (currHigh : ℤ) : Option (ELM × ℤ) := do
  let h ← m.load currHigh
  if pivot < h then m |>.scanDown pivot (currHigh - 1) else some (h, currHigh)
partial_fixpoint

/-- `while ((l = *curr_low) < pivot) curr_low++`. -/
def scanUp (m : Cilksort ELM) (pivot : ELM) (currLow : ℤ) : Option (ELM × ℤ) := do
  let l ← m.load currLow
  if l < pivot then m |>.scanUp pivot (currLow + 1) else some (l, currLow)
partial_fixpoint

/-- The `while (1)` loop of `seqpart`; returns `curr_high` at the break. -/
def partitionLoop (pivot : ELM) (m : Cilksort ELM) (currLow currHigh : ℤ) :
    Option (Cilksort ELM × ℤ) := do
  let (h, currHigh) ← scanDown m pivot currHigh
  let (l, currLow) ← scanUp m pivot currLow
  if currLow ≥ currHigh then some (m, currHigh)
  else do
    let m ← m.store currHigh l
    let m : Cilksort ELM ← m.store currLow h
    m |>.partitionLoop pivot (currLow + 1) (currHigh - 1)
partial_fixpoint

def seqpart (m : Cilksort ELM) (low high : ℤ) : Option (Cilksort ELM × ℤ) := do
  let pivot ← choosePivot m low high
  let (m, currHigh) ← partitionLoop pivot m low high
  if currHigh < high then return (m, currHigh) else return (m, currHigh - 1)

/-- The inner loop of `insertion_sort`, with the final `p[1] = a`. -/
def insertLoop (low : ℤ) (a : ELM) (m : Cilksort ELM) (p : ℤ) : Option (Cilksort ELM) :=
  if p ≥ low then do
    let b ← m.load p
    if a < b then do
      let m : Cilksort ELM ← m.store (p + 1) b
      m |>.insertLoop low a (p - 1)
    else m.store (p + 1) a
  else m.store (p + 1) a
partial_fixpoint

/-- The outer loop of `insertion_sort` from `q` on. -/
def insertionLoop (low high : ℤ) (m : Cilksort ELM) (q : ℤ) : Option (Cilksort ELM) :=
  if q ≤ high then do
    let a ← m.load q
    let m ← insertLoop low a m (q - 1)
    m |>.insertionLoop low high (q + 1)
  else some m
partial_fixpoint

def insertionSort (m : Cilksort ELM) (low high : ℤ) : Option (Cilksort ELM) :=
  insertionLoop low high m (low + 1)

/-- The `while` loop sets `low = p + 1`, which is a call on the upper part. -/
def seqquick (m : Cilksort ELM) (low high : ℤ) : Option (Cilksort ELM) :=
  if high - low ≥ INSERTIONSIZE then do
    let (m, p) ← seqpart m low high
    let m ← m |>.seqquick low p
    m |>.seqquick (p + 1) high
  else insertionSort m low high
partial_fixpoint

/-! ### Partition -/

theorem med3_mem (a b c : ELM) : med3 a b c = a ∨ med3 a b c = b ∨ med3 a b c = c := by
  unfold med3
  split_ifs <;> simp

variable {m : Memory ELM}

theorem scanDown_spec {pivot : ELM} (n : ℕ) : ∀ (stop p : ℤ), p - stop = n →
    m.MappedOn (Set.Icc stop p) → m.val stop ≤ pivot →
    ∃ r, scanDown m pivot p = some (m.val r, r) ∧ stop ≤ r ∧ r ≤ p ∧ m.val r ≤ pivot ∧
      ∀ a, r < a → a ≤ p → pivot < m.val a := by
  induction n with
  | zero =>
    intro stop p distance mapped sentinel
    obtain rfl : p = stop := by omega
    refine ⟨p, ?_, le_rfl, le_rfl, sentinel, fun a _ _ => by omega⟩
    rw [scanDown, load_mapped (mapped p ⟨le_rfl, le_rfl⟩)]
    simp [not_lt.mpr sentinel]
  | succ n ih =>
    intro stop p distance mapped sentinel
    rw [scanDown, load_mapped (mapped p ⟨by omega, le_rfl⟩)]
    by_cases above : pivot < m.val p
    · obtain ⟨r, run, lower, upper, value, passed⟩ := ih stop (p - 1) (by omega)
        (mapped.mono (Set.Icc_subset_Icc_right (by omega))) sentinel
      refine ⟨r, by simpa [above] using run, lower, by omega, value, ?_⟩
      intro a ha hp
      rcases eq_or_lt_of_le hp with rfl | less
      · exact above
      · exact passed a ha (by omega)
    · exact ⟨p, by simp [above], by omega, le_rfl, not_lt.mp above, fun a _ _ => by omega⟩

theorem scanUp_spec {pivot : ELM} (n : ℕ) : ∀ (p stop : ℤ), stop - p = n →
    m.MappedOn (Set.Icc p stop) → pivot ≤ m.val stop →
    ∃ r, scanUp m pivot p = some (m.val r, r) ∧ p ≤ r ∧ r ≤ stop ∧ pivot ≤ m.val r ∧
      ∀ a, p ≤ a → a < r → m.val a < pivot := by
  induction n with
  | zero =>
    intro p stop distance mapped sentinel
    obtain rfl : p = stop := by omega
    refine ⟨p, ?_, le_rfl, le_rfl, sentinel, fun a _ _ => by omega⟩
    rw [scanUp, load_mapped (mapped p ⟨le_rfl, le_rfl⟩)]
    simp [not_lt.mpr sentinel]
  | succ n ih =>
    intro p stop distance mapped sentinel
    rw [scanUp, load_mapped (mapped p ⟨le_rfl, by omega⟩)]
    by_cases below : m.val p < pivot
    · obtain ⟨r, run, lower, upper, value, passed⟩ := ih (p + 1) stop (by omega)
        (mapped.mono (Set.Icc_subset_Icc_left (by omega))) sentinel
      refine ⟨r, by simpa [below] using run, by omega, upper, value, ?_⟩
      intro a hp ha
      rcases eq_or_lt_of_le hp with rfl | less
      · exact below
      · exact passed a (by omega) ha
    · exact ⟨p, by simp [below], le_rfl, by omega, not_lt.mp below, fun a _ _ => by omega⟩

/-- What the partition loop guarantees about the part already separated, and
the sentinels that stop its two scans inside `[low, high]`. -/
structure Partitioning (m : Memory ELM) (pivot : ELM) (low high currLow currHigh : ℤ) : Prop where
  lower : low ≤ currLow
  upper : currHigh ≤ high
  left : ∀ a, low ≤ a → a < currLow → m.val a ≤ pivot
  right : ∀ a, currHigh < a → a ≤ high → pivot ≤ m.val a
  stopDown : ∃ a, low ≤ a ∧ a ≤ currHigh ∧ m.val a ≤ pivot
  stopUp : ∃ a, currLow ≤ a ∧ a ≤ high ∧ pivot ≤ m.val a

/-- Both scans stop inside `[low, high]`, each at a cell on the other side. -/
theorem Partitioning.scans {pivot : ELM} {low high currLow currHigh : ℤ}
    (part : Partitioning m pivot low high currLow currHigh) (mapped : m.MappedOn (Set.Icc low high)) :
    ∃ i j, scanDown m pivot currHigh = some (m.val j, j) ∧ scanUp m pivot currLow = some (m.val i, i) ∧
      currLow ≤ i ∧ i ≤ high ∧ low ≤ j ∧ j ≤ currHigh ∧ m.val j ≤ pivot ∧ pivot ≤ m.val i ∧
      (∀ a, low ≤ a → a < i → m.val a ≤ pivot) ∧ ∀ a, j < a → a ≤ high → pivot ≤ m.val a := by
  obtain ⟨s, sLow, sHigh, small⟩ := part.stopDown
  obtain ⟨t, tLow, tHigh, large⟩ := part.stopUp
  obtain ⟨j, down, hsj, hj, valj, passed⟩ := scanDown_spec (currHigh - s).toNat
    s currHigh (by omega)
    (mapped.mono (Set.Icc_subset_Icc sLow part.upper)) small
  obtain ⟨i, up, hi, hit, vali, skipped⟩ := scanUp_spec (t - currLow).toNat
    currLow t (by omega)
    (mapped.mono (Set.Icc_subset_Icc part.lower tHigh)) large
  refine ⟨i, j, down, up, hi, by omega, by omega, hj, valj, vali, ?_, ?_⟩
  · intro a lower upper
    rcases lt_or_ge a currLow with before | after
    · exact part.left a lower before
    · exact (skipped a after upper).le
  · intro a lower upper
    rcases le_or_gt a currHigh with before | after
    · exact (passed a lower before).le
    · exact part.right a after upper

/-- The loop ends, having only swapped cells of `[low, high]`; it stops at a
cell `r` that separates small from large values, and when `r` is the last cell
that cell is not below the pivot. -/
theorem partitionLoop_spec {pivot : ELM} {low high : ℤ} (n : ℕ) :
    ∀ {m : Memory ELM} {currLow currHigh : ℤ}, (currHigh - currLow + 1).toNat < n →
    m.MappedOn (Set.Icc low high) → Partitioning m pivot low high currLow currHigh →
    ∃ m' r, partitionLoop pivot m currLow currHigh = some (m', r) ∧ low ≤ r ∧ r ≤ high ∧
      Changes (Set.Icc low high) m m' ∧ m'.bag low (high + 1) = m.bag low (high + 1) ∧
      (∀ a, low ≤ a → a ≤ r → m'.val a ≤ pivot) ∧ (∀ a, r < a → a ≤ high → pivot ≤ m'.val a) ∧
      (r = high → pivot ≤ m'.val high) := by
  induction n with
  | zero => intro m currLow currHigh size; omega
  | succ n ih =>
    intro m currLow currHigh size mapped part
    obtain ⟨i, j, down, up, hi, hihigh, hlowj, hj, valj, vali, left, right⟩ := part.scans mapped
    have lower := part.lower
    have upper := part.upper
    rw [partitionLoop, down, up]
    by_cases crossed : i ≥ j
    · refine ⟨m, j, by simp [crossed], hlowj, by omega, .refl _ _, rfl, ?_, right, ?_⟩
      · intro a ha hr
        rcases eq_or_lt_of_le hr with rfl | less
        · exact valj
        · exact left a ha (by omega)
      · rintro rfl
        rwa [show i = j by omega] at vali
    · let swapped := (m.write j (m.val i)).write i (m.val j)
      have inI : i ∈ Set.Icc low high := ⟨by omega, by omega⟩
      have inJ : j ∈ Set.Icc low high := ⟨by omega, by omega⟩
      have changes : Changes (Set.Icc low high) m swapped := (Changes.write inJ).trans (Changes.write inI)
      have other {a : ℤ} (hai : a ≠ i) (haj : a ≠ j) : swapped.val a = m.val a := by
        rw [val_write_other hai, val_write_other haj]
      have atI : swapped.val i = m.val j := val_write_same
      have atJ : swapped.val j = m.val i := by
        rw [val_write_other (by omega), val_write_same]
      have next : Partitioning swapped pivot low high (i + 1) (j - 1) := by
        refine ⟨by omega, by omega, ?_, ?_, ⟨i, by omega, by omega, atI ▸ valj⟩,
          ⟨j, by omega, by omega, atJ ▸ vali⟩⟩
        · intro a ha hlt
          rcases eq_or_ne a i with rfl | different
          · exact atI ▸ valj
          · rw [other different (by omega)]
            exact left a ha (by omega)
        · intro a hlt ha
          rcases eq_or_ne a j with rfl | different
          · exact atJ ▸ vali
          · rw [other (by omega) different]
            exact right a (by omega) ha
      obtain ⟨m', r, run, hr, hrhigh, changes', bags, small, large, last⟩ :=
        ih (by omega) (mapped.changes changes) next
      refine ⟨m', r, ?_, hr, hrhigh, changes.trans changes', ?_, small, large, last⟩
      · simp only [Option.bind_eq_bind, Option.bind_some, if_neg crossed,
          store_mapped (mapped j inJ), store_mapped (m := m.write j (m.val i)) (mapped i inI)]
        exact run
      · rw [bags, bag_swap (by omega) (by omega) (by omega)]

/-- `seqpart` splits a range of at least two cells into two non-empty parts, the
lower one nowhere above the upper one. -/
theorem seqpart_spec {low high : ℤ} (nonempty : low < high)
    (mapped : m.MappedOn (Set.Icc low high)) :
    ∃ m' p, seqpart m low high = some (m', p) ∧ low ≤ p ∧ p < high ∧
      Changes (Set.Icc low high) m m' ∧ m'.bag low (high + 1) = m.bag low (high + 1) ∧
      m'.Below low (p + 1) (p + 1) (high + 1) := by
  have inside : low ≤ low + (high - low) / 2 ∧ low + (high - low) / 2 ≤ high := by omega
  obtain ⟨pivot, hpivot, c, hc, hch, valc⟩ : ∃ pivot, choosePivot m low high = some pivot ∧
      ∃ c, low ≤ c ∧ c ≤ high ∧ m.val c = pivot := by
    refine ⟨med3 (m.val low) (m.val high) (m.val (low + (high - low) / 2)), ?_, ?_⟩
    · simp [choosePivot, load_mapped (mapped low ⟨le_rfl, nonempty.le⟩),
        load_mapped (mapped high ⟨nonempty.le, le_rfl⟩), load_mapped (mapped _ inside)]
    rcases med3_mem (m.val low) (m.val high) (m.val (low + (high - low) / 2)) with h | h | h
    · exact ⟨low, le_rfl, nonempty.le, h.symm⟩
    · exact ⟨high, nonempty.le, le_rfl, h.symm⟩
    · exact ⟨_, inside.1, inside.2, h.symm⟩
  have start : Partitioning m pivot low high low high :=
    ⟨le_rfl, le_rfl, fun a _ _ => by omega, fun a _ _ => by omega,
      ⟨c, hc, hch, valc.le⟩, ⟨c, hc, hch, valc.ge⟩⟩
  obtain ⟨m', r, run, hr, hrhigh, changes, bags, small, large, last⟩ :=
    partitionLoop_spec _ (Nat.lt_succ_self _) mapped start
  by_cases inner : r < high
  · refine ⟨m', r, by simp [seqpart, hpivot, run, inner], hr, inner, changes, bags, ?_⟩
    intro a b ha hb ha' hb'
    exact (small a ha (by omega)).trans (large b (by omega) (by omega))
  · obtain rfl : r = high := by omega
    refine ⟨m', r - 1, by simp [seqpart, hpivot, run], by omega, by omega, changes, bags, ?_⟩
    intro a b ha hb ha' hb'
    rw [show b = r by omega]
    exact (small a ha (by omega)).trans (last rfl)

/-! ### Insertion sort -/

/-- Cell `p + 1` is free for `a` or for a cell below it: without it the cells `[low, q]` are sorted, and `a` is not
larger than those above. -/
structure Inserting (m : Memory ELM) (low q p : ℤ) (a : ELM) : Prop where
  lower : m.SortedOn low (p + 1)
  upper : m.SortedOn (p + 2) (q + 1)
  apart : m.Below low (p + 1) (p + 2) (q + 1)
  large : ∀ b, p + 2 ≤ b → b ≤ q → a ≤ m.val b

section Inserting
variable {low q p : ℤ} {a : ELM}

/-- Storing `a` in the free cell completes the sorted range. -/
theorem Inserting.place (inserting : Inserting m low q p a) (hp : low ≤ p + 1) (hq : p < q)
    (small : ∀ b, low ≤ b → b ≤ p → m.val b ≤ a) :
    (m.write (p + 1) a).SortedOn low (q + 1) ∧ (m.write (p + 1) a).bag low (q + 1) =
      m.bag low (p + 1) + {a} + m.bag (p + 2) (q + 1) := by
  obtain ⟨lower, upper, apart, large⟩ := inserting
  have other {b : ℤ} (h : b ≠ p + 1) : (m.write (p + 1) a).val b = m.val b := val_write_other h
  constructor
  · intro b c hb hbc hc
    rcases lt_trichotomy b (p + 1) with below | rfl | above
    · rw [other (by omega)]
      rcases lt_trichotomy c (p + 1) with below' | rfl | above'
      · rw [other (by omega)]
        exact lower b c hb hbc below'
      · rw [val_write_same]
        exact small b hb (by omega)
      · rw [other (by omega)]
        exact apart b c hb below (by omega) hc
    · rcases eq_or_lt_of_le hbc with rfl | above'
      · exact le_rfl
      · rw [val_write_same, other (by omega)]
        exact large c (by omega) (by omega)
    · rw [other (by omega), other (by omega)]
      exact upper b c (by omega) hbc hc
  · have left : (m.write (p + 1) a).bag low (p + 1) = m.bag low (p + 1) :=
      bag_congr fun b _ _ => other (by omega)
    have right : (m.write (p + 1) a).bag (p + 1 + 1) (q + 1) = m.bag (p + 1 + 1) (q + 1) :=
      bag_congr fun b _ _ => other (by omega)
    rw [bag_split _ (p + 1 + 1) (by omega) (by omega), bag_split _ (p + 1) hp (by omega), left, right,
      bag_singleton, val_write_same, show p + 2 = p + 1 + 1 by omega]

/-- A larger element is moved up, and its cell is free. -/
theorem Inserting.shift (inserting : Inserting m low q p a) (hp : low ≤ p) (greater : a < m.val p) :
    Inserting (m.write (p + 1) (m.val p)) low q (p - 1) a := by
  obtain ⟨lower, upper, apart, large⟩ := inserting
  have other {b : ℤ} (h : b ≠ p + 1) : (m.write (p + 1) (m.val p)).val b = m.val b := val_write_other h
  have atNext : (m.write (p + 1) (m.val p)).val (p + 1) = m.val p := val_write_same
  refine ⟨?_, ?_, ?_, ?_⟩
  · exact (lower.sub le_rfl (by omega)).congr fun b _ _ => other (by omega)
  · intro b c hb hbc hc
    rcases eq_or_lt_of_le (show p + 1 ≤ b by omega) with rfl | after
    · rw [atNext]
      rcases eq_or_lt_of_le hbc with rfl | later
      · exact atNext.ge
      · rw [other (by omega)]
        exact apart p c hp (by omega) (by omega) hc
    · rw [other (by omega), other (by omega)]
      exact upper b c (by omega) hbc hc
  · intro b c hb hb' hc hc'
    rw [other (by omega)]
    rcases eq_or_lt_of_le (show p + 1 ≤ c by omega) with rfl | after
    · rw [atNext]
      exact lower b p hb (by omega) (by omega)
    · rw [other (by omega)]
      exact apart b c hb (by omega) (by omega) hc'
  · intro b hb hbq
    rcases eq_or_lt_of_le (show p + 1 ≤ b by omega) with rfl | after
    · rw [atNext]
      exact greater.le
    · rw [other (by omega)]
      exact large b (by omega) hbq

omit [LinearOrder ELM] in
/-- Apart from the free cell, the values are the same after the move. -/
theorem bags_shift (hp : low ≤ p) (hq : p < q) :
    (m.write (p + 1) (m.val p)).bag low (p - 1 + 1) + {a} + (m.write (p + 1) (m.val p)).bag (p - 1 + 2) (q + 1) =
      m.bag low (p + 1) + {a} + m.bag (p + 2) (q + 1) := by
  have other {b : ℤ} (h : b ≠ p + 1) : (m.write (p + 1) (m.val p)).val b = m.val b := val_write_other h
  have kept : (m.write (p + 1) (m.val p)).bag low p = m.bag low p := bag_congr fun b _ _ => other (by omega)
  have above : (m.write (p + 1) (m.val p)).bag (p + 1 + 1) (q + 1) = m.bag (p + 1 + 1) (q + 1) :=
    bag_congr fun b _ _ => other (by omega)
  have lowerPart : (m.write (p + 1) (m.val p)).bag low (p - 1 + 1) + {m.val p} = m.bag low (p + 1) := by
    rw [m.bag_split p (by omega) (by omega), bag_singleton, sub_add_cancel, kept]
  have upperPart : (m.write (p + 1) (m.val p)).bag (p - 1 + 2) (q + 1) = {m.val p} + m.bag (p + 2) (q + 1) := by
    rw [show p - 1 + 2 = p + 1 by omega, bag_split _ (p + 1 + 1) (by omega) (by omega), bag_singleton,
      val_write_same, above, show p + 2 = p + 1 + 1 by omega]
  rw [upperPart, ← lowerPart]
  ac_rfl

theorem insertLoop_spec (n : ℕ) : ∀ {m : Memory ELM} {p : ℤ}, p + 1 - low = n → p < q →
    m.MappedOn (Set.Icc low q) → Inserting m low q p a →
    ∃ m', insertLoop low a m p = some m' ∧ Changes (Set.Icc low q) m m' ∧ m'.SortedOn low (q + 1) ∧
      m'.bag low (q + 1) = m.bag low (p + 1) + {a} + m.bag (p + 2) (q + 1) := by
  induction n with
  | zero =>
    intro m p distance hq mapped inserting
    obtain ⟨sorted, bags⟩ := inserting.place (by omega) hq fun b _ _ => by omega
    refine ⟨m.write (p + 1) a, ?_, .write ⟨by omega, by omega⟩, sorted, bags⟩
    rw [insertLoop, if_neg (by omega), store_mapped (mapped _ ⟨by omega, by omega⟩)]
  | succ n ih =>
    intro m p distance hq mapped inserting
    have room : m.mapped (p + 1) = true := mapped _ ⟨by omega, by omega⟩
    rw [insertLoop, if_pos (by omega), load_mapped (mapped p ⟨by omega, by omega⟩)]
    by_cases greater : a < m.val p
    · have changes : Changes (Set.Icc low q) m (m.write (p + 1) (m.val p)) := .write ⟨by omega, by omega⟩
      obtain ⟨m', run, changes', sorted, bags⟩ := ih (p := p - 1) (by omega) (by omega) (mapped.changes changes)
        (inserting.shift (by omega) greater)
      refine ⟨m', ?_, changes.trans changes', sorted, ?_⟩
      · simpa [greater, store_mapped room] using run
      · rw [bags, bags_shift (by omega) hq]
    · obtain ⟨sorted, bags⟩ := inserting.place (by omega) hq fun b hb hbp =>
        (inserting.lower b p hb hbp (by omega)).trans (not_lt.mp greater)
      refine ⟨m.write (p + 1) a, ?_, .write ⟨by omega, by omega⟩, sorted, bags⟩
      simp [greater, store_mapped room]

end Inserting

theorem insertionLoop_spec {low high : ℤ} (n : ℕ) :
    ∀ {m : Memory ELM} {q : ℤ}, high + 1 - q ≤ n → low < q → q ≤ high + 1 →
    m.MappedOn (Set.Icc low high) → m.SortedOn low q →
    ∃ m', insertionLoop low high m q = some m' ∧ Changes (Set.Icc low high) m m' ∧
      m'.SortedOn low (high + 1) ∧ m'.bag low (high + 1) = m.bag low (high + 1) := by
  induction n with
  | zero =>
    intro m q distance hq bound mapped sorted
    obtain rfl : q = high + 1 := by omega
    exact ⟨m, by rw [insertionLoop, if_neg (by omega)], .refl _ _, sorted, rfl⟩
  | succ n ih =>
    intro m q distance hq bound mapped sorted
    by_cases more : q ≤ high
    · obtain ⟨m₁, run₁, changes₁, sorted₁, bags₁⟩ := insertLoop_spec (q := q)
        (a := m.val q) (q - low).toNat (m := m) (p := q - 1) (by omega) (by omega)
        (mapped.mono (Set.Icc_subset_Icc_right more))
        ⟨by simpa using sorted, sortedOn_short (by omega), fun b c _ _ _ _ => by omega, fun b _ _ => by omega⟩
      have within : Changes (Set.Icc low high) m m₁ := changes₁.mono (Set.Icc_subset_Icc_right more)
      obtain ⟨m', run, changes, sorted', bags⟩ := ih (m := m₁) (q := q + 1) (by omega) (by omega)
        (by omega) (mapped.changes within) sorted₁
      refine ⟨m', ?_, within.trans changes, sorted', ?_⟩
      · rw [insertionLoop, if_pos more, load_mapped (mapped q ⟨by omega, more⟩)]
        simpa [run₁] using run
      · have rest : m₁.bag (q + 1) (high + 1) = m.bag (q + 1) (high + 1) :=
          changes₁.bag fun b hb => Or.inl (by have := hb.2; omega)
        have none : m.bag (q - 1 + 2) (q + 1) = 0 := bag_empty (by omega)
        have whole : m.bag low (high + 1) = m.bag low q + {m.val q} + m.bag (q + 1) (high + 1) := by
          rw [m.bag_split (q + 1) (by omega) (by omega), m.bag_split q (by omega) (by omega),
            bag_singleton]
        rw [bags, m₁.bag_split (q + 1) (by omega) (by omega), bags₁, rest, none, whole,
          show q - 1 + 1 = q by omega, add_zero]
    · exact ⟨m, by rw [insertionLoop, if_neg more], .refl _ _, sorted.sub le_rfl (by omega), rfl⟩

theorem insertionSort_spec {low high : ℤ} (mapped : m.MappedOn (Set.Icc low high)) :
    ∃ m', insertionSort m low high = some m' ∧ Changes (Set.Icc low high) m m' ∧
      m'.SortedOn low (high + 1) ∧ m'.bag low (high + 1) = m.bag low (high + 1) := by
  by_cases several : low < high
  · exact insertionLoop_spec (high - low).toNat (by omega) (by omega) (by omega) mapped
      (sortedOn_short (by omega))
  · refine ⟨m, ?_, .refl _ _, sortedOn_short (by omega), rfl⟩
    rw [insertionSort, insertionLoop, if_neg (by omega)]

/-! ### Quicksort -/

theorem seqquick_spec (n : ℕ) : ∀ (m : Memory ELM) (low high : ℤ), high - low < n →
    m.MappedOn (Set.Icc low high) →
    ∃ m', seqquick m low high = some m' ∧ Changes (Set.Icc low high) m m' ∧
      m'.SortedOn low (high + 1) ∧ m'.bag low (high + 1) = m.bag low (high + 1) := by
  induction n with
  | zero =>
    intro m low high size mapped
    rw [seqquick, if_neg (by unfold INSERTIONSIZE; omega)]
    exact insertionSort_spec mapped
  | succ n ih =>
    intro m low high size mapped
    rw [seqquick]
    by_cases long : high - low ≥ INSERTIONSIZE
    · have wide : low < high := by unfold INSERTIONSIZE at long; omega
      obtain ⟨m₁, p, part, hp, hph, changes₁, bags₁, below₁⟩ := seqpart_spec wide mapped
      have mapped₁ := mapped.changes changes₁
      obtain ⟨m₂, run₂, changes₂, sorted₂, bags₂⟩ := ih m₁ low p (by omega)
        (mapped₁.mono (Set.Icc_subset_Icc_right hph.le))
      have within₂ : Changes (Set.Icc low high) m₁ m₂ :=
        changes₂.mono (Set.Icc_subset_Icc_right hph.le)
      obtain ⟨m₃, run₃, changes₃, sorted₃, bags₃⟩ := ih m₂ (p + 1) high
        (by omega) ((mapped₁.changes within₂).mono (Set.Icc_subset_Icc_left (by omega)))
      have within₃ : Changes (Set.Icc low high) m₂ m₃ :=
        changes₃.mono (Set.Icc_subset_Icc_left (by omega))
      -- each recursive call leaves the other part alone and permutes its own
      have upper₂ : m₂.bag (p + 1) (high + 1) = m₁.bag (p + 1) (high + 1) :=
        changes₂.bag fun b hb => Or.inl (by have := hb.2; omega)
      have lower₃ : m₃.bag low (p + 1) = m₂.bag low (p + 1) :=
        changes₃.bag fun b hb => Or.inr (by have := hb.1; omega)
      refine ⟨m₃, ?_, (changes₁.trans within₂).trans within₃, ?_, ?_⟩
      · simp [long, part, run₂, run₃]
      · apply SortedOn.append (p + 1) ?_ sorted₃
        · exact below₁.of_bag (lower₃.trans bags₂) (bags₃.trans upper₂)
        · exact sorted₂.congr fun b _ hb => changes₃.val fun inside => by
            have := inside.1
            omega
      · rw [← bags₁, m₃.bag_split (p + 1) (by omega) (by omega),
          m₁.bag_split (p + 1) (by omega) (by omega), lower₃, bags₂, bags₃, upper₂]
    · rw [if_neg long]
      exact insertionSort_spec mapped

end CilkArtifact.Cilksort
