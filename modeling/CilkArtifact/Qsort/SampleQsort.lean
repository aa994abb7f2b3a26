import CilkArtifact.Cilkpub.InPlace
import Mathlib.Order.Interval.Set.Basic
import Mathlib.Data.Int.Order.Basic

/-! `sample_qsort` of `qsort.cpp`, which sorts a range of an array in place. Pointers are indices. -/
/-- The array to be sorted. A function that calls itself is applied to it with `|>.`. -/
abbrev CilkArtifact.Qsort := Buffer ℕ ℤ

namespace CilkArtifact.Qsort
open Buffer Cilkpub

section Definitions
variable (std : Std ℤ)

/-- Up to the recursive calls: the last element is the pivot, and it is moved to `middle`. -/
def moveAround (b : Qsort) (first last : ℕ) : Option (Qsort × ℕ) := do
  let pivot ← b.read (last - 1)
  let (b, middle) ← partitionAt std (fun x => decide (x < pivot)) b first (last - 1)
  let b ← swapAt b (last - 1) middle
  some (b, middle)

def sampleQsort (b : Qsort) (first last : ℕ) : Option Qsort :=
  if first ≠ last then do
    let (b, middle) ← moveAround std b first last
    let b ← b |>.sampleQsort first middle
    b |>.sampleQsort (middle + 1) last
  else some b
partial_fixpoint

/-- A call and all calls that it makes. The two recursive calls run at the same time: each may find the range of the
other one changed. -/
inductive Reaches : Cilkpub.Task ℤ → Cilkpub.Task ℤ → Prop
  | start (t : Cilkpub.Task ℤ) : Reaches t t
  | spawned {t u : Cilkpub.Task ℤ} {b b' : Buffer ℕ ℤ} {middle : ℕ} : t.first ≠ t.last →
    moveAround std t.b t.first t.last = some (b, middle) → Changes (Set.Ico (middle + 1) t.last) b b' →
    Reaches ⟨b', t.first, middle⟩ u → Reaches t u
  | second {t u : Cilkpub.Task ℤ} {b b' : Buffer ℕ ℤ} {middle : ℕ} : t.first ≠ t.last →
    moveAround std t.b t.first t.last = some (b, middle) → Changes (Set.Ico t.first middle) b b' →
    Reaches ⟨b', middle + 1, t.last⟩ u → Reaches t u

end Definitions

open scoped List
variable {std : Std ℤ} {b b' : Buffer ℕ ℤ} {first : ℕ} {l l' : List ℤ}

/-- The array after the pivot has been moved, with the elements before and after it. -/
structure Moved (b : Buffer ℕ ℤ) (first : ℕ) (l left : List ℤ) (pivot : ℤ) (right : List ℤ) (b' : Buffer ℕ ℤ) : Prop
    extends Divided b first l left pivot right b' where
  perm : (left ++ pivot :: right).Perm l
  below : ∀ v ∈ left, v < pivot
  above : ∀ v ∈ right, pivot ≤ v

/-- A swap of the last element with the first one of the second part. -/
theorem swap_last (left : List ℤ) (pivot : ℤ) (right : List ℤ) : ∃ right',
    swap (left ++ right ++ [pivot]) (left ++ right).length left.length = some (left ++ pivot :: right') ∧
      right'.Perm right := by
  cases right with
  | nil => exact ⟨[], by simp [swap], .nil⟩
  | cons v right =>
    refine ⟨right ++ [v], ?_, List.perm_append_singleton v right⟩
    simp [swap]

variable (std) in
/-- The pivot between the smaller elements and the others. -/
theorem moveAround_spec (holds : Holds b first l) (nonempty : l ≠ []) : ∃ left pivot right b',
    moveAround std b first (first + l.length) = some (b', first + left.length) ∧ Moved b first l left pivot right b' := by
  obtain ⟨front, pivot, rfl⟩ : ∃ front pivot, l = front ++ [pivot] := ⟨_, _, (List.dropLast_append_getLast nonempty).symm⟩
  obtain ⟨holdsFront, holdsPivot⟩ := holds_append.mp holds
  have last : first + (front ++ [pivot]).length - 1 = first + front.length := by
    rw [List.length_append, List.length_singleton]
    omega
  have readPivot : b.read (first + front.length) = some pivot := by
    have read := holdsPivot.read Nat.one_pos
    rwa [Nat.add_zero] at read
  obtain ⟨b₁, run₁, holds₁, changes₁⟩ := holdsFront.partitionAt std fun x => decide (x < pivot)
  have perm := std.partition_perm (fun x => decide (x < pivot)) front
  have bound := std.partition_bound (fun x => decide (x < pivot)) front
  have below := std.partition_first (fun x => decide (x < pivot)) front
  have above := std.partition_second (fun x => decide (x < pivot)) front
  generalize std.partition (fun x => decide (x < pivot)) front = parts at run₁ holds₁ perm bound below above
  obtain ⟨parted, k⟩ := parts
  dsimp only at run₁ holds₁ perm bound below above
  have size := perm.length_eq
  have left : (parted.take k).length = k := List.length_take_of_le (size ▸ bound)
  have parts : parted = parted.take k ++ parted.drop k := (List.take_append_drop k parted).symm
  have holdsAll : Holds b₁ first (parted.take k ++ parted.drop k ++ [pivot]) := by
    rw [← parts]
    refine holds_append.mpr ⟨holds₁, ?_⟩
    rw [size]
    exact holdsPivot.changes changes₁ (span_apart (.inr le_rfl))
  obtain ⟨right, swapped, rearranged⟩ := swap_last (parted.take k) pivot (parted.drop k)
  obtain ⟨length, b₂, run₂, holds₂, changes₂⟩ := holdsAll.swapAt swapped
  rw [← parts, size, left] at run₂
  have whole : (parted.take k ++ pivot :: right).Perm (front ++ [pivot]) :=
    calc parted.take k ++ pivot :: right
      _ ~ pivot :: (parted.take k ++ right) := List.perm_middle
      _ ~ pivot :: parted := by
        rw [List.perm_cons]
        nth_rewrite 2 [parts]
        exact rearranged.append_left _
      _ ~ pivot :: front := perm.cons pivot
      _ ~ front ++ [pivot] := (List.perm_append_singleton pivot front).symm
  have changes : Changes (span first (front ++ [pivot]).length) b b₂ := by
    rw [← parts, List.length_append, size, ← List.length_append] at changes₂
    refine (changes₁.mono (span_mono le_rfl ?_)).trans changes₂
    rw [List.length_append]
    omega
  refine ⟨parted.take k, pivot, right, b₂, ?_, ⟨holds₂, changes, ?_⟩, whole, ?_, ?_⟩
  · simp only [moveAround, last, readPivot, run₁, run₂, left, Option.bind_eq_bind, Option.bind_some]
  · rw [← whole.length_eq, List.length_append, List.length_cons]
    omega
  · intro v member
    exact of_decide_eq_true (below v member)
  · intro v member
    exact not_lt.mp (of_decide_eq_false (above v (rearranged.subset member)))

/-- The sorted parts with the pivot between them. -/
theorem Moved.sorted {left left' right right' : List ℤ} {pivot : ℤ} (moved : Moved b first l left pivot right b')
    (permLeft : left' ~ left) (permRight : right' ~ right) (sortedLeft : left'.Pairwise (· ≤ ·))
    (sortedRight : right'.Pairwise (· ≤ ·)) :
    left' ++ pivot :: right' ~ l ∧ (left' ++ pivot :: right').Pairwise (· ≤ ·) := by
  refine ⟨(permLeft.append (permRight.cons pivot)).trans moved.perm, ?_⟩
  have below : ∀ v ∈ left', v ≤ pivot := fun v member => (moved.below v (permLeft.subset member)).le
  have above : ∀ v ∈ right', pivot ≤ v := fun v member => moved.above v (permRight.subset member)
  refine List.pairwise_append.mpr ⟨sortedLeft, List.pairwise_cons.mpr ⟨above, sortedRight⟩, fun v inLeft w inRest => ?_⟩
  rcases List.mem_cons.mp inRest with rfl | inRight
  · exact below v inLeft
  · exact (below v inLeft).trans (above w inRight)

theorem exists_sorted (l : List ℤ) : ∃ l', l' ~ l ∧ l'.Pairwise (· ≤ ·) := by
  have sorted : (l.mergeSort fun a b => decide (a ≤ b)).Pairwise fun a b => decide (a ≤ b) = true := by
    apply List.pairwise_mergeSort
    · intro a b c first second
      exact decide_eq_true ((of_decide_eq_true first).trans (of_decide_eq_true second))
    · intro a b
      simpa using le_total a b
  exact ⟨_, l.mergeSort_perm _, sorted.imp of_decide_eq_true⟩

theorem sorted_unique (perm : l' ~ l) (sorted : l.Pairwise (· ≤ ·)) (sorted' : l'.Pairwise (· ≤ ·)) : l' = l :=
  perm.eq_of_pairwise (fun _ _ _ _ => le_antisymm) sorted' sorted

variable (std) in
/-- The sorted elements are left in place of the elements. -/
theorem sampleQsort_rearranges (l l' : List ℤ) (perm : l' ~ l) (sorted : l'.Pairwise (· ≤ ·)) :
    Rearranges (sampleQsort std) l l' := by
  induction n : l.length using Nat.strongRecOn generalizing l l' with
  | ind n ih =>
    subst n
    refine ⟨perm.length_eq, fun {b first} holds => ?_⟩
    rw [sampleQsort]
    by_cases empty : l = []
    · subst empty
      obtain rfl := perm.eq_nil
      exact ⟨b, if_neg (not_not.mpr (Nat.add_zero first).symm), holds, .refl _ b⟩
    · have some : first ≠ first + l.length := by
        have := List.length_pos_of_ne_nil empty
        omega
      obtain ⟨left, pivot, right, b₁, run, moved⟩ := moveAround_spec std holds empty
      have length := moved.length
      obtain ⟨left', permLeft, sortedLeft⟩ := exists_sorted left
      obtain ⟨right', permRight, sortedRight⟩ := exists_sorted right
      have sortsLeft := ih left.length (by omega) left left' permLeft sortedLeft rfl
      have sortsRight := ih right.length (by omega) right right' permRight sortedRight rfl
      obtain ⟨b₂, run₂, holdsLeft, holdsRight, changes⟩ :=
        sortsLeft.both sortsRight moved.left moved.right (parts_apart first left right)
      obtain ⟨whole, sorted'⟩ := moved.sorted permLeft permRight sortedLeft sortedRight
      have made := moved.assemble sortsLeft.1 sortsRight.1 holdsLeft holdsRight changes
      rw [sorted_unique (whole.trans perm.symm) sorted sorted'] at made
      refine ⟨b₂, ?_, made⟩
      have last : first + left.length + 1 + right.length = first + l.length := by omega
      rw [last] at run₂
      rw [if_pos some, run]
      exact run₂

/-! ### Calls at the same time -/

/-- What holds for the two recursive calls of a call. -/
structure Independent (std : Std ℤ) (u : Cilkpub.Task ℤ) (b : Buffer ℕ ℤ) (middle : ℕ) : Prop where
  inside : u.first ≤ middle ∧ middle < u.last
  apart : Disjoint (Set.Ico u.first middle) (Set.Ico (middle + 1) u.last)
  pivot : middle ∉ Set.Ico u.first middle ∧ middle ∉ Set.Ico (middle + 1) u.last
  spawned : ∃ b', Footprint element (fun b => sampleQsort std b u.first middle) (Set.Ico u.first middle)
    (Set.Ico u.first middle) b b'
  second : ∃ b', Footprint element (fun b => sampleQsort std b (middle + 1) u.last) (Set.Ico (middle + 1) u.last)
    (Set.Ico (middle + 1) u.last) b b'

/-- What a call with elements does before its recursive calls. -/
theorem moveAround_task {u : Cilkpub.Task ℤ} (holds : u.Holds l) (some : u.first ≠ u.last) : ∃ left pivot right b',
    moveAround std u.b u.first u.last = Option.some (b', u.first + left.length) ∧
      Moved u.b u.first l left pivot right b' ∧ u.last = u.first + left.length + 1 + right.length := by
  obtain ⟨holds, last⟩ := holds
  have nonempty : l ≠ [] := by
    rintro rfl
    exact some last.symm
  obtain ⟨left, pivot, right, b', run, moved⟩ := moveAround_spec std holds nonempty
  have length := moved.length
  exact ⟨left, pivot, right, b', last ▸ run, moved, by omega⟩

/-- The range of every call that is reached has elements. -/
theorem Reaches.holds {t u : Cilkpub.Task ℤ} (reached : Reaches std t u) :
    (∃ l, t.Holds l) → ∃ l, u.Holds l := by
  induction reached with
  | start t => exact fun holds => holds
  | spawned some run changes _ ih =>
    rintro ⟨l, holds⟩
    obtain ⟨left, pivot, right, b₁, same, moved, last⟩ := moveAround_task holds some
    cases Option.some.inj (run.symm.trans same)
    refine ih ⟨left, moved.left.changes changes fun i inside => ?_, rfl⟩
    rw [last]
    exact parts_apart _ left right i inside
  | second some run changes _ ih =>
    rintro ⟨l, holds⟩
    obtain ⟨left, pivot, right, b₁, same, moved, last⟩ := moveAround_task holds some
    cases Option.some.inj (run.symm.trans same)
    exact ih ⟨right, moved.right.changes changes fun i inside other => parts_apart _ left right i other inside, last⟩

theorem Moved.independent {u : Cilkpub.Task ℤ} {left right : List ℤ} {pivot : ℤ}
    (moved : Moved u.b u.first l left pivot right b') (last : u.last = u.first + left.length + 1 + right.length) :
    Independent std u b' (u.first + left.length) := by
  obtain ⟨left', permLeft, sortedLeft⟩ := exists_sorted left
  obtain ⟨right', permRight, sortedRight⟩ := exists_sorted right
  refine ⟨⟨by omega, by omega⟩, Set.disjoint_left.mpr ?_, ⟨fun inside => ?_, fun inside => ?_⟩, ?_, ?_⟩
  · rw [last]
    exact parts_apart u.first left right
  · exact absurd inside.2 (lt_irrefl _)
  · exact absurd inside.1 (Nat.not_succ_le_self _)
  · exact (sampleQsort_rearranges std left left' permLeft sortedLeft).footprint moved.left
  · rw [last]
    exact (sampleQsort_rearranges std right right' permRight sortedRight).footprint moved.right

/-- The sort of a range: it ends, and the range is sorted; and the recursive calls of a call never touch the same
element, nor the pivot. -/
theorem sampleQsort_correct (std : Std ℤ) {b : Buffer ℕ ℤ} {first n : ℕ} {l : List ℤ}
    (input : b.readRange first n = some l) :
    (∃ b' l', sampleQsort std b first (first + n) = some b' ∧ b'.readRange first n = some l' ∧ l' ~ l ∧
      l'.Pairwise (· ≤ ·) ∧ Changes (Set.Ico first (first + n)) b b') ∧
    ∀ u, Reaches std ⟨b, first, first + n⟩ u → u.first ≠ u.last → ∃ b' middle,
      moveAround std u.b u.first u.last = some (b', middle) ∧ Independent std u b' middle := by
  obtain ⟨rfl, holds⟩ := holds_of_readRange n input
  constructor
  · obtain ⟨l', perm, sorted⟩ := exists_sorted l
    obtain ⟨b', run, made, changes⟩ := (sampleQsort_rearranges std l l' perm sorted).2 holds
    exact ⟨b', l', run, perm.length_eq ▸ made.readRange, perm, sorted, changes⟩
  · intro u reached some
    obtain ⟨l', there⟩ := reached.holds ⟨l, holds, rfl⟩
    obtain ⟨left, pivot, right, b', run, moved, last⟩ := moveAround_task there some
    exact ⟨b', _, run, moved.independent last⟩

theorem sampleQsort_correct_four : ∃ b' l',
    sampleQsort (Std.merging ℤ) ⟨fun i => decide (i < 4), fun i => [3, -1, 3, 2][i]?⟩ 0 4 = some b' ∧
      b'.readRange 0 4 = some l' ∧ l' ~ [3, -1, 3, 2] ∧ l'.Pairwise (· ≤ ·) := by
  obtain ⟨⟨b', l', run, read, perm, sorted, -⟩, -⟩ := sampleQsort_correct (Std.merging ℤ)
    (show Buffer.readRange ⟨fun i => decide (i < 4), fun i => [3, -1, 3, 2][i]?⟩ 0 4 = some [3, -1, 3, 2] by decide)
  exact ⟨b', l', run, read, perm, sorted⟩

end CilkArtifact.Qsort
