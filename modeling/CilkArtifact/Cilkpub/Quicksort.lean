import CilkArtifact.Library.Buffer
import Mathlib.Order.Defs.Unbundled

/-! `parallel_quicksort` of `sort.h`, on the elements of its range. Algorithms of the standard
library come with their contracts. -/
/-- An array to be sorted, or of a sort. A function that calls itself is applied to it with `|>.`. -/
abbrev CilkArtifact.Cilkpub (α : Type) := Buffer ℕ α

namespace CilkArtifact.Cilkpub
variable {α : Type}

/-- A comparison that is a strict weak ordering. -/
abbrev StrictWeak (comp : α → α → Bool) : Prop := IsStrictWeakOrder α fun a b => comp a b = true

/-- No element is less than one before it. -/
def Sorted (comp : α → α → Bool) (l : List α) : Prop := l.Pairwise fun a b => comp b a = false

/-- What the sorts use of the standard library: `std::sort` of a range, and `std::partition` of a range
together with the number of elements in its first part. -/
structure Std (α : Type) where
  sort : (α → α → Bool) → List α → List α
  partition : (α → Bool) → List α → List α × ℕ
  sort_perm : ∀ comp l, StrictWeak comp → (sort comp l).Perm l
  sort_sorted : ∀ comp l, StrictWeak comp → Sorted comp (sort comp l)
  partition_perm : ∀ p l, (partition p l).1.Perm l
  partition_bound : ∀ p l, (partition p l).2 ≤ l.length
  partition_first : ∀ p l, ∀ v ∈ (partition p l).1.take (partition p l).2, p v = true
  partition_second : ∀ p l, ∀ v ∈ (partition p l).1.drop (partition p l).2, p v = false

def QUICKSORT_SERIAL_CUTOFF : ℕ := 500

section Definitions
variable (std : Std α) (comp : α → α → Bool)

/-- `std::swap` of two elements of the range. -/
def swap (l : List α) (i j : ℕ) : Option (List α) := do
  let vi ← l[i]?
  let vj ← l[j]?
  some ((l.set i vj).set j vi)

def medianOfThree (l : List α) (x y z : ℕ) : Option ℕ := do
  let vx ← l[x]?
  let vy ← l[y]?
  let vz ← l[z]?
  some (if comp vx vy then (if comp vy vz then y else if comp vx vz then z else x)
    else (if comp vz vy then y else if comp vz vx then z else x))

def choosePartitionKey (l : List α) : Option ℕ := do
  let n := l.length
  let offset := n / 8
  let a ← medianOfThree comp l 0 offset (offset * 2)
  let b ← medianOfThree comp l (offset * 3) (offset * 4) (n - (3 * offset + 1))
  let c ← medianOfThree comp l (n - (2 * offset + 1)) (n - (offset + 1)) (n - 1)
  medianOfThree comp l a b c

/-- The partitioned range and the place of the partition key. -/
def divide (l : List α) : Option (List α × ℕ) := do
  let chosen ← choosePartitionKey comp l
  let l ← swap l 0 chosen
  let key ← l[0]?
  let parts := std.partition (fun x => comp x key) (l.drop 1)
  let l := key :: parts.1
  let middle := parts.2
  if middle ≠ 0 then do
    let l ← swap l 0 middle
    some (l, middle)
  else some (l, middle)

def allLessThanEqualToFirst (l : List α) : Option Bool := do
  let key ← l[0]?
  some ((l.drop 1).all fun x => !comp key x)

/-- The special check for a range in which all elements are equal. -/
def allEqual (l : List α) (middle : ℕ) : Option Bool :=
  if middle = 0 then allLessThanEqualToFirst comp l else some false

/-- The loop goes on with the larger part and spawns a sort of the smaller one; `unop% f a` is `f a`. -/
def parallelQuicksort (l : List α) : Option (List α) :=
  if QUICKSORT_SERIAL_CUTOFF < l.length then do
    let (l, middle) ← divide std comp l
    let equal ← allEqual comp l middle
    if equal then some l
    else if middle < l.length - (middle + 1) then do
      let left ← unop% parallelQuicksort (l.take middle)
      let right ← unop% parallelQuicksort (l.drop (middle + 1))
      let key ← l[middle]?
      some (left ++ key :: right)
    else do
      let right ← unop% parallelQuicksort (l.drop (middle + 1))
      let left ← unop% parallelQuicksort (l.take middle)
      let key ← l[middle]?
      some (left ++ key :: right)
  else some (std.sort comp l)
partial_fixpoint

end Definitions

variable {comp : α → α → Bool} {l : List α}

/-! ### Orderings -/

section Order
variable (weak : StrictWeak comp) {a b c : α}
include weak

theorem comp_self (a : α) : comp a a = false := by
  rw [Bool.eq_false_iff]
  exact weak.irrefl a

theorem comp_trans (first : comp a b = true) (second : comp b c = true) : comp a c = true :=
  weak.trans a b c first second

/-- Everything is on one of the two sides of an interval. -/
theorem comp_cases (less : comp a c = true) : comp a b = true ∨ comp b c = true := by
  by_contra neither
  rw [not_or] at neither
  by_cases below : comp b a = true
  · exact neither.2 (comp_trans weak below less)
  · by_cases above : comp c b = true
    · exact neither.1 (comp_trans weak less above)
    · exact (weak.incomp_trans a b c ⟨neither.1, below⟩ ⟨neither.2, above⟩).1 less

theorem comp_of_lt_of_le (first : comp a b = true) (second : comp c b = false) : comp a c = true := by
  rcases comp_cases weak (b := c) first with less | less
  · exact less
  · rw [second] at less
    cases less

theorem comp_le_trans (first : comp b a = false) (second : comp c b = false) : comp c a = false := by
  rw [Bool.eq_false_iff]
  intro less
  have := comp_of_lt_of_le weak less first
  rw [second] at this
  cases this

theorem comp_asymm (less : comp a b = true) : comp b a = false := by
  rw [Bool.eq_false_iff]
  intro greater
  have := comp_trans weak less greater
  rw [comp_self weak] at this
  cases this

end Order

/-- The contracts can be met. -/
def Std.merging (α : Type) : Std α where
  sort comp l := l.mergeSort fun a b => !comp b a
  partition p l := (l.filter p ++ l.filter fun v => !p v, (l.filter p).length)
  sort_perm comp l _ := List.mergeSort_perm l _
  sort_sorted comp l weak := by
    refine (List.pairwise_mergeSort ?_ ?_ l).imp fun ordered => by simpa using ordered
    · intro a b c first second
      simp only [Bool.not_eq_true'] at first second ⊢
      exact comp_le_trans weak first second
    · intro a b
      cases less : comp b a with
      | false => rfl
      | true => simp [comp_asymm weak less]
  partition_perm p l := List.filter_append_perm p l
  partition_bound p l := List.length_filter_le p l
  partition_first p l v member := by
    rw [List.take_left] at member
    exact (List.mem_filter.mp member).2
  partition_second p l v member := by
    rw [List.drop_left] at member
    simpa using (List.mem_filter.mp member).2

/-! ### Partition -/

theorem swap_spec {i j : ℕ} (hi : i < l.length) (hj : j < l.length) :
    ∃ l', swap l i j = some l' ∧ l'.Perm l ∧ l'.length = l.length := by
  refine ⟨(l.set i l[j]).set j l[i], ?_, List.set_set_perm hi hj, by simp⟩
  simp [swap, hi, hj]

variable (comp l) in
theorem medianOfThree_lt (x y z : ℕ) (hx : x < l.length) (hy : y < l.length) (hz : z < l.length) :
    ∃ m, medianOfThree comp l x y z = some m ∧ m < l.length := by
  simp only [medianOfThree, List.getElem?_eq_getElem, hx, hy, hz, Option.bind_eq_bind, Option.bind_some]
  refine ⟨_, rfl, ?_⟩
  split_ifs <;> assumption

variable (comp) in
theorem choosePartitionKey_lt (nonempty : 0 < l.length) :
    ∃ m, choosePartitionKey comp l = some m ∧ m < l.length := by
  let offset := l.length / 8
  obtain ⟨a, runA, hA⟩ := medianOfThree_lt comp l 0 offset (offset * 2) (by omega) (by omega) (by omega)
  obtain ⟨b, runB, hB⟩ := medianOfThree_lt comp l (offset * 3) (offset * 4) (l.length - (3 * offset + 1))
    (by omega) (by omega) (by omega)
  obtain ⟨c, runC, hC⟩ := medianOfThree_lt comp l (l.length - (2 * offset + 1)) (l.length - (offset + 1))
    (l.length - 1) (by omega) (by omega) (by omega)
  obtain ⟨m, run, bound⟩ := medianOfThree_lt comp l a b c hA hB hC
  refine ⟨m, ?_, bound⟩
  simp only [choosePartitionKey, Option.bind_eq_bind]
  rw [runA, Option.bind_some, runB, Option.bind_some, runC, Option.bind_some, run]

theorem swap_ends (a b : α) (front back : List α) :
    swap (a :: (front ++ b :: back)) 0 (front.length + 1) = some (b :: (front ++ a :: back)) := by
  simp [swap]

/-- The key stands between smaller elements and others. -/
theorem divide_spec (std : Std α) (comp : α → α → Bool) (nonempty : 0 < l.length) : ∃ left key right,
    divide std comp l = some (left ++ key :: right, left.length) ∧ (left ++ key :: right).Perm l ∧
      (∀ v ∈ left, comp v key = true) ∧ ∀ v ∈ right, comp v key = false := by
  obtain ⟨chosen, chooses, bound⟩ := choosePartitionKey_lt comp nonempty
  obtain ⟨l₁, swapped, perm₁, length₁⟩ := swap_spec nonempty bound
  cases l₁ with
  | nil =>
    rw [List.length_nil] at length₁
    omega
  | cons key tail =>
    let p (x : α) : Bool := comp x key
    have perm := std.partition_perm p tail
    have first := std.partition_first p tail
    have second := std.partition_second p tail
    have count := std.partition_bound p tail
    obtain ⟨⟨rest, middle⟩, result⟩ : ∃ pair, std.partition p tail = pair := ⟨_, rfl⟩
    rw [result] at perm first second count
    dsimp only at perm first second count
    rw [← perm.length_eq] at count
    have start : divide std comp l = (if middle ≠ 0 then do
        let l ← swap (key :: rest) 0 middle
        some (l, middle) else some (key :: rest, middle)) := by
      simp only [divide, chooses, swapped, Option.bind_eq_bind, Option.bind_some, List.getElem?_cons_zero,
        List.drop_succ_cons, List.drop_zero, p] at result ⊢
      simp only [result]
    cases middle with
    | zero =>
      refine ⟨[], key, rest, ?_, (perm.cons key).trans perm₁, by simp, ?_⟩
      · rw [start, if_neg (by simp)]
        rfl
      · simpa using second
    | succ k =>
      obtain ⟨front, v, back, rfl, rfl⟩ : ∃ front v back, rest = front ++ v :: back ∧ front.length = k := by
        refine ⟨rest.take k, rest[k], rest.drop (k + 1), ?_, by simp; omega⟩
        rw [List.getElem_cons_drop, List.take_append_drop]
      refine ⟨v :: front, key, back, ?_, ?_, ?_, ?_⟩
      · rw [start, if_pos (by simp), swap_ends]
        rfl
      · have exchange : (v :: front ++ key :: back).Perm (key :: (front ++ v :: back)) := by
          have front_first : (v :: front ++ key :: back).Perm (key :: (v :: front ++ back)) := List.perm_middle
          exact front_first.trans (List.perm_middle.symm.cons key)
        exact exchange.trans ((perm.cons key).trans perm₁)
      · intro u member
        apply first u
        rw [List.take_length_add_append, List.take_succ_cons, List.take_zero, List.mem_append, List.mem_singleton]
        exact (List.mem_cons.mp member).symm
      · intro u member
        apply second u
        rwa [List.drop_length_add_append, List.drop_succ_cons, List.drop_zero]

/-! ### The sort -/

theorem sorted_append_cons (weak : StrictWeak comp) {left right : List α} {key : α} (sortedLeft : Sorted comp left)
    (sortedRight : Sorted comp right) (below : ∀ v ∈ left, comp v key = true)
    (above : ∀ v ∈ right, comp v key = false) : Sorted comp (left ++ key :: right) := by
  refine List.pairwise_append.mpr ⟨sortedLeft, List.pairwise_cons.mpr ⟨above, sortedRight⟩, ?_⟩
  intro v inLeft w inRest
  rcases List.mem_cons.mp inRest with rfl | inRight
  · exact comp_asymm weak (below v inLeft)
  · exact comp_le_trans weak (comp_asymm weak (below v inLeft)) (above w inRight)

/-- A range without an element above the key and without one below it is sorted. -/
theorem sorted_of_equal (weak : StrictWeak comp) {key : α} {right : List α} (above : ∀ v ∈ right, comp v key = false)
    (equal : ∀ v ∈ right, comp key v = false) : Sorted comp (key :: right) := by
  refine List.pairwise_cons.mpr ⟨above, ?_⟩
  refine List.pairwise_of_forall_mem_list fun v inV w inW => ?_
  exact comp_le_trans weak (equal v inV) (above w inW)

theorem allEqual_spec (comp : α → α → Bool) (left : List α) (key : α) (right : List α) :
    ∃ equal, allEqual comp (left ++ key :: right) left.length = some equal ∧
      (equal = true → left = [] ∧ ∀ v ∈ right, comp key v = false) := by
  cases left with
  | nil =>
    refine ⟨right.all fun x => !comp key x, rfl, fun all => ⟨rfl, fun v member => ?_⟩⟩
    simpa using List.all_eq_true.mp all v member
  | cons v left => exact ⟨false, rfl, fun absurd => by cases absurd⟩

/-- An iteration on a range that was divided; the order of the two sorts makes no difference. -/
theorem parallelQuicksort_large {std : Std α} (large : QUICKSORT_SERIAL_CUTOFF < l.length) {left right : List α} {key : α}
    (divides : divide std comp l = some (left ++ key :: right, left.length)) {equal : Bool}
    (check : allEqual comp (left ++ key :: right) left.length = some equal) : parallelQuicksort std comp l =
      if equal then some (left ++ key :: right)
      else (parallelQuicksort std comp left).bind fun left' => (parallelQuicksort std comp right).bind fun right' =>
        some (left' ++ key :: right') := by
  rw [parallelQuicksort, if_pos large, divides, Option.bind_eq_bind, Option.bind_some]
  dsimp only
  rw [check, List.take_left, List.drop_length_add_append, List.drop_succ_cons, List.drop_zero,
    List.getElem?_append_right (Nat.le_refl _), Nat.sub_self, List.getElem?_cons_zero]
  simp only [Option.bind_eq_bind, Option.bind_some]
  cases equal with
  | true => rfl
  | false =>
    cases parallelQuicksort std comp left <;> cases parallelQuicksort std comp right <;> simp

theorem parallelQuicksort_spec (std : Std α) (weak : StrictWeak comp) (l : List α) :
    ∃ l', parallelQuicksort std comp l = some l' ∧ l'.Perm l ∧ Sorted comp l' := by
  induction size : l.length using Nat.strongRecOn generalizing l with
  | ind n ih =>
    by_cases large : QUICKSORT_SERIAL_CUTOFF < l.length
    · obtain ⟨left, key, right, divides, perm, below, above⟩ := divide_spec std comp (Nat.zero_lt_of_lt large)
      have length := perm.length_eq
      rw [List.length_append, List.length_cons] at length
      obtain ⟨left', runLeft, permLeft, sortedLeft⟩ := ih left.length (by omega) left rfl
      obtain ⟨right', runRight, permRight, sortedRight⟩ := ih right.length (by omega) right rfl
      have halves : (left' ++ key :: right').Perm l := (permLeft.append (permRight.cons key)).trans perm
      have sorted : Sorted comp (left' ++ key :: right') :=
        sorted_append_cons weak sortedLeft sortedRight (fun v member => below v (permLeft.mem_iff.mp member))
          fun v member => above v (permRight.mem_iff.mp member)
      obtain ⟨equal, checked, meaning⟩ := allEqual_spec comp left key right
      rw [parallelQuicksort_large large divides checked]
      cases equal with
      | true =>
        obtain ⟨rfl, equal⟩ := meaning rfl
        exact ⟨key :: right, rfl, perm, sorted_of_equal weak above equal⟩
      | false =>
        refine ⟨left' ++ key :: right', ?_, halves, sorted⟩
        simp only [runLeft, runRight, Option.bind_some, Bool.false_eq_true, if_false]
    · refine ⟨std.sort comp l, ?_, std.sort_perm comp l weak, std.sort_sorted comp l weak⟩
      rw [parallelQuicksort, if_neg large]

end CilkArtifact.Cilkpub
