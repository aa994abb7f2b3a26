import CilkArtifact.Cilkpub.Quicksort
import CilkArtifact.Library.Footprint
import Mathlib.Order.Interval.Set.Defs

/-! `parallel_quicksort` on an array that it shares with other calls, and which elements of it the parts of a sort
touch. Iterators are indices. -/
namespace CilkArtifact.Cilkpub
open Buffer
variable {α : Type}

section Definitions
variable (std : Std α) (comp : α → α → Bool)

def swapAt (b : Buffer ℕ α) (i j : ℕ) : Option (Buffer ℕ α) := do
  let vi ← b.read i
  let vj ← b.read j
  let b ← b.write i vj
  b.write j vi

def medianOfThreeAt (b : Buffer ℕ α) (x y z : ℕ) : Option ℕ := do
  let vx ← b.read x
  let vy ← b.read y
  let vz ← b.read z
  some (if comp vx vy then (if comp vy vz then y else if comp vx vz then z else x)
    else (if comp vz vy then y else if comp vz vx then z else x))

def choosePartitionKeyAt (b : Buffer ℕ α) (first last : ℕ) : Option ℕ := do
  let offset := (last - first) / 8
  let x ← medianOfThreeAt comp b first (first + offset) (first + offset * 2)
  let y ← medianOfThreeAt comp b (first + offset * 3) (first + offset * 4) (last - (3 * offset + 1))
  let z ← medianOfThreeAt comp b (last - (2 * offset + 1)) (last - (offset + 1)) (last - 1)
  medianOfThreeAt comp b x y z

/-- `std::partition` -/
def partitionAt (p : α → Bool) (b : Buffer ℕ α) (first last : ℕ) : Option (Buffer ℕ α × ℕ) := do
  let l ← b.readRange first (last - first)
  let b ← b.writeRange first (std.partition p l).1
  some (b, first + (std.partition p l).2)

def divideAt (b : Buffer ℕ α) (first last : ℕ) : Option (Buffer ℕ α × ℕ) := do
  let chosen ← choosePartitionKeyAt comp b first last
  let b ← swapAt b first chosen
  let key ← b.read first
  let (b, second) ← partitionAt std (fun x => comp x key) b (first + 1) last
  let middle := second - 1
  if middle ≠ first then do
    let b ← swapAt b first middle
    some (b, middle)
  else some (b, middle)

/-- `std::find_if` finds no element above the first one. -/
def allLessThanEqualToFirstAt (b : Buffer ℕ α) (first last : ℕ) : Option Bool := do
  let key ← b.read first
  let l ← b.readRange (first + 1) (last - (first + 1))
  some (l.all fun x => !comp key x)

def allEqualAt (b : Buffer ℕ α) (first last middle : ℕ) : Option Bool :=
  if first = middle then allLessThanEqualToFirstAt comp b first last else some false

/-- What an iteration of the loop leads to: the end of the function, or a spawned call and another iteration with
their ranges. -/
inductive Iteration (α : Type) where
  | done (b : Cilkpub α)
  | split (b : Cilkpub α) (spawned rest : ℕ × ℕ)

def iteration (b : Buffer ℕ α) (first last : ℕ) : Option (Iteration α) :=
  if QUICKSORT_SERIAL_CUTOFF < last - first then do
    let (b, middle) ← divideAt std comp b first last
    let equal ← allEqualAt comp b first last middle
    if equal then some (.done b)
    else if middle - first < last - (middle + 1) then some (.split b (first, middle) (middle + 1, last))
    else some (.split b (middle + 1, last) (first, middle))
  else do
    let b ← b.onRange first (last - first) fun l => some (std.sort comp l)
    some (.done b)

def parallelQuicksortAt (b : Cilkpub α) (first last : ℕ) : Option (Cilkpub α) := do
  let outcome ← iteration std comp b first last
  match outcome with
  | .done b => some b
  | .split b spawned rest => do
    let b ← b |>.parallelQuicksortAt spawned.1 spawned.2
    b |>.parallelQuicksortAt rest.1 rest.2
partial_fixpoint

/-- An iteration to be made, or made, by one of the calls. -/
structure Task (α : Type) where
  b : Buffer ℕ α
  first : ℕ
  last : ℕ

/-- The iterations of a call and of all calls that it spawns. A spawned call and the iterations after it run at the
same time: each may find the range of the other one changed. -/
inductive Reaches : Task α → Task α → Prop
  | start (t : Task α) : Reaches t t
  | spawned {t u : Task α} {b b' : Buffer ℕ α} {spawned rest : ℕ × ℕ} :
    iteration std comp t.b t.first t.last = some (.split b spawned rest) →
    Changes (Set.Ico rest.1 rest.2) b b' → Reaches ⟨b', spawned.1, spawned.2⟩ u → Reaches t u
  | next {t u : Task α} {b b' : Buffer ℕ α} {spawned rest : ℕ × ℕ} :
    iteration std comp t.b t.first t.last = some (.split b spawned rest) →
    Changes (Set.Ico spawned.1 spawned.2) b b' → Reaches ⟨b', rest.1, rest.2⟩ u → Reaches t u

end Definitions

/-! ### Lists in place -/

/-- The range from `first` on is in the array and has the elements of the list. -/
structure Holds (b : Buffer ℕ α) (first : ℕ) (l : List α) : Prop where
  spans : b.Spans first l.length
  stores : b.Stores first l

variable {b b' : Buffer ℕ α} {first : ℕ} {l l' : List α} {comp : α → α → Bool}

theorem Holds.read (holds : Holds b first l) {i : ℕ} (bound : i < l.length) : b.read (first + i) = l[i]? := by
  rw [holds.stores.read_at holds.spans bound, List.getElem?_eq_getElem bound]

theorem Holds.readRange (holds : Holds b first l) : b.readRange first l.length = some l :=
  readRange_eq holds.spans holds.stores

theorem holds_append {left right : List α} :
    Holds b first (left ++ right) ↔ Holds b first left ∧ Holds b (first + left.length) right := by
  constructor
  · rintro ⟨spans, stores⟩
    obtain ⟨storesLeft, storesRight⟩ := stores_append.mp stores
    rw [List.length_append] at spans
    exact ⟨⟨spans.sub (Nat.le_refl _) (by omega), storesLeft⟩, ⟨spans.sub (by omega) (by omega), storesRight⟩⟩
  · rintro ⟨holdsLeft, holdsRight⟩
    refine ⟨fun i inside => ?_, stores_append.mpr ⟨holdsLeft.stores, holdsRight.stores⟩⟩
    rw [mem_span, List.length_append] at inside
    rcases Nat.lt_or_ge i (first + left.length) with before | after
    · exact holdsLeft.spans i ⟨inside.1, before⟩
    · exact holdsRight.spans i ⟨after, by omega⟩

theorem Holds.changes {S : Set ℕ} (holds : Holds b first l) (changes : Changes S b b')
    (apart : ∀ i ∈ span first l.length, i ∉ S) : Holds b' first l :=
  ⟨holds.spans.changes changes, holds.stores.changes changes apart⟩

/-- The elements of a range, written back in another order. -/
theorem Holds.writeRange (holds : Holds b first l) (length : l'.length = l.length) :
    ∃ b', b.writeRange first l' = some b' ∧ Holds b' first l' ∧ Changes (span first l.length) b b' := by
  have spans : b.Spans first l'.length := length ▸ holds.spans
  obtain ⟨b', run, stores, changes⟩ := writeRange_spec l' spans
  exact ⟨b', run, ⟨spans.changes changes, stores⟩, length ▸ changes⟩

theorem Holds.write (holds : Holds b first l) {i : ℕ} (bound : i < l.length) (v : α) :
    ∃ b', b.write (first + i) v = some b' ∧ Holds b' first (l.set i v) ∧ Changes (span first l.length) b b' := by
  obtain ⟨b', run, written, changes⟩ := write_spec (holds.spans (first + i) ⟨by omega, by omega⟩) v
  refine ⟨b', run, ⟨?_, fun k inside => ?_⟩, changes.mono ?_⟩
  · rw [List.length_set]
    exact holds.spans.changes changes
  · rw [List.length_set] at inside
    by_cases same : k = i
    · rw [same, written, List.getElem?_set_self bound]
    · rw [changes.frame (first + k) (fun equal => same (Nat.add_left_cancel equal)), holds.stores k inside,
        List.getElem?_set_ne (Ne.symm same)]
  · rintro _ rfl
    exact ⟨by omega, by omega⟩

theorem Holds.swapAt (holds : Holds b first l) {i j : ℕ} (swapped : swap l i j = some l') : l'.length = l.length ∧
    ∃ b', swapAt b (first + i) (first + j) = some b' ∧ Holds b' first l' ∧ Changes (span first l.length) b b' := by
  simp only [swap, Option.bind_eq_bind, Option.bind_eq_some_iff, Option.some.injEq] at swapped
  obtain ⟨vi, atI, vj, atJ, rfl⟩ := swapped
  have hi := (List.getElem?_eq_some_iff.mp atI).1
  have hj := (List.getElem?_eq_some_iff.mp atJ).1
  obtain ⟨b₁, run₁, holds₁, changes₁⟩ := holds.write hi vj
  obtain ⟨b₂, run₂, holds₂, changes₂⟩ := holds₁.write (i := j) (by rwa [List.length_set]) vi
  rw [List.length_set] at changes₂
  refine ⟨by rw [List.length_set, List.length_set], b₂, ?_, holds₂, changes₁.trans changes₂⟩
  simp only [Cilkpub.swapAt, holds.read hi, holds.read hj, atI, atJ, run₁, run₂, Option.bind_eq_bind, Option.bind_some]

theorem Holds.medianOfThreeAt (holds : Holds b first l) {x y z k : ℕ} (chosen : medianOfThree comp l x y z = some k) :
    medianOfThreeAt comp b (first + x) (first + y) (first + z) = some (first + k) := by
  simp only [medianOfThree, Option.bind_eq_bind, Option.bind_eq_some_iff, Option.some.injEq] at chosen
  obtain ⟨vx, hx, vy, hy, vz, hz, rfl⟩ := chosen
  have read : ∀ {i v}, l[i]? = some v → b.read (first + i) = some v := by
    intro i v found
    rw [holds.read (List.getElem?_eq_some_iff.mp found).1, found]
  simp only [Cilkpub.medianOfThreeAt, read hx, read hy, read hz, Option.bind_eq_bind, Option.bind_some,
    Option.some.injEq]
  split_ifs <;> rfl

theorem Holds.choosePartitionKeyAt (holds : Holds b first l) (nonempty : 0 < l.length) {k : ℕ}
    (chosen : choosePartitionKey comp l = some k) :
    choosePartitionKeyAt comp b first (first + l.length) = some (first + k) := by
  simp only [choosePartitionKey, Option.bind_eq_bind, Option.bind_eq_some_iff] at chosen
  obtain ⟨x, hx, y, hy, z, hz, last⟩ := chosen
  -- places counted from the end of the range, counted from its start
  have fromEnd : ∀ d, d ≤ l.length → first + l.length - d = first + (l.length - d) :=
    fun d bound => Nat.add_sub_assoc bound _
  have atX := holds.medianOfThreeAt hx
  rw [Nat.add_zero] at atX
  simp only [Cilkpub.choosePartitionKeyAt, Nat.add_sub_cancel_left, Option.bind_eq_bind]
  rw [atX, Option.bind_some, fromEnd _ (by omega), holds.medianOfThreeAt hy, Option.bind_some, fromEnd _ (by omega),
    fromEnd _ (by omega), fromEnd _ (by omega), holds.medianOfThreeAt hz, Option.bind_some, holds.medianOfThreeAt last]

variable {std : Std α}

variable (std) in
theorem Holds.partitionAt (holds : Holds b first l) (p : α → Bool) :
    ∃ b', partitionAt std p b first (first + l.length) = some (b', first + (std.partition p l).2) ∧
      Holds b' first (std.partition p l).1 ∧ Changes (span first l.length) b b' := by
  obtain ⟨b', run, holds', changes⟩ := holds.writeRange (std.partition_perm p l).length_eq
  refine ⟨b', ?_, holds', changes⟩
  simp only [Cilkpub.partitionAt, Nat.add_sub_cancel_left, holds.readRange, run, Option.bind_eq_bind, Option.bind_some]

/-- `divide` on a range of an array is `divide` on its elements. -/
theorem Holds.divideAt (holds : Holds b first l) {middle : ℕ} (divides : divide std comp l = some (l', middle)) :
    ∃ b', divideAt std comp b first (first + l.length) = some (b', first + middle) ∧ Holds b' first l' ∧
      Changes (span first l.length) b b' := by
  simp only [divide, Option.bind_eq_bind, Option.bind_eq_some_iff] at divides
  obtain ⟨chosen, chooses, l₁, swapped, key, atFirst, rest⟩ := divides
  obtain ⟨length₁, b₁, run₁, holds₁, changes₁⟩ := holds.swapAt swapped
  cases l₁ with
  | nil => cases atFirst
  | cons key' tail =>
    cases Option.some.inj atFirst
    rw [List.length_cons] at length₁
    have chosenAt := holds.choosePartitionKeyAt (length₁ ▸ Nat.succ_pos _) chooses
    have readKey : b₁.read first = some key := by
      have read := holds₁.read (Nat.succ_pos tail.length)
      rwa [Nat.add_zero, List.getElem?_cons_zero] at read
    obtain ⟨holdsKey, holdsTail⟩ := holds_append.mp (show Holds b₁ first ([key] ++ tail) from holds₁)
    obtain ⟨b₂, run₂, holds₂, changes₂⟩ := holdsTail.partitionAt std fun x => comp x key
    have last : first + l.length = first + 1 + tail.length := by omega
    have inside : Changes (span first l.length) b₁ b₂ := by
      refine changes₂.mono fun i member => ?_
      rw [mem_span, List.length_singleton] at member
      exact ⟨by omega, by omega⟩
    have holdsAll : Holds b₂ first (key :: (std.partition (fun x => comp x key) tail).1) := by
      refine holds_append.mpr ⟨holdsKey.changes changes₂ fun i member => ?_, holds₂⟩
      rw [mem_span, List.length_singleton] at member ⊢
      omega
    have length₂ : (key :: (std.partition (fun x => comp x key) tail).1).length = l.length := by
      rw [List.length_cons, (std.partition_perm _ tail).length_eq, length₁]
    rw [List.length_singleton] at run₂
    rw [Nat.add_zero] at run₁
    simp only [Cilkpub.divideAt, chosenAt, run₁, readKey, Option.bind_eq_bind, Option.bind_some]
    rw [last, run₂]
    simp only [List.drop_succ_cons, List.drop_zero] at rest
    generalize std.partition (fun x => comp x key) tail = parts at rest holdsAll length₂
    simp only [Option.bind_some, Nat.add_right_comm first 1, Nat.add_sub_cancel, ne_eq, Nat.add_eq_left]
    by_cases front : parts.2 = 0
    · rw [if_neg (not_not.mpr front), Option.some.injEq, Prod.mk.injEq] at rest
      obtain ⟨rfl, rfl⟩ := rest
      exact ⟨b₂, if_neg (not_not.mpr front), holdsAll, changes₁.trans inside⟩
    · rw [if_pos front, Option.bind_eq_some_iff] at rest
      obtain ⟨l₂, swapped₂, same⟩ := rest
      rw [Option.some.injEq, Prod.mk.injEq] at same
      obtain ⟨rfl, rfl⟩ := same
      obtain ⟨_, b₃, run₃, holds₃, changes₃⟩ := holdsAll.swapAt swapped₂
      rw [length₂] at changes₃
      refine ⟨b₃, ?_, holds₃, (changes₁.trans inside).trans changes₃⟩
      rw [if_pos front]
      rw [Nat.add_zero] at run₃
      rw [run₃]
      rfl

theorem Holds.allEqualAt (holds : Holds b first l) {middle : ℕ} {equal : Bool}
    (check : allEqual comp l middle = some equal) :
    allEqualAt comp b first (first + l.length) (first + middle) = some equal := by
  rw [allEqual] at check
  rw [Cilkpub.allEqualAt]
  by_cases front : middle = 0
  · rw [if_pos front, allLessThanEqualToFirst, Option.bind_eq_bind, Option.bind_eq_some_iff] at check
    obtain ⟨key, atFirst, all⟩ := check
    cases l with
    | nil => cases atFirst
    | cons key' tail =>
      cases Option.some.inj atFirst
      have readKey := holds.read (Nat.succ_pos tail.length)
      rw [Nat.add_zero, List.getElem?_cons_zero] at readKey
      have readTail := (holds_append.mp (show Holds b first ([key] ++ tail) from holds)).2.readRange
      rw [List.length_singleton] at readTail
      have count : first + (tail.length + 1) - (first + 1) = tail.length := by omega
      rw [if_pos (by omega), allLessThanEqualToFirstAt, readKey]
      simp only [Option.bind_eq_bind, Option.bind_some, List.length_cons, count, readTail]
      exact all
  · rw [if_neg front] at check
    rw [if_neg (by omega), check]

/-! ### One iteration -/

/-- The array after `divide`, with the elements before the key and after it. -/
structure Divided (b : Buffer ℕ α) (first : ℕ) (l left : List α) (key : α) (right : List α)
    (b' : Buffer ℕ α) : Prop where
  holds : Holds b' first (left ++ key :: right)
  changes : Changes (span first l.length) b b'
  length : l.length = left.length + 1 + right.length

theorem Divided.left {left right : List α} {key : α} (divided : Divided b first l left key right b') :
    Holds b' first left := (holds_append.mp divided.holds).1

theorem Divided.key {left right : List α} {key : α} (divided : Divided b first l left key right b') :
    Holds b' (first + left.length) [key] :=
  (holds_append.mp (show Holds b' _ ([key] ++ right) from (holds_append.mp divided.holds).2)).1

theorem Divided.right {left right : List α} {key : α} (divided : Divided b first l left key right b') :
    Holds b' (first + left.length + 1) right :=
  (holds_append.mp (show Holds b' _ ([key] ++ right) from (holds_append.mp divided.holds).2)).2

/-- The ranges of the two parts, the smaller one first: it is spawned. -/
def partRanges (first : ℕ) (left right : List α) : (ℕ × ℕ) × (ℕ × ℕ) :=
  if left.length < right.length then
    ((first, first + left.length), (first + left.length + 1, first + left.length + 1 + right.length))
  else ((first + left.length + 1, first + left.length + 1 + right.length), (first, first + left.length))

theorem Holds.iteration_small (holds : Holds b first l) (small : ¬ QUICKSORT_SERIAL_CUTOFF < l.length)
    (length : (std.sort comp l).length = l.length) :
    ∃ b', iteration std comp b first (first + l.length) = some (.done b') ∧ Holds b' first (std.sort comp l) ∧
      Changes (span first l.length) b b' := by
  have sorts : ∃ b', b.onRange first l.length (fun l => some (std.sort comp l)) = some b' ∧
      b'.Stores first (std.sort comp l) ∧ Changes (span first l.length) b b' :=
    onRange_spec holds.spans holds.stores rfl length
  obtain ⟨b', run, stores, changes⟩ := sorts
  refine ⟨b', ?_, ⟨?_, stores⟩, changes⟩
  · simp only [Cilkpub.iteration, Nat.add_sub_cancel_left, if_neg small, run, Option.bind_eq_bind, Option.bind_some]
  · rw [length]
    exact holds.spans.changes changes

variable (std comp) in
theorem Holds.iteration_large (holds : Holds b first l) (large : QUICKSORT_SERIAL_CUTOFF < l.length) :
    ∃ left key right equal b', divide std comp l = some (left ++ key :: right, left.length) ∧
      allEqual comp (left ++ key :: right) left.length = some equal ∧ Divided b first l left key right b' ∧
      iteration std comp b first (first + l.length) =
        some (if equal then .done b'
          else .split b' (partRanges first left right).1 (partRanges first left right).2) := by
  obtain ⟨left, key, right, divides, perm, -, -⟩ := divide_spec std comp (Nat.zero_lt_of_lt large)
  obtain ⟨equal, check, -⟩ := allEqual_spec comp left key right
  obtain ⟨b', run, holds', changes⟩ := holds.divideAt divides
  have all := perm.length_eq
  have checkAt := holds'.allEqualAt check
  rw [all] at checkAt
  rw [List.length_append, List.length_cons] at all
  have after : first + l.length - (first + left.length + 1) = right.length := by omega
  have last : first + l.length = first + left.length + 1 + right.length := by omega
  refine ⟨left, key, right, equal, b', divides, check, ⟨holds', changes, by omega⟩, ?_⟩
  simp only [Cilkpub.iteration, Nat.add_sub_cancel_left, if_pos large, run, checkAt, Option.bind_eq_bind,
    Option.bind_some, after, partRanges]
  rw [last]
  split_ifs <;> rfl

/-! ### The sort -/

/-- In place, wherever the elements are. -/
def SortsTo (std : Std α) (comp : α → α → Bool) (l l' : List α) : Prop := l'.length = l.length ∧
  ∀ {b : Buffer ℕ α} {first : ℕ}, Holds b first l →
    ∃ b', parallelQuicksortAt std comp b first (first + l.length) = some b' ∧ Holds b' first l' ∧
      Changes (span first l.length) b b'

/-- A program on a range leaves `l'` there for `l`, wherever the range is, and changes nothing else. -/
def Rearranges (program : Buffer ℕ α → ℕ → ℕ → Option (Buffer ℕ α)) (l l' : List α) : Prop := l'.length = l.length ∧
  ∀ {b : Buffer ℕ α} {first : ℕ}, Holds b first l →
    ∃ b', program b first (first + l.length) = some b' ∧ Holds b' first l' ∧ Changes (span first l.length) b b'

theorem SortsTo.rearranges (sorts : SortsTo std comp l l') : Rearranges (parallelQuicksortAt std comp) l l' := sorts

/-- Two ranges without a common element, one after the other. -/
theorem Rearranges.both {program : Buffer ℕ α → ℕ → ℕ → Option (Buffer ℕ α)} {first₁ first₂ : ℕ}
    {l₁ l₁' l₂ l₂' : List α} (sorts₁ : Rearranges program l₁ l₁') (sorts₂ : Rearranges program l₂ l₂')
    (holds₁ : Holds b first₁ l₁) (holds₂ : Holds b first₂ l₂)
    (apart : ∀ i ∈ span first₁ l₁.length, i ∉ span first₂ l₂.length) :
    ∃ b', (program b first₁ (first₁ + l₁.length)).bind (fun b => program b first₂ (first₂ + l₂.length)) = some b' ∧
      Holds b' first₁ l₁' ∧ Holds b' first₂ l₂' ∧ Changes (span first₁ l₁.length ∪ span first₂ l₂.length) b b' := by
  obtain ⟨b₁, run₁, made₁, changes₁⟩ := sorts₁.2 holds₁
  obtain ⟨b₂, run₂, made₂, changes₂⟩ := sorts₂.2 (holds₂.changes changes₁ fun i inside other => apart i other inside)
  refine ⟨b₂, ?_, made₁.changes changes₂ ?_, made₂, (changes₁.mono Set.subset_union_left).trans
    (changes₂.mono Set.subset_union_right)⟩
  · rw [run₁]
    exact run₂
  · rw [sorts₁.1]
    exact apart

/-- The key and the sorted parts are the sorted range. -/
theorem Divided.assemble {left left' right right' : List α} {key : α} {b₁ b₂ : Buffer ℕ α}
    (divided : Divided b first l left key right b₁) (sizeLeft : left'.length = left.length)
    (sizeRight : right'.length = right.length) (holdsLeft : Holds b₂ first left')
    (holdsRight : Holds b₂ (first + left.length + 1) right')
    (changes : Changes (span first left.length ∪ span (first + left.length + 1) right.length) b₁ b₂) :
    Holds b₂ first (left' ++ key :: right') ∧ Changes (span first l.length) b b₂ := by
  have length := divided.length
  constructor
  · refine holds_append.mpr ⟨holdsLeft, ?_⟩
    rw [sizeLeft]
    change Holds b₂ _ ([key] ++ right')
    refine holds_append.mpr ⟨divided.key.changes changes fun i inside => ?_, holdsRight⟩
    rw [mem_span, List.length_singleton] at inside
    rw [Set.mem_union, mem_span, mem_span]
    omega
  · refine divided.changes.trans (changes.mono fun i inside => ?_)
    rw [Set.mem_union, mem_span, mem_span] at inside
    rw [mem_span]
    omega

/-- The ranges of the two parts do not overlap. -/
theorem parts_apart (first : ℕ) (left right : List α) :
    ∀ i ∈ span first left.length, i ∉ span (first + left.length + 1) right.length :=
  span_apart (.inl (Nat.le_succ _))

theorem parallelQuicksort_length (weak : StrictWeak comp) (run : parallelQuicksort std comp l = some l') :
    l'.length = l.length := by
  obtain ⟨_, same, perm, -⟩ := parallelQuicksort_spec std weak l
  cases Option.some.inj (run.symm.trans same)
  exact perm.length_eq

/-- The spawned call and the iterations after it, in the order of a serial run. -/
theorem Divided.sorts {left left' right right' : List α} {key : α} {b₁ : Buffer ℕ α}
    (divided : Divided b first l left key right b₁) (sortsLeft : SortsTo std comp left left')
    (sortsRight : SortsTo std comp right right') :
    ∃ b', (parallelQuicksortAt std comp b₁ (partRanges first left right).1.1 (partRanges first left right).1.2).bind
        (fun b => parallelQuicksortAt std comp b (partRanges first left right).2.1 (partRanges first left right).2.2) =
        some b' ∧ Holds b' first (left' ++ key :: right') ∧ Changes (span first l.length) b b' := by
  have apart := parts_apart first left right
  rw [partRanges]
  by_cases smaller : left.length < right.length
  · rw [if_pos smaller]
    obtain ⟨b', run, holdsLeft, holdsRight, changes⟩ := sortsLeft.rearranges.both sortsRight divided.left
      divided.right apart
    exact ⟨b', run, divided.assemble sortsLeft.1 sortsRight.1 holdsLeft holdsRight changes⟩
  · rw [if_neg smaller]
    obtain ⟨b', run, holdsRight, holdsLeft, changes⟩ :=
      sortsRight.rearranges.both sortsLeft divided.right divided.left fun i inside other => apart i other inside
    rw [Set.union_comm] at changes
    exact ⟨b', run, divided.assemble sortsLeft.1 sortsRight.1 holdsLeft holdsRight changes⟩

/-- What the sort does to the elements, it does in place. -/
theorem parallelQuicksortAt_sortsTo (weak : StrictWeak comp) (l l' : List α)
    (run : parallelQuicksort std comp l = some l') : SortsTo std comp l l' := by
  induction n : l.length using Nat.strongRecOn generalizing l l' with
  | ind n ih =>
    subst n
    refine ⟨parallelQuicksort_length weak run, fun holds => ?_⟩
    by_cases large : QUICKSORT_SERIAL_CUTOFF < l.length
    · obtain ⟨left, key, right, equal, b₁, divides, checked, divided, iterates⟩ := holds.iteration_large comp std large
      have length := divided.length
      rw [parallelQuicksort_large large divides checked] at run
      rw [parallelQuicksortAt, iterates]
      cases equal with
      | true =>
        cases Option.some.inj run
        exact ⟨b₁, rfl, divided.holds, divided.changes⟩
      | false =>
        obtain ⟨left', runLeft, rest⟩ := Option.bind_eq_some_iff.mp run
        obtain ⟨right', runRight, same⟩ := Option.bind_eq_some_iff.mp rest
        cases Option.some.inj same
        exact divided.sorts (ih left.length (by omega) left left' runLeft rfl)
          (ih right.length (by omega) right right' runRight rfl)
    · have size := parallelQuicksort_length weak run
      rw [parallelQuicksort, if_neg large] at run
      cases Option.some.inj run
      obtain ⟨b', iterates, holds', changes⟩ := holds.iteration_small large size
      refine ⟨b', ?_, holds', changes⟩
      rw [parallelQuicksortAt, iterates]
      rfl

/-! ### Calls at the same time -/

/-- All there is to an element of an array. -/
def element (b : Buffer ℕ α) (i : ℕ) : Bool × Option α := (b.inside i, b.cell i)

theorem Holds.of_elements (holds : Holds b first l) (same : ∀ i ∈ span first l.length, element b' i = element b i) :
    Holds b' first l := by
  constructor
  · intro i inside
    exact (congrArg Prod.fst (same i inside)).trans (holds.spans i inside)
  · intro t bound
    exact (congrArg Prod.snd (same (first + t) ⟨by omega, by omega⟩)).trans (holds.stores t bound)

/-- Arrays with the same elements in a range. -/
theorem Holds.elements (holds : Holds b first l) (holds' : Holds b' first l) :
    ∀ i ∈ span first l.length, element b' i = element b i := by
  intro i inside
  obtain ⟨t, rfl⟩ := Nat.exists_eq_add_of_le inside.1
  have bound : t < l.length := Nat.add_lt_add_iff_left.mp inside.2
  rw [element, element, holds.spans _ inside, holds'.spans _ inside, holds.stores t bound, holds'.stores t bound]

/-- Such a program touches its own range only. -/
theorem Rearranges.footprint {program : Buffer ℕ α → ℕ → ℕ → Option (Buffer ℕ α)} (sorts : Rearranges program l l')
    (holds : Holds b first l) : ∃ b', Footprint element (fun b => program b first (first + l.length))
      (Set.Ico first (first + l.length)) (Set.Ico first (first + l.length)) b b' := by
  obtain ⟨b', -, made, -⟩ := sorts.2 holds
  refine ⟨b', fun t same => ?_⟩
  obtain ⟨t', run, made', changes⟩ := sorts.2 (holds.of_elements same)
  refine ⟨t', run, ?_, fun i outside => ?_⟩
  · have elements := made.elements made'
    rwa [sorts.1] at elements
  · rw [element, element, changes.inside, changes.frame i outside]

/-- What the theorem below says about an iteration with a spawned call. -/
structure Independent (std : Std α) (comp : α → α → Bool) (u : Task α) (b : Buffer ℕ α) (spawned rest : ℕ × ℕ) :
    Prop where
  apart : Disjoint (Set.Ico spawned.1 spawned.2) (Set.Ico rest.1 rest.2)
  inside : Set.Ico spawned.1 spawned.2 ∪ Set.Ico rest.1 rest.2 ⊆ Set.Ico u.first u.last
  spawnedCall : ∃ b', Footprint element (fun b => parallelQuicksortAt std comp b spawned.1 spawned.2)
    (Set.Ico spawned.1 spawned.2) (Set.Ico spawned.1 spawned.2) b b'
  loop : ∃ b', Footprint element (fun b => parallelQuicksortAt std comp b rest.1 rest.2)
    (Set.Ico rest.1 rest.2) (Set.Ico rest.1 rest.2) b b'

/-- The range of a task has elements. -/
def Task.Holds (u : Task α) (l : List α) : Prop := Cilkpub.Holds u.b u.first l ∧ u.last = u.first + l.length

/-- Two ranges that are sorted at the same time, as part of the range of a task. -/
structure Ranges (u : Task α) (b : Buffer ℕ α) (spawned rest : ℕ × ℕ) (l₁ l₂ : List α) : Prop where
  holds₁ : (Task.mk b spawned.1 spawned.2).Holds l₁
  holds₂ : (Task.mk b rest.1 rest.2).Holds l₂
  apart : Disjoint (Set.Ico spawned.1 spawned.2) (Set.Ico rest.1 rest.2)
  inside : Set.Ico spawned.1 spawned.2 ∪ Set.Ico rest.1 rest.2 ⊆ Set.Ico u.first u.last

theorem Divided.ranges {u : Task α} {left right : List α} {key : α} (last : u.last = u.first + l.length)
    (divided : Divided u.b u.first l left key right b') : ∃ l₁ l₂,
    Ranges u b' (partRanges u.first left right).1 (partRanges u.first left right).2 l₁ l₂ := by
  have length := divided.length
  have apart : Disjoint (Set.Ico u.first (u.first + left.length))
      (Set.Ico (u.first + left.length + 1) (u.first + left.length + 1 + right.length)) :=
    Set.disjoint_left.mpr (parts_apart u.first left right)
  have inside : Set.Ico u.first (u.first + left.length) ∪
      Set.Ico (u.first + left.length + 1) (u.first + left.length + 1 + right.length) ⊆ Set.Ico u.first u.last := by
    rintro i (⟨lower, upper⟩ | ⟨lower, upper⟩)
    · exact ⟨lower, by omega⟩
    · exact ⟨by omega, by omega⟩
  rw [partRanges]
  by_cases smaller : left.length < right.length
  · rw [if_pos smaller]
    exact ⟨left, right, ⟨divided.left, rfl⟩, ⟨divided.right, rfl⟩, apart, inside⟩
  · rw [if_neg smaller]
    exact ⟨right, left, ⟨divided.right, rfl⟩, ⟨divided.left, rfl⟩, apart.symm, Set.union_comm _ _ ▸ inside⟩

variable (std) in
/-- What an iteration can lead to. -/
theorem Task.Holds.iteration (weak : StrictWeak comp) {u : Task α} (holds : u.Holds l) :
    (∃ b', iteration std comp u.b u.first u.last = some (.done b')) ∨
      ∃ b' spawned rest l₁ l₂, iteration std comp u.b u.first u.last = some (.split b' spawned rest) ∧
        Ranges u b' spawned rest l₁ l₂ := by
  obtain ⟨holds, last⟩ := holds
  rw [last]
  by_cases large : QUICKSORT_SERIAL_CUTOFF < l.length
  · obtain ⟨left, key, right, equal, b₁, -, -, divided, iterates⟩ := holds.iteration_large comp std large
    cases equal with
    | true => exact .inl ⟨b₁, iterates⟩
    | false =>
      obtain ⟨l₁, l₂, ranges⟩ := divided.ranges last
      exact .inr ⟨b₁, _, _, l₁, l₂, iterates, ranges⟩
  · obtain ⟨b', iterates, -, -⟩ := holds.iteration_small large (std.sort_perm comp l weak).length_eq
    exact .inl ⟨b', iterates⟩

theorem Task.Holds.split (weak : StrictWeak comp) {u : Task α} {spawned rest : ℕ × ℕ} (holds : u.Holds l)
    (split : Cilkpub.iteration std comp u.b u.first u.last = some (.split b' spawned rest)) :
    ∃ l₁ l₂, Ranges u b' spawned rest l₁ l₂ := by
  rcases holds.iteration std weak with ⟨_, done⟩ | ⟨_, _, _, l₁, l₂, found, ranges⟩
  · rw [split] at done
    cases done
  · rw [split] at found
    cases found
    exact ⟨l₁, l₂, ranges⟩

theorem Task.Holds.changes {u : Task α} {S : Set ℕ} (holds : u.Holds l) (changes : Changes S u.b b')
    (apart : Disjoint (Set.Ico u.first u.last) S) : (Task.mk b' u.first u.last).Holds l := by
  refine ⟨holds.1.changes changes fun i inside => Set.disjoint_left.mp apart ?_, holds.2⟩
  rw [holds.2]
  exact inside

/-- The range of every task that is reached has elements. -/
theorem Reaches.holds (weak : StrictWeak comp) {t u : Task α} (reached : Reaches std comp t u) :
    (∃ l, t.Holds l) → ∃ l, u.Holds l := by
  induction reached with
  | start t => exact fun holds => holds
  | spawned split changes _ ih =>
    rintro ⟨l, holds⟩
    obtain ⟨l₁, l₂, ranges⟩ := holds.split weak split
    exact ih ⟨l₁, ranges.holds₁.changes changes ranges.apart⟩
  | next split changes _ ih =>
    rintro ⟨l, holds⟩
    obtain ⟨l₁, l₂, ranges⟩ := holds.split weak split
    exact ih ⟨l₂, ranges.holds₂.changes changes ranges.apart.symm⟩

theorem Task.Holds.footprint (weak : StrictWeak comp) {u : Task α} (holds : u.Holds l) :
    ∃ b', Footprint element (fun b => parallelQuicksortAt std comp b u.first u.last) (Set.Ico u.first u.last)
      (Set.Ico u.first u.last) u.b b' := by
  obtain ⟨l', run, -, -⟩ := parallelQuicksort_spec std weak l
  rw [holds.2]
  exact (parallelQuicksortAt_sortsTo weak l l' run).rearranges.footprint holds.1

theorem holds_of_readRange (n : ℕ) : ∀ {first : ℕ} {l : List α}, b.readRange first n = some l →
    l.length = n ∧ Holds b first l := by
  induction n with
  | zero =>
    intro first l run
    cases Option.some.inj run
    exact ⟨rfl, fun i inside => absurd inside.2 (Nat.not_lt.mpr inside.1), stores_nil b first⟩
  | succ n ih =>
    intro first l run
    simp only [readRange, Option.bind_eq_bind, Option.bind_eq_some_iff, Option.some.injEq] at run
    obtain ⟨v, here, rest, others, rfl⟩ := run
    obtain ⟨length, holds⟩ := ih others
    simp only [Buffer.read, Option.ite_none_right_eq_some] at here
    have single : Holds b first [v] := by
      refine ⟨fun i inside => ?_, stores_singleton.mpr here.2⟩
      obtain rfl : i = first := Nat.le_antisymm (Nat.le_of_lt_succ inside.2) inside.1
      exact here.1
    exact ⟨congrArg Nat.succ length, holds_append.mpr ⟨single, holds⟩⟩

/-- The sort of a range: it ends, and the range is sorted; a spawned call and the iterations after it never touch the
same element; and `divide` puts the key between the smaller elements and the others. -/
theorem parallelQuicksortAt_correct (std : Std α) (weak : StrictWeak comp) {b : Buffer ℕ α} {first n : ℕ} {l : List α}
    (input : b.readRange first n = some l) :
    (∃ b' l', parallelQuicksortAt std comp b first (first + n) = some b' ∧ b'.readRange first n = some l' ∧ l'.Perm l ∧
      Sorted comp l' ∧ Changes (Set.Ico first (first + n)) b b') ∧
    (∀ u, Reaches std comp ⟨b, first, first + n⟩ u → ∃ outcome, iteration std comp u.b u.first u.last = some outcome ∧
      ∀ b' spawned rest, outcome = .split b' spawned rest → Independent std comp u b' spawned rest) ∧
    (0 < n → ∃ b' l' middle key, divideAt std comp b first (first + n) = some (b', first + middle) ∧
      b'.readRange first n = some l' ∧ l'.Perm l ∧ l'[middle]? = some key ∧
      (∀ v ∈ l'.take middle, comp v key = true) ∧ ∀ v ∈ l'.drop middle, comp v key = false) := by
  obtain ⟨rfl, holds⟩ := holds_of_readRange n input
  refine ⟨?_, ?_, fun nonempty => ?_⟩
  · obtain ⟨l', run, perm, sorted⟩ := parallelQuicksort_spec std weak l
    obtain ⟨b', sorts, made, changes⟩ := (parallelQuicksortAt_sortsTo weak l l' run).2 holds
    exact ⟨b', l', sorts, perm.length_eq ▸ made.readRange, perm, sorted, changes⟩
  · intro u reached
    obtain ⟨l', there⟩ := reached.holds weak ⟨l, holds, rfl⟩
    rcases there.iteration std weak with ⟨b', done⟩ | ⟨b', _, _, l₁, l₂, found, ranges⟩
    · exact ⟨_, done, fun _ _ _ same => by cases same⟩
    · refine ⟨_, found, ?_⟩
      rintro _ _ _ same
      cases same
      exact ⟨ranges.apart, ranges.inside, ranges.holds₁.footprint weak, ranges.holds₂.footprint weak⟩
  · obtain ⟨left, key, right, divides, perm, below, above⟩ := divide_spec std comp nonempty
    obtain ⟨b', run, made, -⟩ := holds.divideAt divides
    refine ⟨b', left ++ key :: right, left.length, key, run, perm.length_eq ▸ made.readRange, perm, by simp, ?_, ?_⟩
    · rw [List.take_left]
      exact below
    · rw [List.drop_left]
      rintro v member
      rcases List.mem_cons.mp member with rfl | member
      · exact comp_self weak v
      · exact above v member

/-- A range of more than 500 elements is split, unless all its elements are equivalent. -/
theorem Holds.iteration_splits (holds : Holds b first l) (std : Std α) (weak : StrictWeak comp)
    (large : QUICKSORT_SERIAL_CUTOFF < l.length) {v w : α} (hv : v ∈ l) (hw : w ∈ l) (less : comp v w = true) :
    ∃ b' spawned rest, iteration std comp b first (first + l.length) = some (.split b' spawned rest) := by
  obtain ⟨left, key, right, equal, b', divides, checked, -, iterates⟩ := holds.iteration_large comp std large
  cases equal with
  | false => exact ⟨b', _, _, iterates⟩
  | true =>
    obtain ⟨left', key', right', divides', perm, -, above⟩ := divide_spec std comp (Nat.zero_lt_of_lt large)
    obtain ⟨same, middle⟩ := Prod.ext_iff.mp (Option.some.inj (divides'.symm.trans divides))
    dsimp only at same middle
    obtain ⟨equal', checked', meaning⟩ := allEqual_spec comp left' key' right'
    rw [same, middle, checked] at checked'
    obtain ⟨rfl, below⟩ := meaning (Option.some.inj checked').symm
    have equivalent (x : α) (member : x ∈ l) : comp key' x = false ∧ comp x key' = false := by
      rcases List.mem_cons.mp (perm.mem_iff.mpr member) with rfl | later
      · exact ⟨comp_self weak x, comp_self weak x⟩
      · exact ⟨below x later, above x later⟩
    rcases comp_cases weak (b := key') less with before | behind
    · rw [(equivalent v hv).2] at before
      cases before
    · rw [(equivalent w hw).1] at behind
      cases behind

theorem parallelQuicksortAt_correct_sevenths :
    let l := (List.range 600).map (· % 7)
    let less (x y : ℕ) := decide (x < y)
    let b : Buffer ℕ ℕ := ⟨fun i => decide (i < 600), fun i => l[i]?⟩
    (∃ b' l', parallelQuicksortAt (Std.merging ℕ) less b 0 600 = some b' ∧ b'.readRange 0 600 = some l' ∧ l'.Perm l ∧
      Sorted less l' ∧ Changes (Set.Ico 0 600) b b') ∧
    (∃ b' spawned rest, iteration (Std.merging ℕ) less b 0 600 = some (.split b' spawned rest) ∧
      Independent (Std.merging ℕ) less ⟨b, 0, 600⟩ b' spawned rest) ∧
    ∃ b' l' middle key, divideAt (Std.merging ℕ) less b 0 600 = some (b', middle) ∧ b'.readRange 0 600 = some l' ∧
      l'.Perm l ∧ l'[middle]? = some key ∧ (∀ v ∈ l'.take middle, less v key = true) ∧
      ∀ v ∈ l'.drop middle, less v key = false := by
  intro l less b
  have weak : StrictWeak less :=
    { irrefl := by simp [less]
      trans := fun x y z first second => by simp only [less, decide_eq_true_eq] at *; omega
      incomp_trans := fun x y z first second => by simp only [less, decide_eq_true_eq] at *; omega }
  have length : l.length = 600 := by rw [List.length_map, List.length_range]
  have holds : Holds b 0 l := by
    constructor
    · intro i inside
      rw [mem_span, length] at inside
      exact decide_eq_true (by omega)
    · intro t _
      rw [Nat.zero_add]
  have input : b.readRange 0 600 = some l := length ▸ holds.readRange
  obtain ⟨sorts, independent, divides⟩ := parallelQuicksortAt_correct (Std.merging ℕ) weak input
  have zero : 0 ∈ l := List.mem_map.mpr ⟨0, by simp, rfl⟩
  have one : 1 ∈ l := List.mem_map.mpr ⟨1, by simp, rfl⟩
  obtain ⟨b', spawned, rest, splits⟩ := holds.iteration_splits (Std.merging ℕ) weak (by rw [length]; decide) zero one rfl
  rw [length] at splits
  obtain ⟨outcome, iterates, apart⟩ := independent _ (.start _)
  obtain rfl := Option.some.inj (iterates.symm.trans splits)
  obtain ⟨b'', l', middle, key, divided, result⟩ := divides (by decide)
  rw [Nat.zero_add, Nat.zero_add] at divided
  exact ⟨sorts, ⟨b', spawned, rest, splits, apart _ _ _ rfl⟩, b'', l', middle, key, divided, result⟩

end CilkArtifact.Cilkpub
