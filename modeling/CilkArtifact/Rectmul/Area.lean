import CilkArtifact.Library.CInt
import CilkArtifact.Library.MatrixProduct
import Mathlib.Data.Set.Card

/-! `init_matrix` and `check_matrix` of `rectmul.c`. Both divide a rectangle of blocks until a block is left. The halves of
a call are spawned, and a schedule says which of them runs first. -/
namespace CilkArtifact.Rectmul
open Buffer
variable {D : Type}

section Definitions

/-- An array of elements of eight bytes. No object has 2 ^ 63 bytes. -/
structure Blocks (D : Type) extends Buffer ℕ D where
  addressable : ∀ k, inside k = true → 8 * (k + 1) < 2 ^ 63

def Blocks.write (array : Blocks D) (k : ℕ) (v : D) : Option (Blocks D) :=
  if array.inside k then some { array with cell := Function.update array.cell k (some v) } else none

/-- The arguments of both functions but for the value. -/
structure Area where
  R : ℕ
  x : ℕ
  y : ℕ
  o : ℕ

/-- The two parts of an area with more than one block. -/
def Area.halves (w : Area) : Option (Area × Area) :=
  if w.x > w.y then do
    let offset ← clong (w.x / 2 * w.o)
    let next ← clong (w.x + 1)
    some ({ w with x := w.x / 2 }, { w with R := w.R + offset, x := next / 2 })
  else do
    let next ← clong (w.y + 1)
    some ({ w with y := w.y / 2 }, { w with R := w.R + w.y / 2, y := next / 2 })

def initBlock (R : ℕ) (v : D) (array : Blocks D) : Option (Blocks D) :=
  forLoop 0 256 (fun array i => array.write (256 * R + i) v) array

/-- Besides the array, the blocks that have been written are listed. -/
def Area.initMatrix (schedule : Area → Bool) (v : D) (w : Area) (s : Blocks D × List ℕ) : Option (Blocks D × List ℕ) := do
  let sum ← clong (w.x + w.y)
  if sum = 2 then do
    let array ← initBlock w.R v s.1
    some (array, s.2 ++ [w.R])
  else do
    let (first, second) ← w.halves
    if schedule w then do
      let s ← first |>.initMatrix schedule v s
      second |>.initMatrix schedule v s
    else do
      let s ← second |>.initMatrix schedule v s
      first |>.initMatrix schedule v s
partial_fixpoint

def checkBlock [BEq D] (array : Blocks D) (R : ℕ) (v : D) : Option ℕ :=
  forLoop 0 256 (fun error i => do
    let u ← array.read (256 * R + i)
    if u != v then cint (error + 1) else some error) 0

def Area.checkMatrix [BEq D] (schedule : Area → Bool) (array : Blocks D) (v : D) (w : Area) : Option ℕ := do
  let product ← clong (w.x * w.y)
  if product = 1 then checkBlock array w.R v
  else do
    let (first, second) ← w.halves
    if schedule w then do
      let a ← first |>.checkMatrix schedule array v
      let b ← second |>.checkMatrix schedule array v
      cint (a + b)
    else do
      let b ← second |>.checkMatrix schedule array v
      let a ← first |>.checkMatrix schedule array v
      cint (a + b)
partial_fixpoint

export Area (initMatrix checkMatrix)

end Definitions

/-! ### Halves -/

/-- The blocks of an area. -/
def Area.blocks (w : Area) : Set ℕ := window w.R w.o w.x w.y

/-- An area with blocks, whose rows do not overlap. -/
structure Area.Proper (w : Area) : Prop where
  rows : 1 ≤ w.x
  columns : 1 ≤ w.y
  wide : w.y ≤ w.o

/-- The array has the elements of the blocks. -/
def Blocks.Has (array : Blocks D) (S : Set ℕ) : Prop := ∀ k ∈ elements 16 S, array.inside k = true

/-- Two areas that make up a larger one. -/
structure Divides (w first second : Area) : Prop where
  made : w.halves = some (first, second)
  ofFirst : first.Proper
  ofSecond : second.Proper
  smaller : first.x + first.y < w.x + w.y ∧ second.x + second.y < w.x + w.y
  union : w.blocks = first.blocks ∪ second.blocks
  apart : Disjoint first.blocks second.blocks

variable {w first second : Area} {array array' : Blocks D} {S T : Set ℕ} {v : D}

/-- The last block is in the array. -/
theorem Area.Proper.extent (proper : w.Proper) (has : array.Has w.blocks) : (w.x - 1) * w.o + w.y ≤ 2 ^ 52 := by
  obtain ⟨rows, columns, wide⟩ := proper
  have last : w.R + (w.x - 1) * w.o + (w.y - 1) ∈ w.blocks := mem_window (by omega) (by omega)
  have inside := array.addressable _ (has (256 * (w.R + (w.x - 1) * w.o + (w.y - 1))) ?_)
  · omega
  · rwa [elements, Set.mem_ofPred_eq, Nat.mul_div_cancel_left _ (by decide)]

theorem Area.Proper.total_fits (proper : w.Proper) (has : array.Has w.blocks) :
    clong (w.x + w.y) = some (w.x + w.y) := by
  have extent := proper.extent has
  have rows : (w.x - 1) * 1 ≤ (w.x - 1) * w.o := Nat.mul_le_mul_left _ (proper.columns.trans proper.wide)
  apply clong_fits
  omega

theorem Area.Proper.product_fits (proper : w.Proper) (has : array.Has w.blocks) :
    clong (w.x * w.y) = some (w.x * w.y) := by
  have extent := proper.extent has
  have rows : (w.x - 1) * w.y ≤ (w.x - 1) * w.o := Nat.mul_le_mul_left _ proper.wide
  have product : w.x * w.y = (w.x - 1) * w.y + w.y := by
    obtain ⟨x, hx⟩ := Nat.exists_eq_add_of_le' proper.rows
    rw [hx, Nat.add_sub_cancel, Nat.add_mul, Nat.one_mul]
  apply clong_fits
  omega

/-- The rows are halved, or the columns. -/
theorem Area.Proper.divides (proper : w.Proper) (has : array.Has w.blocks) (more : w.x + w.y ≠ 2) :
    ∃ first second, Divides w first second := by
  have extent := proper.extent has
  obtain ⟨rows, columns, wide⟩ := proper
  by_cases tall : w.x > w.y
  · have offset : w.x / 2 * w.o ≤ (w.x - 1) * w.o := Nat.mul_le_mul_right _ (by omega)
    have next : (w.x - 1) * 1 ≤ (w.x - 1) * w.o := Nat.mul_le_mul_left _ (columns.trans wide)
    have rest : (w.x + 1) / 2 = w.x - w.x / 2 := by omega
    refine ⟨{ w with x := w.x / 2 }, { w with R := w.R + w.x / 2 * w.o, x := (w.x + 1) / 2 }, ?_, ?_, ?_, ?_, ?_, ?_⟩
    · rw [halves, if_pos tall, clong_fits (by omega), clong_fits (by omega)]
      rfl
    · exact ⟨by dsimp only; omega, columns, wide⟩
    · exact ⟨by dsimp only; omega, columns, wide⟩
    · dsimp only
      omega
    · ext B
      rw [Set.mem_union]
      simp only [blocks, rest]
      exact mem_window_rows (Nat.div_le_self _ _)
    · simp only [blocks, rest]
      exact Set.disjoint_left.mpr fun B upper => below_apart w.R w.y (w.x / 2) w.x B wide upper
  · have rest : (w.y + 1) / 2 = w.y - w.y / 2 := by omega
    refine ⟨{ w with y := w.y / 2 }, { w with R := w.R + w.y / 2, y := (w.y + 1) / 2 }, ?_, ?_, ?_, ?_, ?_, ?_⟩
    · rw [halves, if_neg tall, clong_fits (by omega)]
      rfl
    · exact ⟨rows, by dsimp only; omega, by dsimp only; omega⟩
    · exact ⟨rows, by dsimp only; omega, by dsimp only; omega⟩
    · dsimp only
      omega
    · ext B
      rw [Set.mem_union]
      simp only [blocks, rest]
      exact mem_window_columns (Nat.div_le_self _ _)
    · simp only [blocks, rest]
      exact Set.disjoint_left.mpr fun B left => right_apart w.R w.y (w.y / 2) w.x B wide (Nat.div_le_self _ _) left

/-! ### Writing -/

/-- All elements of the blocks are `v`, and each block has been written once. -/
structure Initialises (v : D) (S : Set ℕ) (s s' : Blocks D × List ℕ) : Prop where
  changes : Changes (elements 16 S) s.1.toBuffer s'.1.toBuffer
  filled : ∀ k ∈ elements 16 S, s'.1.read k = some v
  written : ∃ log, s'.2 = s.2 ++ log ∧ log.Nodup ∧ ∀ B, B ∈ log ↔ B ∈ S

variable {s s' s'' : Blocks D × List ℕ}

theorem Initialises.append (first : Initialises v S s s') (second : Initialises v T s' s'') (apart : Disjoint S T) :
    Initialises v (S ∪ T) s s'' := by
  obtain ⟨log₁, made₁, nodup₁, members₁⟩ := first.written
  obtain ⟨log₂, made₂, nodup₂, members₂⟩ := second.written
  refine ⟨?_, ?_, log₁ ++ log₂, ?_, ?_, ?_⟩
  · exact (first.changes.mono (elements_mono Set.subset_union_left)).trans
      (second.changes.mono (elements_mono Set.subset_union_right))
  · intro k member
    by_cases later : k ∈ elements 16 T
    · exact second.filled k later
    · have earlier : k ∈ elements 16 S := Or.resolve_right member later
      rw [← first.filled k earlier]
      exact read_changes second.changes later
  · rw [made₂, made₁, List.append_assoc]
  · refine List.nodup_append.mpr ⟨nodup₁, nodup₂, ?_⟩
    rintro B inFirst _ inSecond rfl
    exact Set.disjoint_left.mp apart ((members₁ B).mp inFirst) ((members₂ B).mp inSecond)
  · intro B
    rw [List.mem_append, members₁, members₂]
    rfl

theorem Blocks.Has.changes (has : array.Has S) (changes : Changes T array.toBuffer array'.toBuffer) : array'.Has S := by
  intro k member
  rw [changes.inside, has k member]

theorem Blocks.Has.mono (has : array.Has T) (sub : S ⊆ T) : array.Has S :=
  fun k member => has k (elements_mono sub member)

theorem mem_block {k R : ℕ} : k ∈ elements 16 {R} ↔ k ∈ span (256 * R) 256 := by
  rw [elements, Set.mem_ofPred_eq, Set.mem_singleton_iff, mem_span]
  omega

theorem Blocks.write_spec {k : ℕ} (inside : array.inside k = true) (v : D) :
    ∃ array', array.write k v = some array' ∧ array'.read k = some v ∧ Changes {k} array.toBuffer array'.toBuffer := by
  refine ⟨_, if_pos inside, ?_, rfl, fun i other => Function.update_of_ne other ..⟩
  exact (if_pos inside).trans (Function.update_self ..)

theorem initBlock_spec {R : ℕ} (has : array.Has {R}) (v : D) :
    ∃ array', initBlock R v array = some array' ∧ Changes (elements 16 {R}) array.toBuffer array'.toBuffer ∧
      ∀ k ∈ elements 16 {R}, array'.read k = some v := by
  have loop : ∃ array', initBlock R v array = some array' ∧
      Changes (span (256 * R) 256) array.toBuffer array'.toBuffer ∧ ∀ k ∈ span (256 * R) 256, array'.read k = some v := by
    refine forLoop_invariant (fun i (now : Blocks D) => Changes (span (256 * R) i) array.toBuffer now.toBuffer ∧
      ∀ k ∈ span (256 * R) i, now.read k = some v) (Nat.zero_le 256) ⟨.refl _ _, ?_⟩ ?_
    · rintro k ⟨lower, upper⟩
      omega
    · rintro i now _ bound ⟨changes, filled⟩
      have inside : now.inside (256 * R + i) = true := by
        rw [changes.inside]
        exact has _ (mem_block.mpr ⟨Nat.le_add_right _ _, by omega⟩)
      obtain ⟨next, run, here, change⟩ := Blocks.write_spec inside v
      refine ⟨next, run, ?_, ?_⟩
      · exact (changes.mono (span_mono le_rfl (by omega))).cell change ⟨Nat.le_add_right _ _, by omega⟩
      · rintro k ⟨lower, upper⟩
        by_cases last : k = 256 * R + i
        · rw [last, here]
        · rw [read_changes change last]
          exact filled k ⟨lower, by omega⟩
  obtain ⟨array', run, changes, filled⟩ := loop
  exact ⟨array', run, changes.mono fun k member => mem_block.mpr member, fun k member => filled k (mem_block.mp member)⟩

/-- An area that is one block. -/
theorem Area.Proper.single (proper : w.Proper) (one : w.x + w.y = 2) : w.x = 1 ∧ w.y = 1 ∧ w.blocks = {w.R} := by
  have rows := proper.rows
  have columns := proper.columns
  have sizes : w.x = 1 ∧ w.y = 1 := by omega
  refine ⟨sizes.1, sizes.2, ?_⟩
  ext B
  rw [blocks, sizes.1, sizes.2, Set.mem_singleton_iff]
  constructor
  · rintro ⟨i, j, hi, hj, rfl⟩
    rw [Nat.lt_one_iff.mp hi, Nat.lt_one_iff.mp hj, Nat.zero_mul, Nat.add_zero]
  · rintro rfl
    exact ⟨0, 0, Nat.one_pos, Nat.one_pos, by rw [Nat.zero_mul, Nat.add_zero]⟩

/-- Whichever half of a call runs first. -/
theorem initMatrix_spec (schedule : Area → Bool) (v : D) (size : ℕ) : ∀ {w : Area} {s : Blocks D × List ℕ},
    w.x + w.y = size → w.Proper → s.1.Has w.blocks →
    ∃ s', initMatrix schedule v w s = some s' ∧ Initialises v w.blocks s s' := by
  induction size using Nat.strongRecOn with
  | ind size ih =>
    intro w s total proper has
    rw [initMatrix, proper.total_fits has]
    simp only [Option.bind_eq_bind, Option.bind_some]
    by_cases one : w.x + w.y = 2
    · obtain ⟨-, -, single⟩ := proper.single one
      rw [single] at has ⊢
      obtain ⟨array', run, changes, filled⟩ := initBlock_spec has v
      rw [if_pos one, run]
      refine ⟨_, rfl, changes, filled, [w.R], rfl, List.nodup_singleton _, fun B => ?_⟩
      rw [List.mem_singleton, Set.mem_singleton_iff]
    · obtain ⟨first, second, made, ofFirst, ofSecond, smaller, union, apart⟩ := proper.divides has one
      rw [union] at has ⊢
      have hasFirst := has.mono Set.subset_union_left
      have hasSecond := has.mono Set.subset_union_right
      rw [if_neg one, made, Option.bind_some]
      dsimp only
      by_cases forward : schedule w = true
      · obtain ⟨s₁, run₁, done₁⟩ := ih _ (total ▸ smaller.1) rfl ofFirst hasFirst
        obtain ⟨s₂, run₂, done₂⟩ := ih _ (total ▸ smaller.2) rfl ofSecond (hasSecond.changes done₁.changes)
        exact ⟨s₂, by rw [if_pos forward, run₁, Option.bind_some, run₂], done₁.append done₂ apart⟩
      · obtain ⟨s₁, run₁, done₁⟩ := ih _ (total ▸ smaller.2) rfl ofSecond hasSecond
        obtain ⟨s₂, run₂, done₂⟩ := ih _ (total ▸ smaller.1) rfl ofFirst (hasFirst.changes done₁.changes)
        refine ⟨s₂, by rw [if_neg forward, run₁, Option.bind_some, run₂], ?_⟩
        rw [Set.union_comm]
        exact done₁.append done₂ apart.symm

/-- There is one such array. -/
theorem Initialises.unique (has : s.1.Has S) (first : Initialises v S s s') (second : Initialises v S s s'') :
    s'.1 = s''.1 := by
  have cells (k : ℕ) : s'.1.cell k = s''.1.cell k := by
    by_cases member : k ∈ elements 16 S
    · have inside : s'.1.inside k = true := by rw [first.changes.inside, has k member]
      have inside' : s''.1.inside k = true := by rw [second.changes.inside, has k member]
      rw [← read_eq inside, ← read_eq inside', first.filled k member, second.filled k member]
    · rw [first.changes.frame k member, second.changes.frame k member]
  obtain ⟨⟨⟨inside', cell'⟩, _⟩, _⟩ := s'
  obtain ⟨⟨⟨inside'', cell''⟩, _⟩, _⟩ := s''
  have insides : inside' = inside'' := first.changes.inside.trans second.changes.inside.symm
  have contents : cell' = cell'' := funext cells
  cases insides
  cases contents
  rfl

/-! ### Counting -/

section Counting
variable [BEq D]

/-- The cells that differ from `v`. -/
def differing (array : Blocks D) (v : D) (cells : Set ℕ) : Set ℕ :=
  {k | k ∈ cells ∧ ∃ u, array.read k = some u ∧ (u != v) = true}

theorem differing_union (array : Blocks D) (v : D) (S T : Set ℕ) :
    differing array v (S ∪ T) = differing array v S ∪ differing array v T := by
  ext k
  exact or_and_right

/-- One more cell. -/
theorem differing_insert {k : ℕ} {u : D} (read : array.read k = some u) (cells : Set ℕ) :
    differing array v (insert k cells) =
      if u != v then insert k (differing array v cells) else differing array v cells := by
  have here : (∃ u, array.read k = some u ∧ (u != v) = true) ↔ (u != v) = true := by
    rw [read]
    constructor
    · rintro ⟨_, same, other⟩
      rwa [Option.some.inj same]
    · exact fun other => ⟨u, rfl, other⟩
  split_ifs with other
  · ext i
    constructor
    · rintro ⟨rfl | member, differs⟩
      · exact .inl rfl
      · exact .inr ⟨member, differs⟩
    · rintro (rfl | ⟨member, differs⟩)
      · exact ⟨.inl rfl, here.mpr other⟩
      · exact ⟨.inr member, differs⟩
  · ext i
    constructor
    · rintro ⟨rfl | member, differs⟩
      · exact (other (here.mp differs)).elim
      · exact ⟨member, differs⟩
    · rintro ⟨member, differs⟩
      exact ⟨.inr member, differs⟩

theorem span_succ (start n : ℕ) : span start (n + 1) = insert (start + n) (span start n) := by
  ext k
  rw [Set.mem_insert_iff, mem_span, mem_span]
  omega

theorem differing_finite (array : Blocks D) (v : D) {cells : Set ℕ} (finite : cells.Finite) :
    (differing array v cells).Finite := finite.subset fun _ member => member.1

theorem Area.elements_finite (w : Area) : (elements 16 w.blocks).Finite := by
  apply (Set.finite_lt_nat (256 * (w.R + w.x * w.o + w.y))).subset
  rintro k ⟨i, j, hi, hj, place⟩
  have row : i * w.o ≤ w.x * w.o := Nat.mul_le_mul_right _ hi.le
  change k < _
  omega

theorem span_finite (start n : ℕ) : (span start n).Finite :=
  (Set.finite_lt_nat (start + n)).subset fun _ member => member.2

theorem checkBlock_spec {R : ℕ} (initialised : ∀ k ∈ elements 16 {R}, ∃ u, array.read k = some u) :
    checkBlock array R v = some (differing array v (elements 16 {R})).ncard := by
  have loop : ∃ error, checkBlock array R v = some error ∧
      error = (differing array v (span (256 * R) 256)).ncard ∧ error ≤ 256 := by
    refine forLoop_invariant (fun i error => error = (differing array v (span (256 * R) i)).ncard ∧ error ≤ i)
      (Nat.zero_le 256) ⟨?_, le_rfl⟩ ?_
    · have none : differing array v (span (256 * R) 0) = ∅ := by
        apply Set.eq_empty_of_forall_notMem
        rintro k ⟨⟨lower, upper⟩, -⟩
        omega
      rw [none, Set.ncard_empty]
    · rintro i error _ bound ⟨counted, small⟩
      obtain ⟨u, read⟩ := initialised (256 * R + i) (mem_block.mpr ⟨Nat.le_add_right _ _, by omega⟩)
      rw [read, Option.bind_eq_bind, Option.bind_some, span_succ, differing_insert read]
      by_cases other : (u != v) = true
      · have fresh : 256 * R + i ∉ differing array v (span (256 * R) i) := by
          rintro ⟨⟨_, upper⟩, -⟩
          omega
        rw [if_pos other, if_pos other, cint_fits (by omega),
          Set.ncard_insert_of_notMem fresh (differing_finite array v (span_finite _ _)), ← counted]
        exact ⟨error + 1, rfl, rfl, by omega⟩
      · rw [if_neg other, if_neg other]
        exact ⟨error, rfl, counted, by omega⟩
  obtain ⟨error, run, counted, -⟩ := loop
  have cells : elements 16 {R} = span (256 * R) 256 := Set.ext fun k => mem_block
  rw [run, counted, cells]

/-- The count does not depend on the schedule. -/
theorem checkMatrix_spec (schedule : Area → Bool) (size : ℕ) : ∀ {w : Area}, w.x + w.y = size → w.Proper →
    array.Has w.blocks → (∀ k ∈ elements 16 w.blocks, ∃ u, array.read k = some u) →
    (differing array v (elements 16 w.blocks)).ncard < 2 ^ 31 →
    checkMatrix schedule array v w = some (differing array v (elements 16 w.blocks)).ncard := by
  induction size using Nat.strongRecOn with
  | ind size ih =>
    intro w total proper has initialised small
    rw [checkMatrix, proper.product_fits has]
    simp only [Option.bind_eq_bind, Option.bind_some]
    by_cases one : w.x + w.y = 2
    · obtain ⟨hx, hy, single⟩ := proper.single one
      rw [single] at initialised ⊢
      rw [hx, hy, if_pos rfl]
      exact checkBlock_spec initialised
    · have several : w.x * w.y ≠ 1 := by
        intro product
        have rows := Nat.eq_one_of_mul_eq_one_right product
        have columns := Nat.eq_one_of_mul_eq_one_left product
        omega
      obtain ⟨first, second, made, ofFirst, ofSecond, smaller, union, apart⟩ := proper.divides has one
      have finiteFirst := differing_finite array v first.elements_finite
      have finiteSecond := differing_finite array v second.elements_finite
      have elementsUnion : elements 16 w.blocks = elements 16 first.blocks ∪ elements 16 second.blocks := by
        rw [union]
        rfl
      have cellsApart : Disjoint (differing array v (elements 16 first.blocks))
          (differing array v (elements 16 second.blocks)) := by
        refine Set.disjoint_left.mpr fun k inFirst inSecond => ?_
        exact Set.disjoint_left.mp apart inFirst.1 inSecond.1
      rw [elementsUnion, differing_union, Set.ncard_union_eq cellsApart finiteFirst finiteSecond] at small ⊢
      rw [elementsUnion] at initialised
      rw [union] at has
      have runFirst := ih _ (total ▸ smaller.1) rfl ofFirst (has.mono Set.subset_union_left)
        (fun k member => initialised k (.inl member)) (by omega)
      have runSecond := ih _ (total ▸ smaller.2) rfl ofSecond (has.mono Set.subset_union_right)
        (fun k member => initialised k (.inr member)) (by omega)
      rw [if_neg several, made, Option.bind_some]
      dsimp only
      rw [runFirst, runSecond]
      simp only [Option.bind_some, cint_fits small, ite_self]

/-- Both functions end, whatever the schedule. One sets the elements of the area, writing each of its blocks once, and the
other counts those that are not `v`. -/
theorem initMatrix_checkMatrix_correct (rows : 1 ≤ w.x) (columns : 1 ≤ w.y) (wide : w.y ≤ w.o)
    (has : array.Has w.blocks) (v : D) :
    (∃ array', (∀ schedule, ∃ written, initMatrix schedule v w (array, []) = some (array', written) ∧ written.Nodup ∧
        ∀ B, B ∈ written ↔ B ∈ w.blocks) ∧
      Changes (elements 16 w.blocks) array.toBuffer array'.toBuffer ∧
      ∀ k ∈ elements 16 w.blocks, array'.read k = some v) ∧
    ((∀ k ∈ elements 16 w.blocks, ∃ u, array.read k = some u) →
      (differing array v (elements 16 w.blocks)).ncard < 2 ^ 31 →
      ∀ schedule, checkMatrix schedule array v w = some (differing array v (elements 16 w.blocks)).ncard) := by
  have proper : w.Proper := ⟨rows, columns, wide⟩
  have start : (array, ([] : List ℕ)).1.Has w.blocks := has
  constructor
  · obtain ⟨serial, -, done⟩ := initMatrix_spec (fun _ => true) v _ rfl proper start
    refine ⟨serial.1, fun schedule => ?_, done.changes, done.filled⟩
    obtain ⟨⟨array', log⟩, run, done'⟩ := initMatrix_spec schedule v _ rfl proper start
    obtain ⟨written, made, nodup, members⟩ := done'.written
    have same : array' = serial.1 := done'.unique start done
    refine ⟨written, ?_, nodup, members⟩
    rw [run, same]
    exact congrArg (fun log => some (serial.1, log)) made
  · exact fun initialised small schedule => checkMatrix_spec schedule _ rfl proper has initialised small

/-- Three rows of two blocks, which contain zeros. -/
def sixBlocks : Blocks ℤ := ⟨⟨fun k => decide (k < 1536), fun _ => some 0⟩, fun k inside => by
  have bound : k < 1536 := of_decide_eq_true inside
  omega⟩

theorem initMatrix_checkMatrix_correct_six :
    (∃ array' written, initMatrix (fun w => w.x > w.y) 1 ⟨0, 3, 2, 2⟩ (sixBlocks, []) = some (array', written) ∧
      3 ∈ written ∧ array'.read 1000 = some 1) ∧
    ∃ n, checkMatrix (fun _ => false) sixBlocks 1 ⟨0, 3, 2, 2⟩ = some n := by
  have bound : ∀ k ∈ elements 16 (Area.blocks ⟨0, 3, 2, 2⟩), k < 1536 := by
    rintro k ⟨i, j, hi, hj, place⟩
    dsimp only at hi hj place
    omega
  have has : sixBlocks.Has (Area.blocks ⟨0, 3, 2, 2⟩) := fun k member => decide_eq_true (bound k member)
  have few : (differing sixBlocks 1 (elements 16 (Area.blocks ⟨0, 3, 2, 2⟩))).ncard < 2 ^ 31 := by
    have all : differing sixBlocks 1 (elements 16 (Area.blocks ⟨0, 3, 2, 2⟩)) ⊆ Finset.range 1536 :=
      fun k member => Finset.mem_coe.mpr (Finset.mem_range.mpr (bound k member.1))
    have size := Set.ncard_le_ncard all (Finset.finite_toSet _)
    rw [Set.ncard_coe_finset, Finset.card_range] at size
    omega
  obtain ⟨⟨array', runs, -, filled⟩, counts⟩ := initMatrix_checkMatrix_correct (by decide) (by decide) (by decide) has 1
  obtain ⟨written, run, -, members⟩ := runs fun w => w.x > w.y
  refine ⟨⟨array', written, run, (members 3).mpr ⟨1, 1, by decide, by decide, rfl⟩, filled 1000 ?_⟩, ?_⟩
  · exact ⟨1, 1, by decide, by decide, rfl⟩
  · exact ⟨_, counts (fun k member => ⟨0, if_pos (has k member)⟩) few fun _ => false⟩

end Counting

end CilkArtifact.Rectmul
