import CilkArtifact.Cholesky.Sparse
import Mathlib

/-! What `num_blocks` and `num_nonzeros` count, and the quadtree that a sequence of `set_matrix` calls leaves behind as
a sparse matrix. -/
namespace CilkArtifact.Cholesky
open Quadtree Quarter
variable {K : Type} {level : ℕ} {m m' : Memory K}

/-! ### Sums over the leaves -/

/-- A value of type `int` that is not negative. -/
def intOf (n : ℕ) : Option ℕ := if n < 2 ^ 31 then some n else none

theorem intOf_fits {n : ℕ} (fits : n < 2 ^ 31) : intOf n = some n := if_pos fits

theorem intOf_overflow {n : ℕ} (overflow : ¬ n < 2 ^ 31) : intOf n = none := if_neg overflow

/-- A sum overflows as soon as one of its terms does. -/
theorem intOf_bind_addInt (r s : ℕ) :
    (intOf r).bind (fun res => (intOf s).bind fun x => addInt res x) = intOf (r + s) := by
  by_cases left : r < 2 ^ 31
  · rw [intOf_fits left, Option.bind_some]
    by_cases right : s < 2 ^ 31
    · rw [intOf_fits right]
      rfl
    · rw [intOf_overflow right, intOf_overflow (n := r + s) (by omega), Option.bind_none]
  · rw [intOf_overflow left, intOf_overflow (n := r + s) (by omega), Option.bind_none]

/-- `res += …`, with the rest of the function. -/
theorem addInt_bind (r s : ℕ) (rest : ℕ → Option ℕ) :
    (intOf r).bind (fun res => (intOf s).bind fun x => (addInt res x).bind rest) = (intOf (r + s)).bind rest := by
  rw [← intOf_bind_addInt]
  simp only [Option.bind_assoc]

/-- The first of these, to a `res` of 0. -/
theorem addInt_zero_bind (s : ℕ) (rest : ℕ → Option ℕ) :
    (intOf s).bind (fun x => (addInt 0 x).bind rest) = (intOf s).bind rest := by
  have sum := addInt_bind 0 s rest
  rwa [Nat.zero_add, intOf_fits (Nat.two_pow_pos 31), Option.bind_some] at sum

/-- The sum of the weights of the leaves. -/
def total (weight : Block K → ℕ) {level : ℕ} : Quadtree K level → ℕ
  | null => 0
  | leaf _ block => weight block
  | internal _ a00 a01 a10 a11 => total weight a00 + total weight a01 + total weight a10 + total weight a11

theorem sumLeaves_none (count : Block K → Option ℕ) (level : ℕ) : sumLeaves m count level none = some 0 := by
  cases level <;> rfl

/-- The sum over the leaves is right unless it overflows. -/
theorem sumLeaves_eq {count : Block K → Option ℕ} {weight : Block K → ℕ}
    (counts : ∀ block, count block = intOf (weight block))
    {a : Quadtree K level} (denotes : a.Denotes m) : sumLeaves m count level a.pointer = intOf (total weight a) := by
  induction a with
  | null => exact sumLeaves_none count _
  | leaf address block =>
    have cell : m.cells address = some (.leaf block) := denotes
    rw [total, ← counts block]
    simp only [pointer, sumLeaves, Memory.block, cell, Option.bind_eq_bind, Option.bind_some]
  | internal address a00 a01 a10 a11 h00 h01 h10 h11 =>
    obtain ⟨cell, below⟩ := denotes_internal.mp denotes
    have child : m.child (some address) = some fun q => ((Children.mk a00 a01 a10 a11).at q).pointer := by
      simp only [Memory.child, cell, Option.bind_eq_bind, Option.bind_some]
    have e00 := h00 (below q00)
    have e01 := h01 (below q01)
    have e10 := h10 (below q10)
    have e11 := h11 (below q11)
    simp only [pointer, sumLeaves, child, Option.bind_eq_bind, Option.bind_some]
    change (sumLeaves m count _ a00.pointer).bind (fun x00 => (addInt 0 x00).bind fun res =>
      (sumLeaves m count _ a01.pointer).bind fun x01 => (addInt res x01).bind fun res =>
      (sumLeaves m count _ a10.pointer).bind fun x10 => (addInt res x10).bind fun res =>
      (sumLeaves m count _ a11.pointer).bind fun x11 => addInt res x11) = _
    rw [e00, e01, e10, e11, addInt_zero_bind, addInt_bind, addInt_bind, intOf_bind_addInt, total]

/-! ### Sums over the positions -/

/-- The sum over a square. -/
def squareSum (n : ℕ) (weight : ℕ → ℕ → ℕ) : ℕ := ∑ i ∈ Finset.range n, ∑ j ∈ Finset.range n, weight i j

theorem squareSum_congr {n : ℕ} {w w' : ℕ → ℕ → ℕ} (same : ∀ i < n, ∀ j < n, w i j = w' i j) :
    squareSum n w = squareSum n w' :=
  Finset.sum_congr rfl fun i hi => Finset.sum_congr rfl fun j hj =>
    same i (Finset.mem_range.mp hi) j (Finset.mem_range.mp hj)

theorem squareSum_double (n : ℕ) (w : ℕ → ℕ → ℕ) : squareSum (n + n) w =
    squareSum n w + squareSum n (fun i j => w i (n + j)) + squareSum n (fun i j => w (n + i) j) +
      squareSum n (fun i j => w (n + i) (n + j)) := by
  simp only [squareSum, Finset.sum_range_add, Finset.sum_add_distrib]
  rw [add_add_add_comm, ← add_assoc]

/-- A square from its quadrants. -/
theorem squareSum_quadrants (n : ℕ) (w : Quarter × ℕ × ℕ → ℕ) : squareSum (n + n) (fun i j => w (quadrant n i j)) =
    squareSum n (fun i j => w (q00, i, j)) + squareSum n (fun i j => w (q01, i, j)) +
      squareSum n (fun i j => w (q10, i, j)) + squareSum n (fun i j => w (q11, i, j)) := by
  have outside : ∀ k, ¬ n + k < n := fun k => Nat.not_lt.mpr (Nat.le_add_right n k)
  rw [squareSum_double]
  congr 1
  · congr 1
    · congr 1
      · exact squareSum_congr fun i hi j hj => by simp only [quadrant, if_pos hi, if_pos hj]
      · exact squareSum_congr fun i hi j hj => by
          simp only [quadrant, if_pos hi, if_neg (outside j), Nat.add_sub_cancel_left]
    · exact squareSum_congr fun i hi j hj => by
        simp only [quadrant, if_neg (outside i), if_pos hj, Nat.add_sub_cancel_left]
  · exact squareSum_congr fun i hi j hj => by
      simp only [quadrant, if_neg (outside i), if_neg (outside j), Nat.add_sub_cancel_left]

theorem squareSum_indicator (n : ℕ) (p : ℕ → ℕ → Prop) [DecidableRel p] :
    squareSum n (fun i j => if p i j then 1 else 0) =
      ((Finset.range n ×ˢ Finset.range n).filter fun x => p x.1 x.2).card := by
  rw [Finset.card_filter, Finset.sum_product]
  rfl

/-- A sum over the leaves as a sum over positions, for values that are passed on to the quadrants. -/
theorem total_eq_squareSum {weight : Block K → ℕ} (side : ℕ → ℕ) (w : ∀ {level : ℕ}, Quadtree K level → ℕ → ℕ → ℕ)
    (double : ∀ level, side (level + 1) = side level + side level)
    (absent : ∀ {level : ℕ} (i j : ℕ), w (null : Quadtree K level) i j = 0)
    (single : ∀ address block, squareSum (side 0) (w (leaf address block)) = weight block)
    (inner : ∀ {level : ℕ} (a : Quadtree K (level + 1)) (i j : ℕ), w a i j =
      w ((children a).at (quadrant (side level) i j).1) (quadrant (side level) i j).2.1 (quadrant (side level) i j).2.2)
    (a : Quadtree K level) : total weight a = squareSum (side level) (w a) := by
  induction a with
  | null => simp only [total, squareSum, absent, Finset.sum_const_zero]
  | leaf address block => exact (single address block).symm
  | @internal level address a00 a01 a10 a11 h00 h01 h10 h11 =>
    have split := squareSum_quadrants (side level) fun x => w ((Children.mk a00 a01 a10 a11).at x.1) x.2.1 x.2.2
    rw [double, squareSum_congr fun i _ j _ => inner (internal address a00 a01 a10 a11) i j]
    exact (congrArg₂ _ (congrArg₂ _ (congrArg₂ _ h00 h01) h10) h11).trans split.symm

open scoped Classical in
theorem total_blocks (a : Quadtree K level) :
    total (fun _ => 1) a = squareSum (2 ^ level) fun i j => if HasBlock a i j then 1 else 0 := by
  refine total_eq_squareSum (fun level => 2 ^ level) (fun a i j => if HasBlock a i j then 1 else 0) ?_ ?_ ?_ ?_ a
  · intro level
    rw [pow_succ, mul_two]
  · intro level i j
    simp only [HasBlock, if_false]
  · intro address block
    simp [squareSum, HasBlock]
  · intro level a i j
    exact if_congr (hasBlock_quadrant a i j) rfl rfl

section Nonzeros
variable [Zero K] [DecidableEq K]

/-- The number of nonzeros in row `i`, before column `n`. -/
def rowNonzeros (block : Block K) (i n : ℕ) : ℕ := ∑ j ∈ Finset.range n, if block i j ≠ 0 then 1 else 0

def weightNonzeros (block : Block K) : ℕ := squareSum BLOCK_SIZE fun i j => if block i j ≠ 0 then 1 else 0

theorem rowNonzeros_le (block : Block K) (i n : ℕ) : rowNonzeros block i n ≤ n := by
  have one : ∀ j ∈ Finset.range n, (if block i j ≠ 0 then 1 else 0) ≤ 1 := by
    intro j _
    split <;> decide
  simpa [rowNonzeros] using Finset.sum_le_card_nsmul _ _ 1 one

theorem blockNonzeros_eq (block : Block K) : blockNonzeros block = intOf (weightNonzeros block) := by
  have rows : ∀ n, ∑ i ∈ Finset.range n, rowNonzeros block i BLOCK_SIZE ≤ n * BLOCK_SIZE := by
    intro n
    simpa using Finset.sum_le_card_nsmul (Finset.range n) _ BLOCK_SIZE fun i _ => rowNonzeros_le block i BLOCK_SIZE
  have fits : weightNonzeros block < 2 ^ 31 := lt_of_le_of_lt (rows BLOCK_SIZE) (by decide)
  rw [intOf_fits fits, blockNonzeros]
  refine forLoop_eq (fun n => ∑ i ∈ Finset.range n, rowNonzeros block i BLOCK_SIZE) (Nat.zero_le _) rfl
    fun i _ upper => ?_
  rw [Finset.sum_range_succ]
  refine forLoop_eq (fun n => ∑ i ∈ Finset.range i, rowNonzeros block i BLOCK_SIZE + rowNonzeros block i n)
    (Nat.zero_le _) rfl fun j _ left => ?_
  have bound : ∑ i ∈ Finset.range i, rowNonzeros block i BLOCK_SIZE + rowNonzeros block i j + 1 < 2 ^ 31 := by
    have before := rows i
    have here := rowNonzeros_le block i j
    change i < 4 at upper
    change j < 4 at left
    change _ ≤ i * 4 at before
    omega
  have next : rowNonzeros block i (j + 1) = rowNonzeros block i j + if block i j ≠ 0 then 1 else 0 :=
    Finset.sum_range_succ _ _
  rw [next]
  by_cases nonzero : block i j ≠ 0
  · rw [if_pos nonzero, if_pos nonzero, addInt, if_pos bound, add_assoc]
  · rw [if_neg nonzero, if_neg nonzero, add_zero]

theorem total_nonzeros (a : Quadtree K level) :
    total weightNonzeros a = squareSum (size level) fun i j => if get a i j ≠ 0 then 1 else 0 := by
  refine total_eq_squareSum size (fun a i j => if get a i j ≠ 0 then 1 else 0) size_succ ?_ ?_ ?_ a
  · intro level i j
    exact if_neg fun nonzero => nonzero get_null
  · intro address block
    rfl
  · intro level a i j
    rw [get_quadrant]

end Nonzeros

/-! ### Sequences of calls -/

/-- The arguments of a call of `set_matrix`. -/
structure Entry (K : Type) where
  row : ℕ
  col : ℕ
  value : K

/-- The last value that was set at a position, 0 if there is none. -/
def lastValue [Zero K] (entries : List (Entry K)) (r c : ℕ) : K :=
  match entries.reverse.find? fun e => e.row = r ∧ e.col = c with
  | some e => e.value
  | none => 0

/-- The position of the block with the entry. -/
def Entry.block (e : Entry K) : ℕ × ℕ := (e.row / BLOCK_SIZE, e.col / BLOCK_SIZE)

/-- `a = set_matrix (depth, a, r, c, value)` for all entries, from an `a` that is NULL. -/
def setEntriesAt [Zero K] (level : ℕ) (entries : List (Entry K)) (m : Memory K) : Option (Option ℕ × Memory K) :=
  entries.foldlM (fun s e => setMatrixAt level s.1 e.row e.col e.value s.2) (none, m)

/-- The nodes that are found from a pointer. -/
def nodesAt (m : Memory K) : (level : ℕ) → Option ℕ → Set ℕ
  | 0, a => {x | a = some x}
  | level + 1, a => {x | a = some x ∨ ∃ child q, m.child a = some child ∧ x ∈ nodesAt m level (child q)}

theorem nodesAt_eq (level : ℕ) : ∀ {a : Quadtree K level}, a.Denotes m → nodesAt m level a.pointer = a.addresses := by
  induction level with
  | zero =>
    intro a _
    ext x
    cases a with
    | null => simp [nodesAt, pointer, addresses]
    | leaf address block => simp [nodesAt, pointer, addresses]
  | succ level ih =>
    intro a denotes
    ext x
    cases a with
    | null => simp [nodesAt, pointer, addresses, Memory.child]
    | internal address a00 a01 a10 a11 =>
      have child := denotes.child rfl
      have below : ∀ q, nodesAt m level ((Children.mk a00 a01 a10 a11).at q).pointer = _ :=
        fun q => ih (denotes.children q)
      rw [mem_addresses_internal]
      simp only [nodesAt, child, Set.mem_ofPred_eq, ← below, Option.some.injEq, exists_and_left, exists_eq_left']
      exact or_congr_left ⟨fun same => (Option.some.inj same).symm, fun same => congrArg some same.symm⟩

theorem lastValue_append [Zero K] (entries : List (Entry K)) (e : Entry K) (r c : ℕ) :
    lastValue (entries ++ [e]) r c = setEntry (lastValue entries) e.row e.col e.value r c := by
  rw [lastValue, List.reverse_append, List.reverse_singleton, List.singleton_append, List.find?_cons, setEntry]
  by_cases here : r = e.row ∧ c = e.col
  · rw [if_pos here, here.1, here.2]
    simp
  · have other : ¬ (e.row = r ∧ e.col = c) := fun same => here ⟨same.1.symm, same.2.symm⟩
    rw [if_neg here, decide_eq_false other]
    rfl

/-- What the calls leave behind. -/
structure EntriesSet [Zero K] (entries : List (Entry K)) (a : Quadtree K level) (m : Memory K) : Prop where
  owned : Owned m a
  values : ∀ r c, get a r c = lastValue entries r c
  blocks : ∀ i j, HasBlock a i j ↔ (i, j) ∈ entries.map Entry.block

theorem entriesSet_nil [Zero K] (m : Memory K) : EntriesSet [] (null : Quadtree K level) m :=
  ⟨⟨trivial, trivial, fun _ member => member.elim⟩, fun _ _ => get_null, fun _ _ => by simp [HasBlock]⟩

/-- One more call. -/
theorem EntriesSet.step [Zero K] {entries : List (Entry K)} {e : Entry K} {a a' : Quadtree K level} {m' : Memory K}
    (before : EntriesSet entries a m) (after : EntrySet m a e.row e.col e.value a' m') :
    EntriesSet (entries ++ [e]) a' m' := by
  refine ⟨⟨after.updated.denotes, after.updated.distinct, fun x member => (after.updated.addresses x member).2⟩, ?_, ?_⟩
  · intro r c
    have same : get a = lastValue entries := funext₂ before.values
    rw [after.entries, lastValue_append, same]
  · intro i j
    rw [after.blocks, before.blocks, List.map_append, List.mem_append, List.map_singleton, List.mem_singleton,
      Entry.block, Prod.mk.injEq]

theorem setEntriesAt_spec [Zero K] (shiftable : Shiftable level) (m : Memory K) (entries : List (Entry K))
    (inside : ∀ e ∈ entries, e.row < size level ∧ e.col < size level) :
    ∃ (a : Quadtree K level) (m' : Memory K), setEntriesAt level entries m = some (a.pointer, m') ∧
      EntriesSet entries a m' := by
  induction entries using List.reverseRecOn with
  | nil => exact ⟨null, m, rfl, entriesSet_nil m⟩
  | append_singleton entries e ih =>
    obtain ⟨a, m₁, run, before⟩ := ih fun e' member => inside e' (List.mem_append_left _ member)
    obtain ⟨hr, hc⟩ := inside e (List.mem_append_right _ (List.mem_singleton_self e))
    obtain ⟨a', m₂, call, after⟩ := setMatrixAt_spec level e.value shiftable before.owned hr hc
    refine ⟨a', m₂, ?_, before.step after⟩
    rw [setEntriesAt] at run
    rw [setEntriesAt, List.foldlM_append, run]
    simp only [List.foldlM_cons, List.foldlM_nil, Option.bind_eq_bind, Option.bind_some, call]
    rfl

/-- The positions with a value other than 0. -/
def nonzeroPositions [Zero K] [DecidableEq K] (level : ℕ) (entries : List (Entry K)) : Finset (ℕ × ℕ) :=
  (Finset.range (size level) ×ˢ Finset.range (size level)).filter fun x => lastValue entries x.1 x.2 ≠ 0

theorem EntriesSet.numNonzeros [Zero K] [DecidableEq K] {entries : List (Entry K)} {a : Quadtree K level}
    (set : EntriesSet entries a m) : numNonzeros m level a.pointer = intOf (nonzeroPositions level entries).card := by
  rw [Cholesky.numNonzeros, sumLeaves_eq blockNonzeros_eq set.owned.denotes, total_nonzeros]
  simp only [set.values]
  rw [squareSum_indicator, nonzeroPositions]

theorem EntriesSet.numBlocks [Zero K] {entries : List (Entry K)} {a : Quadtree K level} (set : EntriesSet entries a m)
    (inside : ∀ e ∈ entries, e.row < size level ∧ e.col < size level) :
    numBlocks m level a.pointer = intOf (entries.map Entry.block).toFinset.card := by
  classical
  have one : ∀ block : Block K, some 1 = intOf ((fun _ => 1) block) := fun _ => (intOf_fits (by decide)).symm
  rw [Cholesky.numBlocks, sumLeaves_eq one set.owned.denotes, total_blocks]
  simp only [set.blocks]
  rw [squareSum_indicator (2 ^ level) fun i j => (i, j) ∈ entries.map Entry.block]
  congr 2
  ext x
  simp only [Finset.mem_filter, Finset.mem_product, Finset.mem_range, List.mem_toFinset]
  refine and_iff_right_of_imp fun member => ?_
  obtain ⟨e, member, same⟩ := List.mem_map.mp member
  rw [← show e.block = x from same]
  obtain ⟨hr, hc⟩ := inside e member
  have whole : size level = 2 ^ level * BLOCK_SIZE := by rw [size, pow_add, mul_comm, BLOCK_SIZE]
  rw [whole] at hr hc
  exact ⟨Nat.div_lt_of_lt_mul (mul_comm _ BLOCK_SIZE ▸ hr), Nat.div_lt_of_lt_mul (mul_comm _ BLOCK_SIZE ▸ hc)⟩

theorem EntriesSet.getMatrixAt [Zero K] {entries : List (Entry K)} {a : Quadtree K level} (set : EntriesSet entries a m)
    (shiftable : Shiftable level) {r c : ℕ} (hr : r < size level) (hc : c < size level) :
    getMatrixAt m level a.pointer r c = some (lastValue entries r c) := by
  rw [getMatrixAt_eq level shiftable set.owned.denotes hr hc, set.values]

/-- A copy has the same entries, and shares no node with the tree. -/
theorem EntriesSet.copyMatrixAt [Zero K] {entries : List (Entry K)} {a : Quadtree K level}
    (set : EntriesSet entries a m) (shiftable : Shiftable level) :
    ∃ b m', copyMatrixAt level a.pointer m = some (b, m') ∧
      (∀ r < size level, ∀ c < size level,
        Cholesky.getMatrixAt m' level b r c = some (lastValue entries r c) ∧
        Cholesky.getMatrixAt m' level a.pointer r c = some (lastValue entries r c)) ∧
      Disjoint (nodesAt m' level a.pointer) (nodesAt m' level b) := by
  obtain ⟨b, m', run, copied⟩ := copyMatrixAt_spec level set.owned.denotes set.owned.inside
  have kept : a.Denotes m' :=
    set.owned.denotes.frame fun x member => copied.updated.frame x (fun empty => empty) (set.owned.inside x member)
  refine ⟨b.pointer, m', run, fun r hr c hc => ⟨?_, ?_⟩, ?_⟩
  · rw [getMatrixAt_eq level shiftable copied.updated.denotes hr hc, copied.entries, set.values]
  · rw [getMatrixAt_eq level shiftable kept hr hc, set.values]
  · rw [nodesAt_eq level kept, nodesAt_eq level copied.updated.denotes, Set.disjoint_left]
    intro x old new
    have fresh := (copied.updated.addresses x new).1.resolve_left fun empty => empty
    exact absurd (set.owned.inside x old) (Nat.not_lt.mpr fresh)

/-- A quadtree is a sparse matrix. -/
theorem setEntriesAt_sparse [Zero K] [DecidableEq K] (level : ℕ) (depth : BLOCK_DEPTH + level ≤ 30) (m : Memory K)
    (entries : List (Entry K)) (inside : ∀ e ∈ entries, e.row < size level ∧ e.col < size level) :
    ∃ a m', setEntriesAt level entries m = some (a, m') ∧
      (∀ r < size level, ∀ c < size level, getMatrixAt m' level a r c = some (lastValue entries r c)) ∧
      (∃ b m'', copyMatrixAt level a m' = some (b, m'') ∧
        (∀ r < size level, ∀ c < size level, getMatrixAt m'' level b r c = getMatrixAt m' level a r c ∧
          getMatrixAt m'' level a r c = getMatrixAt m' level a r c) ∧
        Disjoint (nodesAt m'' level a) (nodesAt m'' level b)) ∧
      numNonzeros m' level a = intOf (nonzeroPositions level entries).card ∧
      numBlocks m' level a = intOf (entries.map Entry.block).toFinset.card := by
  obtain ⟨a, m', run, set⟩ := setEntriesAt_spec depth m entries inside
  obtain ⟨b, m'', copy, same, apart⟩ := set.copyMatrixAt depth
  refine ⟨a.pointer, m', run, fun r hr c hc => set.getMatrixAt depth hr hc, ⟨b, m'', copy, ?_, apart⟩,
    set.numNonzeros, set.numBlocks inside⟩
  intro r hr c hc
  rw [set.getMatrixAt depth hr hc]
  exact same r hr c hc

theorem setEntriesAt_sparse_three : ∃ a m',
    setEntriesAt 1 [⟨5, 2, (7 : ℤ)⟩, ⟨0, 0, 3⟩, ⟨5, 2, 9⟩] ⟨fun _ => none, 0⟩ = some (a, m') ∧
      getMatrixAt m' 1 a 5 2 = some 9 ∧ numNonzeros m' 1 a = some 2 ∧ numBlocks m' 1 a = some 2 := by
  obtain ⟨a, m', run, values, -, nonzeros, blocks⟩ :=
    setEntriesAt_sparse 1 (by decide) ⟨fun _ => none, 0⟩ [⟨5, 2, (7 : ℤ)⟩, ⟨0, 0, 3⟩, ⟨5, 2, 9⟩] (by decide)
  exact ⟨a, m', run, values 5 (by decide) 2 (by decide), nonzeros.trans (by decide), blocks.trans (by decide)⟩

/-- All positions of a square. -/
def fullSquare (n : ℕ) : List (Entry ℤ) := (List.range n).flatMap fun r => (List.range n).map fun c => ⟨r, c, 1⟩

theorem mem_fullSquare {n : ℕ} {e : Entry ℤ} : e ∈ fullSquare n ↔ e.row < n ∧ e.col < n ∧ e.value = 1 := by
  obtain ⟨r, c, value⟩ := e
  simp only [fullSquare, List.mem_flatMap, List.mem_map, List.mem_range, Entry.mk.injEq]
  constructor
  · rintro ⟨_, hr, _, hc, rfl, rfl, rfl⟩
    exact ⟨hr, hc, rfl⟩
  · rintro ⟨hr, hc, rfl⟩
    exact ⟨r, hr, c, hc, rfl, rfl, rfl⟩

theorem lastValue_fullSquare {n r c : ℕ} (hr : r < n) (hc : c < n) : lastValue (fullSquare n) r c = 1 := by
  have member : (⟨r, c, 1⟩ : Entry ℤ) ∈ (fullSquare n).reverse := by
    rw [List.mem_reverse, mem_fullSquare]
    exact ⟨hr, hc, rfl⟩
  rw [lastValue]
  cases found : (fullSquare n).reverse.find? fun e => e.row = r ∧ e.col = c with
  | none =>
    have missed := List.find?_eq_none.mp found _ member
    simp at missed
  | some e =>
    have there := List.mem_of_find?_eq_some found
    rw [List.mem_reverse, mem_fullSquare] at there
    exact there.2.2

theorem card_fullSquare (level : ℕ) :
    (nonzeroPositions level (fullSquare (size level))).card = size level * size level := by
  have all : nonzeroPositions level (fullSquare (size level)) =
      Finset.range (size level) ×ˢ Finset.range (size level) := by
    refine Finset.filter_true_of_mem fun x member => ?_
    rw [Finset.mem_product, Finset.mem_range, Finset.mem_range] at member
    rw [lastValue_fullSquare member.1 member.2]
    decide
  rw [all, Finset.card_product, Finset.card_range]

/-- At depth 31 the size of the matrix overflows, and at depth 16 a matrix has room for more nonzeros than `int`
counts. -/
theorem setEntriesAt_overflows : setEntriesAt 29 [⟨0, 0, (1 : ℤ)⟩] ⟨fun _ => none, 0⟩ = none ∧
    ∃ a m', setEntriesAt 14 (fullSquare (size 14)) ⟨fun _ => none, 0⟩ = some (a, m') ∧ numNonzeros m' 14 a = none := by
  refine ⟨rfl, ?_⟩
  have inside : ∀ e ∈ fullSquare (size 14), e.row < size 14 ∧ e.col < size 14 :=
    fun e member => ⟨(mem_fullSquare.mp member).1, (mem_fullSquare.mp member).2.1⟩
  obtain ⟨a, m', run, set⟩ := setEntriesAt_spec (by rw [Shiftable]; decide) ⟨fun _ => none, 0⟩ _ inside
  refine ⟨a.pointer, m', run, set.numNonzeros.trans ?_⟩
  have overflow : ¬ size 14 * size 14 < 2 ^ 31 := by decide
  rw [card_fullSquare, intOf_overflow overflow]

end CilkArtifact.Cholesky
