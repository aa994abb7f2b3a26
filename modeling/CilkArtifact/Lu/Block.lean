import CilkArtifact.Library.CInt
import CilkArtifact.Library.Loop
import CilkArtifact.Library.Memory
import CilkArtifact.Library.Triangular
import Mathlib.Algebra.BigOperators.Intervals

/-! Block operations of `lu.c`. A matrix is an array of blocks with `nBlocks` blocks in a row of
blocks; pointers to blocks and to entries are integers. A division by zero is a failure, and so is an
index that is no value of type `int`. -/
/-- The memory of the factorisation. A function that calls itself is applied to it with `|>.`. -/
abbrev CilkArtifact.Lu (F : Type) := Memory F

namespace CilkArtifact.Lu
open Memory
variable {F : Type}

def BLOCK_SIZE : ℕ := 16

/-- `&BLOCK(B,i,j)` -/
def blockAt (B : ℤ) (i j : ℕ) : ℤ := (B * BLOCK_SIZE + i) * BLOCK_SIZE + j

/-- `&MATRIX(M,I,J)`, whose index is computed in `int`. -/
def matrixAt (nBlocks : ℕ) (M : ℤ) (I J : ℕ) : Option ℤ := do
  let row ← cint (I * nBlocks)
  let index ← cint (row + J)
  some (M + index)

section Operations
variable [Field F] [DecidableEq F]

def elemDaxmy (m : Memory F) (a : F) (x y : ℤ) : ℕ → Option (Memory F)
  | 0 => some m
  | n + 1 => do
    let yn ← m.load (y + n)
    let xn ← m.load (x + n)
    let m ← m.store (y + n) (yn - a * xn)
    elemDaxmy m a x y n

def blockLu (m : Memory F) (B : ℤ) : Option (Memory F) :=
  forLoop 0 BLOCK_SIZE (fun m k =>
    forLoop (k + 1) BLOCK_SIZE (fun m i => do
      let value ← m.load (blockAt B i k)
      let pivot ← m.load (blockAt B k k)
      let factor ← divide value pivot
      let m ← m.store (blockAt B i k) factor
      let a ← m.load (blockAt B i k)
      elemDaxmy m a (blockAt B k (k + 1)) (blockAt B i (k + 1)) (BLOCK_SIZE - k - 1)) m) m

def blockLowerSolve (m : Memory F) (B L : ℤ) : Option (Memory F) :=
  forLoop 1 BLOCK_SIZE (fun m i =>
    forLoop 0 i (fun m k => do
      let a ← m.load (blockAt L i k)
      elemDaxmy m a (blockAt B k 0) (blockAt B i 0) BLOCK_SIZE) m) m

def blockUpperSolve (m : Memory F) (B U : ℤ) : Option (Memory F) :=
  forLoop 0 BLOCK_SIZE (fun m i =>
    forLoop 0 BLOCK_SIZE (fun m k => do
      let value ← m.load (blockAt B i k)
      let pivot ← m.load (blockAt U k k)
      let factor ← divide value pivot
      let m ← m.store (blockAt B i k) factor
      let a ← m.load (blockAt B i k)
      elemDaxmy m a (blockAt U k (k + 1)) (blockAt B i (k + 1)) (BLOCK_SIZE - k - 1)) m) m

def blockSchur (m : Memory F) (B A C : ℤ) : Option (Memory F) :=
  forLoop 0 BLOCK_SIZE (fun m i =>
    forLoop 0 BLOCK_SIZE (fun m k => do
      let a ← m.load (blockAt A i k)
      elemDaxmy m a (blockAt C k 0) (blockAt B i 0) BLOCK_SIZE) m) m

end Operations

/-! ### Contents of the whole array -/

section Layout
variable (nBlocks : ℕ) (p : ℤ)

/-- The address of block `(I, J)` of the matrix at `p`. -/
def blockOf (I J : ℕ) : ℤ := p + I * nBlocks + J

/-- The address of entry `(r, c)` of the matrix at `p`. -/
def entryAt (r c : ℕ) : ℤ :=
  blockAt (blockOf nBlocks p (r / BLOCK_SIZE) (c / BLOCK_SIZE)) (r % BLOCK_SIZE) (c % BLOCK_SIZE)

/-- Number of rows and of columns. -/
def order : ℕ := BLOCK_SIZE * nBlocks

def cells : Set ℤ := {a | ∃ r c, r < order nBlocks ∧ c < order nBlocks ∧ a = entryAt nBlocks p r c}

/-- The matrix at `p` has the entries `A`, and nothing else has been written since `m₀`. -/
structure Holds (m₀ m : Memory F) (A : ℕ → ℕ → F) : Prop where
  mapped : ∀ r c, r < order nBlocks → c < order nBlocks → m₀.mapped (entryAt nBlocks p r c) = true
  changes : Changes (cells nBlocks p) m₀ m
  val : ∀ r c, r < order nBlocks → c < order nBlocks → m.val (entryAt nBlocks p r c) = A r c

end Layout

/-- The index of block `(n, n)` is a value of type `int`, and so is that of any block before it. -/
def Indexable (nBlocks n : ℕ) : Prop := n * nBlocks + n < 2 ^ 31

instance (nBlocks n : ℕ) : Decidable (Indexable nBlocks n) := Nat.decLt _ _

variable {nBlocks : ℕ} {p : ℤ} {m₀ m m' : Memory F} {A : ℕ → ℕ → F}

theorem Indexable.mono {n n' : ℕ} (indexable : Indexable nBlocks n) (smaller : n' ≤ n) : Indexable nBlocks n' :=
  (Nat.add_le_add (Nat.mul_le_mul_right nBlocks smaller) smaller).trans_lt indexable

theorem matrixAt_eq {n I J : ℕ} (indexable : Indexable nBlocks n) (hI : I ≤ n) (hJ : J ≤ n) :
    matrixAt nBlocks p I J = some (blockOf nBlocks p I J) := by
  have fits : I * nBlocks + J < 2 ^ 31 := (Nat.add_le_add (Nat.mul_le_mul_right nBlocks hI) hJ).trans_lt indexable
  rw [matrixAt, cint_fits (Nat.lt_of_le_of_lt (Nat.le_add_right _ J) fits)]
  simp only [Option.bind_eq_bind, Option.bind_some, cint_fits fits, blockOf, Nat.cast_add, Nat.cast_mul, add_assoc]

theorem matrixAt_overflows {n : ℕ} (overflow : ¬ Indexable nBlocks n) : matrixAt nBlocks p n n = none := by
  rw [matrixAt]
  rcases Nat.lt_or_ge (n * nBlocks) (2 ^ 31) with fits | above
  · rw [cint_fits fits, Option.bind_eq_bind, Option.bind_some, cint_overflow (Nat.not_lt.mp overflow)]
    rfl
  · rw [cint_overflow above]
    rfl

/-- A block number determines the row and the column of the block. -/
theorem block_inj {I J I' J' : ℕ} (hJ : J < nBlocks) (hJ' : J' < nBlocks)
    (same : I * nBlocks + J = I' * nBlocks + J') : I = I' ∧ J = J' := by
  have rows : I = I' := by
    have quotients := congrArg (fun number => number / nBlocks) same
    simpa [Nat.add_div_of_dvd_right (Dvd.intro_left I rfl), Nat.add_div_of_dvd_right (Dvd.intro_left I' rfl),
      Nat.div_eq_of_lt hJ, Nat.div_eq_of_lt hJ', Nat.mul_div_cancel _ (Nat.zero_lt_of_lt hJ)] using quotients
  subst rows
  exact ⟨rfl, by omega⟩

theorem entryAt_inj {r c r' c' : ℕ} (hc : c < order nBlocks) (hc' : c' < order nBlocks)
    (same : entryAt nBlocks p r c = entryAt nBlocks p r' c') : r = r' ∧ c = c' := by
  simp only [entryAt, blockAt, blockOf, order, BLOCK_SIZE] at *
  obtain ⟨I, hI⟩ : ∃ I, r / 16 = I := ⟨_, rfl⟩
  obtain ⟨I', hI'⟩ : ∃ I, r' / 16 = I := ⟨_, rfl⟩
  rw [hI, hI'] at same
  have blocks : I * nBlocks + c / 16 = I' * nBlocks + c' / 16 := by
    zify
    omega
  obtain ⟨rows, columns⟩ := block_inj (by omega) (by omega) blocks
  rw [rows] at same
  omega

theorem blockAt_entry {I J i j : ℕ} (hi : i < BLOCK_SIZE) (hj : j < BLOCK_SIZE) :
    blockAt (blockOf nBlocks p I J) i j = entryAt nBlocks p (BLOCK_SIZE * I + i) (BLOCK_SIZE * J + j) := by
  simp only [entryAt, BLOCK_SIZE] at *
  rw [show (16 * I + i) / 16 = I by omega, show (16 * J + j) / 16 = J by omega,
    show (16 * I + i) % 16 = i by omega, show (16 * J + j) % 16 = j by omega]

theorem entry_lt {I i : ℕ} (hI : I < nBlocks) (hi : i < BLOCK_SIZE) : BLOCK_SIZE * I + i < order nBlocks := by
  simp only [order, BLOCK_SIZE] at *
  omega

theorem Holds.congr {A' : ℕ → ℕ → F} (holds : Holds nBlocks p m₀ m A)
    (same : ∀ r c, r < order nBlocks → c < order nBlocks → A' r c = A r c) : Holds nBlocks p m₀ m A' :=
  ⟨holds.mapped, holds.changes, fun r c hr hc => (holds.val r c hr hc).trans (same r c hr hc).symm⟩

theorem Holds.mapped_now (holds : Holds nBlocks p m₀ m A) {r c : ℕ} (hr : r < order nBlocks)
    (hc : c < order nBlocks) : m.mapped (entryAt nBlocks p r c) = true := by
  rw [holds.changes.mapped]
  exact holds.mapped r c hr hc

theorem Holds.load (holds : Holds nBlocks p m₀ m A) {r c : ℕ} (hr : r < order nBlocks)
    (hc : c < order nBlocks) : m.load (entryAt nBlocks p r c) = some (A r c) := by
  rw [load_mapped (holds.mapped_now hr hc), holds.val r c hr hc]

theorem Holds.store (holds : Holds nBlocks p m₀ m A) {r c : ℕ} (hr : r < order nBlocks)
    (hc : c < order nBlocks) (v : F) : ∃ m', m.store (entryAt nBlocks p r c) v = some m' ∧
      Holds nBlocks p m₀ m' (setEntry A r c v) := by
  refine ⟨_, store_mapped (holds.mapped_now hr hc), holds.mapped, ?_, ?_⟩
  · exact holds.changes.trans (Changes.write ⟨r, c, hr, hc, rfl⟩)
  · intro r' c' hr' hc'
    rw [setEntry]
    by_cases here : r' = r ∧ c' = c
    · rw [if_pos here, here.1, here.2, val_write_same]
    · rw [if_neg here, val_write_other fun same => here (entryAt_inj hc' hc same), holds.val r' c' hr' hc']

variable [Field F]

/-- `elem_daxmy` on `n` consecutive entries of two rows that do not overlap. -/
theorem elemDaxmy_spec (a : F) (n : ℕ) : ∀ {m : Memory F} {A : ℕ → ℕ → F} {x y : ℤ} {rx cx ry cy : ℕ},
    Holds nBlocks p m₀ m A → rx < order nBlocks → ry < order nBlocks → cx + n ≤ order nBlocks →
    cy + n ≤ order nBlocks → (∀ j < n, x + (j : ℕ) = entryAt nBlocks p rx (cx + j)) →
    (∀ j < n, y + (j : ℕ) = entryAt nBlocks p ry (cy + j)) → (rx ≠ ry ∨ cx + n ≤ cy ∨ cy + n ≤ cx) →
    ∃ m', elemDaxmy m a x y n = some m' ∧ Holds nBlocks p m₀ m' (fun r c =>
      if r = ry ∧ cy ≤ c ∧ c < cy + n then A r c - a * A rx (cx + (c - cy)) else A r c) := by
  induction n with
  | zero =>
    intro m A x y rx cx ry cy holds _ _ _ _ _ _ _
    refine ⟨m, rfl, holds.congr fun r c _ _ => if_neg (by omega)⟩
  | succ n ih =>
    intro m A x y rx cx ry cy holds hrx hry hcx hcy atx aty apart
    obtain ⟨m₁, stored, holds₁⟩ := holds.store hry (c := cy + n) (by omega)
      (A ry (cy + n) - a * A rx (cx + n))
    obtain ⟨m', run, holds'⟩ := ih holds₁ hrx hry (by omega) (by omega)
      (fun j h => atx j (by omega)) (fun j h => aty j (by omega)) (by omega)
    refine ⟨m', ?_, holds'.congr fun r c _ _ => ?_⟩
    · simp only [elemDaxmy, aty n (by omega), atx n (by omega), holds.load hry (c := cy + n) (by omega),
        holds.load hrx (c := cx + n) (by omega), stored, Option.bind_eq_bind, Option.bind_some]
      exact run
    · simp only [setEntry]
      by_cases last : r = ry ∧ c = cy + n
      · obtain ⟨rfl, rfl⟩ := last
        rw [if_pos (by omega), if_neg (by omega), if_pos ⟨rfl, rfl⟩, Nat.add_sub_cancel_left]
      · by_cases inside : r = ry ∧ cy ≤ c ∧ c < cy + n
        · have unread : ¬ (rx = ry ∧ cx + (c - cy) = cy + n) := by omega
          rw [if_pos (by omega), if_pos inside, if_neg last, if_neg unread]
        · rw [if_neg (by omega), if_neg inside, if_neg last]

/-- The same on rows `k` and `i` of two blocks, from column `s` to the end of the blocks. -/
theorem daxmy_rows (a : F) {I J I' J' i k s : ℕ} (holds : Holds nBlocks p m₀ m A) (hI : I < nBlocks)
    (hJ : J < nBlocks) (hI' : I' < nBlocks) (hJ' : J' < nBlocks) (hi : i < BLOCK_SIZE) (hk : k < BLOCK_SIZE)
    (hs : s ≤ BLOCK_SIZE) (apart : BLOCK_SIZE * I' + k ≠ BLOCK_SIZE * I + i ∨ J' ≠ J) :
    ∃ m', elemDaxmy m a (blockAt (blockOf nBlocks p I' J') k s) (blockAt (blockOf nBlocks p I J) i s)
        (BLOCK_SIZE - s) = some m' ∧
      Holds nBlocks p m₀ m' (fun r c =>
        if r = BLOCK_SIZE * I + i ∧ BLOCK_SIZE * J + s ≤ c ∧ c < BLOCK_SIZE * J + BLOCK_SIZE then
          A r c - a * A (BLOCK_SIZE * I' + k) (BLOCK_SIZE * J' + (c - BLOCK_SIZE * J))
        else A r c) := by
  have along {I J i j : ℕ} (hi : i < BLOCK_SIZE) (hj : j < BLOCK_SIZE - s) :
      blockAt (blockOf nBlocks p I J) i s + j =
        entryAt nBlocks p (BLOCK_SIZE * I + i) (BLOCK_SIZE * J + s + j) := by
    rw [add_assoc, ← blockAt_entry hi (by omega)]
    simp only [blockAt]
    omega
  have columns {J : ℕ} (hJ : J < nBlocks) : BLOCK_SIZE * J + s + (BLOCK_SIZE - s) ≤ order nBlocks := by
    simp only [order, BLOCK_SIZE] at *
    omega
  obtain ⟨m', run, holds'⟩ := elemDaxmy_spec a (BLOCK_SIZE - s) holds (entry_lt hI' hk) (entry_lt hI hi)
    (columns hJ') (columns hJ) (fun j h => along hk h) (fun j h => along hi h) (by simp only [BLOCK_SIZE] at *; omega)
  refine ⟨m', run, holds'.congr fun r c _ _ => ?_⟩
  by_cases inside : r = BLOCK_SIZE * I + i ∧ BLOCK_SIZE * J + s ≤ c ∧ c < BLOCK_SIZE * J + BLOCK_SIZE
  · rw [if_pos inside, if_pos (by omega)]
    congr 3
    omega
  · rw [if_neg inside, if_neg (by omega)]

/-! ### Windows -/

def window (A : ℕ → ℕ → F) (R C i j : ℕ) : F := A (R + i) (C + j)

/-- `n` rows from `R` on and `n` columns from `C` on. -/
def Within (R C n r c : ℕ) : Prop := (R ≤ r ∧ r < R + n) ∧ C ≤ c ∧ c < C + n

instance (R C n r c : ℕ) : Decidable (Within R C n r c) := by
  unfold Within
  infer_instance

def overwrite (A : ℕ → ℕ → F) (R C n : ℕ) (G : ℕ → ℕ → F) (r c : ℕ) : F :=
  if Within R C n r c then G r c else A r c

/-! ### Elimination with division -/

section Eliminate
variable (A G : ℕ → ℕ → F) (T : ℕ → ℕ → ℕ → F) (b b' : ℕ)

/-- Row `i` of the block at `(b, b')` after `q i` steps of elimination: so many entries are final, and
so many terms have been subtracted from the others. -/
def eliminated (q : ℕ → ℕ) (r c : ℕ) : F :=
  if Within b b' BLOCK_SIZE r c then
    if c < b' + q (r - b) then G r c else A r c - ∑ t ∈ Finset.range (q (r - b)), T (r - b) t (c - b')
  else A r c

variable {A G T b b'} {q : ℕ → ℕ}

theorem eliminated_final {i j : ℕ} (hi : i < BLOCK_SIZE) (hj : j < BLOCK_SIZE) (done : j < q i) :
    eliminated A G T b b' q (b + i) (b' + j) = G (b + i) (b' + j) := by
  rw [eliminated, if_pos ⟨by omega, by omega⟩, Nat.add_sub_cancel_left, if_pos (by omega)]

theorem eliminated_rest {i j : ℕ} (hi : i < BLOCK_SIZE) (hj : j < BLOCK_SIZE) (rest : q i ≤ j) :
    eliminated A G T b b' q (b + i) (b' + j) = A (b + i) (b' + j) - ∑ t ∈ Finset.range (q i), T i t j := by
  rw [eliminated, if_pos ⟨by omega, by omega⟩, Nat.add_sub_cancel_left, if_neg (by omega),
    Nat.add_sub_cancel_left]

theorem eliminated_outside {r c : ℕ} (outside : ¬ Within b b' BLOCK_SIZE r c) :
    eliminated A G T b b' q r c = A r c := if_neg outside

theorem Holds.eliminated_congr {q' : ℕ → ℕ} (holds : Holds nBlocks p m₀ m (eliminated A G T b b' q))
    (same : ∀ i < BLOCK_SIZE, q' i = q i) : Holds nBlocks p m₀ m (eliminated A G T b b' q') := by
  refine holds.congr fun r c _ _ => ?_
  by_cases within : Within b b' BLOCK_SIZE r c
  · rw [eliminated, eliminated, if_pos within, if_pos within, same _ (by have := within.1; omega)]
  · rw [eliminated_outside within, eliminated_outside within]

theorem Holds.eliminated_start (holds : Holds nBlocks p m₀ m A) (G : ℕ → ℕ → F) (T : ℕ → ℕ → ℕ → F)
    (b b' : ℕ) : Holds nBlocks p m₀ m (eliminated A G T b b' fun _ => 0) := by
  refine holds.congr fun r c _ _ => ?_
  by_cases within : Within b b' BLOCK_SIZE r c
  · rw [eliminated, if_pos within, if_neg (by have := within.2; omega), Finset.sum_range_zero, sub_zero]
  · rw [eliminated_outside within]

/-- A whole row is final once all its entries are. -/
theorem eliminated_done (all : ∀ i < BLOCK_SIZE, ∀ j < BLOCK_SIZE,
      eliminated A G T b b' q (b + i) (b' + j) = G (b + i) (b' + j)) (r c : ℕ) :
    overwrite A b b' BLOCK_SIZE G r c = eliminated A G T b b' q r c := by
  by_cases within : Within b b' BLOCK_SIZE r c
  · obtain ⟨i, rfl⟩ := Nat.exists_eq_add_of_le within.1.1
    obtain ⟨j, rfl⟩ := Nat.exists_eq_add_of_le within.2.1
    have hi := within.1.2
    have hj := within.2.2
    rw [overwrite, if_pos within, all i (by omega) j (by omega)]
  · rw [overwrite, if_neg within, eliminated_outside within]

/-- Storing entry `k` of row `i` and subtracting its multiple of a row `x` advances row `i`. -/
theorem eliminated_advance {i k : ℕ} {x : ℕ → F} (hi : i < BLOCK_SIZE) (hk : k < BLOCK_SIZE) (row : q i = k)
    (term : ∀ j, k < j → j < BLOCK_SIZE → G (b + i) (b' + k) * x j = T i k j) (r c : ℕ) :
    let S := setEntry (eliminated A G T b b' q) (b + i) (b' + k) (G (b + i) (b' + k))
    eliminated A G T b b' (Function.update q i (k + 1)) r c =
      if r = b + i ∧ b' + (k + 1) ≤ c ∧ c < b' + BLOCK_SIZE then
        S r c - G (b + i) (b' + k) * x (c - b') else S r c := by
  intro S
  by_cases within : Within b b' BLOCK_SIZE r c
  · obtain ⟨i', rfl⟩ := Nat.exists_eq_add_of_le within.1.1
    obtain ⟨j, rfl⟩ := Nat.exists_eq_add_of_le within.2.1
    have hi' : i' < BLOCK_SIZE := by have := within.1.2; omega
    have hj : j < BLOCK_SIZE := by have := within.2.2; omega
    by_cases here : i' = i
    · subst here
      rcases lt_trichotomy j k with less | rfl | more
      · have kept : S (b + i') (b' + j) = G (b + i') (b' + j) := by
          simp only [S, setEntry]
          rw [if_neg (by omega), eliminated_final hi hj (by omega)]
        rw [eliminated_final hi hj (by rw [Function.update_self]; omega), if_neg (by omega), kept]
      · have stored : S (b + i') (b' + j) = G (b + i') (b' + j) := if_pos ⟨rfl, rfl⟩
        rw [eliminated_final hi hj (by rw [Function.update_self]; omega), if_neg (by omega), stored]
      · have old : S (b + i') (b' + j) = A (b + i') (b' + j) - ∑ t ∈ Finset.range k, T i' t j := by
          simp only [S, setEntry]
          rw [if_neg (by omega), eliminated_rest hi hj (by omega), row]
        rw [eliminated_rest hi hj (by rw [Function.update_self]; omega), Function.update_self,
          if_pos (by omega), Nat.add_sub_cancel_left, old, term j more hj, Finset.sum_range_succ]
        ring
    · have kept : S (b + i') (b' + j) = eliminated A G T b b' q (b + i') (b' + j) := if_neg (by omega)
      rw [if_neg (by omega), kept, eliminated, eliminated, if_pos within, if_pos within,
        Nat.add_sub_cancel_left, Function.update_of_ne here]
  · have kept : S r c = A r c := by
      simp only [S, setEntry]
      rw [if_neg fun same => within ⟨by omega, by omega⟩, eliminated_outside within]
    rw [eliminated_outside within, if_neg fun same => within ⟨by omega, by omega⟩, kept]

/-- The loop body shared by `block_lu` and `block_upper_solve`. -/
def divideStep [DecidableEq F] (m : Memory F) (B U : ℤ) (i k : ℕ) : Option (Memory F) := do
  let value ← m.load (blockAt B i k)
  let pivot ← m.load (blockAt U k k)
  let factor ← divide value pivot
  let m ← m.store (blockAt B i k) factor
  let a ← m.load (blockAt B i k)
  elemDaxmy m a (blockAt U k (k + 1)) (blockAt B i (k + 1)) (BLOCK_SIZE - k - 1)

theorem divideStep_spec [DecidableEq F] {I J I' J' i k : ℕ} {d : F} {x : ℕ → F} (hI : I < nBlocks)
    (hJ : J < nBlocks) (hI' : I' < nBlocks) (hJ' : J' < nBlocks) (hi : i < BLOCK_SIZE) (hk : k < BLOCK_SIZE)
    (apart : BLOCK_SIZE * I' + k ≠ BLOCK_SIZE * I + i ∨ J' ≠ J) (row : q i = k)
    (holds : Holds nBlocks p m₀ m (eliminated A G T (BLOCK_SIZE * I) (BLOCK_SIZE * J) q))
    (value : eliminated A G T (BLOCK_SIZE * I) (BLOCK_SIZE * J) q (BLOCK_SIZE * I + i) (BLOCK_SIZE * J + k) =
      G (BLOCK_SIZE * I + i) (BLOCK_SIZE * J + k) * d) (pivot : d ≠ 0)
    (along : ∀ j, k ≤ j → j < BLOCK_SIZE → eliminated A G T (BLOCK_SIZE * I) (BLOCK_SIZE * J) q
      (BLOCK_SIZE * I' + k) (BLOCK_SIZE * J' + j) = x j) (diagonal : x k = d)
    (term : ∀ j, k < j → j < BLOCK_SIZE → G (BLOCK_SIZE * I + i) (BLOCK_SIZE * J + k) * x j = T i k j) :
    ∃ m', divideStep m (blockOf nBlocks p I J) (blockOf nBlocks p I' J') i k = some m' ∧
      Holds nBlocks p m₀ m'
        (eliminated A G T (BLOCK_SIZE * I) (BLOCK_SIZE * J) (Function.update q i (k + 1))) := by
  have quotient : divide (G (BLOCK_SIZE * I + i) (BLOCK_SIZE * J + k) * d) d =
      some (G (BLOCK_SIZE * I + i) (BLOCK_SIZE * J + k)) := by
    rw [divide, if_neg pivot, mul_div_cancel_right₀ _ pivot]
  obtain ⟨m₁, stored, holds₁⟩ := holds.store (entry_lt hI hi) (entry_lt hJ hk)
    (G (BLOCK_SIZE * I + i) (BLOCK_SIZE * J + k))
  obtain ⟨m', run, holds'⟩ := daxmy_rows (G (BLOCK_SIZE * I + i) (BLOCK_SIZE * J + k)) holds₁ hI hJ hI' hJ'
    hi hk hk apart
  refine ⟨m', ?_, holds'.congr fun r c _ _ => ?_⟩
  · have reread := holds₁.load (entry_lt hI hi) (entry_lt hJ hk)
    rw [setEntry, if_pos ⟨rfl, rfl⟩] at reread
    simp only [divideStep, blockAt_entry hi hk, blockAt_entry hk hk, holds.load (entry_lt hI hi) (entry_lt hJ hk),
      holds.load (entry_lt hI' hk) (entry_lt hJ' hk), value, along k le_rfl hk, diagonal, quotient, stored,
      reread, Option.bind_eq_bind, Option.bind_some, Nat.sub_sub]
    exact run
  · rw [eliminated_advance hi hk row term]
    by_cases here : r = BLOCK_SIZE * I + i ∧ BLOCK_SIZE * J + (k + 1) ≤ c ∧ c < BLOCK_SIZE * J + BLOCK_SIZE
    · rw [if_pos here, if_pos here]
      congr 2
      have other : ¬ (BLOCK_SIZE * I' + k = BLOCK_SIZE * I + i ∧
          BLOCK_SIZE * J' + (c - BLOCK_SIZE * J) = BLOCK_SIZE * J + k) := by
        simp only [BLOCK_SIZE] at *
        omega
      rw [setEntry, if_neg other, along _ (by omega) (by omega)]
    · rw [if_neg here, if_neg here]

end Eliminate

/-! ### Substitution and Schur complement -/

section Reduce
variable (A : ℕ → ℕ → F) (b b' : ℕ) (T : ℕ → ℕ → ℕ → F)

/-- Row `i` of the block at `(b, b')` after subtraction of its first `q i` terms. -/
def reduced (q : ℕ → ℕ) (r c : ℕ) : F :=
  if Within b b' BLOCK_SIZE r c then A r c - ∑ t ∈ Finset.range (q (r - b)), T (r - b) t (c - b') else A r c

variable {A b b' T} {q : ℕ → ℕ}

theorem reduced_entry {i j : ℕ} (hi : i < BLOCK_SIZE) (hj : j < BLOCK_SIZE) :
    reduced A b b' T q (b + i) (b' + j) = A (b + i) (b' + j) - ∑ t ∈ Finset.range (q i), T i t j := by
  rw [reduced, if_pos ⟨by omega, by omega⟩, Nat.add_sub_cancel_left, Nat.add_sub_cancel_left]

theorem reduced_outside {r c : ℕ} (outside : ¬ Within b b' BLOCK_SIZE r c) :
    reduced A b b' T q r c = A r c := if_neg outside

theorem Holds.reduced_congr {q' : ℕ → ℕ} (holds : Holds nBlocks p m₀ m (reduced A b b' T q))
    (same : ∀ i < BLOCK_SIZE, q' i = q i) : Holds nBlocks p m₀ m (reduced A b b' T q') := by
  refine holds.congr fun r c _ _ => ?_
  by_cases within : Within b b' BLOCK_SIZE r c
  · rw [reduced, reduced, if_pos within, if_pos within, same _ (by have := within.1; omega)]
  · rw [reduced_outside within, reduced_outside within]

theorem Holds.reduced_start (holds : Holds nBlocks p m₀ m A) (T : ℕ → ℕ → ℕ → F) (b b' : ℕ) :
    Holds nBlocks p m₀ m (reduced A b b' T fun _ => 0) := by
  refine holds.congr fun r c _ _ => ?_
  by_cases within : Within b b' BLOCK_SIZE r c
  · rw [reduced, if_pos within, Finset.sum_range_zero, sub_zero]
  · rw [reduced_outside within]

/-- Subtracting a multiple of a whole row from row `i` advances row `i` by one term. -/
theorem reduced_advance {a : F} {i k : ℕ} {x : ℕ → F} (hi : i < BLOCK_SIZE) (row : q i = k)
    (term : ∀ j < BLOCK_SIZE, a * x j = T i k j) (r c : ℕ) :
    reduced A b b' T (Function.update q i (k + 1)) r c =
      if r = b + i ∧ b' + 0 ≤ c ∧ c < b' + BLOCK_SIZE then
        reduced A b b' T q r c - a * x (c - b') else reduced A b b' T q r c := by
  by_cases within : Within b b' BLOCK_SIZE r c
  · obtain ⟨i', rfl⟩ := Nat.exists_eq_add_of_le within.1.1
    obtain ⟨j, rfl⟩ := Nat.exists_eq_add_of_le within.2.1
    have hi' : i' < BLOCK_SIZE := by have := within.1; omega
    have hj : j < BLOCK_SIZE := by have := within.2; omega
    rw [reduced_entry hi' hj, reduced_entry hi' hj]
    by_cases here : i' = i
    · subst here
      rw [if_pos ⟨rfl, by omega, by omega⟩, Function.update_self, row, Nat.add_sub_cancel_left, term j hj,
        Finset.sum_range_succ]
      ring
    · rw [if_neg (by omega), Function.update_of_ne here]
  · rw [reduced_outside within, reduced_outside within, if_neg fun same => within ⟨by omega, by omega⟩]

/-- The loop body shared by `block_lower_solve` and `block_schur`. -/
def rowStep (m : Memory F) (B L C : ℤ) (i k : ℕ) : Option (Memory F) := do
  let a ← m.load (blockAt L i k)
  elemDaxmy m a (blockAt C k 0) (blockAt B i 0) BLOCK_SIZE

theorem rowStep_spec {I J I₁ J₁ I₂ J₂ i k : ℕ} {a : F} {x : ℕ → F} (hI : I < nBlocks) (hJ : J < nBlocks)
    (hI₁ : I₁ < nBlocks) (hJ₁ : J₁ < nBlocks) (hI₂ : I₂ < nBlocks) (hJ₂ : J₂ < nBlocks) (hi : i < BLOCK_SIZE)
    (hk : k < BLOCK_SIZE) (apart : BLOCK_SIZE * I₂ + k ≠ BLOCK_SIZE * I + i ∨ J₂ ≠ J) (row : q i = k)
    (holds : Holds nBlocks p m₀ m (reduced A (BLOCK_SIZE * I) (BLOCK_SIZE * J) T q))
    (factor : reduced A (BLOCK_SIZE * I) (BLOCK_SIZE * J) T q (BLOCK_SIZE * I₁ + i) (BLOCK_SIZE * J₁ + k) = a)
    (along : ∀ j < BLOCK_SIZE, reduced A (BLOCK_SIZE * I) (BLOCK_SIZE * J) T q
      (BLOCK_SIZE * I₂ + k) (BLOCK_SIZE * J₂ + j) = x j)
    (term : ∀ j < BLOCK_SIZE, a * x j = T i k j) :
    ∃ m', rowStep m (blockOf nBlocks p I J) (blockOf nBlocks p I₁ J₁) (blockOf nBlocks p I₂ J₂) i k =
        some m' ∧
      Holds nBlocks p m₀ m' (reduced A (BLOCK_SIZE * I) (BLOCK_SIZE * J) T (Function.update q i (k + 1))) := by
  obtain ⟨m', run, holds'⟩ := daxmy_rows a holds hI hJ hI₂ hJ₂ hi hk (Nat.zero_le _) apart
  refine ⟨m', ?_, holds'.congr fun r c _ _ => ?_⟩
  · simp only [rowStep, blockAt_entry hi hk, holds.load (entry_lt hI₁ hi) (entry_lt hJ₁ hk), factor,
      Option.bind_eq_bind, Option.bind_some]
    exact run
  · rw [reduced_advance hi row term]
    by_cases here : r = BLOCK_SIZE * I + i ∧ BLOCK_SIZE * J + 0 ≤ c ∧ c < BLOCK_SIZE * J + BLOCK_SIZE
    · rw [if_pos here, if_pos here, along _ (by omega)]
    · rw [if_neg here, if_neg here]

/-- A pass over the rows, each of which subtracts its terms one after the other, with `count i` terms
in row `i`. -/
theorem rowSteps_spec {B L C : ℤ} {start : ℕ} {count : ℕ → ℕ} (first : start ≤ BLOCK_SIZE)
    (none : ∀ i < start, count i = 0) (holds : Holds nBlocks p m₀ m A)
    (step : ∀ m q i k, i < BLOCK_SIZE → k < count i → q i = k → (∀ i' < i, q i' = count i') →
      Holds nBlocks p m₀ m (reduced A b b' T q) →
      ∃ m', rowStep m B L C i k = some m' ∧
        Holds nBlocks p m₀ m' (reduced A b b' T (Function.update q i (k + 1)))) :
    ∃ m', forLoop start BLOCK_SIZE (fun m i => forLoop 0 (count i) (fun m k => rowStep m B L C i k) m) m =
        some m' ∧ Holds nBlocks p m₀ m' (reduced A b b' T count) := by
  have init : Holds nBlocks p m₀ m (reduced A b b' T fun i' => if i' < start then count i' else 0) := by
    refine (holds.reduced_start T b b').reduced_congr fun i' _ => ?_
    by_cases before : i' < start
    · rw [if_pos before, none i' before]
    · rw [if_neg before]
  obtain ⟨m', run, holds'⟩ := forLoop_invariant
    (fun i m => Holds nBlocks p m₀ m (reduced A b b' T fun i' => if i' < i then count i' else 0))
    first init (by
      intro i m lower upper outer
      obtain ⟨m', run, holds'⟩ := forLoop_invariant
        (fun k m => Holds nBlocks p m₀ m
          (reduced A b b' T fun i' => if i' < i then count i' else if i' = i then k else 0))
        (Nat.zero_le (count i)) (outer.reduced_congr fun i' _ => by split_ifs <;> rfl) (by
          intro k m _ inside inner
          obtain ⟨m', run, holds'⟩ := step m _ i k upper inside
            (by rw [if_neg (lt_irrefl i), if_pos rfl]) (fun i' before => if_pos before) inner
          refine ⟨m', run, holds'.reduced_congr fun i' _ => ?_⟩
          by_cases here : i' = i
          · rw [here, Function.update_self, if_neg (lt_irrefl i), if_pos rfl]
          · rw [Function.update_of_ne here, if_neg here, if_neg here])
      refine ⟨m', run, holds'.reduced_congr fun i' _ => ?_⟩
      rcases lt_trichotomy i' i with before | rfl | after
      · rw [if_pos (by omega), if_pos before]
      · rw [if_pos (by omega), if_neg (lt_irrefl i'), if_pos rfl]
      · rw [if_neg (by omega), if_neg (by omega), if_neg (by omega)])
  exact ⟨m', run, holds'.reduced_congr fun i' bound => (if_pos bound).symm⟩

end Reduce

/-! ### The block operations -/

section Specs
variable {G : ℕ → ℕ → F}

theorem outside_block {I J I' J' i j : ℕ} (apart : I' ≠ I ∨ J' ≠ J) (hi : i < BLOCK_SIZE)
    (hj : j < BLOCK_SIZE) :
    ¬ Within (BLOCK_SIZE * I) (BLOCK_SIZE * J) BLOCK_SIZE (BLOCK_SIZE * I' + i) (BLOCK_SIZE * J' + j) := by
  simp only [Within, BLOCK_SIZE] at *
  omega

/-- `A - V W` on the window of size `n` at `(R, C)`, for windows `V` and `W` at the given places. -/
def subtracted (A : ℕ → ℕ → F) (R C n R₁ C₁ R₂ C₂ r c : ℕ) : F :=
  if Within R C n r c then
    A r c - ∑ t ∈ Finset.range n, A (R₁ + (r - R)) (C₁ + t) * A (R₂ + t) (C₂ + (c - C))
  else A r c

/-- `G` solves `L G = A` on the window of size `n` at `(R, C)`, with `L` at `(R₁, C₁)`. -/
def LowerSolves (A : ℕ → ℕ → F) (R C n R₁ C₁ : ℕ) (G : ℕ → ℕ → F) : Prop :=
  ∀ i j, i < n → j < n → A (R + i) (C + j) =
    G (R + i) (C + j) + ∑ t ∈ Finset.range i, A (R₁ + i) (C₁ + t) * G (R + t) (C + j)

/-- `G` solves `G U = A` on the window of size `n` at `(R, C)`, with `U` at `(R₁, C₁)`. -/
def UpperSolves (A : ℕ → ℕ → F) (R C n R₁ C₁ : ℕ) (G : ℕ → ℕ → F) : Prop :=
  ∀ i j, i < n → j < n → A (R + i) (C + j) =
    ∑ t ∈ Finset.range j, G (R + i) (C + t) * A (R₁ + t) (C₁ + j) + G (R + i) (C + j) * A (R₁ + j) (C₁ + j)

theorem blockSchur_spec {I J I₁ J₁ I₂ J₂ : ℕ} (hI : I < nBlocks) (hJ : J < nBlocks) (hI₁ : I₁ < nBlocks)
    (hJ₁ : J₁ < nBlocks) (hI₂ : I₂ < nBlocks) (hJ₂ : J₂ < nBlocks) (apart₁ : I₁ ≠ I ∨ J₁ ≠ J)
    (apart₂ : I₂ ≠ I ∨ J₂ ≠ J) (holds : Holds nBlocks p m₀ m A) :
    ∃ m', blockSchur m (blockOf nBlocks p I J) (blockOf nBlocks p I₁ J₁) (blockOf nBlocks p I₂ J₂) =
        some m' ∧
      Holds nBlocks p m₀ m' (subtracted A (BLOCK_SIZE * I) (BLOCK_SIZE * J) BLOCK_SIZE (BLOCK_SIZE * I₁)
        (BLOCK_SIZE * J₁) (BLOCK_SIZE * I₂) (BLOCK_SIZE * J₂)) := by
  let T (i t j : ℕ) : F :=
    A (BLOCK_SIZE * I₁ + i) (BLOCK_SIZE * J₁ + t) * A (BLOCK_SIZE * I₂ + t) (BLOCK_SIZE * J₂ + j)
  have step (m : Memory F) (q : ℕ → ℕ) (i k : ℕ) (hi : i < BLOCK_SIZE) (hk : k < BLOCK_SIZE) (row : q i = k)
      (_ : ∀ i' < i, q i' = BLOCK_SIZE)
      (holds : Holds nBlocks p m₀ m (reduced A (BLOCK_SIZE * I) (BLOCK_SIZE * J) T q)) :=
    rowStep_spec hI hJ hI₁ hJ₁ hI₂ hJ₂ hi hk (by simp only [BLOCK_SIZE] at *; omega) row holds
      (reduced_outside (outside_block apart₁ hi hk))
      (fun j hj => reduced_outside (outside_block apart₂ hk hj)) fun j hj => rfl
  exact rowSteps_spec (Nat.zero_le _) (fun i none => absurd none (Nat.not_lt_zero i)) holds step

theorem blockLowerSolve_spec {I J I' J' : ℕ} (hI : I < nBlocks) (hJ : J < nBlocks) (hI' : I' < nBlocks)
    (hJ' : J' < nBlocks) (apart : I' ≠ I ∨ J' ≠ J) (holds : Holds nBlocks p m₀ m A)
    (solves : LowerSolves A (BLOCK_SIZE * I) (BLOCK_SIZE * J) BLOCK_SIZE (BLOCK_SIZE * I') (BLOCK_SIZE * J') G) :
    ∃ m', blockLowerSolve m (blockOf nBlocks p I J) (blockOf nBlocks p I' J') = some m' ∧
      Holds nBlocks p m₀ m' (overwrite A (BLOCK_SIZE * I) (BLOCK_SIZE * J) BLOCK_SIZE G) := by
  let T (i t j : ℕ) : F :=
    A (BLOCK_SIZE * I' + i) (BLOCK_SIZE * J' + t) * G (BLOCK_SIZE * I + t) (BLOCK_SIZE * J + j)
  have complete {q : ℕ → ℕ} {i j : ℕ} (hi : i < BLOCK_SIZE) (hj : j < BLOCK_SIZE) (row : q i = i) :
      reduced A (BLOCK_SIZE * I) (BLOCK_SIZE * J) T q (BLOCK_SIZE * I + i) (BLOCK_SIZE * J + j) =
        G (BLOCK_SIZE * I + i) (BLOCK_SIZE * J + j) := by
    rw [reduced_entry hi hj, row, solves i j hi hj, add_sub_cancel_right]
  have step (m : Memory F) (q : ℕ → ℕ) (i k : ℕ) (hi : i < BLOCK_SIZE) (below : k < i) (row : q i = k)
      (rows : ∀ i' < i, q i' = i')
      (holds : Holds nBlocks p m₀ m (reduced A (BLOCK_SIZE * I) (BLOCK_SIZE * J) T q)) :=
    rowStep_spec hI hJ hI' hJ' hI hJ hi (below.trans hi) (.inl (by omega)) row holds
      (reduced_outside (outside_block apart hi (below.trans hi)))
      (fun j hj => complete (below.trans hi) hj (rows k below)) fun j hj => rfl
  obtain ⟨m', run, holds'⟩ := rowSteps_spec (show 1 ≤ BLOCK_SIZE by decide) (by omega) holds step
  refine ⟨m', run, holds'.congr fun r c _ _ => ?_⟩
  by_cases within : Within (BLOCK_SIZE * I) (BLOCK_SIZE * J) BLOCK_SIZE r c
  · obtain ⟨i, rfl⟩ := Nat.exists_eq_add_of_le within.1.1
    obtain ⟨j, rfl⟩ := Nat.exists_eq_add_of_le within.2.1
    have hi := within.1.2
    have hj := within.2.2
    rw [overwrite, if_pos within, complete (by omega) (by omega) rfl]
  · rw [overwrite, if_neg within, reduced_outside within]

theorem blockUpperSolve_spec [DecidableEq F] {I J I' J' : ℕ} (hI : I < nBlocks) (hJ : J < nBlocks)
    (hI' : I' < nBlocks) (hJ' : J' < nBlocks) (apart : I' ≠ I ∨ J' ≠ J) (holds : Holds nBlocks p m₀ m A)
    (pivots : ∀ k < BLOCK_SIZE, A (BLOCK_SIZE * I' + k) (BLOCK_SIZE * J' + k) ≠ 0)
    (solves : UpperSolves A (BLOCK_SIZE * I) (BLOCK_SIZE * J) BLOCK_SIZE (BLOCK_SIZE * I') (BLOCK_SIZE * J') G) :
    ∃ m', blockUpperSolve m (blockOf nBlocks p I J) (blockOf nBlocks p I' J') = some m' ∧
      Holds nBlocks p m₀ m' (overwrite A (BLOCK_SIZE * I) (BLOCK_SIZE * J) BLOCK_SIZE G) := by
  let T (i t j : ℕ) : F :=
    G (BLOCK_SIZE * I + i) (BLOCK_SIZE * J + t) * A (BLOCK_SIZE * I' + t) (BLOCK_SIZE * J' + j)
  have inner (i : ℕ) (hi : i < BLOCK_SIZE) (m : Memory F)
      (outer : Holds nBlocks p m₀ m (eliminated A G T (BLOCK_SIZE * I) (BLOCK_SIZE * J)
        fun i' => if i' < i then BLOCK_SIZE else 0)) :
      ∃ m', forLoop 0 BLOCK_SIZE
          (fun m k => divideStep m (blockOf nBlocks p I J) (blockOf nBlocks p I' J') i k) m = some m' ∧
        Holds nBlocks p m₀ m' (eliminated A G T (BLOCK_SIZE * I) (BLOCK_SIZE * J)
          fun i' => if i' < i then BLOCK_SIZE else if i' = i then BLOCK_SIZE else 0) := by
    apply forLoop_invariant (fun k m => Holds nBlocks p m₀ m
      (eliminated A G T (BLOCK_SIZE * I) (BLOCK_SIZE * J)
        fun i' => if i' < i then BLOCK_SIZE else if i' = i then k else 0)) (Nat.zero_le BLOCK_SIZE)
    · exact outer.eliminated_congr fun i' _ => by split_ifs <;> rfl
    · intro k m _ hk inner
      have row : (if i < i then BLOCK_SIZE else if i = i then k else 0) = k := by
        rw [if_neg (lt_irrefl i), if_pos rfl]
      obtain ⟨m', run, holds'⟩ := divideStep_spec hI hJ hI' hJ' hi hk
        (by simp only [BLOCK_SIZE] at *; omega) row inner
        (by rw [eliminated_rest hi hk row.le, row, solves i k hi hk, add_sub_cancel_left])
        (pivots k hk) (fun j _ hj => eliminated_outside (outside_block apart hk hj)) rfl
        (fun j _ _ => rfl)
      refine ⟨m', run, holds'.eliminated_congr fun i' _ => ?_⟩
      by_cases here : i' = i
      · rw [here, Function.update_self, if_neg (lt_irrefl i), if_pos rfl]
      · rw [Function.update_of_ne here, if_neg here, if_neg here]
  have outer : ∃ m', blockUpperSolve m (blockOf nBlocks p I J) (blockOf nBlocks p I' J') = some m' ∧
      Holds nBlocks p m₀ m' (eliminated A G T (BLOCK_SIZE * I) (BLOCK_SIZE * J)
        fun i' => if i' < BLOCK_SIZE then BLOCK_SIZE else 0) := by
    apply forLoop_invariant (fun i m => Holds nBlocks p m₀ m
      (eliminated A G T (BLOCK_SIZE * I) (BLOCK_SIZE * J) fun i' => if i' < i then BLOCK_SIZE else 0))
      (Nat.zero_le BLOCK_SIZE)
    · exact (holds.eliminated_start G T _ _).eliminated_congr fun i' _ => if_neg (by omega)
    · intro i m _ hi outer
      obtain ⟨m', run, holds'⟩ := inner i hi m outer
      refine ⟨m', run, holds'.eliminated_congr fun i' _ => ?_⟩
      rcases lt_trichotomy i' i with before | rfl | after
      · rw [if_pos (by omega), if_pos before]
      · rw [if_pos (by omega), if_neg (lt_irrefl i'), if_pos rfl]
      · rw [if_neg (by omega), if_neg (by omega), if_neg (by omega)]
  obtain ⟨m', run, holds'⟩ := outer
  refine ⟨m', run, holds'.congr fun r c _ _ => eliminated_done (fun i hi j hj => ?_) r c⟩
  exact eliminated_final hi hj (by rw [if_pos hi]; exact hj)

theorem blockLu_spec [DecidableEq F] {I J : ℕ} (hI : I < nBlocks) (hJ : J < nBlocks)
    (holds : Holds nBlocks p m₀ m A)
    (pivots : ∀ i < BLOCK_SIZE, G (BLOCK_SIZE * I + i) (BLOCK_SIZE * J + i) ≠ 0)
    (factors : IsLU BLOCK_SIZE (window A (BLOCK_SIZE * I) (BLOCK_SIZE * J))
      (window G (BLOCK_SIZE * I) (BLOCK_SIZE * J))) :
    ∃ m', blockLu m (blockOf nBlocks p I J) = some m' ∧
      Holds nBlocks p m₀ m' (overwrite A (BLOCK_SIZE * I) (BLOCK_SIZE * J) BLOCK_SIZE G) := by
  let T (i t j : ℕ) : F :=
    G (BLOCK_SIZE * I + i) (BLOCK_SIZE * J + t) * G (BLOCK_SIZE * I + t) (BLOCK_SIZE * J + j)
  have complete {q : ℕ → ℕ} {i j : ℕ} (hi : i < BLOCK_SIZE) (hj : j < BLOCK_SIZE) (row : q i = i)
      (above : i ≤ j) : eliminated A G T (BLOCK_SIZE * I) (BLOCK_SIZE * J) q (BLOCK_SIZE * I + i)
        (BLOCK_SIZE * J + j) = G (BLOCK_SIZE * I + i) (BLOCK_SIZE * J + j) := by
    have entry := factors i j hi hj
    simp only [window, min_eq_left above, if_pos above] at entry
    rw [eliminated_rest hi hj (by omega), row, entry, add_sub_cancel_left]
  have inner (k : ℕ) (hk : k < BLOCK_SIZE) (m : Memory F)
      (outer : Holds nBlocks p m₀ m (eliminated A G T (BLOCK_SIZE * I) (BLOCK_SIZE * J) fun i => min k i)) :
      ∃ m', forLoop (k + 1) BLOCK_SIZE
          (fun m i => divideStep m (blockOf nBlocks p I J) (blockOf nBlocks p I J) i k) m = some m' ∧
        Holds nBlocks p m₀ m' (eliminated A G T (BLOCK_SIZE * I) (BLOCK_SIZE * J)
          fun i' => if k < i' ∧ i' < BLOCK_SIZE then k + 1 else min k i') := by
    apply forLoop_invariant (fun i m => Holds nBlocks p m₀ m
      (eliminated A G T (BLOCK_SIZE * I) (BLOCK_SIZE * J)
        fun i' => if k < i' ∧ i' < i then k + 1 else min k i')) hk
    · exact outer.eliminated_congr fun i' _ => if_neg (by omega)
    · intro i m lower hi inner
      have row : (if k < i ∧ i < i then k + 1 else min k i) = k := by
        rw [if_neg (by omega), min_eq_left (by omega)]
      have pivotRow : (if k < k ∧ k < i then k + 1 else min k k) = k := by
        rw [if_neg (by omega), min_self]
      have entry := factors i k hi hk
      simp only [window, min_eq_right (Nat.le_of_succ_le lower), if_neg (show ¬ i ≤ k by omega)] at entry
      obtain ⟨m', run, holds'⟩ := divideStep_spec hI hJ hI hJ hi hk (.inl (by omega)) row inner
        (by rw [eliminated_rest hi hk row.le, row, entry, add_sub_cancel_left])
        (pivots k hk) (fun j above hj => complete hk hj pivotRow above) rfl (fun j _ _ => rfl)
      refine ⟨m', run, holds'.eliminated_congr fun i' _ => ?_⟩
      by_cases here : i' = i
      · rw [here, Function.update_self, if_pos (by omega)]
      · rw [Function.update_of_ne here]
        exact if_congr (by omega) rfl rfl
  have outer : ∃ m', blockLu m (blockOf nBlocks p I J) = some m' ∧
      Holds nBlocks p m₀ m' (eliminated A G T (BLOCK_SIZE * I) (BLOCK_SIZE * J) fun i => min BLOCK_SIZE i) := by
    -- after `k` rounds every row has seen its first `k` pivots, as far as it has them
    apply forLoop_invariant (fun k m => Holds nBlocks p m₀ m
      (eliminated A G T (BLOCK_SIZE * I) (BLOCK_SIZE * J) fun i => min k i)) (Nat.zero_le BLOCK_SIZE)
    · exact (holds.eliminated_start G T _ _).eliminated_congr fun i' _ => Nat.zero_min i'
    · intro k m _ hk outer
      obtain ⟨m', run, holds'⟩ := inner k hk m outer
      refine ⟨m', run, holds'.eliminated_congr fun i' bound => ?_⟩
      split <;> omega
  obtain ⟨m', run, holds'⟩ := outer
  refine ⟨m', run, holds'.congr fun r c _ _ => eliminated_done (fun i hi j hj => ?_) r c⟩
  have row : min BLOCK_SIZE i = i := min_eq_right hi.le
  by_cases above : i ≤ j
  · exact complete hi hj row above
  · exact eliminated_final hi hj (by omega)

end Specs

end CilkArtifact.Lu
