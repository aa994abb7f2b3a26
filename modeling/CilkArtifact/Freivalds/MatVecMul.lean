import CilkArtifact.Library.MatrixProduct
import CilkArtifact.Strassen.Naive
import CilkArtifact.Library.CInt

/-! `mat_vec_mul`, which `matmul.c` and `strassen.c` each have for the random check of a product. The two differ in how
they find the entries of the matrix: `strassen.c` does it with `ELEM`. -/
/-- The array of the result. A function that calls itself is applied to it with `|>.`. -/
abbrev CilkArtifact.Freivalds (R : Type) := Buffer ℕ R

namespace CilkArtifact.Freivalds
open Buffer Finset
variable {R : Type} [Semiring R]

section Definitions

/-- The offsets of an entry, of a row and of a column. -/
structure Access where
  entry : ℕ → ℕ → Option ℕ
  row : ℕ → Option ℕ
  column : ℕ → Option ℕ

variable (access : Access) (a v : Buffer ℕ R)

/-- `c += A[i * ld + j] * R[j]` -/
def addTerm (A V i : ℕ) (c : R) (j : ℕ) : Option R := do
  let here ← access.entry i j
  let x ← a.read (A + here)
  let y ← v.read (V + j)
  some (c + x * y)

/-- `P[i] += c` or `P[i] = c` -/
def setEntry (add : Bool) (array : Buffer ℕ R) (P i : ℕ) (c : R) : Option (Buffer ℕ R) :=
  if add then do
    let old ← array.read (P + i)
    array.write (P + i) (old + c)
  else array.write (P + i) c

def baseCase (add : Bool) (array : Buffer ℕ R) (A V P m n : ℕ) : Option (Buffer ℕ R) :=
  forLoop 0 m (fun array i => do
    let c ← forLoop 0 n (addTerm access a v A V i) 0
    setEntry add array P i c) array

/-- What the two functions have in common. The second half of an inner product is always added. -/
def multiplyVector (add : Bool) (array : Freivalds R) (A V P m n : ℕ) : Option (Freivalds R) := do
  let total ← cint (m + n)
  if total ≤ 64 then baseCase access a v add array A V P m n
  else if n ≤ m then do
    let m1 := m / 2
    let array ← array |>.multiplyVector add A V P m1 n
    let offset ← access.row m1
    array |>.multiplyVector add (A + offset) V (P + m1) (m - m1) n
  else do
    let n1 := n / 2
    let array ← array |>.multiplyVector add A V P m n1
    let offset ← access.column n1
    array |>.multiplyVector true (A + offset) (V + n1) P m (n - n1)
partial_fixpoint

/-- `A[i * ld + j]`, `A + m1 * ld` and `A + n1` -/
def matmulAccess (ld : ℕ) : Access := ⟨fun i j => cint (i * ld + j), fun m1 => cint (m1 * ld), some⟩

/-- `ELEM(A, rw, i, j)`, `&ELEM(A, rw, m1, 0)` and `&ELEM(A, rw, 0, n1)` -/
def strassenAccess (rw : ℕ) : Access :=
  ⟨Strassen.elemIndex rw, fun m1 => Strassen.elemIndex rw m1 0, fun n1 => Strassen.elemIndex rw 0 n1⟩

/-- `mat_vec_mul` of `matmul.c` -/
def matVecMulOfMatmul (array : Buffer ℕ R) (A V P m n ld : ℕ) (add : Bool) : Option (Buffer ℕ R) :=
  multiplyVector (matmulAccess ld) a v add array A V P m n

/-- `mat_vec_mul` of `strassen.c` -/
def matVecMulOfStrassen (m n rw : ℕ) (A V : ℕ) (array : Buffer ℕ R) (P : ℕ) (add : Bool) : Option (Buffer ℕ R) :=
  multiplyVector (strassenAccess rw) a v add array A V P m n

end Definitions

/-! ### What a call leaves -/

/-- All offsets that are computed can be represented. -/
structure Fits (access : Access) (ld m n : ℕ) : Prop where
  total : m + n < 2 ^ 31
  entry : ∀ i j, i < m → j < n → access.entry i j = some (i * ld + j)
  row : ∀ i < m, access.row i = some (i * ld)
  column : ∀ j < n, access.column j = some j

variable {access : Access} {a v array array' : Buffer ℕ R} {ld A V P m n m1 n1 : ℕ} {x y z : ℕ → ℕ → R} {add : Bool}

theorem Fits.mono (fits : Fits access ld m n) (rows : m1 ≤ m) (columns : n1 ≤ n) : Fits access ld m1 n1 where
  total := by
    have := fits.total
    omega
  entry := fun i j hi hj => fits.entry i j (by omega) (by omega)
  row := fun i hi => fits.row i (by omega)
  column := fun j hj => fits.column j (by omega)

theorem addTerm_sum (fits : Fits access ld m n) (holdsA : Holds a A ld m n x) (holdsV : Holds v V 1 n 1 y) {i : ℕ}
    (row : i < m) : forLoop 0 n (addTerm access a v A V i) 0 = some (∑ j ∈ range n, x i j * y j 0) := by
  refine forLoop_eq (fun n => ∑ j ∈ range n, x i j * y j 0) (Nat.zero_le n) (sum_range_zero _).symm ?_
  intro j _ bound
  have left := holdsA i j row bound
  have right := holdsV j 0 bound Nat.one_pos
  rw [Nat.add_assoc] at left
  rw [Nat.mul_one, Nat.add_zero] at right
  simp only [addTerm, fits.entry i j row bound, left, right, Option.bind_eq_bind, Option.bind_some, sum_range_succ]

theorem setEntry_spec {i : ℕ} {c : R} (inside : array.inside (P + i) = true)
    (found : if add then array.read (P + i) = some (z i 0) else z i 0 = 0) :
    ∃ array', setEntry add array P i c = some array' ∧ Leaves 1 (P + i) 1 1 (fun _ _ => z i 0 + c) array array' := by
  obtain ⟨array', run, -, -⟩ := write_spec inside (z i 0 + c)
  obtain ⟨filled, changes⟩ := write_returns run
  refine ⟨array', ?_, leaves_entry filled changes⟩
  cases add with
  | true =>
    have old : array.read (P + i) = some (z i 0) := found
    simp only [setEntry, if_true, old, Option.bind_eq_bind, Option.bind_some, run]
  | false =>
    have zero : z i 0 = 0 := found
    rw [zero, zero_add] at run
    exact run

theorem baseCase_spec (fits : Fits access ld m n) (holdsA : Holds a A ld m n x) (holdsV : Holds v V 1 n 1 y)
    (room : Room array P 1 m 1) (found : Found add array P 1 m 1 z) :
    ∃ array', baseCase access a v add array A V P m n = some array' ∧
      Leaves 1 P m 1 (addProduct n x y z) array array' := by
  refine forLoop_invariant (fun i now => Leaves 1 P i 1 (addProduct n x y z) array now) (Nat.zero_le m)
    (.refl 1 P 1 _ array) ?_
  intro i now _ row above
  have inside : now.inside (P + i) = true := by
    have entry := room _ (mem_window row Nat.one_pos)
    rw [above.changes.inside]
    rwa [Nat.mul_one, Nat.add_zero] at entry
  have same : now.read (P + i * 1 + 0) = array.read (P + i * 1 + 0) := by
    apply read_changes above.changes
    rintro ⟨t, k, upper, column, place⟩
    omega
  have here := found.entry row Nat.one_pos same
  rw [Nat.mul_one, Nat.add_zero] at here
  obtain ⟨next, run, leaves⟩ := setEntry_spec (c := ∑ j ∈ range n, x i j * y j 0) inside here
  refine ⟨next, ?_, ?_⟩
  · rw [addTerm_sum fits holdsA holdsV row, Option.bind_eq_bind, Option.bind_some, run]
  · have last : Leaves 1 (P + i * 1) (i + 1 - i) 1 (fun _ _ => addProduct n x y z i 0) now next := by
      rw [Nat.mul_one, Nat.add_sub_cancel_left]
      exact leaves
    refine above.rows le_rfl (by omega) last (fun _ _ _ _ => rfl) fun t k inside column => ?_
    rw [show t = 0 by omega, show k = 0 by omega, Nat.add_zero]

/-! ### Recursion -/

/-- A call leaves the product, or adds it. -/
def Correct (access : Access) (a v : Buffer ℕ R) (ld : ℕ) (add : Bool) (m n : ℕ) : Prop :=
  ∀ ⦃array : Buffer ℕ R⦄ ⦃A V P : ℕ⦄ ⦃x y z : ℕ → ℕ → R⦄, Fits access ld m n → Holds a A ld m n x →
    Holds v V 1 n 1 y → Room array P 1 m 1 → Found add array P 1 m 1 z →
    ∃ array', multiplyVector access a v add array A V P m n = some array' ∧
      Leaves 1 P m 1 (addProduct n x y z) array array'

theorem multiplyVector_base (small : m + n ≤ 64) : Correct access a v ld add m n := by
  intro array A V P x y z fits holdsA holdsV room found
  rw [multiplyVector, cint_fits fits.total, Option.bind_eq_bind, Option.bind_some, if_pos small]
  exact baseCase_spec fits holdsA holdsV room found

theorem multiplyVector_rows (large : ¬ m + n ≤ 64) (tall : n ≤ m) (upper : Correct access a v ld add (m / 2) n)
    (lower : Correct access a v ld add (m - m / 2) n) : Correct access a v ld add m n := by
  intro array A V P x y z fits holdsA holdsV room found
  have split : m / 2 ≤ m := Nat.div_le_self m 2
  obtain ⟨array₁, run₁, first⟩ := upper (fits.mono split le_rfl) (fun i j hi hj => holdsA i j (hi.trans_le split) hj)
    holdsV (fun k member => room k (window_mono split le_rfl member)) (found.above split)
  have rest : Holds a (A + m / 2 * ld) ld (m - m / 2) n (part x (m / 2) 0) :=
    holdsA.part (show m / 2 + (m - m / 2) ≤ m by omega) (show 0 + n ≤ n by omega)
  have roomBelow : Room array (P + m / 2 * 1) 1 (m - m / 2) 1 := fun k member => room k (window_below split member)
  obtain ⟨array₂, run₂, second⟩ := lower (fits.mono (Nat.sub_le _ _) le_rfl) rest holdsV
    (roomBelow.changes first.changes) (found.below split le_rfl first.changes)
  refine ⟨array₂, ?_, first.rows le_rfl split second (fun _ _ _ _ => rfl) fun i k _ _ => ?_⟩
  · rw [Nat.mul_one] at run₂
    have offset := fits.row (m / 2) (by omega)
    rw [multiplyVector, cint_fits fits.total]
    simp only [Option.bind_eq_bind, Option.bind_some, if_neg large, if_pos tall, run₁, offset, run₂]
  · simp only [addProduct, part, Nat.zero_add]

theorem multiplyVector_inner (large : ¬ m + n ≤ 64) (flat : ¬ n ≤ m) (half : Correct access a v ld add m (n / 2))
    (rest : Correct access a v ld true m (n - n / 2)) : Correct access a v ld add m n := by
  intro array A V P x y z fits holdsA holdsV room found
  have split : n / 2 ≤ n := Nat.div_le_self n 2
  obtain ⟨array₁, run₁, first⟩ := half (fits.mono le_rfl split) (fun i j hi hj => holdsA i j hi (hj.trans_le split))
    (fun j k hj hk => holdsV j k (hj.trans_le split) hk) room found
  have right := holdsA.part (show 0 + m ≤ m by omega) (show n / 2 + (n - n / 2) ≤ n by omega)
  rw [Nat.zero_mul, Nat.add_zero] at right
  have below : Holds v (V + n / 2 * 1) 1 (n - n / 2) 1 (part y (n / 2) 0) :=
    holdsV.part (show n / 2 + (n - n / 2) ≤ n by omega) (show 0 + 1 ≤ 1 by omega)
  -- the first half is what the second one adds to
  have summed : Found true array₁ P 1 m 1 (addProduct (n / 2) x y z) := first.holds
  obtain ⟨array₂, run₂, second⟩ := rest (fits.mono le_rfl (Nat.sub_le _ _)) right below (room.changes first.changes)
    summed
  refine ⟨array₂, ?_, first.changes.trans second.changes, second.holds.congr fun i k _ _ => addProduct_inner split i k⟩
  rw [Nat.mul_one] at run₂
  have offset := fits.column (n / 2) (by omega)
  rw [multiplyVector, cint_fits fits.total]
  simp only [Option.bind_eq_bind, Option.bind_some, if_neg large, if_neg flat, run₁, offset, run₂]

theorem multiplyVector_spec (size : ℕ) : ∀ {add : Bool} {m n : ℕ}, m + n = size → Correct access a v ld add m n := by
  induction size using Nat.strongRecOn with
  | ind size ih =>
    intro add m n total
    by_cases small : m + n ≤ 64
    · exact multiplyVector_base small
    by_cases tall : n ≤ m
    · exact multiplyVector_rows small tall (ih (m / 2 + n) (by omega) rfl) (ih (m - m / 2 + n) (by omega) rfl)
    · exact multiplyVector_inner small tall (ih (m + n / 2) (by omega) rfl) (ih (m + (n - n / 2)) (by omega) rfl)

/-! ### The two functions -/

theorem matmulAccess_row (m1 : ℕ) : (matmulAccess ld).row m1 = (strassenAccess ld).row m1 := rfl

theorem matmulAccess_column {n1 : ℕ} (fits : n1 < 2 ^ 31) :
    (matmulAccess ld).column n1 = (strassenAccess ld).column n1 := by
  have index : 0 * ld + n1 = n1 := by omega
  simp only [matmulAccess, strassenAccess, Strassen.elemIndex, index, if_pos fits]

/-- The two functions are the same. -/
theorem multiplyVector_access (size : ℕ) : ∀ {add : Bool} {array : Buffer ℕ R} {A V P m n : ℕ}, m + n = size →
    multiplyVector (matmulAccess ld) a v add array A V P m n =
      multiplyVector (strassenAccess ld) a v add array A V P m n := by
  induction size using Nat.strongRecOn with
  | ind size ih =>
    intro add array A V P m n total
    rw [multiplyVector, multiplyVector]
    by_cases overflow : 2 ^ 31 ≤ m + n
    · rw [cint_overflow overflow]
      rfl
    have fits : m + n < 2 ^ 31 := Nat.not_le.mp overflow
    rw [cint_fits fits, Option.bind_eq_bind, Option.bind_some, Option.bind_eq_bind, Option.bind_some]
    by_cases small : m + n ≤ 64
    · rw [if_pos small, if_pos small]
      rfl
    rw [if_neg small, if_neg small]
    by_cases tall : n ≤ m
    · rw [if_pos tall, if_pos tall]
      dsimp only
      rw [ih (m / 2 + n) (by omega) rfl, matmulAccess_row]
      simp only [ih (m - m / 2 + n) (by omega) rfl]
    · rw [if_neg tall, if_neg tall]
      dsimp only
      rw [ih (m + n / 2) (by omega) rfl, matmulAccess_column (by omega)]
      simp only [ih (m + (n - n / 2)) (by omega) rfl]

theorem matVecMul_eq (array : Buffer ℕ R) (A V P m n ld : ℕ) (add : Bool) :
    matVecMulOfMatmul a v array A V P m n ld add = matVecMulOfStrassen a v m n ld A V array P add :=
  multiplyVector_access _ rfl

/-- All values of type `int` that are computed can be represented. -/
structure Indexed (m n ld : ℕ) : Prop where
  total : m + n < 2 ^ 31
  row : ∀ i < m, i * ld < 2 ^ 31
  entry : ∀ i j, i < m → j < n → i * ld + j < 2 ^ 31

theorem Indexed.fits (indexed : Indexed m n ld) : Fits (matmulAccess ld) ld m n where
  total := indexed.total
  entry := fun i j hi hj => cint_fits (indexed.entry i j hi hj)
  row := fun i hi => cint_fits (indexed.row i hi)
  column := fun _ _ => rfl

/-- Both functions leave the product of the matrix and the vector, or add it, if all indices are values of type
`int`. -/
theorem matVecMul_correct {y : ℕ → R} (indexed : Indexed m n ld) (holdsA : Holds a A ld m n x)
    (holdsV : ∀ j < n, v.read (V + j) = some (y j)) (room : ∀ i < m, array.inside (P + i) = true) :
    (∃ array', matVecMulOfMatmul a v array A V P m n ld false = some array' ∧
      (∀ i < m, array'.read (P + i) = some (∑ j ∈ range n, x i j * y j)) ∧ Changes (span P m) array array') ∧
    (∀ z : ℕ → R, (∀ i < m, array.read (P + i) = some (z i)) →
      ∃ array', matVecMulOfMatmul a v array A V P m n ld true = some array' ∧
        (∀ i < m, array'.read (P + i) = some (z i + ∑ j ∈ range n, x i j * y j)) ∧
        Changes (span P m) array array') ∧
    ∀ (array : Buffer ℕ R) (A V P m n ld : ℕ) (add : Bool),
      matVecMulOfMatmul a v array A V P m n ld add = matVecMulOfStrassen a v m n ld A V array P add := by
  have vector : Holds v V 1 n 1 fun j _ => y j := by
    intro j k hj hk
    rw [show V + j * 1 + k = V + j by omega, holdsV j hj]
  have rooms : Room array P 1 m 1 := by
    rintro _ ⟨i, k, hi, hk, rfl⟩
    rw [show P + i * 1 + k = P + i by omega, room i hi]
  have inside : window P 1 m 1 ⊆ span P m := by
    rintro _ ⟨i, k, hi, hk, rfl⟩
    rw [mem_span]
    omega
  have spec := @multiplyVector_spec R _ (matmulAccess ld) a v ld
  refine ⟨?_, fun z holdsP => ?_, fun _ _ _ _ _ _ _ _ => matVecMul_eq ..⟩
  · have blank : Found false array P 1 m 1 fun _ _ => 0 := fun _ _ _ _ => rfl
    obtain ⟨array', run, leaves⟩ := spec _ rfl indexed.fits holdsA vector rooms blank
    refine ⟨array', run, fun i hi => ?_, leaves.changes.mono inside⟩
    have entry := leaves.holds i 0 hi Nat.one_pos
    rwa [addProduct, zero_add, Nat.mul_one, Nat.add_zero] at entry
  · have found : Found true array P 1 m 1 fun i _ => z i := by
      intro i k hi hk
      rw [show P + i * 1 + k = P + i by omega, holdsP i hi]
    obtain ⟨array', run, leaves⟩ := spec _ rfl indexed.fits holdsA vector rooms found
    refine ⟨array', run, fun i hi => ?_, leaves.changes.mono inside⟩
    have entry := leaves.holds i 0 hi Nat.one_pos
    rwa [addProduct, Nat.mul_one, Nat.add_zero] at entry

/-- Ones times twos, with both dimensions halved. -/
theorem matVecMul_correct_hundred : ∃ array' : Buffer ℕ ℤ,
    matVecMulOfMatmul ⟨fun _ => true, fun _ => some 1⟩ ⟨fun _ => true, fun _ => some 2⟩ (raw 90) 0 0 0 90 100 120 false =
      some array' ∧ array'.read 89 = some 200 := by
  have indexed : Indexed 90 100 120 :=
    ⟨by decide, fun i hi => by omega, fun i j hi hj => by omega⟩
  have holdsA : Holds (⟨fun _ => true, fun _ => some 1⟩ : Buffer ℕ ℤ) 0 120 90 100 fun _ _ => 1 := fun _ _ _ _ => rfl
  have holdsV : ∀ j < 100, (⟨fun _ => true, fun _ => some 2⟩ : Buffer ℕ ℤ).read (0 + j) = some 2 := fun _ _ => rfl
  have room : ∀ i < 90, (raw 90 : Buffer ℕ ℤ).inside (0 + i) = true := by
    intro i hi
    apply decide_eq_true
    omega
  obtain ⟨⟨array', run, entries, -⟩, -⟩ := matVecMul_correct indexed holdsA holdsV room
  exact ⟨array', run, (entries 89 (by decide)).trans (by simp)⟩

/-- The offset of the lower half of `A` is `2 ^ 15 * 2 ^ 16`, which is no value of type `int`. -/
theorem matVecMul_overflows :
    let zeros : Buffer ℕ ℤ := ⟨fun _ => true, fun _ => some 0⟩
    1 ≤ 65536 ∧ Holds zeros 0 65536 65536 1 (fun _ _ => 0) ∧ zeros.read 0 = some 0 ∧
      (∀ i < 65536, zeros.inside i = true) ∧
      (¬ ∃ array', matVecMulOfMatmul zeros zeros zeros 0 0 0 65536 1 65536 false = some array') ∧
      ¬ ∃ array', matVecMulOfStrassen zeros zeros 65536 1 65536 0 0 zeros 0 false = some array' := by
  have total : cint (65536 + 1) = some 65537 := rfl
  have large : 2 ^ 31 ≤ 65536 / 2 * 65536 := by decide
  have overflow : (matmulAccess 65536).row (65536 / 2) = none := by
    rw [matmulAccess]
    exact cint_overflow large
  have fails (zeros : Buffer ℕ ℤ) : matVecMulOfMatmul zeros zeros zeros 0 0 0 65536 1 65536 false = none := by
    rw [matVecMulOfMatmul, multiplyVector, total]
    simp [overflow]
  refine ⟨by decide, fun _ _ _ _ => rfl, rfl, fun _ _ => rfl, ?_, ?_⟩
  · simp [fails]
  · simp [← matVecMul_eq, fails]

end CilkArtifact.Freivalds
