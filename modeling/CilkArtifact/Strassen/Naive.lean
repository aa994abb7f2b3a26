import CilkArtifact.Strassen.Overflow

/-! The naive product `matrixmul` of `strassen.c` and the macro `strassen`, which are meant to agree. Indices of `ELEM`
have type `int`, and one that overflows fails the access. -/
namespace CilkArtifact.Strassen
open Buffer
variable {R : Type} {n rw p i j : ℕ} {x : Buffer ℕ R}

/-- The index of `ELEM(A, an, i, j)`. -/
def elemIndex (an i j : ℕ) : Option ℕ := if i * an + j < 2 ^ 31 then some (i * an + j) else none

/-- `ELEM(A, an, i, j)`, where `p` is the index of the first element. -/
def elem (x : Buffer ℕ R) (p an i j : ℕ) : Option R := do
  let k ← elemIndex an i j
  x.read (p + k)

/-- `ELEM(A, an, i, j) = v` -/
def setElem (x : Buffer ℕ R) (p an i j : ℕ) (v : R) : Option (Buffer ℕ R) := do
  let k ← elemIndex an i j
  x.write (p + k) v

/-- `s += ELEM(A, an, i, k) * ELEM(B, bn, k, j)` -/
def addTerm [Ring R] (array : Buffer ℕ R) (A B : Operand R) (an bn i j : ℕ) (s : R) (k : ℕ) : Option R := do
  let a ← elem (A.array array) A.index an i k
  let b ← elem (B.array array) B.index bn k j
  some (s + a * b)

def matrixmulEntry [Ring R] (n : ℕ) (A : Operand R) (an : ℕ) (B : Operand R) (bn C cn i : ℕ) (array : Buffer ℕ R)
    (j : ℕ) : Option (Buffer ℕ R) := do
  let s ← forLoop 0 n (addTerm array A B an bn i j) 0
  setElem array C cn i j s

/-- The product goes to the matrix at index `C` of the array. -/
def matrixmul [Ring R] (n : ℕ) (A : Operand R) (an : ℕ) (B : Operand R) (bn : ℕ) (array : Buffer ℕ R) (C cn : ℕ) :
    Option (Buffer ℕ R) :=
  forLoop 0 n (fun array i => forLoop 0 n (matrixmulEntry n A an B bn C cn i) array) array

/-- `#define strassen(n,A,an,B,bn,C,cn) OptimizedStrassenMultiply(C,A,B,n,cn,bn,an)` -/
def strassen [Ring R] (n : ℕ) (A : Operand R) (an : ℕ) (B : Operand R) (bn : ℕ) (array : Buffer ℕ R) (C cn : ℕ) :
    Option (Buffer ℕ R) :=
  optimizedStrassenMultiply n cn bn an array C A B

/-! ### Entries -/

/-- All indices of a matrix are values of type `int`. -/
def Indexed (n rw : ℕ) : Prop := extent n rw ≤ 2 ^ 31

theorem Indexed.index (indexed : Indexed n rw) (row : i < n) (column : j < n) :
    elemIndex rw i j = some (i * rw + j) := by
  have inside := row_extent row (Nat.succ_le_of_lt column) rw
  exact if_pos (by rw [Indexed] at indexed; omega)

theorem Indexed.elem {M : ℕ → ℕ → R} (indexed : Indexed n rw) (holds : Holds x p rw n n M) (row : i < n)
    (column : j < n) : elem x p rw i j = some (M i j) := by
  rw [Strassen.elem, indexed.index row column, Option.bind_eq_bind, Option.bind_some, ← Nat.add_assoc]
  exact holds i j row column

/-- The last index decides. -/
theorem indexed_of_last (nonempty : 0 < n) {k : ℕ} (last : elemIndex rw (n - 1) (n - 1) = some k) : Indexed n rw := by
  obtain ⟨bound, _⟩ := Option.ite_none_right_eq_some.mp last
  have corner := last_extent nonempty rw
  rw [Indexed]
  omega

theorem indexed_zero (rw : ℕ) : Indexed 0 rw := by
  rw [Indexed, extent, Nat.zero_sub, Nat.zero_mul]
  exact Nat.zero_le _

theorem elem_index {v : R} (found : elem x p rw i j = some v) : ∃ k, elemIndex rw i j = some k := by
  obtain ⟨k, index, _⟩ := Option.bind_eq_some_iff.mp found
  exact ⟨k, index⟩

/-! ### The naive product -/

section Product
variable [Ring R] {array array' : Buffer ℕ R} {A B : Operand R} {C an bn cn : ℕ} {a b : ℕ → ℕ → R}

theorem forLoop_addTerm (indexedA : Indexed n an) (indexedB : Indexed n bn) (left : A.Gives array an n a)
    (right : B.Gives array bn n b) (row : i < n) (column : j < n) :
    forLoop 0 n (addTerm array A B an bn i j) 0 = some (product n a b i j) := by
  refine forLoop_eq (fun k => product k a b i j) (Nat.zero_le n) (by simp [product]) ?_
  intro k _ bound
  have leftEntry := indexedA.elem left row bound
  have rightEntry := indexedB.elem right bound column
  simp only [addTerm, leftEntry, rightEntry, Option.bind_eq_bind, Option.bind_some, product_succ]

omit [Ring R] in
theorem setElem_assigns {v : R} {value : ℕ × ℕ → R} (indexedC : Indexed n cn) (room : Room array C cn n n) (row : i < n)
    (column : j < n) (same : value (i, j) = v) :
    ∃ array', setElem array C cn i j v = some array' ∧
      Assigns (entry C cn) value ((fun t => (i, j + t)) '' {t | t < 1}) array array' := by
  have cells : ∀ t < 1, entry C cn (i, j + t) = C + i * cn + j + t := fun t _ => by rw [entry, Nat.add_assoc _ j]
  have values : ∀ t < 1, value (i, j + t) = v := fun t bound => by
    rw [Nat.lt_one_iff.mp bound]
    exact same
  have inside : ∀ t < 1, array.inside (C + i * cn + j + t) = true := fun t bound => by
    rw [Nat.lt_one_iff.mp bound]
    exact room _ (mem_window row column)
  obtain ⟨array', run, assigns⟩ := writeRange_assigns 1 (fun t => (i, j + t)) cells values inside
  refine ⟨array', ?_, assigns⟩
  rw [setElem, indexedC.index row column, Option.bind_eq_bind, Option.bind_some, ← Nat.add_assoc]
  simpa [Buffer.writeRange] using run

/-- The entries before column `j` of row `i` hold the product. -/
def Partial (array₀ : Buffer ℕ R) (C cn n : ℕ) (a b : ℕ → ℕ → R) (i j : ℕ) (array : Buffer ℕ R) : Prop :=
  Assigns (entry C cn) (fun e => product n a b e.1 e.2) (before n i j) array₀ array

theorem Partial.changes {array₀ : Buffer ℕ R} (done : Partial array₀ C cn n a b i j array) (row : i < n) :
    Changes (window C cn n n) array₀ array := by
  apply Buffer.Changes.mono (Assigns.changes done)
  rw [window_eq_image]
  refine Set.image_mono fun e member => ?_
  obtain ⟨column, up | ⟨same, _⟩⟩ := member
  · exact ⟨up.trans row, column⟩
  · exact ⟨same ▸ row, column⟩

theorem matrixmulEntry_spec {array₀ : Buffer ℕ R} (indexedA : Indexed n an) (indexedB : Indexed n bn)
    (indexedC : Indexed n cn) (fits : n ≤ cn) (inputs : Inputs array₀ C A B n cn an bn a b) (row : i < n)
    (column : j < n) (done : Partial array₀ C cn n a b i j array) :
    ∃ array', matrixmulEntry n A an B bn C cn i array j = some array' ∧ Partial array₀ C cn n a b i (j + 1) array' := by
  have changes := done.changes row
  have sum := forLoop_addTerm indexedA indexedB (inputs.left.gives.changes changes inputs.left.apart)
    (inputs.right.gives.changes changes inputs.right.apart) row column
  have stored : ∃ array', setElem array C cn i j (product n a b i j) = some array' ∧ Assigns (entry C cn)
      (fun e => product n a b e.1 e.2) ((fun t => (i, j + t)) '' {t | t < 1}) array array' :=
    setElem_assigns indexedC (inputs.room.changes changes) row column rfl
  obtain ⟨array', run, assigns⟩ := stored
  refine ⟨array', ?_, ?_⟩
  · rw [matrixmulEntry, sum, Option.bind_eq_bind, Option.bind_some, run]
  · exact Assigns.append done assigns (before_add (Nat.succ_le_of_lt column))
      ((entry_injOn C cn).mono (before_sub_width fits))

theorem matrixmul_spec (indexedA : Indexed n an) (indexedB : Indexed n bn) (indexedC : Indexed n cn) (fits : n ≤ cn)
    (inputs : Inputs array C A B n cn an bn a b) :
    ∃ array', matrixmul n A an B bn array C cn = some array' ∧ Holds array' C cn n n (product n a b) := by
  have rows : ∃ array', matrixmul n A an B bn array C cn = some array' ∧ Partial array C cn n a b n 0 array' := by
    refine forLoop_invariant (fun i => Partial array C cn n a b i 0) (Nat.zero_le n) ?_ ?_
    · rw [Partial, before_zero]
      exact .empty array
    · intro i array₁ _ row done
      have columns : ∃ array₂, forLoop 0 n (matrixmulEntry n A an B bn C cn i) array₁ = some array₂ ∧
          Partial array C cn n a b i n array₂ :=
        forLoop_invariant (fun j => Partial array C cn n a b i j) (Nat.zero_le n) done
          fun j array₂ _ column done => matrixmulEntry_spec indexedA indexedB indexedC fits inputs row column done
      obtain ⟨array₂, run, done⟩ := columns
      refine ⟨array₂, run, ?_⟩
      rw [Partial, before_row]
      exact done
  obtain ⟨array', run, done⟩ := rows
  rw [Partial, before_all] at done
  exact ⟨array', run, done.holds inputs.room⟩

/-- A product that is returned has used the last index of every matrix. -/
theorem matrixmul_indexed (nonempty : 0 < n) (run : matrixmul n A an B bn array C cn = some array') :
    Indexed n an ∧ Indexed n bn ∧ Indexed n cn := by
  have last : n - 1 < n := Nat.sub_lt nonempty Nat.one_pos
  obtain ⟨array₁, array₂, row⟩ := forLoop_iterations (Nat.zero_le n) run (Nat.zero_le _) last
  obtain ⟨array₃, array₄, entry⟩ := forLoop_iterations (Nat.zero_le n) row (Nat.zero_le _) last
  obtain ⟨s, sum, stored⟩ := Option.bind_eq_some_iff.mp entry
  obtain ⟨t, t', term⟩ := forLoop_iterations (Nat.zero_le n) sum (Nat.zero_le _) last
  simp only [addTerm, Option.bind_eq_bind, Option.bind_eq_some_iff] at term
  obtain ⟨_, left, _, right, _⟩ := term
  obtain ⟨_, indexA⟩ := elem_index left
  obtain ⟨_, indexB⟩ := elem_index right
  obtain ⟨_, indexC, _⟩ := Option.bind_eq_some_iff.mp stored
  exact ⟨indexed_of_last nonempty indexA, indexed_of_last nonempty indexB, indexed_of_last nonempty indexC⟩

end Product

/-! ### The macro and the naive product -/

/-- An array of `size` elements. -/
structure Elements (x : Buffer ℕ R) (size : ℕ) : Prop where
  inside : ∀ k, x.inside k = decide (k < size)
  filled : ∀ k < size, ∃ v, x.cell k = some v

/-- Both products return from any matrices in arrays of exactly `n` rows, and leave the same matrix at `C`. -/
def Agrees (R : Type) [Ring R] (n an bn cn : ℕ) : Prop :=
  ∀ (A B array : Buffer ℕ R) (C : ℕ), Elements A (n * an) → Elements B (n * bn) → Room array C cn n n →
    ∃ array₁ array₂, strassen n (.there A 0) an (.there B 0) bn array C cn = some array₁ ∧
      matrixmul n (.there A 0) an (.there B 0) bn array C cn = some array₂ ∧
      ∀ i < n, ∀ j < n, ∃ v, array₁.read (C + i * cn + j) = some v ∧ array₂.read (C + i * cn + j) = some v

section Agreement
variable {an bn cn k : ℕ}

theorem Elements.holds [Ring R] (elements : Elements x (n * rw)) (fits : n ≤ rw) :
    Holds x 0 rw n n fun i j => (x.read (i * rw + j)).getD 0 := by
  intro i j row column
  have rows : i * rw + rw ≤ n * rw := by
    rw [← Nat.add_one_mul i]
    exact Nat.mul_le_mul_right rw row
  have inside : i * rw + j < n * rw := by omega
  obtain ⟨v, value⟩ := elements.filled _ inside
  have found : x.read (i * rw + j) = some v := by rw [read_eq (by rw [elements.inside, decide_eq_true inside]), value]
  rw [Nat.zero_add, found]
  change some v = some ((x.read (i * rw + j)).getD 0)
  rw [found, Option.getD_some]

theorem Indexed.fits (indexed : Indexed n rw) : Fits n rw := by
  have rows : (n / 2) * rw ≤ (n - 1) * rw := Nat.mul_le_mul_right rw (by omega)
  rw [Indexed, extent] at indexed
  rw [Fits, Nat.mul_comm]
  omega

theorem agrees_of_same [Ring R] (rowsA : 2 ^ (k + 4) ≤ an) (rowsC : 2 ^ (k + 4) ≤ cn)
    (indexedA : Indexed (2 ^ (k + 4)) an) (indexedC : Indexed (2 ^ (k + 4)) cn) : Agrees R (2 ^ (k + 4)) an an cn := by
  intro A B array C elementsA elementsB room
  have inputs : Inputs array C (.there A 0) (.there B 0) (2 ^ (k + 4)) cn an an _ _ :=
    ⟨room, Operand.supplies_there (elementsA.holds rowsA) _ _, Operand.supplies_there (elementsB.holds rowsA) _ _⟩
  have widthA : Width (2 ^ (k + 4)) an := ⟨rowsA, indexedA.fits⟩
  obtain ⟨array₁, run₁, holds₁, _⟩ := computesProduct_of_fits ⟨rowsC, indexedC.fits⟩ widthA widthA _ _ _ _ _ _ inputs
  obtain ⟨array₂, run₂, holds₂⟩ := matrixmul_spec indexedA indexedA indexedC rowsC inputs
  exact ⟨array₁, array₂, run₁, run₂, fun i row j column => ⟨_, holds₁ i j row column, holds₂ i j row column⟩⟩

/-- The array of `lastOneArray` with its exact size. -/
def lastOneElements (n rw : ℕ) : Buffer ℕ ℤ :=
  ⟨fun k => decide (k < n * rw), fun k => some (if k + 1 = extent n rw then 1 else 0)⟩

theorem lastOneElements_elements (n rw : ℕ) : Elements (lastOneElements n rw) (n * rw) :=
  ⟨fun _ => rfl, fun _ _ => ⟨_, rfl⟩⟩

theorem lastOneElements_read {m : ℕ} {v : ℤ} (found : (lastOneElements n rw).read m = some v) :
    v = if m + 1 = extent n rw then 1 else 0 := by
  obtain ⟨_, same⟩ := Option.ite_none_right_eq_some.mp found
  exact (Option.some.inj same).symm

theorem lastOneElements_zeroTo {length : ℕ} (short : length < extent n rw) :
    (Operand.there (lastOneElements n rw) 0).ZeroTo length := by
  intro m v below found
  rw [lastOneElements_read found, if_neg]
  omega

theorem lastOneElements_holds (fits : n ≤ rw) : Holds (lastOneElements n rw) 0 rw n n (lastOne n rw) := by
  intro i j row column
  have holds := (lastOneElements_elements n rw).holds fits i j row column
  rw [holds, lastOneElements_read holds, Nat.zero_add, lastOne]

theorem Agrees.same (rowsA : 2 ^ (k + 4) ≤ an) (rowsB : 2 ^ (k + 4) ≤ bn) (rowsC : 2 ^ (k + 4) ≤ cn)
    (agrees : Agrees ℤ (2 ^ (k + 4)) an bn cn) :
    an = bn ∧ Indexed (2 ^ (k + 4)) an ∧ Indexed (2 ^ (k + 4)) cn := by
  have nonempty : 0 < 2 ^ (k + 4) := Nat.two_pow_pos _
  have least : 1 < 2 ^ (k + 4) := Nat.one_lt_two_pow (by omega)
  have bounded := optimizedStrassenMultiply_bounded (R := ℤ) k rowsC rowsB rowsA
  have reaches : ∀ rw, reach (2 ^ (k + 3)) rw ≤ extent (2 ^ (k + 4)) rw := fun rw => by
    rw [double_pow (k + 3)]
    exact reach_le (Nat.two_pow_pos _) rw
  generalize 2 ^ (k + 4) = n at *
  have room : Room zeroArray 0 cn n n := fun _ _ => rfl
  obtain ⟨array₁, array₂, run₁, run₂, same⟩ :=
    agrees _ _ zeroArray 0 (lastOneElements_elements n an) (lastOneElements_elements n bn) room
  obtain ⟨indexedA, indexedB, indexedC⟩ := matrixmul_indexed nonempty run₂
  have inputs : Inputs zeroArray 0 (.there (lastOneElements n an) 0) (.there (lastOneElements n bn) 0) n cn an bn _ _ :=
    ⟨room, Operand.supplies_there (lastOneElements_holds rowsA) _ _,
      Operand.supplies_there (lastOneElements_holds rowsB) _ _⟩
  obtain ⟨array₃, run₃, holds⟩ := matrixmul_spec indexedA indexedB indexedC rowsC inputs
  obtain rfl : array₂ = array₃ := Option.some.inj (run₂.symm.trans run₃)
  have last : n - 1 < n := Nat.sub_lt nonempty Nat.one_pos
  obtain ⟨v, left, right⟩ := same (n - 1) last (n - 1) last
  rw [holds _ _ last last, product_lastOne nonempty, Option.some.injEq] at right
  rw [← right] at left
  -- The matrix that is read with rows that are too short never gives its last entry.
  have limited := bounded _ _ _ _ _ run₁
  have unread : ¬((Operand.there (lastOneElements n an) 0).ZeroTo (reach (2 ^ (k + 3)) bn) ∨
      (Operand.there (lastOneElements n bn) 0).ZeroTo (reach (2 ^ (k + 3)) an)) :=
    fun quiet => one_ne_zero (limited.zero quiet zeroArray_values _ _ left)
  have extents : ∀ {rw rw'}, rw < rw' → extent n rw < extent n rw' := by
    intro rw rw' less
    have rows : (n - 1) * rw < (n - 1) * rw' := Nat.mul_lt_mul_of_pos_left less (by omega)
    rw [extent, extent]
    omega
  refine ⟨?_, indexedA, indexedC⟩
  rcases Nat.lt_trichotomy an bn with less | equal | less
  · exact absurd (.inr (lastOneElements_zeroTo ((reaches an).trans_lt (extents less)))) unread
  · exact equal
  · exact absurd (.inl (lastOneElements_zeroTo ((reaches bn).trans_lt (extents less)))) unread

/-- The macro hands the row widths of `A` and `B` over in the wrong order. -/
theorem strassen_agrees_iff (power : n = 2 ^ k) (least : 16 ≤ n) (rowsA : n ≤ an) (rowsB : n ≤ bn) (rowsC : n ≤ cn) :
    (∀ (R : Type) [Ring R], Agrees R n an bn cn) ↔ an = bn ∧ extent n an ≤ 2 ^ 31 ∧ extent n cn ≤ 2 ^ 31 := by
  subst power
  obtain ⟨k, rfl⟩ := exists_exponent least
  constructor
  · intro agrees
    exact (agrees ℤ).same rowsA rowsB rowsC
  · rintro ⟨rfl, indexedA, indexedC⟩ R _
    exact agrees_of_same rowsA rowsC indexedA indexedC

theorem strassen_agrees_square : Agrees ℤ 16 16 16 20 :=
  (strassen_agrees_iff (k := 4) (by decide) (by decide) (by decide) (by decide) (by decide)).mpr (by decide) ℤ

theorem strassen_disagrees : ¬∀ (R : Type) [Ring R], Agrees R 16 16 17 16 := by
  intro agrees
  have equal := ((agrees ℤ).same (k := 0) (by decide) (by decide) (by decide)).1
  exact absurd equal (by decide)

end Agreement

end CilkArtifact.Strassen
