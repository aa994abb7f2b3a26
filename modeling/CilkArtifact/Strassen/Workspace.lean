import CilkArtifact.Strassen.Multiply
import Mathlib.Tactic.Ring

/-! Where `OptimizedStrassenMultiply` puts its eleven temporary matrices: one block from `malloc`, aligned to 32 bytes
and cut into parts. Sizes are of type `unsigned` with 32 bits, addresses have 64. -/
namespace CilkArtifact.Strassen

def NumberOfVariables : ℕ := 11

/-- The temporary matrices in the order of their places. -/
inductive Variable where
  | S1 | S2 | S3 | S4 | S5 | S6 | S7 | S8 | M2 | M5 | T1sMULT
  deriving DecidableEq

def Variable.position : Variable → ℕ
  | S1 => 0
  | S2 => 1
  | S3 => 2
  | S4 => 3
  | S5 => 4
  | S6 => 5
  | S7 => 6
  | S8 => 7
  | M2 => 8
  | M5 => 9
  | T1sMULT => 10

/-- The value of an expression of type `PTR` or `size_t`. -/
def wide (v : ℕ) : ℕ := v % 2 ^ 64

/-- `sizeof(REAL) * QuadrantSize * QuadrantSize + 32`, which is stored as `unsigned`. -/
def quadrantSizeInBytes (QuadrantSize : ℕ) : ℕ := unsigned (wide (8 * QuadrantSize * QuadrantSize + 32))

/-- The argument of `malloc`. -/
def requestedBytes (QuadrantSize : ℕ) : ℕ := unsigned (quadrantSizeInBytes QuadrantSize * NumberOfVariables)

/-- The bump to a multiple of 32. -/
def alignHeap (Heap : ℕ) : ℕ := if Heap &&& 31 ≠ 0 then wide (wide (Heap + 32) - (Heap &&& 31)) else Heap

/-- `Heap` after it has been advanced `k` times. -/
def heapAfter (QuadrantSize StartHeap : ℕ) : ℕ → ℕ
  | 0 => alignHeap StartHeap
  | k + 1 => wide (heapAfter QuadrantSize StartHeap k + quadrantSizeInBytes QuadrantSize)

def Variable.address (v : Variable) (QuadrantSize StartHeap : ℕ) : ℕ := heapAfter QuadrantSize StartHeap v.position

/-- The test of the matrix size in `main`. -/
def mainAccepts (n : ℕ) : Bool := n &&& (n - 1) = 0 ∧ n % 16 = 0

/-- The sizes of the recursive calls below a call for `n`. -/
inductive Calls (n : ℕ) : ℕ → Prop
  | top : Calls n n
  | quadrant {MatrixSize : ℕ} : Calls n MatrixSize → SizeAtWhichDivideAndConquerIsMoreEfficient < MatrixSize →
      Calls n (MatrixSize >>> 1)

/-- What `malloc` may return for a request of this size: a block that ends inside of the address space. -/
def MayReturn (bytes StartHeap : ℕ) : Prop := 0 < StartHeap ∧ StartHeap + bytes ≤ 2 ^ 64

/-- The temporary matrices are aligned, do not overlap and lie in the block. -/
structure Layout (QuadrantSize StartHeap : ℕ) : Prop where
  aligned : ∀ v : Variable, 32 ∣ v.address QuadrantSize StartHeap
  apart : ∀ v v' : Variable, v ≠ v' →
    v.address QuadrantSize StartHeap + 8 * (QuadrantSize * QuadrantSize) ≤ v'.address QuadrantSize StartHeap ∨
    v'.address QuadrantSize StartHeap + 8 * (QuadrantSize * QuadrantSize) ≤ v.address QuadrantSize StartHeap
  first : ∀ v : Variable, StartHeap ≤ v.address QuadrantSize StartHeap
  last : ∀ v : Variable, v.address QuadrantSize StartHeap + 8 * (QuadrantSize * QuadrantSize) ≤
    StartHeap + requestedBytes QuadrantSize

/-- Every call for a matrix above the cutoff finds room for its temporary matrices, wherever `malloc` puts them. -/
def WorkspaceFits (n : ℕ) : Prop :=
  ∀ MatrixSize, Calls n MatrixSize → SizeAtWhichDivideAndConquerIsMoreEfficient < MatrixSize →
    ∀ StartHeap, MayReturn (requestedBytes (MatrixSize >>> 1)) StartHeap → Layout (MatrixSize >>> 1) StartHeap

/-! ### Sizes without overflow -/

section Layout
variable {q a k : ℕ}

theorem position_lt (v : Variable) : v.position < NumberOfVariables := by cases v <;> decide

theorem position_inj {v v' : Variable} (same : v.position = v'.position) : v = v' := by
  cases v <;> cases v' <;> first | rfl | cases same

theorem wide_of_lt {v : ℕ} (small : v < 2 ^ 64) : wide v = v := Nat.mod_eq_of_lt small

theorem alignHeap_bounds (bound : a + 32 < 2 ^ 64) :
    a ≤ alignHeap a ∧ alignHeap a < a + 32 ∧ 32 ∣ alignHeap a := by
  have mask : a &&& 31 = a % 32 := Nat.and_two_pow_sub_one_eq_mod a 5
  rw [alignHeap, mask, wide_of_lt bound]
  by_cases unaligned : a % 32 ≠ 0
  · rw [if_pos unaligned, wide_of_lt (by omega)]
    omega
  · rw [if_neg unaligned]
    omega

/-- Quadrants of up to 4096 rows. -/
theorem quadrantSizeInBytes_eq (small : q ≤ 4096) : quadrantSizeInBytes q = 8 * (q * q) + 32 := by
  have square : q * q ≤ 4096 * 4096 := Nat.mul_le_mul small small
  rw [quadrantSizeInBytes, Nat.mul_assoc, wide_of_lt (by omega), unsigned, Nat.mod_eq_of_lt (by omega)]

theorem requestedBytes_eq (small : q ≤ 4096) : requestedBytes q = 11 * (8 * (q * q) + 32) := by
  have square : q * q ≤ 4096 * 4096 := Nat.mul_le_mul small small
  rw [requestedBytes, quadrantSizeInBytes_eq small, NumberOfVariables, Nat.mul_comm, unsigned,
    Nat.mod_eq_of_lt (by omega)]

theorem heapAfter_eq (small : q ≤ 4096) (returned : MayReturn (requestedBytes q) a) (inside : k < NumberOfVariables) :
    heapAfter q a k = alignHeap a + k * (8 * (q * q) + 32) := by
  obtain ⟨_, bound⟩ := returned
  rw [requestedBytes_eq small] at bound
  obtain ⟨_, bump, _⟩ := alignHeap_bounds (a := a) (by omega)
  induction k with
  | zero => rw [heapAfter, Nat.zero_mul, Nat.add_zero]
  | succ k ih =>
    have parts : (k + 1) * (8 * (q * q) + 32) ≤ 10 * (8 * (q * q) + 32) :=
      Nat.mul_le_mul_right _ (Nat.le_of_lt_succ inside)
    rw [Nat.add_one_mul k] at parts ⊢
    rw [heapAfter, ih (Nat.lt_of_succ_lt inside), quadrantSizeInBytes_eq small, wide_of_lt (by omega), Nat.add_assoc]

theorem layout_of_small (small : q ≤ 4096) (even : 2 ∣ q) (returned : MayReturn (requestedBytes q) a) : Layout q a := by
  have address : ∀ v : Variable, v.address q a = alignHeap a + v.position * (8 * (q * q) + 32) :=
    fun v => heapAfter_eq small returned (position_lt v)
  obtain ⟨_, bound⟩ := returned
  have request := requestedBytes_eq small
  rw [request] at bound
  obtain ⟨lower, bump, aligned⟩ := alignHeap_bounds (a := a) (by omega)
  have size : 32 ∣ 8 * (q * q) + 32 := by
    obtain ⟨h, rfl⟩ := even
    exact ⟨h * h + 1, by ring⟩
  constructor
  · intro v
    rw [address]
    exact Nat.dvd_add aligned (Nat.dvd_mul_left_of_dvd size _)
  · intro v v' different
    rw [address, address]
    have order : ∀ {m m' : ℕ}, m < m' → m * (8 * (q * q) + 32) + (8 * (q * q) + 32) ≤ m' * (8 * (q * q) + 32) := by
      intro m m' less
      rw [← Nat.add_one_mul m]
      exact Nat.mul_le_mul_right _ less
    rcases Nat.lt_or_gt_of_ne (fun same => different (position_inj same)) with less | greater
    · have := order less
      omega
    · have := order greater
      omega
  · intro v
    rw [address]
    omega
  · intro v
    have last : v.position * (8 * (q * q) + 32) ≤ 10 * (8 * (q * q) + 32) :=
      Nat.mul_le_mul_right _ (Nat.le_of_lt_succ (position_lt v))
    rw [address, request]
    omega

/-- The request for quadrants of 8192 rows wraps around. -/
theorem not_layout_large : MayReturn (requestedBytes 8192) 32 ∧ ¬Layout 8192 32 := by
  refine ⟨⟨by decide, by decide⟩, fun layout => ?_⟩
  have last := layout.last .T1sMULT
  exact absurd last (by decide)

end Layout

/-! ### The recursion -/

section Recursion
variable {n m k : ℕ}

theorem half_power (l : ℕ) : 2 ^ (l + 1) >>> 1 = 2 ^ l := by
  rw [Nat.shiftRight_eq_div_pow, Nat.pow_succ, Nat.pow_one, Nat.mul_div_cancel _ Nat.two_pos]

theorem calls_power (calls : Calls (2 ^ k) m) : ∃ l ≤ k, m = 2 ^ l := by
  induction calls with
  | top => exact ⟨k, Nat.le_refl k, rfl⟩
  | quadrant _ above ih =>
    obtain ⟨l, bound, rfl⟩ := ih
    cases l with
    | zero => exact absurd above (by decide)
    | succ l => exact ⟨l, (Nat.le_succ l).trans bound, half_power l⟩

theorem calls_below {l : ℕ} (least : 6 ≤ l) (bound : l ≤ k) : Calls (2 ^ k) (2 ^ l) := by
  obtain ⟨d, rfl⟩ := Nat.exists_eq_add_of_le bound
  clear bound
  induction d generalizing l with
  | zero => exact .top
  | succ d ih =>
    have next := ih (l := l + 1) (by omega)
    have above : SizeAtWhichDivideAndConquerIsMoreEfficient < 2 ^ (l + 1) := by
      have := Nat.pow_le_pow_right Nat.two_pos (Nat.succ_le_succ least)
      rw [SizeAtWhichDivideAndConquerIsMoreEfficient]
      omega
    rw [← half_power l, show l + (d + 1) = l + 1 + d by omega]
    exact .quadrant next above

theorem power_of_accepts (positive : 0 < n) (accepted : mainAccepts n = true) : ∃ k, n = 2 ^ k :=
  (Nat.and_sub_one_eq_zero_iff_isPowerOfTwo (Nat.pos_iff_ne_zero.mp positive)).mp (of_decide_eq_true accepted).1

theorem workspaceFits_of_small (small : 2 ^ k ≤ 8192) : WorkspaceFits (2 ^ k) := by
  intro m calls above a returned
  obtain ⟨l, bound, rfl⟩ := calls_power calls
  have largest : 2 ^ l ≤ 2 ^ k := Nat.pow_le_pow_right Nat.two_pos bound
  -- The sizes above the cutoff can be halved twice.
  obtain ⟨l, rfl⟩ : ∃ l', l = l' + 2 := by
    refine Nat.exists_eq_add_of_le' (not_lt.mp fun less => ?_)
    have := Nat.pow_le_pow_right Nat.two_pos (Nat.le_of_lt_succ less)
    rw [SizeAtWhichDivideAndConquerIsMoreEfficient] at above
    omega
  rw [half_power] at returned ⊢
  have double : 2 ^ (l + 2) = 2 ^ (l + 1) * 2 := Nat.pow_succ _ _
  exact layout_of_small (by omega) ⟨2 ^ l, by rw [Nat.pow_succ, Nat.mul_comm]⟩ returned

theorem WorkspaceFits.small (fits : WorkspaceFits (2 ^ k)) : 2 ^ k ≤ 8192 := by
  by_contra large
  have bound : 14 ≤ k := by
    by_contra less
    have := Nat.pow_le_pow_right Nat.two_pos (Nat.le_of_lt_succ (not_le.mp less))
    omega
  obtain ⟨returned, broken⟩ := not_layout_large
  exact broken (fits (2 ^ 14) (calls_below (by decide) bound) (by decide) 32 returned)

end Recursion

/-- The request is computed with 32 bits and wraps around from `n = 16384` on. -/
theorem workspace_fits_iff {n : ℕ} (positive : 0 < n) (accepted : mainAccepts n = true) :
    WorkspaceFits n ↔ n ≤ 8192 := by
  obtain ⟨k, rfl⟩ := power_of_accepts positive accepted
  exact ⟨WorkspaceFits.small, workspaceFits_of_small⟩

theorem workspace_fits_4096 : WorkspaceFits 4096 :=
  (workspace_fits_iff (by decide) (by decide)).mpr (by decide)

theorem workspace_overflow : mainAccepts 16384 = true ∧ ¬WorkspaceFits 16384 :=
  ⟨by decide, fun fits => absurd (WorkspaceFits.small (k := 14) fits) (by decide)⟩

end CilkArtifact.Strassen
