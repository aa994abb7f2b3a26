import CilkArtifact.Library.Window
import CilkArtifact.Strassen.Multiply

/-! The kernels add a product to the matrix at `C`, or assign it, as long as the widths of the rows in
bytes fit into 32 bits. -/
namespace CilkArtifact.Strassen
open Buffer Finset
variable {R : Type} {n rw rwC rwA rwB C : ℕ} {array array' : Buffer ℕ R} {A B : Operand R}

/-! ### Offsets in bytes -/

theorem unsigned_of_lt {v : ℕ} (small : v < 2 ^ 32) : unsigned v = v := Nat.mod_eq_of_lt small

theorem advance_width (p : ℕ) (small : rw < 2 ^ 29) : advance p (unsigned (rw <<< 3)) = p + rw := by
  rw [Nat.shiftLeft_eq, unsigned_of_lt (by omega), advance]
  omega

theorem bytesBetween_eq (fits : n ≤ rw) (small : rw < 2 ^ 29) : bytesBetween rw n = 8 * (rw - n) := by
  have difference : unsigned (rw + 2 ^ 32 - n) = rw - n := by
    rw [unsigned]
    omega
  rw [bytesBetween, difference, Nat.shiftLeft_eq, unsigned_of_lt (by omega)]
  omega

theorem advance_increment (p : ℕ) (fits : n ≤ rw) (small : rw < 2 ^ 29) :
    advance p (bytesBetween rw n) = p + (rw - n) := by
  rw [bytesBetween_eq fits small, advance, Nat.mul_div_cancel_left _ (by decide)]

/-! ### Operands -/

namespace Operand

/-- An operand in the array of `C` does not meet the cells that are written. -/
def Apart (A : Operand R) (rw n : ℕ) (S : Set ℕ) : Prop :=
  match A with
  | here i => ∀ k ∈ window i rw n n, k ∉ S
  | there _ _ => True

/-- The matrix that an operand points to. -/
def Gives (A : Operand R) (array : Buffer ℕ R) (rw n : ℕ) (a : ℕ → ℕ → R) : Prop :=
  Holds (A.array array) A.index rw n n a

variable {S T : Set ℕ} {a : ℕ → ℕ → R}

theorem Gives.changes (gives : A.Gives array rw n a) (changes : Changes S array array') (apart : A.Apart rw n S) :
    A.Gives array' rw n a := by
  cases A with
  | here i => exact Holds.changes gives changes apart
  | there x i => exact gives

theorem Apart.mono (apart : A.Apart rw n T) (sub : S ⊆ T) : A.Apart rw n S := by
  cases A with
  | here i => exact fun k member written => apart k member (sub written)
  | there x i => trivial

/-- A matrix that can be read while the cells of `S` are written. -/
structure Supplies (A : Operand R) (array : Buffer ℕ R) (rw n : ℕ) (a : ℕ → ℕ → R) (S : Set ℕ) : Prop where
  gives : A.Gives array rw n a
  apart : A.Apart rw n S

theorem supplies_there {x : Buffer ℕ R} (holds : Holds x C rw n n a) (array : Buffer ℕ R) (S : Set ℕ) :
    (there x C).Supplies array rw n a S := ⟨holds, trivial⟩

end Operand

/-- The matrices of a call, as they are before it. -/
structure Inputs (array : Buffer ℕ R) (C : ℕ) (A B : Operand R) (n rwC rwA rwB : ℕ) (a b : ℕ → ℕ → R) : Prop where
  room : Room array C rwC n n
  left : A.Supplies array rwA n a (window C rwC n n)
  right : B.Supplies array rwB n b (window C rwC n n)

/-! ### Rows and blocks -/

section Rows
variable {value : ℕ × ℕ → R}

/-- The entries before column `m` of row `i`, row by row. -/
def before (n i m : ℕ) : Set (ℕ × ℕ) := {e | e.2 < n ∧ (e.1 < i ∨ e.1 = i ∧ e.2 < m)}

theorem mem_before {i m : ℕ} {e : ℕ × ℕ} : e ∈ before n i m ↔ e.2 < n ∧ (e.1 < i ∨ e.1 = i ∧ e.2 < m) := Iff.rfl

theorem before_zero (n : ℕ) : before n 0 0 = ∅ := by
  refine Set.eq_empty_of_forall_notMem fun e member => ?_
  rw [mem_before] at member
  omega

theorem before_all (n : ℕ) : before n n 0 = {e | e.1 < n ∧ e.2 < n} := by
  ext e
  change e.2 < n ∧ (e.1 < n ∨ e.1 = n ∧ e.2 < 0) ↔ e.1 < n ∧ e.2 < n
  omega

theorem before_row (n i : ℕ) : before n (i + 1) 0 = before n i n := by
  ext e
  rw [mem_before, mem_before]
  omega

/-- The next `m` entries of a row. -/
theorem before_add {i k m : ℕ} (bound : k + m ≤ n) (e : ℕ × ℕ) :
    e ∈ before n i (k + m) ↔ e ∈ before n i k ∨ e ∈ (fun t => (i, k + t)) '' {t | t < m} := by
  obtain ⟨i', j⟩ := e
  constructor
  · rintro ⟨column, up | ⟨rfl, left⟩⟩
    · exact .inl ⟨column, .inl up⟩
    · rcases Nat.lt_or_ge j k with old | new
      · exact .inl ⟨column, .inr ⟨rfl, old⟩⟩
      · obtain ⟨t, rfl⟩ := Nat.exists_eq_add_of_le new
        exact .inr ⟨t, Nat.lt_of_add_lt_add_left left, rfl⟩
  · rintro (old | ⟨t, bound', same⟩)
    · rw [mem_before] at old ⊢
      omega
    · obtain ⟨rfl, rfl⟩ := same
      have inside : t < m := bound'
      rw [mem_before]
      omega

theorem before_sub_width {i m : ℕ} (fits : n ≤ rw) : before n i m ⊆ {e | e.2 < rw} :=
  fun _ member => lt_of_lt_of_le member.1 fits

/-- What an iteration for `Horizontal = 8 * h` in row `i` does. -/
def BlockStep (block : Cursor R → ℕ → Option (Cursor R)) (value : ℕ × ℕ → R) (rwC rwA C A i h : ℕ)
    (array : Buffer ℕ R) : Prop :=
  ∃ array', block ⟨array, C + i * rwC + 8 * h, A + i * rwA⟩ h =
      some ⟨array', C + i * rwC + 8 * (h + 1), A + i * rwA⟩ ∧
    Assigns (entry C rwC) value ((fun t => (i, 8 * h + t)) '' {t | t < 8}) array array'

theorem kernelRow_spec {block : Cursor R → ℕ → Option (Cursor R)} {A blocks i : ℕ} {array₀ : Buffer ℕ R}
    (fits : 8 * blocks ≤ rwC) (smallC : rwC < 2 ^ 29) (smallA : rwA < 2 ^ 29) (row : i < 8 * blocks)
    (assigns : Assigns (entry C rwC) value (before (8 * blocks) i 0) array array₀)
    (step : ∀ array' i h, i < 8 * blocks → 8 * h < 8 * blocks →
      Assigns (entry C rwC) value (before (8 * blocks) i (8 * h)) array array' →
      BlockStep block value rwC rwA C A i h array') :
    ∃ s, kernelRow block (8 * blocks) rwC rwA ⟨array₀, C + i * rwC, A + i * rwA⟩ i = some s ∧
      s.C = C + (i + 1) * rwC ∧ s.ARowStart = A + (i + 1) * rwA ∧
      Assigns (entry C rwC) value (before (8 * blocks) (i + 1) 0) array s.array := by
  let Done (h : ℕ) (s : Cursor R) : Prop := s.C = C + i * rwC + 8 * h ∧ s.ARowStart = A + i * rwA ∧
    Assigns (entry C rwC) value (before (8 * blocks) i (8 * h)) array s.array
  have loop : ∃ s, forLoop 0 blocks block ⟨array₀, C + i * rwC, A + i * rwA⟩ = some s ∧ Done blocks s := by
    apply forLoop_invariant Done (Nat.zero_le _) ⟨rfl, rfl, assigns⟩
    rintro h ⟨array₁, _, _⟩ _ bound ⟨rfl, rfl, assigns₁⟩
    obtain ⟨array₂, run, assigns₂⟩ := step array₁ i h row (by omega) assigns₁
    refine ⟨_, run, rfl, rfl, assigns₁.append assigns₂ ?_ ((entry_injOn C rwC).mono (before_sub_width fits))⟩
    rw [Nat.mul_succ]
    exact before_add (by omega)
  obtain ⟨⟨array', _, _⟩, run, rfl, rfl, after⟩ := loop
  have count : (8 * blocks + 7) / 8 = blocks := by omega
  refine ⟨⟨array', C + (i + 1) * rwC, A + (i + 1) * rwA⟩, ?_, rfl, rfl, ?_⟩
  · have nextC : C + i * rwC + 8 * blocks + (rwC - 8 * blocks) = C + (i + 1) * rwC := by
      rw [Nat.add_assoc, Nat.add_sub_cancel' fits, Nat.succ_mul, Nat.add_assoc]
    have nextA : A + i * rwA + rwA = A + (i + 1) * rwA := by rw [Nat.succ_mul, Nat.add_assoc]
    rw [kernelRow, count, run]
    simp only [Option.bind_eq_bind, Option.bind_some, advance_increment _ fits smallC, advance_width _ smallA, nextC,
      nextA]
  · rwa [before_row]

theorem kernel_spec {block : Cursor R → ℕ → Option (Cursor R)} {A : ℕ} (eight : 8 ∣ n) (fits : n ≤ rwC)
    (smallC : rwC < 2 ^ 29) (smallA : rwA < 2 ^ 29)
    (step : ∀ array' i h, i < n → 8 * h < n → Assigns (entry C rwC) value (before n i (8 * h)) array array' →
      BlockStep block value rwC rwA C A i h array') :
    ∃ array', kernel block array C A n rwC rwA = some array' ∧
      Assigns (entry C rwC) value {e | e.1 < n ∧ e.2 < n} array array' := by
  obtain ⟨blocks, rfl⟩ := eight
  let Done (i : ℕ) (s : Cursor R) : Prop := s.C = C + i * rwC ∧ s.ARowStart = A + i * rwA ∧
    Assigns (entry C rwC) value (before (8 * blocks) i 0) array s.array
  have loop : ∃ s, forLoop 0 (8 * blocks) (kernelRow block (8 * blocks) rwC rwA) ⟨array, C, A⟩ = some s ∧
      Done (8 * blocks) s := by
    refine forLoop_invariant Done (Nat.zero_le _) ⟨by simp, by simp, ?_⟩ ?_
    · rw [before_zero]
      exact .empty array
    · rintro i ⟨array₀, _, _⟩ _ row ⟨rfl, rfl, assigns⟩
      exact kernelRow_spec fits smallC smallA row assigns step
  obtain ⟨s, run, _, _, assigns⟩ := loop
  rw [before_all] at assigns
  refine ⟨s.array, ?_, assigns⟩
  rw [kernel, run]
  rfl

end Rows

section Blocks
variable {a b base : ℕ → ℕ → R} {i j p q : ℕ} {x y : Buffer ℕ R}

/-- Row `i` of the left matrix is at `p`. -/
def RowAt (x : Buffer ℕ R) (a : ℕ → ℕ → R) (n i p : ℕ) : Prop := ∀ k < n, x.read (p + k) = some (a i k)

/-- The columns from `j` on of the right matrix are at `q`. -/
def ColumnsAt (y : Buffer ℕ R) (b : ℕ → ℕ → R) (n rw j q : ℕ) : Prop :=
  ∀ k < n, ∀ t < 8, y.read (q + k * rw + t) = some (b k (j + t))

theorem ColumnsAt.readRange (columns : ColumnsAt y b n rw j q) {k : ℕ} (bound : k < n) :
    y.readRange (q + k * rw) 8 = some ((List.range 8).map fun t => b k (j + t)) :=
  readRange_range 8 (columns k bound)

variable [Ring R]

/-! ### Sums of products -/

theorem product_succ (n : ℕ) (a b : ℕ → ℕ → R) (i j : ℕ) :
    product (n + 1) a b i j = product n a b i j + a i n * b n j := sum_range_succ _ n

theorem accumulate_map (f g : ℕ → R) (v : R) (m : ℕ) :
    accumulate ((List.range m).map f) v ((List.range m).map g) = (List.range m).map fun t => f t + v * g t := by
  rw [accumulate, List.zipWith_map, List.zipWith_self]

theorem forLoop_nextProduct (row : RowAt x a n i p) (columns : ColumnsAt y b n rwB j q) (small : rwB < 2 ^ 29)
    (nonempty : 1 ≤ n) :
    forLoop 1 n (nextProduct x y (unsigned (rwB <<< 3)))
        ⟨p + 1, q, (List.range 8).map fun t => a i 0 * b 0 (j + t)⟩ =
      some ⟨p + n, q + (n - 1) * rwB, (List.range 8).map fun t => product n a b i (j + t)⟩ := by
  refine forLoop_eq
    (fun k => Sums.mk (p + k) (q + (k - 1) * rwB) ((List.range 8).map fun t => product k a b i (j + t)))
    nonempty ?_ ?_
  · simp only [product, sum_range_one, Nat.sub_self, Nat.zero_mul, Nat.add_zero]
  · intro k lower upper
    have next : q + (k - 1) * rwB + rwB = q + k * rwB := by
      rw [Nat.add_assoc, ← Nat.succ_mul, Nat.succ_eq_add_one, Nat.sub_add_cancel lower]
    simp only [nextProduct, row k upper, advance_width _ small, next, columns.readRange upper, accumulate_map,
      product_succ, Option.bind_eq_bind, Option.bind_some, Nat.add_sub_cancel, Nat.add_assoc]

theorem forLoop_addProduct (row : RowAt x a n i p) (columns : ColumnsAt y b n rwB j q) (small : rwB < 2 ^ 29)
    (f : ℕ → R) :
    forLoop 0 n (addProduct x y (unsigned (rwB <<< 3))) ⟨p, q, (List.range 8).map f⟩ =
      some ⟨p + n, q + n * rwB, (List.range 8).map fun t => f t + product n a b i (j + t)⟩ := by
  refine forLoop_eq
    (fun k => Sums.mk (p + k) (q + k * rwB) ((List.range 8).map fun t => f t + product k a b i (j + t)))
    (Nat.zero_le n) ?_ ?_
  · simp only [product, sum_range_zero, Nat.zero_mul, add_zero]
  · intro k _ upper
    have next : q + k * rwB + rwB = q + (k + 1) * rwB := by rw [Nat.succ_mul, Nat.add_assoc]
    simp only [addProduct, row k upper, advance_width _ small, next, columns.readRange upper, accumulate_map,
      product_succ, Option.bind_eq_bind, Option.bind_some, add_assoc]

/-! ### Kernels -/

/-- What the product is added to. -/
def initial (AdditiveMode : Bool) (base : ℕ → ℕ → R) (i j : ℕ) : R := if AdditiveMode then base i j else 0

def result (AdditiveMode : Bool) (base : ℕ → ℕ → R) (n : ℕ) (a b : ℕ → ℕ → R) (i j : ℕ) : R :=
  initial AdditiveMode base i j + product n a b i j

/-- The matrix at `C` receives the product of the matrices at `A` and `B` or the product is added to it. No other
cell changes. -/
def Multiplies (multiply : Multiplication R) (AdditiveMode : Bool) (n rwC rwA rwB : ℕ) : Prop :=
  ∀ array C A B (base a b : ℕ → ℕ → R), Inputs array C A B n rwC rwA rwB a b →
    (AdditiveMode = true → Holds array C rwC n n base) →
    ∃ array', multiply array C A B = some array' ∧ Holds array' C rwC n n (result AdditiveMode base n a b) ∧
      Changes (window C rwC n n) array array'

omit [Ring R] in
theorem storeSums_spec {h : ℕ} (value : ℕ × ℕ → R) (ARowStart BColumnStart : ℕ) (room : Room array C rwC n n)
    (row : i < n) (block : 8 * h + 8 ≤ n) (small : n < 2 ^ 29) :
    ∃ array', storeSums ⟨array, C + i * rwC + 8 * h, ARowStart⟩ n
        ⟨ARowStart + n, BColumnStart, (List.range 8).map fun t => value (i, 8 * h + t)⟩ =
        some ⟨array', C + i * rwC + 8 * (h + 1), ARowStart⟩ ∧
      Assigns (entry C rwC) value ((fun t => (i, 8 * h + t)) '' {t | t < 8}) array array' := by
  have cells : ∀ t < 8, entry C rwC (i, 8 * h + t) = C + i * rwC + 8 * h + t :=
    fun t _ => by rw [entry, Nat.add_assoc (C + i * rwC)]
  obtain ⟨array', run, assigns⟩ := writeRange_assigns (x := array) 8 (fun t => (i, 8 * h + t)) cells (fun t _ => rfl)
    (fun t bound => by
      rw [Nat.add_assoc]
      exact room _ (mem_window row (by omega)))
  refine ⟨array', ?_, assigns⟩
  have width : unsigned (n <<< 3) / 8 = n := by
    have := advance_width 0 small
    rw [advance] at this
    omega
  rw [storeSums]
  simp only [run, width, Option.bind_eq_bind, Option.bind_some, Nat.add_sub_cancel]
  rw [Nat.mul_succ, Nat.add_assoc _ (8 * h)]

/-- A kernel multiplies if each of its blocks computes eight entries. -/
theorem kernel_multiplies {block : Operand R → Operand R → Cursor R → ℕ → Option (Cursor R)} {AdditiveMode : Bool}
    (eight : 8 ∣ n) (fits : n ≤ rwC) (smallC : rwC < 2 ^ 29) (smallA : rwA < 2 ^ 29)
    (step : ∀ array C A B (base a b : ℕ → ℕ → R) i h, Room array C rwC n n → i < n → 8 * h + 8 ≤ n →
      (AdditiveMode = true → ∀ t < 8, array.read (C + i * rwC + 8 * h + t) = some (base i (8 * h + t))) →
      RowAt (A.array array) a n i (A.index + i * rwA) → ColumnsAt (B.array array) b n rwB (8 * h) (B.index + 8 * h) →
      BlockStep (block A B) (fun e => result AdditiveMode base n a b e.1 e.2) rwC rwA C A.index i h array) :
    Multiplies (fun array C A B => kernel (block A B) array C A.index n rwC rwA) AdditiveMode n rwC rwA rwB := by
  rintro array C A B base a b ⟨room, ⟨givesA, apartA⟩, ⟨givesB, apartB⟩⟩ holds
  have product : ∃ array', kernel (block A B) array C A.index n rwC rwA = some array' ∧
      Assigns (entry C rwC) (fun e => result AdditiveMode base n a b e.1 e.2) {e | e.1 < n ∧ e.2 < n} array
        array' := by
    apply kernel_spec eight fits smallC smallA
    intro array₁ i h row column assigns
    have last : 8 * h + 8 ≤ n := by omega
    have written : entry C rwC '' before n i (8 * h) ⊆ window C rwC n n := by
      rw [window_eq_image]
      refine Set.image_mono fun e member => ?_
      rw [mem_before] at member
      exact ⟨by omega, member.1⟩
    refine step array₁ C A B base a b i h (room.changes assigns.changes) row last ?_ ?_ ?_
    · intro additive t bound
      have other := assigns.read_other (e := (i, 8 * h + t)) (entry_injOn C rwC) (before_sub_width fits)
        (show 8 * h + t < rwC by omega) (by rw [mem_before]; omega)
      rw [entry] at other
      rw [Nat.add_assoc, other, holds additive i (8 * h + t) row (by omega)]
    · intro k bound
      exact givesA.changes assigns.changes (apartA.mono written) i k row bound
    · intro k bound t inside
      have entry := givesB.changes assigns.changes (apartB.mono written) k (8 * h + t) bound (by omega)
      rwa [Nat.add_right_comm B.index, Nat.add_assoc]
  obtain ⟨array', run, assigns⟩ := product
  have changes := assigns.changes
  rw [← window_eq_image] at changes
  exact ⟨array', run, Assigns.holds (M := result AdditiveMode base n a b) assigns room, changes⟩

theorem fastNaiveMatrixMultiply_spec (eight : 8 ∣ n) (nonempty : 0 < n) (fits : n ≤ rwC) (smallC : rwC < 2 ^ 29)
    (smallA : rwA < 2 ^ 29) (smallB : rwB < 2 ^ 29) :
    Multiplies (R := R) (fastNaiveMatrixMultiply n rwC rwA rwB) false n rwC rwA rwB := by
  apply kernel_multiplies eight fits smallC smallA
  intro array C A B base a b i h room row last _ rowA columnsB
  obtain ⟨array', run, assigns⟩ := storeSums_spec (fun e => result false base n a b e.1 e.2) (A.index + i * rwA)
    (B.index + 8 * h + (n - 1) * rwB) room row last (by omega)
  refine ⟨array', ?_, assigns⟩
  have first := rowA 0 nonempty
  have entries := columnsB.readRange nonempty
  have sums := forLoop_nextProduct rowA columnsB smallB nonempty
  rw [Nat.add_zero] at first
  rw [Nat.zero_mul, Nat.add_zero] at entries
  simp only [result, initial, Bool.false_eq_true, if_false, zero_add] at run
  simp only [naiveBlock, first, entries, List.map_map, Function.comp_def, sums, Option.bind_eq_bind, Option.bind_some,
    run]

theorem fastAdditiveNaiveMatrixMultiply_spec (eight : 8 ∣ n) (fits : n ≤ rwC) (smallC : rwC < 2 ^ 29)
    (smallA : rwA < 2 ^ 29) (smallB : rwB < 2 ^ 29) :
    Multiplies (R := R) (fastAdditiveNaiveMatrixMultiply n rwC rwA rwB) true n rwC rwA rwB := by
  apply kernel_multiplies eight fits smallC smallA
  intro array C A B base a b i h room row last holds rowA columnsB
  obtain ⟨array', run, assigns⟩ := storeSums_spec (fun e => result true base n a b e.1 e.2) (A.index + i * rwA)
    (B.index + 8 * h + n * rwB) room row last (by omega)
  refine ⟨array', ?_, assigns⟩
  have start := readRange_range 8 (holds rfl)
  have sums := forLoop_addProduct rowA columnsB smallB fun t => base i (8 * h + t)
  simp only [result, initial, if_true] at run
  simp only [additiveBlock, start, sums, Option.bind_eq_bind, Option.bind_some, run]

end Blocks

end CilkArtifact.Strassen
