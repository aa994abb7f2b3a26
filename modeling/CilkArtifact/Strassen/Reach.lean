import CilkArtifact.Strassen.Winograd

/-! What the multiplications can reach, whether or not their offsets overflow: cells of `C` from some index on are
never written, and zeros up to some index in `A` or `B` make all products zero. -/
namespace CilkArtifact.Strassen
open Buffer
variable {R : Type} {n q rw rwC rwA rwB C limit limit' : ℕ} {array array' array'' : Buffer ℕ R} {A B : Operand R}
  {quiet : Prop}

/-! ### Offsets -/

theorem unsigned_le (v : ℕ) : unsigned v ≤ v := Nat.mod_le v _

theorem advance_width_le (p rw : ℕ) : advance p (unsigned (rw <<< 3)) ≤ p + rw := by
  have bytes := unsigned_le (rw * 2 ^ 3)
  rw [advance, Nat.shiftLeft_eq]
  omega

theorem bytesBetween_le (fits : n ≤ rw) : bytesBetween rw n ≤ 8 * (rw - n) := by
  have difference : unsigned (rw + 2 ^ 32 - n) ≤ rw - n := by
    rw [unsigned, Nat.add_comm, Nat.add_sub_assoc fits, Nat.add_mod_left]
    exact Nat.mod_le _ _
  have bytes := unsigned_le (unsigned (rw + 2 ^ 32 - n) <<< 3)
  rw [Nat.shiftLeft_eq] at bytes
  rw [bytesBetween, Nat.shiftLeft_eq]
  omega

theorem advance_increment_le (p : ℕ) (fits : n ≤ rw) : advance p (bytesBetween rw n) ≤ p + (rw - n) := by
  have bytes := bytesBetween_le fits
  rw [advance]
  omega

/-- The number of cells from the first to the last entry of a matrix. -/
def extent (n rw : ℕ) : ℕ := (n - 1) * rw + n

theorem row_extent {i m : ℕ} (row : i < n) (column : m ≤ n) (rw : ℕ) : i * rw + m ≤ extent n rw := by
  have rows : i * rw ≤ (n - 1) * rw := Nat.mul_le_mul_right rw (by omega)
  rw [extent]
  omega

/-- The same for the four quadrants as they are placed. -/
def reach (q rw : ℕ) : ℕ := unsigned (rw * q) + q + extent q rw

theorem extent_double (positive : 0 < q) (rw : ℕ) : extent (q + q) rw = rw * q + q + extent q rw := by
  obtain ⟨p, rfl⟩ := Nat.exists_eq_add_of_lt positive
  rw [extent, extent, show 0 + p + 1 + (0 + p + 1) - 1 = (p + 1) + p by omega, show 0 + p + 1 - 1 = p by omega,
    Nat.add_mul, Nat.mul_comm rw, Nat.zero_add]
  omega

theorem reach_le (positive : 0 < q) (rw : ℕ) : reach q rw ≤ extent (q + q) rw := by
  have offset := unsigned_le (rw * q)
  rw [extent_double positive, reach]
  omega

/-- An overflow loses at least the last entry. -/
theorem reach_lt (positive : 0 < q) (overflow : 2 ^ 32 ≤ rw * q) : reach q rw < extent (q + q) rw := by
  have offset : unsigned (rw * q) < 2 ^ 32 := Nat.mod_lt _ (by decide)
  rw [extent_double positive, reach]
  omega

/-! ### Arrays -/

section Arrays
variable [Zero R]

/-- From `array` to `array'`, nothing changed from `limit` on and, if `quiet` holds, no value but zero appeared. -/
structure Limited (limit : ℕ) (quiet : Prop) (array array' : Buffer ℕ R) : Prop where
  above : ∀ k, limit ≤ k → array'.cell k = array.cell k
  zero : quiet → Values (· = 0) array → Values (· = 0) array'

theorem Limited.refl (limit : ℕ) (quiet : Prop) (array : Buffer ℕ R) : Limited limit quiet array array :=
  ⟨fun _ _ => rfl, fun _ values => values⟩

theorem Limited.trans (first : Limited limit quiet array array') (second : Limited limit quiet array' array'') :
    Limited limit quiet array array'' :=
  ⟨fun k above => (second.above k above).trans (first.above k above),
    fun holds values => second.zero holds (first.zero holds values)⟩

theorem Limited.mono {quiet' : Prop} (limited : Limited limit quiet array array') (le : limit ≤ limit')
    (implies : quiet' → quiet) : Limited limit' quiet' array array' :=
  ⟨fun k above => limited.above k (le.trans above), fun holds => limited.zero (implies holds)⟩

theorem Limited.assume (limited : Limited limit (quiet ∧ Values (· = 0) array) array array') :
    Limited limit quiet array array' :=
  ⟨limited.above, fun holds values => limited.zero ⟨holds, values⟩ values⟩

theorem Limited.writeRange {p : ℕ} {l : List R} (run : array.writeRange p l = some array')
    (bound : p + l.length ≤ limit) (new : quiet → Values (· = 0) array → ∀ v ∈ l, v = 0) :
    Limited limit quiet array array' :=
  ⟨fun _ above => writeRange_above run (bound.trans above),
    fun holds values => writeRange_values run (new holds values) values⟩

/-- All that is read through the operand up to `length` cells behind its index is zero. -/
def Operand.ZeroTo (A : Operand R) (length : ℕ) : Prop :=
  match A with
  | here _ => False
  | there x p => ValuesBelow (· = 0) (p + length) x

namespace Operand
variable {length length' : ℕ}

theorem ZeroTo.values (zero : A.ZeroTo length) (array : Buffer ℕ R) :
    ValuesBelow (· = 0) (A.index + length) (A.array array) := by
  cases A with
  | here i => exact zero.elim
  | there x p => exact zero

theorem ZeroTo.mono (zero : A.ZeroTo length) (le : length' ≤ length) : A.ZeroTo length' := by
  cases A with
  | here i => exact zero.elim
  | there x p =>
    intro k v below found
    exact zero k v (by omega) found

theorem ZeroTo.add {offset : ℕ} (zero : A.ZeroTo length) (le : offset + length' ≤ length) :
    (A.add offset).ZeroTo length' := by
  cases A with
  | here i => exact zero.elim
  | there x p =>
    intro k v below found
    exact zero k v (by omega) found

theorem ZeroTo.outside (zero : A.ZeroTo length) (array : Buffer ℕ R) : (A.outside array).ZeroTo length :=
  zero.values array

end Operand

/-- What a multiplication reaches if it returns. -/
def Bounded (multiply : Multiplication R) (lengthC lengthA lengthB : ℕ) : Prop :=
  ∀ array C A B array', multiply array C A B = some array' →
    Limited (C + lengthC) (A.ZeroTo lengthA ∨ B.ZeroTo lengthB) array array'

theorem Bounded.mono {multiply : Multiplication R} {lengthC lengthA lengthB lengthC' lengthA' lengthB' : ℕ}
    (bounded : Bounded multiply lengthC lengthA lengthB) (leC : lengthC ≤ lengthC') (leA : lengthA ≤ lengthA')
    (leB : lengthB ≤ lengthB') : Bounded multiply lengthC' lengthA' lengthB' := by
  intro array C A B array' run
  apply (bounded array C A B array' run).mono (by omega)
  exact Or.imp (fun zero => zero.mono leA) (fun zero => zero.mono leB)

end Arrays

/-! ### Kernels -/

section Kernels
variable [Ring R] {x y : Buffer ℕ R} {limitA limitB p b : ℕ} {last : Sums R}

/-- A list of `m` values, all zero if `quiet` holds. -/
def Zeros (m : ℕ) (quiet : Prop) (l : List R) : Prop := l.length = m ∧ (quiet → ∀ v ∈ l, v = 0)

/-- What `quiet` says about the arrays that are read. -/
def Quiets (quiet : Prop) (x y : Buffer ℕ R) (limitA limitB : ℕ) : Prop :=
  quiet → ValuesBelow (· = 0) limitA x ∨ ValuesBelow (· = 0) limitB y

omit [Ring R] in
theorem mem_zipWith {f : R → R → R} {l l' : List R} {v : R} (member : v ∈ List.zipWith f l l') :
    ∃ a ∈ l, ∃ a' ∈ l', v = f a a' := by
  obtain ⟨k, bound, same⟩ := List.getElem_of_mem member
  rw [List.getElem_zipWith] at same
  exact ⟨_, List.getElem_mem _, _, List.getElem_mem _, same.symm⟩

theorem accumulate_zero {sums entries : List R} {v : R} (quiets : Quiets quiet x y limitA limitB)
    (zero : Zeros 8 quiet sums) (value : x.read p = some v) (inA : p < limitA)
    (values : y.readRange b 8 = some entries) (inB : b + 8 ≤ limitB) : Zeros 8 quiet (accumulate sums v entries) := by
  constructor
  · rw [accumulate, List.length_zipWith, zero.1, readRange_length values, Nat.min_self]
  · intro holds w member
    obtain ⟨sum, inSums, entry, inEntries, rfl⟩ := mem_zipWith member
    rw [zero.2 holds sum inSums, zero_add]
    rcases quiets holds with left | right
    · rw [left p v inA value, zero_mul]
    · rw [readRange_values right inB values entry inEntries, mul_zero]

theorem forLoop_nextProduct_returns {sums : List R} (quiets : Quiets quiet x y limitA limitB)
    (nonempty : 1 ≤ n) (inA : p + n ≤ limitA) (inB : b + (n - 1) * rwB + 8 ≤ limitB) (zero : Zeros 8 quiet sums)
    (run : forLoop 1 n (nextProduct x y (unsigned (rwB <<< 3))) ⟨p + 1, b, sums⟩ = some last) :
    last.ARowStart = p + n ∧ Zeros 8 quiet last.sums := by
  let Inv (k : ℕ) (s : Sums R) : Prop :=
    s.ARowStart = p + k ∧ s.BColumnStart ≤ b + (k - 1) * rwB ∧ Zeros 8 quiet s.sums
  have final := forLoop_returns Inv nonempty ⟨rfl, by simp, zero⟩ ?_ run
  · exact ⟨final.1, final.2.2⟩
  · rintro k ⟨_, column, sums⟩ s' lower upper ⟨rfl, inside, zero⟩ step
    simp only [nextProduct, Option.bind_eq_bind, Option.bind_eq_some_iff] at step
    obtain ⟨v, value, entries, values, same⟩ := step
    cases Option.some.inj same
    have moved := advance_width_le column rwB
    have next : (k - 1) * rwB + rwB = k * rwB := by
      rw [← Nat.succ_mul, Nat.succ_eq_add_one, Nat.sub_add_cancel lower]
    have rows : k * rwB ≤ (n - 1) * rwB := Nat.mul_le_mul_right rwB (by omega)
    have inside' : column ≤ b + (k - 1) * rwB := inside
    refine ⟨rfl, ?_, accumulate_zero quiets zero value (by omega) values (by omega)⟩
    change advance column (unsigned (rwB <<< 3)) ≤ b + (k + 1 - 1) * rwB
    rw [Nat.add_sub_cancel]
    omega

theorem forLoop_addProduct_returns {sums : List R} (quiets : Quiets quiet x y limitA limitB)
    (inA : p + n ≤ limitA) (inB : b + (n - 1) * rwB + 8 ≤ limitB) (zero : Zeros 8 quiet sums)
    (run : forLoop 0 n (addProduct x y (unsigned (rwB <<< 3))) ⟨p, b, sums⟩ = some last) :
    last.ARowStart = p + n ∧ Zeros 8 quiet last.sums := by
  let Inv (k : ℕ) (s : Sums R) : Prop :=
    s.ARowStart = p + k ∧ s.BColumnStart ≤ b + k * rwB ∧ Zeros 8 quiet s.sums
  have final := forLoop_returns Inv (Nat.zero_le n) ⟨rfl, by simp, zero⟩ ?_ run
  · exact ⟨final.1, final.2.2⟩
  · rintro k ⟨_, column, sums⟩ s' _ upper ⟨rfl, inside, zero⟩ step
    simp only [addProduct, Option.bind_eq_bind, Option.bind_eq_some_iff] at step
    obtain ⟨v, value, entries, values, same⟩ := step
    cases Option.some.inj same
    have moved := advance_width_le column rwB
    have rows : k * rwB ≤ (n - 1) * rwB := Nat.mul_le_mul_right rwB (by omega)
    have inside' : column ≤ b + k * rwB := inside
    refine ⟨rfl, ?_, accumulate_zero quiets zero value (by omega) values (by omega)⟩
    change advance column (unsigned (rwB <<< 3)) ≤ b + (k + 1) * rwB
    rw [Nat.add_one_mul]
    omega

/-- What an iteration of `for (Horizontal = 0; …)` does if it returns. -/
structure BlockReturns (limit : ℕ) (quiet : Prop) (s s' : Cursor R) : Prop where
  C : s'.C = s.C + 8
  ARowStart : s'.ARowStart = s.ARowStart
  limited : Limited limit quiet s.array s'.array

theorem storeSums_returns {s s' : Cursor R} (small : n < 2 ^ 29) (bound : s.C + 8 ≤ limit)
    (pointer : last.ARowStart = s.ARowStart + n) (length : last.sums.length = 8)
    (zero : quiet → Values (· = 0) s.array → ∀ v ∈ last.sums, v = 0) (run : storeSums s n last = some s') :
    BlockReturns limit quiet s s' := by
  simp only [storeSums, Option.bind_eq_bind, Option.bind_eq_some_iff] at run
  obtain ⟨array', written, same⟩ := run
  cases Option.some.inj same
  refine ⟨rfl, ?_, Limited.writeRange written (by omega) zero⟩
  have width := advance_width 0 small
  rw [advance] at width
  change last.ARowStart - unsigned (n <<< 3) / 8 = s.ARowStart
  omega

theorem Operand.quiets (A B : Operand R) (lengthA lengthB : ℕ) (array : Buffer ℕ R) :
    Quiets (A.ZeroTo lengthA ∨ B.ZeroTo lengthB) (A.array array) (B.array array) (A.index + lengthA)
      (B.index + lengthB) :=
  Or.imp (fun zero => zero.values array) (fun zero => zero.values array)

theorem naiveBlock_returns {s s' : Cursor R} {h lengthA lengthB : ℕ} (nonempty : 1 ≤ n) (small : n < 2 ^ 29)
    (inC : s.C + 8 ≤ limit) (inA : s.ARowStart + n ≤ A.index + lengthA) (inB : 8 * h + (n - 1) * rwB + 8 ≤ lengthB)
    (run : naiveBlock A B n rwB s h = some s') :
    BlockReturns limit (A.ZeroTo lengthA ∨ B.ZeroTo lengthB) s s' := by
  simp only [naiveBlock, Option.bind_eq_bind, Option.bind_eq_some_iff] at run
  obtain ⟨v, value, entries, values, last, sums, stored⟩ := run
  have quiets := A.quiets B lengthA lengthB s.array
  have first : Zeros 8 (A.ZeroTo lengthA ∨ B.ZeroTo lengthB) (entries.map (v * ·)) := by
    constructor
    · rw [List.length_map, readRange_length values]
    · intro quiet w member
      obtain ⟨entry, inEntries, rfl⟩ := List.mem_map.mp member
      rcases quiets quiet with left | right
      · rw [left _ v (by omega) value, zero_mul]
      · rw [readRange_values right (by omega) values entry inEntries, mul_zero]
  obtain ⟨pointer, length, zero⟩ := forLoop_nextProduct_returns quiets nonempty inA (by omega) first sums
  exact storeSums_returns small inC pointer length (fun holds _ => zero holds) stored

theorem additiveBlock_returns {s s' : Cursor R} {h lengthA lengthB : ℕ} (small : n < 2 ^ 29)
    (inC : s.C + 8 ≤ limit) (inA : s.ARowStart + n ≤ A.index + lengthA) (inB : 8 * h + (n - 1) * rwB + 8 ≤ lengthB)
    (run : additiveBlock A B n rwB s h = some s') :
    BlockReturns limit (A.ZeroTo lengthA ∨ B.ZeroTo lengthB) s s' := by
  simp only [additiveBlock, Option.bind_eq_bind, Option.bind_eq_some_iff] at run
  obtain ⟨entries, values, last, sums, stored⟩ := run
  have quiets : Quiets ((A.ZeroTo lengthA ∨ B.ZeroTo lengthB) ∧ Values (· = 0) s.array) (A.array s.array)
      (B.array s.array) (A.index + lengthA) (B.index + lengthB) :=
    fun holds => A.quiets B lengthA lengthB s.array holds.1
  have first : Zeros 8 ((A.ZeroTo lengthA ∨ B.ZeroTo lengthB) ∧ Values (· = 0) s.array) entries :=
    ⟨readRange_length values, fun holds => readRange_values (holds.2.below _) (Nat.le_refl _) values⟩
  obtain ⟨pointer, length, zero⟩ := forLoop_addProduct_returns quiets inA (by omega) first sums
  exact storeSums_returns small inC pointer length (fun holds old => zero ⟨holds, old⟩) stored

/-- A kernel is bounded if its blocks are. -/
theorem kernel_bounded {block : Operand R → Operand R → Cursor R → ℕ → Option (Cursor R)} (eight : 8 ∣ n)
    (fits : n ≤ rwC)
    (step : ∀ {A B s s' h} lengthA lengthB limit, s.C + 8 ≤ limit → s.ARowStart + n ≤ A.index + lengthA →
      8 * h + (n - 1) * rwB + 8 ≤ lengthB → block A B s h = some s' →
      BlockReturns limit (A.ZeroTo lengthA ∨ B.ZeroTo lengthB) s s') :
    Bounded (fun array C A B => kernel (block A B) array C A.index n rwC rwA) (extent n rwC) (extent n rwA)
      (extent n rwB) := by
  intro array C A B array' run
  obtain ⟨blocks, rfl⟩ := eight
  simp only [kernel, Option.bind_eq_bind, Option.bind_eq_some_iff] at run
  obtain ⟨final, rows, same⟩ := run
  cases Option.some.inj same
  let Inv (i m : ℕ) (s : Cursor R) : Prop := s.C ≤ C + i * rwC + m ∧ s.ARowStart ≤ A.index + i * rwA ∧
    Limited (C + extent (8 * blocks) rwC)
      (A.ZeroTo (extent (8 * blocks) rwA) ∨ B.ZeroTo (extent (8 * blocks) rwB)) array s.array
  have kept := forLoop_returns (fun i s => Inv i 0 s) (Nat.zero_le _)
    ⟨by simp, by simp, .refl _ _ array⟩ ?_ rows
  · exact kept.2.2
  · intro i s s' _ row inv run
    simp only [kernelRow, Option.bind_eq_bind, Option.bind_eq_some_iff] at run
    obtain ⟨s₁, columns, same⟩ := run
    cases Option.some.inj same
    have count : (8 * blocks + 7) / 8 = blocks := by omega
    rw [count] at columns
    have after := forLoop_returns (fun h s => Inv i (8 * h) s) (Nat.zero_le _) inv ?_ columns
    · obtain ⟨pointerC, pointerA, limited⟩ := after
      have nextC := advance_increment_le s₁.C fits
      have nextA := advance_width_le s₁.ARowStart rwA
      refine ⟨?_, ?_, limited⟩
      · change advance s₁.C (bytesBetween rwC (8 * blocks)) ≤ C + (i + 1) * rwC + 0
        rw [Nat.add_one_mul i]
        omega
      · change advance s₁.ARowStart (unsigned (rwA <<< 3)) ≤ A.index + (i + 1) * rwA
        rw [Nat.add_one_mul]
        omega
    · rintro h s s' _ bound ⟨pointerC, pointerA, limited⟩ run
      have endC := row_extent row (show 8 * h + 8 ≤ 8 * blocks by omega) rwC
      have endA := row_extent row (Nat.le_refl _) rwA
      obtain ⟨nextC, nextA, next⟩ := step (extent (8 * blocks) rwA) (extent (8 * blocks) rwB)
        (C + extent (8 * blocks) rwC) (by omega) (by omega) (by rw [extent]; omega) run
      refine ⟨?_, ?_, limited.trans next⟩
      · rw [nextC]
        omega
      · rw [nextA]
        exact pointerA

theorem naiveByMode_bounded (eight : 8 ∣ n) (nonempty : 1 ≤ n) (small : n < 2 ^ 29) (fits : n ≤ rwC)
    (AdditiveMode : Bool) :
    Bounded (R := R) (naiveByMode n rwC rwA rwB AdditiveMode) (extent n rwC) (extent n rwA) (extent n rwB) := by
  cases AdditiveMode with
  | false => exact kernel_bounded eight fits fun _ _ _ => naiveBlock_returns nonempty small
  | true => exact kernel_bounded eight fits fun _ _ _ => additiveBlock_returns small

/-! ### Divide and conquer -/

/-- Zeros up to the reach of the quadrants as they are placed are zeros in each of them. -/
structure ZeroQuadrants (A : Operand R) (q rw : ℕ) : Prop where
  first : A.ZeroTo (extent q rw)
  right : (A.add q).ZeroTo (extent q rw)
  lower : (A.add (unsigned (rw * q))).ZeroTo (extent q rw)
  last : ((A.add (unsigned (rw * q))).add q).ZeroTo (extent q rw)

theorem Operand.ZeroTo.quadrants (zero : A.ZeroTo (reach q rw)) : ZeroQuadrants A q rw := by
  constructor
  · exact zero.mono (Nat.le_add_left _ _)
  · exact zero.add (Nat.add_le_add_right (Nat.le_add_left _ _) _)
  · exact zero.add (Nat.add_le_add_right (Nat.le_add_right _ _) _)
  · exact ZeroTo.add (zero.add (Nat.le_of_eq (Nat.add_assoc _ q _).symm)) (Nat.le_refl _)

/-- A product of parts of the operands in a part of `C`. -/
theorem Bounded.limited {multiply : Multiplication R} {A' B' : Operand R} {C' : ℕ}
    (bounded : Bounded multiply (extent q rwC) limitA limitB) (inC : C' ≤ C + unsigned (rwC * q) + q)
    (zero : quiet → A'.ZeroTo limitA ∨ B'.ZeroTo limitB) (run : multiply array C' A' B' = some array') :
    Limited (C + reach q rwC) quiet array array' := by
  refine (bounded _ _ _ _ _ run).mono ?_ zero
  rw [reach]
  omega

theorem multiplyQuadrants_bounded {multiply : Bool → Multiplication R}
    (each : ∀ mode, Bounded (multiply mode) (extent q rwC) (extent q rwA) (extent q rwB)) (AdditiveMode : Bool) :
    Bounded (multiplyQuadrants multiply q rwC rwA rwB AdditiveMode) (reach q rwC) (reach q rwA) (reach q rwB) := by
  intro array C A B array' run
  simp only [multiplyQuadrants, Option.bind_eq_bind, Option.bind_eq_some_iff] at run
  obtain ⟨array₁, run₁, array₂, run₂, array₃, run₃, array₄, run₄, array₅, run₅, array₆, run₆, array₇, run₇,
    run₈⟩ := run
  have zero : A.ZeroTo (reach q rwA) ∨ B.ZeroTo (reach q rwB) → ZeroQuadrants A q rwA ∨ ZeroQuadrants B q rwB :=
    Or.imp (fun zero => zero.quadrants) (fun zero => zero.quadrants)
  have call₁ := (each _).limited (C := C) (by omega) (fun quiet => (zero quiet).imp (·.first) (·.first)) run₁
  have call₂ := (each _).limited (C := C) (by omega) (fun quiet => (zero quiet).imp (·.first) (·.right)) run₂
  have call₃ := (each _).limited (C := C) (by omega) (fun quiet => (zero quiet).imp (·.lower) (·.right)) run₃
  have call₄ := (each _).limited (C := C) (by omega) (fun quiet => (zero quiet).imp (·.lower) (·.first)) run₄
  have call₅ := (each _).limited (C := C) (by omega) (fun quiet => (zero quiet).imp (·.right) (·.lower)) run₅
  have call₆ := (each _).limited (C := C) (by omega) (fun quiet => (zero quiet).imp (·.right) (·.last)) run₆
  have call₇ := (each _).limited (C := C) (by omega) (fun quiet => (zero quiet).imp (·.last) (·.last)) run₇
  have call₈ := (each _).limited (C := C) (by omega) (fun quiet => (zero quiet).imp (·.last) (·.lower)) run₈
  have assigned := ((call₁.trans call₂).trans call₃).trans call₄
  exact (((assigned.trans call₅).trans call₆).trans call₇).trans call₈

theorem multiplyByDivideAndConquer_reach (eight : 8 ∣ q) (nonempty : 1 ≤ q) (fits : q ≤ rwC)
    (smaller : SizeAtWhichNaiveAlgorithmIsMoreEfficient < q → ∀ mode,
      Bounded (R := R) (multiplyByDivideAndConquer q rwC rwA rwB mode) (extent q rwC) (extent q rwA) (extent q rwB))
    (AdditiveMode : Bool) :
    Bounded (R := R) (multiplyByDivideAndConquer (q + q) rwC rwA rwB AdditiveMode) (reach q rwC) (reach q rwA)
      (reach q rwB) := by
  rw [multiplyByDivideAndConquer_double]
  by_cases large : SizeAtWhichNaiveAlgorithmIsMoreEfficient < q
  · rw [if_pos large]
    exact multiplyQuadrants_bounded (smaller large) AdditiveMode
  · rw [if_neg large]
    rw [SizeAtWhichNaiveAlgorithmIsMoreEfficient] at large
    exact multiplyQuadrants_bounded (naiveByMode_bounded eight nonempty (by omega) fits) AdditiveMode

theorem multiplyByDivideAndConquer_bounded (k : ℕ) (fits : 2 ^ (k + 4) ≤ rwC) (AdditiveMode : Bool) :
    Bounded (R := R) (multiplyByDivideAndConquer (2 ^ (k + 4)) rwC rwA rwB AdditiveMode) (reach (2 ^ (k + 3)) rwC)
      (reach (2 ^ (k + 3)) rwA) (reach (2 ^ (k + 3)) rwB) := by
  induction k generalizing AdditiveMode with
  | zero =>
    refine multiplyByDivideAndConquer_reach (eight_dvd 0) (by decide) (by omega) ?_ AdditiveMode
    intro large
    exact absurd large (by decide)
  | succ k ih =>
    rw [double_pow (k + 4)] at *
    refine multiplyByDivideAndConquer_reach (eight_dvd (k + 1)) (Nat.two_pow_pos _) ((Nat.le_add_right _ _).trans fits) ?_
      AdditiveMode
    intro _ mode
    have smaller := ih (by omega) mode
    refine smaller.mono ?_ ?_ ?_
    all_goals
      rw [double_pow (k + 3)]
      exact reach_le (Nat.two_pow_pos _) _

end Kernels

end CilkArtifact.Strassen
