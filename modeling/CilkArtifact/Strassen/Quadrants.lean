import CilkArtifact.Strassen.Kernel

/-! Quadrants of matrices, and the divide and conquer multiplication: it computes the product as long as the
distance between the upper and the lower quadrants fits into 32 bits for all three matrices. -/
namespace CilkArtifact.Strassen
open Buffer
variable {R : Type} {n q rw rwC rwA rwB C : ℕ} {array array₀ : Buffer ℕ R} {A B : Operand R}

/-! ### Positions -/

/-- The first row of the lower quadrants, or the first column of the right ones. -/
def half (q : ℕ) (second : Bool) : ℕ := if second then q else 0

theorem half_add_le (q : ℕ) (second : Bool) : half q second + q ≤ q + q := by
  cases second <;> simp [half]

def corner (p w q : ℕ) (lower right : Bool) : ℕ := p + half q lower * w + half q right

/-- A quadrant of a matrix. -/
def quadrant (M : ℕ → ℕ → R) (q : ℕ) (lower right : Bool) : ℕ → ℕ → R := part M (half q lower) (half q right)

theorem corner_window_sub (p w q : ℕ) (lower right : Bool) :
    window (corner p w q lower right) w q q ⊆ window p w (q + q) (q + q) :=
  window_part (half_add_le q lower) (half_add_le q right)

theorem corner_apart {p w k : ℕ} (fits : q + q ≤ w) {lower right lower' right' : Bool}
    (other : (lower', right') ≠ (lower, right)) (member : k ∈ window (corner p w q lower' right') w q q) :
    k ∉ window (corner p w q lower right) w q q := by
  refine window_apart ((half_add_le q right').trans fits) ((half_add_le q right).trans fits) ?_ member
  cases lower <;> cases right <;> cases lower' <;> cases right' <;> simp_all [half]

namespace Operand

def quadrant (A : Operand R) (rw q : ℕ) (lower right : Bool) : Operand R := A.add (half q lower * rw + half q right)

variable {S : Set ℕ} {a : ℕ → ℕ → R}

theorem Gives.quadrant (gives : A.Gives array rw (q + q) a) (lower right : Bool) :
    (A.quadrant rw q lower right).Gives array rw q (Strassen.quadrant a q lower right) := by
  cases A with
  | here i =>
    have held := Holds.part (half_add_le q lower) (half_add_le q right) gives
    rwa [Nat.add_assoc] at held
  | there x i =>
    have held := Holds.part (half_add_le q lower) (half_add_le q right) gives
    rwa [Nat.add_assoc] at held

theorem Apart.quadrant (apart : A.Apart rw (q + q) S) (lower right : Bool) :
    (A.quadrant rw q lower right).Apart rw q S := by
  cases A with
  | here i =>
    intro k member
    refine apart k (corner_window_sub i rw q lower right ?_)
    rwa [corner, Nat.add_assoc]
  | there x i => trivial

theorem Supplies.quadrant {T : Set ℕ} {array' : Buffer ℕ R} (supplies : A.Supplies array rw (q + q) a S)
    (changes : Changes S array array') (sub : T ⊆ S) (lower right : Bool) :
    (A.quadrant rw q lower right).Supplies array' rw q (Strassen.quadrant a q lower right) T :=
  ⟨(supplies.gives.changes changes supplies.apart).quadrant lower right,
    (supplies.apart.mono sub).quadrant lower right⟩

theorem quadrant_first (A : Operand R) (rw q : ℕ) : A.quadrant rw q false false = A := by
  cases A <;> simp [Operand.quadrant, add, half]

theorem quadrant_right (A : Operand R) (rw q : ℕ) : A.quadrant rw q false true = A.add q := by
  cases A <;> simp [Operand.quadrant, add, half]

theorem quadrant_lower (A : Operand R) (small : rw * q < 2 ^ 32) :
    A.quadrant rw q true false = A.add (unsigned (rw * q)) := by
  rw [unsigned_of_lt small, Nat.mul_comm]
  rfl

theorem quadrant_last (A : Operand R) (small : rw * q < 2 ^ 32) :
    A.quadrant rw q true true = (A.add (unsigned (rw * q))).add q := by
  rw [unsigned_of_lt small, Nat.mul_comm]
  cases A <;> simp [Operand.quadrant, add, half, Nat.add_assoc]

end Operand

theorem corner_first (p w q : ℕ) : corner p w q false false = p := by simp [corner, half]

theorem corner_right (p w q : ℕ) : corner p w q false true = p + q := by simp [corner, half]

theorem corner_lower (p : ℕ) (small : rw * q < 2 ^ 32) : corner p rw q true false = p + unsigned (rw * q) := by
  rw [unsigned_of_lt small, Nat.mul_comm]
  rfl

theorem corner_last (p : ℕ) (small : rw * q < 2 ^ 32) : corner p rw q true true = p + unsigned (rw * q) + q := by
  rw [unsigned_of_lt small, Nat.mul_comm]
  rfl

theorem Holds.of_quadrants {p w : ℕ} {M : ℕ → ℕ → R}
    (each : ∀ lower right, Holds array (corner p w q lower right) w q q (quadrant M q lower right)) :
    Holds array p w (q + q) (q + q) M := by
  have first := each false false
  have right := each false true
  rw [corner_first] at first
  rw [corner_right] at right
  exact Buffer.Holds.quadrants first right (each true false) (each true true)

section Products
variable [Ring R] {a b base : ℕ → ℕ → R}

theorem product_quadrants (q : ℕ) (a b : ℕ → ℕ → R) (lower right : Bool) (i j : ℕ) :
    quadrant (product (q + q) a b) q lower right i j =
      product q (quadrant a q lower false) (quadrant b q false right) i j +
        product q (quadrant a q lower true) (quadrant b q true right) i j :=
  product_add q q a b (half q lower) (half q right) i j

/-- What a call of `multiply` for a quadrant of `C` leaves. -/
structure AfterProduct (array₀ array array' : Buffer ℕ R) (C rwC q : ℕ) (lower right : Bool) (M : ℕ → ℕ → R) :
    Prop where
  changes : Changes (window C rwC (q + q) (q + q)) array₀ array'
  holds : Holds array' (corner C rwC q lower right) rwC q q M
  others : ∀ lower' right' M', (lower', right') ≠ (lower, right) →
    Holds array (corner C rwC q lower' right') rwC q q M' → Holds array' (corner C rwC q lower' right') rwC q q M'

omit [Ring R] in
theorem Inputs.room_corner (inputs : Inputs array₀ C A B (q + q) rwC rwA rwB a b)
    (changes : Changes (window C rwC (q + q) (q + q)) array₀ array) (lower right : Bool) :
    Room array (corner C rwC q lower right) rwC q q :=
  (inputs.room.changes changes).part (half_add_le q lower) (half_add_le q right)

theorem corner_product {multiply : Multiplication R} {AdditiveMode : Bool} {lower right : Bool} {X Y : Operand R}
    {rwX rwY : ℕ} {x y : ℕ → ℕ → R} (base : ℕ → ℕ → R) (multiplies : Multiplies multiply AdditiveMode q rwC rwX rwY)
    (fits : q + q ≤ rwC) (changes : Changes (window C rwC (q + q) (q + q)) array₀ array)
    (inputs : Inputs array (corner C rwC q lower right) X Y q rwC rwX rwY x y)
    (holds : AdditiveMode = true → Holds array (corner C rwC q lower right) rwC q q base) :
    ∃ array', multiply array (corner C rwC q lower right) X Y = some array' ∧
      AfterProduct array₀ array array' C rwC q lower right (result AdditiveMode base q x y) := by
  obtain ⟨array', run, held, frame⟩ := multiplies _ _ _ _ base _ _ inputs holds
  refine ⟨array', run, changes.trans (frame.mono (corner_window_sub C rwC q lower right)), held, ?_⟩
  intro lower' right' M' other kept
  exact kept.changes frame fun k member => corner_apart fits other member

theorem quadrant_product {multiply : Bool → Multiplication R} (AdditiveMode : Bool)
    (each : ∀ mode, Multiplies (multiply mode) mode q rwC rwA rwB) (fits : q + q ≤ rwC)
    (inputs : Inputs array₀ C A B (q + q) rwC rwA rwB a b)
    (changes : Changes (window C rwC (q + q) (q + q)) array₀ array) (lower middle right : Bool)
    (holds : AdditiveMode = true → Holds array (corner C rwC q lower right) rwC q q base) :
    ∃ array', multiply AdditiveMode array (corner C rwC q lower right) (A.quadrant rwA q lower middle)
        (B.quadrant rwB q middle right) = some array' ∧
      AfterProduct array₀ array array' C rwC q lower right
        (result AdditiveMode base q (quadrant a q lower middle) (quadrant b q middle right)) := by
  have sub := corner_window_sub C rwC q lower right
  refine corner_product base (each AdditiveMode) fits changes ?_ holds
  exact ⟨inputs.room_corner changes lower right, inputs.left.quadrant changes sub lower middle,
    inputs.right.quadrant changes sub middle right⟩

/-- Four of the eight products: one for each quadrant of `C`, in the order of the source. -/
theorem quadrant_pass {multiply : Bool → Multiplication R} (AdditiveMode : Bool)
    (each : ∀ mode, Multiplies (multiply mode) mode q rwC rwA rwB) (fits : q + q ≤ rwC)
    (inputs : Inputs array₀ C A B (q + q) rwC rwA rwB a b)
    (changes : Changes (window C rwC (q + q) (q + q)) array₀ array) (middle : Bool) (bases : Bool → Bool → ℕ → ℕ → R)
    (holds : AdditiveMode = true → ∀ lower right,
      Holds array (corner C rwC q lower right) rwC q q (bases lower right)) :
    ∃ array₁ array₂ array₃ array₄,
      multiply AdditiveMode array (corner C rwC q false false) (A.quadrant rwA q false middle)
        (B.quadrant rwB q middle false) = some array₁ ∧
      multiply AdditiveMode array₁ (corner C rwC q false true) (A.quadrant rwA q false middle)
        (B.quadrant rwB q middle true) = some array₂ ∧
      multiply AdditiveMode array₂ (corner C rwC q true true) (A.quadrant rwA q true middle)
        (B.quadrant rwB q middle true) = some array₃ ∧
      multiply AdditiveMode array₃ (corner C rwC q true false) (A.quadrant rwA q true middle)
        (B.quadrant rwB q middle false) = some array₄ ∧
      Changes (window C rwC (q + q) (q + q)) array₀ array₄ ∧
      ∀ lower right, Holds array₄ (corner C rwC q lower right) rwC q q
        (result AdditiveMode (bases lower right) q (quadrant a q lower middle) (quadrant b q middle right)) := by
  obtain ⟨array₁, run₁, after₁⟩ := quadrant_product AdditiveMode each fits inputs changes false middle false
    fun additive => holds additive _ _
  obtain ⟨array₂, run₂, after₂⟩ := quadrant_product AdditiveMode each fits inputs after₁.changes false middle true
    fun additive => after₁.others _ _ _ (by decide) (holds additive _ _)
  obtain ⟨array₃, run₃, after₃⟩ := quadrant_product AdditiveMode each fits inputs after₂.changes true middle true
    fun additive => after₂.others _ _ _ (by decide) (after₁.others _ _ _ (by decide) (holds additive _ _))
  obtain ⟨array₄, run₄, after₄⟩ := quadrant_product AdditiveMode each fits inputs after₃.changes true middle false
    fun additive => after₃.others _ _ _ (by decide) (after₂.others _ _ _ (by decide)
      (after₁.others _ _ _ (by decide) (holds additive _ _)))
  refine ⟨array₁, array₂, array₃, array₄, run₁, run₂, run₃, run₄, after₄.changes, ?_⟩
  rintro (_ | _) (_ | _)
  · exact after₄.others _ _ _ (by decide) (after₃.others _ _ _ (by decide)
      (after₂.others _ _ _ (by decide) after₁.holds))
  · exact after₄.others _ _ _ (by decide) (after₃.others _ _ _ (by decide) after₂.holds)
  · exact after₄.holds
  · exact after₄.others _ _ _ (by decide) after₃.holds

theorem multiplyQuadrants_spec {multiply : Bool → Multiplication R}
    (each : ∀ mode, Multiplies (multiply mode) mode q rwC rwA rwB) (fits : q + q ≤ rwC) (smallC : rwC * q < 2 ^ 32)
    (smallA : rwA * q < 2 ^ 32) (smallB : rwB * q < 2 ^ 32) (AdditiveMode : Bool) :
    Multiplies (multiplyQuadrants multiply q rwC rwA rwB AdditiveMode) AdditiveMode (q + q) rwC rwA rwB := by
  intro array C A B base a b inputs holds
  obtain ⟨array₁, array₂, array₃, array₄, run₁, run₂, run₃, run₄, changes, first⟩ :=
    quadrant_pass AdditiveMode each fits inputs (.refl _ array) false (quadrant base q)
      fun additive lower right => (holds additive).part (half_add_le q lower) (half_add_le q right)
  obtain ⟨array₅, array₆, array₇, array₈, run₅, run₆, run₇, run₈, changes', second⟩ :=
    quadrant_pass true each fits inputs changes true _ fun _ => first
  simp only [corner_first, corner_right, corner_lower _ smallC, corner_last _ smallC, Operand.quadrant_first,
    Operand.quadrant_right, Operand.quadrant_lower _ smallA, Operand.quadrant_last _ smallA,
    Operand.quadrant_lower _ smallB, Operand.quadrant_last _ smallB] at run₁ run₂ run₃ run₄ run₅ run₆ run₇ run₈
  refine ⟨array₈, ?_, Holds.of_quadrants fun lower right => ?_, changes'⟩
  · simp only [multiplyQuadrants, run₁, run₂, run₃, run₄, run₅, run₆, run₇, run₈, Option.bind_eq_bind,
      Option.bind_some]
  · refine (second lower right).congr fun i j _ _ => ?_
    have whole : quadrant (result AdditiveMode base (q + q) a b) q lower right i j =
      initial AdditiveMode (quadrant base q lower right) i j + quadrant (product (q + q) a b) q lower right i j := rfl
    rw [whole, product_quadrants]
    exact add_assoc _ _ _

/-! ### The recursion -/

theorem naiveByMode_spec (eight : 8 ∣ q) (nonempty : 0 < q) (fits : q ≤ rwC) (smallC : rwC < 2 ^ 29)
    (smallA : rwA < 2 ^ 29) (smallB : rwB < 2 ^ 29) (AdditiveMode : Bool) :
    Multiplies (R := R) (naiveByMode q rwC rwA rwB AdditiveMode) AdditiveMode q rwC rwA rwB := by
  cases AdditiveMode with
  | false => exact fastNaiveMatrixMultiply_spec eight nonempty fits smallC smallA smallB
  | true => exact fastAdditiveNaiveMatrixMultiply_spec eight fits smallC smallA smallB

/-- The distance between the upper and the lower quadrants is computed without overflow. -/
def Fits (n rw : ℕ) : Prop := rw * (n / 2) < 2 ^ 32

theorem Fits.half (fits : Fits (q + q) rw) : Fits q rw := by
  refine lt_of_le_of_lt (Nat.mul_le_mul_left rw ?_) fits
  omega

theorem Fits.far (fits : Fits (q + q) rw) : rw * q < 2 ^ 32 := by
  have halved : (q + q) / 2 = q := by omega
  rwa [Fits, halved] at fits

theorem Fits.small (fits : Fits (q + q) rw) (eight : 8 ≤ q) : rw < 2 ^ 29 := by
  have bound : rw * 8 ≤ rw * q := Nat.mul_le_mul_left rw eight
  have far := fits.far
  omega

theorem shiftRight_double (q : ℕ) : (q + q) >>> 1 = q := by
  rw [Nat.shiftRight_eq_div_pow]
  omega

/-- The branches of the source for a size that can be halved. -/
theorem multiplyByDivideAndConquer_double (q rwC rwA rwB : ℕ) (AdditiveMode : Bool) :
    multiplyByDivideAndConquer (R := R) (q + q) rwC rwA rwB AdditiveMode =
      if SizeAtWhichNaiveAlgorithmIsMoreEfficient < q then
        multiplyQuadrants (multiplyByDivideAndConquer q rwC rwA rwB) q rwC rwA rwB AdditiveMode
      else multiplyQuadrants (naiveByMode q rwC rwA rwB) q rwC rwA rwB AdditiveMode := by
  rw [multiplyByDivideAndConquer]
  simp only [shiftRight_double]

theorem multiplyByDivideAndConquer_step (eight : 8 ∣ q) (least : 8 ≤ q) (wide : q + q ≤ rwC)
    (fitsC : Fits (q + q) rwC) (fitsA : Fits (q + q) rwA) (fitsB : Fits (q + q) rwB)
    (smaller : SizeAtWhichNaiveAlgorithmIsMoreEfficient < q → ∀ mode,
      Multiplies (R := R) (multiplyByDivideAndConquer q rwC rwA rwB mode) mode q rwC rwA rwB) (AdditiveMode : Bool) :
    Multiplies (R := R) (multiplyByDivideAndConquer (q + q) rwC rwA rwB AdditiveMode) AdditiveMode (q + q)
      rwC rwA rwB := by
  rw [multiplyByDivideAndConquer_double]
  by_cases large : SizeAtWhichNaiveAlgorithmIsMoreEfficient < q
  · rw [if_pos large]
    exact multiplyQuadrants_spec (smaller large) wide fitsC.far fitsA.far fitsB.far AdditiveMode
  · rw [if_neg large]
    exact multiplyQuadrants_spec (naiveByMode_spec eight (by omega) (by omega) (fitsC.small least) (fitsA.small least)
      (fitsB.small least)) wide fitsC.far fitsA.far fitsB.far AdditiveMode

theorem double_pow (k : ℕ) : 2 ^ (k + 1) = 2 ^ k + 2 ^ k := by rw [Nat.pow_succ, Nat.mul_two]

theorem eight_dvd (k : ℕ) : 8 ∣ 2 ^ (k + 3) := Nat.pow_dvd_pow 2 (by omega : 3 ≤ k + 3)

theorem multiplyByDivideAndConquer_spec (k : ℕ) (wide : 2 ^ (k + 4) ≤ rwC) (fitsC : Fits (2 ^ (k + 4)) rwC)
    (fitsA : Fits (2 ^ (k + 4)) rwA) (fitsB : Fits (2 ^ (k + 4)) rwB) (AdditiveMode : Bool) :
    Multiplies (R := R) (multiplyByDivideAndConquer (2 ^ (k + 4)) rwC rwA rwB AdditiveMode) AdditiveMode (2 ^ (k + 4))
      rwC rwA rwB := by
  induction k generalizing AdditiveMode with
  | zero =>
    rw [double_pow] at *
    refine multiplyByDivideAndConquer_step (eight_dvd 0) (by decide) wide fitsC fitsA fitsB ?_ AdditiveMode
    intro large
    exact absurd large (by decide)
  | succ k ih =>
    rw [double_pow (k + 4)] at *
    have least := Nat.le_of_dvd (Nat.two_pow_pos _) (eight_dvd (k + 1))
    refine multiplyByDivideAndConquer_step (eight_dvd (k + 1)) least wide fitsC fitsA fitsB ?_ AdditiveMode
    intro _ mode
    exact ih (by omega) fitsC.half fitsA.half fitsB.half mode

end Products

end CilkArtifact.Strassen
