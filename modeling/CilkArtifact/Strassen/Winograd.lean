import CilkArtifact.Strassen.Combine
import Mathlib.Tactic.NoncommRing

/-! Seven products of quadrants are enough: `OptimizedStrassenMultiply` computes the product when the distances
between the quadrants fit into 32 bits. -/
namespace CilkArtifact.Strassen
open Buffer Finset
variable {R : Type} [Ring R] {q rw rwC rwA rwB C : ℕ} {array : Buffer ℕ R} {A B : Operand R} {a b base : ℕ → ℕ → R}

/-! ### Winograd's identities -/

/-- The matrices `S1`, …, `S8`. -/
def preparedMatrix (x y : Bool → Bool → ℕ → ℕ → R) (t : Temporary) (i j : ℕ) : R :=
  quadrantSum (fun lower right => x lower right i j) (fun lower right => y lower right i j) t

/-- The products that are computed in the quadrants of `C`. -/
def quadrantProduct (q : ℕ) (x y : Bool → Bool → ℕ → ℕ → R) : Bool → Bool → ℕ → ℕ → R
  | true, true => product q (preparedMatrix x y .S3) (preparedMatrix x y .S7)
  | false, false => product q (x false true) (y true false)
  | false, true => product q (preparedMatrix x y .S4) (y true true)
  | true, false => product q (x true true) (preparedMatrix x y .S8)

theorem winograd (q : ℕ) (x y : Bool → Bool → ℕ → ℕ → R) (lower right : Bool) (i j : ℕ) :
    combinedEntry (quadrantProduct q x y) (product q (preparedMatrix x y .S1) (preparedMatrix x y .S5))
        (product q (x false false) (y false false)) (product q (preparedMatrix x y .S2) (preparedMatrix x y .S6))
        ((lower, right), (i, j)) =
      product q (x lower false) (y false right) i j + product q (x lower true) (y true right) i j := by
  rcases lower with _ | _ <;> rcases right with _ | _
  · exact add_comm _ _
  -- in the other quadrants both sides agree for each index of the sums
  all_goals
    simp only [combinedEntry, quadrantProduct, product, preparedMatrix, quadrantSum, ← sum_add_distrib,
      ← sum_neg_distrib]
    refine sum_congr rfl fun k _ => ?_
    noncomm_ring

theorem result_false (base : ℕ → ℕ → R) (n : ℕ) (a b : ℕ → ℕ → R) : result false base n a b = product n a b := by
  funext i j
  exact zero_add _

/-! ### Widths of rows -/

/-- The rows do not overlap and the distance between the upper and the lower quadrants fits into 32 bits. -/
structure Width (n rw : ℕ) : Prop where
  rows : n ≤ rw
  fits : Fits n rw

theorem Width.half (width : Width (q + q) rw) : Width q rw :=
  ⟨(Nat.le_add_right q q).trans width.rows, width.fits.half⟩

/-- Temporary matrices have rows of their own size. -/
theorem Width.temporary (width : Width (q + q) rw) : Width q q := by
  refine ⟨Nat.le_refl q, lt_of_le_of_lt (Nat.mul_le_mul ?_ ?_) width.fits⟩
  · exact (Nat.le_add_right q q).trans width.rows
  · omega

/-! ### One level of the recursion -/

/-- A product into a temporary matrix. -/
theorem temporary_product {multiply : Multiplication R} (multiplies : Multiplies multiply false q q rwA rwB)
    (givesA : Holds (A.array array) A.index rwA q q a) (givesB : Holds (B.array array) B.index rwB q q b) :
    ∃ M, multiply (.raw (q * q)) 0 (A.outside array) (B.outside array) = some M ∧ Holds M 0 q q q (product q a b) := by
  obtain ⟨M, run, holds, _⟩ := multiplies (.raw (q * q)) 0 (A.outside array) (B.outside array) 0 a b
    ⟨raw_room q, Operand.supplies_there givesA _ _, Operand.supplies_there givesB _ _⟩
    (fun additive => by cases additive)
  rw [result_false] at holds
  exact ⟨M, run, holds⟩

/-- A product into a quadrant of `C`. -/
theorem direct_product {multiply : Multiplication R} {array₀ : Buffer ℕ R} {lower right : Bool} {X Y : Operand R}
    {rwX rwY : ℕ} {x y : ℕ → ℕ → R} (multiplies : Multiplies multiply false q rwC rwX rwY) (fits : q + q ≤ rwC)
    (changes : Changes (window C rwC (q + q) (q + q)) array₀ array)
    (inputs : Inputs array (corner C rwC q lower right) X Y q rwC rwX rwY x y) :
    ∃ array', multiply array (corner C rwC q lower right) X Y = some array' ∧
      AfterProduct array₀ array array' C rwC q lower right (product q x y) := by
  obtain ⟨array', run, after⟩ := corner_product 0 multiplies fits changes inputs
    (fun additive => by cases additive)
  rw [result_false] at after
  exact ⟨array', run, after⟩

theorem strassenStep_spec {multiply : ℕ → ℕ → ℕ → Multiplication R} (four : 4 ∣ q) (least : 8 ≤ q)
    (widthC : Width (q + q) rwC) (widthA : Width (q + q) rwA) (widthB : Width (q + q) rwB)
    (each : ∀ rwC rwA rwB, Width q rwC → Width q rwA → Width q rwB →
      Multiplies (multiply rwC rwA rwB) false q rwC rwA rwB) :
    Multiplies (strassenStep multiply q rwC rwA rwB) false (q + q) rwC rwA rwB := by
  intro array C A B base a b inputs _
  have temporary := widthC.temporary
  have ⟨smallA, smallB, smallC⟩ :=
    And.intro (widthA.fits.small least) (And.intro (widthB.fits.small least) (widthC.fits.small least))
  obtain ⟨s, prepare, prepared⟩ := prepare_spec inputs.left.gives inputs.right.gives widthA.half.rows widthB.half.rows
    smallA smallB
  have matrix : ∀ t array' S, (Operand.there (s.S t) 0).Supplies array' q q
      (preparedMatrix (quadrant a q) (quadrant b q) t) S :=
    fun t array' S => Operand.supplies_there (prepared t) array' S
  -- the products in temporary matrices
  obtain ⟨M2, run2, holds2⟩ := temporary_product (each q rwA rwB temporary widthA.half widthB.half)
    (inputs.left.gives.quadrant false false) (inputs.right.gives.quadrant false false)
  obtain ⟨M5, run5, holds5⟩ := temporary_product (each q q q temporary temporary temporary) (matrix .S1 array ∅).gives
    (matrix .S5 array ∅).gives
  obtain ⟨T1, runT, holdsT⟩ := temporary_product (each q q q temporary temporary temporary) (matrix .S2 array ∅).gives
    (matrix .S6 array ∅).gives
  -- the products in the quadrants of C
  have sub := corner_window_sub C rwC q
  obtain ⟨array₁, run₁, after₁⟩ := direct_product (each rwC q q widthC.half temporary temporary) widthC.rows
    (.refl _ array) ⟨inputs.room_corner (.refl _ array) true true, matrix .S3 _ _, matrix .S7 _ _⟩
  obtain ⟨array₂, run₂, after₂⟩ := direct_product (each rwC rwA rwB widthC.half widthA.half widthB.half) widthC.rows
    after₁.changes ⟨inputs.room_corner after₁.changes false false,
      inputs.left.quadrant after₁.changes (sub _ _) false true,
      inputs.right.quadrant after₁.changes (sub _ _) true false⟩
  obtain ⟨array₃, run₃, after₃⟩ := direct_product (each rwC q rwB widthC.half temporary widthB.half) widthC.rows
    after₂.changes ⟨inputs.room_corner after₂.changes false true, matrix .S4 _ _,
      inputs.right.quadrant after₂.changes (sub _ _) true true⟩
  obtain ⟨array₄, run₄, after₄⟩ := direct_product (each rwC rwA q widthC.half widthA.half temporary) widthC.rows
    after₃.changes ⟨inputs.room_corner after₃.changes true false,
      inputs.left.quadrant after₃.changes (sub _ _) true true, matrix .S8 _ _⟩
  have products : Products array₄ C rwC q (quadrantProduct q (quadrant a q) (quadrant b q)) M5 M2 T1
      (product q (preparedMatrix (quadrant a q) (quadrant b q) .S1) (preparedMatrix (quadrant a q) (quadrant b q) .S5))
      (product q (quadrant a q false false) (quadrant b q false false))
      (product q (preparedMatrix (quadrant a q) (quadrant b q) .S2)
        (preparedMatrix (quadrant a q) (quadrant b q) .S6)) := by
    refine ⟨?_, inputs.room_corner after₄.changes, holds5, holds2, holdsT⟩
    rintro (_ | _) (_ | _)
    · exact after₄.others _ _ _ (by decide) (after₃.others _ _ _ (by decide) after₂.holds)
    · exact after₄.others _ _ _ (by decide) after₃.holds
    · exact after₄.holds
    · exact after₄.others _ _ _ (by decide) (after₃.others _ _ _ (by decide)
        (after₂.others _ _ _ (by decide) after₁.holds))
  obtain ⟨s', combine, changes, combined⟩ := combine_spec products four widthC.rows smallC
  refine ⟨s'.array, ?_, Holds.of_quadrants fun lower right => ?_, after₄.changes.trans changes⟩
  · have ⟨farC, farA, farB⟩ : rwC * q < 2 ^ 32 ∧ rwA * q < 2 ^ 32 ∧ rwB * q < 2 ^ 32 :=
      ⟨widthC.fits.far, widthA.fits.far, widthB.fits.far⟩
    simp only [corner_first, corner_right, corner_lower _ farC, corner_last _ farC, Operand.quadrant_first,
      Operand.quadrant_right, Operand.quadrant_lower _ farA, Operand.quadrant_last _ farA,
      Operand.quadrant_lower _ farB, Operand.quadrant_last _ farB] at prepare run2 run₁ run₂ run₃ run₄ combine
    simp only [Operand.outside, Operand.array, Operand.index] at run5 runT
    simp only [strassenStep, prepare, run2, run5, runT, run₁, run₂, run₃, run₄, combine, Option.bind_eq_bind,
      Option.bind_some]
  · refine (combined lower right).congr fun i j _ _ => ?_
    rw [winograd, result_false, product_quadrants]

/-! ### The recursion -/

/-- The branches of the source for a size that can be halved. -/
theorem optimizedStrassenMultiply_double (q rwC rwA rwB : ℕ) :
    optimizedStrassenMultiply (R := R) (q + q) rwC rwA rwB =
      if q + q ≤ SizeAtWhichDivideAndConquerIsMoreEfficient then
        multiplyByDivideAndConquer (q + q) rwC rwA rwB false
      else strassenStep (optimizedStrassenMultiply q) q rwC rwA rwB := by
  rw [optimizedStrassenMultiply, shiftRight_double]

theorem optimizedStrassenMultiply_spec (k : ℕ) {rwC rwA rwB : ℕ} (widthC : Width (2 ^ (k + 4)) rwC)
    (widthA : Width (2 ^ (k + 4)) rwA) (widthB : Width (2 ^ (k + 4)) rwB) :
    Multiplies (R := R) (optimizedStrassenMultiply (2 ^ (k + 4)) rwC rwA rwB) false (2 ^ (k + 4)) rwC rwA rwB := by
  induction k generalizing rwC rwA rwB with
  | zero =>
    rw [optimizedStrassenMultiply, if_pos (by decide)]
    exact multiplyByDivideAndConquer_spec 0 widthC.rows widthC.fits widthA.fits widthB.fits false
  | succ k ih =>
    have divide := multiplyByDivideAndConquer_spec (R := R) (k + 1) widthC.rows widthC.fits widthA.fits widthB.fits false
    have least := Nat.le_of_dvd (Nat.two_pow_pos _) (eight_dvd (k + 1))
    rw [double_pow (k + 4)] at *
    rw [optimizedStrassenMultiply_double]
    by_cases small : 2 ^ (k + 4) + 2 ^ (k + 4) ≤ SizeAtWhichDivideAndConquerIsMoreEfficient
    · rw [if_pos small]
      exact divide
    · rw [if_neg small]
      exact strassenStep_spec ((by decide : 4 ∣ 8).trans (eight_dvd (k + 1))) least widthC widthA widthB
        fun rwC rwA rwB widthC widthA widthB => ih widthC widthA widthB

end CilkArtifact.Strassen
