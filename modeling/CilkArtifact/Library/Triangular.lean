import Mathlib.LinearAlgebra.Matrix.Block
import Mathlib.LinearAlgebra.Matrix.NonsingularInverse
import Mathlib.Data.Matrix.Mul
import Mathlib.Tactic.Ring

/-! Triangular factors kept in one square array: the entries below the diagonal belong to a
unit lower factor, the others to an upper factor. Entries are indexed by `ℕ`, so that leading
parts of all sizes are parts of one array. -/
namespace CilkArtifact
variable {F : Type} [Field F]

/-- The leading `n` by `n` part of `X` is the product of the factors kept in `R`. -/
def IsLU (n : ℕ) (X R : ℕ → ℕ → F) : Prop :=
  ∀ r c, r < n → c < n → X r c = ∑ t ∈ Finset.range (min r c), R r t * R t c +
    if r ≤ c then R r c else R r c * R c c

/-- The factors of `X`, computed entry by entry. -/
def doolittle (X : ℕ → ℕ → F) (r c : ℕ) : F :=
  let rest := X r c - ∑ t : Fin (min r c), doolittle X r t * doolittle X t c
  if r ≤ c then rest else rest / doolittle X c c
termination_by r + c

variable {X R : ℕ → ℕ → F} {n : ℕ}

theorem IsLU.mono (factors : IsLU n X R) {k : ℕ} (smaller : k ≤ n) : IsLU k X R :=
  fun r c hr hc => factors r c (hr.trans_le smaller) (hc.trans_le smaller)

theorem doolittle_eq (X : ℕ → ℕ → F) (r c : ℕ) : doolittle X r c =
    if r ≤ c then X r c - ∑ t ∈ Finset.range (min r c), doolittle X r t * doolittle X t c
    else (X r c - ∑ t ∈ Finset.range (min r c), doolittle X r t * doolittle X t c) / doolittle X c c := by
  rw [doolittle, Finset.sum_range]

theorem isLU_doolittle (X : ℕ → ℕ → F) (n : ℕ) (pivots : ∀ i, i + 1 < n → doolittle X i i ≠ 0) :
    IsLU n X (doolittle X) := by
  intro r c hr hc
  have entry := doolittle_eq X r c
  by_cases upper : r ≤ c
  · rw [if_pos upper] at entry ⊢
    rw [entry]
    ring
  · rw [if_neg upper] at entry ⊢
    have pivot : doolittle X c c ≠ 0 := pivots c (by omega)
    rw [entry, div_mul_cancel₀ _ pivot]
    ring

/-- Factors with non-zero pivots are unique. -/
theorem IsLU.eq_doolittle (factors : IsLU n X R) (pivots : ∀ i, i + 1 < n → R i i ≠ 0) :
    ∀ s r c, r + c ≤ s → r < n → c < n → R r c = doolittle X r c := by
  intro s
  induction s with
  | zero =>
    intro r c size hr hc
    obtain ⟨rfl, rfl⟩ : r = 0 ∧ c = 0 := by omega
    have entry := factors 0 0 hr hc
    rw [doolittle_eq]
    simpa using entry.symm
  | succ s ih =>
    intro r c size hr hc
    have entry := factors r c hr hc
    have sums : ∑ t ∈ Finset.range (min r c), R r t * R t c =
        ∑ t ∈ Finset.range (min r c), doolittle X r t * doolittle X t c := by
      apply Finset.sum_congr rfl
      intro t inside
      rw [Finset.mem_range] at inside
      rw [ih r t (by omega) hr (by omega), ih t c (by omega) (by omega) hc]
    rw [doolittle_eq, ← sums]
    by_cases upper : r ≤ c
    · rw [if_pos upper] at entry ⊢
      rw [entry]
      ring
    · rw [if_neg upper] at entry ⊢
      have pivot : R c c ≠ 0 := pivots c (by omega)
      rw [← ih c c (by omega) hc hc, entry, add_sub_cancel_left, mul_div_cancel_right₀ _ pivot]

/-! ### Matrices -/

/-- The unit lower factor kept below the diagonal. -/
def unitLower (n : ℕ) (R : ℕ → ℕ → F) : Matrix (Fin n) (Fin n) F :=
  .of fun i j => if j < i then R i j else if i = j then 1 else 0

/-- The upper factor kept on and above the diagonal. -/
def upper (n : ℕ) (R : ℕ → ℕ → F) : Matrix (Fin n) (Fin n) F :=
  .of fun i j => if i ≤ j then R i j else 0

/-- A sum whose terms end at `k`. -/
theorem sum_range_cut {f : ℕ → F} {k n : ℕ} (inside : k < n) (zero : ∀ t, k < t → f t = 0) :
    ∑ t ∈ Finset.range n, f t = ∑ t ∈ Finset.range k, f t + f k := by
  rw [← Finset.sum_range_succ]
  symm
  apply Finset.sum_subset
  · intro t before
    rw [Finset.mem_range] at before ⊢
    omega
  · intro t _ outside
    rw [Finset.mem_range] at outside
    exact zero t (by omega)

theorem unitLower_mul_upper (n : ℕ) (R : ℕ → ℕ → F) (r c : Fin n) :
    (unitLower n R * upper n R) r c = ∑ t ∈ Finset.range (min r.val c.val), R r t * R t c +
      if r.val ≤ c.val then R r c else R r c * R c c := by
  let term (t : ℕ) : F := (if t < r then R r t else if r.val = t then 1 else 0) * if t ≤ c then R t c else 0
  have entry : (unitLower n R * upper n R) r c = ∑ t ∈ Finset.range n, term t := by
    rw [Matrix.mul_apply, Finset.sum_range]
    simp only [unitLower, upper, Matrix.of_apply, Fin.lt_def, Fin.le_def, Fin.ext_iff, term]
  have beyond (t : ℕ) (past : min r.val c.val < t) : term t = 0 := by
    by_cases right : t ≤ c
    · have beside : ¬ t < r.val ∧ r.val ≠ t := by omega
      simp only [term, if_neg beside.1, if_neg beside.2, zero_mul]
    · simp only [term, if_neg right, mul_zero]
  rw [entry, sum_range_cut (by omega) beyond]
  congr 1
  · apply Finset.sum_congr rfl
    intro t inside
    rw [Finset.mem_range] at inside
    simp only [term, if_pos (show t < r.val by omega), if_pos (show t ≤ c.val by omega)]
  · by_cases above : r.val ≤ c.val
    · simp [term, above]
    · have below : c.val < r.val := by omega
      simp [term, above, below.le, below]

theorem isLU_iff_mul : IsLU n X R ↔ unitLower n R * upper n R = .of fun i j : Fin n => X i j := by
  constructor
  · intro factors
    ext r c
    rw [unitLower_mul_upper, Matrix.of_apply, factors r c r.isLt c.isLt]
  · intro product r c hr hc
    have entry := congrFun (congrFun product ⟨r, hr⟩) ⟨c, hc⟩
    rw [unitLower_mul_upper] at entry
    exact entry.symm

theorem unitLower_triangular (n : ℕ) (R : ℕ → ℕ → F) : (unitLower n R).IsLowerTriangular := by
  intro i j above
  have above : i < j := above
  simp [unitLower, above.ne, above.not_gt]

theorem upper_triangular (n : ℕ) (R : ℕ → ℕ → F) : (upper n R).IsUpperTriangular := by
  intro i j below
  have below : j < i := below
  simp [upper, below.not_ge]

theorem det_unitLower (n : ℕ) (R : ℕ → ℕ → F) : (unitLower n R).det = 1 := by
  rw [Matrix.det_of_isLowerTriangular _ (unitLower_triangular n R)]
  simp [unitLower]

theorem det_upper (n : ℕ) (R : ℕ → ℕ → F) : (upper n R).det = ∏ i : Fin n, R i i := by
  rw [Matrix.det_of_isUpperTriangular (upper_triangular n R)]
  simp [upper]

theorem det_of_isLU (factors : IsLU n X R) :
    (Matrix.of fun i j : Fin n => X i j).det = ∏ i : Fin n, R i i := by
  rw [← isLU_iff_mul.mp factors, Matrix.det_mul, det_unitLower, det_upper, one_mul]

/-- Non-zero leading minors make every pivot non-zero. -/
theorem doolittle_pivot_ne_zero
    (minors : ∀ k, k ≤ n → (Matrix.of fun i j : Fin k => X i j).det ≠ 0) (i : ℕ) (inside : i < n) :
    doolittle X i i ≠ 0 := by
  induction i using Nat.strong_induction_on with
  | _ i ih =>
    have factors := isLU_doolittle X (i + 1) fun j before => ih j (by omega) (by omega)
    have minor := minors (i + 1) inside
    rw [det_of_isLU factors, Fin.prod_univ_castSucc] at minor
    exact right_ne_zero_of_mul minor

theorem unitLower_congr {R' : ℕ → ℕ → F} (same : ∀ r c, r < n → c < n → R r c = R' r c) :
    unitLower n R = unitLower n R' := by
  ext i j
  simp only [unitLower, Matrix.of_apply, same i j i.isLt j.isLt]

theorem upper_congr {R' : ℕ → ℕ → F} (same : ∀ r c, r < n → c < n → R r c = R' r c) :
    upper n R = upper n R' := by
  ext i j
  simp only [upper, Matrix.of_apply, same i j i.isLt j.isLt]

/-- With non-zero leading minors there is only one pair of factors. -/
theorem factors_unique {L U : Matrix (Fin n) (Fin n) F} (lower : L.IsLowerTriangular)
    (unit : ∀ i, L i i = 1) (triangular : U.IsUpperTriangular)
    (minors : ∀ k, k ≤ n → (Matrix.of fun i j : Fin k => X i j).det ≠ 0)
    (product : L * U = .of fun i j : Fin n => X i j) :
    L = unitLower n (doolittle X) ∧ U = upper n (doolittle X) := by
  -- keep the two factors in one array
  let R (r c : ℕ) : F := if h : r < n ∧ c < n then
    if c < r then L ⟨r, h.1⟩ ⟨c, h.2⟩ else U ⟨r, h.1⟩ ⟨c, h.2⟩ else 0
  have entry (i j : Fin n) : R i j = if j < i then L i j else U i j := dif_pos ⟨i.isLt, j.isLt⟩
  have keepsL : unitLower n R = L := by
    ext i j
    rw [unitLower, Matrix.of_apply, entry]
    rcases lt_trichotomy j i with below | rfl | above
    · rw [if_pos below, if_pos below]
    · rw [if_neg (lt_irrefl j), if_pos rfl, unit]
    · rw [if_neg above.not_gt, if_neg above.ne, lower above]
  have keepsU : upper n R = U := by
    ext i j
    rw [upper, Matrix.of_apply, entry]
    by_cases above : i ≤ j
    · rw [if_pos above, if_neg above.not_gt]
    · rw [if_neg above, triangular (not_le.mp above)]
  have factors : IsLU n X R := by
    rw [isLU_iff_mul, keepsL, keepsU, product]
  have pivots (i : ℕ) (inside : i + 1 < n) : R i i ≠ 0 := by
    have minor := minors (i + 1) inside.le
    rw [det_of_isLU (factors.mono inside.le), Finset.prod_ne_zero_iff] at minor
    exact minor (Fin.last i) (Finset.mem_univ _)
  have same (r c : ℕ) (hr : r < n) (hc : c < n) : R r c = doolittle X r c :=
    factors.eq_doolittle pivots (r + c) r c le_rfl hr hc
  rw [← keepsL, ← keepsU]
  exact ⟨unitLower_congr same, upper_congr same⟩

/-! ### Triangular systems -/

theorem unitLower_mul_apply (w : ℕ) (R G : ℕ → ℕ → F) (i : Fin n) (j : Fin w) :
    (unitLower n R * Matrix.of fun (r : Fin n) (c : Fin w) => G r c) i j =
      G i j + ∑ t ∈ Finset.range i, R i t * G t j := by
  let term (t : ℕ) : F := (if t < i then R i t else if i.val = t then 1 else 0) * G t j
  have entry : (unitLower n R * Matrix.of fun (r : Fin n) (c : Fin w) => G r c) i j = ∑ t ∈ Finset.range n, term t := by
    rw [Matrix.mul_apply, Finset.sum_range]
    simp only [unitLower, Matrix.of_apply, Fin.lt_def, Fin.ext_iff, term]
  have beyond (t : ℕ) (past : i < t) : term t = 0 := by
    simp only [term, if_neg past.not_gt, if_neg past.ne, zero_mul]
  rw [entry, sum_range_cut i.isLt beyond, add_comm]
  congr 1
  · simp [term]
  · apply Finset.sum_congr rfl
    intro t inside
    rw [Finset.mem_range] at inside
    simp only [term, if_pos inside]

theorem mul_upper_apply (h : ℕ) (R G : ℕ → ℕ → F) (i : Fin h) (j : Fin n) :
    ((Matrix.of fun (r : Fin h) (c : Fin n) => G r c) * upper n R) i j =
      ∑ t ∈ Finset.range j, G i t * R t j + G i j * R j j := by
  let term (t : ℕ) : F := G i t * if t ≤ j then R t j else 0
  have entry : ((Matrix.of fun (r : Fin h) (c : Fin n) => G r c) * upper n R) i j = ∑ t ∈ Finset.range n, term t := by
    rw [Matrix.mul_apply, Finset.sum_range]
    simp only [upper, Matrix.of_apply, Fin.le_def, term]
  have beyond (t : ℕ) (past : j < t) : term t = 0 := by
    simp only [term, if_neg past.not_ge, mul_zero]
  rw [entry, sum_range_cut j.isLt beyond]
  congr 1
  · apply Finset.sum_congr rfl
    intro t inside
    rw [Finset.mem_range] at inside
    simp only [term, if_pos inside.le]
  · simp only [term, if_pos le_rfl]

theorem isUnit_unitLower (n : ℕ) (R : ℕ → ℕ → F) : IsUnit (unitLower n R).det := by
  rw [det_unitLower]
  exact isUnit_one

theorem isUnit_upper {R : ℕ → ℕ → F} (pivots : ∀ t < n, R t t ≠ 0) : IsUnit (upper n R).det := by
  rw [det_upper, isUnit_iff_ne_zero, Finset.prod_ne_zero_iff]
  exact fun t _ => pivots t t.isLt

theorem exists_lower_solution (n w : ℕ) (R M : ℕ → ℕ → F) : ∃ G : ℕ → ℕ → F, ∀ i j, i < n → j < w →
    M i j = G i j + ∑ t ∈ Finset.range i, R i t * G t j := by
  let X : Matrix (Fin n) (Fin w) F := (unitLower n R)⁻¹ * Matrix.of fun (r : Fin n) (c : Fin w) => M r c
  let G (r c : ℕ) : F := if inside : r < n ∧ c < w then X ⟨r, inside.1⟩ ⟨c, inside.2⟩ else 0
  have entries : (Matrix.of fun (r : Fin n) (c : Fin w) => G r c) = X := by
    ext r c
    exact dif_pos ⟨r.isLt, c.isLt⟩
  refine ⟨G, fun i j hi hj => ?_⟩
  have entry := unitLower_mul_apply w R G ⟨i, hi⟩ ⟨j, hj⟩
  rw [entries, Matrix.mul_nonsing_inv_cancel_left _ _ (isUnit_unitLower n R)] at entry
  exact entry

theorem exists_upper_solution (h : ℕ) {n : ℕ} {R : ℕ → ℕ → F} (M : ℕ → ℕ → F) (pivots : ∀ t < n, R t t ≠ 0) :
    ∃ G : ℕ → ℕ → F, ∀ i j, i < h → j < n → M i j = ∑ t ∈ Finset.range j, G i t * R t j + G i j * R j j := by
  let X : Matrix (Fin h) (Fin n) F := (Matrix.of fun (r : Fin h) (c : Fin n) => M r c) * (upper n R)⁻¹
  let G (r c : ℕ) : F := if inside : r < h ∧ c < n then X ⟨r, inside.1⟩ ⟨c, inside.2⟩ else 0
  have entries : (Matrix.of fun (r : Fin h) (c : Fin n) => G r c) = X := by
    ext r c
    exact dif_pos ⟨r.isLt, c.isLt⟩
  refine ⟨G, fun i j hi hj => ?_⟩
  have entry := mul_upper_apply h R G ⟨i, hi⟩ ⟨j, hj⟩
  rw [entries, Matrix.nonsing_inv_mul_cancel_right _ _ (isUnit_upper pivots)] at entry
  exact entry

end CilkArtifact
