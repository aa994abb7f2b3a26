import CilkArtifact.Lu.Block

/-! The divide-and-conquer part of `lu.c`: Schur complement, the two triangular solvers and the
factorisation, on square windows of one array of blocks. -/
namespace CilkArtifact.Lu
open Memory
variable {F : Type} [Field F]

def schur (nBlocks : ℕ) (m : Lu F) (M V W : ℤ) (nb : ℕ) : Option (Lu F) :=
  if nb = 1 then blockSchur m M V W
  else do
    let hnb := nb / 2
    let M00 ← matrixAt nBlocks M 0 0
    let M01 ← matrixAt nBlocks M 0 hnb
    let M10 ← matrixAt nBlocks M hnb 0
    let M11 ← matrixAt nBlocks M hnb hnb
    let V00 ← matrixAt nBlocks V 0 0
    let V01 ← matrixAt nBlocks V 0 hnb
    let V10 ← matrixAt nBlocks V hnb 0
    let V11 ← matrixAt nBlocks V hnb hnb
    let W00 ← matrixAt nBlocks W 0 0
    let W01 ← matrixAt nBlocks W 0 hnb
    let W10 ← matrixAt nBlocks W hnb 0
    let W11 ← matrixAt nBlocks W hnb hnb
    let m ← m |>.schur nBlocks M00 V00 W00 hnb
    let m ← m |>.schur nBlocks M01 V00 W01 hnb
    let m ← m |>.schur nBlocks M10 V10 W00 hnb
    let m ← m |>.schur nBlocks M11 V10 W01 hnb
    let m ← m |>.schur nBlocks M00 V01 W10 hnb
    let m ← m |>.schur nBlocks M01 V01 W11 hnb
    let m ← m |>.schur nBlocks M10 V11 W10 hnb
    m |>.schur nBlocks M11 V11 W11 hnb
partial_fixpoint

mutual
def auxLowerSolve (nBlocks : ℕ) (m : Lu F) (Ma Mb L : ℤ) (nb : ℕ) : Option (Lu F) := do
  let L00 ← matrixAt nBlocks L 0 0
  let _ ← matrixAt nBlocks L 0 nb
  let L10 ← matrixAt nBlocks L nb 0
  let L11 ← matrixAt nBlocks L nb nb
  let m ← m |>.lowerSolve nBlocks Ma L00 nb
  let m ← schur nBlocks m Mb L10 Ma nb
  m |>.lowerSolve nBlocks Mb L11 nb
partial_fixpoint

def lowerSolve (nBlocks : ℕ) (m : Lu F) (M L : ℤ) (nb : ℕ) : Option (Lu F) :=
  if nb = 1 then blockLowerSolve m M L
  else do
    let hnb := nb / 2
    let M00 ← matrixAt nBlocks M 0 0
    let M01 ← matrixAt nBlocks M 0 hnb
    let M10 ← matrixAt nBlocks M hnb 0
    let M11 ← matrixAt nBlocks M hnb hnb
    let m ← m |>.auxLowerSolve nBlocks M00 M10 L hnb
    m |>.auxLowerSolve nBlocks M01 M11 L hnb
partial_fixpoint
end

section Division
variable [DecidableEq F]

mutual
def auxUpperSolve (nBlocks : ℕ) (m : Lu F) (Ma Mb U : ℤ) (nb : ℕ) : Option (Lu F) := do
  let U00 ← matrixAt nBlocks U 0 0
  let U01 ← matrixAt nBlocks U 0 nb
  let _ ← matrixAt nBlocks U nb 0
  let U11 ← matrixAt nBlocks U nb nb
  let m ← m |>.upperSolve nBlocks Ma U00 nb
  let m ← schur nBlocks m Mb Ma U01 nb
  m |>.upperSolve nBlocks Mb U11 nb
partial_fixpoint

def upperSolve (nBlocks : ℕ) (m : Lu F) (M U : ℤ) (nb : ℕ) : Option (Lu F) :=
  if nb = 1 then blockUpperSolve m M U
  else do
    let hnb := nb / 2
    let M00 ← matrixAt nBlocks M 0 0
    let M01 ← matrixAt nBlocks M 0 hnb
    let M10 ← matrixAt nBlocks M hnb 0
    let M11 ← matrixAt nBlocks M hnb hnb
    let m ← m |>.auxUpperSolve nBlocks M00 M01 U hnb
    m |>.auxUpperSolve nBlocks M10 M11 U hnb
partial_fixpoint
end

def lu (nBlocks : ℕ) (m : Lu F) (M : ℤ) (nb : ℕ) : Option (Lu F) :=
  if nb = 1 then blockLu m M
  else do
    let hnb := nb / 2
    let M00 ← matrixAt nBlocks M 0 0
    let M01 ← matrixAt nBlocks M 0 hnb
    let M10 ← matrixAt nBlocks M hnb 0
    let M11 ← matrixAt nBlocks M hnb hnb
    let m ← m |>.lu nBlocks M00 hnb
    let m ← lowerSolve nBlocks m M01 M00 hnb
    let m ← upperSolve nBlocks m M10 M00 hnb
    let m ← schur nBlocks m M11 M10 M01 hnb
    m |>.lu nBlocks M11 hnb
partial_fixpoint

end Division

variable {nBlocks : ℕ} {p : ℤ} {m₀ m m' : Memory F} {A G : ℕ → ℕ → F}

theorem blockOf_blockOf (I J I' J' : ℕ) :
    blockOf nBlocks (blockOf nBlocks p I J) I' J' = blockOf nBlocks p (I + I') (J + J') := by
  simp only [blockOf]
  push_cast
  ring

/-- The pointer to a quarter of a window. -/
theorem matrixAt_blockOf {n I J I' J' : ℕ} (indexable : Indexable nBlocks n) (hI : I' ≤ n) (hJ : J' ≤ n) :
    matrixAt nBlocks (blockOf nBlocks p I J) I' J' = some (blockOf nBlocks p (I + I') (J + J')) := by
  rw [matrixAt_eq indexable hI hJ, blockOf_blockOf]

/-- Windows of `n` by `n` blocks at `(I, J)` and `(I', J')` have no block in common. -/
def Apart (n I J I' J' : ℕ) : Prop := I + n ≤ I' ∨ I' + n ≤ I ∨ J + n ≤ J' ∨ J' + n ≤ J

theorem within_iff {R C n r c : ℕ} : Within R C n r c ↔ (R ≤ r ∧ r < R + n) ∧ C ≤ c ∧ c < C + n := Iff.rfl

omit [Field F] in
theorem overwrite_inside {R C n r c : ℕ} (within : Within R C n r c) : overwrite A R C n G r c = G r c :=
  if_pos within

omit [Field F] in
theorem overwrite_outside {R C n r c : ℕ} (outside : ¬ Within R C n r c) : overwrite A R C n G r c = A r c :=
  if_neg outside

/-! ### Schur complement -/

section Schur
variable (A : ℕ → ℕ → F) (R C R₁ C₁ R₂ C₂ h : ℕ)

/-- The part of `V W` that the columns of `V` from `d` on contribute. -/
def contribution (d r c : ℕ) : F :=
  ∑ t ∈ Finset.range h, A (R₁ + (r - R)) (C₁ + d + t) * A (R₂ + d + t) (C₂ + (c - C))

/-- One of the eight recursive calls: quadrant `(di, dj)` loses one contribution. -/
def quadrant (di dj d : ℕ) (A' : ℕ → ℕ → F) (r c : ℕ) : F :=
  if Within (R + di) (C + dj) h r c then A' r c - contribution A R C R₁ C₁ R₂ C₂ h d r c else A' r c

variable {A R C R₁ C₁ R₂ C₂ h}

theorem quadrants_eq (r c : ℕ) : subtracted A R C (h + h) R₁ C₁ R₂ C₂ r c =
    quadrant A R C R₁ C₁ R₂ C₂ h h h h (quadrant A R C R₁ C₁ R₂ C₂ h h 0 h
      (quadrant A R C R₁ C₁ R₂ C₂ h 0 h h (quadrant A R C R₁ C₁ R₂ C₂ h 0 0 h
        (quadrant A R C R₁ C₁ R₂ C₂ h h h 0 (quadrant A R C R₁ C₁ R₂ C₂ h h 0 0
          (quadrant A R C R₁ C₁ R₂ C₂ h 0 h 0 (quadrant A R C R₁ C₁ R₂ C₂ h 0 0 0 A))))))) r c := by
  have halves : ∑ t ∈ Finset.range (h + h), A (R₁ + (r - R)) (C₁ + t) * A (R₂ + t) (C₂ + (c - C)) =
      contribution A R C R₁ C₁ R₂ C₂ h 0 r c + contribution A R C R₁ C₁ R₂ C₂ h h r c := by
    simp only [Finset.sum_range_add, contribution, add_zero, add_assoc]
  simp only [subtracted, quadrant, halves]
  by_cases within : Within R C (h + h) r c
  · rw [if_pos within]
    rw [within_iff] at within
    rcases lt_or_ge r (R + h) with upper | lower
    · have below (dj : ℕ) : ¬ Within (R + h) (C + dj) h r c := by rw [within_iff]; omega
      rcases lt_or_ge c (C + h) with left | right
      · have here : Within (R + 0) (C + 0) h r c := by rw [within_iff]; omega
        have beside : ¬ Within (R + 0) (C + h) h r c := by rw [within_iff]; omega
        simp only [if_neg (below _), if_neg beside, if_pos here]
        ring
      · have here : Within (R + 0) (C + h) h r c := by rw [within_iff]; omega
        have beside : ¬ Within (R + 0) (C + 0) h r c := by rw [within_iff]; omega
        simp only [if_neg (below _), if_neg beside, if_pos here]
        ring
    · have above (dj : ℕ) : ¬ Within (R + 0) (C + dj) h r c := by rw [within_iff]; omega
      rcases lt_or_ge c (C + h) with left | right
      · have here : Within (R + h) (C + 0) h r c := by rw [within_iff]; omega
        have beside : ¬ Within (R + h) (C + h) h r c := by rw [within_iff]; omega
        simp only [if_neg (above _), if_neg beside, if_pos here]
        ring
      · have here : Within (R + h) (C + h) h r c := by rw [within_iff]; omega
        have beside : ¬ Within (R + h) (C + 0) h r c := by rw [within_iff]; omega
        simp only [if_neg (above _), if_neg beside, if_pos here]
        ring
  · rw [if_neg within]
    rw [within_iff] at within
    have outside (di dj : ℕ) (hi : di ≤ h) (hj : dj ≤ h) : ¬ Within (R + di) (C + dj) h r c := by
      rw [within_iff]
      omega
    rw [if_neg (outside h h le_rfl le_rfl), if_neg (outside h 0 le_rfl (Nat.zero_le h)),
      if_neg (outside 0 h (Nat.zero_le h) le_rfl), if_neg (outside 0 0 (Nat.zero_le h) (Nat.zero_le h)),
      if_neg (outside h h le_rfl le_rfl), if_neg (outside h 0 le_rfl (Nat.zero_le h)),
      if_neg (outside 0 h (Nat.zero_le h) le_rfl), if_neg (outside 0 0 (Nat.zero_le h) (Nat.zero_le h))]

/-- Calls on quadrants leave everything else alone. -/
theorem quadrant_outside {di dj d : ℕ} {A' : ℕ → ℕ → F} (hi : di ≤ h) (hj : dj ≤ h)
    (frame : ∀ r c, ¬ Within R C (h + h) r c → A' r c = A r c) :
    ∀ r c, ¬ Within R C (h + h) r c → quadrant A R C R₁ C₁ R₂ C₂ h di dj d A' r c = A r c := by
  intro r c outside
  rw [quadrant, if_neg, frame r c outside]
  rw [within_iff] at *
  omega

end Schur

theorem double (k : ℕ) : 2 ^ (k + 1) / 2 = 2 ^ k := by
  rw [pow_succ, Nat.mul_div_cancel _ (by decide)]

theorem half_le (n : ℕ) : n / 2 ≤ n := Nat.div_le_self n 2

theorem not_one (k : ℕ) : 2 ^ (k + 1) ≠ 1 := by
  have := Nat.two_pow_pos k
  rw [pow_succ]
  omega

/-- What `schur` does on windows of `n` by `n` blocks. -/
def SchurSpec (nBlocks : ℕ) (p : ℤ) (m₀ : Memory F) (n : ℕ) : Prop :=
  ∀ {m : Memory F} {A : ℕ → ℕ → F} {I J I₁ J₁ I₂ J₂ : ℕ}, I + n ≤ nBlocks → J + n ≤ nBlocks → I₁ + n ≤ nBlocks →
    J₁ + n ≤ nBlocks → I₂ + n ≤ nBlocks → J₂ + n ≤ nBlocks → Apart n I J I₁ J₁ → Apart n I J I₂ J₂ →
    Holds nBlocks p m₀ m A →
    ∃ m', schur nBlocks m (blockOf nBlocks p I J) (blockOf nBlocks p I₁ J₁) (blockOf nBlocks p I₂ J₂) n = some m' ∧
      Holds nBlocks p m₀ m' (subtracted A (BLOCK_SIZE * I) (BLOCK_SIZE * J) (BLOCK_SIZE * n)
        (BLOCK_SIZE * I₁) (BLOCK_SIZE * J₁) (BLOCK_SIZE * I₂) (BLOCK_SIZE * J₂))

/-- One recursive call, on a quadrant of `M` and with the blocks of `V` and `W` as they were. -/
theorem schur_quadrant {n I J I₁ J₁ I₂ J₂ : ℕ} (spec : SchurSpec nBlocks p m₀ n) (hI : I + (n + n) ≤ nBlocks)
    (hJ : J + (n + n) ≤ nBlocks) (hI₁ : I₁ + (n + n) ≤ nBlocks) (hJ₁ : J₁ + (n + n) ≤ nBlocks)
    (hI₂ : I₂ + (n + n) ≤ nBlocks) (hJ₂ : J₂ + (n + n) ≤ nBlocks) (apart₁ : Apart (n + n) I J I₁ J₁)
    (apart₂ : Apart (n + n) I J I₂ J₂) (m : Memory F) (A' : ℕ → ℕ → F) (di dj d : ℕ) (hdi : di ≤ n) (hdj : dj ≤ n)
    (hd : d ≤ n) (holds : Holds nBlocks p m₀ m A')
    (frame : ∀ r c, ¬ Within (BLOCK_SIZE * I) (BLOCK_SIZE * J) (BLOCK_SIZE * n + BLOCK_SIZE * n) r c →
      A' r c = A r c) :
    ∃ m', schur nBlocks m (blockOf nBlocks p (I + di) (J + dj)) (blockOf nBlocks p (I₁ + di) (J₁ + d))
        (blockOf nBlocks p (I₂ + d) (J₂ + dj)) n = some m' ∧
      Holds nBlocks p m₀ m' (quadrant A (BLOCK_SIZE * I) (BLOCK_SIZE * J) (BLOCK_SIZE * I₁) (BLOCK_SIZE * J₁)
        (BLOCK_SIZE * I₂) (BLOCK_SIZE * J₂) (BLOCK_SIZE * n) (BLOCK_SIZE * di) (BLOCK_SIZE * dj) (BLOCK_SIZE * d) A') ∧
      ∀ r c, ¬ Within (BLOCK_SIZE * I) (BLOCK_SIZE * J) (BLOCK_SIZE * n + BLOCK_SIZE * n) r c →
        quadrant A (BLOCK_SIZE * I) (BLOCK_SIZE * J) (BLOCK_SIZE * I₁) (BLOCK_SIZE * J₁) (BLOCK_SIZE * I₂)
          (BLOCK_SIZE * J₂) (BLOCK_SIZE * n) (BLOCK_SIZE * di) (BLOCK_SIZE * dj) (BLOCK_SIZE * d) A' r c = A r c := by
  simp only [Apart] at apart₁ apart₂
  obtain ⟨m', run, holds'⟩ := @spec m A' (I + di) (J + dj) (I₁ + di) (J₁ + d) (I₂ + d) (J₂ + dj)
    (by omega) (by omega) (by omega) (by omega) (by omega) (by omega) (by rw [Apart]; omega)
    (by rw [Apart]; omega) holds
  refine ⟨m', run, holds'.congr fun r c _ _ => ?_, quadrant_outside
    (Nat.mul_le_mul_left BLOCK_SIZE hdi) (Nat.mul_le_mul_left BLOCK_SIZE hdj) frame⟩
  rw [quadrant, subtracted, ← mul_add, ← mul_add]
  by_cases within : Within (BLOCK_SIZE * (I + di)) (BLOCK_SIZE * (J + dj)) (BLOCK_SIZE * n) r c
  · rw [if_pos within, if_pos within]
    congr 1
    apply Finset.sum_congr rfl
    intro t inside
    rw [Finset.mem_range] at inside
    simp only [within_iff, BLOCK_SIZE] at within inside frame ⊢
    rw [frame _ _ (by omega), frame _ _ (by omega)]
    congr 2 <;> omega
  · rw [if_neg within, if_neg within]

variable (nBlocks p m₀) in
theorem schur_spec (k : ℕ) (indexable : Indexable nBlocks (2 ^ k / 2)) : SchurSpec nBlocks p m₀ (2 ^ k) := by
  induction k with
  | zero =>
    intro m A I J I₁ J₁ I₂ J₂ hI hJ hI₁ hJ₁ hI₂ hJ₂ apart₁ apart₂ holds
    rw [schur, if_pos (pow_zero 2)]
    simp only [pow_zero, mul_one, Apart] at *
    exact blockSchur_spec (by omega) (by omega) (by omega) (by omega) (by omega) (by omega) (by omega) (by omega)
      holds
  | succ k ih =>
    intro m A I J I₁ J₁ I₂ J₂ hI hJ hI₁ hJ₁ hI₂ hJ₂ apart₁ apart₂ holds
    have twice : 2 ^ (k + 1) = 2 ^ k + 2 ^ k := by rw [pow_succ, mul_two]
    have zero : 0 ≤ 2 ^ k := Nat.zero_le _
    rw [twice] at hI hJ hI₁ hJ₁ hI₂ hJ₂ apart₁ apart₂
    rw [double] at indexable
    have call := schur_quadrant (A := A) (ih (indexable.mono (half_le _))) hI hJ hI₁ hJ₁ hI₂ hJ₂ apart₁ apart₂
    obtain ⟨m₁, run₁, holds₁, frame₁⟩ := call m A 0 0 0 zero zero zero holds fun r c _ => rfl
    obtain ⟨m₂, run₂, holds₂, frame₂⟩ := call m₁ _ 0 (2 ^ k) 0 zero le_rfl zero holds₁ frame₁
    obtain ⟨m₃, run₃, holds₃, frame₃⟩ := call m₂ _ (2 ^ k) 0 0 le_rfl zero zero holds₂ frame₂
    obtain ⟨m₄, run₄, holds₄, frame₄⟩ := call m₃ _ (2 ^ k) (2 ^ k) 0 le_rfl le_rfl zero holds₃ frame₃
    obtain ⟨m₅, run₅, holds₅, frame₅⟩ := call m₄ _ 0 0 (2 ^ k) zero zero le_rfl holds₄ frame₄
    obtain ⟨m₆, run₆, holds₆, frame₆⟩ := call m₅ _ 0 (2 ^ k) (2 ^ k) zero le_rfl le_rfl holds₅ frame₅
    obtain ⟨m₇, run₇, holds₇, frame₇⟩ := call m₆ _ (2 ^ k) 0 (2 ^ k) le_rfl zero le_rfl holds₆ frame₆
    obtain ⟨m₈, run₈, holds₈, -⟩ := call m₇ _ (2 ^ k) (2 ^ k) (2 ^ k) le_rfl le_rfl le_rfl holds₇ frame₇
    refine ⟨m₈, ?_, holds₈.congr fun r c _ _ => ?_⟩
    · rw [schur, if_neg (not_one k)]
      simp only [double, matrixAt_blockOf indexable zero zero, matrixAt_blockOf indexable zero le_rfl,
        matrixAt_blockOf indexable le_rfl zero, matrixAt_blockOf indexable le_rfl le_rfl,
        run₁, run₂, run₃, run₄, run₅, run₆, run₇, run₈, Option.bind_eq_bind, Option.bind_some]
    · rw [twice, mul_add, quadrants_eq]
      rfl

/-! ### Triangular solvers -/

/-- `h` rows from `R` on and `w` columns from `C` on. -/
def Inside (R C h w r c : ℕ) : Prop := (R ≤ r ∧ r < R + h) ∧ C ≤ c ∧ c < C + w

instance (R C h w r c : ℕ) : Decidable (Inside R C h w r c) := by
  unfold Inside
  infer_instance

theorem inside_iff {R C h w r c : ℕ} : Inside R C h w r c ↔ (R ≤ r ∧ r < R + h) ∧ C ≤ c ∧ c < C + w := Iff.rfl

def overwriteRect (A : ℕ → ℕ → F) (R C h w : ℕ) (G : ℕ → ℕ → F) (r c : ℕ) : F :=
  if Inside R C h w r c then G r c else A r c

/-- `LowerSolves` on `h` rows and `w` columns. -/
def LowerRect (A : ℕ → ℕ → F) (R C h w R₁ C₁ : ℕ) (G : ℕ → ℕ → F) : Prop :=
  ∀ i j, i < h → j < w → A (R + i) (C + j) =
    G (R + i) (C + j) + ∑ t ∈ Finset.range i, A (R₁ + i) (C₁ + t) * G (R + t) (C + j)

/-- `UpperSolves` on `h` rows and `w` columns. -/
def UpperRect (A : ℕ → ℕ → F) (R C h w R₁ C₁ : ℕ) (G : ℕ → ℕ → F) : Prop :=
  ∀ i j, i < h → j < w → A (R + i) (C + j) =
    ∑ t ∈ Finset.range j, G (R + i) (C + t) * A (R₁ + t) (C₁ + j) + G (R + i) (C + j) * A (R₁ + j) (C₁ + j)

section Lower
variable {R C R₁ C₁ H : ℕ}

/-- After the upper half is solved and multiplied out, the lower half has a system of its own. -/
theorem LowerRect.rest (solves : LowerRect A R C (H + H) H R₁ C₁ G) {A₁ : ℕ → ℕ → F}
    (left : ∀ i t, i < H + H → t < H + H → A₁ (R₁ + i) (C₁ + t) = A (R₁ + i) (C₁ + t))
    (upper : ∀ i j, i < H → j < H → A₁ (R + i) (C + j) = G (R + i) (C + j))
    (lower : ∀ i j, i < H → j < H → A₁ (R + H + i) (C + j) = A (R + H + i) (C + j))
    (apart : ∀ i t, i < H + H → t < H + H → ¬ Within (R + H) C H (R₁ + i) (C₁ + t)) :
    LowerRect (subtracted A₁ (R + H) C H (R₁ + H) C₁ R C) (R + H) C H H (R₁ + H) (C₁ + H) G := by
  intro i j hi hj
  have equation := solves (H + i) j (by omega) hj
  have rows : Within (R + H) C H (R + H + i) (C + j) := by rw [within_iff]; omega
  have remaining : ∑ t ∈ Finset.range i, subtracted A₁ (R + H) C H (R₁ + H) C₁ R C (R₁ + H + i) (C₁ + H + t) *
      G (R + H + t) (C + j) = ∑ t ∈ Finset.range i, A (R₁ + (H + i)) (C₁ + (H + t)) * G (R + (H + t)) (C + j) := by
    apply Finset.sum_congr rfl
    intro t inside
    rw [Finset.mem_range] at inside
    simp only [add_assoc]
    rw [subtracted, if_neg (apart (H + i) (H + t) (by omega) (by omega)), left _ _ (by omega) (by omega)]
  have product : ∑ t ∈ Finset.range H, A₁ (R₁ + H + (R + H + i - (R + H))) (C₁ + t) *
      A₁ (R + t) (C + (C + j - C)) =
      ∑ t ∈ Finset.range H, A (R₁ + (H + i)) (C₁ + t) * G (R + t) (C + j) := by
    apply Finset.sum_congr rfl
    intro t inside
    rw [Finset.mem_range] at inside
    rw [Nat.add_sub_cancel_left, Nat.add_sub_cancel_left, add_assoc, left _ _ (by omega) (by omega),
      upper t j inside hj]
  rw [remaining, subtracted, if_pos rows, product, lower i j hi hj, add_assoc, equation, Finset.sum_range_add]
  ring

/-- What `lower_solve` does on windows of `n` by `n` blocks. -/
def LowerSpec (nBlocks : ℕ) (p : ℤ) (m₀ : Memory F) (n : ℕ) : Prop :=
  ∀ {m : Memory F} {A G : ℕ → ℕ → F} (I J I' J' : ℕ), I + n ≤ nBlocks → J + n ≤ nBlocks → I' + n ≤ nBlocks →
    J' + n ≤ nBlocks → Apart n I J I' J' → Holds nBlocks p m₀ m A →
    LowerSolves A (BLOCK_SIZE * I) (BLOCK_SIZE * J) (BLOCK_SIZE * n) (BLOCK_SIZE * I') (BLOCK_SIZE * J') G →
    ∃ m', lowerSolve nBlocks m (blockOf nBlocks p I J) (blockOf nBlocks p I' J') n = some m' ∧
      Holds nBlocks p m₀ m' (overwrite A (BLOCK_SIZE * I) (BLOCK_SIZE * J) (BLOCK_SIZE * n) G)

theorem auxLowerSolve_spec {k I J I' J' : ℕ} (indexable : Indexable nBlocks (2 ^ k))
    (spec : LowerSpec nBlocks p m₀ (2 ^ k)) (hI : I + (2 ^ k + 2 ^ k) ≤ nBlocks) (hJ : J + 2 ^ k ≤ nBlocks)
    (hI' : I' + (2 ^ k + 2 ^ k) ≤ nBlocks) (hJ' : J' + (2 ^ k + 2 ^ k) ≤ nBlocks)
    (apart : I + (2 ^ k + 2 ^ k) ≤ I' ∨ I' + (2 ^ k + 2 ^ k) ≤ I ∨ J + 2 ^ k ≤ J' ∨ J' + (2 ^ k + 2 ^ k) ≤ J)
    (holds : Holds nBlocks p m₀ m A)
    (solves : LowerRect A (BLOCK_SIZE * I) (BLOCK_SIZE * J) (BLOCK_SIZE * 2 ^ k + BLOCK_SIZE * 2 ^ k)
      (BLOCK_SIZE * 2 ^ k) (BLOCK_SIZE * I') (BLOCK_SIZE * J') G) :
    ∃ m', auxLowerSolve nBlocks m (blockOf nBlocks p I J) (blockOf nBlocks p (I + 2 ^ k) J)
        (blockOf nBlocks p I' J') (2 ^ k) = some m' ∧
      Holds nBlocks p m₀ m' (overwriteRect A (BLOCK_SIZE * I) (BLOCK_SIZE * J)
        (BLOCK_SIZE * 2 ^ k + BLOCK_SIZE * 2 ^ k) (BLOCK_SIZE * 2 ^ k) G) := by
  have positive : 0 < 2 ^ k := Nat.two_pow_pos k
  have zero : 0 ≤ 2 ^ k := Nat.zero_le _
  obtain ⟨m₁, run₁, holds₁⟩ := spec I J I' J' (by omega) hJ (by omega) (by omega) (by rw [Apart]; omega) holds
    fun i j hi hj => solves i j (by omega) hj
  obtain ⟨m₂, run₂, holds₂⟩ :=
    @schur_spec _ _ nBlocks p m₀ k (indexable.mono (half_le _)) m₁ _ (I + 2 ^ k) J (I' + 2 ^ k) J' I J (by omega) hJ
    (by omega) (by omega) (by omega) hJ (by rw [Apart]; omega) (by rw [Apart]; omega) holds₁
  have remaining : LowerRect (subtracted
      (overwrite A (BLOCK_SIZE * I) (BLOCK_SIZE * J) (BLOCK_SIZE * 2 ^ k) G) (BLOCK_SIZE * I + BLOCK_SIZE * 2 ^ k)
      (BLOCK_SIZE * J) (BLOCK_SIZE * 2 ^ k) (BLOCK_SIZE * I' + BLOCK_SIZE * 2 ^ k) (BLOCK_SIZE * J')
      (BLOCK_SIZE * I) (BLOCK_SIZE * J)) (BLOCK_SIZE * I + BLOCK_SIZE * 2 ^ k) (BLOCK_SIZE * J)
      (BLOCK_SIZE * 2 ^ k) (BLOCK_SIZE * 2 ^ k) (BLOCK_SIZE * I' + BLOCK_SIZE * 2 ^ k)
      (BLOCK_SIZE * J' + BLOCK_SIZE * 2 ^ k) G := by
    apply solves.rest
    · intro i t hi ht
      apply overwrite_outside
      rw [within_iff]
      simp only [BLOCK_SIZE] at *
      omega
    · exact fun i j hi hj => overwrite_inside (by rw [within_iff]; omega)
    · exact fun i j hi hj => overwrite_outside (by rw [within_iff]; omega)
    · intro i t hi ht
      rw [within_iff]
      simp only [BLOCK_SIZE] at *
      omega
  simp only [← mul_add] at remaining holds₂
  obtain ⟨m₃, run₃, holds₃⟩ := spec (I + 2 ^ k) J (I' + 2 ^ k) (J' + 2 ^ k) (by omega) hJ (by omega) (by omega)
    (by rw [Apart]; omega) holds₂ remaining
  refine ⟨m₃, ?_, holds₃.congr fun r c _ _ => ?_⟩
  · rw [auxLowerSolve]
    simp only [matrixAt_blockOf indexable zero zero, matrixAt_blockOf indexable zero le_rfl,
      matrixAt_blockOf indexable le_rfl zero, matrixAt_blockOf indexable le_rfl le_rfl,
      add_zero, run₁, run₂, run₃, Option.bind_eq_bind, Option.bind_some]
  · simp only [overwriteRect, overwrite, subtracted, mul_add]
    by_cases lower : Within (BLOCK_SIZE * I + BLOCK_SIZE * 2 ^ k) (BLOCK_SIZE * J) (BLOCK_SIZE * 2 ^ k) r c
    · rw [if_pos lower, if_pos]
      rw [inside_iff, within_iff] at *
      omega
    · rw [if_neg lower, if_neg lower]
      exact if_congr (by rw [inside_iff, within_iff] at *; omega) rfl rfl

variable (nBlocks p m₀) in
theorem lowerSolve_spec (k : ℕ) (indexable : Indexable nBlocks (2 ^ k / 2)) : LowerSpec nBlocks p m₀ (2 ^ k) := by
  induction k with
  | zero =>
    intro m A G I J I' J' hI hJ hI' hJ' apart holds solves
    rw [lowerSolve, if_pos (pow_zero 2)]
    simp only [pow_zero, mul_one, Apart] at *
    exact blockLowerSolve_spec (by omega) (by omega) (by omega) (by omega) (by omega) holds solves
  | succ k ih =>
    intro m A G I J I' J' hI hJ hI' hJ' apart holds solves
    have twice : 2 ^ (k + 1) = 2 ^ k + 2 ^ k := by rw [pow_succ, mul_two]
    have positive : 0 < 2 ^ k := Nat.two_pow_pos k
    have zero : 0 ≤ 2 ^ k := Nat.zero_le _
    rw [double] at indexable
    rw [Apart, twice] at apart
    rw [twice] at hI hJ hI' hJ'
    rw [twice, mul_add] at solves
    obtain ⟨m₁, run₁, holds₁⟩ :=
      auxLowerSolve_spec indexable (ih (indexable.mono (half_le _))) hI (by omega) hI' hJ' (by omega) holds
      fun i j hi hj => solves i j hi (by omega)
    have left (r c : ℕ) (outside : ¬ (BLOCK_SIZE * J ≤ c ∧ c < BLOCK_SIZE * J + BLOCK_SIZE * 2 ^ k) ∨
        ¬ (BLOCK_SIZE * I ≤ r ∧ r < BLOCK_SIZE * I + (BLOCK_SIZE * 2 ^ k + BLOCK_SIZE * 2 ^ k))) :
        overwriteRect A (BLOCK_SIZE * I) (BLOCK_SIZE * J) (BLOCK_SIZE * 2 ^ k + BLOCK_SIZE * 2 ^ k)
          (BLOCK_SIZE * 2 ^ k) G r c = A r c := if_neg (by rw [inside_iff]; omega)
    have right : LowerRect (overwriteRect A (BLOCK_SIZE * I) (BLOCK_SIZE * J)
        (BLOCK_SIZE * 2 ^ k + BLOCK_SIZE * 2 ^ k) (BLOCK_SIZE * 2 ^ k) G) (BLOCK_SIZE * I) (BLOCK_SIZE * (J + 2 ^ k))
        (BLOCK_SIZE * 2 ^ k + BLOCK_SIZE * 2 ^ k) (BLOCK_SIZE * 2 ^ k) (BLOCK_SIZE * I') (BLOCK_SIZE * J') G := by
      intro i j hi hj
      have equation := solves i (BLOCK_SIZE * 2 ^ k + j) hi (by omega)
      rw [left _ _ (.inl (by rw [mul_add]; omega)), mul_add, add_assoc, equation]
      congr 1
      apply Finset.sum_congr rfl
      intro t inside
      rw [Finset.mem_range] at inside
      rw [left _ _ (by simp only [BLOCK_SIZE] at *; omega)]
    obtain ⟨m₂, run₂, holds₂⟩ :=
      auxLowerSolve_spec indexable (ih (indexable.mono (half_le _))) hI (by omega) hI' hJ' (by omega) holds₁ right
    refine ⟨m₂, ?_, holds₂.congr fun r c _ _ => ?_⟩
    · rw [lowerSolve, if_neg (not_one k)]
      simp only [double, matrixAt_blockOf indexable zero zero, matrixAt_blockOf indexable zero le_rfl,
        matrixAt_blockOf indexable le_rfl zero, matrixAt_blockOf indexable le_rfl le_rfl,
        add_zero, run₁, run₂, Option.bind_eq_bind, Option.bind_some]
    · simp only [overwrite, overwriteRect, twice, mul_add]
      by_cases here : Inside (BLOCK_SIZE * I) (BLOCK_SIZE * J + BLOCK_SIZE * 2 ^ k)
          (BLOCK_SIZE * 2 ^ k + BLOCK_SIZE * 2 ^ k) (BLOCK_SIZE * 2 ^ k) r c
      · rw [if_pos here, if_pos]
        rw [inside_iff, within_iff] at *
        omega
      · rw [if_neg here]
        exact if_congr (by rw [inside_iff, within_iff] at *; omega) rfl rfl

end Lower

section Upper
variable {R C R₁ C₁ H : ℕ}

/-- The same for the right half, after the left half. -/
theorem UpperRect.rest (solves : UpperRect A R C H (H + H) R₁ C₁ G) {A₁ : ℕ → ℕ → F}
    (upper : ∀ t j, t < H + H → j < H + H → A₁ (R₁ + t) (C₁ + j) = A (R₁ + t) (C₁ + j))
    (left : ∀ i j, i < H → j < H → A₁ (R + i) (C + j) = G (R + i) (C + j))
    (right : ∀ i j, i < H → j < H → A₁ (R + i) (C + H + j) = A (R + i) (C + H + j))
    (apart : ∀ t j, t < H + H → j < H + H → ¬ Within R (C + H) H (R₁ + t) (C₁ + j)) :
    UpperRect (subtracted A₁ R (C + H) H R C R₁ (C₁ + H)) R (C + H) H H (R₁ + H) (C₁ + H) G := by
  intro i j hi hj
  have equation := solves i (H + j) hi (by omega)
  have columns : Within R (C + H) H (R + i) (C + H + j) := by rw [within_iff]; omega
  have kept (t : ℕ) (ht : t < H) : subtracted A₁ R (C + H) H R C R₁ (C₁ + H) (R₁ + H + t) (C₁ + H + j) =
      A (R₁ + (H + t)) (C₁ + (H + j)) := by
    rw [add_assoc, add_assoc, subtracted, if_neg (apart (H + t) (H + j) (by omega) (by omega)),
      upper _ _ (by omega) (by omega)]
  have remaining : ∑ t ∈ Finset.range j, G (R + i) (C + H + t) *
      subtracted A₁ R (C + H) H R C R₁ (C₁ + H) (R₁ + H + t) (C₁ + H + j) =
      ∑ t ∈ Finset.range j, G (R + i) (C + (H + t)) * A (R₁ + (H + t)) (C₁ + (H + j)) := by
    apply Finset.sum_congr rfl
    intro t inside
    rw [Finset.mem_range] at inside
    rw [kept t (by omega), add_assoc]
  have product : ∑ t ∈ Finset.range H, A₁ (R + (R + i - R)) (C + t) *
      A₁ (R₁ + t) (C₁ + H + (C + H + j - (C + H))) =
      ∑ t ∈ Finset.range H, G (R + i) (C + t) * A (R₁ + t) (C₁ + (H + j)) := by
    apply Finset.sum_congr rfl
    intro t inside
    rw [Finset.mem_range] at inside
    rw [Nat.add_sub_cancel_left, Nat.add_sub_cancel_left, left i t hi inside, add_assoc,
      upper t (H + j) (by omega) (by omega)]
  rw [remaining, kept j hj, subtracted, if_pos columns, product, right i j hi hj, add_assoc, equation,
    Finset.sum_range_add]
  ring

variable [DecidableEq F]

/-- What `upper_solve` does on windows of `n` by `n` blocks. -/
def UpperSpec (nBlocks : ℕ) (p : ℤ) (m₀ : Memory F) (n : ℕ) : Prop :=
  ∀ {m : Memory F} {A G : ℕ → ℕ → F} (I J I' J' : ℕ), I + n ≤ nBlocks → J + n ≤ nBlocks → I' + n ≤ nBlocks →
    J' + n ≤ nBlocks → Apart n I J I' J' → Holds nBlocks p m₀ m A →
    (∀ t < BLOCK_SIZE * n, A (BLOCK_SIZE * I' + t) (BLOCK_SIZE * J' + t) ≠ 0) →
    UpperSolves A (BLOCK_SIZE * I) (BLOCK_SIZE * J) (BLOCK_SIZE * n) (BLOCK_SIZE * I') (BLOCK_SIZE * J') G →
    ∃ m', upperSolve nBlocks m (blockOf nBlocks p I J) (blockOf nBlocks p I' J') n = some m' ∧
      Holds nBlocks p m₀ m' (overwrite A (BLOCK_SIZE * I) (BLOCK_SIZE * J) (BLOCK_SIZE * n) G)

theorem auxUpperSolve_spec {k I J I' J' : ℕ} (indexable : Indexable nBlocks (2 ^ k))
    (spec : UpperSpec nBlocks p m₀ (2 ^ k)) (hI : I + 2 ^ k ≤ nBlocks) (hJ : J + (2 ^ k + 2 ^ k) ≤ nBlocks)
    (hI' : I' + (2 ^ k + 2 ^ k) ≤ nBlocks) (hJ' : J' + (2 ^ k + 2 ^ k) ≤ nBlocks)
    (apart : I + 2 ^ k ≤ I' ∨ I' + (2 ^ k + 2 ^ k) ≤ I ∨ J + (2 ^ k + 2 ^ k) ≤ J' ∨ J' + (2 ^ k + 2 ^ k) ≤ J)
    (holds : Holds nBlocks p m₀ m A)
    (pivots : ∀ t < BLOCK_SIZE * 2 ^ k + BLOCK_SIZE * 2 ^ k, A (BLOCK_SIZE * I' + t) (BLOCK_SIZE * J' + t) ≠ 0)
    (solves : UpperRect A (BLOCK_SIZE * I) (BLOCK_SIZE * J) (BLOCK_SIZE * 2 ^ k)
      (BLOCK_SIZE * 2 ^ k + BLOCK_SIZE * 2 ^ k) (BLOCK_SIZE * I') (BLOCK_SIZE * J') G) :
    ∃ m', auxUpperSolve nBlocks m (blockOf nBlocks p I J) (blockOf nBlocks p I (J + 2 ^ k))
        (blockOf nBlocks p I' J') (2 ^ k) = some m' ∧
      Holds nBlocks p m₀ m' (overwriteRect A (BLOCK_SIZE * I) (BLOCK_SIZE * J) (BLOCK_SIZE * 2 ^ k)
        (BLOCK_SIZE * 2 ^ k + BLOCK_SIZE * 2 ^ k) G) := by
  have positive : 0 < 2 ^ k := Nat.two_pow_pos k
  have zero : 0 ≤ 2 ^ k := Nat.zero_le _
  obtain ⟨m₁, run₁, holds₁⟩ := spec I J I' J' hI (by omega) (by omega) (by omega) (by rw [Apart]; omega) holds
    (fun t ht => pivots t (by omega)) fun i j hi hj => solves i j hi (by omega)
  obtain ⟨m₂, run₂, holds₂⟩ :=
    @schur_spec _ _ nBlocks p m₀ k (indexable.mono (half_le _)) m₁ _ I (J + 2 ^ k) I J I' (J' + 2 ^ k) hI (by omega)
    hI (by omega) (by omega) (by omega) (by rw [Apart]; omega) (by rw [Apart]; omega) holds₁
  have untouched (t j : ℕ) (ht : t < BLOCK_SIZE * 2 ^ k + BLOCK_SIZE * 2 ^ k)
      (hj : j < BLOCK_SIZE * 2 ^ k + BLOCK_SIZE * 2 ^ k) :
      overwrite A (BLOCK_SIZE * I) (BLOCK_SIZE * J) (BLOCK_SIZE * 2 ^ k) G (BLOCK_SIZE * I' + t)
        (BLOCK_SIZE * J' + j) = A (BLOCK_SIZE * I' + t) (BLOCK_SIZE * J' + j) := by
    apply overwrite_outside
    rw [within_iff]
    simp only [BLOCK_SIZE] at *
    omega
  have beside (t j : ℕ) (ht : t < BLOCK_SIZE * 2 ^ k + BLOCK_SIZE * 2 ^ k)
      (hj : j < BLOCK_SIZE * 2 ^ k + BLOCK_SIZE * 2 ^ k) : ¬ Within (BLOCK_SIZE * I)
        (BLOCK_SIZE * J + BLOCK_SIZE * 2 ^ k) (BLOCK_SIZE * 2 ^ k) (BLOCK_SIZE * I' + t) (BLOCK_SIZE * J' + j) := by
    rw [within_iff]
    simp only [BLOCK_SIZE] at *
    omega
  have remaining : UpperRect (subtracted
      (overwrite A (BLOCK_SIZE * I) (BLOCK_SIZE * J) (BLOCK_SIZE * 2 ^ k) G) (BLOCK_SIZE * I)
      (BLOCK_SIZE * J + BLOCK_SIZE * 2 ^ k) (BLOCK_SIZE * 2 ^ k) (BLOCK_SIZE * I) (BLOCK_SIZE * J)
      (BLOCK_SIZE * I') (BLOCK_SIZE * J' + BLOCK_SIZE * 2 ^ k)) (BLOCK_SIZE * I)
      (BLOCK_SIZE * J + BLOCK_SIZE * 2 ^ k) (BLOCK_SIZE * 2 ^ k) (BLOCK_SIZE * 2 ^ k)
      (BLOCK_SIZE * I' + BLOCK_SIZE * 2 ^ k) (BLOCK_SIZE * J' + BLOCK_SIZE * 2 ^ k) G := by
    apply solves.rest untouched
    · exact fun i j hi hj => overwrite_inside (by rw [within_iff]; omega)
    · exact fun i j hi hj => overwrite_outside (by rw [within_iff]; omega)
    · exact beside
  have nonzero (t : ℕ) (ht : t < BLOCK_SIZE * 2 ^ k) : subtracted
      (overwrite A (BLOCK_SIZE * I) (BLOCK_SIZE * J) (BLOCK_SIZE * 2 ^ k) G) (BLOCK_SIZE * I)
      (BLOCK_SIZE * J + BLOCK_SIZE * 2 ^ k) (BLOCK_SIZE * 2 ^ k) (BLOCK_SIZE * I) (BLOCK_SIZE * J)
      (BLOCK_SIZE * I') (BLOCK_SIZE * J' + BLOCK_SIZE * 2 ^ k) (BLOCK_SIZE * I' + BLOCK_SIZE * 2 ^ k + t)
      (BLOCK_SIZE * J' + BLOCK_SIZE * 2 ^ k + t) ≠ 0 := by
    rw [add_assoc, add_assoc, subtracted, if_neg (beside _ _ (by omega) (by omega)),
      untouched _ _ (by omega) (by omega)]
    exact pivots _ (by omega)
  simp only [← mul_add] at remaining nonzero holds₂
  obtain ⟨m₃, run₃, holds₃⟩ := spec I (J + 2 ^ k) (I' + 2 ^ k) (J' + 2 ^ k) hI (by omega) (by omega) (by omega)
    (by rw [Apart]; omega) holds₂ nonzero remaining
  refine ⟨m₃, ?_, holds₃.congr fun r c _ _ => ?_⟩
  · rw [auxUpperSolve]
    simp only [matrixAt_blockOf indexable zero zero, matrixAt_blockOf indexable zero le_rfl,
      matrixAt_blockOf indexable le_rfl zero, matrixAt_blockOf indexable le_rfl le_rfl,
      add_zero, run₁, run₂, run₃, Option.bind_eq_bind, Option.bind_some]
  · simp only [overwriteRect, overwrite, subtracted, mul_add]
    by_cases right : Within (BLOCK_SIZE * I) (BLOCK_SIZE * J + BLOCK_SIZE * 2 ^ k) (BLOCK_SIZE * 2 ^ k) r c
    · rw [if_pos right, if_pos]
      rw [inside_iff, within_iff] at *
      omega
    · rw [if_neg right, if_neg right]
      exact if_congr (by rw [inside_iff, within_iff] at *; omega) rfl rfl

variable (nBlocks p m₀) in
theorem upperSolve_spec (k : ℕ) (indexable : Indexable nBlocks (2 ^ k / 2)) : UpperSpec nBlocks p m₀ (2 ^ k) := by
  induction k with
  | zero =>
    intro m A G I J I' J' hI hJ hI' hJ' apart holds pivots solves
    rw [upperSolve, if_pos (pow_zero 2)]
    simp only [pow_zero, mul_one, Apart] at *
    exact blockUpperSolve_spec (by omega) (by omega) (by omega) (by omega) (by omega) holds pivots solves
  | succ k ih =>
    intro m A G I J I' J' hI hJ hI' hJ' apart holds pivots solves
    have twice : 2 ^ (k + 1) = 2 ^ k + 2 ^ k := by rw [pow_succ, mul_two]
    have positive : 0 < 2 ^ k := Nat.two_pow_pos k
    have zero : 0 ≤ 2 ^ k := Nat.zero_le _
    rw [double] at indexable
    rw [Apart, twice] at apart
    rw [twice] at hI hJ hI' hJ'
    rw [twice, mul_add] at solves pivots
    obtain ⟨m₁, run₁, holds₁⟩ :=
      auxUpperSolve_spec indexable (ih (indexable.mono (half_le _))) (by omega) hJ hI' hJ' (by omega) holds pivots
      fun i j hi hj => solves i j (by omega) hj
    have above (r c : ℕ) (outside : ¬ (BLOCK_SIZE * I ≤ r ∧ r < BLOCK_SIZE * I + BLOCK_SIZE * 2 ^ k) ∨
        ¬ (BLOCK_SIZE * J ≤ c ∧ c < BLOCK_SIZE * J + (BLOCK_SIZE * 2 ^ k + BLOCK_SIZE * 2 ^ k))) :
        overwriteRect A (BLOCK_SIZE * I) (BLOCK_SIZE * J) (BLOCK_SIZE * 2 ^ k)
          (BLOCK_SIZE * 2 ^ k + BLOCK_SIZE * 2 ^ k) G r c = A r c := if_neg (by rw [inside_iff]; omega)
    have same (t j : ℕ) (ht : t < BLOCK_SIZE * 2 ^ k + BLOCK_SIZE * 2 ^ k)
        (hj : j < BLOCK_SIZE * 2 ^ k + BLOCK_SIZE * 2 ^ k) :
        overwriteRect A (BLOCK_SIZE * I) (BLOCK_SIZE * J) (BLOCK_SIZE * 2 ^ k)
          (BLOCK_SIZE * 2 ^ k + BLOCK_SIZE * 2 ^ k) G (BLOCK_SIZE * I' + t) (BLOCK_SIZE * J' + j) =
        A (BLOCK_SIZE * I' + t) (BLOCK_SIZE * J' + j) := above _ _ (by simp only [BLOCK_SIZE] at *; omega)
    have below : UpperRect (overwriteRect A (BLOCK_SIZE * I) (BLOCK_SIZE * J) (BLOCK_SIZE * 2 ^ k)
        (BLOCK_SIZE * 2 ^ k + BLOCK_SIZE * 2 ^ k) G) (BLOCK_SIZE * (I + 2 ^ k)) (BLOCK_SIZE * J)
        (BLOCK_SIZE * 2 ^ k) (BLOCK_SIZE * 2 ^ k + BLOCK_SIZE * 2 ^ k) (BLOCK_SIZE * I') (BLOCK_SIZE * J') G := by
      intro i j hi hj
      have equation := solves (BLOCK_SIZE * 2 ^ k + i) j (by omega) hj
      rw [above _ _ (.inl (by rw [mul_add]; omega)), same j j hj hj, mul_add, add_assoc, equation]
      congr 1
      apply Finset.sum_congr rfl
      intro t inside
      rw [Finset.mem_range] at inside
      rw [same t j (by omega) hj]
    obtain ⟨m₂, run₂, holds₂⟩ :=
      auxUpperSolve_spec indexable (ih (indexable.mono (half_le _))) (by omega) hJ hI' hJ' (by omega) holds₁
      (fun t ht => by rw [same t t ht ht]; exact pivots t ht) below
    refine ⟨m₂, ?_, holds₂.congr fun r c _ _ => ?_⟩
    · rw [upperSolve, if_neg (not_one k)]
      simp only [double, matrixAt_blockOf indexable zero zero, matrixAt_blockOf indexable zero le_rfl,
        matrixAt_blockOf indexable le_rfl zero, matrixAt_blockOf indexable le_rfl le_rfl,
        add_zero, run₁, run₂, Option.bind_eq_bind, Option.bind_some]
    · simp only [overwrite, overwriteRect, twice, mul_add]
      by_cases here : Inside (BLOCK_SIZE * I + BLOCK_SIZE * 2 ^ k) (BLOCK_SIZE * J) (BLOCK_SIZE * 2 ^ k)
          (BLOCK_SIZE * 2 ^ k + BLOCK_SIZE * 2 ^ k) r c
      · rw [if_pos here, if_pos]
        rw [inside_iff, within_iff] at *
        omega
      · rw [if_neg here]
        exact if_congr (by rw [inside_iff, within_iff] at *; omega) rfl rfl

end Upper

/-! ### Factorisation -/

section Factors
variable {R C H : ℕ}

/-- The factors of a matrix solve the lower system in its right upper quarter. -/
theorem lowerSolves_of_isLU (factors : IsLU (H + H) (window A R C) (window G R C)) :
    LowerSolves (overwrite A R C H G) R (C + H) H R C G := by
  intro i j hi hj
  have entry := factors i (H + j) (by omega) (by omega)
  simp only [window, ← add_assoc, min_eq_left (show i ≤ H + j by omega), if_pos (show i ≤ H + j by omega)] at entry
  rw [overwrite_outside (by rw [within_iff]; omega), entry, add_comm]
  congr 1
  apply Finset.sum_congr rfl
  intro t inside
  rw [Finset.mem_range] at inside
  rw [overwrite_inside (by rw [within_iff]; omega)]

/-- The factors of a matrix solve the upper system in its left lower quarter. -/
theorem upperSolves_of_isLU (factors : IsLU (H + H) (window A R C) (window G R C)) :
    UpperSolves (overwrite (overwrite A R C H G) R (C + H) H G) (R + H) C H R C G := by
  intro i j hi hj
  have corner (t : ℕ) (ht : t < H) :
      overwrite (overwrite A R C H G) R (C + H) H G (R + t) (C + j) = G (R + t) (C + j) := by
    rw [overwrite_outside (by rw [within_iff]; omega), overwrite_inside (by rw [within_iff]; omega)]
  have entry := factors (H + i) j (by omega) (by omega)
  simp only [window, ← add_assoc, min_eq_right (show j ≤ H + i by omega), if_neg (show ¬ H + i ≤ j by omega)] at entry
  rw [overwrite_outside (by rw [within_iff]; omega), overwrite_outside (by rw [within_iff]; omega), entry,
    corner j hj]
  congr 1
  apply Finset.sum_congr rfl
  intro t inside
  rw [Finset.mem_range] at inside
  rw [corner t (by omega)]

variable (A R C H G) in
/-- Factors in all quarters but the last one. -/
def threeQuarters : ℕ → ℕ → F := overwrite (overwrite (overwrite A R C H G) R (C + H) H G) (R + H) C H G

/-- The Schur complement has the last quarter of the factors as its factors. -/
theorem isLU_subtracted (factors : IsLU (H + H) (window A R C) (window G R C)) :
    IsLU H (window (subtracted (threeQuarters A G R C H) (R + H) (C + H) H (R + H) C R (C + H)) (R + H) (C + H))
      (window G (R + H) (C + H)) := by
  intro i j hi hj
  have entry := factors (H + i) (H + j) (by omega) (by omega)
  simp only [window, ← add_assoc, Nat.add_min_add_left, add_le_add_iff_left, Finset.sum_range_add] at entry ⊢
  have lower (t : ℕ) (ht : t < H) : threeQuarters A G R C H (R + H + i) (C + t) = G (R + H + i) (C + t) :=
    overwrite_inside (by rw [within_iff]; omega)
  have upper (t : ℕ) (ht : t < H) : threeQuarters A G R C H (R + t) (C + H + j) = G (R + t) (C + H + j) := by
    rw [threeQuarters, overwrite_outside (by rw [within_iff]; omega), overwrite_inside (by rw [within_iff]; omega)]
  have rest : threeQuarters A G R C H (R + H + i) (C + H + j) = A (R + H + i) (C + H + j) := by
    rw [threeQuarters, overwrite_outside (by rw [within_iff]; omega),
      overwrite_outside (by rw [within_iff]; omega), overwrite_outside (by rw [within_iff]; omega)]
  have product : ∑ t ∈ Finset.range H, threeQuarters A G R C H (R + H + (R + H + i - (R + H))) (C + t) *
      threeQuarters A G R C H (R + t) (C + H + (C + H + j - (C + H))) =
      ∑ t ∈ Finset.range H, G (R + H + i) (C + t) * G (R + t) (C + H + j) := by
    apply Finset.sum_congr rfl
    intro t inside
    rw [Finset.mem_range] at inside
    rw [Nat.add_sub_cancel_left, Nat.add_sub_cancel_left, lower t inside, upper t inside]
  rw [subtracted, if_pos (by rw [within_iff]; omega), product, rest, entry]
  ring

omit [Field F] in
theorem threeQuarters_outside {r c : ℕ} (outside : ¬ Within (R + H) (C + H) H r c) :
    threeQuarters A G R C H r c = overwrite A R C (H + H) G r c := by
  rw [within_iff] at outside
  simp only [threeQuarters, overwrite]
  by_cases within : Within R C (H + H) r c
  · rw [if_pos within]
    rw [within_iff] at within
    by_cases lower : Within (R + H) C H r c
    · rw [if_pos lower]
    · by_cases right : Within R (C + H) H r c
      · rw [if_neg lower, if_pos right]
      · rw [if_neg lower, if_neg right, if_pos]
        rw [within_iff] at *
        omega
  · rw [if_neg within, if_neg, if_neg, if_neg]
    all_goals
      rw [within_iff] at *
      omega

theorem quarters_eq (R₁ C₁ R₂ C₂ r c : ℕ) : overwrite A R C (H + H) G r c =
    overwrite (subtracted (threeQuarters A G R C H) (R + H) (C + H) H R₁ C₁ R₂ C₂) (R + H) (C + H) H G r c := by
  by_cases last : Within (R + H) (C + H) H r c
  · rw [overwrite_inside last, overwrite_inside]
    rw [within_iff] at *
    omega
  · rw [overwrite_outside last, subtracted, if_neg last, threeQuarters_outside last]

end Factors

theorem lu_spec [DecidableEq F] (k : ℕ) (indexable : Indexable nBlocks (2 ^ k / 2)) : ∀ {m : Memory F}
    {A : ℕ → ℕ → F} (I J : ℕ), I + 2 ^ k ≤ nBlocks → J + 2 ^ k ≤ nBlocks → Holds nBlocks p m₀ m A →
    (∀ i < BLOCK_SIZE * 2 ^ k, G (BLOCK_SIZE * I + i) (BLOCK_SIZE * J + i) ≠ 0) →
    IsLU (BLOCK_SIZE * 2 ^ k) (window A (BLOCK_SIZE * I) (BLOCK_SIZE * J))
      (window G (BLOCK_SIZE * I) (BLOCK_SIZE * J)) →
    ∃ m', lu nBlocks m (blockOf nBlocks p I J) (2 ^ k) = some m' ∧
      Holds nBlocks p m₀ m' (overwrite A (BLOCK_SIZE * I) (BLOCK_SIZE * J) (BLOCK_SIZE * 2 ^ k) G) := by
  induction k with
  | zero =>
    intro m A I J hI hJ holds pivots factors
    rw [lu, if_pos (pow_zero 2)]
    simp only [pow_zero, mul_one] at *
    exact blockLu_spec (by omega) (by omega) holds pivots factors
  | succ k ih =>
    intro m A I J hI hJ holds pivots factors
    have positive : 0 < 2 ^ k := Nat.two_pow_pos k
    have zero : 0 ≤ 2 ^ k := Nat.zero_le _
    have twice : 2 ^ (k + 1) = 2 ^ k + 2 ^ k := by rw [pow_succ, mul_two]
    rw [double] at indexable
    have smaller := indexable.mono (half_le (2 ^ k))
    rw [twice] at hI hJ
    rw [twice, mul_add] at pivots factors ⊢
    obtain ⟨m₁, run₁, holds₁⟩ := ih smaller I J (by omega) (by omega) holds (fun i hi => pivots i (by omega))
      (factors.mono (by omega))
    have right := lowerSolves_of_isLU factors
    have below := upperSolves_of_isLU factors
    simp only [← mul_add] at right below
    obtain ⟨m₂, run₂, holds₂⟩ := lowerSolve_spec nBlocks p m₀ k smaller I (J + 2 ^ k) I J (by omega) (by omega) (by omega)
      (by omega) (by rw [Apart]; omega) holds₁ right
    obtain ⟨m₃, run₃, holds₃⟩ := upperSolve_spec nBlocks p m₀ k smaller (I + 2 ^ k) J I J (by omega) (by omega) (by omega)
      (by omega) (by rw [Apart]; omega) holds₂
      (by
        intro t ht
        rw [mul_add, overwrite_outside (by rw [within_iff]; omega), overwrite_inside (by rw [within_iff]; omega)]
        exact pivots t (by omega))
      below
    obtain ⟨m₄, run₄, holds₄⟩ := @schur_spec _ _ nBlocks p m₀ k smaller m₃ _ (I + 2 ^ k) (J + 2 ^ k) (I + 2 ^ k) J I
      (J + 2 ^ k) (by omega) (by omega) (by omega) (by omega) (by omega) (by omega) (by rw [Apart]; omega)
      (by rw [Apart]; omega) holds₃
    have last := isLU_subtracted factors
    simp only [threeQuarters, ← mul_add] at last
    obtain ⟨m₅, run₅, holds₅⟩ := ih smaller (I + 2 ^ k) (J + 2 ^ k) (by omega) (by omega) holds₄
      (fun i hi => by
        rw [mul_add, mul_add, add_assoc, add_assoc]
        exact pivots _ (by omega))
      last
    refine ⟨m₅, ?_, holds₅.congr fun r c _ _ => ?_⟩
    · rw [← twice, lu, if_neg (not_one k)]
      simp only [double, matrixAt_blockOf indexable zero zero, matrixAt_blockOf indexable zero le_rfl,
        matrixAt_blockOf indexable le_rfl zero, matrixAt_blockOf indexable le_rfl le_rfl,
        add_zero, run₁, run₂, run₃, run₄, run₅, Option.bind_eq_bind, Option.bind_some]
    · simp only [mul_add]
      exact quarters_eq _ _ _ _ r c

/-- The quarters of a matrix have `int` indices up to 2¹⁵ blocks in a row. -/
theorem indexable_half {k : ℕ} (small : k ≤ 15) : Indexable (2 ^ k) (2 ^ k / 2) := by
  have rows : 2 ^ k ≤ 2 ^ 15 := Nat.pow_le_pow_right (by decide) small
  calc 2 ^ k / 2 * 2 ^ k + 2 ^ k / 2 ≤ 2 ^ 15 / 2 * 2 ^ 15 + 2 ^ 15 / 2 :=
        Nat.add_le_add (Nat.mul_le_mul (Nat.div_le_div_right rows) rows) (Nat.div_le_div_right rows)
    _ < 2 ^ 31 := by decide

/-- `lu` on a whole matrix without zero leading minors: it divides by no zero, writes nothing but the matrix,
and leaves in it the only factors the matrix has. -/
theorem lu_factors [DecidableEq F] (k : ℕ) (small : k ≤ 15) (m : Memory F) (M : ℤ)
    (M0 : Matrix (Fin (order (2 ^ k))) (Fin (order (2 ^ k))) F)
    (stored : ∀ r c : Fin (order (2 ^ k)), m.load (entryAt (2 ^ k) M r c) = some (M0 r c))
    (minors : ∀ n (smaller : n ≤ order (2 ^ k)), (M0.submatrix (Fin.castLE smaller) (Fin.castLE smaller)).det ≠ 0) :
    ∃ m', lu (2 ^ k) m M (2 ^ k) = some m' ∧ Changes (cells (2 ^ k) M) m m' ∧
      let result (r c : ℕ) : F := m'.val (entryAt (2 ^ k) M r c)
      unitLower (order (2 ^ k)) result * upper (order (2 ^ k)) result = M0 ∧
      ∀ L U : Matrix (Fin (order (2 ^ k))) (Fin (order (2 ^ k))) F, L.IsLowerTriangular → (∀ i, L i i = 1) →
        U.IsUpperTriangular → L * U = M0 →
        L = unitLower (order (2 ^ k)) result ∧ U = upper (order (2 ^ k)) result := by
  let A (r c : ℕ) : F := m.val (entryAt (2 ^ k) M r c)
  have holds : Holds (2 ^ k) M m m A := by
    refine ⟨fun r c hr hc => ?_, Changes.refl _ _, fun r c _ _ => rfl⟩
    exact (load_eq_some.mp (stored ⟨r, hr⟩ ⟨c, hc⟩)).1
  have entries : M0 = .of fun i j : Fin (order (2 ^ k)) => A i j := by
    ext r c
    exact ((load_eq_some.mp (stored r c)).2).symm
  have leading (n : ℕ) (smaller : n ≤ order (2 ^ k)) : (Matrix.of fun i j : Fin n => A i j).det ≠ 0 := by
    have minor := minors n smaller
    rw [entries] at minor
    exact minor
  have pivots := doolittle_pivot_ne_zero leading
  have factors := isLU_doolittle A (order (2 ^ k)) fun i inside => pivots i (by omega)
  have start : blockOf (2 ^ k) M 0 0 = M := by simp [blockOf]
  have whole (X : ℕ → ℕ → F) : window X (BLOCK_SIZE * 0) (BLOCK_SIZE * 0) = X := by
    funext r c
    simp [window]
  obtain ⟨m', run, holds'⟩ := lu_spec k (indexable_half small) 0 0 (by omega) (by omega) holds
    (by
      intro i hi
      simpa using pivots i hi)
    (by rwa [whole, whole])
  rw [start] at run
  have result (r c : ℕ) (hr : r < order (2 ^ k)) (hc : c < order (2 ^ k)) :
      m'.val (entryAt (2 ^ k) M r c) = doolittle A r c := by
    rw [holds'.val r c hr hc, overwrite_inside]
    rw [within_iff]
    rw [order] at hr hc
    omega
  refine ⟨m', run, holds'.changes, ?_, ?_⟩
  · rw [unitLower_congr result, upper_congr result, isLU_iff_mul.mp factors, entries]
  · intro L U lower unit triangular product
    rw [unitLower_congr result, upper_congr result]
    exact factors_unique lower unit triangular leading (product.trans entries)

/-- The array at address 0 of a matrix with the entries `A`. -/
def arrayOf (nBlocks : ℕ) (A : ℕ → ℕ → F) : Memory F :=
  let block (a : ℤ) := a.toNat / (BLOCK_SIZE * BLOCK_SIZE)
  let row (a : ℤ) := block a / nBlocks * BLOCK_SIZE + a.toNat / BLOCK_SIZE % BLOCK_SIZE
  let column (a : ℤ) := block a % nBlocks * BLOCK_SIZE + a.toNat % BLOCK_SIZE
  ⟨fun a => ⟨A (row a) (column a), 0⟩, fun a => 0 ≤ a ∧ a < order nBlocks * order nBlocks⟩

omit [Field F] in
theorem arrayOf_load (A : ℕ → ℕ → F) {r c : ℕ} (hr : r < order nBlocks) (hc : c < order nBlocks) :
    (arrayOf nBlocks A).load (entryAt nBlocks 0 r c) = some (A r c) := by
  obtain ⟨number, hnumber⟩ : ∃ number, number = r / 16 * nBlocks + c / 16 := ⟨_, rfl⟩
  have address : entryAt nBlocks 0 r c = ((number * 16 + r % 16) * 16 + c % 16 : ℕ) := by
    rw [hnumber]
    simp only [entryAt, blockAt, blockOf, BLOCK_SIZE]
    push_cast
    ring
  simp only [order, BLOCK_SIZE] at hr hc
  have inside : c / 16 < nBlocks := by omega
  have rows : number / nBlocks = r / 16 := by
    rw [hnumber, mul_comm, Nat.mul_add_div (by omega), Nat.div_eq_of_lt inside, add_zero]
  have columns : number % nBlocks = c / 16 := by
    rw [hnumber, Nat.add_mod, Nat.mul_mod_left, zero_add, Nat.mod_mod, Nat.mod_eq_of_lt inside]
  have bound : number < nBlocks * nBlocks := by
    calc number < r / 16 * nBlocks + nBlocks := by omega
      _ = (r / 16 + 1) * nBlocks := by ring
      _ ≤ nBlocks * nBlocks := Nat.mul_le_mul_right nBlocks (by omega)
  rw [address, load_eq_some]
  constructor
  · simp only [arrayOf]
    rw [decide_eq_true_iff, order, BLOCK_SIZE]
    have product : ((16 * nBlocks : ℕ) : ℤ) * (16 * nBlocks : ℕ) = 256 * (nBlocks * nBlocks : ℕ) := by
      push_cast
      ring
    omega
  · simp only [arrayOf, val, BLOCK_SIZE, Int.toNat_natCast]
    rw [show ((number * 16 + r % 16) * 16 + c % 16) / (16 * 16) = number by omega, rows, columns]
    congr 1 <;> omega

theorem lu_factors_ones :
    let M0 : Matrix (Fin (order (2 ^ 1))) (Fin (order (2 ^ 1))) ℚ := .of fun r c => if c ≤ r then 1 else 0
    let m : Memory ℚ := arrayOf (2 ^ 1) fun r c => if c ≤ r then 1 else 0
    ∃ m', lu (2 ^ 1) m 0 (2 ^ 1) = some m' ∧ Changes (cells (2 ^ 1) 0) m m' ∧
      let result (r c : ℕ) : ℚ := m'.val (entryAt (2 ^ 1) 0 r c)
      unitLower (order (2 ^ 1)) result * upper (order (2 ^ 1)) result = M0 ∧
      ∀ L U : Matrix (Fin (order (2 ^ 1))) (Fin (order (2 ^ 1))) ℚ, L.IsLowerTriangular → (∀ i, L i i = 1) →
        U.IsUpperTriangular → L * U = M0 →
        L = unitLower (order (2 ^ 1)) result ∧ U = upper (order (2 ^ 1)) result := by
  intro M0 m
  apply lu_factors 1 (by decide) m 0 M0
  · intro r c
    exact arrayOf_load _ r.isLt c.isLt
  · intro n smaller
    rw [Matrix.det_of_isLowerTriangular]
    · simp [M0]
    · intro i j above
      have above : i < j := above
      simpa [M0] using above

/-- With 2¹⁶ blocks in a row, or more, the row offset of the lower half of the matrix is no `int`. -/
theorem lu_overflows [DecidableEq F] {k : ℕ} (large : 16 ≤ k) (m : Memory F) (M : ℤ) :
    lu (2 ^ k) m M (2 ^ k) = none := by
  obtain ⟨h, rfl⟩ : ∃ h, k = h + 1 := ⟨k - 1, by omega⟩
  have rows : 2 ^ 15 ≤ 2 ^ h := Nat.pow_le_pow_right (by decide) (by omega)
  have columns : 2 ^ 16 ≤ 2 ^ (h + 1) := Nat.pow_le_pow_right (by decide) (by omega)
  have above : 2 ^ 31 ≤ 2 ^ h * 2 ^ (h + 1) :=
    calc 2 ^ 31 = 2 ^ 15 * 2 ^ 16 := by decide
      _ ≤ 2 ^ h * 2 ^ (h + 1) := Nat.mul_le_mul rows columns
  have below (J : ℕ) : matrixAt (2 ^ (h + 1)) M (2 ^ h) J = none := by
    rw [matrixAt, cint_overflow above]
    rfl
  rw [lu, if_neg (not_one h)]
  simp only [double, below, Option.bind_eq_bind, Option.bind_none, Option.bind_fun_none]

/-- The identity matrix has no zero minor, and yet `lu` fails on it with 2¹⁶ blocks in a row. -/
theorem lu_factors_not :
    ¬ ∀ (k : ℕ) (m : Memory ℚ) (M : ℤ) (M0 : Matrix (Fin (order (2 ^ k))) (Fin (order (2 ^ k))) ℚ),
      (∀ r c : Fin (order (2 ^ k)), m.load (entryAt (2 ^ k) M r c) = some (M0 r c)) →
      (∀ n (smaller : n ≤ order (2 ^ k)), (M0.submatrix (Fin.castLE smaller) (Fin.castLE smaller)).det ≠ 0) →
      ∃ m', lu (2 ^ k) m M (2 ^ k) = some m' := by
  intro claim
  let M0 : Matrix (Fin (order (2 ^ 16))) (Fin (order (2 ^ 16))) ℚ := .of fun r c => if r.val = c.val then 1 else 0
  obtain ⟨m', ran⟩ := claim 16 (arrayOf (2 ^ 16) fun r c => if r = c then 1 else 0) 0 M0
    (fun r c => arrayOf_load _ r.isLt c.isLt)
    (by
      intro n smaller
      have minor : M0.submatrix (Fin.castLE smaller) (Fin.castLE smaller) = 1 := by
        ext i j
        simp only [M0, Matrix.submatrix_apply, Matrix.of_apply, Fin.val_castLE, Matrix.one_apply, Fin.ext_iff]
      rw [minor, Matrix.det_one]
      exact one_ne_zero)
  rw [lu_overflows (k := 16) le_rfl] at ran
  cases ran

end CilkArtifact.Lu
