import CilkArtifact.Library.Loop
import CilkArtifact.Library.Symmetric

/-! Block operations of `cholesky.c`, with exact arithmetic in place of `Real`. `exit(9)` and a
division by zero are failures. -/
namespace CilkArtifact.Cholesky
variable {K : Type}

def BLOCK_DEPTH : ℕ := 2

def BLOCK_SIZE : ℕ := 2 ^ BLOCK_DEPTH

/-- `Block`, of which the indices below `BLOCK_SIZE` are in use. -/
abbrev Block (K : Type) := ℕ → ℕ → K

section Products
variable [CommRing K]

/-- `B' = B - A Cᵀ` in the first `columns i` entries of row `i`. -/
def blockSchur (columns : ℕ → ℕ) (B A C : Block K) : Option (Block K) :=
  forLoop 0 BLOCK_SIZE (fun B i =>
    forLoop 0 (columns i) (fun B j =>
      forLoop 0 BLOCK_SIZE (fun B k =>
        some (setEntry B i j (B i j - A i k * C j k))) B) B) B

def blockSchurFull : Block K → Block K → Block K → Option (Block K) := blockSchur fun _ => BLOCK_SIZE

def blockSchurHalf : Block K → Block K → Block K → Option (Block K) := blockSchur fun i => i + 1

end Products

section Operations
variable [Field K] [LinearOrder K]

def blockBacksub (B U : Block K) : Option (Block K) :=
  forLoop 0 BLOCK_SIZE (fun B i =>
    forLoop 0 BLOCK_SIZE (fun B j => do
      let B ← forLoop 0 i (fun B k => some (setEntry B j i (B j i - U i k * B j k))) B
      let value ← divide (B j i) (U i i)
      some (setEntry B j i value)) B) B

def blockCholesky (sqrt : K → K) (B : Block K) : Option (Block K) :=
  forLoop 0 BLOCK_SIZE (fun B k =>
    if B k k < 0 then none
    else do
      let x := sqrt (B k k)
      let B ← forLoop k BLOCK_SIZE (fun B i => do
        let value ← divide (B i k) x
        some (setEntry B i k value)) B
      forLoop (k + 1) BLOCK_SIZE (fun B j =>
        forLoop j BLOCK_SIZE (fun B i =>
          some (setEntry B i j (B i j - B i k * B j k))) B) B) B

end Operations

variable {A B C G U X : Block K}

/-! ### Products -/

section Products
variable [CommRing K]

/-- Entry `(r, c)` after `q r c` of its terms have been subtracted. -/
def subtracting (B A C : Block K) (q : ℕ → ℕ → ℕ) (r c : ℕ) : K :=
  B r c - ∑ t ∈ Finset.range (q r c), A r t * C c t

theorem subtracting_step {q q' : ℕ → ℕ → ℕ} {i j k : ℕ} (here : q i j = k)
    (next : ∀ r c, q' r c = if r = i ∧ c = j then k + 1 else q r c) :
    setEntry (subtracting B A C q) i j (subtracting B A C q i j - A i k * C j k) = subtracting B A C q' := by
  funext r c
  simp only [setEntry, subtracting, next]
  by_cases same : r = i ∧ c = j
  · rw [if_pos same, if_pos same, same.1, same.2, here, Finset.sum_range_succ]
    ring
  · rw [if_neg same, if_neg same]

theorem blockSchur_eq (columns : ℕ → ℕ) (B A C : Block K) : blockSchur columns B A C =
    some (subtracting B A C fun r c => if r < BLOCK_SIZE ∧ c < columns r then BLOCK_SIZE else 0) := by
  refine forLoop_eq (fun i => subtracting B A C fun r c => if r < i ∧ c < columns r then BLOCK_SIZE else 0)
    (Nat.zero_le _) ?_ fun i _ _ => ?_
  · funext r c
    simp [subtracting]
  refine (forLoop_eq (fun j => subtracting B A C fun r c =>
    if (r < i ∧ c < columns r) ∨ (r = i ∧ c < j) then BLOCK_SIZE else 0) (Nat.zero_le _) ?_ fun j _ _ => ?_).trans ?_
  · simp
  · refine (forLoop_eq (fun k => subtracting B A C fun r c =>
      if r = i ∧ c = j then k else if (r < i ∧ c < columns r) ∨ (r = i ∧ c < j) then BLOCK_SIZE else 0)
      (Nat.zero_le _) ?_ fun k _ _ => ?_).trans ?_
    · refine congrArg _ (funext₂ fun r c => ?_)
      grind
    · exact congrArg some (subtracting_step (by simp) fun r c => by grind)
    · refine congrArg _ (congrArg _ (funext₂ fun r c => ?_))
      grind
  · refine congrArg _ (congrArg _ (funext₂ fun r c => ?_))
    grind

end Products

/-! ### Substitution -/

section Substitution
variable [Field K] [LinearOrder K]

/-- `X` solves `X Uᵀ = B`, with the entries of `U` on and below the diagonal. -/
def Solves (n : ℕ) (B U X : ℕ → ℕ → K) : Prop :=
  ∀ r c, r < n → c < n → B r c = ∑ t ∈ Finset.range c, U c t * X r t + X r c * U c c

theorem blockBacksub_eq (pivots : ∀ i < BLOCK_SIZE, U i i ≠ 0) (solves : Solves BLOCK_SIZE B U X) :
    blockBacksub B U = some fun r c => if r < BLOCK_SIZE ∧ c < BLOCK_SIZE then X r c else B r c := by
  refine forLoop_eq (fun i r c => if r < BLOCK_SIZE ∧ c < i then X r c else B r c) (Nat.zero_le _) ?_
    fun i _ hi => ?_
  · simp
  -- columns before `i` are solved, and so are the first `j` rows of column `i`
  let state (j r c : ℕ) : K := if (r < BLOCK_SIZE ∧ c < i) ∨ (c = i ∧ r < j) then X r c else B r c
  refine (forLoop_eq state (Nat.zero_le _) ?_ fun j _ hj => ?_).trans ?_
  · simp [state]
  · have inner : forLoop 0 i (fun B k => some (setEntry B j i (B j i - U i k * B j k))) (state j) =
        some (setEntry (state j) j i (B j i - ∑ t ∈ Finset.range i, U i t * X j t)) := by
      refine forLoop_eq (fun k => setEntry (state j) j i (B j i - ∑ t ∈ Finset.range k, U i t * X j t))
        (Nat.zero_le _) ?_ fun k _ before => ?_
      · funext r c
        simp only [setEntry, Finset.sum_range_zero, sub_zero]
        grind
      · have solved : setEntry (state j) j i (B j i - ∑ t ∈ Finset.range k, U i t * X j t) j k = X j k := by
          rw [setEntry, if_neg (by omega)]
          exact if_pos (.inl ⟨hj, before⟩)
        rw [solved]
        refine congrArg some (funext₂ fun r c => ?_)
        simp only [setEntry, Finset.sum_range_succ]
        by_cases here : r = j ∧ c = i
        · simp only [if_pos here, and_self, if_true]
          ring
        · simp only [if_neg here]
    have entry : (B j i - ∑ t ∈ Finset.range i, U i t * X j t) / U i i = X j i := by
      rw [solves j i hj hi, add_sub_cancel_left, mul_div_cancel_right₀ _ (pivots i hi)]
    have written (v : K) : setEntry (state j) j i v j i = v := if_pos ⟨rfl, rfl⟩
    simp only [inner, Option.bind_eq_bind, Option.bind_some, written, divide_ne_zero (pivots i hi), entry]
    refine congrArg some (funext₂ fun r c => ?_)
    simp only [setEntry, state]
    grind
  · refine congrArg some (funext₂ fun r c => ?_)
    simp only [state]
    grind

end Substitution

/-! ### Factorisation -/

section Factorisation
variable [Field K]

/-- Entry `(r, c)` after `q r c` rounds of elimination. -/
def factoring (B G : Block K) (q : ℕ → ℕ → ℕ) (r c : ℕ) : K :=
  if c ≤ r ∧ r < BLOCK_SIZE then
    if c < q r c then G r c else B r c - ∑ t ∈ Finset.range (q r c), G r t * G c t
  else B r c

theorem factoring_final {q : ℕ → ℕ → ℕ} {r c : ℕ} (lower : c ≤ r ∧ r < BLOCK_SIZE) (done : c < q r c) :
    factoring B G q r c = G r c := by
  rw [factoring, if_pos lower, if_pos done]

theorem factoring_rest {q : ℕ → ℕ → ℕ} {r c : ℕ} (lower : c ≤ r ∧ r < BLOCK_SIZE) (rest : q r c ≤ c) :
    factoring B G q r c = B r c - ∑ t ∈ Finset.range (q r c), G r t * G c t := by
  rw [factoring, if_pos lower, if_neg (by omega)]

theorem factoring_congr {q q' : ℕ → ℕ → ℕ} (same : ∀ r c, c ≤ r → r < BLOCK_SIZE → q r c = q' r c) :
    factoring B G q = factoring B G q' := by
  funext r c
  by_cases lower : c ≤ r ∧ r < BLOCK_SIZE
  · rw [factoring, factoring, if_pos lower, if_pos lower, same r c lower.1 lower.2]
  · rw [factoring, factoring, if_neg lower, if_neg lower]

theorem setEntry_factoring {q q' : ℕ → ℕ → ℕ} {i j : ℕ} {v : K} (value : v = factoring B G q' i j)
    (others : ∀ r c, c ≤ r → r < BLOCK_SIZE → ¬ (r = i ∧ c = j) → q' r c = q r c) :
    setEntry (factoring B G q) i j v = factoring B G q' := by
  funext r c
  rw [setEntry]
  by_cases here : r = i ∧ c = j
  · rw [if_pos here, here.1, here.2, value]
  · rw [if_neg here]
    by_cases lower : c ≤ r ∧ r < BLOCK_SIZE
    · rw [factoring, factoring, if_pos lower, if_pos lower, others r c lower.1 lower.2 here]
    · rw [factoring, factoring, if_neg lower, if_neg lower]

variable [LinearOrder K] [IsStrictOrderedRing K] {sqrt : K → K}

/-- `sqrt` is exact. -/
def ExactRoot (sqrt : K → K) : Prop := ∀ x, 0 ≤ x → 0 ≤ sqrt x ∧ sqrt x * sqrt x = x

theorem ExactRoot.eq (exact : ExactRoot sqrt) {x : K} (nonnegative : 0 ≤ x) : sqrt (x * x) = x := by
  obtain ⟨root, square⟩ := exact (x * x) (mul_self_nonneg x)
  exact (mul_self_inj root nonnegative).mp square

theorem blockCholesky_eq (exact : ExactRoot sqrt) (pivots : ∀ i < BLOCK_SIZE, 0 < G i i)
    (factors : IsCholesky BLOCK_SIZE B G) : blockCholesky sqrt B =
      some fun r c => if c ≤ r ∧ r < BLOCK_SIZE then G r c else B r c := by
  have rounds : blockCholesky sqrt B = some (factoring B G fun _ c => min BLOCK_SIZE (c + 1)) := by
    refine forLoop_eq (fun k => factoring B G fun _ c => min k (c + 1)) (Nat.zero_le _) ?_ fun k _ hk => ?_
    · funext r c
      simp [factoring]
    have pivot : factoring B G (fun _ c => min k (c + 1)) k k = G k k * G k k := by
      have entry := factors k k le_rfl hk
      rw [factoring_rest ⟨le_rfl, hk⟩ (by omega), min_eq_left (by omega), entry, add_sub_cancel_left]
    have positive := pivots k hk
    have column : forLoop k BLOCK_SIZE (fun B i => do
        let value ← divide (B i k) (G k k)
        some (setEntry B i k value)) (factoring B G fun _ c => min k (c + 1)) =
        some (factoring B G fun r c => if c = k then k + 1 else min k (c + 1)) := by
      refine (forLoop_eq (fun i => factoring B G fun r c => if c = k ∧ r < i then k + 1 else min k (c + 1)) hk.le ?_
        fun i lower upper => ?_).trans ?_
      · exact factoring_congr fun r c _ _ => by grind
      · have value : factoring B G (fun r c => if c = k ∧ r < i then k + 1 else min k (c + 1)) i k / G k k =
            G i k := by
          have entry := factors i k lower upper
          rw [factoring_rest ⟨lower, upper⟩ (by grind), if_neg (by omega), min_eq_left (by omega), entry,
            add_sub_cancel_left, mul_div_cancel_right₀ _ positive.ne']
        simp only [divide_ne_zero positive.ne', value, Option.bind_eq_bind, Option.bind_some]
        exact congrArg some (setEntry_factoring (factoring_final ⟨lower, upper⟩ (by grind)).symm
          fun r c _ _ _ => by grind)
      · exact congrArg some (factoring_congr fun r c _ _ => by grind)
    have trailing : forLoop (k + 1) BLOCK_SIZE (fun B j => forLoop j BLOCK_SIZE (fun B i =>
        some (setEntry B i j (B i j - B i k * B j k))) B)
        (factoring B G fun r c => if c = k then k + 1 else min k (c + 1)) =
        some (factoring B G fun _ c => min (k + 1) (c + 1)) := by
      refine (forLoop_eq (fun j => factoring B G fun r c => if c < j then min (k + 1) (c + 1) else k) hk ?_
        fun j lower upper => ?_).trans ?_
      · exact factoring_congr fun r c _ _ => by grind
      · refine (forLoop_eq (fun i => factoring B G fun r c =>
          if c < j ∨ (c = j ∧ r < i) then min (k + 1) (c + 1) else k) upper.le ?_
          fun i below inside => ?_).trans ?_
        · exact factoring_congr fun r c _ _ => by grind
        · have old : factoring B G (fun r c => if c < j ∨ (c = j ∧ r < i) then min (k + 1) (c + 1) else k) i j =
              B i j - ∑ t ∈ Finset.range k, G i t * G j t := by
            rw [factoring_rest ⟨below, inside⟩ (by grind), if_neg (by omega)]
          have done (r : ℕ) (above : j ≤ r) (bound : r < BLOCK_SIZE) : factoring B G (fun r c =>
              if c < j ∨ (c = j ∧ r < i) then min (k + 1) (c + 1) else k) r k = G r k :=
            factoring_final ⟨by omega, bound⟩ (by grind)
          refine congrArg some (setEntry_factoring ?_ fun r c _ _ _ => by grind)
          rw [old, done i below inside, done j le_rfl upper, factoring_rest ⟨below, inside⟩ (by grind),
            if_pos (by omega), min_eq_left (by omega), Finset.sum_range_succ]
          ring
        · exact congrArg some (factoring_congr fun r c _ _ => by grind)
      · exact congrArg some (factoring_congr fun r c _ _ => by grind)
    rw [if_neg (by rw [pivot]; exact not_lt.mpr (mul_self_nonneg _)), pivot, exact.eq positive.le]
    dsimp only
    rw [column]
    exact trailing
  rw [rounds]
  refine congrArg some (funext₂ fun r c => ?_)
  by_cases lower : c ≤ r ∧ r < BLOCK_SIZE
  · rw [factoring_final lower (by omega), if_pos lower]
  · rw [factoring, if_neg lower, if_neg lower]

end Factorisation

end CilkArtifact.Cholesky
