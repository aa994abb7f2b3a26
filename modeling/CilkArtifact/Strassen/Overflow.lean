import CilkArtifact.Strassen.Reach

/-! `OptimizedStrassenMultiply` computes the product if and only if the distances between the upper and the lower
quadrants fit into 32 bits. -/
namespace CilkArtifact.Strassen
open Buffer
variable {R : Type} {q rw rwC rwA rwB C limit : ℕ} {array array' : Buffer ℕ R} {A B : Operand R} {quiet : Prop}

/-! ### The first loops -/

/-- Nothing can be read from an array that has not been written. -/
theorem raw_values (P : R → Prop) (m : ℕ) : Values P (.raw m) := by
  intro k v found
  simp [raw, Buffer.read] at found

section Prepare
variable {s s' : Preparation R} {S S' : Temporary → Buffer ℕ R} {i m : ℕ}

theorem assign_values {P : R → Prop} {offset : ℕ} {assignment : Temporary × R}
    (run : assign offset S assignment = some S') {t : Temporary} (new : assignment.1 = t → P assignment.2)
    (values : Values P (S t)) : Values P (S' t) := by
  simp only [assign, Option.bind_eq_bind, Option.bind_eq_some_iff] at run
  obtain ⟨matrix, written, same⟩ := run
  cases Option.some.inj same
  by_cases own : assignment.1 = t
  · subst own
    rw [Function.update_self]
    exact write_values written (new rfl) values
  · rw [Function.update_of_ne (Ne.symm own)]
    exact values

theorem foldlM_assign_values {P : R → Prop} {offset : ℕ} {assignments : List (Temporary × R)} {t : Temporary}
    (run : assignments.foldlM (assign offset) S = some S') (new : ∀ v, (t, v) ∈ assignments → P v)
    (values : Values P (S t)) : Values P (S' t) := by
  induction assignments generalizing S with
  | nil =>
    cases Option.some.inj run
    exact values
  | cons first rest ih =>
    rw [List.foldlM_cons] at run
    obtain ⟨S₁, run₁, others⟩ := Option.bind_eq_some_iff.mp run
    refine ih others (fun v member => new v (List.mem_cons_of_mem _ member)) (assign_values run₁ ?_ values)
    rintro rfl
    exact new first.2 List.mem_cons_self

variable [Ring R]

/-- `S1`, …, `S4` come from `A`, the others from `B`. -/
def Temporary.source (left right : Prop) : Temporary → Prop
  | .S1 | .S2 | .S3 | .S4 => left
  | .S5 | .S6 | .S7 | .S8 => right

theorem element_zero {v : R} {offset : ℕ} (zero : A.ZeroTo (extent q rw)) (row : i < q) (column : m < q)
    (inside : offset ≤ 8 * (i * rw + m)) (found : A.element array offset = some v) : v = 0 := by
  have last := row_extent row column rw
  refine zero.values array _ v ?_ found
  rw [advance]
  omega

/-- What the loops preserve before column `m` of row `i`, zeros in `A` or `B` included. -/
structure PreparedFrom (A B : Operand R) (q rwA rwB i m : ℕ) (s : Preparation R) : Prop where
  offsetA : s.MatrixOffsetA ≤ 8 * (i * rwA + m)
  offsetB : s.MatrixOffsetB ≤ 8 * (i * rwB + m)
  zero : ∀ t : Temporary, t.source (ZeroQuadrants A q rwA) (ZeroQuadrants B q rwB) → Values (· = 0) (s.S t)

/-- The loop body of the columns, at the quadrants as they are placed. -/
def preparePlaced (array : Buffer ℕ R) (A B : Operand R) (q rwA rwB : ℕ) :
    Preparation R → ℕ → Option (Preparation R) :=
  prepareElement array A (A.add q) (A.add (unsigned (rwA * q))) ((A.add (unsigned (rwA * q))).add q)
    B (B.add q) (B.add (unsigned (rwB * q))) ((B.add (unsigned (rwB * q))).add q)

theorem preparePlaced_returns (row : i < q) (column : m < q) (prepared : PreparedFrom A B q rwA rwB i m s)
    (run : preparePlaced array A B q rwA rwB s m = some s') : PreparedFrom A B q rwA rwB i (m + 1) s' := by
  obtain ⟨offsetA, offsetB, zero⟩ := prepared
  simp only [preparePlaced, prepareElement, Option.bind_eq_bind, Option.bind_eq_some_iff] at run
  obtain ⟨a11, read11, a12, read12, a21, read21, a22, read22, b11, get11, b12, get12, b21, get21, b22, get22, S',
    assigned, same⟩ := run
  cases Option.some.inj same
  have zeroA : ZeroQuadrants A q rwA → a11 = 0 ∧ a12 = 0 ∧ a21 = 0 ∧ a22 = 0 := fun zero =>
    ⟨element_zero zero.first row column offsetA read11, element_zero zero.right row column offsetA read12,
      element_zero zero.lower row column offsetA read21, element_zero zero.last row column offsetA read22⟩
  have zeroB : ZeroQuadrants B q rwB → b11 = 0 ∧ b12 = 0 ∧ b21 = 0 ∧ b22 = 0 := fun zero =>
    ⟨element_zero zero.first row column offsetB get11, element_zero zero.right row column offsetB get12,
      element_zero zero.lower row column offsetB get21, element_zero zero.last row column offsetB get22⟩
  refine ⟨?_, ?_, fun t quiet => foldlM_assign_values assigned ?_ (zero t quiet)⟩
  · change s.MatrixOffsetA + 8 ≤ 8 * (i * rwA + (m + 1))
    omega
  · change s.MatrixOffsetB + 8 ≤ 8 * (i * rwB + (m + 1))
    omega
  · intro v member
    cases t with
    | S1 | S2 | S3 | S4 =>
      obtain ⟨rfl, rfl, rfl, rfl⟩ := zeroA quiet
      simpa using member
    | S5 | S6 | S7 | S8 =>
      obtain ⟨rfl, rfl, rfl, rfl⟩ := zeroB quiet
      simpa using member

theorem prepare_returns (fitsA : q ≤ rwA) (fitsB : q ≤ rwB)
    (run : forLoop 0 q (prepareRow array A (A.add q) (A.add (unsigned (rwA * q))) ((A.add (unsigned (rwA * q))).add q)
      B (B.add q) (B.add (unsigned (rwB * q))) ((B.add (unsigned (rwB * q))).add q) q (bytesBetween rwA q)
      (bytesBetween rwB q)) ⟨fun _ => .raw (q * q), 0, 0, 0⟩ = some s) (t : Temporary) :
    t.source (ZeroQuadrants A q rwA) (ZeroQuadrants B q rwB) → Values (· = 0) (s.S t) := by
  have start : PreparedFrom A B q rwA rwB 0 0 ⟨fun _ => .raw (q * q), 0, 0, 0⟩ := by
    exact ⟨Nat.zero_le _, Nat.zero_le _, fun _ _ => raw_values _ _⟩
  have kept := forLoop_returns (fun i s => PreparedFrom A B q rwA rwB i 0 s) (Nat.zero_le q) start ?_ run
  · exact kept.zero t
  · intro i s s' _ row prepared run
    simp only [prepareRow, Option.bind_eq_bind, Option.bind_eq_some_iff] at run
    obtain ⟨s₁, columns, same⟩ := run
    cases Option.some.inj same
    obtain ⟨offsetA, offsetB, zero⟩ := forLoop_returns (PreparedFrom A B q rwA rwB i) (Nat.zero_le q) prepared
      (fun m s s' _ column prepared run => preparePlaced_returns row column prepared run) columns
    have incrementA := bytesBetween_le fitsA
    have incrementB := bytesBetween_le fitsB
    refine ⟨?_, ?_, zero⟩
    · change s₁.MatrixOffsetA + bytesBetween rwA q ≤ 8 * ((i + 1) * rwA + 0)
      rw [Nat.add_one_mul i]
      omega
    · change s₁.MatrixOffsetB + bytesBetween rwB q ≤ 8 * ((i + 1) * rwB + 0)
      rw [Nat.add_one_mul i]
      omega

end Prepare

/-! ### The last loops -/

section Combine
variable [Ring R] {s s' : Combination R} {M5 M2 T1sMULT : Buffer ℕ R} {i m : ℕ} {l l' : List R} {x : Buffer ℕ R}

theorem Zeros.zipWith {f : R → R → R} (preserves : f 0 0 = 0) (first : Zeros m quiet l) (second : Zeros m quiet l') :
    Zeros m quiet (List.zipWith f l l') := by
  constructor
  · rw [List.length_zipWith, first.1, second.1, Nat.min_self]
  · intro holds v member
    obtain ⟨a, inFirst, a', inSecond, rfl⟩ := mem_zipWith member
    rw [first.2 holds a inFirst, second.2 holds a' inSecond, preserves]

theorem readRange_zeros {p : ℕ} (zero : quiet → Values (· = 0) x) (run : x.readRange p m = some l) :
    Zeros m quiet l :=
  ⟨readRange_length run, fun holds => readRange_values ((zero holds).below _) (Nat.le_refl _) run⟩

theorem Zeros.limited {p : ℕ} (zeros : Zeros m quiet l) (run : x.writeRange p l = some array')
    (bound : p + m ≤ limit) : Limited limit quiet x array' :=
  .writeRange run (by rw [zeros.1]; exact bound) fun holds _ => zeros.2 holds

/-- What the loops preserve before column `m` of row `i`. -/
structure CombinedFrom (limit rwC last i m : ℕ) (quiet : Prop) (array : Buffer ℕ R) (s : Combination R) : Prop where
  C11 : s.C11 ≤ last + i * rwC + m
  C12 : s.C12 ≤ last + i * rwC + m
  C21 : s.C21 ≤ last + i * rwC + m
  C22 : s.C22 ≤ last + i * rwC + m
  limited : Limited limit quiet array s.array

theorem combineBlock_returns {last h : ℕ} (zero5 : quiet → Values (· = 0) M5) (zero2 : quiet → Values (· = 0) M2)
    (zeroT : quiet → Values (· = 0) T1sMULT) (bound : last + i * rwC + m + 4 ≤ limit)
    (combined : CombinedFrom limit rwC last i m quiet array s)
    (run : combineBlock M5 M2 T1sMULT s h = some s') : CombinedFrom limit rwC last i (m + 4) quiet array s' := by
  obtain ⟨C11, C12, C21, C22, limited⟩ := combined
  simp only [combineBlock, onRange, Option.bind_eq_bind, Option.bind_some, Option.bind_eq_some_iff] at run
  obtain ⟨l5, read5, l2, read2, lT, readT, l22, read22, array₁, ⟨l11, read11, write11⟩, array₂,
    ⟨l12, read12, write12⟩, array₃, write22, array₄, ⟨l21, read21, write21⟩, same⟩ := run
  cases Option.some.inj same
  have zeros5 : Zeros 4 (quiet ∧ Values (· = 0) s.array) l5 := readRange_zeros (fun holds => zero5 holds.1) read5
  have zeros2 : Zeros 4 (quiet ∧ Values (· = 0) s.array) l2 := readRange_zeros (fun holds => zero2 holds.1) read2
  have zerosT : Zeros 4 (quiet ∧ Values (· = 0) s.array) lT := readRange_zeros (fun holds => zeroT holds.1) readT
  have zeros22 : Zeros 4 (quiet ∧ Values (· = 0) s.array) l22 := readRange_zeros (fun holds => holds.2) read22
  have t1 := zerosT.zipWith (add_zero 0) zeros2
  have t2 := zeros22.zipWith (add_zero 0) t1
  have zeros11 : Zeros 4 (quiet ∧ Values (· = 0) s.array) l11 := readRange_zeros (fun holds => holds.2) read11
  have step₁ : Limited limit (quiet ∧ Values (· = 0) s.array) s.array array₁ :=
    (zeros11.zipWith (add_zero 0) zeros2).limited write11 (by omega)
  have zeros12 := readRange_zeros (fun holds => step₁.zero holds holds.2) read12
  have step₂ := step₁.trans
    ((zeros12.zipWith (add_zero 0) (zeros5.zipWith (add_zero 0) t1)).limited write12 (by omega))
  have step₃ := step₂.trans ((zeros5.zipWith (add_zero 0) t2).limited write22 (by omega))
  have zeros21 := readRange_zeros (fun holds => step₃.zero holds holds.2) read21
  have step₄ := step₃.trans ((zeros21.zipWith (by rw [neg_zero, add_zero]) t2).limited write21 (by omega))
  constructor
  · exact Nat.add_le_add_right C11 4
  · exact Nat.add_le_add_right C12 4
  · exact Nat.add_le_add_right C21 4
  · exact Nat.add_le_add_right C22 4
  · exact limited.trans step₄.assume

theorem combine_returns {combination : Combination R} (zero5 : quiet → Values (· = 0) M5)
    (zero2 : quiet → Values (· = 0) M2) (zeroT : quiet → Values (· = 0) T1sMULT) (four : 4 ∣ q) (fits : q ≤ rwC)
    (run : forLoop 0 q (combineRow M5 M2 T1sMULT q (bytesBetween rwC q))
      ⟨array, 0, 0, 0, C, C + q, C + unsigned (rwC * q), C + unsigned (rwC * q) + q⟩ = some combination) :
    Limited (C + reach q rwC) quiet array combination.array := by
  obtain ⟨blocks, rfl⟩ := four
  have kept := forLoop_returns
    (fun i s => CombinedFrom (C + reach (4 * blocks) rwC) rwC (C + unsigned (rwC * (4 * blocks)) + 4 * blocks) i 0
      quiet array s) (Nat.zero_le _) ?_ ?_ run
  · exact kept.limited
  · exact ⟨by simp; omega, by simp, by simp, by simp, .refl _ _ _⟩
  · intro i s s' _ row combined run
    simp only [combineRow, Option.bind_eq_bind, Option.bind_eq_some_iff] at run
    obtain ⟨s₁, columns, same⟩ := run
    cases Option.some.inj same
    have count : (4 * blocks + 3) / 4 = blocks := by omega
    rw [count] at columns
    obtain ⟨C11, C12, C21, C22, limited⟩ := forLoop_returns
      (fun h s => CombinedFrom (C + reach (4 * blocks) rwC) rwC (C + unsigned (rwC * (4 * blocks)) + 4 * blocks) i
        (4 * h) quiet array s) (Nat.zero_le _) combined
      (fun h s s' _ bound combined run => by
        have columns := row_extent row (show 4 * h + 4 ≤ 4 * blocks by omega) rwC
        refine combineBlock_returns (m := 4 * h) zero5 zero2 zeroT ?_ combined run
        rw [reach]
        omega) columns
    have next : ∀ p, p ≤ C + unsigned (rwC * (4 * blocks)) + 4 * blocks + i * rwC + 4 * blocks →
        advance p (bytesBetween rwC (4 * blocks)) ≤
          C + unsigned (rwC * (4 * blocks)) + 4 * blocks + (i + 1) * rwC + 0 := by
      intro p bound
      have moved := advance_increment_le p fits
      rw [Nat.add_one_mul i]
      omega
    exact ⟨next _ C11, next _ C12, next _ C21, next _ C22, limited⟩

end Combine

/-! ### The recursion -/

section Recursion
variable [Ring R]

theorem strassenStep_bounded {multiply : ℕ → ℕ → ℕ → Multiplication R} (four : 4 ∣ q) (fitsC : q ≤ rwC)
    (fitsA : q ≤ rwA) (fitsB : q ≤ rwB)
    (each : ∀ rwC rwA rwB, q ≤ rwC → q ≤ rwA → q ≤ rwB →
      Bounded (multiply rwC rwA rwB) (extent q rwC) (extent q rwA) (extent q rwB)) :
    Bounded (strassenStep multiply q rwC rwA rwB) (reach q rwC) (reach q rwA) (reach q rwB) := by
  intro array C A B array' run
  simp only [strassenStep, Option.bind_eq_bind, Option.bind_eq_some_iff] at run
  obtain ⟨s, prepare, M2, run2, M5, run5, T1, runT, array₁, run₁, array₂, run₂, array₃, run₃, array₄, run₄, final,
    combine, same⟩ := run
  cases Option.some.inj same
  have own := Nat.le_refl q
  have zero : A.ZeroTo (reach q rwA) ∨ B.ZeroTo (reach q rwB) → ZeroQuadrants A q rwA ∨ ZeroQuadrants B q rwB :=
    Or.imp (fun zero => zero.quadrants) (fun zero => zero.quadrants)
  have matrix : ∀ t : Temporary, t.source (ZeroQuadrants A q rwA) (ZeroQuadrants B q rwB) →
      (Operand.there (s.S t) 0).ZeroTo (extent q q) :=
    fun t quiet => (prepare_returns fitsA fitsB prepare t quiet).below _
  -- the products in temporary matrices
  have zero2 := fun quiet => (each q rwA rwB own fitsA fitsB _ _ _ _ _ run2).zero
    ((zero quiet).imp (fun zero => zero.first.outside array) (fun zero => zero.first.outside array)) (raw_values _ _)
  have zero5 := fun quiet => (each q q q own own own _ _ _ _ _ run5).zero
    ((zero quiet).imp (matrix .S1) (matrix .S5)) (raw_values _ _)
  have zeroT := fun quiet => (each q q q own own own _ _ _ _ _ runT).zero
    ((zero quiet).imp (matrix .S2) (matrix .S6)) (raw_values _ _)
  -- the products in the quadrants of C
  have call₁ := (each rwC q q fitsC own own).limited (C := C) (by omega)
    (fun quiet => (zero quiet).imp (matrix .S3) (matrix .S7)) run₁
  have call₂ := (each rwC rwA rwB fitsC fitsA fitsB).limited (C := C) (by omega)
    (fun quiet => (zero quiet).imp (·.right) (·.lower)) run₂
  have call₃ := (each rwC q rwB fitsC own fitsB).limited (C := C) (by omega)
    (fun quiet => (zero quiet).imp (matrix .S4) (·.last)) run₃
  have call₄ := (each rwC rwA q fitsC fitsA own).limited (C := C) (by omega)
    (fun quiet => (zero quiet).imp (·.last) (matrix .S8)) run₄
  have products := ((call₁.trans call₂).trans call₃).trans call₄
  exact products.trans (combine_returns zero5 zero2 zeroT four fitsC combine)

theorem optimizedStrassenMultiply_bounded (k : ℕ) {rwC rwA rwB : ℕ} (fitsC : 2 ^ (k + 4) ≤ rwC)
    (fitsA : 2 ^ (k + 4) ≤ rwA) (fitsB : 2 ^ (k + 4) ≤ rwB) :
    Bounded (R := R) (optimizedStrassenMultiply (2 ^ (k + 4)) rwC rwA rwB) (reach (2 ^ (k + 3)) rwC)
      (reach (2 ^ (k + 3)) rwA) (reach (2 ^ (k + 3)) rwB) := by
  induction k generalizing rwC rwA rwB with
  | zero =>
    rw [optimizedStrassenMultiply, if_pos (by decide)]
    exact multiplyByDivideAndConquer_bounded 0 fitsC false
  | succ k ih =>
    have divide : Bounded (R := R) (multiplyByDivideAndConquer (2 ^ (k + 1 + 4)) rwC rwA rwB false) _ _ _ :=
      multiplyByDivideAndConquer_bounded (k + 1) fitsC false
    rw [double_pow (k + 4)] at fitsC fitsA fitsB divide ⊢
    rw [optimizedStrassenMultiply_double]
    by_cases small : 2 ^ (k + 4) + 2 ^ (k + 4) ≤ SizeAtWhichDivideAndConquerIsMoreEfficient
    · rw [if_pos small]
      exact divide
    · rw [if_neg small]
      refine strassenStep_bounded ((by decide : 4 ∣ 8).trans (eight_dvd (k + 1))) (by omega) (by omega) (by omega) ?_
      intro rwC rwA rwB fitsC fitsA fitsB
      refine (ih fitsC fitsA fitsB).mono ?_ ?_ ?_
      all_goals
        rw [double_pow (k + 3)]
        exact reach_le (Nat.two_pow_pos _) _

end Recursion

/-! ### Exactly when the product is computed -/

/-- A call for `n` by `n` matrices with these widths of the rows returns, whatever the arrays hold; then the matrix at
`C` is the product, and nothing else has changed. -/
def ComputesProduct (R : Type) [Ring R] (n rwC rwA rwB : ℕ) : Prop :=
  ∀ array C A B (a b : ℕ → ℕ → R), Inputs array C A B n rwC rwA rwB a b →
    ∃ array', optimizedStrassenMultiply n rwC rwA rwB array C A B = some array' ∧
      Holds array' C rwC n n (product n a b) ∧ Changes (window C rwC n n) array array' ∧
      A.Gives array' rwA n a ∧ B.Gives array' rwB n b

theorem computesProduct_of_fits [Ring R] {k : ℕ} (widthC : Width (2 ^ (k + 4)) rwC) (widthA : Width (2 ^ (k + 4)) rwA)
    (widthB : Width (2 ^ (k + 4)) rwB) : ComputesProduct R (2 ^ (k + 4)) rwC rwA rwB := by
  intro array C A B a b inputs
  obtain ⟨array', run, holds, changes⟩ :=
    optimizedStrassenMultiply_spec k widthC widthA widthB array C A B 0 a b inputs (fun additive => by cases additive)
  rw [result_false] at holds
  exact ⟨array', run, holds, changes, inputs.left.gives.changes changes inputs.left.apart,
    inputs.right.gives.changes changes inputs.right.apart⟩

section Lost
variable {n : ℕ}

/-- A matrix of zeros with a one as its last entry. -/
def lastOne (n rw i j : ℕ) : ℤ := if i * rw + j + 1 = extent n rw then 1 else 0

/-- The same in an array. -/
def lastOneArray (n rw : ℕ) : Buffer ℕ ℤ := ⟨fun _ => true, fun k => some (if k + 1 = extent n rw then 1 else 0)⟩

def zeroArray : Buffer ℕ ℤ := ⟨fun _ => true, fun _ => some 0⟩

theorem lastOneArray_holds (n rw : ℕ) : Holds (lastOneArray n rw) 0 rw n n (lastOne n rw) := by
  intro i j _ _
  rw [lastOneArray, read_eq rfl, lastOne, Nat.zero_add]

theorem last_extent (nonempty : 0 < n) (rw : ℕ) : (n - 1) * rw + (n - 1) + 1 = extent n rw := by
  rw [extent]
  omega

theorem product_lastOne (nonempty : 0 < n) (rwA rwB : ℕ) :
    product n (lastOne n rwA) (lastOne n rwB) (n - 1) (n - 1) = 1 := by
  rw [product, Finset.sum_eq_single (n - 1)]
  · rw [lastOne, lastOne, if_pos (last_extent nonempty rwA), if_pos (last_extent nonempty rwB), mul_one]
  · intro k _ other
    rw [lastOne, if_neg, zero_mul]
    have last := last_extent nonempty rwA
    omega
  · intro absent
    exact absurd (Finset.mem_range.mpr (by omega)) absent

theorem lastOneArray_zeroTo {length : ℕ} (short : length < extent n rw) :
    (Operand.there (lastOneArray n rw) 0).ZeroTo length := by
  intro k v below found
  rw [lastOneArray, read_eq rfl] at found
  rw [← Option.some.inj found, if_neg]
  omega

theorem zeroArray_values : Values (· = 0) zeroArray := by
  intro k v found
  exact (Option.some.inj found).symm

theorem not_computesProduct {k : ℕ} (fitsC : 2 ^ (k + 4) ≤ rwC) (fitsA : 2 ^ (k + 4) ≤ rwA) (fitsB : 2 ^ (k + 4) ≤ rwB)
    (overflow : ¬(Fits (2 ^ (k + 4)) rwA ∧ Fits (2 ^ (k + 4)) rwB ∧ Fits (2 ^ (k + 4)) rwC)) :
    ¬ComputesProduct ℤ (2 ^ (k + 4)) rwC rwA rwB := by
  intro computes
  have nonempty : 0 < 2 ^ (k + 4) := Nat.two_pow_pos _
  have bounded := optimizedStrassenMultiply_bounded (R := ℤ) k fitsC fitsA fitsB
  have short : ∀ rw, ¬Fits (2 ^ (k + 4)) rw → reach (2 ^ (k + 3)) rw < extent (2 ^ (k + 4)) rw := by
    intro rw large
    rw [double_pow (k + 3)] at large ⊢
    refine reach_lt (Nat.two_pow_pos _) (not_lt.mp fun small => large ?_)
    rwa [Fits, ← Nat.two_mul, Nat.mul_div_cancel_left _ (by decide)]
  generalize 2 ^ (k + 4) = n at *
  obtain ⟨array', run, holds, _⟩ := computes zeroArray 0 (.there (lastOneArray n rwA) 0)
    (.there (lastOneArray n rwB) 0) _ _ ⟨fun _ _ => rfl, Operand.supplies_there (lastOneArray_holds n rwA) _ _,
      Operand.supplies_there (lastOneArray_holds n rwB) _ _⟩
  have limited := bounded _ _ _ _ _ run
  have last := holds (n - 1) (n - 1) (by omega) (by omega)
  rw [product_lastOne nonempty] at last
  have unread : ¬((Operand.there (lastOneArray n rwA) 0).ZeroTo (reach (2 ^ (k + 3)) rwA) ∨
      (Operand.there (lastOneArray n rwB) 0).ZeroTo (reach (2 ^ (k + 3)) rwB)) :=
    fun quiet => one_ne_zero (limited.zero quiet zeroArray_values _ _ last)
  have unwritten : Fits n rwC := by
    by_contra large
    have lost := short rwC large
    have corner := last_extent nonempty rwC
    have kept := limited.above (0 + (n - 1) * rwC + (n - 1)) (by omega)
    have filled : array'.cell (0 + (n - 1) * rwC + (n - 1)) = some 1 := (Option.ite_none_right_eq_some.mp last).2
    rw [filled] at kept
    exact one_ne_zero (Option.some.inj kept)
  refine overflow ⟨?_, ?_, unwritten⟩
  · by_contra large
    exact unread (.inl (lastOneArray_zeroTo (short rwA large)))
  · by_contra large
    exact unread (.inr (lastOneArray_zeroTo (short rwB large)))

end Lost

theorem exists_exponent {k : ℕ} (least : 16 ≤ 2 ^ k) : ∃ l, k = l + 4 := by
  refine Nat.exists_eq_add_of_le' (not_lt.mp fun small => ?_)
  have := Nat.pow_lt_pow_right (by decide : 1 < 2) small
  omega

theorem optimizedStrassenMultiply_product_iff {n k : ℕ} (power : n = 2 ^ k) (least : 16 ≤ n) (rowsC : n ≤ rwC)
    (rowsA : n ≤ rwA) (rowsB : n ≤ rwB) :
    (∀ (R : Type) [Ring R], ComputesProduct R n rwC rwA rwB) ↔
      rwA * (n / 2) < 2 ^ 32 ∧ rwB * (n / 2) < 2 ^ 32 ∧ rwC * (n / 2) < 2 ^ 32 := by
  subst power
  obtain ⟨k, rfl⟩ := exists_exponent least
  constructor
  · intro computes
    by_contra overflow
    exact not_computesProduct rowsC rowsA rowsB overflow (computes ℤ)
  · rintro ⟨fitsA, fitsB, fitsC⟩ R _
    exact computesProduct_of_fits ⟨rowsC, fitsC⟩ ⟨rowsA, fitsA⟩ ⟨rowsB, fitsB⟩

theorem optimizedStrassenMultiply_product_dense : ComputesProduct ℤ 1024 1024 1024 2048 :=
  (optimizedStrassenMultiply_product_iff (k := 10) (by decide) (by decide) (by decide) (by decide) (by decide)).mpr
    (by decide) ℤ

/-- `RowWidthA * QuadrantSize` is `2 ^ 32`, so that `A10` points to the same cell as `A00`. -/
theorem optimizedStrassenMultiply_overflow : ¬∀ (R : Type) [Ring R], ComputesProduct R 16 16 (2 ^ 29) 16 := by
  intro computes
  refine not_computesProduct (k := 0) ?_ ?_ ?_ ?_ (computes ℤ)
  all_goals
    norm_num [Fits]

end CilkArtifact.Strassen
