import CilkArtifact.Strassen.Optimized
import CilkArtifact.Strassen.Quadrants

/-! The first loops of `OptimizedStrassenMultiply` fill `S1`, …, `S8` with sums of quadrants. -/
namespace CilkArtifact.Strassen
open Buffer
variable {R : Type} {q rwA rwB : ℕ} {array : Buffer ℕ R}

theorem raw_room (q : ℕ) : Room (.raw (q * q) : Buffer ℕ R) 0 q q q := by
  rintro k ⟨i, j, row, column, rfl⟩
  have rows : (i + 1) * q ≤ q * q := Nat.mul_le_mul_right q row
  rw [Nat.succ_mul] at rows
  simp only [raw, decide_eq_true_eq]
  omega

/-! ### Assignments to temporary matrices -/

theorem assign_spec {S : Temporary → Buffer ℕ R} {offset : ℕ} (inside : ∀ t, (S t).inside (advance 0 offset) = true)
    (t : Temporary) (v : R) :
    ∃ S', assign offset S (t, v) = some S' ∧ (S' t).cell (advance 0 offset) = some v ∧
      Changes {advance 0 offset} (S t) (S' t) ∧ ∀ other ≠ t, S' other = S other := by
  obtain ⟨matrix, run, written, changes⟩ := write_spec (inside t) v
  refine ⟨Function.update S t matrix, ?_, ?_, ?_, ?_⟩
  · simp only [assign, run, Option.bind_eq_bind, Option.bind_some]
  · rwa [Function.update_self]
  · rwa [Function.update_self]
  · intro other different
    exact Function.update_of_ne different ..

/-- Assignments to different matrices. -/
theorem foldlM_assign {offset : ℕ} (assignments : List (Temporary × R)) {S : Temporary → Buffer ℕ R}
    (different : (assignments.map Prod.fst).Nodup) (inside : ∀ t, (S t).inside (advance 0 offset) = true) :
    ∃ S', assignments.foldlM (assign offset) S = some S' ∧
      (∀ t v, (t, v) ∈ assignments →
        (S' t).cell (advance 0 offset) = some v ∧ Changes {advance 0 offset} (S t) (S' t)) ∧
      ∀ t ∉ assignments.map Prod.fst, S' t = S t := by
  induction assignments generalizing S with
  | nil => exact ⟨S, rfl, fun _ _ member => (List.not_mem_nil member).elim, fun _ _ => rfl⟩
  | cons first rest ih =>
    obtain ⟨t₀, v₀⟩ := first
    rw [List.map_cons, List.nodup_cons] at different
    obtain ⟨S₁, run₁, written, changes, others⟩ := assign_spec inside t₀ v₀
    have inside₁ : ∀ t, (S₁ t).inside (advance 0 offset) = true := by
      intro t
      by_cases same : t = t₀
      · rw [same, changes.inside, inside]
      · rw [others t same, inside]
    obtain ⟨S', run, assigned, kept⟩ := ih different.2 inside₁
    refine ⟨S', ?_, ?_, ?_⟩
    · rw [List.foldlM_cons, run₁]
      exact run
    · intro t v member
      rcases List.mem_cons.mp member with same | later
      · obtain ⟨rfl, rfl⟩ := Prod.mk.injEq .. ▸ same
        rw [kept t different.1]
        exact ⟨written, changes⟩
      · have listed : t ∈ rest.map Prod.fst := List.mem_map.mpr ⟨(t, v), later, rfl⟩
        have unequal : t ≠ t₀ := fun same => different.1 (same ▸ listed)
        rw [← others t unequal]
        exact assigned t v later
    · intro t absent
      rw [List.map_cons, List.mem_cons, not_or] at absent
      rw [kept t absent.2, others t absent.1]

/-! ### The loops -/

section Loops
variable [Ring R] {A B : Operand R} {a b : ℕ → ℕ → R} {i j : ℕ}

/-- The sums of Winograd's variant of Strassen's algorithm. -/
def quadrantSum (x y : Bool → Bool → R) : Temporary → R
  | .S1 => x true false + x true true
  | .S2 => x true false + x true true - x false false
  | .S3 => x false false - x true false
  | .S4 => x false true - (x true false + x true true - x false false)
  | .S5 => y false true - y false false
  | .S6 => y true true - (y false true - y false false)
  | .S7 => y true true - y false true
  | .S8 => y true true - (y false true - y false false) - y true false

/-- An entry of `S1`, …, `S8`. -/
def preparedEntry (q : ℕ) (a b : ℕ → ℕ → R) (t : Temporary) (e : ℕ × ℕ) : R :=
  quadrantSum (fun lower right => quadrant a q lower right e.1 e.2)
    (fun lower right => quadrant b q lower right e.1 e.2) t

omit [Ring R] in
theorem element_quadrant {rw : ℕ} (gives : A.Gives array rw (q + q) a) (lower right : Bool) (row : i < q)
    (column : j < q) :
    (A.quadrant rw q lower right).element array (8 * (i * rw + j)) = some (quadrant a q lower right i j) := by
  have entry := gives.quadrant lower right i j row column
  rwa [Operand.element, advance, Nat.mul_div_cancel_left _ (by decide), ← Nat.add_assoc]

/-- The order in which an iteration assigns. -/
def assignmentOrder : List Temporary := [.S1, .S2, .S4, .S5, .S6, .S8, .S3, .S7]

/-- What the loops have done before column `m` of row `i`. -/
structure PreparedTo (q rwA rwB : ℕ) (a b : ℕ → ℕ → R) (i m : ℕ) (s : Preparation R) : Prop where
  assigns : ∀ t, Assigns (entry 0 q) (preparedEntry q a b t) (before q i m) (.raw (q * q)) (s.S t)
  temp : s.TempMatrixOffset = 8 * (i * q + m)
  offsetA : s.MatrixOffsetA = 8 * (i * rwA + m)
  offsetB : s.MatrixOffsetB = 8 * (i * rwB + m)

/-- The loop body of the columns, at quadrants. -/
def prepareQuadrants (array : Buffer ℕ R) (A B : Operand R) (q rwA rwB : ℕ) :
    Preparation R → ℕ → Option (Preparation R) :=
  prepareElement array (A.quadrant rwA q false false) (A.quadrant rwA q false true) (A.quadrant rwA q true false)
    (A.quadrant rwA q true true) (B.quadrant rwB q false false) (B.quadrant rwB q false true)
    (B.quadrant rwB q true false) (B.quadrant rwB q true true)

theorem prepareQuadrants_spec {s : Preparation R} {m : ℕ} (givesA : A.Gives array rwA (q + q) a)
    (givesB : B.Gives array rwB (q + q) b) (row : i < q) (column : m < q) (prepared : PreparedTo q rwA rwB a b i m s) :
    ∃ s', prepareQuadrants array A B q rwA rwB s m = some s' ∧ PreparedTo q rwA rwB a b i (m + 1) s' := by
  obtain ⟨assigns, temp, offsetA, offsetB⟩ := prepared
  have place : advance 0 s.TempMatrixOffset = entry 0 q (i, m) := by
    rw [temp, advance, Nat.mul_div_cancel_left _ (by decide), entry, Nat.add_assoc]
  have inside : ∀ t, (s.S t).inside (advance 0 s.TempMatrixOffset) = true := by
    intro t
    rw [(assigns t).changes.inside, place]
    exact raw_room q _ (mem_window row column)
  obtain ⟨S', run, assigned, _⟩ := foldlM_assign
    (assignmentOrder.map fun t => (t, preparedEntry q a b t (i, m)))
    (by rw [List.map_map]; exact (by decide : assignmentOrder.Nodup)) inside
  refine ⟨⟨S', s.TempMatrixOffset + 8, s.MatrixOffsetA + 8, s.MatrixOffsetB + 8⟩, ?_, ?_, ?_, ?_, ?_⟩
  · simp only [prepareQuadrants, prepareElement, offsetA, offsetB, element_quadrant givesA _ _ row column,
      element_quadrant givesB _ _ row column, Option.bind_eq_bind, Option.bind_some]
    exact congrArg (Option.bind · _) run
  · intro t
    obtain ⟨written, changes⟩ := assigned t _ (List.mem_map.mpr ⟨t, by cases t <;> decide, rfl⟩)
    rw [place] at written changes
    have last : Assigns (entry 0 q) (preparedEntry q a b t) ((fun t => (i, m + t)) '' {t | t < 1}) (s.S t) (S' t) := by
      refine ⟨changes.mono ?_, ?_⟩
      · rintro _ rfl
        exact ⟨(i, m), ⟨0, Nat.one_pos, rfl⟩, rfl⟩
      · rintro _ ⟨t', only, rfl⟩
        obtain rfl : t' = 0 := Nat.lt_one_iff.mp only
        exact written
    exact (assigns t).append last (before_add column) ((entry_injOn 0 q).mono (before_sub_width (Nat.le_refl q)))
  · change s.TempMatrixOffset + 8 = 8 * (i * q + (m + 1))
    omega
  · change s.MatrixOffsetA + 8 = 8 * (i * rwA + (m + 1))
    omega
  · change s.MatrixOffsetB + 8 = 8 * (i * rwB + (m + 1))
    omega

theorem prepareRow_spec {s : Preparation R} (givesA : A.Gives array rwA (q + q) a)
    (givesB : B.Gives array rwB (q + q) b) (fitsA : q ≤ rwA) (fitsB : q ≤ rwB) (smallA : rwA < 2 ^ 29)
    (smallB : rwB < 2 ^ 29) (row : i < q) (prepared : PreparedTo q rwA rwB a b i 0 s) :
    ∃ s', forLoop 0 q (prepareQuadrants array A B q rwA rwB) s = some s' ∧
      PreparedTo q rwA rwB a b (i + 1) 0 { s' with
        MatrixOffsetA := s'.MatrixOffsetA + bytesBetween rwA q
        MatrixOffsetB := s'.MatrixOffsetB + bytesBetween rwB q } := by
  obtain ⟨s', run, assigns, temp, offsetA, offsetB⟩ :=
    forLoop_invariant (PreparedTo q rwA rwB a b i) (Nat.zero_le q) prepared
      fun m s _ column => prepareQuadrants_spec givesA givesB row column
  refine ⟨s', run, ?_, ?_, ?_, ?_⟩
  · rw [before_row]
    exact assigns
  · rw [Nat.add_zero, Nat.add_one_mul i]
    exact temp
  · simp only [offsetA, bytesBetween_eq fitsA smallA, Nat.add_one_mul i]
    omega
  · simp only [offsetB, bytesBetween_eq fitsB smallB, Nat.add_one_mul i]
    omega

/-- The matrices `S1`, …, `S8` after the loops. -/
theorem prepare_spec (givesA : A.Gives array rwA (q + q) a) (givesB : B.Gives array rwB (q + q) b) (fitsA : q ≤ rwA)
    (fitsB : q ≤ rwB) (smallA : rwA < 2 ^ 29) (smallB : rwB < 2 ^ 29) :
    ∃ s, forLoop 0 q (prepareRow array (A.quadrant rwA q false false) (A.quadrant rwA q false true)
          (A.quadrant rwA q true false) (A.quadrant rwA q true true) (B.quadrant rwB q false false)
          (B.quadrant rwB q false true) (B.quadrant rwB q true false) (B.quadrant rwB q true true) q
          (bytesBetween rwA q) (bytesBetween rwB q)) ⟨fun _ => .raw (q * q), 0, 0, 0⟩ = some s ∧
      ∀ t, Holds (s.S t) 0 q q q fun i j => preparedEntry q a b t (i, j) := by
  have start : PreparedTo q rwA rwB a b 0 0 ⟨fun _ => .raw (q * q), 0, 0, 0⟩ := by
    constructor
    · intro t
      rw [before_zero]
      exact .empty _
    all_goals simp
  refine Exists.imp (fun s loop => ⟨loop.1, fun t => ?_⟩)
    (forLoop_invariant (fun i s => PreparedTo q rwA rwB a b i 0 s) (Nat.zero_le q) start ?_)
  · have all := loop.2.assigns t
    rw [before_all] at all
    exact Assigns.holds (M := fun i j => preparedEntry q a b t (i, j)) all (raw_room q)
  · intro i s _ row prepared
    obtain ⟨s', columns, next⟩ := prepareRow_spec givesA givesB fitsA fitsB smallA smallB row prepared
    refine ⟨_, ?_, next⟩
    rw [prepareQuadrants] at columns
    simp only [prepareRow, columns, Option.bind_eq_bind, Option.bind_some]

end Loops

end CilkArtifact.Strassen
