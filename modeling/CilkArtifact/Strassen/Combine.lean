import CilkArtifact.Strassen.Prepare

/-! The last loops of `OptimizedStrassenMultiply` add up the products in the quadrants of `C`. -/
namespace CilkArtifact.Strassen
open Buffer
variable {R : Type} {q rwC C i m : ℕ} {array array₀ : Buffer ℕ R}

/-! ### Entries of the four quadrants -/

/-- Quadrant, row and column. -/
abbrev Place := (Bool × Bool) × (ℕ × ℕ)

def quadrantCell (C rwC q : ℕ) (e : Place) : ℕ := entry (corner C rwC q e.1.1 e.1.2) rwC e.2

def inQuadrants (q : ℕ) : Set Place := {e | e.2.1 < q ∧ e.2.2 < q}

theorem half_inj {i' : ℕ} {second second' : Bool} (bound : i < q) (bound' : i' < q)
    (same : half q second + i = half q second' + i') : second = second' ∧ i = i' := by
  cases second <;> cases second' <;> simp [half] at same ⊢ <;> omega

theorem quadrantCell_eq (C rwC q : ℕ) (e : Place) :
    quadrantCell C rwC q e = C + (half q e.1.1 + e.2.1) * rwC + (half q e.1.2 + e.2.2) := by
  rw [quadrantCell, entry, corner, Nat.add_mul]
  omega

theorem quadrantCell_injOn (fits : q + q ≤ rwC) : Set.InjOn (quadrantCell C rwC q) (inQuadrants q) := by
  rintro ⟨⟨lower, right⟩, i, j⟩ ⟨row, column⟩ ⟨⟨lower', right'⟩, i', j'⟩ ⟨row', column'⟩ same
  rw [quadrantCell_eq, quadrantCell_eq] at same
  have inside : ∀ (second : Bool) (k : ℕ), k < q → half q second + k < rwC := by
    intro second k bound
    have := half_add_le q second
    omega
  obtain ⟨rows, columns⟩ := entry_inj (inside right j column) (inside right' j' column') same
  obtain ⟨rfl, rfl⟩ := half_inj row row' rows
  obtain ⟨rfl, rfl⟩ := half_inj column column' columns
  rfl

theorem quadrantCell_window (C rwC q : ℕ) :
    quadrantCell C rwC q '' inQuadrants q ⊆ window C rwC (q + q) (q + q) := by
  rintro _ ⟨⟨⟨lower, right⟩, i, j⟩, ⟨row, column⟩, rfl⟩
  exact corner_window_sub C rwC q lower right (mem_window row column)

/-- Everything before column `m` of row `i`, and the next four columns in the quadrants of the list. -/
def doneCells (q i m : ℕ) (done : List (Bool × Bool)) : Set Place :=
  {e | e.2 ∈ before q i m ∨ e.2 ∈ before q i (m + 4) ∧ e.1 ∈ done}

theorem before_mono {m' : ℕ} (le : m ≤ m') : before q i m ⊆ before q i m' := by
  intro e member
  rw [mem_before] at member ⊢
  omega

theorem doneCells_none (q i m : ℕ) : doneCells q i m [] = {e | e.2 ∈ before q i m} := by
  ext e
  exact ⟨fun member => member.resolve_right fun ⟨_, absent⟩ => List.not_mem_nil absent, .inl⟩

theorem doneCells_all (q i m : ℕ) {done : List (Bool × Bool)} (all : ∀ c, c ∈ done) :
    doneCells q i m done = {e | e.2 ∈ before q i (m + 4)} := by
  ext e
  constructor
  · rintro (member | ⟨member, _⟩)
    · exact before_mono (by omega) member
    · exact member
  · exact fun member => .inr ⟨member, all _⟩

/-- Four columns of one more quadrant. -/
theorem doneCells_cons {done : List (Bool × Bool)} (bound : m + 4 ≤ q) (c : Bool × Bool) (e : Place) :
    e ∈ doneCells q i m (c :: done) ↔ e ∈ doneCells q i m done ∨ e ∈ (fun t => (c, (i, m + t))) '' {t | t < 4} := by
  obtain ⟨c', e⟩ := e
  have columns := before_add bound (i := i) e
  constructor
  · rintro (old | ⟨member, listed⟩)
    · exact .inl (.inl old)
    · rcases List.mem_cons.mp listed with same | listed
      · obtain rfl : c' = c := same
        rcases columns.mp member with old | ⟨t, bound', same⟩
        · exact .inl (.inl old)
        · exact .inr ⟨t, bound', by rw [← same]⟩
      · exact .inl (.inr ⟨member, listed⟩)
  · rintro ((old | ⟨member, listed⟩) | ⟨t, bound', same⟩)
    · exact .inl old
    · exact .inr ⟨member, List.mem_cons_of_mem _ listed⟩
    · obtain ⟨rfl, rfl⟩ := same
      exact .inr ⟨columns.mpr (.inr ⟨t, bound', rfl⟩), List.mem_cons_self⟩

theorem doneCells_sub {done : List (Bool × Bool)} (row : i < q) : doneCells q i m done ⊆ inQuadrants q := by
  have sub : ∀ m', before q i m' ⊆ {e | e.1 < q ∧ e.2 < q} := by
    intro m' e member
    rw [mem_before] at member
    exact ⟨by omega, member.1⟩
  rintro e (member | ⟨member, _⟩)
  · exact sub _ member
  · exact sub _ member

section Ranges
variable {value : Place → R} {c : Bool → Bool → ℕ → ℕ → R} {done : List (Bool × Bool)}

/-- A quadrant that has not been changed here yet. -/
theorem readRange_old (assigns : Assigns (quadrantCell C rwC q) value (doneCells q i m done) array₀ array)
    (fits : q + q ≤ rwC) (row : i < q) (bound : m + 4 ≤ q) {lower right : Bool} (later : (lower, right) ∉ done)
    (holds : Holds array₀ (corner C rwC q lower right) rwC q q (c lower right)) :
    array.readRange (corner C rwC q lower right + i * rwC + m) 4 =
      some ((List.range 4).map fun t => c lower right i (m + t)) := by
  refine readRange_range 4 fun t bound' => ?_
  have other : ((lower, right), (i, m + t)) ∉ doneCells q i m done := by
    rintro (old | ⟨_, listed⟩)
    · have old : m + t < q ∧ (i < i ∨ i = i ∧ m + t < m) := old
      omega
    · exact later listed
  have column : m + t < q := by omega
  have kept := assigns.read_other (quadrantCell_injOn fits) (doneCells_sub row)
    (show ((lower, right), (i, m + t)) ∈ inQuadrants q from ⟨row, column⟩) other
  rw [quadrantCell, entry] at kept
  rw [Nat.add_assoc, kept, holds i (m + t) row column]

theorem writeRange_next (assigns : Assigns (quadrantCell C rwC q) value (doneCells q i m done) array₀ array)
    (fits : q + q ≤ rwC) (row : i < q) (bound : m + 4 ≤ q) (lower right : Bool)
    (room : Room array₀ (corner C rwC q lower right) rwC q q) :
    ∃ array', array.writeRange (corner C rwC q lower right + i * rwC + m)
        ((List.range 4).map fun t => value ((lower, right), (i, m + t))) = some array' ∧
      Assigns (quadrantCell C rwC q) value (doneCells q i m ((lower, right) :: done)) array₀ array' := by
  have cells : ∀ t < 4, quadrantCell C rwC q ((lower, right), (i, m + t)) =
      corner C rwC q lower right + i * rwC + m + t := fun t _ => by rw [quadrantCell, entry, Nat.add_assoc _ m]
  obtain ⟨array', run, written⟩ := writeRange_assigns (x := array) 4 (fun t => ((lower, right), (i, m + t))) cells
    (fun t _ => rfl) (fun t bound' => by
      rw [assigns.changes.inside, Nat.add_assoc]
      exact room _ (mem_window row (by omega)))
  exact ⟨array', run, assigns.append written (doneCells_cons bound (lower, right))
    ((quadrantCell_injOn fits).mono (doneCells_sub row))⟩

end Ranges

/-! ### The loops -/

section Loops
variable [Ring R] {c : Bool → Bool → ℕ → ℕ → R} {m5 m2 t1 : ℕ → ℕ → R} {M5 M2 T1sMULT : Buffer ℕ R}

/-- What the loops leave at a place whose quadrants held `c`. -/
def combinedEntry (c : Bool → Bool → ℕ → ℕ → R) (m5 m2 t1 : ℕ → ℕ → R) : Place → R
  | ((false, false), (i, j)) => c false false i j + m2 i j
  | ((false, true), (i, j)) => c false true i j + (m5 i j + (t1 i j + m2 i j))
  | ((true, true), (i, j)) => m5 i j + (c true true i j + (t1 i j + m2 i j))
  | ((true, false), (i, j)) => -c true false i j + (c true true i j + (t1 i j + m2 i j))

/-- The products before they are added up. -/
structure Products (array : Buffer ℕ R) (C rwC q : ℕ) (c : Bool → Bool → ℕ → ℕ → R) (M5 M2 T1sMULT : Buffer ℕ R)
    (m5 m2 t1 : ℕ → ℕ → R) : Prop where
  quadrants : ∀ lower right, Holds array (corner C rwC q lower right) rwC q q (c lower right)
  room : ∀ lower right, Room array (corner C rwC q lower right) rwC q q
  M5 : Holds M5 0 q q q m5
  M2 : Holds M2 0 q q q m2
  T1sMULT : Holds T1sMULT 0 q q q t1

/-- The pointers at column `m` of row `i`. -/
def combinationAt (C rwC q i m : ℕ) (array : Buffer ℕ R) : Combination R where
  array := array
  M5 := i * q + m
  M2 := i * q + m
  T1sMULT := i * q + m
  C11 := corner C rwC q false false + i * rwC + m
  C12 := corner C rwC q false true + i * rwC + m
  C21 := corner C rwC q true false + i * rwC + m
  C22 := corner C rwC q true true + i * rwC + m

theorem combineBlock_spec (products : Products array₀ C rwC q c M5 M2 T1sMULT m5 m2 t1) (fits : q + q ≤ rwC)
    (row : i < q) (bound : m + 4 ≤ q) (h : ℕ)
    (assigns : Assigns (quadrantCell C rwC q) (combinedEntry c m5 m2 t1) {e | e.2 ∈ before q i m} array₀ array) :
    ∃ array', combineBlock M5 M2 T1sMULT (combinationAt C rwC q i m array) h =
        some (combinationAt C rwC q i (m + 4) array') ∧
      Assigns (quadrantCell C rwC q) (combinedEntry c m5 m2 t1) {e | e.2 ∈ before q i (m + 4)} array₀ array' := by
  rw [← doneCells_none] at assigns
  have read5 := products.M5.readRange row bound
  have read2 := products.M2.readRange row bound
  have readT := products.T1sMULT.readRange row bound
  rw [Nat.zero_add] at read5 read2 readT
  have read22 := readRange_old assigns fits row bound (by decide) (products.quadrants true true)
  have read11 := readRange_old assigns fits row bound (by decide) (products.quadrants false false)
  obtain ⟨array₁, write11, assigns₁⟩ := writeRange_next assigns fits row bound false false (products.room _ _)
  have read12 := readRange_old assigns₁ fits row bound (by decide) (products.quadrants false true)
  obtain ⟨array₂, write12, assigns₂⟩ := writeRange_next assigns₁ fits row bound false true (products.room _ _)
  obtain ⟨array₃, write22, assigns₃⟩ := writeRange_next assigns₂ fits row bound true true (products.room _ _)
  have read21 := readRange_old assigns₃ fits row bound (by decide) (products.quadrants true false)
  obtain ⟨array₄, write21, assigns₄⟩ := writeRange_next assigns₃ fits row bound true false (products.room _ _)
  simp only [combinedEntry] at write11 write12 write22 write21
  refine ⟨array₄, ?_, ?_⟩
  · simp only [combineBlock, combinationAt, onRange, read5, read2, readT, read22, read11, write11, read12, write12,
      write22, read21, write21, List.zipWith_map, List.zipWith_self, Option.bind_eq_bind, Option.bind_some]
    rfl
  · rwa [doneCells_all] at assigns₄
    rintro ⟨_ | _, _ | _⟩ <;> decide

theorem combineRow_spec (products : Products array₀ C rwC q c M5 M2 T1sMULT m5 m2 t1) (four : 4 ∣ q)
    (fits : q + q ≤ rwC) (small : rwC < 2 ^ 29) (row : i < q)
    (assigns : Assigns (quadrantCell C rwC q) (combinedEntry c m5 m2 t1) {e | e.2 ∈ before q i 0} array₀ array) :
    ∃ array', combineRow M5 M2 T1sMULT q (bytesBetween rwC q) (combinationAt C rwC q i 0 array) i =
        some (combinationAt C rwC q (i + 1) 0 array') ∧
      Assigns (quadrantCell C rwC q) (combinedEntry c m5 m2 t1) {e | e.2 ∈ before q (i + 1) 0} array₀ array' := by
  obtain ⟨blocks, rfl⟩ := four
  let Done (h : ℕ) (s : Combination R) : Prop := ∃ array, s = combinationAt C rwC (4 * blocks) i (4 * h) array ∧
    Assigns (quadrantCell C rwC (4 * blocks)) (combinedEntry c m5 m2 t1) {e | e.2 ∈ before (4 * blocks) i (4 * h)}
      array₀ array
  have loop : ∃ s, forLoop 0 blocks (combineBlock M5 M2 T1sMULT) (combinationAt C rwC (4 * blocks) i 0 array) =
      some s ∧ Done blocks s := by
    apply forLoop_invariant Done (Nat.zero_le _) ⟨array, rfl, assigns⟩
    rintro h _ _ bound ⟨array, rfl, assigns⟩
    obtain ⟨array', run, assigns'⟩ := combineBlock_spec products fits row (by omega) h assigns
    exact ⟨_, run, array', rfl, assigns'⟩
  obtain ⟨_, run, array', rfl, assigns'⟩ := loop
  have count : (4 * blocks + 3) / 4 = blocks := by omega
  have within : 4 * blocks ≤ rwC := by omega
  have next : ∀ p, p + i * rwC + 4 * blocks + (rwC - 4 * blocks) = p + (i + 1) * rwC + 0 := by
    intro p
    rw [Nat.add_assoc, Nat.add_sub_cancel' within, Nat.add_one_mul, Nat.add_assoc, Nat.add_zero]
  refine ⟨array', ?_, ?_⟩
  · rw [combineRow, count, run]
    simp only [combinationAt, Option.bind_eq_bind, Option.bind_some, advance_increment _ within small, next,
      Nat.add_one_mul i, Nat.add_zero]
  · rwa [before_row]

theorem combine_spec (products : Products array₀ C rwC q c M5 M2 T1sMULT m5 m2 t1) (four : 4 ∣ q)
    (fits : q + q ≤ rwC) (small : rwC < 2 ^ 29) :
    ∃ s, forLoop 0 q (combineRow M5 M2 T1sMULT q (bytesBetween rwC q))
        ⟨array₀, 0, 0, 0, corner C rwC q false false, corner C rwC q false true, corner C rwC q true false,
          corner C rwC q true true⟩ = some s ∧
      Changes (window C rwC (q + q) (q + q)) array₀ s.array ∧
      ∀ lower right, Holds s.array (corner C rwC q lower right) rwC q q
        fun i j => combinedEntry c m5 m2 t1 ((lower, right), (i, j)) := by
  let Done (i : ℕ) (s : Combination R) : Prop := ∃ array, s = combinationAt C rwC q i 0 array ∧
    Assigns (quadrantCell C rwC q) (combinedEntry c m5 m2 t1) {e | e.2 ∈ before q i 0} array₀ array
  have start : Done 0 ⟨array₀, 0, 0, 0, corner C rwC q false false, corner C rwC q false true,
      corner C rwC q true false, corner C rwC q true true⟩ := by
    refine ⟨array₀, by simp [combinationAt], ?_⟩
    rw [before_zero]
    exact .empty array₀
  have step : ∀ i s, 0 ≤ i → i < q → Done i s →
      ∃ s', combineRow M5 M2 T1sMULT q (bytesBetween rwC q) s i = some s' ∧ Done (i + 1) s' := by
    rintro i _ _ row ⟨array, rfl, assigns⟩
    obtain ⟨array', run, assigns'⟩ := combineRow_spec products four fits small row assigns
    exact ⟨_, run, array', rfl, assigns'⟩
  obtain ⟨_, run, array', rfl, assigns⟩ := forLoop_invariant Done (Nat.zero_le q) start step
  rw [before_all] at assigns
  refine ⟨_, run, assigns.changes.mono (quadrantCell_window C rwC q), fun lower right i j row column => ?_⟩
  have assigned := assigns.assigned ((lower, right), (i, j)) ⟨row, column⟩
  have inside : array'.inside (corner C rwC q lower right + i * rwC + j) = true := by
    rw [assigns.changes.inside, products.room lower right _ (mem_window row column)]
  rw [combinationAt, read_eq inside, ← assigned]
  rfl

end Loops

end CilkArtifact.Strassen
