import CilkArtifact.Strassen.Multiply

/-! `OptimizedStrassenMultiply` as it runs on one processor: spawned calls return before their caller goes on.
The temporary matrices are separate arrays, large enough and not written before. -/
namespace CilkArtifact.Strassen
open Buffer
variable {R : Type}

inductive Temporary where
  | S1 | S2 | S3 | S4 | S5 | S6 | S7 | S8
  deriving DecidableEq

/-- `EA(Matrix)` and `EB(Matrix)` -/
def Operand.element (array : Buffer ℕ R) (Matrix : Operand R) (MatrixOffset : ℕ) : Option R :=
  (Matrix.array array).read (advance Matrix.index MatrixOffset)

/-- The assignment of a value to `E(S1)`, …, or `E(S8)`. -/
def assign (TempMatrixOffset : ℕ) (S : Temporary → Buffer ℕ R) (assignment : Temporary × R) :
    Option (Temporary → Buffer ℕ R) := do
  let matrix ← (S assignment.1).write (advance 0 TempMatrixOffset) assignment.2
  some (Function.update S assignment.1 matrix)

/-- The state of the loops that compute `S1`, …, `S8`. -/
structure Preparation (R : Type) where
  S : Temporary → Buffer ℕ R
  TempMatrixOffset : ℕ
  MatrixOffsetA : ℕ
  MatrixOffsetB : ℕ

/-- The state of the loops that add up the products. -/
structure Combination (R : Type) where
  array : Buffer ℕ R
  M5 : ℕ
  M2 : ℕ
  T1sMULT : ℕ
  C11 : ℕ
  C12 : ℕ
  C21 : ℕ
  C22 : ℕ

section Strassen
variable [Ring R]

def prepareElement (array : Buffer ℕ R) (A11 A12 A21 A22 B11 B12 B21 B22 : Operand R) (s : Preparation R)
    (_Column : ℕ) : Option (Preparation R) := do
  let a11 ← A11.element array s.MatrixOffsetA
  let a12 ← A12.element array s.MatrixOffsetA
  let a21 ← A21.element array s.MatrixOffsetA
  let a22 ← A22.element array s.MatrixOffsetA
  let b11 ← B11.element array s.MatrixOffsetB
  let b12 ← B12.element array s.MatrixOffsetB
  let b21 ← B21.element array s.MatrixOffsetB
  let b22 ← B22.element array s.MatrixOffsetB
  let s1 := a21 + a22
  let s2 := s1 - a11
  let s4 := a12 - s2
  let s5 := b12 - b11
  let s6 := b22 - s5
  let s8 := s6 - b21
  let s3 := a11 - a21
  let s7 := b22 - b12
  let S ← List.foldlM (assign s.TempMatrixOffset) s.S
    [(.S1, s1), (.S2, s2), (.S4, s4), (.S5, s5), (.S6, s6), (.S8, s8), (.S3, s3), (.S7, s7)]
  some ⟨S, s.TempMatrixOffset + 8, s.MatrixOffsetA + 8, s.MatrixOffsetB + 8⟩

def prepareRow (array : Buffer ℕ R) (A11 A12 A21 A22 B11 B12 B21 B22 : Operand R)
    (QuadrantSize RowIncrementA RowIncrementB : ℕ) (s : Preparation R) (_Row : ℕ) : Option (Preparation R) := do
  let s ← forLoop 0 QuadrantSize (prepareElement array A11 A12 A21 A22 B11 B12 B21 B22) s
  some { s with
    MatrixOffsetA := s.MatrixOffsetA + RowIncrementA
    MatrixOffsetB := s.MatrixOffsetB + RowIncrementB }

/-- `Column = 4 * h` -/
def combineBlock (M5 M2 T1sMULT : Buffer ℕ R) (s : Combination R) (_h : ℕ) : Option (Combination R) := do
  let LocalM5 ← M5.readRange s.M5 4
  let LocalM2 ← M2.readRange s.M2 4
  let T1sMULT ← T1sMULT.readRange s.T1sMULT 4
  let T1 := List.zipWith (· + ·) T1sMULT LocalM2
  let T2sMULT ← s.array.readRange s.C22 4
  let T2 := List.zipWith (· + ·) T2sMULT T1
  let array ← s.array.onRange s.C11 4 fun C11 => some (List.zipWith (· + ·) C11 LocalM2)
  let array ← array.onRange s.C12 4 fun C12 =>
    some (List.zipWith (· + ·) C12 (List.zipWith (· + ·) LocalM5 T1))
  let array ← array.writeRange s.C22 (List.zipWith (· + ·) LocalM5 T2)
  let array ← array.onRange s.C21 4 fun C21 => some (List.zipWith (fun c t2 => -c + t2) C21 T2)
  some ⟨array, s.M5 + 4, s.M2 + 4, s.T1sMULT + 4, s.C11 + 4, s.C12 + 4, s.C21 + 4, s.C22 + 4⟩

def combineRow (M5 M2 T1sMULT : Buffer ℕ R) (QuadrantSize RowIncrementC : ℕ) (s : Combination R) (_Row : ℕ) :
    Option (Combination R) := do
  let s ← forLoop 0 ((QuadrantSize + 3) / 4) (combineBlock M5 M2 T1sMULT) s
  some { s with
    C11 := advance s.C11 RowIncrementC
    C12 := advance s.C12 RowIncrementC
    C21 := advance s.C21 RowIncrementC
    C22 := advance s.C22 RowIncrementC }

/-- The branch for large matrices; `multiply RowWidthC RowWidthA RowWidthB` multiplies quadrants. -/
def strassenStep (multiply : ℕ → ℕ → ℕ → Multiplication R) (QuadrantSize RowWidthC RowWidthA RowWidthB : ℕ)
    (array : Buffer ℕ R) (C11 : ℕ) (A11 B11 : Operand R) : Option (Buffer ℕ R) := do
  let A12 := A11.add QuadrantSize
  let B12 := B11.add QuadrantSize
  let C12 := C11 + QuadrantSize
  let A21 := A11.add (unsigned (RowWidthA * QuadrantSize))
  let B21 := B11.add (unsigned (RowWidthB * QuadrantSize))
  let C21 := C11 + unsigned (RowWidthC * QuadrantSize)
  let A22 := A21.add QuadrantSize
  let B22 := B21.add QuadrantSize
  let C22 := C21 + QuadrantSize
  let fresh : Buffer ℕ R := .raw (QuadrantSize * QuadrantSize)
  let prepared ← forLoop 0 QuadrantSize
    (prepareRow array A11 A12 A21 A22 B11 B12 B21 B22 QuadrantSize (bytesBetween RowWidthA QuadrantSize)
      (bytesBetween RowWidthB QuadrantSize)) ⟨fun _ => fresh, 0, 0, 0⟩
  let S := fun matrix => Operand.there (prepared.S matrix) 0
  let M2 ← multiply QuadrantSize RowWidthA RowWidthB fresh 0 (A11.outside array) (B11.outside array)
  let M5 ← multiply QuadrantSize QuadrantSize QuadrantSize fresh 0 (S .S1) (S .S5)
  let T1sMULT ← multiply QuadrantSize QuadrantSize QuadrantSize fresh 0 (S .S2) (S .S6)
  let array ← multiply RowWidthC QuadrantSize QuadrantSize array C22 (S .S3) (S .S7)
  let array ← multiply RowWidthC RowWidthA RowWidthB array C11 A12 B21
  let array ← multiply RowWidthC QuadrantSize RowWidthB array C12 (S .S4) B22
  let array ← multiply RowWidthC RowWidthA QuadrantSize array C21 A22 (S .S8)
  let combined ← forLoop 0 QuadrantSize (combineRow M5 M2 T1sMULT QuadrantSize (bytesBetween RowWidthC QuadrantSize))
    ⟨array, 0, 0, 0, C11, C12, C21, C22⟩
  some combined.array

def optimizedStrassenMultiply (MatrixSize RowWidthC RowWidthA RowWidthB : ℕ) : Multiplication R :=
  if MatrixSize ≤ SizeAtWhichDivideAndConquerIsMoreEfficient then
    multiplyByDivideAndConquer MatrixSize RowWidthC RowWidthA RowWidthB false
  else
    strassenStep (optimizedStrassenMultiply (MatrixSize >>> 1)) (MatrixSize >>> 1) RowWidthC RowWidthA RowWidthB
termination_by MatrixSize
decreasing_by
  rename_i large
  simp only [SizeAtWhichDivideAndConquerIsMoreEfficient, Nat.shiftRight_eq_div_pow] at *
  omega

end Strassen

end CilkArtifact.Strassen
