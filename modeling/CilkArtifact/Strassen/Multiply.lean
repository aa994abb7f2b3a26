import CilkArtifact.Library.Buffer
import Mathlib

/-! The matrix multiplications of `strassen.c` over an arbitrary ring. Indices count elements of type
`REAL`, which takes 8 bytes, and sizes of type `unsigned` have 32 bits. -/
namespace CilkArtifact.Strassen
open Buffer
variable {R : Type}

def SizeAtWhichDivideAndConquerIsMoreEfficient : ℕ := 64

def SizeAtWhichNaiveAlgorithmIsMoreEfficient : ℕ := 16

/-- The value of an expression of type `unsigned`. -/
def unsigned (v : ℕ) : ℕ := v % 2 ^ 32

/-- `(v - v') << 3` -/
def bytesBetween (v v' : ℕ) : ℕ := unsigned (unsigned (v + 2 ^ 32 - v') <<< 3)

/-- `(REAL*) ((PTR) p + bytes)` -/
def advance (p bytes : ℕ) : ℕ := p + bytes / 8

variable (R) in
/-- A pointer that is only read: to the array that receives the product, or to another one. -/
inductive Operand where
  | here (index : ℕ)
  | there (array : Buffer ℕ R) (index : ℕ)

namespace Operand

def array (C : Buffer ℕ R) : Operand R → Buffer ℕ R
  | here _ => C
  | there x _ => x

def index : Operand R → ℕ
  | here i => i
  | there _ i => i

def add (k : ℕ) : Operand R → Operand R
  | here i => here (i + k)
  | there x i => there x (i + k)

/-- The same pointer when the product goes to a temporary matrix. -/
def outside (C : Buffer ℕ R) (A : Operand R) : Operand R := there (A.array C) A.index

end Operand

section Kernels
variable [Ring R]

/-! ### Kernels -/

/-- `Sum0, …, Sum7` with the pointers `ARowStart` and `BColumnStart`. -/
structure Sums (R : Type) where
  ARowStart : ℕ
  BColumnStart : ℕ
  sums : List R

def accumulate (sums : List R) (ARowValue : R) (entries : List R) : List R :=
  List.zipWith (fun sum entry => sum + ARowValue * entry) sums entries

/-- The arrays `A` and `B` do not change while the products are summed. -/
def nextProduct (A B : Buffer ℕ R) (RowWidthBInBytes : ℕ) (s : Sums R) (_Products : ℕ) : Option (Sums R) := do
  let ARowValue ← A.read s.ARowStart
  let BColumnStart := advance s.BColumnStart RowWidthBInBytes
  let entries ← B.readRange BColumnStart 8
  some ⟨s.ARowStart + 1, BColumnStart, accumulate s.sums ARowValue entries⟩

def addProduct (A B : Buffer ℕ R) (RowWidthBInBytes : ℕ) (s : Sums R) (_Products : ℕ) : Option (Sums R) := do
  let ARowValue ← A.read s.ARowStart
  let entries ← B.readRange s.BColumnStart 8
  some ⟨s.ARowStart + 1, advance s.BColumnStart RowWidthBInBytes, accumulate s.sums ARowValue entries⟩

structure Cursor (R : Type) where
  array : Buffer ℕ R
  C : ℕ
  ARowStart : ℕ

/-- The end of an iteration: the sums are stored and `ARowStart` returns to the start of the row. -/
def storeSums (s : Cursor R) (MatrixSize : ℕ) (last : Sums R) : Option (Cursor R) := do
  let array ← s.array.writeRange s.C last.sums
  some ⟨array, s.C + 8, last.ARowStart - unsigned (MatrixSize <<< 3) / 8⟩

/-- An iteration of `for (Horizontal = 0; Horizontal < MatrixSize; Horizontal += 8)` with
`Horizontal = 8 * h`. -/
def naiveBlock (A B : Operand R) (MatrixSize RowWidthB : ℕ) (s : Cursor R) (h : ℕ) : Option (Cursor R) := do
  let BColumnStart := B.index + 8 * h
  let FirstARowValue ← (A.array s.array).read s.ARowStart
  let entries ← (B.array s.array).readRange BColumnStart 8
  let last ← forLoop 1 MatrixSize (nextProduct (A.array s.array) (B.array s.array) (unsigned (RowWidthB <<< 3)))
    ⟨s.ARowStart + 1, BColumnStart, entries.map (FirstARowValue * ·)⟩
  storeSums s MatrixSize last

def additiveBlock (A B : Operand R) (MatrixSize RowWidthB : ℕ) (s : Cursor R) (h : ℕ) : Option (Cursor R) := do
  let BColumnStart := B.index + 8 * h
  let sums ← s.array.readRange s.C 8
  let last ← forLoop 0 MatrixSize (addProduct (A.array s.array) (B.array s.array) (unsigned (RowWidthB <<< 3)))
    ⟨s.ARowStart, BColumnStart, sums⟩
  storeSums s MatrixSize last

def kernelRow (block : Cursor R → ℕ → Option (Cursor R)) (MatrixSize RowWidthC RowWidthA : ℕ) (s : Cursor R)
    (_Vertical : ℕ) : Option (Cursor R) := do
  let s ← forLoop 0 ((MatrixSize + 7) / 8) block s
  some ⟨s.array, advance s.C (bytesBetween RowWidthC MatrixSize), advance s.ARowStart (unsigned (RowWidthA <<< 3))⟩

def kernel (block : Cursor R → ℕ → Option (Cursor R)) (array : Buffer ℕ R) (C A MatrixSize RowWidthC RowWidthA : ℕ) :
    Option (Buffer ℕ R) := do
  let last ← forLoop 0 MatrixSize (kernelRow block MatrixSize RowWidthC RowWidthA) ⟨array, C, A⟩
  some last.array

/-- All multiplications return the array of `C`, which is `array` before the call. -/
def fastNaiveMatrixMultiply (MatrixSize RowWidthC RowWidthA RowWidthB : ℕ) (array : Buffer ℕ R) (C : ℕ)
    (A B : Operand R) : Option (Buffer ℕ R) :=
  kernel (naiveBlock A B MatrixSize RowWidthB) array C A.index MatrixSize RowWidthC RowWidthA

def fastAdditiveNaiveMatrixMultiply (MatrixSize RowWidthC RowWidthA RowWidthB : ℕ) (array : Buffer ℕ R) (C : ℕ)
    (A B : Operand R) : Option (Buffer ℕ R) :=
  kernel (additiveBlock A B MatrixSize RowWidthB) array C A.index MatrixSize RowWidthC RowWidthA

/-! ### Divide and conquer -/

variable (R) in
abbrev Multiplication := Buffer ℕ R → ℕ → Operand R → Operand R → Option (Buffer ℕ R)

/-- The eight products of quadrants, in the order of the source. -/
def multiplyQuadrants (multiply : Bool → Multiplication R) (QuadrantSize RowWidthC RowWidthA RowWidthB : ℕ)
    (AdditiveMode : Bool) (array : Buffer ℕ R) (C00 : ℕ) (A00 B00 : Operand R) : Option (Buffer ℕ R) := do
  let A01 := A00.add QuadrantSize
  let A10 := A00.add (unsigned (RowWidthA * QuadrantSize))
  let A11 := A10.add QuadrantSize
  let B01 := B00.add QuadrantSize
  let B10 := B00.add (unsigned (RowWidthB * QuadrantSize))
  let B11 := B10.add QuadrantSize
  let C01 := C00 + QuadrantSize
  let C10 := C00 + unsigned (RowWidthC * QuadrantSize)
  let C11 := C10 + QuadrantSize
  let array ← multiply AdditiveMode array C00 A00 B00
  let array ← multiply AdditiveMode array C01 A00 B01
  let array ← multiply AdditiveMode array C11 A10 B01
  let array ← multiply AdditiveMode array C10 A10 B00
  let array ← multiply true array C00 A01 B10
  let array ← multiply true array C01 A01 B11
  let array ← multiply true array C11 A11 B11
  multiply true array C10 A11 B10

def naiveByMode (MatrixSize RowWidthC RowWidthA RowWidthB : ℕ) (AdditiveMode : Bool) : Multiplication R :=
  if AdditiveMode then fastAdditiveNaiveMatrixMultiply MatrixSize RowWidthC RowWidthA RowWidthB
  else fastNaiveMatrixMultiply MatrixSize RowWidthC RowWidthA RowWidthB

def multiplyByDivideAndConquer (MatrixSize RowWidthC RowWidthA RowWidthB : ℕ) (AdditiveMode : Bool) :
    Multiplication R :=
  let QuadrantSize := MatrixSize >>> 1
  if SizeAtWhichNaiveAlgorithmIsMoreEfficient < QuadrantSize then
    multiplyQuadrants (multiplyByDivideAndConquer QuadrantSize RowWidthC RowWidthA RowWidthB) QuadrantSize
      RowWidthC RowWidthA RowWidthB AdditiveMode
  else
    multiplyQuadrants (naiveByMode QuadrantSize RowWidthC RowWidthA RowWidthB) QuadrantSize
      RowWidthC RowWidthA RowWidthB AdditiveMode
termination_by MatrixSize
decreasing_by
  rename_i large
  simp only [SizeAtWhichNaiveAlgorithmIsMoreEfficient, Nat.shiftRight_eq_div_pow] at *
  omega

end Kernels

end CilkArtifact.Strassen
