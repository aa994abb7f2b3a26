import CilkArtifact.Library.Buffer
import Mathlib.Algebra.QuadraticAlgebra.Defs

/-! The fast Fourier transform of `fft.c`. The input and the output of a call start at the same index
`off` of two arrays, and the recursion exchanges the arrays. A call fails when it reads a cell that is
outside of its array or was never written, writes outside of an array, or overflows an `int`. -/
/-- An array of the transform. A function that calls itself is applied to it with `|>.`. -/
abbrev CilkArtifact.Fft (α : Type) := Buffer ℕ α

namespace CilkArtifact.Fft
open Buffer

section Arithmetic
variable {R : Type} [CommRing R]

variable (R) in
/-- Complex numbers with parts in `R`, which stands for `REAL`. -/
abbrev COMPLEX : Type := QuadraticAlgebra R (-1) 0

/-- The value of an expression of type `int`. -/
def int (v : ℕ) : Option ℕ := if v < 2 ^ 31 then some v else none

/-! ### Roots of unity -/

variable (R) in
/-- `cos n k` and `sin n k` are the values of the functions at `2π / n * k`. -/
structure Trig where
  cos : ℕ → ℕ → R
  sin : ℕ → ℕ → R

def setCoefficients (trig : Trig R) (n : ℕ) (W : Buffer ℕ (COMPLEX R)) (k : ℕ) : Option (Buffer ℕ (COMPLEX R)) := do
  let W ← W.write k ⟨trig.cos n k, -trig.sin n k⟩
  W.write (n - k) ⟨trig.cos n k, trig.sin n k⟩

def computeWCoefficients (trig : Trig R) (n a b : ℕ) (W : Buffer ℕ (COMPLEX R)) : Option (Buffer ℕ (COMPLEX R)) :=
  if b - a < 128 then forLoop a (b + 1) (setCoefficients trig n) W
  else do
    let ab := (a + b) / 2
    let W ← computeWCoefficients trig n a ab W
    computeWCoefficients trig n (ab + 1) b W
termination_by b - a

/-! ### Factors -/

/-- `for (r = …; r < n; r += 2) if (n % r == 0) return r; return n;` -/
def oddFactor (n r : ℕ) : ℕ :=
  if r < n then
    if n % r = 0 then r else oddFactor n (r + 2)
  else n
termination_by n - r

def factor (n : ℕ) : ℕ :=
  if n < 2 then 1
  else if n = 64 ∨ n = 128 ∨ n = 256 ∨ n = 1024 ∨ n = 2048 ∨ n = 4096 then 8
  else if n &&& 15 = 0 then 16
  else if n &&& 7 = 0 then 8
  else if n &&& 3 = 0 then 4
  else if n &&& 1 = 0 then 2
  else oddFactor n 3

/-- The `do` loop of `cilk_fft`, which stores the factors of `l` from index `p` on. -/
def findFactors (factors : Fft ℕ) (p l : ℕ) : Option (Fft ℕ) := do
  let r := factor l
  let factors : Fft ℕ ← factors.write p r
  if 1 < l / r then factors |>.findFactors (p + 1) (l / r) else some factors
partial_fixpoint

/-! ### Generic passes -/

/-- `*jp = *ip` -/
def copy (x y : Buffer ℕ (COMPLEX R)) (ip jp : ℕ) : Option (Buffer ℕ (COMPLEX R)) := do
  let v ← x.read ip
  y.write jp v

structure Cursor (R : Type) [CommRing R] where
  y : Buffer ℕ (COMPLEX R)
  j : ℕ
  jp : ℕ
  ip : ℕ

/-- `for (; j < r4; j += 4)` -/
def copyFours (x : Fft (COMPLEX R)) (m r4 : ℕ) (s : Cursor R) : Option (Cursor R) :=
  if s.j < r4 then do
    let y ← copy x s.y s.ip s.jp
    let y ← copy x y (s.ip + 1) (s.jp + m)
    let y ← copy x y (s.ip + 2) (s.jp + 2 * m)
    let y ← copy x y (s.ip + 3) (s.jp + 3 * m)
    x |>.copyFours m r4 ⟨y, s.j + 4, s.jp + 4 * m, s.ip + 4⟩
  else some s
partial_fixpoint

/-- `for (; j < r; ++j)` -/
def copyRest (x : Fft (COMPLEX R)) (m r : ℕ) (s : Cursor R) : Option (Cursor R) :=
  if s.j < r then do
    let y ← copy x s.y s.ip s.jp
    x |>.copyRest m r ⟨y, s.j + 1, s.jp + m, s.ip + 1⟩
  else some s
partial_fixpoint

/-- Iteration `i`, from the output and the input pointer. Here `r / 4 * 4` is `r & ~3`. -/
def unshuffleStep (x : Buffer ℕ (COMPLEX R)) (off r m : ℕ) (s : Buffer ℕ (COMPLEX R) × ℕ) (i : ℕ) :
    Option (Buffer ℕ (COMPLEX R) × ℕ) := do
  let fours ← copyFours x m (r / 4 * 4) ⟨s.1, 0, off + i, s.2⟩
  let rest ← copyRest x m r fours
  some (rest.y, rest.ip)

def unshuffle (a b : ℕ) (x y : Buffer ℕ (COMPLEX R)) (off r m : ℕ) : Option (Buffer ℕ (COMPLEX R)) :=
  if b - a < 16 then do
    let last ← forLoop a b (unshuffleStep x off r m) (y, off + a * r)
    some last.1
  else do
    let ab := (a + b) / 2
    let y ← unshuffle a ab x y off r m
    unshuffle ab b x y off r m
termination_by b - a

structure Sum (R : Type) [CommRing R] where
  r0 : R
  i0 : R
  jp : ℕ
  l0 : ℕ

def addTerm (x W : Buffer ℕ (COMPLEX R)) (m nW l1 : ℕ) (s : Sum R) (_j : ℕ) : Option (Sum R) := do
  let w ← W.read s.l0
  let t ← x.read s.jp
  let l0 ← int (s.l0 + l1)
  some {
    r0 := s.r0 + (t.re * w.re - t.im * w.im)
    i0 := s.i0 + (t.re * w.im + t.im * w.re)
    jp := s.jp + m
    l0 := if nW < l0 then l0 - nW else l0 }

def twiddleStep (x W : Buffer ℕ (COMPLEX R)) (off r m nW nWdnti nWdntm : ℕ) (s : Buffer ℕ (COMPLEX R) × ℕ) (k : ℕ) :
    Option (Buffer ℕ (COMPLEX R) × ℕ) := do
  let l1 ← int (nWdnti + nWdntm * k)
  let sum ← forLoop 0 r (addTerm x W m nW l1) ⟨0, 0, off, 0⟩
  let y ← s.1.write s.2 ⟨sum.r0, sum.i0⟩
  some (y, s.2 + m)

def fftTwiddleGen1 (x y : Buffer ℕ (COMPLEX R)) (off : ℕ) (W : Buffer ℕ (COMPLEX R)) (r m nW nWdnti nWdntm : ℕ) :
    Option (Buffer ℕ (COMPLEX R)) := do
  let last ← forLoop 0 r (twiddleStep x W off r m nW nWdnti nWdntm) (y, off)
  some last.1

def fftTwiddleGen (i i1 : ℕ) (x : Fft (COMPLEX R)) (y : Buffer ℕ (COMPLEX R)) (off : ℕ) (W : Buffer ℕ (COMPLEX R))
    (nW nWdn r m : ℕ) : Option (Buffer ℕ (COMPLEX R)) :=
  if i + 1 = i1 then do
    let nWdnti ← int (nWdn * i)
    let nWdntm ← int (nWdn * m)
    fftTwiddleGen1 x y (off + i) W r m nW nWdnti nWdntm
  else do
    let i2 := (i + i1) / 2
    let y ← x |>.fftTwiddleGen i i2 y off W nW nWdn r m
    x |>.fftTwiddleGen i2 i1 y off W nW nWdn r m
partial_fixpoint

/-! ### The transform -/

variable (R) in
/-- The machine-generated code, by radix. -/
structure Codelets where
  base : ℕ → Buffer ℕ (COMPLEX R) → Buffer ℕ (COMPLEX R) → ℕ → Option (Buffer ℕ (COMPLEX R))
  twiddle : ℕ → ℕ → ℕ → Buffer ℕ (COMPLEX R) → Buffer ℕ (COMPLEX R) → ℕ → Buffer ℕ (COMPLEX R) →
    ℕ → ℕ → ℕ → Option (Buffer ℕ (COMPLEX R))
  unshuffle : ℕ → ℕ → ℕ → Buffer ℕ (COMPLEX R) → Buffer ℕ (COMPLEX R) → ℕ → ℕ → Option (Buffer ℕ (COMPLEX R))

variable (codelets : Codelets R)

def unshuffleRadix (r m : ℕ) (x y : Buffer ℕ (COMPLEX R)) (off : ℕ) : Option (Buffer ℕ (COMPLEX R)) :=
  if r = 32 then codelets.unshuffle 32 0 m x y off m
  else if r = 16 then codelets.unshuffle 16 0 m x y off m
  else if r = 8 then codelets.unshuffle 8 0 m x y off m
  else if r = 4 then codelets.unshuffle 4 0 m x y off m
  else if r = 2 then codelets.unshuffle 2 0 m x y off m
  else unshuffle 0 m x y off r m

def twiddleRadix (n r m : ℕ) (x y : Buffer ℕ (COMPLEX R)) (off : ℕ) (W : Buffer ℕ (COMPLEX R)) (nW : ℕ) :
    Option (Buffer ℕ (COMPLEX R)) :=
  if r = 2 then codelets.twiddle 2 0 m x y off W nW (nW / n) m
  else if r = 4 then codelets.twiddle 4 0 m x y off W nW (nW / n) m
  else if r = 8 then codelets.twiddle 8 0 m x y off W nW (nW / n) m
  else if r = 16 then codelets.twiddle 16 0 m x y off W nW (nW / n) m
  else if r = 32 then codelets.twiddle 32 0 m x y off W nW (nW / n) m
  else fftTwiddleGen 0 m x y off W nW (nW / n) r m

def baseCase (n : ℕ) (x y : Buffer ℕ (COMPLEX R)) (off : ℕ) :
    Option (Buffer ℕ (COMPLEX R) × Buffer ℕ (COMPLEX R)) := do
  let y ← codelets.base n x y off
  some (x, y)

mutual

/-- From the input `x` and the output `y`, both as they are after the call; `d` is the index of the first
factor of `n`. -/
def fftAux (factors : Fft ℕ) (W : Buffer ℕ (COMPLEX R)) (nW n : ℕ) (x y : Buffer ℕ (COMPLEX R)) (off d : ℕ) :
    Option (Buffer ℕ (COMPLEX R) × Buffer ℕ (COMPLEX R)) :=
  if n = 32 then baseCase codelets 32 x y off
  else if n = 16 then baseCase codelets 16 x y off
  else if n = 8 then baseCase codelets 8 x y off
  else if n = 4 then baseCase codelets 4 x y off
  else if n = 2 then baseCase codelets 2 x y off
  else do
    let r ← factors.read d
    let m := n / r
    let parts ← factors |>.fftSplit W nW n r m x y off d
    let y ← twiddleRadix codelets n r m parts.1 parts.2 off W nW
    some (parts.1, y)
partial_fixpoint

def fftSplit (factors : Fft ℕ) (W : Buffer ℕ (COMPLEX R)) (nW n r m : ℕ) (x y : Buffer ℕ (COMPLEX R))
    (off d : ℕ) : Option (Buffer ℕ (COMPLEX R) × Buffer ℕ (COMPLEX R)) :=
  if r < n then do
    let y ← unshuffleRadix codelets r m x y off
    factors |>.fftParts W nW n m x y off d 0
  else some (x, y)
partial_fixpoint

/-- `for (k = …; k < n; k += m)` -/
def fftParts (factors : Fft ℕ) (W : Buffer ℕ (COMPLEX R)) (nW n m : ℕ) (x y : Buffer ℕ (COMPLEX R))
    (off d k : ℕ) : Option (Buffer ℕ (COMPLEX R) × Buffer ℕ (COMPLEX R)) :=
  if k < n then do
    let part ← factors |>.fftAux W nW m y x (off + k) (d + 1)
    factors |>.fftParts W nW n m part.2 part.1 off d (k + m)
  else some (x, y)
partial_fixpoint

end

/-- The input and the output after the call. -/
def cilkFft (trig : Trig R) (n : ℕ) (x y : Buffer ℕ (COMPLEX R)) :
    Option (Buffer ℕ (COMPLEX R) × Buffer ℕ (COMPLEX R)) := do
  let W ← computeWCoefficients trig n 0 (n / 2) (raw (n + 1))
  let factors ← findFactors (raw 40) 0 n
  fftAux codelets factors W n n x y 0 0

end Arithmetic

end CilkArtifact.Fft
