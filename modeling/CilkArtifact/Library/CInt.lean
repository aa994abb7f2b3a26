import Mathlib

/-! Values of types `int` and `long` that are not negative. An overflow is a failure. -/
namespace CilkArtifact

def cint (n : ℕ) : Option ℕ := if n < 2 ^ 31 then some n else none

theorem cint_fits {n : ℕ} (fits : n < 2 ^ 31) : cint n = some n := if_pos fits

theorem cint_overflow {n : ℕ} (overflow : 2 ^ 31 ≤ n) : cint n = none := if_neg (Nat.not_lt.mpr overflow)

def clong (n : ℕ) : Option ℕ := if n < 2 ^ 63 then some n else none

theorem clong_fits {n : ℕ} (fits : n < 2 ^ 63) : clong n = some n := if_pos fits

end CilkArtifact
