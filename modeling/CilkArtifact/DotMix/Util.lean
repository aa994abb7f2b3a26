import Mathlib.Data.BitVec
import Mathlib.Data.ZMod.Basic
import Mathlib.NumberTheory.LucasPrimality
import Mathlib.RingTheory.Nilpotent.Basic
import Mathlib.Tactic.LinearCombination
import Mathlib.Tactic.NormNum.Prime
import Mathlib.Tactic.ReduceModChar
import Mathlib.Tactic.Ring

/-! The arithmetic kernel of the DotMix generators (`dotmix_util.h`). Every
value is a 64-bit unsigned machine word; sums and products wrap, as they do in
the source. Claims about residues modulo the prime are stated on `toNat`. -/
namespace CilkArtifact.DotMix

/-- `uint64_t`. -/
abbrev Word := BitVec 64

/-- `(uint64_t)(-59)`, the largest prime below 2^64. -/
def PRIME : Word := -59#64

def TWO_POW64_MOD_P : Word := 59#64

def LOW32_MASK : Word := (-1#64) >>> 32

/-- The prime as a natural number. -/
def prime : ℕ := 18446744073709551557

@[simp] theorem PRIME_toNat : PRIME.toNat = prime := by decide

theorem prime_lt : prime < 2 ^ 64 := by decide

def swapHalves (x : Word) : Word := (x >>> 32) ||| (x <<< 32)

/-- One round of the RC6 mixing function. -/
def mixRound (x : Word) : Word := swapHalves (x * (2 * x + 1))

/-- `mix<NUM_MIX_ITER>`. -/
def mix : ℕ → Word → Word
  | 0, x => x
  | iterations + 1, x => mix iterations (mixRound x)

/-- `mix_mod_p<NUM_MIX_ITER>`; the mask `-(x >= PRIME)` is all ones or zero. -/
def mixModP (iterations : ℕ) (x : Word) : Word :=
  let x := mix iterations x
  x - (PRIME &&& -(if PRIME ≤ x then 1#64 else 0#64))

def sumModP (a b : Word) : Word :=
  let z := a + b
  if z < a ∨ PRIME ≤ z then z - PRIME else z

/-- The array `tmp_result[3]` of partial sums. -/
structure TmpResult where
  r0 : Word
  r1 : Word
  r2 : Word
  deriving DecidableEq, Repr

def TmpResult.zero : TmpResult := ⟨0, 0, 0⟩

def dotprodUpdateModP (a x : Word) (result : TmpResult) : TmpResult :=
  let ah := a >>> 32
  let al := a &&& LOW32_MASK
  let xh := (x >>> 32) &&& LOW32_MASK
  let xl := x &&& LOW32_MASK
  let r0 := sumModP result.r0 (ah * xh)
  let r1 := sumModP result.r1 (ah * xl)
  let r1 := sumModP r1 (al * xh)
  let r2 := sumModP result.r2 (al * xl)
  ⟨r0, r1, r2⟩

def finalizeDotprodModP (res : Word) (tmp : TmpResult) : Word :=
  let y0 := tmp.r1 &&& LOW32_MASK
  let y1 := tmp.r1 >>> 32
  let x0 := tmp.r0 &&& LOW32_MASK
  let x1 := tmp.r0 >>> 32
  let alpha := x1 * TWO_POW64_MOD_P
  let alpha0 := alpha &&& LOW32_MASK
  let alpha1 := alpha >>> 32
  let r1 := sumModP tmp.r2 (y0 <<< 32)
  let r2 := sumModP (y1 * TWO_POW64_MOD_P) (x0 * TWO_POW64_MOD_P)
  let r3 := sumModP (alpha0 <<< 32) (alpha1 * TWO_POW64_MOD_P)
  res + sumModP r1 (sumModP r2 r3)

/-! ### The mixing permutation -/

theorem swapHalves_involutive : Function.Involutive swapHalves := by
  intro x
  apply BitVec.eq_of_getLsbD_eq
  intro i hi
  have outside : x.getLsbD (32 + (32 + i)) = false := BitVec.getLsbD_of_ge _ _ (by omega)
  simp only [swapHalves, BitVec.getLsbD_or, BitVec.getLsbD_ushiftRight, BitVec.getLsbD_shiftLeft,
    outside]
  by_cases h : i < 32
  · simp [h, show 32 + i < 64 by omega]
  · simp [h, hi, show i - 32 < 32 by omega, show 32 + (i - 32) = i by omega,
      show ¬ 32 + i < 64 by omega]

theorem odd_isUnit (x : Word) : IsUnit (2 * x + 1) := by
  have nilpotent : IsNilpotent (2 * x) := by
    refine ⟨64, ?_⟩
    rw [mul_pow, show (2 : Word) ^ 64 = 0 by decide +kernel, zero_mul]
  exact nilpotent.isUnit_add_one

theorem mixRound_injective : Function.Injective mixRound := by
  intro x y equal
  have product := swapHalves_involutive.injective equal
  have factored : (x - y) * (2 * (x + y) + 1) = 0 := by linear_combination product
  exact sub_eq_zero.mp ((odd_isUnit (x + y)).mul_left_eq_zero.mp factored)

theorem mix_injective (iterations : ℕ) : Function.Injective (mix iterations) := by
  induction iterations with
  | zero => exact fun _ _ equal => equal
  | succ iterations ih => exact fun _ _ equal => mixRound_injective (ih equal)

/-! ### Residues modulo the prime -/

theorem largest_factor_prime : Nat.Prime 5594472617641 := by
  apply lucas_primality _ (13 : ZMod 5594472617641) (by reduce_mod_char)
  intro q hq divides
  have factored : (5594472617641 - 1 : ℕ) = 2 ^ 3 * 3 * 5 * 1427 * 2131 * 15331 := by norm_num
  rw [factored] at divides
  simp only [hq.dvd_mul, Nat.prime_dvd_prime_iff_eq hq, Nat.prime_three, Nat.prime_five,
    show Nat.Prime 1427 by norm_num, show Nat.Prime 2131 by norm_num,
    show Nat.Prime 15331 by norm_num] at divides
  rcases divides with ((((h | rfl) | rfl) | rfl) | rfl) | rfl
  · obtain rfl := (Nat.prime_dvd_prime_iff_eq hq Nat.prime_two).mp (hq.dvd_of_dvd_pow h)
    norm_num; reduce_mod_char; decide
  all_goals norm_num; reduce_mod_char; decide

/-- A Pratt certificate for the modulus, with witness 2. -/
theorem prime_prime : Nat.Prime prime := by
  unfold prime
  apply lucas_primality _ (2 : ZMod 18446744073709551557) (by reduce_mod_char)
  intro q hq divides
  have factored : (18446744073709551557 - 1 : ℕ) = 2 ^ 2 * 11 * 137 * 547 * 5594472617641 := by
    norm_num
  rw [factored] at divides
  simp only [hq.dvd_mul, Nat.prime_dvd_prime_iff_eq hq, show Nat.Prime 11 by norm_num,
    show Nat.Prime 137 by norm_num, show Nat.Prime 547 by norm_num, largest_factor_prime] at divides
  rcases divides with (((h | rfl) | rfl) | rfl) | rfl
  · obtain rfl := (Nat.prime_dvd_prime_iff_eq hq Nat.prime_two).mp (hq.dvd_of_dvd_pow h)
    norm_num; reduce_mod_char; decide
  all_goals norm_num; reduce_mod_char; decide

instance : Fact (Nat.Prime prime) := ⟨prime_prime⟩

theorem low_toNat (a : Word) : (a &&& LOW32_MASK).toNat = a.toNat % 2 ^ 32 := by
  rw [BitVec.toNat_and, show LOW32_MASK.toNat = 2 ^ 32 - 1 by decide,
    Nat.and_two_pow_sub_one_eq_mod]

theorem high_toNat (a : Word) : (a >>> 32).toNat = a.toNat / 2 ^ 32 := by
  rw [BitVec.toNat_ushiftRight, Nat.shiftRight_eq_div_pow]

theorem halves_lt (w : Word) : (w >>> 32).toNat < 2 ^ 32 ∧ (w &&& LOW32_MASK).toNat < 2 ^ 32 := by
  rw [high_toNat, low_toNat]
  have := w.isLt
  omega

theorem sumModP_toNat {a b : Word} (ha : a.toNat < prime) (hb : b.toNat < prime) :
    (sumModP a b).toNat = (a.toNat + b.toNat) % prime := by
  simp only [sumModP, BitVec.lt_def, BitVec.le_def, PRIME_toNat]
  unfold prime at *
  have modulus : PRIME.toNat = 18446744073709551557 := by decide
  split
  · rw [BitVec.toNat_sub, BitVec.toNat_add, modulus]
    rw [BitVec.toNat_add] at *
    omega
  · rw [BitVec.toNat_add] at *
    omega

theorem sumModP_lt {a b : Word} (ha : a.toNat < prime) (hb : b.toNat < prime) :
    (sumModP a b).toNat < prime := by
  rw [sumModP_toNat ha hb]
  exact Nat.mod_lt _ (by decide)

theorem sumModP_cast {a b : Word} (ha : a.toNat < prime) (hb : b.toNat < prime) :
    ((sumModP a b).toNat : ZMod prime) = a.toNat + b.toNat := by
  rw [sumModP_toNat ha hb, ZMod.natCast_mod, Nat.cast_add]

/-- A product of two half words fits in a word and stays below the prime. -/
theorem half_product {a b : Word} (ha : a.toNat < 2 ^ 32) (hb : b.toNat < 2 ^ 32) :
    (a * b).toNat = a.toNat * b.toNat ∧ (a * b).toNat < prime := by
  have bound : a.toNat * b.toNat ≤ (2 ^ 32 - 1) * (2 ^ 32 - 1) :=
    Nat.mul_le_mul (by omega) (by omega)
  have exact : (a * b).toNat = a.toNat * b.toNat := by
    rw [BitVec.toNat_mul, Nat.mod_eq_of_lt]
    omega
  refine ⟨exact, ?_⟩
  rw [exact]
  unfold prime
  omega

/-- The representation invariant of the three partial sums. -/
structure TmpResult.Reduced (tmp : TmpResult) : Prop where
  r0 : tmp.r0.toNat < prime
  r1 : tmp.r1.toNat < prime
  r2 : tmp.r2.toNat < prime

/-- The residue the three partial sums stand for. -/
def TmpResult.residue (tmp : TmpResult) : ZMod prime :=
  tmp.r0.toNat * 2 ^ 64 + tmp.r1.toNat * 2 ^ 32 + tmp.r2.toNat

theorem zero_reduced : TmpResult.zero.Reduced := ⟨by decide, by decide, by decide⟩

theorem zero_residue : TmpResult.zero.residue = 0 := by simp [TmpResult.residue, TmpResult.zero]

theorem half_split (n : ℕ) :
    (n : ZMod prime) = (n / 2 ^ 32 : ℕ) * 2 ^ 32 + (n % 2 ^ 32 : ℕ) := by
  exact_mod_cast congrArg (Nat.cast (R := ZMod prime)) ((Nat.div_add_mod' n (2 ^ 32)).symm)

/-- Every partial product is below the prime, so each of the four sums meets
the precondition of `sumModP` and the residue grows by exactly `a * x`. -/
theorem dotprodUpdateModP_spec (a x : Word) {tmp : TmpResult} (reduced : tmp.Reduced) :
    (dotprodUpdateModP a x tmp).Reduced ∧
      (dotprodUpdateModP a x tmp).residue = tmp.residue + a.toNat * x.toNat := by
  have hal := low_toNat a
  have hah := high_toNat a
  have hxl := low_toNat x
  have hxh : ((x >>> 32) &&& LOW32_MASK).toNat = x.toNat / 2 ^ 32 := by
    rw [low_toNat, high_toNat]
    have := x.isLt
    omega
  obtain ⟨bah, bal⟩ := halves_lt a
  have bxl := (halves_lt x).2
  have bxh := (halves_lt (x >>> 32)).2
  obtain ⟨ehh, lhh⟩ := half_product bah bxh
  obtain ⟨ehl, lhl⟩ := half_product bah bxl
  obtain ⟨elh, llh⟩ := half_product bal bxh
  obtain ⟨ell, lll⟩ := half_product bal bxl
  have mid := sumModP_lt reduced.r1 lhl
  refine ⟨⟨sumModP_lt reduced.r0 lhh, sumModP_lt mid llh, sumModP_lt reduced.r2 lll⟩, ?_⟩
  simp only [TmpResult.residue, dotprodUpdateModP]
  rw [sumModP_cast reduced.r0 lhh, sumModP_cast mid llh, sumModP_cast reduced.r1 lhl,
    sumModP_cast reduced.r2 lll, ehh, ehl, elh, ell, hal, hah, hxl, hxh, half_split a.toNat, half_split x.toNat]
  push_cast
  ring

theorem shifted_low (y : Word) :
    ((y &&& LOW32_MASK) <<< 32).toNat = y.toNat % 2 ^ 32 * 2 ^ 32 ∧
      ((y &&& LOW32_MASK) <<< 32).toNat < prime := by
  have exact : ((y &&& LOW32_MASK) <<< 32).toNat = y.toNat % 2 ^ 32 * 2 ^ 32 := by
    rw [BitVec.toNat_shiftLeft, low_toNat, Nat.shiftLeft_eq, Nat.mod_eq_of_lt]
    omega
  refine ⟨exact, ?_⟩
  rw [exact]
  unfold prime
  omega

theorem two_pow_64 : (2 : ZMod prime) ^ 64 = 59 := by
  unfold prime
  reduce_mod_char

/-- The identity behind the recombination: carries above 2^64 re-enter as
multiples of 59, once for the middle sum and twice for the high one. -/
theorem recombine (r0 r1 r2 : ℕ) :
    ((r2 : ZMod prime) + (r1 % 2 ^ 32 * 2 ^ 32 : ℕ)) +
        (((r1 / 2 ^ 32 * 59 : ℕ) + (r0 % 2 ^ 32 * 59 : ℕ)) +
          (((r0 / 2 ^ 32 * 59) % 2 ^ 32 * 2 ^ 32 : ℕ) + ((r0 / 2 ^ 32 * 59) / 2 ^ 32 * 59 : ℕ))) =
      r0 * 2 ^ 64 + r1 * 2 ^ 32 + r2 := by
  have fold : (2 : ZMod prime) ^ 32 * 2 ^ 32 = 59 := by rw [← pow_add, two_pow_64]
  have high := half_split (r0 / 2 ^ 32 * 59)
  rw [two_pow_64, half_split r0, half_split r1]
  simp only [Nat.cast_mul, Nat.cast_pow, Nat.cast_ofNat] at high ⊢
  linear_combination (-(r1 / 2 ^ 32 : ℕ) : ZMod prime) * fold - (2 : ZMod prime) ^ 32 * high -
    ((r0 / 2 ^ 32 * 59 / 2 ^ 32 : ℕ) : ZMod prime) * fold

/-- The recombination of the partial sums is exact: it adds the canonical
representative of the residue to `res`, and only that addition wraps. -/
theorem finalizeDotprodModP_toNat (res : Word) {tmp : TmpResult} (reduced : tmp.Reduced) :
    (finalizeDotprodModP res tmp).toNat = (res.toNat + tmp.residue.val) % 2 ^ 64 := by
  simp only [finalizeDotprodModP]
  generalize halpha : (tmp.r0 >>> 32) * TWO_POW64_MOD_P = alpha
  have h59 : TWO_POW64_MOD_P.toNat = 59 := by decide
  have b59 : TWO_POW64_MOD_P.toNat < 2 ^ 32 := by decide
  obtain ⟨ey0, ly0⟩ := shifted_low tmp.r1
  obtain ⟨ea0, la0⟩ := shifted_low alpha
  obtain ⟨ey1, ly1⟩ := half_product (halves_lt tmp.r1).1 b59
  obtain ⟨ex0, lx0⟩ := half_product (halves_lt tmp.r0).2 b59
  obtain ⟨ea1, la1⟩ := half_product (halves_lt alpha).1 b59
  have ealpha : alpha.toNat = tmp.r0.toNat / 2 ^ 32 * 59 := by
    rw [← halpha, (half_product (halves_lt tmp.r0).1 b59).1, h59, high_toNat]
  have l1 := sumModP_lt reduced.r2 ly0
  have l2 := sumModP_lt ly1 lx0
  have l3 := sumModP_lt la0 la1
  have l23 := sumModP_lt l2 l3
  have residue := sumModP_cast l1 l23
  rw [sumModP_cast reduced.r2 ly0, sumModP_cast l2 l3, sumModP_cast ly1 lx0,
    sumModP_cast la0 la1, ey0, ea0, ey1, ex0, ea1, h59, high_toNat, high_toNat, low_toNat, ealpha,
    recombine] at residue
  rw [BitVec.toNat_add, TmpResult.residue, ← residue, ZMod.val_cast_of_lt (sumModP_lt l1 l23)]

end CilkArtifact.DotMix
