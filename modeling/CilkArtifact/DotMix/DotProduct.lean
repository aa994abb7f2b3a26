import CilkArtifact.DotMix.Util
import Mathlib.Algebra.BigOperators.Group.List.Basic

/-! Whole dot products modulo the prime. The two kernels are stated once more
over an arbitrary monad for their modular sums, so that a run can check every
call of `sum_mod_p` it makes. -/
namespace CilkArtifact.DotMix

section Monadic
variable {m : Type → Type} [Monad m] (sum : Word → Word → m Word)

/-- `dotprod_update_mod_p` with `sum` for `sum_mod_p`. -/
def dotprodUpdateWith (a x : Word) (result : TmpResult) : m TmpResult := do
  let ah := a >>> 32
  let al := a &&& LOW32_MASK
  let xh := (x >>> 32) &&& LOW32_MASK
  let xl := x &&& LOW32_MASK
  let r0 ← sum result.r0 (ah * xh)
  let r1 ← sum result.r1 (ah * xl)
  let r1 ← sum r1 (al * xh)
  let r2 ← sum result.r2 (al * xl)
  return ⟨r0, r1, r2⟩

/-- `finalize_dotprod_mod_p` with `sum` for `sum_mod_p`. -/
def finalizeDotprodWith (res : Word) (tmp : TmpResult) : m Word := do
  let y0 := tmp.r1 &&& LOW32_MASK
  let y1 := tmp.r1 >>> 32
  let x0 := tmp.r0 &&& LOW32_MASK
  let x1 := tmp.r0 >>> 32
  let alpha := x1 * TWO_POW64_MOD_P
  let alpha0 := alpha &&& LOW32_MASK
  let alpha1 := alpha >>> 32
  let r1 ← sum tmp.r2 (y0 <<< 32)
  let r2 ← sum (y1 * TWO_POW64_MOD_P) (x0 * TWO_POW64_MOD_P)
  let r3 ← sum (alpha0 <<< 32) (alpha1 * TWO_POW64_MOD_P)
  let r23 ← sum r2 r3
  let r ← sum r1 r23
  return res + r

def dotprodWith (res : Word) (pairs : List (Word × Word)) : m Word := do
  let tmp ← pairs.foldlM (fun tmp pair => dotprodUpdateWith sum pair.1 pair.2 tmp) TmpResult.zero
  finalizeDotprodWith sum res tmp

end Monadic

theorem dotprodUpdateWith_id (a x : Word) (tmp : TmpResult) :
    dotprodUpdateWith (m := Id) sumModP a x tmp = dotprodUpdateModP a x tmp := rfl

theorem finalizeDotprodWith_id (res : Word) (tmp : TmpResult) :
    finalizeDotprodWith (m := Id) sumModP res tmp = finalizeDotprodModP res tmp := rfl

/-- `sum_mod_p` with a check of both arguments and of the result. -/
def sumChecked (a b : Word) : Option Word :=
  if a < PRIME ∧ b < PRIME ∧ sumModP a b < PRIME then some (sumModP a b) else none

theorem sumChecked_eq {a b : Word} (ha : a.toNat < prime) (hb : b.toNat < prime) :
    sumChecked a b = some (sumModP a b) := by
  apply if_pos
  simp only [BitVec.lt_def, PRIME_toNat]
  exact ⟨ha, hb, sumModP_lt ha hb⟩

theorem dotprodUpdateWith_checked (a x : Word) {tmp : TmpResult} (reduced : tmp.Reduced) :
    dotprodUpdateWith sumChecked a x tmp = some (dotprodUpdateModP a x tmp) := by
  obtain ⟨ah, al⟩ := halves_lt a
  have xl := (halves_lt x).2
  have xh : ((x >>> 32) &&& LOW32_MASK).toNat < 2 ^ 32 := (halves_lt (x >>> 32)).2
  have high := (half_product ah xl).2
  simp only [dotprodUpdateWith, sumChecked_eq reduced.r0 (half_product ah xh).2, sumChecked_eq reduced.r1 high,
    sumChecked_eq (sumModP_lt reduced.r1 high) (half_product al xh).2, sumChecked_eq reduced.r2 (half_product al xl).2,
    Option.bind_eq_bind, Option.bind_some]
  rfl

theorem finalizeDotprodWith_checked (res : Word) {tmp : TmpResult} (reduced : tmp.Reduced) :
    finalizeDotprodWith sumChecked res tmp = some (finalizeDotprodModP res tmp) := by
  have b59 : TWO_POW64_MOD_P.toNat < 2 ^ 32 := by decide
  have low := (shifted_low tmp.r1).2
  have middle := (half_product (halves_lt tmp.r1).1 b59).2
  have high := (half_product (halves_lt tmp.r0).2 b59).2
  have alpha0 := (shifted_low ((tmp.r0 >>> 32) * TWO_POW64_MOD_P)).2
  have alpha1 := (half_product (halves_lt ((tmp.r0 >>> 32) * TWO_POW64_MOD_P)).1 b59).2
  have r1 := sumModP_lt reduced.r2 low
  have r2 := sumModP_lt middle high
  have r3 := sumModP_lt alpha0 alpha1
  simp only [finalizeDotprodWith, sumChecked_eq reduced.r2 low, sumChecked_eq middle high,
    sumChecked_eq alpha0 alpha1, sumChecked_eq r2 r3, sumChecked_eq r1 (sumModP_lt r2 r3), Option.bind_eq_bind,
    Option.bind_some]
  rfl

/-- The updates of a sequence keep the partial sums reduced and add the products. -/
theorem dotprodUpdates_spec (pairs : List (Word × Word)) {tmp : TmpResult} (reduced : tmp.Reduced) :
    (pairs.foldl (fun tmp pair => dotprodUpdateModP pair.1 pair.2 tmp) tmp).Reduced ∧
      (pairs.foldl (fun tmp pair => dotprodUpdateModP pair.1 pair.2 tmp) tmp).residue =
        tmp.residue + ((pairs.map fun pair => pair.1.toNat * pair.2.toNat).sum : ℕ) ∧
      pairs.foldlM (fun tmp pair => dotprodUpdateWith sumChecked pair.1 pair.2 tmp) tmp =
        some (pairs.foldl (fun tmp pair => dotprodUpdateModP pair.1 pair.2 tmp) tmp) := by
  induction pairs generalizing tmp with
  | nil => exact ⟨reduced, by simp, rfl⟩
  | cons pair rest ih =>
    obtain ⟨updated, residue⟩ := dotprodUpdateModP_spec pair.1 pair.2 reduced
    obtain ⟨final, total, run⟩ := ih updated
    refine ⟨final, ?_, ?_⟩
    · rw [List.foldl_cons, total, residue, List.map_cons, List.sum_cons]
      push_cast
      ring
    · rw [List.foldlM_cons, dotprodUpdateWith_checked _ _ reduced, Option.bind_eq_bind, Option.bind_some, run,
        List.foldl_cons]

/-- `{0, 0, 0}`, the updates for a sequence of pairs, and the final recombination. -/
def dotprodModP (res : Word) (pairs : List (Word × Word)) : Word :=
  finalizeDotprodModP res (pairs.foldl (fun tmp pair => dotprodUpdateModP pair.1 pair.2 tmp) TmpResult.zero)

/-- Every sequence of words has its dot product computed exactly modulo the prime, by calls of `sum_mod_p`
whose arguments and results are all below it. -/
theorem dotprodModP_exact (res : Word) (pairs : List (Word × Word)) :
    dotprodWith sumChecked res pairs = some (dotprodModP res pairs) ∧
      (dotprodModP res pairs).toNat =
        (res.toNat + (pairs.map fun pair => pair.1.toNat * pair.2.toNat).sum % prime) % 2 ^ 64 := by
  obtain ⟨reduced, residue, run⟩ := dotprodUpdates_spec pairs zero_reduced
  constructor
  · simp only [dotprodWith, run, Option.bind_eq_bind, Option.bind_some]
    exact finalizeDotprodWith_checked res reduced
  · rw [dotprodModP, finalizeDotprodModP_toNat res reduced, residue, zero_residue, zero_add, ZMod.val_natCast]

end CilkArtifact.DotMix
