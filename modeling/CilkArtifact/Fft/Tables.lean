import CilkArtifact.Fft.Transform
import Mathlib.Data.Nat.Bitwise

/-! What the transform prepares before it starts: the powers of the root of unity and the factors. -/
namespace CilkArtifact.Fft
open Buffer

/-! ### Roots of unity -/

section Roots
variable {R : Type} [CommRing R] {trig : Trig R} {n : ℕ} {w : COMPLEX R} {W W' W'' : Buffer ℕ (COMPLEX R)}

/-- The values of the trigonometric functions are the parts of the powers of `w`. -/
def Trig.Tabulates (trig : Trig R) (n : ℕ) (w : COMPLEX R) : Prop :=
  ∀ k ≤ n / 2, (⟨trig.cos n k, -trig.sin n k⟩ : COMPLEX R) = w ^ k ∧
    (⟨trig.cos n k, trig.sin n k⟩ : COMPLEX R) = w ^ (n - k)

/-- No power of `w` that was in the table was lost. -/
structure Extends (w : COMPLEX R) (W W' : Buffer ℕ (COMPLEX R)) : Prop where
  inside : W'.inside = W.inside
  kept : ∀ i, W.cell i = some (w ^ i) → W'.cell i = some (w ^ i)

theorem Extends.refl (w : COMPLEX R) (W : Buffer ℕ (COMPLEX R)) : Extends w W W := ⟨rfl, fun _ power => power⟩

theorem Extends.trans (first : Extends w W W') (second : Extends w W' W'') : Extends w W W'' :=
  ⟨second.inside.trans first.inside, fun i power => second.kept i (first.kept i power)⟩

theorem write_extends {i : ℕ} {v : COMPLEX R} (inside : W.inside i = true) (value : v = w ^ i) :
    ∃ W', W.write i v = some W' ∧ W'.cell i = some (w ^ i) ∧ Extends w W W' := by
  obtain ⟨W', run, written, changes⟩ := write_spec inside v
  rw [value] at written
  refine ⟨W', run, written, changes.inside, fun k power => ?_⟩
  by_cases same : k = i
  · rw [same, written]
  · rw [changes.frame k same, power]

/-- Both ends of the table have the powers for `a, …, b`. -/
def Covers (w : COMPLEX R) (n a b : ℕ) (W : Buffer ℕ (COMPLEX R)) : Prop :=
  ∀ k, a ≤ k → k < b → W.cell k = some (w ^ k) ∧ W.cell (n - k) = some (w ^ (n - k))

theorem Covers.extends {a b : ℕ} (covers : Covers w n a b W) (extend : Extends w W W') : Covers w n a b W' := by
  intro k lower upper
  obtain ⟨first, second⟩ := covers k lower upper
  exact ⟨extend.kept k first, extend.kept _ second⟩

theorem setCoefficients_spec {k : ℕ} (tabulates : trig.Tabulates n w) (bound : k ≤ n / 2)
    (spans : W.Spans 0 (n + 1)) :
    ∃ W', setCoefficients trig n W k = some W' ∧ Covers w n k (k + 1) W' ∧ Extends w W W' := by
  obtain ⟨first, second⟩ := tabulates k bound
  obtain ⟨W₁, run₁, written₁, extends₁⟩ :=
    write_extends (spans k (mem_span.mpr (by omega))) first
  have inside : W₁.inside (n - k) = true := by
    rw [extends₁.inside]
    exact spans _ (mem_span.mpr (by omega))
  obtain ⟨W₂, run₂, written₂, extends₂⟩ := write_extends inside second
  refine ⟨W₂, ?_, ?_, extends₁.trans extends₂⟩
  · simp only [setCoefficients, run₁, run₂, Option.bind_eq_bind, Option.bind_some]
  · intro k' lower upper
    obtain rfl : k' = k := by omega
    exact ⟨extends₂.kept _ written₁, written₂⟩

theorem Extends.spans {size : ℕ} (extend : Extends w W W') (spans : W.Spans 0 size) : W'.Spans 0 size := by
  intro i member
  rw [extend.inside, spans i member]

theorem computeWCoefficients_spec (tabulates : trig.Tabulates n w) {a b : ℕ} (bound : b ≤ n / 2) (order : a ≤ b)
    (spans : W.Spans 0 (n + 1)) :
    ∃ W', computeWCoefficients trig n a b W = some W' ∧ Covers w n a (b + 1) W' ∧ Extends w W W' := by
  fun_induction computeWCoefficients trig n a b W with
  | case1 a b W small =>
    refine forLoop_invariant (fun k W' => Covers w n a k W' ∧ Extends w W W') (by omega)
      ⟨fun k lower upper => by omega, .refl w W⟩ ?_
    rintro k W₁ lower upper ⟨covers, extends₁⟩
    obtain ⟨W₂, run, last, extends₂⟩ := setCoefficients_spec tabulates (k := k) (by omega) (extends₁.spans spans)
    refine ⟨W₂, run, fun k' lower' upper' => ?_, extends₁.trans extends₂⟩
    rcases Nat.lt_or_ge k' k with before | after
    · exact covers.extends extends₂ k' lower' before
    · exact last k' after upper'
  | case2 a b W large ab ih₁ ih₂ =>
    obtain ⟨W₁, run₁, covers₁, extends₁⟩ := ih₁ (by omega) (by omega) spans
    obtain ⟨W₂, run₂, covers₂, extends₂⟩ := ih₂ W₁ (by omega) (by omega) (extends₁.spans spans)
    refine ⟨W₂, ?_, fun k lower upper => ?_, extends₁.trans extends₂⟩
    · simp only [run₁, Option.bind_eq_bind, Option.bind_some, run₂]
    · rcases Nat.lt_or_ge k (ab + 1) with before | after
      · exact covers₁.extends extends₂ k lower before
      · exact covers₂ k after upper

/-- The table of all powers up to `n`. -/
def Table (w : COMPLEX R) (n : ℕ) (W : Buffer ℕ (COMPLEX R)) : Prop := ∀ k ≤ n, W.read k = some (w ^ k)

theorem computeWCoefficients_table (tabulates : trig.Tabulates n w) :
    ∃ W, computeWCoefficients trig n 0 (n / 2) (raw (n + 1)) = some W ∧ Table w n W := by
  have spans : (raw (n + 1) : Buffer ℕ (COMPLEX R)).Spans 0 (n + 1) := by
    intro i member
    rw [mem_span] at member
    exact decide_eq_true (by omega)
  obtain ⟨W, run, covers, extend⟩ := computeWCoefficients_spec tabulates (Nat.le_refl _) (Nat.zero_le _) spans
  refine ⟨W, run, fun k bound => ?_⟩
  rw [read_eq (extend.spans spans k (mem_span.mpr (by omega)))]
  rcases Nat.lt_or_ge k (n / 2 + 1) with lower | upper
  · exact (covers k (Nat.zero_le k) lower).1
  · have mirrored := (covers (n - k) (Nat.zero_le _) (by omega)).2
    rwa [Nat.sub_sub_self bound] at mirrored

end Roots

/-! ### Factors -/

theorem oddFactor_spec (n r : ℕ) (positive : 2 ≤ n) (odd : 3 ≤ r) : 2 ≤ oddFactor n r ∧ oddFactor n r ∣ n := by
  fun_induction oddFactor n r with
  | case1 r less divides => exact ⟨by omega, Nat.dvd_of_mod_eq_zero divides⟩
  | case2 r less other ih => exact ih (by omega)
  | case3 r all => exact ⟨positive, Nat.dvd_refl n⟩

theorem dvd_of_and {n k : ℕ} (mask : n &&& (2 ^ k - 1) = 0) : 2 ^ k ∣ n := by
  rw [Nat.and_two_pow_sub_one_eq_mod] at mask
  exact Nat.dvd_of_mod_eq_zero mask

theorem factor_spec {n : ℕ} (large : 2 ≤ n) : 2 ≤ factor n ∧ factor n ∣ n := by
  rw [factor, if_neg (by omega)]
  split_ifs with special sixteen eight four two
  · exact ⟨by omega, by omega⟩
  · exact ⟨by omega, dvd_of_and (k := 4) sixteen⟩
  · exact ⟨by omega, dvd_of_and (k := 3) eight⟩
  · exact ⟨by omega, dvd_of_and (k := 2) four⟩
  · exact ⟨by omega, dvd_of_and (k := 1) two⟩
  · exact oddFactor_spec n 3 large (Nat.le_refl 3)

/-- The factors of `l` are in the array from index `d` on. -/
inductive Factored (factors : Buffer ℕ ℕ) : ℕ → ℕ → Prop where
  | last {d l} : factors.read d = some (factor l) → l / factor l ≤ 1 → Factored factors d l
  | next {d l} : factors.read d = some (factor l) → Factored factors (d + 1) (l / factor l) → Factored factors d l

theorem div_factor_lt {l : ℕ} (more : 1 < l / factor l) : 2 ≤ l ∧ l / factor l < l := by
  have large : 2 ≤ l := by
    have := Nat.div_le_self l (factor l)
    omega
  exact ⟨large, Nat.div_lt_self (by omega) (factor_spec large).1⟩

/-- At most 31 factors are stored: the product of the factors is at most `2 ^ 30`. -/
theorem findFactors_spec {l : ℕ} : ∀ {factors : Buffer ℕ ℕ} {p : ℕ}, factors.Spans 0 40 → 2 ^ p * l ≤ 2 ^ 30 → 1 ≤ l →
    ∃ factors', findFactors factors p l = some factors' ∧ Factored factors' p l ∧
      Changes {i | p ≤ i} factors factors' := by
  induction l using Nat.strong_induction_on with
  | _ l ih =>
    intro factors p spans product positive
    have exponent : p ≤ 30 := by
      have power : 2 ^ p ≤ 2 ^ 30 := (Nat.le_mul_of_pos_right _ positive).trans product
      exact (Nat.pow_le_pow_iff_right (by omega)).mp power
    obtain ⟨factors₁, run₁, written, changes₁⟩ :=
      write_spec (spans p (mem_span.mpr (by omega))) (factor l)
    have spans₁ := spans.changes changes₁
    have changes₁' : Changes {i | p ≤ i} factors factors₁ := changes₁.mono (by rintro _ rfl; exact Nat.le_refl _)
    have inside {fs : Buffer ℕ ℕ} (fits : fs.Spans 0 40) : fs.inside p = true := fits p (mem_span.mpr (by omega))
    rw [findFactors]
    simp only [run₁, Option.bind_eq_bind, Option.bind_some]
    by_cases more : 1 < l / factor l
    · obtain ⟨large, less⟩ := div_factor_lt more
      have halved : 2 ^ (p + 1) * (l / factor l) ≤ 2 ^ p * l := by
        have half : 2 * (l / factor l) ≤ l :=
          (Nat.mul_le_mul_right _ (factor_spec large).1).trans (Nat.mul_div_le l (factor l))
        calc 2 ^ (p + 1) * (l / factor l) = 2 ^ p * (2 * (l / factor l)) := by rw [pow_succ, Nat.mul_assoc]
          _ ≤ 2 ^ p * l := Nat.mul_le_mul_left _ half
      obtain ⟨factors', run, factored, changes⟩ := ih _ less spans₁ (halved.trans product) (by omega)
      refine ⟨factors', by rw [if_pos more, run], .next ?_ factored, changes₁'.trans (changes.mono ?_)⟩
      · rw [read_eq (inside (spans₁.changes changes)), changes.frame p (by simp), written]
      · intro i member
        exact (Nat.le_succ p).trans member
    · exact ⟨factors₁, by rw [if_neg more], .last (by rw [read_eq (inside spans₁), written]) (by omega), changes₁'⟩

theorem findFactors_factored {n : ℕ} (positive : 1 ≤ n) (bound : n ≤ 2 ^ 30) :
    ∃ factors, findFactors (raw 40) 0 n = some factors ∧ Factored factors 0 n := by
  have spans : (raw 40 : Buffer ℕ ℕ).Spans 0 40 := by
    intro i member
    rw [mem_span] at member
    exact decide_eq_true (by omega)
  obtain ⟨factors, run, factored, _⟩ := findFactors_spec spans (by rwa [pow_zero, Nat.one_mul]) positive
  exact ⟨factors, run, factored⟩

end CilkArtifact.Fft
