import CilkArtifact.Fft.Tables
import CilkArtifact.Library.Fourier
import CilkArtifact.Library.Strided

/-! What the generic passes compute. -/
namespace CilkArtifact.Fft
open Buffer Finset
variable {R : Type} [CommRing R] {x y y' W : Buffer ℕ (COMPLEX R)} {off r m n nW : ℕ} {f : ℕ → COMPLEX R}

/-- The input of a transform of size `n`. -/
structure Input (x : Buffer ℕ (COMPLEX R)) (off n : ℕ) (f : ℕ → COMPLEX R) : Prop where
  spans : x.Spans off n
  stored : ∀ i < n, x.cell (off + i) = some (f i)

theorem Input.read {i : ℕ} (input : Input x off n f) (bound : i < n) : x.read (off + i) = some (f i) := by
  rw [read_eq (input.spans _ (mem_span.mpr (by omega))), input.stored i bound]

/-! ### Distribution by residues -/

theorem copy_spec {ip jp : ℕ} {v : COMPLEX R} (value : x.read ip = some v) (inside : y.inside jp = true) :
    ∃ y', copy x y ip jp = some y' ∧ y'.cell jp = some v ∧ Changes {jp} y y' := by
  obtain ⟨y', run, written, changes⟩ := write_spec inside v
  refine ⟨y', ?_, written, changes⟩
  simp only [copy, value, run, Option.bind_eq_bind, Option.bind_some]

/-- Column `i` receives entries `i * r, …, i * r + r - 1`. -/
def residues (f : ℕ → COMPLEX R) (r i t : ℕ) : COMPLEX R := f (i * r + t)

/-- The pointers after `t` rows of column `i`. -/
structure AtRow (off r m i t : ℕ) (s : Cursor R) : Prop where
  j : s.j = t
  jp : s.jp = place off m i t
  ip : s.ip = off + i * r + t

section Unshuffle
variable (input : Input x off (m * r) f) (spans : y.Spans off (r * m))
include input spans

theorem copy_next {i t : ℕ} (column : i < m) (row : t < r)
    (fills : Fills off m i (i + 1) t (residues f r) y y') :
    ∃ y'', copy x y' (off + i * r + t) (place off m i t) = some y'' ∧
      Fills off m i (i + 1) (t + 1) (residues f r) y y'' := by
  have bound : i * r + t < m * r := by
    have rows : (i + 1) * r ≤ m * r := Nat.mul_le_mul_right r column
    rw [Nat.succ_mul] at rows
    omega
  have value : x.read (off + i * r + t) = some (residues f r i t) := by
    rw [Nat.add_assoc]
    exact input.read bound
  obtain ⟨y'', run, written, changes⟩ := copy_spec value (inside_place (fills.spans spans) column row)
  exact ⟨y'', run, fills.row column changes written⟩

theorem copyRest_spec {i : ℕ} (column : i < m) {t : ℕ} {s : Cursor R} (row : t ≤ r) (pointers : AtRow off r m i t s)
    (fills : Fills off m i (i + 1) t (residues f r) y s.y) :
    ∃ s', copyRest x m r s = some s' ∧ AtRow off r m i r s' ∧ Fills off m i (i + 1) r (residues f r) y s'.y := by
  obtain ⟨rfl, jp, ip⟩ := pointers
  induction remaining : r - s.j generalizing s with
  | zero =>
    obtain all : s.j = r := by omega
    rw [copyRest, if_neg (by omega)]
    rw [all] at jp ip fills
    exact ⟨s, rfl, ⟨all, jp, ip⟩, fills⟩
  | succ k ih =>
    obtain ⟨y', run, next⟩ := copy_next input spans column (t := s.j) (by omega) fills
    rw [copyRest, if_pos (by omega), ip, jp, run]
    refine ih (s := ⟨y', s.j + 1, _, _⟩) (by simp only; omega) next ?_ ?_ (by simp only; omega)
    · exact place_succ off m i s.j
    · exact Nat.add_assoc ..

theorem copyFours_spec {i : ℕ} (column : i < m) {t : ℕ} {s : Cursor R} (row : 4 * t ≤ r / 4 * 4)
    (pointers : AtRow off r m i (4 * t) s) (fills : Fills off m i (i + 1) (4 * t) (residues f r) y s.y) :
    ∃ s', copyFours x m (r / 4 * 4) s = some s' ∧ AtRow off r m i (r / 4 * 4) s' ∧
      Fills off m i (i + 1) (r / 4 * 4) (residues f r) y s'.y := by
  induction remaining : r / 4 - t generalizing t s with
  | zero =>
    have all : 4 * t = r / 4 * 4 := by omega
    rw [copyFours, if_neg (by rw [pointers.j]; omega)]
    rw [all] at pointers fills
    exact ⟨s, rfl, pointers, fills⟩
  | succ k ih =>
    obtain ⟨j, jp, ip⟩ := pointers
    obtain ⟨y₁, run₁, fills₁⟩ := copy_next input spans column (by omega) fills
    obtain ⟨y₂, run₂, fills₂⟩ := copy_next input spans column (by omega) fills₁
    obtain ⟨y₃, run₃, fills₃⟩ := copy_next input spans column (by omega) fills₂
    obtain ⟨y₄, run₄, fills₄⟩ := copy_next input spans column (by omega) fills₃
    rw [copyFours, if_pos (by omega), ip, jp, run₁]
    simp only [Option.bind_eq_bind, Option.bind_some, place_succ, place_add, Nat.add_assoc] at run₂ run₃ run₄ ⊢
    rw [run₂, Option.bind_some, run₃, Option.bind_some, run₄, Option.bind_some]
    exact ih (t := t + 1) (by omega) ⟨by simp only; omega, by simp only; rfl, by simp only; omega⟩ fills₄ (by omega)

theorem unshuffleStep_spec {i : ℕ} (column : i < m) :
    ∃ y', unshuffleStep x off r m (y, off + i * r) i = some (y', off + (i + 1) * r) ∧
      Fills off m i (i + 1) r (residues f r) y y' := by
  have start : AtRow off r m i (4 * 0) (⟨y, 0, off + i, off + i * r⟩ : Cursor R) := ⟨rfl, by simp [place], rfl⟩
  obtain ⟨fours, run₁, pointers₁, fills₁⟩ := copyFours_spec input spans column (by omega) start (.empty y i _)
  obtain ⟨rest, run₂, pointers₂, fills₂⟩ := copyRest_spec input spans column (by omega) pointers₁ fills₁
  refine ⟨rest.y, ?_, fills₂⟩
  simp only [unshuffleStep, run₁, run₂, pointers₂.ip, Option.bind_eq_bind, Option.bind_some]
  rw [Nat.succ_mul, Nat.add_assoc]

theorem unshuffle_spec {a b : ℕ} (order : a ≤ b) (bound : b ≤ m) :
    ∃ y', unshuffle a b x y off r m = some y' ∧ Fills off m a b r (residues f r) y y' := by
  induction size : b - a using Nat.strong_induction_on generalizing a b y with
  | _ size ih =>
    rw [unshuffle]
    split
    · have loop : ∃ s, forLoop a b (unshuffleStep x off r m) (y, off + a * r) = some s ∧
          Fills off m a b r (residues f r) y s.1 ∧ s.2 = off + b * r := by
        refine forLoop_invariant (fun i (s : Buffer ℕ (COMPLEX R) × ℕ) =>
          Fills off m a i r (residues f r) y s.1 ∧ s.2 = off + i * r) order ⟨.none y a r, rfl⟩ ?_
        rintro i ⟨y', _⟩ lower upper ⟨fills, rfl⟩
        obtain ⟨y'', run, last⟩ := unshuffleStep_spec input (fills.spans spans) (i := i) (by omega)
        exact ⟨_, run, fills.append last lower (by omega) (by omega), rfl⟩
      obtain ⟨s, run, fills, _⟩ := loop
      exact ⟨s.1, by simp only [run, Option.bind_eq_bind, Option.bind_some], fills⟩
    · obtain ⟨y₁, run₁, fills₁⟩ := ih _ (by omega) spans (a := a) (b := (a + b) / 2) (by omega) (by omega) rfl
      obtain ⟨y₂, run₂, fills₂⟩ :=
        ih _ (by omega) (fills₁.spans spans) (a := (a + b) / 2) (b := b) (by omega) (by omega) rfl
      refine ⟨y₂, ?_, fills₁.append fills₂ (by omega) (by omega) bound⟩
      simp only [run₁, run₂, Option.bind_eq_bind, Option.bind_some]

end Unshuffle

/-! ### Transforms of the columns -/

theorem int_eq {v : ℕ} (bound : v < 2 ^ 31) : int v = some v := if_pos bound

/-- The source's arithmetic on the parts is multiplication and addition. -/
theorem multiply_add (s t w : COMPLEX R) :
    (⟨s.re + (t.re * w.re - t.im * w.im), s.im + (t.re * w.im + t.im * w.re)⟩ : COMPLEX R) = s + t * w := by
  ext <;> simp [sub_eq_add_neg]

section Twiddle
variable {w : COMPLEX R} (table : Table w nW W) (root : w ^ nW = 1)

/-- Before term `j`: the sum of the terms so far, and the exponent modulo `nW`. -/
structure Partial (w : COMPLEX R) (g : ℕ → COMPLEX R) (start m nW l1 j : ℕ) (s : Sum R) : Prop where
  sum : (⟨s.r0, s.i0⟩ : COMPLEX R) = ∑ t ∈ range j, g t * w ^ (l1 * t)
  jp : s.jp = start + j * m
  bound : s.l0 ≤ nW
  power : w ^ s.l0 = w ^ (l1 * j)

include table root

theorem addTerm_spec {g : ℕ → COMPLEX R} {start l1 j : ℕ} {s : Sum R} (small : nW ≤ 2 ^ 30) (step : l1 < nW)
    (value : x.read (start + j * m) = some (g j)) (before : Partial w g start m nW l1 j s) :
    ∃ s', addTerm x W m nW l1 s j = some s' ∧ Partial w g start m nW l1 (j + 1) s' := by
  obtain ⟨sum, jp, bound, power⟩ := before
  rw [← jp] at value
  have next : w ^ (s.l0 + l1) = w ^ (l1 * (j + 1)) := by rw [pow_add, power, ← pow_add, Nat.mul_succ]
  have fits : int (s.l0 + l1) = some (s.l0 + l1) := int_eq (by omega)
  simp only [addTerm, table _ bound, value, fits, Option.bind_eq_bind, Option.bind_some]
  refine ⟨_, rfl, ?_, ?_, ?_, ?_⟩
  · rw [sum_range_succ, ← sum, ← power]
    exact multiply_add ⟨s.r0, s.i0⟩ (g j) (w ^ s.l0)
  · simp only [jp, Nat.succ_mul, Nat.add_assoc]
  · simp only
    split <;> omega
  · simp only
    split
    · calc w ^ (s.l0 + l1 - nW) = w ^ (s.l0 + l1 - nW) * w ^ nW := by rw [root, mul_one]
        _ = w ^ (s.l0 + l1) := by rw [← pow_add, Nat.sub_add_cancel (by omega)]
        _ = w ^ (l1 * (j + 1)) := next
    · exact next

/-- Row `k` of a transform of a column `g`. -/
theorem sumTerms_spec {g : ℕ → COMPLEX R} {start l1 : ℕ} (small : nW ≤ 2 ^ 30) (step : l1 < nW)
    (values : ∀ j < r, x.read (start + j * m) = some (g j)) :
    ∃ s : Sum R, forLoop 0 r (addTerm x W m nW l1) ⟨0, 0, start, 0⟩ = some s ∧
      (⟨s.r0, s.i0⟩ : COMPLEX R) = ∑ t ∈ range r, g t * w ^ (l1 * t) := by
  have start' : Partial w g start m nW l1 0 (⟨0, 0, start, 0⟩ : Sum R) := by
    constructor <;> simp [QuadraticAlgebra.ext_iff]
  have loop : ∃ s, forLoop 0 r (addTerm x W m nW l1) ⟨0, 0, start, 0⟩ = some s ∧ Partial w g start m nW l1 r s :=
    forLoop_invariant (fun j s => Partial w g start m nW l1 j s) (Nat.zero_le r) start'
      fun j s _ upper before => addTerm_spec table root small step (values j upper) before
  obtain ⟨s, run, final⟩ := loop
  exact ⟨s, run, final.sum⟩

/-- Row `k` of the transforms of the columns, with the root of unity `v`. -/
def twiddled (v : COMPLEX R) (r m : ℕ) (X : ℕ → ℕ → COMPLEX R) (q k : ℕ) : COMPLEX R :=
  ∑ j ∈ range r, X q j * v ^ (j * (q + k * m))

variable {X : ℕ → ℕ → COMPLEX R} {nWdn : ℕ}
  (values : ∀ q < m, ∀ j < r, x.read (place off m q j) = some (X q j))
  (spans : y.Spans off (r * m)) (product : nWdn * (r * m) = nW) (positive : 1 ≤ nW) (small : nW ≤ 2 ^ 30)

omit table root in
/-- Exponents stay below the size of the table. -/
theorem exponent_lt {q k : ℕ} (product : nWdn * (r * m) = nW) (positive : 1 ≤ nW) (column : q < m) (row : k < r) :
    nWdn * q + nWdn * m * k < nW := by
  have index : q + m * k < r * m := by
    have rows : (k + 1) * m ≤ r * m := Nat.mul_le_mul_right m row
    rw [Nat.succ_mul, Nat.mul_comm k] at rows
    omega
  have step : 0 < nWdn := by
    rcases Nat.eq_zero_or_pos nWdn with rfl | step
    · omega
    · exact step
  calc nWdn * q + nWdn * m * k = nWdn * (q + m * k) := by rw [Nat.mul_add, Nat.mul_assoc]
    _ < nWdn * (r * m) := (Nat.mul_lt_mul_left step).mpr index
    _ = nW := product

include values spans product positive small

theorem twiddleStep_spec {q k : ℕ} (column : q < m) (row : k < r)
    (fills : Fills off m q (q + 1) k (twiddled (w ^ nWdn) r m X) y y') :
    ∃ y'', twiddleStep x W (off + q) r m nW (nWdn * q) (nWdn * m) (y', place off m q k) k =
        some (y'', place off m q (k + 1)) ∧
      Fills off m q (q + 1) (k + 1) (twiddled (w ^ nWdn) r m X) y y'' := by
  have step := exponent_lt product positive column row
  obtain ⟨s, run, sum⟩ := sumTerms_spec table root small step (values q column)
  have value : (⟨s.r0, s.i0⟩ : COMPLEX R) = twiddled (w ^ nWdn) r m X q k := by
    rw [sum, twiddled]
    refine sum_congr rfl fun j _ => ?_
    rw [← pow_mul]
    congr 2
    ring
  obtain ⟨y'', written, filled, changes⟩ :=
    write_spec (inside_place (fills.spans spans) column row) (⟨s.r0, s.i0⟩ : COMPLEX R)
  rw [value] at filled
  refine ⟨y'', ?_, fills.row column changes filled⟩
  simp only [twiddleStep, int_eq (show nWdn * q + nWdn * m * k < 2 ^ 31 by omega), run, written, place_succ,
    Option.bind_eq_bind, Option.bind_some]

theorem fftTwiddleGen1_spec {q : ℕ} (column : q < m) :
    ∃ y', fftTwiddleGen1 x y (off + q) W r m nW (nWdn * q) (nWdn * m) = some y' ∧
      Fills off m q (q + 1) r (twiddled (w ^ nWdn) r m X) y y' := by
  have loop : ∃ s, forLoop 0 r (twiddleStep x W (off + q) r m nW (nWdn * q) (nWdn * m)) (y, off + q) = some s ∧
      Fills off m q (q + 1) r (twiddled (w ^ nWdn) r m X) y s.1 ∧ s.2 = place off m q r := by
    refine forLoop_invariant (fun k (s : Buffer ℕ (COMPLEX R) × ℕ) =>
      Fills off m q (q + 1) k (twiddled (w ^ nWdn) r m X) y s.1 ∧ s.2 = place off m q k) (Nat.zero_le r)
      ⟨.empty y q _, by simp [place]⟩ ?_
    rintro k ⟨y', _⟩ _ row ⟨fills, rfl⟩
    obtain ⟨y'', run, next⟩ := twiddleStep_spec table root values spans product positive small column row fills
    exact ⟨_, run, next, rfl⟩
  obtain ⟨s, run, fills, _⟩ := loop
  exact ⟨s.1, by simp only [fftTwiddleGen1, run, Option.bind_eq_bind, Option.bind_some], fills⟩

theorem fftTwiddleGen_spec {a b : ℕ} (order : a < b) (bound : b ≤ m) (rows : 1 ≤ r) :
    ∃ y', fftTwiddleGen a b x y off W nW nWdn r m = some y' ∧
      Fills off m a b r (twiddled (w ^ nWdn) r m X) y y' := by
  induction size : b - a using Nat.strong_induction_on generalizing a b y with
  | _ size ih =>
    rw [fftTwiddleGen]
    split
    · next single =>
      subst single
      have first := exponent_lt product positive (show a < m by omega) rows
      have step : nWdn * m ≤ nW := by
        rw [← product]
        exact Nat.mul_le_mul_left _ (Nat.le_mul_of_pos_left m rows)
      simp only [int_eq (show nWdn * a < 2 ^ 31 by omega), int_eq (show nWdn * m < 2 ^ 31 by omega),
        Option.bind_eq_bind, Option.bind_some]
      exact fftTwiddleGen1_spec table root values spans product positive small (by omega)
    · obtain ⟨y₁, run₁, fills₁⟩ := ih _ (by omega) spans (a := a) (b := (a + b) / 2) (by omega) (by omega) rfl
      obtain ⟨y₂, run₂, fills₂⟩ :=
        ih _ (by omega) (fills₁.spans spans) (a := (a + b) / 2) (b := b) (by omega) (by omega) rfl
      refine ⟨y₂, ?_, fills₁.append fills₂ (by omega) (by omega) bound⟩
      simp only [run₁, run₂, Option.bind_eq_bind, Option.bind_some]

end Twiddle

end CilkArtifact.Fft
