import CilkArtifact.Fft.Passes
import Mathlib.Analysis.SpecialFunctions.Trigonometric.Basic
import Mathlib.RingTheory.RootsOfUnity.PrimitiveRoots

/-! The fast Fourier transform computes the discrete Fourier transform. -/
namespace CilkArtifact.Fft
open Buffer Finset
variable {R : Type} [CommRing R]

/-- The sizes that have machine-generated code. -/
def radices : List ℕ := [2, 4, 8, 16, 32]

/-- The machine-generated code does what the generic passes do: `base r` is the pass over a single column
of size `r`, and `twiddle r` and `unshuffle r` are the passes with that radix. -/
structure Codelets.Meets (codelets : Codelets R) (W : Buffer ℕ (COMPLEX R)) (nW : ℕ) : Prop where
  base : ∀ r ∈ radices, ∀ x y off y', r ∣ nW →
    fftTwiddleGen 0 1 x y off W nW (nW / r) r 1 = some y' → codelets.base r x y off = some y'
  twiddle : ∀ r ∈ radices, ∀ a b x y off nWdn m y', b ≤ m → nWdn * (r * m) = nW →
    fftTwiddleGen a b x y off W nW nWdn r m = some y' → codelets.twiddle r a b x y off W nW nWdn m = some y'
  unshuffle : ∀ r ∈ radices, ∀ a b x y off m y',
    Fft.unshuffle a b x y off r m = some y' → codelets.unshuffle r a b x y off m = some y'

variable {codelets : Codelets R} {factors : Buffer ℕ ℕ} {W x y : Buffer ℕ (COMPLEX R)} {w : COMPLEX R}
  {nW n r m off : ℕ} {f : ℕ → COMPLEX R}

theorem unshuffleRadix_spec (meets : codelets.Meets W nW) (input : Input x off (m * r) f)
    (spans : y.Spans off (r * m)) :
    ∃ y', unshuffleRadix codelets r m x y off = some y' ∧ Fills off m 0 m r (residues f r) y y' := by
  obtain ⟨y', run, fills⟩ := unshuffle_spec input spans (Nat.zero_le m) (Nat.le_refl m)
  refine ⟨y', ?_, fills⟩
  have codelet (member : r ∈ radices) := meets.unshuffle r member 0 m x y off m y' run
  rw [unshuffleRadix]
  split_ifs with h32 h16 h8 h4 h2
  · subst h32
    exact codelet (by decide)
  · subst h16
    exact codelet (by decide)
  · subst h8
    exact codelet (by decide)
  · subst h4
    exact codelet (by decide)
  · subst h2
    exact codelet (by decide)
  · exact run

/-- The transforms of size `m` of the residues modulo `r`, one after the other. -/
def Parts (v : COMPLEX R) (x : Buffer ℕ (COMPLEX R)) (off m r : ℕ) (f : ℕ → COMPLEX R) : Prop :=
  ∀ q < m, ∀ j < r, x.read (place off m q j) = some (dft (v ^ r) m (fun i => f (i * r + j)) q)

theorem parts_single {v : COMPLEX R} (input : Input x off n f) : Parts v x off 1 n f := by
  intro q column j row
  obtain rfl : q = 0 := by omega
  rw [place, Nat.add_zero, Nat.mul_one, dft_one, Nat.zero_mul, Nat.zero_add, input.read row]

/-- The output of a transform of size `n`. -/
def Output (w : COMPLEX R) (nW : ℕ) (y : Buffer ℕ (COMPLEX R)) (off n : ℕ) (f : ℕ → COMPLEX R) : Prop :=
  ∀ j < n, y.cell (off + j) = some (dft (w ^ (nW / n)) n f j)

section Run
variable (meets : codelets.Meets W nW) (table : Table w nW W) (root : w ^ nW = 1) (positive : 1 ≤ nW)
  (small : nW ≤ 2 ^ 30)
include table root positive small

/-- The generic pass over the parts, which is also what the codelets do. -/
theorem fftTwiddleGen_parts (parts : Parts (w ^ (nW / n)) x off m r f) (spans : y.Spans off n) (size : n = m * r)
    (divides : n ∣ nW) (rows : 1 ≤ r) (columns : 1 ≤ m) :
    ∃ y', fftTwiddleGen 0 m x y off W nW (nW / n) r m = some y' ∧ Changes (span off n) y y' ∧
      Output w nW y' off n f := by
  rw [Nat.mul_comm] at size
  have product : nW / n * (r * m) = nW := by rw [← size, Nat.div_mul_cancel divides]
  have unity : (w ^ (nW / n)) ^ (m * r) = 1 := by rw [← pow_mul, Nat.mul_comm m, product, root]
  obtain ⟨y', run, fills⟩ := fftTwiddleGen_spec table root parts (size ▸ spans) product positive small columns
    (Nat.le_refl m) rows
  refine ⟨y', run, ?_, fun j bound => ?_⟩
  · rw [size]
    exact fills.changes.mono (columns_sub_span (Nat.le_refl m))
  · rw [fills.cell (size ▸ bound), twiddled, ← dft_decimate unity, Nat.mod_add_div', Nat.mul_comm m, ← size]

include meets

theorem twiddleRadix_spec (parts : Parts (w ^ (nW / n)) x off m r f) (spans : y.Spans off n) (size : n = m * r)
    (divides : n ∣ nW) (rows : 1 ≤ r) (columns : 1 ≤ m) :
    ∃ y', twiddleRadix codelets n r m x y off W nW = some y' ∧ Changes (span off n) y y' ∧
      Output w nW y' off n f := by
  have product : nW / n * (r * m) = nW := by rw [Nat.mul_comm r, ← size, Nat.div_mul_cancel divides]
  obtain ⟨y', run, result⟩ := fftTwiddleGen_parts table root positive small parts spans size divides rows columns
  refine ⟨y', ?_, result⟩
  have codelet (member : r ∈ radices) :=
    meets.twiddle r member 0 m x y off (nW / n) m y' (Nat.le_refl m) product run
  rw [twiddleRadix]
  split_ifs with h2 h4 h8 h16 h32
  · subst h2
    exact codelet (by decide)
  · subst h4
    exact codelet (by decide)
  · subst h8
    exact codelet (by decide)
  · subst h16
    exact codelet (by decide)
  · subst h32
    exact codelet (by decide)
  · exact run

theorem baseCase_spec (member : n ∈ radices) (divides : n ∣ nW) (input : Input x off n f) (spans : y.Spans off n) :
    ∃ y', baseCase codelets n x y off = some (x, y') ∧ Changes (span off n) y y' ∧ Output w nW y' off n f := by
  have rows : 1 ≤ n := Nat.pos_of_dvd_of_pos divides positive
  obtain ⟨y', run, result⟩ := fftTwiddleGen_parts table root positive small (parts_single input) spans
    (Nat.one_mul n).symm divides rows (Nat.le_refl 1)
  refine ⟨y', ?_, result⟩
  simp only [baseCase, meets.base n member x y off y' divides run, Option.bind_eq_bind, Option.bind_some]

end Run

/-! ### Recursion -/

variable (codelets factors W w nW) in
/-- What is proved of the calls of size `n`. -/
def Transforms (n : ℕ) : Prop :=
  ∀ {x y : Buffer ℕ (COMPLEX R)} {off d : ℕ} {f : ℕ → COMPLEX R}, Factored factors d n → n ∣ nW → Input x off n f →
    y.Spans off n → ∃ x' y', fftAux codelets factors W nW n x y off d = some (x', y') ∧
      Changes (span off n) x x' ∧ Changes (span off n) y y' ∧ Output w nW y' off n f

theorem Input.changes {S : Set ℕ} {x' : Buffer ℕ (COMPLEX R)} (input : Input x off n f) (changes : Changes S x x')
    (apart : ∀ i < n, off + i ∉ S) : Input x' off n f :=
  ⟨input.spans.changes changes, fun i bound => by rw [changes.frame _ (apart i bound), input.stored i bound]⟩

/-- The parts from number `t` on. -/
theorem fftParts_spec {d t : ℕ} {g : ℕ → ℕ → COMPLEX R} (transforms : Transforms codelets factors W w nW m)
    (factored : Factored factors (d + 1) m) (divides : m ∣ nW) (positive : 1 ≤ m) (bound : t ≤ r)
    (inputs : ∀ t', t ≤ t' → t' < r → Input y (off + t' * m) m (g t')) (spans : x.Spans off (r * m)) :
    ∃ x' y', fftParts codelets factors W nW (r * m) m x y off d (t * m) = some (x', y') ∧
      Changes (span (off + t * m) ((r - t) * m)) x x' ∧ Changes (span (off + t * m) ((r - t) * m)) y y' ∧
      ∀ t', t ≤ t' → t' < r → Output w nW x' (off + t' * m) m (g t') := by
  induction remaining : r - t generalizing t x y with
  | zero =>
    obtain rfl : t = r := by omega
    rw [fftParts, if_neg (by omega)]
    exact ⟨x, y, rfl, .refl _ x, .refl _ y, fun t' lower upper => by omega⟩
  | succ k ih =>
    have block : t * m + m ≤ r * m := by
      rw [← Nat.succ_mul]
      exact Nat.mul_le_mul_right m (by omega)
    have rest : (t + 1) * m = t * m + m := Nat.succ_mul t m
    obtain ⟨y₁, x₁, run₁, yChanges₁, xChanges₁, output₁⟩ := transforms factored divides
      (inputs t (Nat.le_refl t) (by omega)) (spans.sub (by omega) (by omega))
    have later (t' : ℕ) (after : t + 1 ≤ t') : t * m + m ≤ t' * m := by
      rw [← Nat.succ_mul]
      exact Nat.mul_le_mul_right m after
    have inputs₁ (t' : ℕ) (lower : t + 1 ≤ t') (upper : t' < r) : Input y₁ (off + t' * m) m (g t') := by
      refine (inputs t' (by omega) upper).changes yChanges₁ fun i _ => ?_
      have := later t' lower
      rw [mem_span]
      omega
    obtain ⟨x', y', run, xChanges, yChanges, outputs⟩ :=
      ih (by omega) inputs₁ (spans.changes xChanges₁) (by omega)
    have whole : (k + 1) * m = m + k * m := by rw [Nat.succ_mul, Nat.add_comm]
    have first : span (off + t * m) m ⊆ span (off + t * m) ((k + 1) * m) := by
      intro i
      rw [mem_span, mem_span]
      omega
    have others : span (off + (t + 1) * m) (k * m) ⊆ span (off + t * m) ((k + 1) * m) := by
      intro i
      rw [mem_span, mem_span]
      omega
    refine ⟨x', y', ?_, (xChanges₁.mono first).trans (xChanges.mono others),
      (yChanges₁.mono first).trans (yChanges.mono others), fun t' lower upper => ?_⟩
    · rw [fftParts, if_pos (by omega)]
      simp only [run₁, Option.bind_eq_bind, Option.bind_some, ← rest, run]
    · rcases Nat.eq_or_lt_of_le lower with rfl | after
      · intro j inside
        rw [xChanges.frame _ (by rw [mem_span]; omega), output₁ j inside]
      · exact outputs t' after upper

theorem Input.of_fills {y' : Buffer ℕ (COMPLEX R)} {t : ℕ} (fills : Fills off m 0 m r (residues f r) y y')
    (spans : y.Spans off (r * m)) (row : t < r) : Input y' (off + t * m) m fun i => f (i * r + t) := by
  have block : t * m + m ≤ r * m := by
    rw [← Nat.succ_mul]
    exact Nat.mul_le_mul_right m row
  constructor
  · exact (fills.spans spans).sub (by omega) (by omega)
  · intro i column
    have filled := fills.filled i t (Nat.zero_le i) column row
    rwa [place, Nat.add_right_comm] at filled

theorem fftSplit_spec {d : ℕ} (meets : codelets.Meets W nW)
    (transforms : m < n → Transforms codelets factors W w nW m) (factored : r < n → Factored factors (d + 1) m)
    (size : n = m * r) (divides : n ∣ nW) (positive : 1 ≤ n) (radix : r < n → 2 ≤ r) (input : Input x off n f)
    (spans : y.Spans off n) :
    ∃ x' y', fftSplit codelets factors W nW n r m x y off d = some (x', y') ∧ Changes (span off n) x x' ∧
      Changes (span off n) y y' ∧ Parts (w ^ (nW / n)) x' off m r f := by
  have columns : 1 ≤ m := Nat.pos_of_mul_pos_right (size ▸ positive)
  rw [fftSplit]
  split
  · next less =>
    have size' : n = r * m := by rw [size, Nat.mul_comm]
    have smaller : m < n := by
      rw [size']
      exact (Nat.lt_mul_iff_one_lt_left columns).mpr (radix less)
    obtain ⟨y₁, run₁, fills⟩ := unshuffleRadix_spec meets (size ▸ input) (size' ▸ spans)
    have inputs (t : ℕ) (_ : 0 ≤ t) (row : t < r) := Input.of_fills fills (size' ▸ spans) row
    obtain ⟨x', y', run, xChanges, yChanges, outputs⟩ := fftParts_spec (transforms smaller) (factored less)
      ((Dvd.intro r size.symm).trans divides) columns (Nat.zero_le r) inputs (size' ▸ input.spans)
    simp only [Nat.zero_mul, Nat.add_zero, Nat.sub_zero, ← size'] at run xChanges yChanges
    have changes₁ := fills.changes.mono (columns_sub_span (Nat.le_refl m))
    rw [← size'] at changes₁
    refine ⟨x', y', ?_, xChanges, changes₁.trans yChanges, fun q column j row => ?_⟩
    · simp only [run₁, Option.bind_eq_bind, Option.bind_some, run]
    · have root : w ^ (nW / m) = (w ^ (nW / n)) ^ r := by
        obtain ⟨c, rfl⟩ := divides
        rw [← pow_mul, Nat.mul_div_cancel_left c positive, size, Nat.mul_assoc, Nat.mul_div_cancel_left _ columns,
          Nat.mul_comm]
      have value := outputs j (Nat.zero_le j) row q column
      have inside : x'.inside (place off m q j) = true :=
        inside_place (size' ▸ input.spans.changes xChanges) column row
      rw [read_eq inside, place, Nat.add_right_comm, value, root]
  · next whole =>
    have rows : r ≤ n := by
      rw [size]
      exact Nat.le_mul_of_pos_left r columns
    obtain rfl : r = n := by omega
    obtain rfl : m = 1 := Nat.eq_of_mul_eq_mul_right positive (by rw [Nat.one_mul, ← size])
    exact ⟨x, y, rfl, .refl _ x, .refl _ y, parts_single input⟩

theorem Factored.first {d l : ℕ} (factored : Factored factors d l) : factors.read d = some (factor l) := by
  cases factored with
  | last first _ => exact first
  | next first _ => exact first

theorem factor_mul {l : ℕ} (positive : 1 ≤ l) : l = l / factor l * factor l ∧ 1 ≤ factor l := by
  rcases Nat.eq_or_lt_of_le positive with rfl | large
  · exact ⟨rfl, Nat.le_refl 1⟩
  · obtain ⟨lower, divides⟩ := factor_spec large
    exact ⟨(Nat.div_mul_cancel divides).symm, by omega⟩

theorem Factored.rest {d l : ℕ} (factored : Factored factors d l) (positive : 1 ≤ l) (less : factor l < l) :
    Factored factors (d + 1) (l / factor l) := by
  cases factored with
  | last _ small =>
    have product := (factor_mul positive).1
    have := Nat.mul_le_mul_right (factor l) small
    omega
  | next _ rest => exact rest

theorem fftAux_spec (meets : codelets.Meets W nW) (table : Table w nW W) (root : w ^ nW = 1) (positive : 1 ≤ nW)
    (small : nW ≤ 2 ^ 30) (n : ℕ) : Transforms codelets factors W w nW n := by
  induction n using Nat.strong_induction_on with
  | _ n ih =>
    intro x y off d f factored divides input spans
    have base (member : n ∈ radices) : ∃ x' y', baseCase codelets n x y off = some (x', y') ∧
        Changes (span off n) x x' ∧ Changes (span off n) y y' ∧ Output w nW y' off n f := by
      obtain ⟨y', run, changes, output⟩ := baseCase_spec meets table root positive small member divides input spans
      exact ⟨x, y', run, .refl _ x, changes, output⟩
    rw [fftAux]
    split_ifs with h32 h16 h8 h4 h2
    · subst h32
      exact base (by decide)
    · subst h16
      exact base (by decide)
    · subst h8
      exact base (by decide)
    · subst h4
      exact base (by decide)
    · subst h2
      exact base (by decide)
    · have nonempty : 1 ≤ n := Nat.pos_of_dvd_of_pos divides positive
      obtain ⟨size, rows⟩ := factor_mul nonempty
      have columns : 1 ≤ n / factor n := Nat.pos_of_mul_pos_right (size ▸ nonempty)
      obtain ⟨x₁, y₁, run₁, xChanges, yChanges₁, parts⟩ := fftSplit_spec meets (ih _) (factored.rest nonempty) size
        divides nonempty (fun less => (factor_spec (by omega)).1) input spans
      obtain ⟨y', run, yChanges, output⟩ := twiddleRadix_spec meets table root positive small parts
        (spans.changes yChanges₁) size divides rows columns
      refine ⟨x₁, y', ?_, xChanges, yChanges₁.trans yChanges, output⟩
      simp only [factored.first, run₁, run, Option.bind_eq_bind, Option.bind_some]

/-! ### Real parts and imaginary parts -/

noncomputable def realTrig : Trig ℝ where
  cos n k := Real.cos ((2 : ℕ) * Real.pi / n * k)
  sin n k := Real.sin ((2 : ℕ) * Real.pi / n * k)

/-- The root of unity of `compute_w_coefficients`. -/
noncomputable def realRoot (n : ℕ) : COMPLEX ℝ := ⟨realTrig.cos n 1, -realTrig.sin n 1⟩

theorem realRoot_pow (n k : ℕ) : realRoot n ^ k = ⟨realTrig.cos n k, -realTrig.sin n k⟩ := by
  induction k with
  | zero => simp [realTrig, QuadraticAlgebra.ext_iff, QuadraticAlgebra.re_one, QuadraticAlgebra.im_one]
  | succ k ih =>
    have angle : 2 * Real.pi / n * ((k + 1 : ℕ) : ℝ) = 2 * Real.pi / n * k + 2 * Real.pi / n * (1 : ℕ) := by
      push_cast
      ring
    rw [pow_succ, ih]
    ext
    · simp only [realRoot, realTrig, Nat.cast_ofNat, QuadraticAlgebra.re_mul, angle, Real.cos_add]
      ring
    · simp only [realRoot, realTrig, Nat.cast_ofNat, QuadraticAlgebra.im_mul, angle, Real.sin_add]
      ring

theorem realTrig_tabulates {n : ℕ} (positive : 1 ≤ n) : realTrig.Tabulates n (realRoot n) := by
  intro k bound
  have nonzero : (n : ℝ) ≠ 0 := by
    rw [Nat.cast_ne_zero]
    omega
  have angle : 2 * Real.pi / n * ((n - k : ℕ) : ℝ) = 2 * Real.pi - 2 * Real.pi / n * k := by
    rw [Nat.cast_sub (by omega)]
    field_simp
  refine ⟨(realRoot_pow n k).symm, ?_⟩
  rw [realRoot_pow]
  simp only [realTrig, Nat.cast_ofNat, angle, Real.cos_two_pi_sub, Real.sin_two_pi_sub, neg_neg]

theorem realRoot_isPrimitiveRoot {n : ℕ} (positive : 1 ≤ n) : IsPrimitiveRoot (realRoot n) n := by
  have nonzero : (n : ℝ) ≠ 0 := by
    rw [Nat.cast_ne_zero]
    omega
  constructor
  · rw [realRoot_pow]
    simp [realTrig, QuadraticAlgebra.ext_iff, QuadraticAlgebra.re_one, QuadraticAlgebra.im_one,
      div_mul_cancel₀ _ nonzero]
  · intro l one
    rw [realRoot_pow] at one
    have cosine : Real.cos ((2 : ℕ) * Real.pi / n * l) = 1 := congrArg QuadraticAlgebra.re one
    rw [Nat.cast_ofNat] at cosine
    obtain ⟨k, turns⟩ := (Real.cos_eq_one_iff _).mp cosine
    have equal : (l : ℝ) = n * k := by
      have pi := Real.pi_ne_zero
      field_simp at turns
      linarith
    have integers : (l : ℤ) = n * k := by exact_mod_cast equal
    exact Int.natCast_dvd_natCast.mp ⟨k, integers⟩

/-- The generic passes in place of the machine-generated code, for transforms of size `nW`. -/
def genericCodelets (trig : Trig R) (nW : ℕ) : Codelets R where
  base r x y off := do
    let W ← computeWCoefficients trig nW 0 (nW / 2) (raw (nW + 1))
    fftTwiddleGen 0 1 x y off W nW (nW / r) r 1
  twiddle r a b x y off W nW nWdn m := fftTwiddleGen a b x y off W nW nWdn r m
  unshuffle r a b x y off m := unshuffle a b x y off r m

theorem genericCodelets_meets {trig : Trig R} {nW : ℕ} {W : Buffer ℕ (COMPLEX R)}
    (tabulated : computeWCoefficients trig nW 0 (nW / 2) (raw (nW + 1)) = some W) :
    (genericCodelets trig nW).Meets W nW := by
  constructor
  · intro r _ x y off y' _ run
    simp only [genericCodelets, tabulated, Option.bind_eq_bind, Option.bind_some, run]
  · intro r _ a b x y off nWdn m y' _ _ run
    exact run
  · intro r _ a b x y off m y' run
    exact run

/-! ### Main result -/

/-- The transform comes to an end for every size up to `2 ^ 30`. All accesses to the table of the powers of
`w`, which has `n + 1` entries, and to the 40 factors are checked by the model. -/
theorem cilkFft_transforms {trig : Trig R} {n : ℕ} {w : COMPLEX R} {codelets : Codelets R}
    {x y : Buffer ℕ (COMPLEX R)} {f : ℕ → COMPLEX R} (positive : 1 ≤ n) (small : n ≤ 2 ^ 30)
    (root : IsPrimitiveRoot w n) (tabulates : trig.Tabulates n w)
    (meets : ∀ W, computeWCoefficients trig n 0 (n / 2) (raw (n + 1)) = some W → codelets.Meets W n)
    (input : Input x 0 n f) (spans : y.Spans 0 n) :
    ∃ x' y', cilkFft codelets trig n x y = some (x', y') ∧
      ∀ j < n, y'.read j = some (∑ i ∈ range n, f i * w ^ (i * j)) := by
  obtain ⟨W, tabulated, table⟩ := computeWCoefficients_table tabulates
  obtain ⟨factors, found, factored⟩ := findFactors_factored positive small
  obtain ⟨x', y', run, _, changes, output⟩ := fftAux_spec (meets W tabulated) table root.pow_eq_one positive small n
    factored (Nat.dvd_refl n) input spans
  refine ⟨x', y', ?_, fun j bound => ?_⟩
  · simp only [cilkFft, tabulated, found, Option.bind_eq_bind, Option.bind_some, run]
  · have value := output j bound
    rw [Nat.zero_add, Nat.div_self positive, pow_one] at value
    rw [read_eq (spans.changes changes j (mem_span.mpr (by omega))), value]
    rfl

theorem cilkFft_transforms_six :
    ∃ x' y', cilkFft (genericCodelets realTrig 6) realTrig 6 ⟨fun i => decide (i < 6), fun i => some ⟨i, 0⟩⟩ (raw 6) =
        some (x', y') ∧
      ∀ j < 6, y'.read j = some (∑ i ∈ range 6, ⟨i, 0⟩ * realRoot 6 ^ (i * j)) := by
  have positive : 1 ≤ 6 := by decide
  refine cilkFft_transforms positive (by decide) (realRoot_isPrimitiveRoot positive) (realTrig_tabulates positive)
    (fun W tabulated => genericCodelets_meets tabulated) ⟨?_, ?_⟩ ?_
  · intro i member
    rw [mem_span] at member
    exact decide_eq_true (by omega)
  · intro i _
    rw [Nat.zero_add]
  · intro i member
    rw [mem_span] at member
    exact decide_eq_true (by omega)

end CilkArtifact.Fft
