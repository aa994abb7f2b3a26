import CilkArtifact.Library.CInt
import CilkArtifact.Library.MatrixProduct

/-! Multiplication of rectangular matrices in `matmul.c`. Pointers into the arrays of `A`, `B` and `C` are indices, and
so are offsets, which have type `int`. -/
/-- The array of the result. A function that calls itself is applied to it with `|>.`. -/
abbrev CilkArtifact.Matmul (R : Type) := Buffer ℕ R

namespace CilkArtifact.Matmul
open Buffer Finset
variable {R : Type} [Semiring R]

section Definitions
variable (a b : Buffer ℕ R) (ld : ℕ)

/-- `c += A[i * ld + j] * B[j * ld + k]` -/
def addTerm (A B i k : ℕ) (c : R) (j : ℕ) : Option R := do
  let left ← cint (i * ld + j)
  let x ← a.read (A + left)
  let right ← cint (j * ld + k)
  let y ← b.read (B + right)
  some (c + x * y)

/-- `C[i * ld + k] += c` or `C[i * ld + k] = c` -/
def setEntry (add : Bool) (array : Buffer ℕ R) (C i k : ℕ) (c : R) : Option (Buffer ℕ R) := do
  let here ← cint (i * ld + k)
  if add then do
    let old ← array.read (C + here)
    array.write (C + here) (old + c)
  else array.write (C + here) c

def baseCase (add : Bool) (array : Buffer ℕ R) (A B C m n p : ℕ) : Option (Buffer ℕ R) :=
  forLoop 0 m (fun array i =>
    forLoop 0 p (fun array k => do
      let c ← forLoop 0 n (addTerm a b ld A B i k) 0
      setEntry ld add array C i k c) array) array

/-- What `rec_matmulAdd` and `rec_matmul` have in common. Both call the former for the second half of an inner
product. -/
def multiply (add : Bool) (array : Matmul R) (A B C m n p : ℕ) : Option (Matmul R) := do
  let total ← cint (m + n + p)
  if total ≤ 64 then baseCase a b ld add array A B C m n p
  else if p ≤ n then
    if n ≤ m then do
      let m1 := m / 2
      let array ← array |>.multiply add A B C m1 n p
      let rows ← cint (m1 * ld)
      array |>.multiply add (A + rows) B (C + rows) (m - m1) n p
    else do
      let n1 := n / 2
      let array ← array |>.multiply add A B C m n1 p
      let rows ← cint (n1 * ld)
      array |>.multiply true (A + n1) (B + rows) C m (n - n1) p
  else do
    let p1 := p / 2
    let array ← array |>.multiply add A B C m n p1
    array |>.multiply add A (B + p1) (C + p1) m n (p - p1)
partial_fixpoint

def recMatmulAdd (array : Buffer ℕ R) (A B C m n p : ℕ) : Option (Buffer ℕ R) := multiply a b ld true array A B C m n p

def recMatmul (array : Buffer ℕ R) (A B C m n p : ℕ) : Option (Buffer ℕ R) := multiply a b ld false array A B C m n p

def iterMatmul (array : Buffer ℕ R) (A B C n : ℕ) : Option (Buffer ℕ R) := baseCase a b n false array A B C n n n

end Definitions

/-! ### What a call leaves -/

/-- All values of type `int` that are computed can be represented. -/
structure Indexed (m n p ld : ℕ) : Prop where
  total : m + n + p < 2 ^ 31
  left : ∀ i j, i < m → j < n → i * ld + j < 2 ^ 31
  right : ∀ j k, j < n → k < p → j * ld + k < 2 ^ 31
  result : ∀ i k, i < m → k < p → i * ld + k < 2 ^ 31

variable {a b array array' array'' : Buffer ℕ R} {ld A B C m n p m1 n1 p1 : ℕ} {x y z v v₁ v₂ : ℕ → ℕ → R} {add : Bool}

theorem Indexed.mono (indexed : Indexed m n p ld) (rows : m1 ≤ m) (inner : n1 ≤ n) (columns : p1 ≤ p) :
    Indexed m1 n1 p1 ld where
  total := by
    have := indexed.total
    omega
  left := fun i j hi hj => indexed.left i j (by omega) (by omega)
  right := fun j k hj hk => indexed.right j k (by omega) (by omega)
  result := fun i k hi hk => indexed.result i k (by omega) (by omega)

/-! ### Base case -/

theorem addTerm_sum (indexed : Indexed m n p ld) (holdsA : Holds a A ld m n x) (holdsB : Holds b B ld n p y) {i k : ℕ}
    (row : i < m) (column : k < p) : forLoop 0 n (addTerm a b ld A B i k) 0 = some (∑ j ∈ range n, x i j * y j k) := by
  refine forLoop_eq (fun n => ∑ j ∈ range n, x i j * y j k) (Nat.zero_le n) (sum_range_zero _).symm ?_
  intro j _ bound
  have left := holdsA i j row bound
  have right := holdsB j k bound column
  rw [Nat.add_assoc] at left right
  simp only [addTerm, cint_fits (indexed.left i j row bound), cint_fits (indexed.right j k bound column), left, right,
    Option.bind_eq_bind, Option.bind_some, sum_range_succ]

theorem setEntry_spec {i k : ℕ} {c : R} (fits : i * ld + k < 2 ^ 31) (inside : array.inside (C + i * ld + k) = true)
    (found : if add then array.read (C + i * ld + k) = some (z i k) else z i k = 0) :
    ∃ array', setEntry ld add array C i k c = some array' ∧ array'.read (C + i * ld + k) = some (z i k + c) ∧
      Changes {C + i * ld + k} array array' := by
  obtain ⟨array', run, -, -⟩ := write_spec inside (z i k + c)
  obtain ⟨filled, changes⟩ := write_returns run
  refine ⟨array', ?_, filled, changes⟩
  simp only [setEntry, cint_fits fits, Option.bind_eq_bind, Option.bind_some, ← Nat.add_assoc]
  cases add with
  | true => simp only [if_true, show array.read (C + i * ld + k) = some (z i k) from found, Option.bind_some, run]
  | false =>
    have zero : z i k = 0 := found
    rw [zero, zero_add] at run
    exact run

/-- A row of the base case. -/
theorem baseRow_spec (indexed : Indexed m n p ld) (wide : p ≤ ld) (holdsA : Holds a A ld m n x)
    (holdsB : Holds b B ld n p y) (room : Room array C ld m p) (found : Found add array C ld m p z) {i : ℕ}
    (row : i < m) (above : Leaves ld C i p (addProduct n x y z) array array') : ∃ array'',
    forLoop 0 p (fun array k => do
      let c ← forLoop 0 n (addTerm a b ld A B i k) 0
      setEntry ld add array C i k c) array' = some array'' ∧
      Leaves ld (C + i * ld) 1 p (fun _ k => addProduct n x y z i k) array' array'' := by
  refine forLoop_invariant (fun k now => Leaves ld (C + i * ld) 1 k (fun _ k => addProduct n x y z i k) array' now)
    (Nat.zero_le p) ⟨.refl _ array', fun _ k _ column => absurd column (Nat.not_lt_zero k)⟩ ?_
  intro k now _ column leaves
  have inside : now.inside (C + i * ld + k) = true := by
    rw [leaves.changes.inside, above.changes.inside]
    exact room _ (mem_window row column)
  have same : now.read (C + i * ld + k) = array.read (C + i * ld + k) := by
    rw [read_changes leaves.changes, read_changes above.changes]
    · intro before
      have member : C + i * ld + k ∈ window (C + i * ld) ld (i + 1 - i) p := ⟨0, k, by omega, column, by omega⟩
      exact below_apart C p i (i + 1) _ wide before member
    · intro before
      have member : C + i * ld + k ∈ window (C + i * ld + k) ld 1 (k + 1 - k) := ⟨0, 0, Nat.one_pos, by omega, by omega⟩
      exact right_apart (C + i * ld) (k + 1) k 1 _ (by omega) (by omega) before member
  obtain ⟨next, set, filled, changes⟩ :=
    setEntry_spec (c := ∑ j ∈ range n, x i j * y j k) (indexed.result i k row column) inside
      (found.entry row column same)
  refine ⟨next, ?_, ?_⟩
  · rw [addTerm_sum indexed holdsA holdsB row column, Option.bind_eq_bind, Option.bind_some, set]
  · have entry : Leaves ld (C + i * ld + k) 1 (k + 1 - k) (fun _ _ => addProduct n x y z i k) now next := by
      rw [Nat.add_sub_cancel_left]
      exact leaves_entry filled changes
    refine leaves.columns (by omega) (by omega) entry (fun _ _ _ _ => rfl) fun _ t _ inside => ?_
    rw [show t = 0 by omega, Nat.add_zero]

theorem baseCase_spec (indexed : Indexed m n p ld) (wide : p ≤ ld) (holdsA : Holds a A ld m n x)
    (holdsB : Holds b B ld n p y) (room : Room array C ld m p) (found : Found add array C ld m p z) :
    ∃ array', baseCase a b ld add array A B C m n p = some array' ∧ Leaves ld C m p (addProduct n x y z) array array' := by
  refine forLoop_invariant (fun i now => Leaves ld C i p (addProduct n x y z) array now) (Nat.zero_le m)
    (.refl ld C p _ array) ?_
  intro i now _ row above
  obtain ⟨next, run, leaves⟩ := baseRow_spec indexed wide holdsA holdsB room found row above
  refine ⟨next, run, ?_⟩
  have here : Leaves ld (C + i * ld) (i + 1 - i) p (fun _ k => addProduct n x y z i k) now next := by
    rw [Nat.add_sub_cancel_left]
    exact leaves
  refine above.rows wide (by omega) here (fun _ _ _ _ => rfl) fun t _ inside _ => ?_
  rw [show t = 0 by omega, Nat.add_zero]

/-! ### Recursion -/

/-- A call leaves the product in `C`, or adds it. -/
def Correct (a b : Buffer ℕ R) (ld : ℕ) (add : Bool) (m n p : ℕ) : Prop :=
  ∀ {array : Buffer ℕ R} {A B C : ℕ} {x y z : ℕ → ℕ → R}, p ≤ ld → Indexed m n p ld → Holds a A ld m n x →
    Holds b B ld n p y → Room array C ld m p → Found add array C ld m p z →
    ∃ array', multiply a b ld add array A B C m n p = some array' ∧ Leaves ld C m p (addProduct n x y z) array array'

theorem multiply_base (small : m + n + p ≤ 64) : Correct a b ld add m n p := by
  intro array A B C x y z wide indexed holdsA holdsB room found
  rw [multiply, cint_fits indexed.total, Option.bind_eq_bind, Option.bind_some, if_pos small]
  exact baseCase_spec indexed wide holdsA holdsB room found

theorem multiply_rows (large : ¬ m + n + p ≤ 64) (inner : p ≤ n) (tall : n ≤ m) (positive : 0 < n)
    (upper : Correct a b ld add (m / 2) n p) (lower : Correct a b ld add (m - m / 2) n p) :
    Correct a b ld add m n p := by
  intro array A B C x y z wide indexed holdsA holdsB room found
  have fits : m / 2 * ld < 2 ^ 31 := by
    have := indexed.left (m / 2) 0 (by omega) positive
    omega
  obtain ⟨array₁, run₁, first⟩ := upper wide (indexed.mono (by omega) le_rfl le_rfl)
    (fun i j hi hj => holdsA i j (by omega) hj) holdsB (fun k member => room k (window_mono (by omega) le_rfl member))
    (found.above (by omega))
  have rest : Holds a (A + m / 2 * ld) ld (m - m / 2) n (part x (m / 2) 0) :=
    holdsA.part (show m / 2 + (m - m / 2) ≤ m by omega) (show 0 + n ≤ n by omega)
  have roomBelow : Room array (C + m / 2 * ld) ld (m - m / 2) p :=
    fun k member => room k (window_below (by omega) member)
  obtain ⟨array₂, run₂, second⟩ := lower wide (indexed.mono (by omega) le_rfl le_rfl) rest holdsB
    (roomBelow.changes first.changes) (found.below (by omega) wide first.changes)
  refine ⟨array₂, ?_, first.rows wide (by omega) second (fun _ _ _ _ => rfl) fun i k _ _ => ?_⟩
  · rw [multiply, cint_fits indexed.total]
    simp only [Option.bind_eq_bind, Option.bind_some, if_neg large, if_pos inner, if_pos tall, run₁, cint_fits fits,
      run₂]
  · simp only [addProduct, part, Nat.zero_add]

theorem multiply_inner (large : ¬ m + n + p ≤ 64) (inner : p ≤ n) (flat : ¬ n ≤ m) (positive : 0 < p)
    (half : Correct a b ld add m (n / 2) p) (rest : Correct a b ld true m (n - n / 2) p) :
    Correct a b ld add m n p := by
  intro array A B C x y z wide indexed holdsA holdsB room found
  have fits : n / 2 * ld < 2 ^ 31 := by
    have := indexed.right (n / 2) 0 (by omega) positive
    omega
  obtain ⟨array₁, run₁, first⟩ := half wide (indexed.mono le_rfl (by omega) le_rfl)
    (fun i j hi hj => holdsA i j hi (by omega)) (fun j k hj hk => holdsB j k (by omega) hk) room found
  have right := holdsA.part (show 0 + m ≤ m by omega) (show n / 2 + (n - n / 2) ≤ n by omega)
  rw [Nat.zero_mul, Nat.add_zero] at right
  have below : Holds b (B + n / 2 * ld) ld (n - n / 2) p (part y (n / 2) 0) :=
    holdsB.part (show n / 2 + (n - n / 2) ≤ n by omega) (show 0 + p ≤ p by omega)
  -- the first half is what the second one adds to
  have summed : Found true array₁ C ld m p (addProduct (n / 2) x y z) := first.holds
  obtain ⟨array₂, run₂, second⟩ := rest wide (indexed.mono le_rfl (by omega) le_rfl) right below
    (room.changes first.changes) summed
  refine ⟨array₂, ?_, first.changes.trans second.changes, second.holds.congr fun i k _ _ => addProduct_inner (by omega) i k⟩
  rw [multiply, cint_fits indexed.total]
  simp only [Option.bind_eq_bind, Option.bind_some, if_neg large, if_pos inner, if_neg flat, run₁, cint_fits fits, run₂]

theorem multiply_columns (large : ¬ m + n + p ≤ 64) (outer : ¬ p ≤ n) (left : Correct a b ld add m n (p / 2))
    (right : Correct a b ld add m n (p - p / 2)) : Correct a b ld add m n p := by
  intro array A B C x y z wide indexed holdsA holdsB room found
  obtain ⟨array₁, run₁, first⟩ := left (by omega) (indexed.mono le_rfl le_rfl (by omega)) holdsA
    (fun j k hj hk => holdsB j k hj (by omega)) (fun k member => room k (window_mono le_rfl (by omega) member))
    (found.left (by omega))
  have rest := holdsB.part (show 0 + n ≤ n by omega) (show p / 2 + (p - p / 2) ≤ p by omega)
  rw [Nat.zero_mul, Nat.add_zero] at rest
  have roomRight : Room array (C + p / 2) ld m (p - p / 2) :=
    fun k member => room k (window_right (by omega) member)
  obtain ⟨array₂, run₂, second⟩ := right (by omega) (indexed.mono le_rfl le_rfl (by omega)) holdsA rest
    (roomRight.changes first.changes) (found.right (by omega) wide first.changes)
  refine ⟨array₂, ?_, first.columns wide (by omega) second (fun _ _ _ _ => rfl) fun i k _ _ => ?_⟩
  · rw [multiply, cint_fits indexed.total]
    simp only [Option.bind_eq_bind, Option.bind_some, if_neg large, if_neg outer, run₁, run₂]
  · simp only [addProduct, part, Nat.zero_add]

/-- Whichever dimension is halved, it has at least two elements. -/
theorem multiply_spec (size : ℕ) : ∀ {add : Bool} {m n p : ℕ}, m + n + p = size → 0 < m → 0 < n → 0 < p →
    Correct a b ld add m n p := by
  induction size using Nat.strongRecOn with
  | ind size ih =>
    intro add m n p total hm hn hp
    by_cases small : m + n + p ≤ 64
    · exact multiply_base small
    by_cases inner : p ≤ n
    · by_cases tall : n ≤ m
      · exact multiply_rows small inner tall hn (ih (m / 2 + n + p) (by omega) rfl (by omega) hn hp)
          (ih (m - m / 2 + n + p) (by omega) rfl (by omega) hn hp)
      · exact multiply_inner small inner tall hp (ih (m + n / 2 + p) (by omega) rfl hm (by omega) hp)
          (ih (m + (n - n / 2) + p) (by omega) rfl hm (by omega) hp)
    · exact multiply_columns small inner (ih (m + n + p / 2) (by omega) rfl hm hn (by omega))
        (ih (m + n + (p - p / 2)) (by omega) rfl hm hn (by omega))

/-! ### Calls -/

/-- The arguments of a call. -/
structure Call where
  add : Bool
  A : ℕ
  B : ℕ
  C : ℕ
  m : ℕ
  n : ℕ
  p : ℕ

/-- What a call leads to: the base case, or two calls, the first of which may be spawned. -/
inductive Branch where
  | base
  | spawned (first second : Call)
  | sequence (first second : Call)

section Calls
variable (ld)

def branch (c : Call) : Branch :=
  if c.m + c.n + c.p ≤ 64 then .base
  else if c.p ≤ c.n then
    if c.n ≤ c.m then
      let m1 := c.m / 2
      .spawned { c with m := m1 } { c with A := c.A + m1 * ld, C := c.C + m1 * ld, m := c.m - m1 }
    else
      let n1 := c.n / 2
      .sequence { c with n := n1 } { c with add := true, A := c.A + n1, B := c.B + n1 * ld, n := c.n - n1 }
  else
    let p1 := c.p / 2
    .spawned { c with p := p1 } { c with B := c.B + p1, C := c.C + p1, p := c.p - p1 }

def Branch.calls : Branch → List Call
  | .base => []
  | .spawned first second => [first, second]
  | .sequence first second => [first, second]

inductive Reaches : Call → Call → Prop
  | start (c : Call) : Reaches c c
  | call {c d e : Call} : d ∈ (branch ld c).calls → Reaches d e → Reaches c e

/-- The cells that a call writes. -/
def cells (c : Call) : Set ℕ := window c.C ld c.m c.p

def run (a b : Buffer ℕ R) (c : Call) (array : Buffer ℕ R) : Option (Buffer ℕ R) :=
  multiply a b ld c.add array c.A c.B c.C c.m c.n c.p

end Calls

/-- What a call asks of its arguments. -/
structure Proper (a b array : Buffer ℕ R) (ld : ℕ) (c : Call) : Prop where
  rows : 0 < c.m
  inner : 0 < c.n
  columns : 0 < c.p
  wide : c.p ≤ ld
  indexed : Indexed c.m c.n c.p ld
  left : ∃ x, Holds a c.A ld c.m c.n x
  right : ∃ y, Holds b c.B ld c.n c.p y
  room : Room array c.C ld c.m c.p

variable {c d : Call}

omit [Semiring R] in
theorem Proper.calls (proper : Proper a b array ld c) (made : d ∈ (branch ld c).calls) : Proper a b array ld d := by
  obtain ⟨hm, hn, hp, wide, indexed, ⟨x, holdsA⟩, ⟨y, holdsB⟩, room⟩ := proper
  rw [branch] at made
  split_ifs at made with small inner tall
  · cases made
  · have half : c.m / 2 ≤ c.m ∧ 0 < c.m / 2 ∧ 0 < c.m - c.m / 2 ∧ c.m - c.m / 2 ≤ c.m := by omega
    rcases List.mem_pair.mp made with rfl | rfl
    · exact ⟨half.2.1, hn, hp, wide, indexed.mono half.1 le_rfl le_rfl,
        ⟨x, fun i j hi hj => holdsA i j (hi.trans_le half.1) hj⟩, ⟨y, holdsB⟩,
        fun k member => room k (window_mono half.1 le_rfl member)⟩
    · have below : Holds a (c.A + c.m / 2 * ld) ld (c.m - c.m / 2) c.n (part x (c.m / 2) 0) :=
        holdsA.part (show c.m / 2 + (c.m - c.m / 2) ≤ c.m by omega) (show 0 + c.n ≤ c.n by omega)
      exact ⟨half.2.2.1, hn, hp, wide, indexed.mono half.2.2.2 le_rfl le_rfl, ⟨_, below⟩, ⟨y, holdsB⟩,
        fun k member => room k (window_below half.1 member)⟩
  · have half : c.n / 2 ≤ c.n ∧ 0 < c.n / 2 ∧ 0 < c.n - c.n / 2 ∧ c.n - c.n / 2 ≤ c.n := by omega
    rcases List.mem_pair.mp made with rfl | rfl
    · exact ⟨hm, half.2.1, hp, wide, indexed.mono le_rfl half.1 le_rfl,
        ⟨x, fun i j hi hj => holdsA i j hi (hj.trans_le half.1)⟩,
        ⟨y, fun j k hj hk => holdsB j k (hj.trans_le half.1) hk⟩, room⟩
    · have right := holdsA.part (show 0 + c.m ≤ c.m by omega) (show c.n / 2 + (c.n - c.n / 2) ≤ c.n by omega)
      rw [Nat.zero_mul, Nat.add_zero] at right
      have below : Holds b (c.B + c.n / 2 * ld) ld (c.n - c.n / 2) c.p (part y (c.n / 2) 0) :=
        holdsB.part (show c.n / 2 + (c.n - c.n / 2) ≤ c.n by omega) (show 0 + c.p ≤ c.p by omega)
      exact ⟨hm, half.2.2.1, hp, wide, indexed.mono le_rfl half.2.2.2 le_rfl, ⟨_, right⟩, ⟨_, below⟩, room⟩
  · have half : c.p / 2 ≤ c.p ∧ 0 < c.p / 2 ∧ 0 < c.p - c.p / 2 ∧ c.p - c.p / 2 ≤ c.p := by omega
    rcases List.mem_pair.mp made with rfl | rfl
    · exact ⟨hm, hn, half.2.1, half.1.trans wide, indexed.mono le_rfl le_rfl half.1, ⟨x, holdsA⟩,
        ⟨y, fun j k hj hk => holdsB j k hj (hk.trans_le half.1)⟩,
        fun k member => room k (window_mono le_rfl half.1 member)⟩
    · have right := holdsB.part (show 0 + c.n ≤ c.n by omega) (show c.p / 2 + (c.p - c.p / 2) ≤ c.p by omega)
      rw [Nat.zero_mul, Nat.add_zero] at right
      exact ⟨hm, hn, half.2.2.1, half.2.2.2.trans wide, indexed.mono le_rfl le_rfl half.2.2.2, ⟨x, holdsA⟩, ⟨_, right⟩,
        fun k member => room k (window_right half.1 member)⟩

omit [Semiring R] in
theorem Reaches.proper (reached : Reaches ld c d) (proper : Proper a b array ld c) : Proper a b array ld d := by
  induction reached with
  | start => exact proper
  | call made _ ih => exact ih (proper.calls made)

/-- A call that is made from any contents of the array writes its own cells only. -/
theorem Proper.run (proper : Proper a b array ld c) (same : array'.inside = array.inside)
    (found : Found c.add array' c.C ld c.m c.p z) :
    ∃ array'', Matmul.run ld a b c array' = some array'' ∧ Changes (cells ld c) array' array'' := by
  obtain ⟨x, holdsA⟩ := proper.left
  obtain ⟨y, holdsB⟩ := proper.right
  have room : Room array' c.C ld c.m c.p := by
    intro k member
    rw [same, proper.room k member]
  obtain ⟨array'', made, leaves⟩ := multiply_spec _ rfl proper.rows proper.inner proper.columns proper.wide
    proper.indexed holdsA holdsB room found
  exact ⟨array'', made, leaves.changes⟩

/-- What there is to a branch that spawns a call. -/
structure Independent (a b array : Buffer ℕ R) (ld : ℕ) (c first second : Call) : Prop where
  both : ∀ array, run ld a b c array = (run ld a b first array).bind (run ld a b second)
  apart : Disjoint (cells ld first) (cells ld second)
  inside : cells ld first ∪ cells ld second ⊆ cells ld c
  writes : ∀ d ∈ [first, second], ∀ (array' : Buffer ℕ R) (z : ℕ → ℕ → R), array'.inside = array.inside →
    Found d.add array' d.C ld d.m d.p z →
    ∃ array'', run ld a b d array' = some array'' ∧ Changes (cells ld d) array' array''

theorem Proper.independent {first second : Call} (proper : Proper a b array ld c)
    (spawns : branch ld c = .spawned first second) : Independent a b array ld c first second := by
  have writes : ∀ d ∈ [first, second], ∀ (array' : Buffer ℕ R) (z : ℕ → ℕ → R), array'.inside = array.inside →
      Found d.add array' d.C ld d.m d.p z →
      ∃ array'', Matmul.run ld a b d array' = some array'' ∧ Changes (cells ld d) array' array'' := by
    intro d member array' z same found
    have made : d ∈ (branch ld c).calls := by
      rw [spawns]
      exact member
    exact (proper.calls made).run same found
  have hm := proper.rows
  have hn := proper.inner
  have wide := proper.wide
  have total := cint_fits proper.indexed.total
  rw [branch] at spawns
  split_ifs at spawns with small inner tall
  · cases spawns
    have fits : c.m / 2 * ld < 2 ^ 31 := by
      have := proper.indexed.left (c.m / 2) 0 (by omega) hn
      omega
    refine ⟨fun array => ?_, ?_, Set.union_subset (window_mono ?_ le_rfl) (window_below ?_), writes⟩
    · rw [Matmul.run, multiply, total]
      simp only [Option.bind_eq_bind, Option.bind_some, if_neg small, if_pos inner, if_pos tall, cint_fits fits]
      rfl
    · exact Set.disjoint_left.mpr fun k before => below_apart c.C c.p (c.m / 2) c.m k wide before
    · dsimp only
      omega
    · omega
  · cases spawns
    refine ⟨fun array => ?_, ?_, Set.union_subset (window_mono le_rfl ?_) (window_right ?_), writes⟩
    · rw [Matmul.run, multiply, total]
      simp only [Option.bind_eq_bind, Option.bind_some, if_neg small, if_neg inner]
      rfl
    · exact Set.disjoint_left.mpr fun k before => right_apart c.C c.p (c.p / 2) c.m k wide (by omega) before
    · dsimp only
      omega
    · omega

/-- Matrices whose indices are values of type `int`: both functions leave the product, `rec_matmul` what
`iter_matmul` leaves, and calls that run at the same time write different cells. -/
theorem recMatmul_correct (rows : 1 ≤ m) (inner : 1 ≤ n) (columns : 1 ≤ p) (wide : max n p ≤ ld)
    (indexed : Indexed m n p ld) (holdsA : Holds a A ld m n x) (holdsB : Holds b B ld n p y)
    (room : Room array C ld m p) :
    (∃ array', recMatmul a b ld array A B C m n p = some array' ∧ Changes (window C ld m p) array array' ∧
      ∀ i k, i < m → k < p → array'.read (C + i * ld + k) = some (∑ j ∈ range n, x i j * y j k)) ∧
    (∀ z, Holds array C ld m p z → ∃ array', recMatmulAdd a b ld array A B C m n p = some array' ∧
      Changes (window C ld m p) array array' ∧
      ∀ i k, i < m → k < p → array'.read (C + i * ld + k) = some (z i k + ∑ j ∈ range n, x i j * y j k)) ∧
    (m = ld → n = ld → p = ld → ∃ array', recMatmul a b ld array A B C ld ld ld = some array' ∧
      iterMatmul a b array A B C ld = some array') ∧
    ∀ add c, Reaches ld ⟨add, A, B, C, m, n, p⟩ c → ∀ first second, branch ld c = .spawned first second →
      Independent a b array ld c first second := by
  have narrow : p ≤ ld := (le_max_right n p).trans wide
  have blank : Found false array C ld m p fun _ _ => 0 := fun _ _ _ _ => rfl
  obtain ⟨array', run, leaves⟩ := multiply_spec _ rfl rows inner columns narrow indexed holdsA holdsB room blank
  refine ⟨⟨array', run, leaves.changes, fun i k hi hk => ?_⟩, fun z holdsC => ?_, ?_, ?_⟩
  · rw [leaves.holds i k hi hk, addProduct, zero_add]
  · have found : Found true array C ld m p z := holdsC
    obtain ⟨added, run', leaves'⟩ := multiply_spec _ rfl rows inner columns narrow indexed holdsA holdsB room found
    exact ⟨added, run', leaves'.changes, leaves'.holds⟩
  · rintro rfl rfl rfl
    obtain ⟨array'', iterates, leaves'⟩ := baseCase_spec indexed narrow holdsA holdsB room blank
    rw [← leaves.unique room leaves'] at iterates
    exact ⟨array', run, iterates⟩
  · intro add c reached first second spawns
    have proper : Proper a b array ld ⟨add, A, B, C, m, n, p⟩ :=
      ⟨rows, inner, columns, narrow, indexed, ⟨x, holdsA⟩, ⟨y, holdsB⟩, room⟩
    exact (reached.proper proper).independent spawns

theorem recMatmul_correct_odd : ∃ array' : Buffer ℕ ℤ,
    recMatmul ⟨fun _ => true, fun _ => some 1⟩ ⟨fun _ => true, fun _ => some 2⟩ 50 (raw 2500) 0 0 0 50 33 49 =
      some array' ∧ array'.read (49 * 50 + 48) = some 66 := by
  have indexed : Indexed 50 33 49 50 :=
    ⟨by decide, fun i j hi hj => by omega, fun j k hj hk => by omega, fun i k hi hk => by omega⟩
  have room : Room (raw 2500 : Buffer ℕ ℤ) 0 50 50 49 := by
    rintro _ ⟨i, j, hi, hj, rfl⟩
    have bound : 0 + i * 50 + j < 2500 := by omega
    exact decide_eq_true bound
  have holdsA : Holds (⟨fun _ => true, fun _ => some 1⟩ : Buffer ℕ ℤ) 0 50 50 33 fun _ _ => 1 := fun _ _ _ _ => rfl
  have holdsB : Holds (⟨fun _ => true, fun _ => some 2⟩ : Buffer ℕ ℤ) 0 50 33 49 fun _ _ => 2 := fun _ _ _ _ => rfl
  obtain ⟨⟨array', run, -, entries⟩, -⟩ := recMatmul_correct (by decide) (by decide) (by decide) (by decide) indexed
    holdsA holdsB room
  exact ⟨array', run, (entries 49 48 (by decide) (by decide)).trans (by simp)⟩

/-- The offset of the lower half of `A` is `2 ^ 15 * 2 ^ 16`, which is no value of type `int`. -/
theorem recMatmul_overflows :
    let zeros : Buffer ℕ ℤ := ⟨fun _ => true, fun _ => some 0⟩
    max 1 1 ≤ 65536 ∧ Holds zeros 0 65536 65536 1 (fun _ _ => 0) ∧ Holds zeros 0 65536 1 1 (fun _ _ => 0) ∧
      Room zeros 0 65536 65536 1 ∧ ¬ ∃ array', recMatmul zeros zeros 65536 zeros 0 0 0 65536 1 1 = some array' := by
  refine ⟨by decide, fun _ _ _ _ => rfl, fun _ _ _ _ => rfl, fun _ _ => rfl, ?_⟩
  have total : cint (65536 + 1 + 1) = some 65538 := rfl
  have overflow : cint (65536 / 2 * 65536) = none := cint_overflow (by decide)
  rw [recMatmul, multiply, total]
  simp [overflow]

end CilkArtifact.Matmul
