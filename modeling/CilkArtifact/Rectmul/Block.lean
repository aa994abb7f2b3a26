import CilkArtifact.Library.MatrixProduct
import Mathlib.Algebra.BigOperators.Fin

/-! The kernels of `rectmul.c` for blocks of 16 rows of 16 elements. A pointer to a block is its index, so its first
element is at 256 times that index. -/
namespace CilkArtifact.Rectmul
open Buffer Finset
variable {D : Type} [Semiring D]

section Definitions

/-- The indices in a group of four statements: of `ap` in the first two and in the last two, of `bp` in the first and
third and in the second and fourth. -/
structure Group where
  ap0 : ℕ
  ap1 : ℕ
  bp0 : ℕ
  bp1 : ℕ

def firstGroup : Group := ⟨0, 16, 0, 1⟩

def otherGroups : List Group :=
  [⟨1, 17, 16, 17⟩, ⟨2, 18, 32, 33⟩, ⟨3, 19, 48, 49⟩, ⟨4, 20, 64, 65⟩, ⟨5, 21, 80, 81⟩, ⟨6, 22, 96, 97⟩,
    ⟨7, 23, 112, 113⟩, ⟨8, 24, 128, 129⟩, ⟨9, 25, 144, 145⟩, ⟨10, 26, 160, 161⟩, ⟨11, 27, 176, 177⟩,
    ⟨12, 28, 192, 193⟩, ⟨13, 29, 208, 209⟩, ⟨14, 30, 224, 225⟩, ⟨15, 31, 240, 241⟩]

structure Sums (D : Type) where
  s0_0 : D
  s0_1 : D
  s1_0 : D
  s1_1 : D

variable (a b : Buffer ℕ D)

/-- The four products of a group. -/
def products (ap bp : ℕ) (g : Group) : Option (Sums D) := do
  let x0 ← a.read (ap + g.ap0)
  let x1 ← a.read (ap + g.ap1)
  let y0 ← b.read (bp + g.bp0)
  let y1 ← b.read (bp + g.bp1)
  some ⟨x0 * y0, x0 * y1, x1 * y0, x1 * y1⟩

/-- `s0_0 += ap[..] * bp[..]` and the other three statements of a group -/
def addProducts (ap bp : ℕ) (s : Sums D) (g : Group) : Option (Sums D) := do
  let t ← products a b ap bp g
  some ⟨s.s0_0 + t.s0_0, s.s0_1 + t.s0_1, s.s1_0 + t.s1_0, s.s1_1 + t.s1_1⟩

def loadSums (r : Buffer ℕ D) (rp : ℕ) : Option (Sums D) := do
  let s0_0 ← r.read rp
  let s0_1 ← r.read (rp + 1)
  let s1_0 ← r.read (rp + 16)
  let s1_1 ← r.read (rp + 17)
  some ⟨s0_0, s0_1, s1_0, s1_1⟩

def storeSums (r : Buffer ℕ D) (rp : ℕ) (s : Sums D) : Option (Buffer ℕ D) := do
  let r ← r.write rp s.s0_0
  let r ← r.write (rp + 1) s.s0_1
  let r ← r.write (rp + 16) s.s1_0
  r.write (rp + 17) s.s1_1

section Loops
variable (start : Buffer ℕ D → (ap bp rp : ℕ) → Option (Sums D)) (groups : List Group) (cost : BitVec 64) (A B R : ℕ)

/-- The body of both loops: two rows and two columns. -/
def tile (j : ℕ) (state : Buffer ℕ D × BitVec 64) (i : ℕ) : Option (Buffer ℕ D × BitVec 64) := do
  let (r, flops) := state
  let bp := 256 * B + j
  let ap := 256 * A + i * 16
  let rp := 256 * R + (j + i * 16)
  let s ← start r ap bp rp
  let s ← groups.foldlM (addProducts a b ap bp) s
  let r ← storeSums r rp s
  some (r, flops + cost)

/-- `for (j = 0; j < 16; j += 2)`, and the same for `i` -/
def tiles (r : Buffer ℕ D) : Option (Buffer ℕ D × BitVec 64) :=
  forLoop 0 8 (fun state column =>
    forLoop 0 8 (fun state row => tile a b start groups cost A B R (2 * column) state (2 * row)) state) (r, 0)

end Loops

def multAddBlock (A B R : ℕ) (r : Buffer ℕ D) : Option (Buffer ℕ D × BitVec 64) :=
  tiles a b (fun r _ _ rp => loadSums r rp) (firstGroup :: otherGroups) 128 A B R r

def multiplyBlock (A B R : ℕ) (r : Buffer ℕ D) : Option (Buffer ℕ D × BitVec 64) :=
  tiles a b (fun _ ap bp _ => products a b ap bp firstGroup) otherGroups 124 A B R r

end Definitions

/-! ### Four entries of the result -/

/-- The four sums after `n` groups. -/
def sums (x y z : ℕ → ℕ → D) (n : ℕ) : Sums D :=
  ⟨addProduct n x y z 0 0, addProduct n x y z 0 1, addProduct n x y z 1 0, addProduct n x y z 1 1⟩

def group (k : ℕ) : Group := ⟨k, 16 + k, 16 * k, 16 * k + 1⟩

theorem otherGroups_eq : otherGroups = (List.range' 1 15).map group := rfl

variable {a b r r' r'' : Buffer ℕ D} {ap bp rp : ℕ} {x y z : ℕ → ℕ → D} {add : Bool}

theorem products_group (holdsA : Holds a ap 16 2 16 x) (holdsB : Holds b bp 16 16 2 y) {k : ℕ} (bound : k < 16) :
    products a b ap bp (group k) = some ⟨x 0 k * y k 0, x 0 k * y k 1, x 1 k * y k 0, x 1 k * y k 1⟩ := by
  have x0 := holdsA 0 k (by decide) bound
  have x1 := holdsA 1 k (by decide) bound
  have y0 := holdsB k 0 bound (by decide)
  have y1 := holdsB k 1 bound (by decide)
  rw [Nat.zero_mul, Nat.add_zero] at x0
  rw [Nat.one_mul, Nat.add_assoc] at x1
  rw [Nat.add_zero, Nat.mul_comm] at y0
  rw [Nat.add_assoc, Nat.mul_comm] at y1
  simp only [products, group, x0, x1, y0, y1, Option.bind_eq_bind, Option.bind_some]

/-- From group `n` on. -/
theorem foldlM_groups (holdsA : Holds a ap 16 2 16 x) (holdsB : Holds b bp 16 16 2 y) {n : ℕ} (bound : n ≤ 16) :
    ((List.range' n (16 - n)).map group).foldlM (addProducts a b ap bp) (sums x y z n) = some (sums x y z 16) := by
  rw [List.foldlM_map]
  refine forLoop_eq (sums x y z) bound rfl fun k _ upper => ?_
  simp only [addProducts, products_group holdsA holdsB upper, Option.bind_eq_bind, Option.bind_some, sums, addProduct,
    sum_range_succ, add_assoc]

/-- What the statements of a kernel before the groups are for. -/
def Starts (a b : Buffer ℕ D) (add : Bool) (start : Buffer ℕ D → (ap bp rp : ℕ) → Option (Sums D))
    (groups : List Group) : Prop :=
  ∀ {r : Buffer ℕ D} {ap bp rp : ℕ} {x y z : ℕ → ℕ → D}, Holds a ap 16 2 16 x → Holds b bp 16 16 2 y →
    Found add r rp 16 2 2 z →
    (start r ap bp rp).bind (groups.foldlM (addProducts a b ap bp)) = some (sums x y z 16)

theorem multAddBlock_starts : Starts a b true (fun r _ _ rp => loadSums r rp) (firstGroup :: otherGroups) := by
  intro r ap bp rp x y z holdsA holdsB found
  have holds : Holds r rp 16 2 2 z := found
  have z00 := holds 0 0 (by decide) (by decide)
  have z01 := holds 0 1 (by decide) (by decide)
  have z10 := holds 1 0 (by decide) (by decide)
  have z11 := holds 1 1 (by decide) (by decide)
  have loaded : loadSums r rp = some (sums x y z 0) := by
    simp only [Nat.zero_mul, Nat.one_mul, Nat.add_zero] at z00 z01 z10 z11
    simp only [loadSums, z00, z01, z10, z11, Option.bind_eq_bind, Option.bind_some, sums, addProduct, sum_range_zero,
      add_zero]
  dsimp only
  rw [loaded, Option.bind_some]
  exact foldlM_groups holdsA holdsB (Nat.zero_le 16)

theorem multiplyBlock_starts : Starts a b false (fun _ ap bp _ => products a b ap bp firstGroup) otherGroups := by
  intro r ap bp rp x y z holdsA holdsB found
  have zero : ∀ i k, i < 2 → k < 2 → z i k = 0 := found
  have first : products a b ap bp firstGroup = some (sums x y z 1) := by
    apply (products_group holdsA holdsB (by decide)).trans
    simp only [sums, addProduct, sum_range_one, zero 0 0 (by decide) (by decide), zero 0 1 (by decide) (by decide),
      zero 1 0 (by decide) (by decide), zero 1 1 (by decide) (by decide), zero_add]
  dsimp only
  rw [first, Option.bind_some, otherGroups_eq]
  exact foldlM_groups holdsA holdsB (by decide)

omit [Semiring D] in
/-- Two entries of a row. -/
theorem storePair_spec (room : Room r rp 16 1 2) (v : ℕ → D) : ∃ r₁ r₂, r.write rp (v 0) = some r₁ ∧
    r₁.write (rp + 1) (v 1) = some r₂ ∧ Leaves 16 rp 1 2 (fun _ => v) r r₂ := by
  have inside : r.inside rp = true := room rp ⟨0, 0, by decide, by decide, rfl⟩
  have inside' : r.inside (rp + 1) = true := room (rp + 1) ⟨0, 1, by decide, by decide, rfl⟩
  obtain ⟨r₁, run₁, -, changes₁⟩ := write_spec inside (v 0)
  rw [← changes₁.inside] at inside'
  obtain ⟨r₂, run₂, -, changes₂⟩ := write_spec inside' (v 1)
  have first : Leaves 16 rp 1 1 (fun _ _ => v 0) r r₁ := leaves_entry (write_returns run₁).1 changes₁
  have second : Leaves 16 (rp + 1) 1 1 (fun _ _ => v 1) r₁ r₂ := leaves_entry (write_returns run₂).1 changes₂
  refine ⟨r₁, r₂, run₁, run₂, first.columns (by decide) (by decide) second ?_ ?_⟩
  · intro i k _ hk
    rw [Nat.lt_one_iff.mp hk]
  · intro i k _ hk
    rw [show k = 0 by omega]

omit [Semiring D] in
theorem storeSums_spec (room : Room r rp 16 2 2) (v : ℕ → ℕ → D) :
    ∃ r', storeSums r rp ⟨v 0 0, v 0 1, v 1 0, v 1 1⟩ = some r' ∧ Leaves 16 rp 2 2 v r r' := by
  have upper : Room r rp 16 1 2 := fun k member => room k (window_mono (by decide) le_rfl member)
  have lower : Room r (rp + 1 * 16) 16 (2 - 1) 2 := fun k member => room k (window_below (by decide) member)
  obtain ⟨r₁, r₂, run₁, run₂, first⟩ := storePair_spec upper (v 0)
  obtain ⟨r₃, r₄, run₃, run₄, second⟩ := storePair_spec (lower.changes first.changes) (v 1)
  refine ⟨r₄, ?_, first.rows (by decide) (by decide) second ?_ ?_⟩
  · simp only [storeSums, run₁, run₂, Option.bind_eq_bind, Option.bind_some]
    rw [show rp + 16 = rp + 1 * 16 from rfl, run₃, Option.bind_some]
    exact run₄
  · intro i k hi _
    rw [Nat.lt_one_iff.mp hi]
  · intro i k hi _
    rw [show i = 0 by omega]

/-! ### Loops -/

section Loops
variable {start : Buffer ℕ D → (ap bp rp : ℕ) → Option (Sums D)} {groups : List Group} {c A B R : ℕ}

omit [Semiring D] in
theorem ofNat_add_cost (n k : ℕ) : BitVec.ofNat 64 (n * k) + BitVec.ofNat 64 k = BitVec.ofNat 64 ((n + 1) * k) := by
  rw [← BitVec.ofNat_add, Nat.add_mul, Nat.one_mul]

theorem tile_spec (starts : Starts a b add start groups) {i j n : ℕ} (holdsA : Holds a (256 * A + i * 16) 16 2 16 x)
    (holdsB : Holds b (256 * B + j) 16 16 2 y) (room : Room r (256 * R + j + i * 16) 16 2 2)
    (found : Found add r (256 * R + j + i * 16) 16 2 2 z) :
    ∃ r', tile a b start groups (BitVec.ofNat 64 c) A B R j (r, BitVec.ofNat 64 (n * c)) i =
      some (r', BitVec.ofNat 64 ((n + 1) * c)) ∧ Leaves 16 (256 * R + j + i * 16) 2 2 (addProduct 16 x y z) r r' := by
  obtain ⟨r', run, leaves⟩ := storeSums_spec room (addProduct 16 x y z)
  refine ⟨r', ?_, leaves⟩
  have summed := starts holdsA holdsB found
  rw [tile, ← ofNat_add_cost]
  simp only [Option.bind_eq_bind, ← Nat.add_assoc]
  rw [← Option.bind_assoc, summed, Option.bind_some]
  rw [show storeSums r _ (sums x y z 16) = some r' from run, Option.bind_some]

/-- Two columns. -/
theorem strip_spec (starts : Starts a b add start groups) {j n : ℕ} (holdsA : Holds a (256 * A) 16 16 16 x)
    (holdsB : Holds b (256 * B + j) 16 16 2 y) (room : Room r (256 * R + j) 16 16 2)
    (found : Found add r (256 * R + j) 16 16 2 z) :
    ∃ state, forLoop 0 8 (fun state row => tile a b start groups (BitVec.ofNat 64 c) A B R j state (2 * row))
        (r, BitVec.ofNat 64 (n * c)) = some state ∧
      Leaves 16 (256 * R + j) 16 2 (addProduct 16 x y z) r state.1 ∧ state.2 = BitVec.ofNat 64 ((n + 8) * c) := by
  refine forLoop_invariant (fun row (state : Buffer ℕ D × BitVec 64) =>
    Leaves 16 (256 * R + j) (2 * row) 2 (addProduct 16 x y z) r state.1 ∧
      state.2 = BitVec.ofNat 64 ((n + row) * c)) (Nat.zero_le 8) ⟨.refl 16 _ 2 _ r, rfl⟩ ?_
  rintro row ⟨now, flops⟩ _ bound ⟨above, rfl⟩
  have rows : Holds a (256 * A + 2 * row * 16) 16 2 16 (part x (2 * row) 0) :=
    holdsA.part (show 2 * row + 2 ≤ 16 by omega) (show 0 + 16 ≤ 16 by decide)
  have roomBelow : Room r (256 * R + j + 2 * row * 16) 16 2 2 :=
    room.part (show 2 * row + 2 ≤ 16 by omega) (show 0 + 2 ≤ 2 by decide)
  have rest := (found.below (by omega) (by decide) above.changes).above (show 2 ≤ 16 - 2 * row by omega)
  obtain ⟨next, run, leaves⟩ := tile_spec (c := c) (n := n + row) starts rows holdsB (roomBelow.changes above.changes)
    rest
  refine ⟨_, run, ?_, rfl⟩
  have here : Leaves 16 (256 * R + j + 2 * row * 16) (2 * (row + 1) - 2 * row) 2
      (addProduct 16 (part x (2 * row) 0) y (part z (2 * row) 0)) now next := by
    rw [show 2 * (row + 1) - 2 * row = 2 by omega]
    exact leaves
  refine above.rows (by decide) (by omega) here (fun _ _ _ _ => rfl) fun i k _ _ => ?_
  simp only [addProduct, part, Nat.zero_add]

theorem tiles_spec (starts : Starts a b add start groups) (holdsA : Holds a (256 * A) 16 16 16 x)
    (holdsB : Holds b (256 * B) 16 16 16 y) (room : Room r (256 * R) 16 16 16)
    (found : Found add r (256 * R) 16 16 16 z) :
    ∃ r', tiles a b start groups (BitVec.ofNat 64 c) A B R r = some (r', BitVec.ofNat 64 (64 * c)) ∧
      Leaves 16 (256 * R) 16 16 (addProduct 16 x y z) r r' := by
  suffices loops : ∃ state, tiles a b start groups (BitVec.ofNat 64 c) A B R r = some state ∧
      Leaves 16 (256 * R) 16 16 (addProduct 16 x y z) r state.1 ∧ state.2 = BitVec.ofNat 64 (8 * 8 * c) by
    obtain ⟨⟨r', flops⟩, run, leaves, rfl⟩ := loops
    exact ⟨r', run, leaves⟩
  refine forLoop_invariant (fun column (state : Buffer ℕ D × BitVec 64) =>
    Leaves 16 (256 * R) 16 (2 * column) (addProduct 16 x y z) r state.1 ∧ state.2 = BitVec.ofNat 64 (8 * column * c))
    (Nat.zero_le 8) ⟨⟨.refl _ r, fun _ k _ column => absurd column (Nat.not_lt_zero k)⟩, ?_⟩ ?_
  · rw [Nat.mul_zero, Nat.zero_mul]
    rfl
  rintro column ⟨now, flops⟩ _ bound ⟨left, rfl⟩
  have columns := holdsB.part (show 0 + 16 ≤ 16 by decide) (show 2 * column + 2 ≤ 16 by omega)
  have roomRight := room.part (show 0 + 16 ≤ 16 by decide) (show 2 * column + 2 ≤ 16 by omega)
  rw [Nat.zero_mul, Nat.add_zero] at columns roomRight
  have rest := (found.right (by omega) (by decide) left.changes).left (show 2 ≤ 16 - 2 * column by omega)
  obtain ⟨state, run, leaves, total⟩ := strip_spec (c := c) (n := 8 * column) starts holdsA columns
    (roomRight.changes left.changes) rest
  refine ⟨state, run, ?_, total⟩
  have here : Leaves 16 (256 * R + 2 * column) 16 (2 * (column + 1) - 2 * column)
      (addProduct 16 x (part y 0 (2 * column)) (part z 0 (2 * column))) now state.1 := by
    rw [show 2 * (column + 1) - 2 * column = 2 by omega]
    exact leaves
  refine left.columns (by omega) (by omega) here (fun _ _ _ _ => rfl) fun i k _ _ => ?_
  simp only [addProduct, part, Nat.zero_add]

end Loops

/-! ### Kernels -/

/-- The kernel that adds to what is there, or the other one. -/
def kernel (a b : Buffer ℕ D) (add : Bool) (A B R : ℕ) (r : Buffer ℕ D) : Option (Buffer ℕ D × BitVec 64) :=
  if add then multAddBlock a b A B R r else multiplyBlock a b A B R r

/-- What a kernel returns. -/
def kernelFlops (add : Bool) : ℕ := if add then 8192 else 7936

theorem kernel_entries {A B R : ℕ} (holdsA : Holds a (256 * A) 16 16 16 x) (holdsB : Holds b (256 * B) 16 16 16 y)
    (room : Room r (256 * R) 16 16 16) (found : Found add r (256 * R) 16 16 16 z) :
    ∃ r', kernel a b add A B R r = some (r', BitVec.ofNat 64 (kernelFlops add)) ∧
      Leaves 16 (256 * R) 16 16 (addProduct 16 x y z) r r' := by
  cases add with
  | true => exact tiles_spec (c := 128) multAddBlock_starts holdsA holdsB room found
  | false => exact tiles_spec (c := 124) multiplyBlock_starts holdsA holdsB room found

/-- A kernel multiplies two matrices. -/
theorem kernel_spec {A B R : ℕ} {X Y Z : Matrix (Fin 16) (Fin 16) D} (readA : (blocked 16 a).read A = some X)
    (readB : (blocked 16 b).read B = some Y) (inside : (blocked 16 r).inside R = true)
    (found : if add then (blocked 16 r).read R = some Z else Z = 0) :
    ∃ r', kernel a b add A B R r = some (r', BitVec.ofNat 64 (kernelFlops add)) ∧
      Changes (elements 16 {R}) r r' ∧ (blocked 16 r').read R = some (Z + X * Y) := by
  have room : Room r (256 * R) 16 16 16 := by
    rintro _ ⟨i, j, hi, hj, rfl⟩
    exact inside_blocked.mp inside ⟨i, hi⟩ ⟨j, hj⟩
  have entries : Found add r (256 * R) 16 16 16 (fun s t => Z (Fin.ofNat 16 s) (Fin.ofNat 16 t)) := by
    cases add with
    | true => exact holds_block.mpr found
    | false =>
      have zero : Z = 0 := found
      intro i k _ _
      simp only [zero, Matrix.zero_apply]
  obtain ⟨r', run, leaves⟩ := kernel_entries (holds_block.mpr readA) (holds_block.mpr readB) room entries
  refine ⟨r', run, leaves.changes.mono ?_, holds_block.mp (leaves.holds.congr fun i k _ _ => ?_)⟩
  · rintro _ ⟨i, j, hi, hj, rfl⟩
    exact element_div R (⟨i, hi⟩ : Fin 16) ⟨j, hj⟩
  · rw [addProduct, Matrix.add_apply, Matrix.mul_apply, Finset.sum_range]
    simp only [Fin.ofNat_val_eq_self]

end CilkArtifact.Rectmul
