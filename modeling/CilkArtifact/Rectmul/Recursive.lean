import CilkArtifact.Rectmul.Block

/-! `multiply_matrix` of `rectmul.c`. The matrices `A` and `B` are in arrays of their own. -/
namespace CilkArtifact.Rectmul
open Buffer Finset
variable {D : Type} [Semiring D]

section Definitions

/-- The arguments of `multiply_matrix`. -/
structure Call where
  A : ℕ
  oa : ℕ
  B : ℕ
  ob : ℕ
  x : ℕ
  y : ℕ
  z : ℕ
  R : ℕ
  orr : ℕ
  add : Bool

inductive Branch where
  | block
  | halves (first second : Call)

def branch (c : Call) : Branch :=
  if c.x + c.y + c.z = 3 then .block
  else if c.x ≥ c.y ∧ c.x ≥ c.z then
    .halves { c with x := c.x / 2 }
      { c with A := c.A + c.x / 2 * c.oa, x := (c.x + 1) / 2, R := c.R + c.x / 2 * c.orr }
  else if c.y > c.x ∧ c.y > c.z then
    .halves { c with A := c.A + c.y / 2, B := c.B + c.y / 2 * c.ob, y := (c.y + 1) / 2 }
      { c with y := c.y / 2, add := true }
  else
    .halves { c with z := c.z / 2 } { c with B := c.B + c.z / 2, z := (c.z + 1) / 2, R := c.R + c.z / 2 }

structure State (D : Type) where
  array : Buffer ℕ D
  /-- The result block of every kernel called so far, and whether the kernel adds to it. The program keeps no such
  list. -/
  calls : List (ℕ × Bool)

def callKernel (a b : Buffer ℕ D) (c : Call) (s : State D) : Option (State D × BitVec 64) := do
  let (array, tmp) ← kernel a b c.add c.A c.B c.R s.array
  some (⟨array, s.calls ++ [(c.R, c.add)]⟩, tmp)

def Call.multiplyMatrix (a b : Buffer ℕ D) (c : Call) (s : State D) : Option (State D × BitVec 64) :=
  match branch c with
  | .block => callKernel a b c s
  | .halves first second => do
    let (s, tmp1) ← first |>.multiplyMatrix a b s
    let (s, tmp2) ← second |>.multiplyMatrix a b s
    some (s, tmp1 + tmp2)
partial_fixpoint

export Call (multiplyMatrix)

/-- A call is made in the course of another one. -/
inductive Reaches : Call → Call → Prop
  | start (c : Call) : Reaches c c
  | first {c first second d : Call} : branch c = .halves first second → Reaches first d → Reaches c d
  | second {c first second d : Call} : branch c = .halves first second → Reaches second d → Reaches c d

end Definitions

/-! ### Dimensions -/

section Halves
variable (c : Call)

def upperHalf : Call := { c with x := c.x / 2 }

def lowerHalf : Call := { c with A := c.A + c.x / 2 * c.oa, x := c.x - c.x / 2, R := c.R + c.x / 2 * c.orr }

def firstTerms : Call := { c with y := c.y / 2, add := true }

def secondTerms : Call := { c with A := c.A + c.y / 2, B := c.B + c.y / 2 * c.ob, y := c.y - c.y / 2 }

def leftHalf : Call := { c with z := c.z / 2 }

def rightHalf : Call := { c with B := c.B + c.z / 2, z := c.z - c.z / 2, R := c.R + c.z / 2 }

end Halves

structure Positive (c : Call) : Prop where
  rows : 1 ≤ c.x
  inner : 1 ≤ c.y
  columns : 1 ≤ c.z

/-- Whichever dimension is halved, it is at least two. -/
theorem branch_cases {c : Call} (positive : Positive c) :
    c.x + c.y + c.z = 3 ∧ branch c = .block ∨ 2 ≤ c.x ∧ branch c = .halves (upperHalf c) (lowerHalf c) ∨
      2 ≤ c.y ∧ branch c = .halves (secondTerms c) (firstTerms c) ∨
      2 ≤ c.z ∧ branch c = .halves (leftHalf c) (rightHalf c) := by
  obtain ⟨hx, hy, hz⟩ := positive
  have rest (n : ℕ) : (n + 1) / 2 = n - n / 2 := by omega
  by_cases small : c.x + c.y + c.z = 3
  · exact .inl ⟨small, if_pos small⟩
  refine .inr ?_
  rw [branch, if_neg small, rest, rest, rest]
  by_cases tall : c.x ≥ c.y ∧ c.x ≥ c.z
  · exact .inl ⟨by omega, if_pos tall⟩
  refine .inr ?_
  rw [if_neg tall]
  by_cases deep : c.y > c.x ∧ c.y > c.z
  · exact .inl ⟨by omega, if_pos deep⟩
  · exact .inr ⟨by omega, if_neg deep⟩

theorem Positive.halves {c first second : Call} (positive : Positive c) (made : branch c = .halves first second) :
    (Positive first ∧ first.x + first.y + first.z < c.x + c.y + c.z) ∧
      Positive second ∧ second.x + second.y + second.z < c.x + c.y + c.z := by
  have hx := positive.rows
  have hy := positive.inner
  have hz := positive.columns
  obtain ⟨-, branches⟩ | ⟨two, branches⟩ | ⟨two, branches⟩ | ⟨two, branches⟩ := branch_cases positive
  · cases branches.symm.trans made
  · cases branches.symm.trans made
    refine ⟨⟨⟨?_, hy, hz⟩, ?_⟩, ⟨?_, hy, hz⟩, ?_⟩
    all_goals
      simp only [upperHalf, lowerHalf]
      omega
  · cases branches.symm.trans made
    refine ⟨⟨⟨hx, ?_, hz⟩, ?_⟩, ⟨hx, ?_, hz⟩, ?_⟩
    all_goals
      simp only [firstTerms, secondTerms]
      omega
  · cases branches.symm.trans made
    refine ⟨⟨⟨hx, hy, ?_⟩, ?_⟩, ⟨hx, hy, ?_⟩, ?_⟩
    all_goals
      simp only [leftHalf, rightHalf]
      omega

theorem Reaches.positive {c d : Call} (reached : Reaches c d) (positive : Positive c) : Positive d := by
  induction reached with
  | start => exact positive
  | first made _ ih => exact ih (positive.halves made).1.1
  | second made _ ih => exact ih (positive.halves made).2.1

/-! ### Kernel calls -/

/-- Which of the calls for a block add to it, in order. -/
def uses (block : ℕ) (calls : List (ℕ × Bool)) : List Bool := (calls.filter (·.1 = block)).map (·.2)

theorem uses_append (block : ℕ) (calls calls' : List (ℕ × Bool)) :
    uses block (calls ++ calls') = uses block calls ++ uses block calls' := by
  rw [uses, List.filter_append, List.map_append, uses, uses]

/-- Every block of the result is used once for every block of a row of `A`. All uses but the first add to it. -/
structure Uses (c : Call) (calls : List (ℕ × Bool)) : Prop where
  inside : ∀ block ∈ window c.R c.orr c.x c.z, uses block calls = c.add :: List.replicate (c.y - 1) true
  outside : ∀ block ∉ window c.R c.orr c.x c.z, uses block calls = []

/-- Two calls for different blocks. -/
theorem Uses.apart {c first second : Call} {calls calls' : List (ℕ × Bool)} (used : Uses first calls)
    (used' : Uses second calls') (add : first.add = c.add) (add' : second.add = c.add) (inner : first.y = c.y)
    (inner' : second.y = c.y)
    (parts : ∀ block, block ∈ window c.R c.orr c.x c.z ↔
      block ∈ window first.R first.orr first.x first.z ∨ block ∈ window second.R second.orr second.x second.z)
    (apart : ∀ block ∈ window first.R first.orr first.x first.z,
      block ∉ window second.R second.orr second.x second.z) : Uses c (calls ++ calls') := by
  constructor
  · intro block member
    rw [uses_append]
    by_cases before : block ∈ window first.R first.orr first.x first.z
    · rw [used.inside block before, used'.outside block (apart block before), List.append_nil, add, inner]
    · have after := ((parts block).mp member).resolve_left before
      rw [used.outside block before, used'.inside block after, List.nil_append, add', inner']
  · intro block outside
    rw [parts, not_or] at outside
    rw [uses_append, used.outside block outside.1, used'.outside block outside.2, List.nil_append]

/-- Two calls for the same blocks. -/
theorem Uses.inner {c : Call} {y₁ y₂ A B : ℕ} {calls calls' : List (ℕ × Bool)} (positive : 1 ≤ y₁) (positive' : 1 ≤ y₂)
    (total : y₁ + y₂ = c.y) (used : Uses { c with A := A, B := B, y := y₁ } calls)
    (used' : Uses { c with y := y₂, add := true } calls') : Uses c (calls ++ calls') := by
  constructor
  · intro block member
    rw [uses_append, used.inside block member, used'.inside block member]
    dsimp only
    rw [← List.replicate_succ, List.cons_append, List.replicate_append_replicate]
    congr 2
    omega
  · intro block outside
    rw [uses_append, used.outside block outside, used'.outside block outside, List.nil_append]

/-! ### Results -/

/-- What a call returns if there is no overflow. -/
def flops (c : Call) : ℕ := c.x * c.z * (8192 * c.y - bif c.add then 0 else 256)

theorem toInt_ofNat_of_lt {n : ℕ} (fits : n < 2 ^ 63) : (BitVec.ofNat 64 n).toInt = n := by
  have small : n % 2 ^ 64 = n := Nat.mod_eq_of_lt (by omega)
  rw [BitVec.toInt_eq_toNat_of_lt, BitVec.toNat_ofNat, small]
  rw [BitVec.toNat_ofNat, small]
  omega

/-- A call leaves the product in the result, or adds it. -/
def Correct (a b : Buffer ℕ D) (c : Call) : Prop :=
  ∀ ⦃s : State D⦄ ⦃X Y Z : ℕ → ℕ → Matrix (Fin 16) (Fin 16) D⦄, c.z ≤ c.orr →
    Holds (blocked 16 a) c.A c.oa c.x c.y X → Holds (blocked 16 b) c.B c.ob c.y c.z Y →
    Room (blocked 16 s.array) c.R c.orr c.x c.z → Found c.add (blocked 16 s.array) c.R c.orr c.x c.z Z →
    ∃ s' calls, multiplyMatrix a b c s = some (s', BitVec.ofNat 64 (flops c)) ∧
      LeavesBlocks 16 c.orr c.R c.x c.z (addProduct c.y X Y Z) s.array s'.array ∧
      s'.calls = s.calls ++ calls ∧ Uses c calls

variable {a b : Buffer ℕ D} {c : Call}

theorem multiplyMatrix_block (positive : Positive c) (small : c.x + c.y + c.z = 3) : Correct a b c := by
  obtain ⟨hx, hy, hz⟩ : c.x = 1 ∧ c.y = 1 ∧ c.z = 1 := by
    have := positive.rows
    have := positive.inner
    have := positive.columns
    omega
  intro s X Y Z wide holdsA holdsB room found
  rw [hx, hz] at room found
  have readA := holdsA 0 0 (by omega) (by omega)
  have readB := holdsB 0 0 (by omega) (by omega)
  have first := found.entry Nat.one_pos Nat.one_pos rfl
  have inside := room _ (mem_window Nat.one_pos Nat.one_pos)
  simp only [Nat.zero_mul, Nat.add_zero] at readA readB first inside
  obtain ⟨r', run, changes, filled⟩ := kernel_spec readA readB inside first
  have count : flops c = kernelFlops c.add := by
    rw [flops, kernelFlops, hx, hy, hz]
    cases c.add <;> rfl
  have member : c.R ∈ window c.R c.orr 1 1 := ⟨0, 0, Nat.one_pos, Nat.one_pos, by rw [Nat.zero_mul, Nat.add_zero]⟩
  have single : ∀ {k}, k ∈ window c.R c.orr 1 1 → k = c.R := by
    rintro _ ⟨i, k, hi, hk, rfl⟩
    rw [Nat.lt_one_iff.mp hi, Nat.lt_one_iff.mp hk, Nat.zero_mul, Nat.add_zero]
  refine ⟨⟨r', s.calls ++ [(c.R, c.add)]⟩, [(c.R, c.add)], ?_, ⟨changes.mono (elements_mono ?_), ?_⟩, rfl, ?_, ?_⟩
  · rw [multiplyMatrix, branch, if_pos small]
    simp only [callKernel, run, Option.bind_eq_bind, Option.bind_some, count]
  · rintro _ rfl
    rwa [hx, hz]
  · rw [hx, hz, hy]
    intro i k hi hk
    obtain rfl := Nat.lt_one_iff.mp hi
    obtain rfl := Nat.lt_one_iff.mp hk
    rw [single (mem_window Nat.one_pos Nat.one_pos), filled, addProduct, sum_range_one]
  · rw [hx, hz, hy]
    intro block used
    rw [single used]
    simp [uses]
  · rw [hx, hz]
    intro block outside
    have other : c.R ≠ block := fun same => outside (same ▸ member)
    simp [uses, other]

/-- Both parts of a call have been made. -/
theorem multiplyMatrix_halves {first second : Call} {s s₁ s₂ : State D} (made : branch c = .halves first second)
    (run₁ : multiplyMatrix a b first s = some (s₁, BitVec.ofNat 64 (flops first)))
    (run₂ : multiplyMatrix a b second s₁ = some (s₂, BitVec.ofNat 64 (flops second)))
    (total : flops first + flops second = flops c) :
    multiplyMatrix a b c s = some (s₂, BitVec.ofNat 64 (flops c)) := by
  rw [multiplyMatrix, made]
  simp only [run₁, run₂, Option.bind_eq_bind, Option.bind_some, ← BitVec.ofNat_add, total]

theorem multiplyMatrix_rows (made : branch c = .halves (upperHalf c) (lowerHalf c)) (upper : Correct a b (upperHalf c))
    (lower : Correct a b (lowerHalf c)) : Correct a b c := by
  intro s X Y Z wide holdsA holdsB room found
  have split : c.x / 2 ≤ c.x := Nat.div_le_self _ _
  obtain ⟨s₁, calls₁, run₁, first, log₁, uses₁⟩ := upper wide (fun i j hi hj => holdsA i j (hi.trans_le split) hj) holdsB
    (fun k member => room k (window_mono split le_rfl member)) (found.above split)
  have below : Holds (blocked 16 a) (c.A + c.x / 2 * c.oa) c.oa (c.x - c.x / 2) c.y (part X (c.x / 2) 0) :=
    holdsA.part (show c.x / 2 + (c.x - c.x / 2) ≤ c.x by omega) (show 0 + c.y ≤ c.y by omega)
  have roomBelow : Room (blocked 16 s.array) (c.R + c.x / 2 * c.orr) c.orr (c.x - c.x / 2) c.z :=
    fun k member => room k (window_below split member)
  obtain ⟨s₂, calls₂, run₂, second, log₂, uses₂⟩ := lower wide below holdsB
    (roomBelow.changes first.leaves.changes) (found.below split wide first.leaves.changes)
  refine ⟨s₂, calls₁ ++ calls₂, multiplyMatrix_halves made run₁ run₂ ?_,
    first.rows wide split second (fun _ _ _ _ => rfl) fun i k _ _ => ?_, ?_,
    uses₁.apart uses₂ rfl rfl rfl rfl (fun block => mem_window_rows split)
      fun block => below_apart c.R c.z (c.x / 2) c.x block wide⟩
  · simp only [flops, upperHalf, lowerHalf, ← Nat.add_mul, Nat.add_sub_of_le split]
  · simp only [addProduct, part, Nat.zero_add, lowerHalf]
  · rw [log₂, log₁, List.append_assoc]

/-- The second half of the inner products is computed first, and the first half is added. -/
theorem multiplyMatrix_inner (made : branch c = .halves (secondTerms c) (firstTerms c)) (positive : 1 ≤ c.y / 2)
    (half : Correct a b (secondTerms c)) (rest : Correct a b (firstTerms c)) : Correct a b c := by
  intro s X Y Z wide holdsA holdsB room found
  have split : c.y / 2 ≤ c.y := Nat.div_le_self _ _
  have right := holdsA.part (show 0 + c.x ≤ c.x by omega) (show c.y / 2 + (c.y - c.y / 2) ≤ c.y by omega)
  rw [Nat.zero_mul, Nat.add_zero] at right
  have below : Holds (blocked 16 b) (c.B + c.y / 2 * c.ob) c.ob (c.y - c.y / 2) c.z (part Y (c.y / 2) 0) :=
    holdsB.part (show c.y / 2 + (c.y - c.y / 2) ≤ c.y by omega) (show 0 + c.z ≤ c.z by omega)
  obtain ⟨s₁, calls₁, run₁, first, log₁, uses₁⟩ := half wide right below room found
  obtain ⟨s₂, calls₂, run₂, second, log₂, uses₂⟩ := rest wide (fun i j hi hj => holdsA i j hi (hj.trans_le split))
    (fun j k hj hk => holdsB j k (hj.trans_le split) hk) (room.changes first.leaves.changes) first.holds
  refine ⟨s₂, calls₁ ++ calls₂, multiplyMatrix_halves made run₁ run₂ ?_,
    ⟨first.changes.trans second.changes, second.holds.congr fun i k _ _ => ?_⟩, ?_,
    uses₁.inner (show 1 ≤ c.y - c.y / 2 by omega) positive (show c.y - c.y / 2 + c.y / 2 = c.y by omega) uses₂⟩
  · have fewer : (bif c.add then 0 else 256) ≤ 256 := by cases c.add <;> decide
    simp only [flops, firstTerms, secondTerms, cond_true, Nat.sub_zero, ← Nat.mul_add]
    congr 1
    omega
  · exact addProduct_inner_second split i k
  · rw [log₂, log₁, List.append_assoc]

theorem multiplyMatrix_columns (made : branch c = .halves (leftHalf c) (rightHalf c)) (left : Correct a b (leftHalf c))
    (right : Correct a b (rightHalf c)) : Correct a b c := by
  intro s X Y Z wide holdsA holdsB room found
  have split : c.z / 2 ≤ c.z := Nat.div_le_self _ _
  obtain ⟨s₁, calls₁, run₁, first, log₁, uses₁⟩ := left (split.trans wide) holdsA
    (fun j k hj hk => holdsB j k hj (hk.trans_le split)) (fun k member => room k (window_mono le_rfl split member))
    (found.left split)
  have beside := holdsB.part (show 0 + c.y ≤ c.y by omega) (show c.z / 2 + (c.z - c.z / 2) ≤ c.z by omega)
  rw [Nat.zero_mul, Nat.add_zero] at beside
  have roomRight : Room (blocked 16 s.array) (c.R + c.z / 2) c.orr c.x (c.z - c.z / 2) :=
    fun k member => room k (window_right split member)
  obtain ⟨s₂, calls₂, run₂, second, log₂, uses₂⟩ := right ((Nat.sub_le _ _).trans wide) holdsA beside
    (roomRight.changes first.leaves.changes) (found.right split wide first.leaves.changes)
  refine ⟨s₂, calls₁ ++ calls₂, multiplyMatrix_halves made run₁ run₂ ?_,
    first.columns wide split second (fun _ _ _ _ => rfl) fun i k _ _ => ?_, ?_,
    uses₁.apart uses₂ rfl rfl rfl rfl (fun block => mem_window_columns split)
      fun block => right_apart c.R c.z (c.z / 2) c.x block wide split⟩
  · simp only [flops, leftHalf, rightHalf, ← Nat.add_mul, ← Nat.mul_add, Nat.add_sub_of_le split]
  · simp only [addProduct, part, Nat.zero_add, rightHalf]
  · rw [log₂, log₁, List.append_assoc]

theorem multiplyMatrix_spec (size : ℕ) : ∀ {c : Call}, c.x + c.y + c.z = size → Positive c → Correct a b c := by
  induction size using Nat.strongRecOn with
  | ind size ih =>
    intro c total positive
    have parts {first second : Call} (made : branch c = .halves first second) : Correct a b first ∧ Correct a b second := by
      obtain ⟨⟨positive₁, smaller₁⟩, positive₂, smaller₂⟩ := positive.halves made
      exact ⟨ih _ (total ▸ smaller₁) rfl positive₁, ih _ (total ▸ smaller₂) rfl positive₂⟩
    obtain ⟨small, -⟩ | ⟨-, made⟩ | ⟨two, made⟩ | ⟨-, made⟩ := branch_cases positive
    · exact multiplyMatrix_block positive small
    · exact multiplyMatrix_rows made (parts made).1 (parts made).2
    · exact multiplyMatrix_inner made (by omega) (parts made).1 (parts made).2
    · exact multiplyMatrix_columns made (parts made).1 (parts made).2

/-! ### Elements -/

/-- The cell of an element of the matrix at block `P`, which has `o` blocks in a row. -/
def element (P o I J : ℕ) : ℕ := 256 * (P + I / 16 * o + J / 16) + I % 16 * 16 + J % 16

/-- The elements of `x` rows of `z` blocks. -/
def cells (P o x z : ℕ) : Set ℕ := {k | ∃ I J, I < 16 * x ∧ J < 16 * z ∧ k = element P o I J}

def HoldsElements (array : Buffer ℕ D) (P o x z : ℕ) (f : ℕ → ℕ → D) : Prop :=
  ∀ I J, I < 16 * x → J < 16 * z → array.read (element P o I J) = some (f I J)

/-- The matrix of a block. -/
def block (f : ℕ → ℕ → D) (i j : ℕ) : Matrix (Fin 16) (Fin 16) D := Matrix.of fun s t => f (16 * i + s) (16 * j + t)

variable {array : Buffer ℕ D} {P o x y z : ℕ} {f g h : ℕ → ℕ → D}

theorem element_block (i j : ℕ) (s t : Fin 16) :
    element P o (16 * i + s) (16 * j + t) = 256 * (P + i * o + j) + s * 16 + t := by
  have row : (16 * i + s) / 16 = i ∧ (16 * i + s) % 16 = s := by omega
  have column : (16 * j + t) / 16 = j ∧ (16 * j + t) % 16 = t := by omega
  rw [element, row.1, row.2, column.1, column.2]

theorem holdsElements_iff : HoldsElements array P o x z f ↔ Holds (blocked 16 array) P o x z (block f) := by
  constructor
  · intro holds i j hi hj
    refine read_blocked.mpr fun s t => ?_
    rw [← element_block, holds _ _ (by omega) (by omega)]
    rfl
  · intro holds I J hI hJ
    have entry := read_blocked.mp (holds (I / 16) (J / 16) (by omega) (by omega)) (Fin.ofNat 16 I) (Fin.ofNat 16 J)
    rw [← element_block] at entry
    simpa [block, Nat.div_add_mod] using entry

/-- Products of matrices of blocks are products of matrices. -/
theorem addProduct_block (y i k : ℕ) :
    addProduct y (block f) (block g) (block h) i k = block (addProduct (16 * y) f g h) i k := by
  induction y with
  | zero =>
    ext s t
    simp [addProduct, block]
  | succ y ih =>
    have terms (s t : Fin 16) : (block f i y * block g y k) s t =
        ∑ j ∈ range 16, f (16 * i + s) (16 * y + j) * g (16 * y + j) (16 * k + t) := by
      rw [Matrix.mul_apply, Finset.sum_range]
      rfl
    rw [addProduct, sum_range_succ, ← add_assoc, ← addProduct, ih]
    ext s t
    rw [Matrix.add_apply, terms]
    simp only [block, Matrix.of_apply, addProduct, Nat.mul_succ, sum_range_add, add_assoc]

theorem elements_subset : elements 16 (window P o x z) ⊆ cells P o x z := by
  rintro k ⟨i, j, hi, hj, same⟩
  refine ⟨16 * i + k % 256 / 16, 16 * j + k % 16, by omega, by omega, ?_⟩
  have entry := element_block (P := P) (o := o) i j ⟨k % 256 / 16, by omega⟩ ⟨k % 16, by omega⟩
  dsimp only at entry same
  rw [entry]
  omega

/-- The program leaves the product in the result, or adds it, and the count that it returns is exact below 2⁶³. No
dimension of a call is zero. All uses of a result block but the first add to it. -/
theorem multiplyMatrix_correct {A oa B ob R orr : ℕ} {s : State D} (rows : 1 ≤ x) (inner : 1 ≤ y) (columns : 1 ≤ z)
    (wide : z ≤ orr) (holdsA : HoldsElements a A oa x y f) (holdsB : HoldsElements b B ob y z g)
    (room : ∀ k ∈ cells R orr x z, s.array.inside k = true) :
    (∃ s' flops calls, multiplyMatrix a b ⟨A, oa, B, ob, x, y, z, R, orr, false⟩ s = some (s', flops) ∧
      HoldsElements s'.array R orr x z (fun I K => ∑ J ∈ range (16 * y), f I J * g J K) ∧
      Changes (cells R orr x z) s.array s'.array ∧ flops = BitVec.ofNat 64 (x * z * (8192 * y - 256)) ∧
      (x * z * (8192 * y - 256) < 2 ^ 63 → flops.toInt = (x * z * (8192 * y - 256) : ℕ)) ∧ s'.calls = s.calls ++ calls ∧
      ∀ i k, i < x → k < z → uses (R + i * orr + k) calls = false :: List.replicate (y - 1) true) ∧
    (∀ h, HoldsElements s.array R orr x z h →
      ∃ s' flops, multiplyMatrix a b ⟨A, oa, B, ob, x, y, z, R, orr, true⟩ s = some (s', flops) ∧
        HoldsElements s'.array R orr x z (fun I K => h I K + ∑ J ∈ range (16 * y), f I J * g J K) ∧
        Changes (cells R orr x z) s.array s'.array) ∧
    ∀ add c, Reaches ⟨A, oa, B, ob, x, y, z, R, orr, add⟩ c → 1 ≤ c.x ∧ 1 ≤ c.y ∧ 1 ≤ c.z := by
  have blocks : Room (blocked 16 s.array) R orr x z := by
    rintro _ ⟨i, k, hi, hk, rfl⟩
    refine inside_blocked.mpr fun s t => room _ ⟨16 * i + s, 16 * k + t, by omega, by omega, ?_⟩
    rw [element_block]
  have positive (add : Bool) : Positive ⟨A, oa, B, ob, x, y, z, R, orr, add⟩ := ⟨rows, inner, columns⟩
  refine ⟨?_, fun h holdsR => ?_, fun add c reached => ?_⟩
  · have zero : Found false (blocked 16 s.array) R orr x z (block fun _ _ => (0 : D)) := fun _ _ _ _ => rfl
    obtain ⟨s', calls, run, leaves, log, used⟩ := multiplyMatrix_spec _ rfl (positive false) wide
      (holdsElements_iff.mp holdsA) (holdsElements_iff.mp holdsB) blocks zero
    refine ⟨s', _, calls, run, ?_, leaves.changes.mono elements_subset, rfl, fun fits => ?_, log,
      fun i k hi hk => used.inside _ (mem_window hi hk)⟩
    · refine holdsElements_iff.mpr (leaves.holds.congr fun i k _ _ => ?_)
      rw [addProduct_block]
      simp only [block, addProduct, zero_add]
    · exact toInt_ofNat_of_lt fits
  · have found : Found true (blocked 16 s.array) R orr x z (block h) := holdsElements_iff.mp holdsR
    obtain ⟨s', calls, run, leaves, log, used⟩ := multiplyMatrix_spec _ rfl (positive true) wide
      (holdsElements_iff.mp holdsA) (holdsElements_iff.mp holdsB) blocks found
    refine ⟨s', _, run, ?_, leaves.changes.mono elements_subset⟩
    exact holdsElements_iff.mpr (leaves.holds.congr fun i k _ _ => addProduct_block y i k)
  · have := reached.positive (positive add)
    exact ⟨this.rows, this.inner, this.columns⟩

theorem multiplyMatrix_correct_six : ∃ s' : State ℤ,
    multiplyMatrix ⟨fun _ => true, fun _ => some 1⟩ ⟨fun _ => true, fun _ => some 2⟩ ⟨0, 3, 0, 2, 2, 3, 2, 0, 2, false⟩
      ⟨raw 1024, []⟩ = some (s', 97280) ∧ s'.array.read (element 0 2 17 20) = some 96 ∧
      uses 3 s'.calls = [false, true, true] := by
  have holdsA : HoldsElements (⟨fun _ => true, fun _ => some 1⟩ : Buffer ℕ ℤ) 0 3 2 3 fun _ _ => 1 := fun _ _ _ _ => rfl
  have holdsB : HoldsElements (⟨fun _ => true, fun _ => some 2⟩ : Buffer ℕ ℤ) 0 2 3 2 fun _ _ => 2 := fun _ _ _ _ => rfl
  have room : ∀ k ∈ cells 0 2 2 2, (raw 1024 : Buffer ℕ ℤ).inside k = true := by
    rintro _ ⟨I, J, hI, hJ, rfl⟩
    apply decide_eq_true
    rw [element]
    omega
  obtain ⟨⟨s', _, calls, run, entries, -, rfl, -, log, used⟩, -⟩ := multiplyMatrix_correct
    (s := (⟨raw 1024, []⟩ : State ℤ)) (by decide) (by decide) (by decide) (by decide) holdsA holdsB room
  refine ⟨s', run, (entries 17 20 (by decide) (by decide)).trans ?_, ?_⟩
  · simp
  · rw [log]
    exact used 1 1 (by decide) (by decide)

end CilkArtifact.Rectmul
