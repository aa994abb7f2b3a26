import CilkArtifact.Cholesky.MatrixFile
import Mathlib.Order.Bounds.Defs
import Mathlib.Logic.Function.Iterate

/-! The random matrices of `cholesky`: ones on the diagonal, entries at random positions below it, and the identity up
to the next power of two. The search for a free position need not come to an end, so `main` is a step function here. -/
namespace CilkArtifact.Cholesky
open Quadtree
variable {K : Type}

def RAND_MAX : ℕ := 2 ^ 31 - 1

/-- The result, and `rand_nxt` after the call. -/
def cilkRand (randNxt : ℕ) : ℕ × ℕ :=
  let next := (randNxt * 1103515245 + 12345) % 2 ^ 64
  (next / 2 ^ 16 % (RAND_MAX + 1), next)

/-- The three loops, and the ways to leave them. -/
inductive Phase where
  | diagonal | offDiagonal | extension | done | aborted | undefined
  deriving DecidableEq

/-- `main` while it makes a matrix, with the calls of `set_matrix` and `get_matrix` up to now. -/
structure Generating (K : Type) where
  phase : Phase
  i : ℕ
  a : Option ℕ
  m : Memory K
  randNxt : ℕ
  calls : List SetCall

section Steps
variable [Zero K]

/-- `A = set_matrix (depth, A, r, c, value)` -/
def Generating.set (depth r c : ℕ) (value : K) (s : Generating K) : Generating K :=
  if depth < BLOCK_DEPTH then { s with phase := .aborted, calls := s.calls ++ [⟨depth, r, c⟩] }
  else
    match setMatrixAt (depth - BLOCK_DEPTH) s.a r c value s.m with
    | none => { s with phase := .aborted, calls := s.calls ++ [⟨depth, r, c⟩] }
    | some (a, m) => { s with a := a, m := m, calls := s.calls ++ [⟨depth, r, c⟩] }

/-- The value of `get_matrix (depth, A, r, c)`, if the assertions hold. -/
def Generating.value (depth r c : ℕ) (s : Generating K) : Option K :=
  if depth < BLOCK_DEPTH then none else getMatrixAt s.m (depth - BLOCK_DEPTH) s.a r c

variable [One K] [DecidableEq K]

/-- From the label `again` on: two random numbers, and a new entry if the position is below the diagonal and free. -/
def tryPosition (size depth : ℕ) (tenth : K) (s : Generating K) : Generating K :=
  let (first, randNxt) := cilkRand s.randNxt
  let (second, randNxt) := cilkRand randNxt
  let r := first % size
  let c := second % size
  let s := { s with randNxt := randNxt }
  if r ≤ c then s
  else
    match s.value depth r c with
    | none => { s with phase := .aborted, calls := s.calls ++ [⟨depth, r, c⟩] }
    | some value =>
      let s := { s with calls := s.calls ++ [⟨depth, r, c⟩] }
      if value ≠ 0 then s else { s.set depth r c tenth with i := s.i + 1 }

/-- One iteration of the loop that `main` is in. -/
def generateStep (size : ℕ) (nonzeros : ℤ) (depth : ℕ) (tenth : K) (s : Generating K) : Generating K :=
  match s.phase with
  | .diagonal =>
    if s.i < size then { s.set depth s.i s.i 1 with i := s.i + 1 } else { s with phase := .offDiagonal, i := 0 }
  | .offDiagonal =>
    if IsInt (nonzeros - size) then
      if s.i < nonzeros - size then tryPosition size depth tenth s else { s with phase := .extension, i := size }
    else { s with phase := .undefined }
  | .extension =>
    match oneShifted depth with
    | none => { s with phase := .undefined }
    | some top => if s.i < top then { s.set depth s.i s.i 1 with i := s.i + 1 } else { s with phase := .done }
  | _ => s

/-- `main` after some iterations. -/
def generated (size : ℕ) (nonzeros : ℤ) (depth : ℕ) (tenth : K) (m : Memory K) (n : ℕ) : Generating K :=
  (generateStep size nonzeros depth tenth)^[n] ⟨.diagonal, 0, none, m, 0, []⟩

/-- The assertions of `set_matrix` and `get_matrix`. -/
def SetCall.Passes (call : SetCall) : Prop :=
  BLOCK_DEPTH ≤ call.depth ∧ 0 ≤ call.r ∧ call.r < 2 ^ call.depth ∧ 0 ≤ call.c ∧ call.c < 2 ^ call.depth

/-- The depth is the logarithm of the size, and no call in any state that is reached fails an assertion. -/
def Generates (size : ℕ) (nonzeros : ℤ) (tenth : K) : Prop :=
  ∃ depth, logarithm size = some depth ∧ IsLeast {k : ℕ | size ≤ 2 ^ k} depth ∧
    ∀ (m : Memory K) (n : ℕ), (generated size nonzeros depth tenth m n).phase ≠ .aborted ∧
      ∀ call ∈ (generated size nonzeros depth tenth m n).calls, call.Passes

end Steps

/-! ### What every iteration keeps -/

/-- All calls have passed, and `A` is a matrix in memory. -/
structure Sound [Zero K] (depth : ℕ) (s : Generating K) : Prop where
  calls : ∀ call ∈ s.calls, call.Passes
  running : s.phase ≠ .aborted
  matrix : ∃ (entries : List (Entry K)) (t : Quadtree K (depth - BLOCK_DEPTH)), EntriesSet entries t s.m ∧ t.pointer = s.a

section Sound
variable [Zero K] {size depth r c : ℕ} {s : Generating K}

/-- The calls of a sound run with a fitting one more. -/
theorem Sound.call (sound : Sound depth s) (deep : BLOCK_DEPTH ≤ depth) (row : r < 2 ^ depth) (col : c < 2 ^ depth) :
    ∀ call ∈ s.calls ++ [⟨depth, r, c⟩], call.Passes := by
  intro call member
  rcases List.mem_append.mp member with old | new
  · exact sound.calls call old
  · obtain rfl := List.mem_singleton.mp new
    have row' : (r : ℤ) < 2 ^ depth := by exact_mod_cast row
    have col' : (c : ℤ) < 2 ^ depth := by exact_mod_cast col
    exact ⟨deep, Int.natCast_nonneg r, row', Int.natCast_nonneg c, col'⟩

theorem Fits.deep (fits : Fits size depth) (large : 2 < size) : BLOCK_DEPTH ≤ depth := by
  rw [← not_lt, fits.block]
  omega

theorem Fits.inside (fits : Fits size depth) (large : 2 < size) (row : r < 2 ^ depth) :
    r < Cholesky.size (depth - BLOCK_DEPTH) := by
  have side := (fits.shiftable_level (by omega)).2
  have same : Cholesky.size (depth - BLOCK_DEPTH) = 2 ^ depth := by exact_mod_cast side
  rw [same]
  exact row

theorem Sound.set (sound : Sound depth s) (fits : Fits size depth) (large : 2 < size) (value : K) (row : r < 2 ^ depth)
    (col : c < 2 ^ depth) : Sound depth (s.set depth r c value) := by
  have deep := fits.deep large
  obtain ⟨entries, t, set, pointer⟩ := sound.matrix
  obtain ⟨t', m', run, after⟩ := setMatrixAt_spec (depth - BLOCK_DEPTH) value (fits.shiftable_level (by omega)).1 set.owned
    (fits.inside large row) (fits.inside large col)
  rw [pointer] at run
  simp only [Generating.set, if_neg (not_lt.mpr deep), run]
  exact ⟨sound.call deep row col, sound.running, entries ++ [⟨r, c, value⟩], t', set.step after, rfl⟩

theorem Sound.value (sound : Sound depth s) (fits : Fits size depth) (large : 2 < size) (row : r < 2 ^ depth)
    (col : c < 2 ^ depth) : ∃ value, s.value depth r c = some value := by
  obtain ⟨entries, t, set, pointer⟩ := sound.matrix
  rw [Generating.value, if_neg (not_lt.mpr (fits.deep large)), ← pointer]
  exact ⟨_, set.getMatrixAt (fits.shiftable_level (by omega)).1 (fits.inside large row) (fits.inside large col)⟩

variable [DecidableEq K] (tenth : K)

theorem Sound.tryPosition (sound : Sound depth s) (fits : Fits size depth) (large : 2 < size) :
    Sound depth (tryPosition size depth tenth s) := by
  have room : size ≤ 2 ^ depth := by exact_mod_cast fits.room
  have below (x : ℕ) : x % size < 2 ^ depth := (Nat.mod_lt x (by omega)).trans_le room
  have moved (rand : ℕ) : Sound depth { s with randNxt := rand } := ⟨sound.calls, sound.running, sound.matrix⟩
  simp only [Cholesky.tryPosition]
  split
  · exact moved _
  · obtain ⟨value, read⟩ := (moved (cilkRand (cilkRand s.randNxt).2).2).value fits large
      (below (cilkRand s.randNxt).1) (below (cilkRand (cilkRand s.randNxt).2).1)
    have called := (moved (cilkRand (cilkRand s.randNxt).2).2).call (fits.deep large)
      (below (cilkRand s.randNxt).1) (below (cilkRand (cilkRand s.randNxt).2).1)
    simp only [read]
    have asked : Sound depth { s with
        randNxt := (cilkRand (cilkRand s.randNxt).2).2
        calls := s.calls ++
          [⟨depth, ((cilkRand s.randNxt).1 % size : ℕ), ((cilkRand (cilkRand s.randNxt).2).1 % size : ℕ)⟩] } :=
      ⟨called, sound.running, sound.matrix⟩
    split
    · exact asked
    · have after := asked.set fits large tenth (below (cilkRand s.randNxt).1) (below (cilkRand (cilkRand s.randNxt).2).1)
      exact ⟨after.calls, after.running, after.matrix⟩

variable [One K]

/-- One iteration. -/
theorem Sound.step (sound : Sound depth s) (fits : Fits size depth) (large : 2 < size) (nonzeros : ℤ) :
    Sound depth (generateStep size nonzeros depth tenth s) := by
  have room : size ≤ 2 ^ depth := by exact_mod_cast fits.room
  have entered (inside : s.i < 2 ^ depth) : Sound depth { s.set depth s.i s.i 1 with i := s.i + 1 } := by
    have after := sound.set fits large 1 inside inside
    exact ⟨after.calls, after.running, after.matrix⟩
  have left {phase : Phase} (i : ℕ) (goes : phase ≠ .aborted) : Sound depth { s with phase := phase, i := i } :=
    ⟨sound.calls, goes, sound.matrix⟩
  rw [generateStep]
  split
  · split
    · next inside => exact entered (inside.trans_le room)
    · exact left 0 nofun
  · split
    · split
      · exact sound.tryPosition tenth fits large
      · exact left size nofun
    · exact left s.i nofun
  · rw [show oneShifted depth = some (2 ^ depth) from if_pos (Nat.lt_succ_of_le fits.shiftable)]
    dsimp only
    split
    · next inside => exact entered inside
    · exact left s.i nofun
  · exact sound

/-- All iterations. -/
theorem generated_sound (fits : Fits size depth) (large : 2 < size) (nonzeros : ℤ) (m : Memory K) (n : ℕ) :
    Sound depth (generated size nonzeros depth tenth m n) := by
  induction n with
  | zero => exact ⟨nofun, nofun, [], null, entriesSet_nil m, rfl⟩
  | succ n ih =>
    rw [generated, Function.iterate_succ_apply']
    exact ih.step tenth fits large nonzeros

variable {tenth}

/-- The logarithm of a large size overflows. -/
theorem Generates.fits {nonzeros : ℤ} (generates : Generates size nonzeros tenth) : size ≤ 2 ^ 30 := by
  obtain ⟨depth, log, -⟩ := generates
  by_contra large
  rw [logarithm_overflow (by exact_mod_cast not_le.mp large)] at log
  cases log

/-- The first call needs room for a block. -/
theorem Generates.large {nonzeros : ℤ} (generates : Generates size nonzeros tenth) (positive : 0 < size) :
    3 ≤ size := by
  obtain ⟨depth, -, least, sound⟩ := generates
  by_contra small
  have shallow : depth ≤ 1 := least.2 (show size ≤ 2 ^ 1 by omega)
  refine (sound ⟨fun _ => none, 0⟩ 1).1 ?_
  simp only [generated, Function.iterate_one, generateStep, if_pos positive, Generating.set]
  rw [if_pos (by rw [BLOCK_DEPTH]; omega)]

/-- The matrix is made as it should be if its size has room for a block and its power of two is an `int`. -/
theorem generates_iff (size : ℕ) (positive : 0 < size) (nonzeros : ℤ) (tenth : K) :
    Generates size nonzeros tenth ↔ 3 ≤ size ∧ size ≤ 2 ^ 30 := by
  refine ⟨fun generates => ⟨generates.large positive, generates.fits⟩, ?_⟩
  rintro ⟨large, fits⟩
  have fits' : (size : ℤ) ≤ 2 ^ 30 := by exact_mod_cast fits
  obtain ⟨depth, shiftable, log, room, least⟩ := logarithm_eq fits'
  refine ⟨depth, log, ⟨by exact_mod_cast room, fun k enough => ?_⟩, fun m n => ?_⟩
  · by_contra less
    have more := least k (not_le.mp less)
    have enough' : (size : ℤ) ≤ 2 ^ k := by exact_mod_cast enough
    omega
  · have sound := generated_sound tenth ⟨shiftable, room, least⟩ large nonzeros m n
    exact ⟨sound.running, sound.calls⟩

end Sound

/-- The sizes that are set without an option. -/
theorem generates_default : Generates 500 1000 (1 : ℤ) :=
  (generates_iff 500 (by decide) 1000 1).mpr (by decide)

/-- A matrix of size 1 or 2 has no room for a block, and a size above 2 ^ 30 has no logarithm. -/
theorem not_generates : ¬ Generates 1 1000 (1 : ℤ) ∧ ¬ Generates 2 1000 (1 : ℤ) ∧
    ¬ Generates (2 ^ 30 + 1) 1000 (1 : ℤ) := by
  refine ⟨fun generates => ?_, fun generates => ?_, fun generates => ?_⟩
  · exact absurd (generates.large (by decide)) (by decide)
  · exact absurd (generates.large (by decide)) (by decide)
  · exact absurd (generates.fits) (by decide)

end CilkArtifact.Cholesky
