import CilkArtifact.Lu.Recursive
import CilkArtifact.Library.Footprint
import Mathlib.LinearAlgebra.Matrix.NonsingularInverse

/-! The calls that `schur`, `lower_solve` and `upper_solve` make between two syncs, and which entries each of them
touches. -/
namespace CilkArtifact.Lu
open Memory
variable {F : Type} [Field F]

/-- A window of the array of blocks, by its first block. -/
structure Corner where
  row : ℕ
  column : ℕ

def Corner.move (w : Corner) (I J : ℕ) : Corner := ⟨w.row + I, w.column + J⟩

def Corner.pointer (nBlocks : ℕ) (p : ℤ) (w : Corner) : ℤ := blockOf nBlocks p w.row w.column

inductive Call where
  | schur (M V W : Corner) (nb : ℕ)
  | auxLowerSolve (Ma Mb L : Corner) (nb : ℕ)
  | lowerSolve (M L : Corner) (nb : ℕ)
  | auxUpperSolve (Ma Mb U : Corner) (nb : ℕ)
  | upperSolve (M U : Corner) (nb : ℕ)

/-- The calls that a call makes, up to a sync and from there on. The calls of a phase may run at the same time. -/
def phases : Call → List (List Call)
  | .schur M V W nb =>
    let hnb := nb / 2
    if nb = 1 then []
    else
      [[.schur (M.move 0 0) (V.move 0 0) (W.move 0 0) hnb, .schur (M.move 0 hnb) (V.move 0 0) (W.move 0 hnb) hnb,
        .schur (M.move hnb 0) (V.move hnb 0) (W.move 0 0) hnb,
        .schur (M.move hnb hnb) (V.move hnb 0) (W.move 0 hnb) hnb],
      [.schur (M.move 0 0) (V.move 0 hnb) (W.move hnb 0) hnb, .schur (M.move 0 hnb) (V.move 0 hnb) (W.move hnb hnb) hnb,
        .schur (M.move hnb 0) (V.move hnb hnb) (W.move hnb 0) hnb,
        .schur (M.move hnb hnb) (V.move hnb hnb) (W.move hnb hnb) hnb]]
  | .auxLowerSolve Ma Mb L nb =>
    [[.lowerSolve Ma (L.move 0 0) nb], [.schur Mb (L.move nb 0) Ma nb], [.lowerSolve Mb (L.move nb nb) nb]]
  | .lowerSolve M L nb =>
    let hnb := nb / 2
    if nb = 1 then []
    else [[.auxLowerSolve (M.move 0 0) (M.move hnb 0) L hnb, .auxLowerSolve (M.move 0 hnb) (M.move hnb hnb) L hnb]]
  | .auxUpperSolve Ma Mb U nb =>
    [[.upperSolve Ma (U.move 0 0) nb], [.schur Mb Ma (U.move 0 nb) nb], [.upperSolve Mb (U.move nb nb) nb]]
  | .upperSolve M U nb =>
    let hnb := nb / 2
    if nb = 1 then []
    else [[.auxUpperSolve (M.move 0 0) (M.move 0 hnb) U hnb, .auxUpperSolve (M.move hnb 0) (M.move hnb hnb) U hnb]]

inductive Reaches : Call → Call → Prop
  | start (c : Call) : Reaches c c
  | call {c d e : Call} {phase : List Call} : phase ∈ phases c → d ∈ phase → Reaches d e → Reaches c e

/-- The row of blocks, counted from one of its pointers, up to which a call computes indices. -/
def offset : Call → ℕ
  | .schur _ _ _ nb | .lowerSolve _ _ nb | .upperSolve _ _ nb => nb / 2
  | .auxLowerSolve _ _ _ nb | .auxUpperSolve _ _ _ nb => nb

section Run
variable [DecidableEq F] (nBlocks : ℕ) (p : ℤ)

def run (m : Memory F) : Call → Option (Memory F)
  | .schur M V W nb => schur nBlocks m (M.pointer nBlocks p) (V.pointer nBlocks p) (W.pointer nBlocks p) nb
  | .auxLowerSolve Ma Mb L nb =>
    auxLowerSolve nBlocks m (Ma.pointer nBlocks p) (Mb.pointer nBlocks p) (L.pointer nBlocks p) nb
  | .lowerSolve M L nb => lowerSolve nBlocks m (M.pointer nBlocks p) (L.pointer nBlocks p) nb
  | .auxUpperSolve Ma Mb U nb =>
    auxUpperSolve nBlocks m (Ma.pointer nBlocks p) (Mb.pointer nBlocks p) (U.pointer nBlocks p) nb
  | .upperSolve M U nb => upperSolve nBlocks m (M.pointer nBlocks p) (U.pointer nBlocks p) nb

variable {nBlocks p}

/-- The pointers to the quarters of a window. -/
theorem matrixAt_quarters (h : ℕ) (indexable : Indexable nBlocks h) :
    (∀ w : Corner, matrixAt nBlocks (w.pointer nBlocks p) 0 0 = some ((w.move 0 0).pointer nBlocks p)) ∧
    (∀ w : Corner, matrixAt nBlocks (w.pointer nBlocks p) 0 h = some ((w.move 0 h).pointer nBlocks p)) ∧
    (∀ w : Corner, matrixAt nBlocks (w.pointer nBlocks p) h 0 = some ((w.move h 0).pointer nBlocks p)) ∧
    ∀ w : Corner, matrixAt nBlocks (w.pointer nBlocks p) h h = some ((w.move h h).pointer nBlocks p) := by
  have zero : 0 ≤ h := Nat.zero_le h
  exact ⟨fun w => matrixAt_blockOf indexable zero zero, fun w => matrixAt_blockOf indexable zero le_rfl,
    fun w => matrixAt_blockOf indexable le_rfl zero, fun w => matrixAt_blockOf indexable le_rfl le_rfl⟩

/-- A call is the calls of its phases, one after the other. -/
theorem run_phases (m : Memory F) (c : Call) (indexable : Indexable nBlocks (offset c)) (calls : phases c ≠ []) :
    run nBlocks p m c = (phases c).flatten.foldlM (run nBlocks p) m := by
  cases c with
  | schur M V W nb =>
    obtain ⟨first, right, below, last⟩ := @matrixAt_quarters nBlocks p (nb / 2) indexable
    by_cases base : nb = 1
    · exact absurd (if_pos base) calls
    · rw [phases, run, schur, if_neg base, if_neg base]
      simp [run, first, right, below, last, List.foldlM_cons]
  | auxLowerSolve Ma Mb L nb =>
    obtain ⟨first, right, below, last⟩ := @matrixAt_quarters nBlocks p nb indexable
    rw [run, auxLowerSolve]
    simp [phases, run, first, right, below, last, List.foldlM_cons]
  | lowerSolve M L nb =>
    obtain ⟨first, right, below, last⟩ := @matrixAt_quarters nBlocks p (nb / 2) indexable
    by_cases base : nb = 1
    · exact absurd (if_pos base) calls
    · rw [phases, run, lowerSolve, if_neg base, if_neg base]
      simp [run, first, right, below, last, List.foldlM_cons]
  | auxUpperSolve Ma Mb U nb =>
    obtain ⟨first, right, below, last⟩ := @matrixAt_quarters nBlocks p nb indexable
    rw [run, auxUpperSolve]
    simp [phases, run, first, right, below, last, List.foldlM_cons]
  | upperSolve M U nb =>
    obtain ⟨first, right, below, last⟩ := @matrixAt_quarters nBlocks p (nb / 2) indexable
    by_cases base : nb = 1
    · exact absurd (if_pos base) calls
    · rw [phases, run, upperSolve, if_neg base, if_neg base]
      simp [run, first, right, below, last, List.foldlM_cons]

end Run

/-! ### Entries -/

/-- The entries of `n` by `n` blocks. -/
def square (w : Corner) (n : ℕ) : Set (ℕ × ℕ) :=
  {x | Within (BLOCK_SIZE * w.row) (BLOCK_SIZE * w.column) (BLOCK_SIZE * n) x.1 x.2}

/-- The entries that a call writes. -/
def writes : Call → Set (ℕ × ℕ)
  | .schur M _ _ nb => square M nb
  | .auxLowerSolve Ma Mb _ nb => square Ma nb ∪ square Mb nb
  | .lowerSolve M _ nb => square M nb
  | .auxUpperSolve Ma Mb _ nb => square Ma nb ∪ square Mb nb
  | .upperSolve M _ nb => square M nb

/-- The entries of the other matrices, which a call reads. -/
def reads : Call → Set (ℕ × ℕ)
  | .schur _ V W nb => square V nb ∪ square W nb
  | .auxLowerSolve _ _ L nb => square L (nb + nb)
  | .lowerSolve _ L nb => square L nb
  | .auxUpperSolve _ _ U nb => square U (nb + nb)
  | .upperSolve _ U nb => square U nb

/-- The entries that a call divides by. -/
def pivots : Call → Set (ℕ × ℕ)
  | .auxUpperSolve _ _ U nb =>
    {x | ∃ t < BLOCK_SIZE * (nb + nb), x = (BLOCK_SIZE * U.row + t, BLOCK_SIZE * U.column + t)}
  | .upperSolve _ U nb => {x | ∃ t < BLOCK_SIZE * nb, x = (BLOCK_SIZE * U.row + t, BLOCK_SIZE * U.column + t)}
  | _ => ∅

def Corner.Fits (nBlocks : ℕ) (w : Corner) (n : ℕ) : Prop := w.row + n ≤ nBlocks ∧ w.column + n ≤ nBlocks

/-- A window of `n` by `n` blocks and one of `n'` by `n'` blocks have no block in common. -/
def Corner.Apart (w : Corner) (n : ℕ) (w' : Corner) (n' : ℕ) : Prop :=
  w.row + n ≤ w'.row ∨ w'.row + n' ≤ w.row ∨ w.column + n ≤ w'.column ∨ w'.column + n' ≤ w.column

/-- What the functions ask of their arguments. -/
def Proper (nBlocks : ℕ) : Call → Prop
  | .schur M V W nb => (∃ k, nb = 2 ^ k) ∧ M.Fits nBlocks nb ∧ V.Fits nBlocks nb ∧ W.Fits nBlocks nb ∧
    M.Apart nb V nb ∧ M.Apart nb W nb
  | .auxLowerSolve Ma Mb L nb => (∃ k, nb = 2 ^ k) ∧ Mb = Ma.move nb 0 ∧ Ma.Fits nBlocks nb ∧ Mb.Fits nBlocks nb ∧
    L.Fits nBlocks (nb + nb) ∧ Ma.Apart nb L (nb + nb) ∧ Mb.Apart nb L (nb + nb)
  | .lowerSolve M L nb => (∃ k, nb = 2 ^ k) ∧ M.Fits nBlocks nb ∧ L.Fits nBlocks nb ∧ M.Apart nb L nb
  | .auxUpperSolve Ma Mb U nb => (∃ k, nb = 2 ^ k) ∧ Mb = Ma.move 0 nb ∧ Ma.Fits nBlocks nb ∧ Mb.Fits nBlocks nb ∧
    U.Fits nBlocks (nb + nb) ∧ Ma.Apart nb U (nb + nb) ∧ Mb.Apart nb U (nb + nb)
  | .upperSolve M U nb => (∃ k, nb = 2 ^ k) ∧ M.Fits nBlocks nb ∧ U.Fits nBlocks nb ∧ M.Apart nb U nb

variable {nBlocks : ℕ} {p : ℤ} {w w' : Corner} {n n' h : ℕ} {c d : Call}

theorem square_subset (rows : w'.row ≤ w.row ∧ w.row + n ≤ w'.row + n')
    (columns : w'.column ≤ w.column ∧ w.column + n ≤ w'.column + n') : square w n ⊆ square w' n' := by
  rintro ⟨r, c⟩ inside
  change Within _ _ _ r c at inside
  change Within _ _ _ r c
  simp only [within_iff, BLOCK_SIZE] at *
  omega

theorem square_disjoint (apart : w.Apart n w' n') : Disjoint (square w n) (square w' n') := by
  rw [Set.disjoint_left]
  rintro ⟨r, c⟩ inside inside'
  change Within _ _ _ r c at inside
  change Within _ _ _ r c at inside'
  simp only [within_iff, BLOCK_SIZE, Corner.Apart] at *
  omega

/-- A larger power of two has a half. -/
theorem exists_half {nb : ℕ} (power : ∃ k, nb = 2 ^ k) (larger : nb ≠ 1) :
    ∃ h, nb / 2 = h ∧ nb = h + h ∧ ∃ k, h = 2 ^ k := by
  obtain ⟨k, rfl⟩ := power
  cases k with
  | zero => exact absurd (pow_zero 2) larger
  | succ k => exact ⟨2 ^ k, double k, by rw [pow_succ, mul_two], k, rfl⟩

/-! ### One level of the recursion -/

/-- A phase of `schur` takes one half of the inner dimension, which begins at block `K`. -/
theorem phases_schur {M V W : Corner} {nb : ℕ} (power : ∃ k, nb = 2 ^ k) {phase : List Call}
    (inPhases : phase ∈ phases (.schur M V W nb)) :
    ∃ h, nb = h + h ∧ (∃ k, h = 2 ^ k) ∧ ∃ K ≤ h,
      phase = [.schur (M.move 0 0) (V.move 0 K) (W.move K 0) h, .schur (M.move 0 h) (V.move 0 K) (W.move K h) h,
        .schur (M.move h 0) (V.move h K) (W.move K 0) h, .schur (M.move h h) (V.move h K) (W.move K h) h] := by
  by_cases base : nb = 1
  · rw [phases, if_pos base] at inPhases
    cases inPhases
  · obtain ⟨h, half, rfl, halved⟩ := exists_half power base
    rw [phases, half, if_neg base, List.mem_pair] at inPhases
    rcases inPhases with rfl | rfl
    · exact ⟨h, rfl, halved, 0, Nat.zero_le h, rfl⟩
    · exact ⟨h, rfl, halved, h, le_rfl, rfl⟩

theorem phases_lowerSolve {M L : Corner} {nb : ℕ} (power : ∃ k, nb = 2 ^ k) {phase : List Call}
    (inPhases : phase ∈ phases (.lowerSolve M L nb)) :
    ∃ h, nb = h + h ∧ (∃ k, h = 2 ^ k) ∧
      phase = [.auxLowerSolve (M.move 0 0) (M.move h 0) L h, .auxLowerSolve (M.move 0 h) (M.move h h) L h] := by
  by_cases base : nb = 1
  · rw [phases, if_pos base] at inPhases
    cases inPhases
  · obtain ⟨h, half, rfl, halved⟩ := exists_half power base
    rw [phases, half, if_neg base, List.mem_singleton] at inPhases
    exact ⟨h, rfl, halved, inPhases⟩

theorem phases_upperSolve {M U : Corner} {nb : ℕ} (power : ∃ k, nb = 2 ^ k) {phase : List Call}
    (inPhases : phase ∈ phases (.upperSolve M U nb)) :
    ∃ h, nb = h + h ∧ (∃ k, h = 2 ^ k) ∧
      phase = [.auxUpperSolve (M.move 0 0) (M.move 0 h) U h, .auxUpperSolve (M.move h 0) (M.move h h) U h] := by
  by_cases base : nb = 1
  · rw [phases, if_pos base] at inPhases
    cases inPhases
  · obtain ⟨h, half, rfl, halved⟩ := exists_half power base
    rw [phases, half, if_neg base, List.mem_singleton] at inPhases
    exact ⟨h, rfl, halved, inPhases⟩

theorem half_double (n : ℕ) : (n + n) / 2 = n := by
  rw [← mul_two, Nat.mul_div_cancel n (by decide)]

/-- A call that another one makes. -/
structure Inner (nBlocks : ℕ) (c d : Call) : Prop where
  proper : Proper nBlocks d
  offset : offset d ≤ offset c
  writes : writes d ⊆ writes c
  pivots : pivots d ⊆ pivots c

theorem inner_schur {M V W : Corner} (power : ∃ k, h = 2 ^ k) (proper : Proper nBlocks (.schur M V W (h + h)))
    {I J K : ℕ} (hI : I ≤ h) (hJ : J ≤ h) (hK : K ≤ h) :
    Inner nBlocks (.schur M V W (h + h)) (.schur (M.move I J) (V.move I K) (W.move K J) h) := by
  obtain ⟨-, fits, fitsV, fitsW, apartV, apartW⟩ := proper
  simp only [Corner.Fits, Corner.Apart] at *
  refine ⟨⟨power, ?_⟩, Nat.div_le_div_right (Nat.le_add_left h h), square_subset ?_ ?_, subset_rfl⟩
  · simp only [Corner.Fits, Corner.Apart, Corner.move]
    omega
  · simp only [Corner.move]
    omega
  · simp only [Corner.move]
    omega

theorem inner_lowerSolve {M L : Corner} (power : ∃ k, h = 2 ^ k) (proper : Proper nBlocks (.lowerSolve M L (h + h)))
    {J : ℕ} (hJ : J ≤ h) :
    Inner nBlocks (.lowerSolve M L (h + h)) (.auxLowerSolve (M.move 0 J) (M.move h J) L h) := by
  obtain ⟨-, fits, fitsL, apart⟩ := proper
  simp only [Corner.Fits, Corner.Apart] at *
  refine ⟨⟨power, ?_, ?_⟩, (half_double h).ge, Set.union_subset (square_subset ?_ ?_) (square_subset ?_ ?_), subset_rfl⟩
  · simp only [Corner.move, Nat.add_zero]
  all_goals
    simp only [Corner.Fits, Corner.Apart, Corner.move]
    omega

theorem inner_upperSolve {M U : Corner} (power : ∃ k, h = 2 ^ k) (proper : Proper nBlocks (.upperSolve M U (h + h)))
    {I : ℕ} (hI : I ≤ h) :
    Inner nBlocks (.upperSolve M U (h + h)) (.auxUpperSolve (M.move I 0) (M.move I h) U h) := by
  obtain ⟨-, fits, fitsU, apart⟩ := proper
  simp only [Corner.Fits, Corner.Apart] at *
  refine ⟨⟨power, ?_, ?_⟩, (half_double h).ge, Set.union_subset (square_subset ?_ ?_) (square_subset ?_ ?_), subset_rfl⟩
  · simp only [Corner.move, Nat.add_zero]
  all_goals
    simp only [Corner.Fits, Corner.Apart, Corner.move]
    omega

/-- The pivots of a corner of `U` on its diagonal. -/
theorem pivots_subset (U M Ma Mb : Corner) {I n : ℕ} (bound : I + n ≤ h + h) :
    pivots (.upperSolve M (U.move I I) n) ⊆ pivots (.auxUpperSolve Ma Mb U h) := by
  rintro _ ⟨t, ht, rfl⟩
  refine ⟨BLOCK_SIZE * I + t, ?_, ?_⟩
  · simp only [BLOCK_SIZE] at *
    omega
  · simp only [Corner.move, mul_add, add_assoc]

/-- `aux_lower_solve` spawns nothing: its calls are made one after the other. -/
theorem inner_auxLowerSolve {Ma Mb L : Corner} {nb : ℕ} (proper : Proper nBlocks (.auxLowerSolve Ma Mb L nb))
    {phase : List Call} (inPhases : phase ∈ phases (.auxLowerSolve Ma Mb L nb)) :
    ∃ d, phase = [d] ∧ Inner nBlocks (.auxLowerSolve Ma Mb L nb) d := by
  obtain ⟨power, rfl, fits, fits', fitsL, apart, apart'⟩ := proper
  simp only [phases, List.mem_cons, List.not_mem_nil, or_false] at inPhases
  simp only [Corner.Fits, Corner.Apart, Corner.move] at fits fits' fitsL apart apart'
  rcases inPhases with rfl | rfl | rfl
  · refine ⟨_, rfl, ⟨power, ?_⟩, half_le nb, Set.subset_union_left, Set.empty_subset _⟩
    simp only [Corner.Fits, Corner.Apart, Corner.move]
    omega
  · refine ⟨_, rfl, ⟨power, ?_⟩, half_le nb, Set.subset_union_right, Set.empty_subset _⟩
    simp only [Corner.Fits, Corner.Apart, Corner.move]
    omega
  · refine ⟨_, rfl, ⟨power, ?_⟩, half_le nb, Set.subset_union_right, Set.empty_subset _⟩
    simp only [Corner.Fits, Corner.Apart, Corner.move]
    omega

theorem inner_auxUpperSolve {Ma Mb U : Corner} {nb : ℕ} (proper : Proper nBlocks (.auxUpperSolve Ma Mb U nb))
    {phase : List Call} (inPhases : phase ∈ phases (.auxUpperSolve Ma Mb U nb)) :
    ∃ d, phase = [d] ∧ Inner nBlocks (.auxUpperSolve Ma Mb U nb) d := by
  obtain ⟨power, rfl, fits, fits', fitsU, apart, apart'⟩ := proper
  simp only [phases, List.mem_cons, List.not_mem_nil, or_false] at inPhases
  simp only [Corner.Fits, Corner.Apart, Corner.move] at fits fits' fitsU apart apart'
  rcases inPhases with rfl | rfl | rfl
  · refine ⟨_, rfl, ⟨power, ?_⟩, half_le nb, Set.subset_union_left, pivots_subset U _ _ _ (by omega)⟩
    simp only [Corner.Fits, Corner.Apart, Corner.move]
    omega
  · refine ⟨_, rfl, ⟨power, ?_⟩, half_le nb, Set.subset_union_right, Set.empty_subset _⟩
    simp only [Corner.Fits, Corner.Apart, Corner.move]
    omega
  · refine ⟨_, rfl, ⟨power, ?_⟩, half_le nb, Set.subset_union_right, pivots_subset U _ _ _ (by omega)⟩
    simp only [Corner.Fits, Corner.Apart, Corner.move]
    omega

/-- Whatever a call does is done within its own arguments. -/
theorem Proper.inner (proper : Proper nBlocks c) {phase : List Call} (inPhases : phase ∈ phases c)
    (inPhase : d ∈ phase) : Inner nBlocks c d := by
  cases c with
  | schur M V W nb =>
    obtain ⟨h, rfl, power, K, hK, rfl⟩ := phases_schur proper.1 inPhases
    have zero : 0 ≤ h := Nat.zero_le h
    simp only [List.mem_cons, List.not_mem_nil, or_false] at inPhase
    rcases inPhase with rfl | rfl | rfl | rfl
    · exact inner_schur power proper zero zero hK
    · exact inner_schur power proper zero le_rfl hK
    · exact inner_schur power proper le_rfl zero hK
    · exact inner_schur power proper le_rfl le_rfl hK
  | auxLowerSolve Ma Mb L nb =>
    obtain ⟨e, rfl, inner⟩ := inner_auxLowerSolve proper inPhases
    rwa [List.mem_singleton.mp inPhase]
  | lowerSolve M L nb =>
    obtain ⟨h, rfl, power, rfl⟩ := phases_lowerSolve proper.1 inPhases
    rw [List.mem_pair] at inPhase
    rcases inPhase with rfl | rfl
    · exact inner_lowerSolve power proper (Nat.zero_le h)
    · exact inner_lowerSolve power proper le_rfl
  | auxUpperSolve Ma Mb U nb =>
    obtain ⟨e, rfl, inner⟩ := inner_auxUpperSolve proper inPhases
    rwa [List.mem_singleton.mp inPhase]
  | upperSolve M U nb =>
    obtain ⟨h, rfl, power, rfl⟩ := phases_upperSolve proper.1 inPhases
    rw [List.mem_pair] at inPhase
    rcases inPhase with rfl | rfl
    · exact inner_upperSolve power proper (Nat.zero_le h)
    · exact inner_upperSolve power proper le_rfl

/-! ### Calls at the same time -/

/-- The addresses of entries. -/
def places (nBlocks : ℕ) (p : ℤ) (S : Set (ℕ × ℕ)) : Set ℤ := {a | ∃ x ∈ S, a = entryAt nBlocks p x.1 x.2}

def entries (nBlocks : ℕ) : Set (ℕ × ℕ) := {x | x.1 < order nBlocks ∧ x.2 < order nBlocks}

/-- Neither of two calls writes what the other one writes or reads. -/
structure Independent (nBlocks : ℕ) (p : ℤ) (c d : Call) : Prop where
  writes : Disjoint (places nBlocks p (writes c)) (places nBlocks p (writes d))
  first : Disjoint (places nBlocks p (Lu.writes c)) (places nBlocks p (reads d))
  second : Disjoint (places nBlocks p (Lu.writes d)) (places nBlocks p (reads c))

theorem square_entries (fits : w.Fits nBlocks n) : square w n ⊆ entries nBlocks := by
  rintro ⟨r, c⟩ inside
  change Within _ _ _ r c at inside
  change r < order nBlocks ∧ c < order nBlocks
  simp only [within_iff, order, BLOCK_SIZE, Corner.Fits] at *
  omega

theorem Proper.writes (proper : Proper nBlocks c) : writes c ⊆ entries nBlocks := by
  cases c with
  | schur M V W nb => exact square_entries proper.2.1
  | auxLowerSolve Ma Mb L nb =>
    obtain ⟨-, -, fits, fits', -⟩ := proper
    exact Set.union_subset (square_entries fits) (square_entries fits')
  | lowerSolve M L nb => exact square_entries proper.2.1
  | auxUpperSolve Ma Mb U nb =>
    obtain ⟨-, -, fits, fits', -⟩ := proper
    exact Set.union_subset (square_entries fits) (square_entries fits')
  | upperSolve M U nb => exact square_entries proper.2.1

theorem Proper.reads (proper : Proper nBlocks c) : reads c ⊆ entries nBlocks := by
  cases c with
  | schur M V W nb =>
    obtain ⟨-, -, fitsV, fitsW, -⟩ := proper
    exact Set.union_subset (square_entries fitsV) (square_entries fitsW)
  | auxLowerSolve Ma Mb L nb =>
    obtain ⟨-, -, -, -, fitsL, -⟩ := proper
    exact square_entries fitsL
  | lowerSolve M L nb => exact square_entries proper.2.2.1
  | auxUpperSolve Ma Mb U nb =>
    obtain ⟨-, -, -, -, fitsU, -⟩ := proper
    exact square_entries fitsU
  | upperSolve M U nb => exact square_entries proper.2.2.1

theorem places_disjoint {S T : Set (ℕ × ℕ)} (apart : Disjoint S T) (insideS : S ⊆ entries nBlocks)
    (insideT : T ⊆ entries nBlocks) : Disjoint (places nBlocks p S) (places nBlocks p T) := by
  rw [Set.disjoint_left]
  rintro _ ⟨x, hx, rfl⟩ ⟨y, hy, same⟩
  obtain ⟨rows, columns⟩ := entryAt_inj (insideS hx).2 (insideT hy).2 same
  obtain rfl : x = y := Prod.ext rows columns
  exact Set.disjoint_left.mp apart hx hy

theorem places_mono {S T : Set (ℕ × ℕ)} (sub : S ⊆ T) : places nBlocks p S ⊆ places nBlocks p T := by
  rintro _ ⟨x, hx, rfl⟩
  exact ⟨x, sub hx, rfl⟩

/-- In terms of entries. -/
theorem independent_of_entries (proper : Proper nBlocks c) (proper' : Proper nBlocks d)
    (apart : Disjoint (writes c) (writes d)) (first : Disjoint (writes c) (reads d))
    (second : Disjoint (writes d) (reads c)) : Independent nBlocks p c d :=
  ⟨places_disjoint apart proper.writes proper'.writes, places_disjoint first proper.writes proper'.reads,
    places_disjoint second proper'.writes proper.reads⟩

/-- Two calls of one phase of `schur`. -/
theorem independent_schur {M V W : Corner} (power : ∃ k, h = 2 ^ k) (proper : Proper nBlocks (.schur M V W (h + h)))
    {I J I' J' K : ℕ} (hI : I ≤ h) (hJ : J ≤ h) (hI' : I' ≤ h) (hJ' : J' ≤ h) (hK : K ≤ h)
    (apart : I + h ≤ I' ∨ J + h ≤ J') :
    Independent nBlocks p (.schur (M.move I J) (V.move I K) (W.move K J) h)
      (.schur (M.move I' J') (V.move I' K) (W.move K J') h) := by
  apply independent_of_entries (inner_schur power proper hI hJ hK).proper (inner_schur power proper hI' hJ' hK).proper
  all_goals
    obtain ⟨-, -, -, -, apartV, apartW⟩ := proper
    simp only [Corner.Apart] at apartV apartW
  · apply square_disjoint
    simp only [Corner.Apart, Corner.move]
    omega
  · apply Set.disjoint_union_right.mpr
    constructor
    all_goals
      apply square_disjoint
      simp only [Corner.Apart, Corner.move]
      omega
  · apply Set.disjoint_union_right.mpr
    constructor
    all_goals
      apply square_disjoint
      simp only [Corner.Apart, Corner.move]
      omega

theorem independent_lowerSolve {M L : Corner} (power : ∃ k, h = 2 ^ k)
    (proper : Proper nBlocks (.lowerSolve M L (h + h))) :
    Independent nBlocks p (.auxLowerSolve (M.move 0 0) (M.move h 0) L h)
      (.auxLowerSolve (M.move 0 h) (M.move h h) L h) := by
  apply independent_of_entries (inner_lowerSolve power proper (Nat.zero_le h)).proper
    (inner_lowerSolve power proper le_rfl).proper
  all_goals
    obtain ⟨-, -, -, apart⟩ := proper
    simp only [Corner.Apart] at apart
    simp only [Lu.writes, Lu.reads, Set.disjoint_union_left, Set.disjoint_union_right]
    constructor
  all_goals first | apply square_disjoint | (constructor <;> apply square_disjoint)
  all_goals
    simp only [Corner.Apart, Corner.move]
    omega

theorem independent_upperSolve {M U : Corner} (power : ∃ k, h = 2 ^ k)
    (proper : Proper nBlocks (.upperSolve M U (h + h))) :
    Independent nBlocks p (.auxUpperSolve (M.move 0 0) (M.move 0 h) U h)
      (.auxUpperSolve (M.move h 0) (M.move h h) U h) := by
  apply independent_of_entries (inner_upperSolve power proper (Nat.zero_le h)).proper
    (inner_upperSolve power proper le_rfl).proper
  all_goals
    obtain ⟨-, -, -, apart⟩ := proper
    simp only [Corner.Apart] at apart
    simp only [Lu.writes, Lu.reads, Set.disjoint_union_left, Set.disjoint_union_right]
    constructor
  all_goals first | apply square_disjoint | (constructor <;> apply square_disjoint)
  all_goals
    simp only [Corner.Apart, Corner.move]
    omega

theorem Proper.independent (proper : Proper nBlocks c) {phase : List Call} (inPhases : phase ∈ phases c) :
    phase.Pairwise (Independent nBlocks p) := by
  cases c with
  | schur M V W nb =>
    obtain ⟨h, rfl, power, K, hK, rfl⟩ := phases_schur proper.1 inPhases
    simp only [List.pairwise_cons, List.mem_cons, List.not_mem_nil, or_false, forall_eq_or_imp, forall_eq,
      List.Pairwise.nil, and_true, IsEmpty.forall_iff, implies_true]
    refine ⟨⟨?_, ?_, ?_⟩, ⟨?_, ?_⟩, ?_⟩
    all_goals apply independent_schur power proper <;> omega
  | auxLowerSolve Ma Mb L nb =>
    obtain ⟨d, rfl, -⟩ := inner_auxLowerSolve proper inPhases
    exact List.pairwise_singleton _ d
  | lowerSolve M L nb =>
    obtain ⟨h, rfl, power, rfl⟩ := phases_lowerSolve proper.1 inPhases
    exact List.pairwise_pair.mpr (independent_lowerSolve power proper)
  | auxUpperSolve Ma Mb U nb =>
    obtain ⟨d, rfl, -⟩ := inner_auxUpperSolve proper inPhases
    exact List.pairwise_singleton _ d
  | upperSolve M U nb =>
    obtain ⟨h, rfl, power, rfl⟩ := phases_upperSolve proper.1 inPhases
    exact List.pairwise_pair.mpr (independent_upperSolve power proper)

/-- All calls that are made are proper, and they stay within the window of the first one. -/
theorem Reaches.inner (reached : Reaches c d) (proper : Proper nBlocks c) : Inner nBlocks c d := by
  induction reached with
  | start c => exact ⟨proper, le_rfl, subset_rfl, subset_rfl⟩
  | call inPhases inPhase _ ih =>
    have outer := proper.inner inPhases inPhase
    have inner := ih outer.proper
    exact ⟨inner.proper, inner.offset.trans outer.offset, inner.writes.trans outer.writes,
      inner.pivots.trans outer.pivots⟩

/-! ### What the calls leave -/

variable {m m' : Memory F} {A B G : ℕ → ℕ → F}

/-- With the entries of `A` in `S`, whatever the other ones are, the program leaves those of `B` in `W` and changes no
others. -/
def Replaces (nBlocks : ℕ) (p : ℤ) (program : Memory F → Option (Memory F)) (S W : Set (ℕ × ℕ)) (A B : ℕ → ℕ → F) :
    Prop :=
  ∀ t A', Holds nBlocks p t t A' → (∀ x ∈ S, A' x.1 x.2 = A x.1 x.2) → ∃ t' B', program t = some t' ∧
    Holds nBlocks p t t' B' ∧ (∀ x ∈ W, B' x.1 x.2 = B x.1 x.2) ∧ ∀ x ∉ W, B' x.1 x.2 = A' x.1 x.2

theorem exists_lowerRect (A : ℕ → ℕ → F) (R C h w R₁ C₁ : ℕ) : ∃ G, LowerRect A R C h w R₁ C₁ G := by
  obtain ⟨G, solves⟩ := exists_lower_solution h w (window A R₁ C₁) (window A R C)
  refine ⟨fun r c => G (r - R) (c - C), fun i j hi hj => ?_⟩
  simp only [Nat.add_sub_cancel_left]
  exact solves i j hi hj

theorem exists_upperRect {R₁ C₁ w : ℕ} (R C h : ℕ) (nonzero : ∀ t < w, A (R₁ + t) (C₁ + t) ≠ 0) :
    ∃ G, UpperRect A R C h w R₁ C₁ G := by
  have diagonal (t : ℕ) (ht : t < w) : window A R₁ C₁ t t ≠ 0 := nonzero t ht
  obtain ⟨G, solves⟩ := exists_upper_solution h (window A R C) diagonal
  refine ⟨fun r c => G (r - R) (c - C), fun i j hi hj => ?_⟩
  simp only [Nat.add_sub_cancel_left]
  exact solves i j hi hj

section Calls
variable [DecidableEq F]

theorem replaces_schur {M V W : Corner} {k : ℕ} (indexable : Indexable nBlocks (2 ^ k / 2))
    (proper : Proper nBlocks (.schur M V W (2 ^ k))) :
    Replaces nBlocks p (fun t => run nBlocks p t (.schur M V W (2 ^ k)))
      (writes (.schur M V W (2 ^ k)) ∪ reads (.schur M V W (2 ^ k))) (writes (.schur M V W (2 ^ k))) A
      (subtracted A (BLOCK_SIZE * M.row) (BLOCK_SIZE * M.column) (BLOCK_SIZE * 2 ^ k) (BLOCK_SIZE * V.row)
        (BLOCK_SIZE * V.column) (BLOCK_SIZE * W.row) (BLOCK_SIZE * W.column)) := by
  intro t A' holds same
  obtain ⟨-, fits, fitsV, fitsW, apartV, apartW⟩ := proper
  obtain ⟨t', ran, holds'⟩ :=
    schur_spec nBlocks p t k indexable fits.1 fits.2 fitsV.1 fitsV.2 fitsW.1 fitsW.2 apartV apartW holds
  refine ⟨t', _, ran, holds', fun x inside => ?_, fun x outside => if_neg outside⟩
  have within : Within (BLOCK_SIZE * M.row) (BLOCK_SIZE * M.column) (BLOCK_SIZE * 2 ^ k) x.1 x.2 := inside
  rw [subtracted, subtracted, if_pos within, if_pos within, same x (.inl inside)]
  congr 1
  apply Finset.sum_congr rfl
  intro s member
  rw [Finset.mem_range] at member
  rw [within_iff] at within
  have inV : (BLOCK_SIZE * V.row + (x.1 - BLOCK_SIZE * M.row), BLOCK_SIZE * V.column + s) ∈ square V (2 ^ k) := by
    change Within _ _ _ _ _
    rw [within_iff]
    omega
  have inW : (BLOCK_SIZE * W.row + s, BLOCK_SIZE * W.column + (x.2 - BLOCK_SIZE * M.column)) ∈ square W (2 ^ k) := by
    change Within _ _ _ _ _
    rw [within_iff]
    omega
  rw [same _ (.inr (.inl inV)), same _ (.inr (.inr inW))]

theorem replaces_lowerSolve {M L : Corner} {k : ℕ} (indexable : Indexable nBlocks (2 ^ k / 2))
    (proper : Proper nBlocks (.lowerSolve M L (2 ^ k)))
    (solves : LowerSolves A (BLOCK_SIZE * M.row) (BLOCK_SIZE * M.column) (BLOCK_SIZE * 2 ^ k) (BLOCK_SIZE * L.row)
      (BLOCK_SIZE * L.column) G) :
    Replaces nBlocks p (fun t => run nBlocks p t (.lowerSolve M L (2 ^ k)))
      (writes (.lowerSolve M L (2 ^ k)) ∪ reads (.lowerSolve M L (2 ^ k))) (writes (.lowerSolve M L (2 ^ k))) A G := by
  intro t A' holds same
  obtain ⟨-, fits, fitsL, apart⟩ := proper
  have solves' : LowerSolves A' (BLOCK_SIZE * M.row) (BLOCK_SIZE * M.column) (BLOCK_SIZE * 2 ^ k) (BLOCK_SIZE * L.row)
      (BLOCK_SIZE * L.column) G := by
    intro i j hi hj
    rw [same (_, _) (.inl ⟨⟨by omega, by omega⟩, by omega, by omega⟩), solves i j hi hj]
    congr 1
    apply Finset.sum_congr rfl
    intro s member
    rw [Finset.mem_range] at member
    rw [same (_, _) (.inr ⟨⟨by omega, by omega⟩, by omega, by omega⟩)]
  obtain ⟨t', ran, holds'⟩ :=
    lowerSolve_spec nBlocks p t k indexable M.row M.column L.row L.column fits.1 fits.2 fitsL.1 fitsL.2
    apart holds solves'
  exact ⟨t', _, ran, holds', fun x inside => if_pos inside, fun x outside => if_neg outside⟩

theorem replaces_upperSolve {M U : Corner} {k : ℕ} (indexable : Indexable nBlocks (2 ^ k / 2))
    (proper : Proper nBlocks (.upperSolve M U (2 ^ k)))
    (nonzero : ∀ x ∈ pivots (.upperSolve M U (2 ^ k)), A x.1 x.2 ≠ 0)
    (solves : UpperSolves A (BLOCK_SIZE * M.row) (BLOCK_SIZE * M.column) (BLOCK_SIZE * 2 ^ k) (BLOCK_SIZE * U.row)
      (BLOCK_SIZE * U.column) G) :
    Replaces nBlocks p (fun t => run nBlocks p t (.upperSolve M U (2 ^ k)))
      (writes (.upperSolve M U (2 ^ k)) ∪ reads (.upperSolve M U (2 ^ k))) (writes (.upperSolve M U (2 ^ k))) A G := by
  intro t A' holds same
  obtain ⟨-, fits, fitsU, apart⟩ := proper
  have sameU (i j : ℕ) (hi : i < BLOCK_SIZE * 2 ^ k) (hj : j < BLOCK_SIZE * 2 ^ k) :
      A' (BLOCK_SIZE * U.row + i) (BLOCK_SIZE * U.column + j) =
        A (BLOCK_SIZE * U.row + i) (BLOCK_SIZE * U.column + j) :=
    same (_, _) (.inr ⟨⟨by omega, by omega⟩, by omega, by omega⟩)
  have solves' : UpperSolves A' (BLOCK_SIZE * M.row) (BLOCK_SIZE * M.column) (BLOCK_SIZE * 2 ^ k) (BLOCK_SIZE * U.row)
      (BLOCK_SIZE * U.column) G := by
    intro i j hi hj
    rw [same (_, _) (.inl ⟨⟨by omega, by omega⟩, by omega, by omega⟩), solves i j hi hj, sameU j j hj hj]
    congr 1
    apply Finset.sum_congr rfl
    intro s member
    rw [Finset.mem_range] at member
    rw [sameU s j (by omega) hj]
  have nonzero' (s : ℕ) (hs : s < BLOCK_SIZE * 2 ^ k) :
      A' (BLOCK_SIZE * U.row + s) (BLOCK_SIZE * U.column + s) ≠ 0 := by
    rw [sameU s s hs hs]
    exact nonzero (_, _) ⟨s, hs, rfl⟩
  obtain ⟨t', ran, holds'⟩ :=
    upperSolve_spec nBlocks p t k indexable M.row M.column U.row U.column fits.1 fits.2 fitsU.1 fitsU.2
    apart holds nonzero' solves'
  exact ⟨t', _, ran, holds', fun x inside => if_pos inside, fun x outside => if_neg outside⟩

theorem replaces_auxLowerSolve {Ma Mb L : Corner} {k : ℕ} (indexable : Indexable nBlocks (2 ^ k))
    (proper : Proper nBlocks (.auxLowerSolve Ma Mb L (2 ^ k)))
    (solves : LowerRect A (BLOCK_SIZE * Ma.row) (BLOCK_SIZE * Ma.column) (BLOCK_SIZE * 2 ^ k + BLOCK_SIZE * 2 ^ k)
      (BLOCK_SIZE * 2 ^ k) (BLOCK_SIZE * L.row) (BLOCK_SIZE * L.column) G) :
    Replaces nBlocks p (fun t => run nBlocks p t (.auxLowerSolve Ma Mb L (2 ^ k)))
      (writes (.auxLowerSolve Ma Mb L (2 ^ k)) ∪ reads (.auxLowerSolve Ma Mb L (2 ^ k)))
      (writes (.auxLowerSolve Ma Mb L (2 ^ k))) A G := by
  intro t A' holds same
  obtain ⟨-, rfl, fits, fits', fitsL, apart, apart'⟩ := proper
  have inside_iff (x : ℕ × ℕ) : x ∈ writes (.auxLowerSolve Ma (Ma.move (2 ^ k) 0) L (2 ^ k)) ↔
      Inside (BLOCK_SIZE * Ma.row) (BLOCK_SIZE * Ma.column) (BLOCK_SIZE * 2 ^ k + BLOCK_SIZE * 2 ^ k)
        (BLOCK_SIZE * 2 ^ k) x.1 x.2 := by
    change Within _ _ _ _ _ ∨ Within _ _ _ _ _ ↔ _
    simp only [within_iff, Lu.inside_iff, Corner.move, BLOCK_SIZE]
    omega
  have solves' : LowerRect A' (BLOCK_SIZE * Ma.row) (BLOCK_SIZE * Ma.column)
      (BLOCK_SIZE * 2 ^ k + BLOCK_SIZE * 2 ^ k) (BLOCK_SIZE * 2 ^ k) (BLOCK_SIZE * L.row) (BLOCK_SIZE * L.column)
      G := by
    intro i j hi hj
    rw [same (_, _) (.inl ((inside_iff _).mpr ⟨⟨by omega, by omega⟩, by omega, by omega⟩)), solves i j hi hj]
    congr 1
    apply Finset.sum_congr rfl
    intro s member
    rw [Finset.mem_range] at member
    rw [same (_, _) (.inr ⟨⟨by omega, by rw [mul_add]; omega⟩, by omega, by rw [mul_add]; omega⟩)]
  have spec : LowerSpec nBlocks p t (2 ^ k) := lowerSolve_spec nBlocks p t k (indexable.mono (half_le _))
  simp only [Corner.Fits, Corner.Apart, Corner.move] at fits fits' fitsL apart apart'
  obtain ⟨t', ran, holds'⟩ := auxLowerSolve_spec indexable spec (I := Ma.row) (J := Ma.column) (by omega) (by omega) fitsL.1
    fitsL.2 (by omega) holds solves'
  exact ⟨t', _, ran, holds', fun x inside => if_pos ((inside_iff x).mp inside),
    fun x outside => if_neg fun inside => outside ((inside_iff x).mpr inside)⟩

theorem replaces_auxUpperSolve {Ma Mb U : Corner} {k : ℕ} (indexable : Indexable nBlocks (2 ^ k))
    (proper : Proper nBlocks (.auxUpperSolve Ma Mb U (2 ^ k)))
    (nonzero : ∀ x ∈ pivots (.auxUpperSolve Ma Mb U (2 ^ k)), A x.1 x.2 ≠ 0)
    (solves : UpperRect A (BLOCK_SIZE * Ma.row) (BLOCK_SIZE * Ma.column) (BLOCK_SIZE * 2 ^ k)
      (BLOCK_SIZE * 2 ^ k + BLOCK_SIZE * 2 ^ k) (BLOCK_SIZE * U.row) (BLOCK_SIZE * U.column) G) :
    Replaces nBlocks p (fun t => run nBlocks p t (.auxUpperSolve Ma Mb U (2 ^ k)))
      (writes (.auxUpperSolve Ma Mb U (2 ^ k)) ∪ reads (.auxUpperSolve Ma Mb U (2 ^ k)))
      (writes (.auxUpperSolve Ma Mb U (2 ^ k))) A G := by
  intro t A' holds same
  obtain ⟨-, rfl, fits, fits', fitsU, apart, apart'⟩ := proper
  have inside_iff (x : ℕ × ℕ) : x ∈ writes (.auxUpperSolve Ma (Ma.move 0 (2 ^ k)) U (2 ^ k)) ↔
      Inside (BLOCK_SIZE * Ma.row) (BLOCK_SIZE * Ma.column) (BLOCK_SIZE * 2 ^ k)
        (BLOCK_SIZE * 2 ^ k + BLOCK_SIZE * 2 ^ k) x.1 x.2 := by
    change Within _ _ _ _ _ ∨ Within _ _ _ _ _ ↔ _
    simp only [within_iff, Lu.inside_iff, Corner.move, BLOCK_SIZE]
    omega
  have sameU (i j : ℕ) (hi : i < BLOCK_SIZE * 2 ^ k + BLOCK_SIZE * 2 ^ k)
      (hj : j < BLOCK_SIZE * 2 ^ k + BLOCK_SIZE * 2 ^ k) :
      A' (BLOCK_SIZE * U.row + i) (BLOCK_SIZE * U.column + j) =
        A (BLOCK_SIZE * U.row + i) (BLOCK_SIZE * U.column + j) :=
    same (_, _) (.inr ⟨⟨by omega, by rw [mul_add]; omega⟩, by omega, by rw [mul_add]; omega⟩)
  have solves' : UpperRect A' (BLOCK_SIZE * Ma.row) (BLOCK_SIZE * Ma.column) (BLOCK_SIZE * 2 ^ k)
      (BLOCK_SIZE * 2 ^ k + BLOCK_SIZE * 2 ^ k) (BLOCK_SIZE * U.row) (BLOCK_SIZE * U.column) G := by
    intro i j hi hj
    rw [same (_, _) (.inl ((inside_iff _).mpr ⟨⟨by omega, by omega⟩, by omega, by omega⟩)), solves i j hi hj,
      sameU j j hj hj]
    congr 1
    apply Finset.sum_congr rfl
    intro s member
    rw [Finset.mem_range] at member
    rw [sameU s j (by omega) hj]
  have nonzero' (s : ℕ) (hs : s < BLOCK_SIZE * 2 ^ k + BLOCK_SIZE * 2 ^ k) :
      A' (BLOCK_SIZE * U.row + s) (BLOCK_SIZE * U.column + s) ≠ 0 := by
    rw [sameU s s hs hs]
    exact nonzero (_, _) ⟨s, by rwa [mul_add], rfl⟩
  have spec : UpperSpec nBlocks p t (2 ^ k) := upperSolve_spec nBlocks p t k (indexable.mono (half_le _))
  simp only [Corner.Fits, Corner.Apart, Corner.move] at fits fits' fitsU apart apart'
  obtain ⟨t', ran, holds'⟩ := auxUpperSolve_spec indexable spec (I := Ma.row) (J := Ma.column) (by omega) (by omega) fitsU.1
    fitsU.2 (by omega) holds nonzero' solves'
  exact ⟨t', _, ran, holds', fun x inside => if_pos ((inside_iff x).mp inside),
    fun x outside => if_neg fun inside => outside ((inside_iff x).mpr inside)⟩

theorem Proper.replaces (proper : Proper nBlocks c) (indexable : Indexable nBlocks (Lu.offset c))
    (nonzero : ∀ x ∈ pivots c, A x.1 x.2 ≠ 0) :
    ∃ B, Replaces nBlocks p (fun t => run nBlocks p t c) (Lu.writes c ∪ Lu.reads c) (Lu.writes c) A B := by
  cases c with
  | schur M V W nb =>
    obtain ⟨k, rfl⟩ := proper.1
    exact ⟨_, replaces_schur indexable proper⟩
  | auxLowerSolve Ma Mb L nb =>
    obtain ⟨k, rfl⟩ := proper.1
    obtain ⟨G, solves⟩ := exists_lowerRect A (BLOCK_SIZE * Ma.row) (BLOCK_SIZE * Ma.column)
      (BLOCK_SIZE * 2 ^ k + BLOCK_SIZE * 2 ^ k) (BLOCK_SIZE * 2 ^ k) (BLOCK_SIZE * L.row) (BLOCK_SIZE * L.column)
    exact ⟨G, replaces_auxLowerSolve indexable proper solves⟩
  | lowerSolve M L nb =>
    obtain ⟨k, rfl⟩ := proper.1
    obtain ⟨G, solves⟩ := exists_lowerRect A (BLOCK_SIZE * M.row) (BLOCK_SIZE * M.column) (BLOCK_SIZE * 2 ^ k)
      (BLOCK_SIZE * 2 ^ k) (BLOCK_SIZE * L.row) (BLOCK_SIZE * L.column)
    exact ⟨G, replaces_lowerSolve indexable proper solves⟩
  | auxUpperSolve Ma Mb U nb =>
    obtain ⟨k, rfl⟩ := proper.1
    have diagonal (t : ℕ) (ht : t < BLOCK_SIZE * 2 ^ k + BLOCK_SIZE * 2 ^ k) :
        A (BLOCK_SIZE * U.row + t) (BLOCK_SIZE * U.column + t) ≠ 0 := nonzero (_, _) ⟨t, by rwa [mul_add], rfl⟩
    obtain ⟨G, solves⟩ := exists_upperRect (BLOCK_SIZE * Ma.row) (BLOCK_SIZE * Ma.column) (BLOCK_SIZE * 2 ^ k) diagonal
    exact ⟨G, replaces_auxUpperSolve indexable proper nonzero solves⟩
  | upperSolve M U nb =>
    obtain ⟨k, rfl⟩ := proper.1
    have diagonal (t : ℕ) (ht : t < BLOCK_SIZE * 2 ^ k) :
        A (BLOCK_SIZE * U.row + t) (BLOCK_SIZE * U.column + t) ≠ 0 := nonzero (_, _) ⟨t, ht, rfl⟩
    obtain ⟨G, solves⟩ := exists_upperRect (BLOCK_SIZE * M.row) (BLOCK_SIZE * M.column) (BLOCK_SIZE * 2 ^ k) diagonal
    exact ⟨G, replaces_upperSolve indexable proper nonzero solves⟩

end Calls

/-- The entries that a memory has. -/
def contents (nBlocks : ℕ) (p : ℤ) (m : Memory F) (r c : ℕ) : F := m.val (entryAt nBlocks p r c)

/-- What there is at an address: its value, in a memory with so many cells. -/
def cellOf (m : Memory F) (a : ℤ) : (ℤ → Bool) × F := (m.mapped, m.val a)

omit [Field F] in
theorem holds_contents (mapped : m.MappedOn (cells nBlocks p)) : Holds nBlocks p m m (contents nBlocks p m) :=
  ⟨fun r c hr hc => mapped _ ⟨r, c, hr, hc, rfl⟩, .refl _ m, fun _ _ _ _ => rfl⟩

omit [Field F] in
/-- The entries that stay, and everything else that stays. -/
theorem Holds.val_outside {W : Set (ℕ × ℕ)} (holds : Holds nBlocks p m m' B)
    (kept : ∀ x ∉ W, B x.1 x.2 = contents nBlocks p m x.1 x.2) {a : ℤ} (outside : a ∉ places nBlocks p W) :
    m'.val a = m.val a := by
  by_cases inside : a ∈ cells nBlocks p
  · obtain ⟨r, c, hr, hc, rfl⟩ := inside
    rw [holds.val r c hr hc]
    exact kept (r, c) fun written => outside ⟨(r, c), written, rfl⟩
  · exact holds.changes.val inside

omit [Field F] in
theorem Replaces.footprint {program : Memory F → Option (Memory F)} {S W : Set (ℕ × ℕ)}
    (mapped : m.MappedOn (cells nBlocks p)) (insideW : W ⊆ entries nBlocks) (nonempty : S.Nonempty)
    (replaces : Replaces nBlocks p program S W (contents nBlocks p m) B) :
    ∃ m', Footprint cellOf program (places nBlocks p S) (places nBlocks p W) m m' := by
  obtain ⟨m', B', -, holds, made, -⟩ := replaces m _ (holds_contents mapped) fun _ _ => rfl
  refine ⟨m', fun t same => ?_⟩
  obtain ⟨x, hx⟩ := nonempty
  have sameMapped : t.mapped = m.mapped := congrArg Prod.fst (same _ ⟨x, hx, rfl⟩)
  have mappedT : t.MappedOn (cells nBlocks p) := by
    intro a inside
    rw [sameMapped]
    exact mapped a inside
  obtain ⟨t', B'', ran, holds', made', kept'⟩ := replaces t _ (holds_contents mappedT) fun y hy =>
    congrArg Prod.snd (same _ ⟨y, hy, rfl⟩)
  refine ⟨t', ran, ?_, fun a outside => ?_⟩
  · rintro _ ⟨y, hy, rfl⟩
    obtain ⟨hr, hc⟩ := insideW hy
    rw [cellOf, cellOf, holds'.changes.mapped, holds.changes.mapped, sameMapped, holds'.val _ _ hr hc,
      holds.val _ _ hr hc, made y hy, made' y hy]
  · rw [cellOf, cellOf, holds'.changes.mapped, holds'.val_outside kept' outside]

/-- Only cells of `S` have other values. -/
structure Keeps (S : Set ℤ) (m m' : Memory F) : Prop where
  mapped : m'.mapped = m.mapped
  frame : ∀ a ∉ S, m'.val a = m.val a

/-- The calls of a phase, made by `root` or by a call of its own, with the memory as `root` may have left it by then. -/
def PhasesIndependent [DecidableEq F] (nBlocks : ℕ) (p : ℤ) (m : Memory F) (root : Call) : Prop :=
  ∀ c, Reaches root c → places nBlocks p (writes c) ⊆ places nBlocks p (writes root) ∧
    ∀ m', Keeps (places nBlocks p (writes root)) m m' →
      (phases c ≠ [] → run nBlocks p m' c = (phases c).flatten.foldlM (run nBlocks p) m') ∧
      ∀ phase ∈ phases c, phase.Pairwise (Independent nBlocks p) ∧ ∀ d ∈ phase, ∃ m'',
        Footprint cellOf (fun t => run nBlocks p t d) (places nBlocks p (writes d ∪ reads d))
          (places nBlocks p (writes d)) m' m''

theorem square_nonempty (positive : 0 < n) : (square w n).Nonempty := by
  refine ⟨(BLOCK_SIZE * w.row, BLOCK_SIZE * w.column), ?_⟩
  change Within _ _ _ _ _
  simp only [within_iff, BLOCK_SIZE]
  omega

theorem Proper.nonempty (proper : Proper nBlocks c) : (Lu.writes c ∪ Lu.reads c).Nonempty := by
  apply Set.Nonempty.inl
  cases c with
  | schur M V W nb =>
    obtain ⟨k, rfl⟩ := proper.1
    exact square_nonempty (Nat.two_pow_pos k)
  | auxLowerSolve Ma Mb L nb =>
    obtain ⟨k, rfl⟩ := proper.1
    exact (square_nonempty (Nat.two_pow_pos k)).inl
  | lowerSolve M L nb =>
    obtain ⟨k, rfl⟩ := proper.1
    exact square_nonempty (Nat.two_pow_pos k)
  | auxUpperSolve Ma Mb U nb =>
    obtain ⟨k, rfl⟩ := proper.1
    exact (square_nonempty (Nat.two_pow_pos k)).inl
  | upperSolve M U nb =>
    obtain ⟨k, rfl⟩ := proper.1
    exact square_nonempty (Nat.two_pow_pos k)

/-- The pivots are on the diagonal of `U`. -/
theorem pivots_reads : pivots c ⊆ reads c := by
  rintro x inside
  cases c with
  | schur M V W nb => exact inside.elim
  | auxLowerSolve Ma Mb L nb => exact inside.elim
  | lowerSolve M L nb => exact inside.elim
  | auxUpperSolve Ma Mb U nb =>
    obtain ⟨t, ht, rfl⟩ := inside
    exact ⟨⟨by omega, by omega⟩, by omega, by omega⟩
  | upperSolve M U nb =>
    obtain ⟨t, ht, rfl⟩ := inside
    exact ⟨⟨by omega, by omega⟩, by omega, by omega⟩

theorem Proper.apart (proper : Proper nBlocks c) : Disjoint (Lu.writes c) (Lu.reads c) := by
  cases c with
  | schur M V W nb =>
    obtain ⟨-, -, -, -, apartV, apartW⟩ := proper
    exact Set.disjoint_union_right.mpr ⟨square_disjoint apartV, square_disjoint apartW⟩
  | auxLowerSolve Ma Mb L nb =>
    obtain ⟨-, -, -, -, -, apart, apart'⟩ := proper
    exact Set.disjoint_union_left.mpr ⟨square_disjoint apart, square_disjoint apart'⟩
  | lowerSolve M L nb => exact square_disjoint proper.2.2.2
  | auxUpperSolve Ma Mb U nb =>
    obtain ⟨-, -, -, -, -, apart, apart'⟩ := proper
    exact Set.disjoint_union_left.mpr ⟨square_disjoint apart, square_disjoint apart'⟩
  | upperSolve M U nb => exact square_disjoint proper.2.2.2

theorem Proper.phasesIndependent [DecidableEq F] {root : Call} (proper : Proper nBlocks root)
    (indexable : Indexable nBlocks (offset root)) (mapped : m.MappedOn (cells nBlocks p))
    (nonzero : ∀ x ∈ pivots root, contents nBlocks p m x.1 x.2 ≠ 0) :
    PhasesIndependent nBlocks p m root := by
  intro c reached
  have inner := reached.inner proper
  refine ⟨places_mono inner.writes, fun m' keeps => ⟨run_phases m' c (indexable.mono inner.offset), fun phase inPhases => ?_⟩⟩
  refine ⟨inner.proper.independent inPhases, fun d inPhase => ?_⟩
  have call := inner.proper.inner inPhases inPhase
  have nonzero' (x : ℕ × ℕ) (pivot : x ∈ pivots d) : contents nBlocks p m' x.1 x.2 ≠ 0 := by
    have ofRoot : x ∈ pivots root := inner.pivots (call.pivots pivot)
    have apart : Disjoint (places nBlocks p (Lu.reads root)) (places nBlocks p (Lu.writes root)) :=
      places_disjoint proper.apart.symm proper.reads proper.writes
    have outside := Set.disjoint_left.mp apart ⟨x, pivots_reads ofRoot, rfl⟩
    rw [contents, keeps.frame _ outside]
    exact nonzero x ofRoot
  have mapped' : m'.MappedOn (cells nBlocks p) := by
    intro a inside
    rw [keeps.mapped]
    exact mapped a inside
  obtain ⟨B, replaces⟩ := call.proper.replaces (indexable.mono (call.offset.trans inner.offset)) nonzero'
  exact replaces.footprint mapped' call.proper.writes call.proper.nonempty

/-! ### The three functions -/

section Matrices
variable (nBlocks p)

/-- The entries of a window, counted from its first one. -/
def matrixIn (m : Memory F) (w : Corner) : ℕ → ℕ → F :=
  window (contents nBlocks p m) (BLOCK_SIZE * w.row) (BLOCK_SIZE * w.column)

def matrixOf (m : Memory F) (w : Corner) (n : ℕ) : Matrix (Fin (BLOCK_SIZE * n)) (Fin (BLOCK_SIZE * n)) F :=
  .of fun i j => matrixIn nBlocks p m w i j

end Matrices

omit [Field F] in
/-- What a call leaves, with its effect on single entries. -/
theorem Replaces.run {program : Memory F → Option (Memory F)} {M : Corner} {S : Set (ℕ × ℕ)}
    (mapped : m.MappedOn (cells nBlocks p)) (fits : M.Fits nBlocks n)
    (replaces : Replaces nBlocks p program S (square M n) (contents nBlocks p m) B) :
    ∃ m', program m = some m' ∧ Keeps (places nBlocks p (square M n)) m m' ∧
      ∀ i j, i < BLOCK_SIZE * n → j < BLOCK_SIZE * n →
        matrixIn nBlocks p m' M i j = B (BLOCK_SIZE * M.row + i) (BLOCK_SIZE * M.column + j) := by
  obtain ⟨m', B', ran, holds, made, kept⟩ := replaces m _ (holds_contents mapped) fun _ _ => rfl
  refine ⟨m', ran, ⟨holds.changes.mapped, fun a outside => holds.val_outside kept outside⟩, fun i j hi hj => ?_⟩
  have inside : (BLOCK_SIZE * M.row + i, BLOCK_SIZE * M.column + j) ∈ square M n :=
    ⟨⟨by omega, by omega⟩, by omega, by omega⟩
  obtain ⟨hr, hc⟩ := square_entries fits inside
  rw [← made _ inside]
  exact holds.val _ _ hr hc

variable [DecidableEq F]

theorem schur_leaves {M V W : Corner} {k : ℕ} (indexable : Indexable nBlocks (2 ^ k / 2))
    (proper : Proper nBlocks (.schur M V W (2 ^ k)))
    (mapped : m.MappedOn (cells nBlocks p)) : ∃ m',
    schur nBlocks m (M.pointer nBlocks p) (V.pointer nBlocks p) (W.pointer nBlocks p) (2 ^ k) = some m' ∧
      matrixOf nBlocks p m' M (2 ^ k) =
        matrixOf nBlocks p m M (2 ^ k) - matrixOf nBlocks p m V (2 ^ k) * matrixOf nBlocks p m W (2 ^ k) ∧
      Keeps (places nBlocks p (square M (2 ^ k))) m m' := by
  obtain ⟨m', ran, keeps, result⟩ := (replaces_schur indexable proper).run mapped proper.2.1
  refine ⟨m', ran, ?_, keeps⟩
  ext i j
  have within : Within (BLOCK_SIZE * M.row) (BLOCK_SIZE * M.column) (BLOCK_SIZE * 2 ^ k) (BLOCK_SIZE * M.row + i)
    (BLOCK_SIZE * M.column + j) := ⟨⟨by omega, by omega⟩, by omega, by omega⟩
  rw [matrixOf, Matrix.of_apply, result i j i.isLt j.isLt, subtracted, if_pos within, Matrix.sub_apply,
    Matrix.mul_apply, Finset.sum_range]
  simp only [Nat.add_sub_cancel_left]
  rfl

theorem lowerSolve_leaves {M L : Corner} {k : ℕ} (indexable : Indexable nBlocks (2 ^ k / 2))
    (proper : Proper nBlocks (.lowerSolve M L (2 ^ k)))
    (mapped : m.MappedOn (cells nBlocks p)) : ∃ m',
    lowerSolve nBlocks m (M.pointer nBlocks p) (L.pointer nBlocks p) (2 ^ k) = some m' ∧
      (∀ X, unitLower _ (matrixIn nBlocks p m L) * X = matrixOf nBlocks p m M (2 ^ k) ↔
        X = matrixOf nBlocks p m' M (2 ^ k)) ∧
      Keeps (places nBlocks p (square M (2 ^ k))) m m' := by
  obtain ⟨G, solves⟩ := exists_lowerRect (contents nBlocks p m) (BLOCK_SIZE * M.row) (BLOCK_SIZE * M.column)
    (BLOCK_SIZE * 2 ^ k) (BLOCK_SIZE * 2 ^ k) (BLOCK_SIZE * L.row) (BLOCK_SIZE * L.column)
  obtain ⟨m', ran, keeps, result⟩ := (replaces_lowerSolve indexable proper solves).run mapped proper.2.1
  refine ⟨m', ran, fun X => ?_, keeps⟩
  have product : unitLower _ (matrixIn nBlocks p m L) * matrixOf nBlocks p m' M (2 ^ k) =
      matrixOf nBlocks p m M (2 ^ k) := by
    ext i j
    rw [matrixOf, unitLower_mul_apply, result i j i.isLt j.isLt]
    refine Eq.trans ?_ (solves i j i.isLt j.isLt).symm
    congr 1
    apply Finset.sum_congr rfl
    intro t inside
    rw [Finset.mem_range] at inside
    rw [result t j (by omega) j.isLt]
    rfl
  have unit := isUnit_unitLower (BLOCK_SIZE * 2 ^ k) (matrixIn nBlocks p m L)
  constructor
  · intro solution
    rw [← Matrix.nonsing_inv_mul_cancel_left _ X unit, solution, ← product, Matrix.nonsing_inv_mul_cancel_left _ _ unit]
  · rintro rfl
    exact product

theorem upperSolve_leaves {M U : Corner} {k : ℕ} (indexable : Indexable nBlocks (2 ^ k / 2))
    (proper : Proper nBlocks (.upperSolve M U (2 ^ k)))
    (mapped : m.MappedOn (cells nBlocks p))
    (nonzero : ∀ x ∈ pivots (.upperSolve M U (2 ^ k)), contents nBlocks p m x.1 x.2 ≠ 0) : ∃ m',
    upperSolve nBlocks m (M.pointer nBlocks p) (U.pointer nBlocks p) (2 ^ k) = some m' ∧
      (∀ X, X * upper _ (matrixIn nBlocks p m U) = matrixOf nBlocks p m M (2 ^ k) ↔
        X = matrixOf nBlocks p m' M (2 ^ k)) ∧
      Keeps (places nBlocks p (square M (2 ^ k))) m m' := by
  have diagonal (t : ℕ) (ht : t < BLOCK_SIZE * 2 ^ k) : matrixIn nBlocks p m U t t ≠ 0 := nonzero (_, _) ⟨t, ht, rfl⟩
  obtain ⟨G, solves⟩ := exists_upperRect (BLOCK_SIZE * M.row) (BLOCK_SIZE * M.column) (BLOCK_SIZE * 2 ^ k) diagonal
  obtain ⟨m', ran, keeps, result⟩ := (replaces_upperSolve indexable proper nonzero solves).run mapped proper.2.1
  refine ⟨m', ran, fun X => ?_, keeps⟩
  have product : matrixOf nBlocks p m' M (2 ^ k) * upper _ (matrixIn nBlocks p m U) =
      matrixOf nBlocks p m M (2 ^ k) := by
    ext i j
    rw [matrixOf, mul_upper_apply, result i j i.isLt j.isLt]
    refine Eq.trans ?_ (solves i j i.isLt j.isLt).symm
    congr 1
    apply Finset.sum_congr rfl
    intro t inside
    rw [Finset.mem_range] at inside
    rw [result i t i.isLt (by omega)]
    rfl
  have unit := isUnit_upper diagonal
  constructor
  · intro solution
    rw [← Matrix.mul_nonsing_inv_cancel_right _ X unit, solution, ← product,
      Matrix.mul_nonsing_inv_cancel_right _ _ unit]
  · rintro rfl
    exact product

/-- `schur`, `lower_solve` and `upper_solve` on windows of an array: what they leave in the window of `M`, and that
calls that run at the same time do not touch each other's windows. -/
theorem solvers_correct (k : ℕ) (indexable : Indexable nBlocks (2 ^ k / 2)) (mapped : m.MappedOn (cells nBlocks p)) :
    (∀ M V W : Corner, M.Fits nBlocks (2 ^ k) → V.Fits nBlocks (2 ^ k) → W.Fits nBlocks (2 ^ k) →
      M.Apart (2 ^ k) V (2 ^ k) → M.Apart (2 ^ k) W (2 ^ k) →
      (∃ m', schur nBlocks m (M.pointer nBlocks p) (V.pointer nBlocks p) (W.pointer nBlocks p) (2 ^ k) = some m' ∧
        matrixOf nBlocks p m' M (2 ^ k) =
          matrixOf nBlocks p m M (2 ^ k) - matrixOf nBlocks p m V (2 ^ k) * matrixOf nBlocks p m W (2 ^ k) ∧
        Keeps (places nBlocks p (square M (2 ^ k))) m m') ∧ PhasesIndependent nBlocks p m (.schur M V W (2 ^ k))) ∧
    (∀ M L : Corner, M.Fits nBlocks (2 ^ k) → L.Fits nBlocks (2 ^ k) → M.Apart (2 ^ k) L (2 ^ k) →
      (∃ m', lowerSolve nBlocks m (M.pointer nBlocks p) (L.pointer nBlocks p) (2 ^ k) = some m' ∧
        (∀ X, unitLower _ (matrixIn nBlocks p m L) * X = matrixOf nBlocks p m M (2 ^ k) ↔
          X = matrixOf nBlocks p m' M (2 ^ k)) ∧
        Keeps (places nBlocks p (square M (2 ^ k))) m m') ∧ PhasesIndependent nBlocks p m (.lowerSolve M L (2 ^ k))) ∧
    ∀ M U : Corner, M.Fits nBlocks (2 ^ k) → U.Fits nBlocks (2 ^ k) → M.Apart (2 ^ k) U (2 ^ k) →
      (∀ t < BLOCK_SIZE * 2 ^ k, matrixIn nBlocks p m U t t ≠ 0) →
      (∃ m', upperSolve nBlocks m (M.pointer nBlocks p) (U.pointer nBlocks p) (2 ^ k) = some m' ∧
        (∀ X, X * upper _ (matrixIn nBlocks p m U) = matrixOf nBlocks p m M (2 ^ k) ↔
          X = matrixOf nBlocks p m' M (2 ^ k)) ∧
        Keeps (places nBlocks p (square M (2 ^ k))) m m') ∧
      PhasesIndependent nBlocks p m (.upperSolve M U (2 ^ k)) := by
  refine ⟨?_, ?_, ?_⟩
  · intro M V W fits fitsV fitsW apartV apartW
    have proper : Proper nBlocks (.schur M V W (2 ^ k)) := ⟨⟨k, rfl⟩, fits, fitsV, fitsW, apartV, apartW⟩
    exact ⟨schur_leaves indexable proper mapped, proper.phasesIndependent indexable mapped fun x pivot => pivot.elim⟩
  · intro M L fits fitsL apart
    have proper : Proper nBlocks (.lowerSolve M L (2 ^ k)) := ⟨⟨k, rfl⟩, fits, fitsL, apart⟩
    exact ⟨lowerSolve_leaves indexable proper mapped, proper.phasesIndependent indexable mapped fun x pivot => pivot.elim⟩
  · intro M U fits fitsU apart diagonal
    have proper : Proper nBlocks (.upperSolve M U (2 ^ k)) := ⟨⟨k, rfl⟩, fits, fitsU, apart⟩
    have nonzero (x : ℕ × ℕ) (pivot : x ∈ pivots (.upperSolve M U (2 ^ k))) : contents nBlocks p m x.1 x.2 ≠ 0 := by
      obtain ⟨t, ht, rfl⟩ := pivot
      exact diagonal t ht
    exact ⟨upperSolve_leaves indexable proper mapped nonzero, proper.phasesIndependent indexable mapped nonzero⟩

theorem solvers_correct_ones :
    let m : Memory ℚ := ⟨fun _ => ⟨1, 0⟩, fun a => 0 ≤ a ∧ a < 4096⟩
    (∃ m', schur 4 m (blockOf 4 0 2 2) (blockOf 4 0 2 0) (blockOf 4 0 0 2) 2 = some m' ∧
      matrixOf 4 0 m' ⟨2, 2⟩ 2 = matrixOf 4 0 m ⟨2, 2⟩ 2 - matrixOf 4 0 m ⟨2, 0⟩ 2 * matrixOf 4 0 m ⟨0, 2⟩ 2) ∧
    (∃ m', lowerSolve 4 m (blockOf 4 0 0 2) (blockOf 4 0 0 0) 2 = some m' ∧
      unitLower _ (matrixIn 4 0 m ⟨0, 0⟩) * matrixOf 4 0 m' ⟨0, 2⟩ 2 = matrixOf 4 0 m ⟨0, 2⟩ 2) ∧
    (∃ m', upperSolve 4 m (blockOf 4 0 2 0) (blockOf 4 0 0 0) 2 = some m' ∧
      matrixOf 4 0 m' ⟨2, 0⟩ 2 * upper _ (matrixIn 4 0 m ⟨0, 0⟩) = matrixOf 4 0 m ⟨2, 0⟩ 2) ∧
    PhasesIndependent 4 0 m (.schur ⟨2, 2⟩ ⟨2, 0⟩ ⟨0, 2⟩ 2) ∧ PhasesIndependent 4 0 m (.lowerSolve ⟨0, 2⟩ ⟨0, 0⟩ 2) ∧
    PhasesIndependent 4 0 m (.upperSolve ⟨2, 0⟩ ⟨0, 0⟩ 2) := by
  intro m
  have mapped : m.MappedOn (cells 4 0) := by
    rintro _ ⟨r, c, hr, hc, rfl⟩
    change r < 64 at hr
    change c < 64 at hc
    have bounds : 0 ≤ entryAt 4 0 r c ∧ entryAt 4 0 r c < 4096 := by
      simp only [entryAt, blockAt, blockOf, BLOCK_SIZE]
      omega
    simp only [m, bounds.1, bounds.2, and_self, decide_true]
  obtain ⟨ofSchur, ofLower, ofUpper⟩ := solvers_correct 1 (by decide) mapped
  have fits (I J : ℕ) (hI : I + 2 ≤ 4) (hJ : J + 2 ≤ 4) : Corner.Fits 4 ⟨I, J⟩ (2 ^ 1) := ⟨hI, hJ⟩
  have apart (I J I' J' : ℕ) (beside : I + 2 ≤ I' ∨ I' + 2 ≤ I ∨ J + 2 ≤ J' ∨ J' + 2 ≤ J) :
      Corner.Apart ⟨I, J⟩ (2 ^ 1) ⟨I', J'⟩ (2 ^ 1) := beside
  obtain ⟨⟨m₁, run₁, result₁, -⟩, independent₁⟩ := ofSchur ⟨2, 2⟩ ⟨2, 0⟩ ⟨0, 2⟩ (fits 2 2 (by omega) (by omega))
    (fits 2 0 (by omega) (by omega)) (fits 0 2 (by omega) (by omega)) (apart 2 2 2 0 (by omega))
    (apart 2 2 0 2 (by omega))
  obtain ⟨⟨m₂, run₂, result₂, -⟩, independent₂⟩ := ofLower ⟨0, 2⟩ ⟨0, 0⟩ (fits 0 2 (by omega) (by omega))
    (fits 0 0 (by omega) (by omega)) (apart 0 2 0 0 (by omega))
  obtain ⟨⟨m₃, run₃, result₃, -⟩, independent₃⟩ := ofUpper ⟨2, 0⟩ ⟨0, 0⟩ (fits 2 0 (by omega) (by omega))
    (fits 0 0 (by omega) (by omega)) (apart 2 0 0 0 (by omega)) fun t ht => one_ne_zero
  exact ⟨⟨m₁, run₁, result₁⟩, ⟨m₂, run₂, (result₂ _).mpr rfl⟩, ⟨m₃, run₃, (result₃ _).mpr rfl⟩, independent₁,
    independent₂, independent₃⟩

/-- A call on a window whose last quarter has no `int` index fails. -/
theorem run_overflows (c : Call) (overflow : ¬ Indexable nBlocks (offset c)) : run nBlocks p m c = none := by
  have last (w : Corner) : matrixAt nBlocks (w.pointer nBlocks p) (offset c) (offset c) = none :=
    matrixAt_overflows overflow
  have larger (nb : ℕ) (half : offset c = nb / 2) : nb ≠ 1 := by
    rintro rfl
    rw [half] at overflow
    exact overflow (by norm_num [Indexable])
  cases c with
  | schur M V W nb =>
    change ∀ w : Corner, matrixAt nBlocks (w.pointer nBlocks p) (nb / 2) (nb / 2) = none at last
    rw [run, schur, if_neg (larger nb rfl)]
    simp [last]
  | auxLowerSolve Ma Mb L nb =>
    change ∀ w : Corner, matrixAt nBlocks (w.pointer nBlocks p) nb nb = none at last
    rw [run, auxLowerSolve]
    simp [last]
  | lowerSolve M L nb =>
    change ∀ w : Corner, matrixAt nBlocks (w.pointer nBlocks p) (nb / 2) (nb / 2) = none at last
    rw [run, lowerSolve, if_neg (larger nb rfl)]
    simp [last]
  | auxUpperSolve Ma Mb U nb =>
    change ∀ w : Corner, matrixAt nBlocks (w.pointer nBlocks p) nb nb = none at last
    rw [run, auxUpperSolve]
    simp [last]
  | upperSolve M U nb =>
    change ∀ w : Corner, matrixAt nBlocks (w.pointer nBlocks p) (nb / 2) (nb / 2) = none at last
    rw [run, upperSolve, if_neg (larger nb rfl)]
    simp [last]

/-- Windows of 2¹⁶ by 2¹⁶ blocks, in an array with 2¹⁷ blocks in a row. -/
theorem solvers_correct_not :
    ¬ ∀ (nBlocks : ℕ) (p : ℤ) (m : Memory ℚ) (k : ℕ) (M L : Corner), m.MappedOn (cells nBlocks p) →
      M.Fits nBlocks (2 ^ k) → L.Fits nBlocks (2 ^ k) → M.Apart (2 ^ k) L (2 ^ k) →
      ∃ m', lowerSolve nBlocks m (M.pointer nBlocks p) (L.pointer nBlocks p) (2 ^ k) = some m' := by
  intro claim
  obtain ⟨m', ran⟩ := claim (2 ^ 17) 0 ⟨fun _ => ⟨0, 0⟩, fun _ => true⟩ 16 ⟨0, 2 ^ 16⟩ ⟨0, 0⟩ (fun _ _ => rfl)
    ⟨by decide, by decide⟩ ⟨by decide, by decide⟩ (.inr (.inr (.inr (by decide))))
  rw [← run, run_overflows _ (by decide)] at ran
  cases ran

end CilkArtifact.Lu
