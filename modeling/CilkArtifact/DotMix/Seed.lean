import CilkArtifact.DotMix.Generator
import Mathlib.Data.Fintype.EquivFin

/-! The tables that `init_seed` computes from a seed. -/
namespace CilkArtifact.DotMix

/-- `DotMixRNGType`. -/
inductive RngType where
  | dmix
  | dmixPrime
  | fDmix
  | fDmixPrime
  deriving DecidableEq, Repr

/-- Whether the variant works modulo the prime. -/
def RngType.isPrime : RngType → Bool
  | dmixPrime | fDmixPrime => true
  | dmix | fDmix => false

/-- The function that the `switch` of `init_seed` fills the table with. -/
def seedMix (type : RngType) (iterations : ℕ) (x : Word) : Word :=
  if type.isPrime then mixModP iterations x else mix iterations x

/-- `DotMixGeneric<RNG_TYPE, NUM_MIX_ITER>::init_seed`; the scope is left as it was. -/
def initSeed (type : RngType) (iterations : ℕ) (seed : Word) (stopNode : PedNode) : DotMixGeneric where
  tableLength := maxTableLength
  table i := seedMix type iterations (seed + BitVec.ofNat 64 i)
  X := seedMix type iterations (seed + BitVec.ofNat 64 maxTableLength)
  stopNode := stopNode

instance : Finite Word := Finite.of_injective BitVec.toFin fun _ _ same => BitVec.eq_of_toFin_eq same

theorem mix_bijective (iterations : ℕ) : Function.Bijective (mix iterations) :=
  Finite.injective_iff_bijective.mp (mix_injective iterations)

theorem mixModP_lt (iterations : ℕ) (x : Word) : (mixModP iterations x).toNat < prime := by
  rw [mixModP]
  generalize mix iterations x = y
  have modulus : PRIME.toNat = 18446744073709551557 := by decide
  split
  case isTrue large =>
    have mask : PRIME &&& -1#64 = PRIME := by decide
    rw [mask, BitVec.toNat_sub, modulus]
    rw [BitVec.le_def, modulus] at large
    have := y.isLt
    unfold prime
    omega
  case isFalse small =>
    have mask : PRIME &&& -0#64 = 0#64 := by decide
    rw [mask, BitVec.sub_zero]
    rw [BitVec.le_def, modulus] at small
    unfold prime
    omega

/-- Offsets below `2 ^ 64` lead to different seeds. -/
theorem seed_offset_injective (seed : Word) {i j : ℕ} (hi : i < 2 ^ 64) (hj : j < 2 ^ 64)
    (same : seed + BitVec.ofNat 64 i = seed + BitVec.ofNat 64 j) : i = j := by
  have offsets := congrArg BitVec.toNat (add_left_cancel same)
  rwa [BitVec.toNat_ofNat, BitVec.toNat_ofNat, Nat.mod_eq_of_lt hi, Nat.mod_eq_of_lt hj] at offsets

/-- The entry at `i` of the table followed by `m_X`. -/
def seedValue (g : DotMixGeneric) (i : Fin (g.tableLength + 1)) : Word := Fin.lastCases g.X g.table i

theorem seedValue_initSeed (type : RngType) (iterations : ℕ) (seed : Word) (stopNode : PedNode)
    (i : Fin ((initSeed type iterations seed stopNode).tableLength + 1)) :
    seedValue (initSeed type iterations seed stopNode) i = seedMix type iterations (seed + BitVec.ofNat 64 i) := by
  induction i using Fin.lastCases with
  | last => exact Fin.lastCases_last ..
  | cast i => exact Fin.lastCases_castSucc ..

theorem seedValue_injective {type : RngType} (plain : type.isPrime = false) (iterations : ℕ) (seed : Word)
    (stopNode : PedNode) : Function.Injective (seedValue (initSeed type iterations seed stopNode)) := by
  intro i j same
  rw [seedValue_initSeed, seedValue_initSeed, seedMix, seedMix, plain] at same
  have hi := i.isLt
  have hj := j.isLt
  simp only [initSeed, maxTableLength] at hi hj
  exact Fin.ext (seed_offset_injective seed (by omega) (by omega) (mix_injective iterations same))

theorem seedValue_lt {type : RngType} (reduced : type.isPrime = true) (iterations : ℕ) (seed : Word)
    (stopNode : PedNode) (i : Fin ((initSeed type iterations seed stopNode).tableLength + 1)) :
    (seedValue (initSeed type iterations seed stopNode) i).toNat < prime := by
  rw [seedValue_initSeed, seedMix, reduced]
  exact mixModP_lt iterations _

/-- `mix` permutes the words for every number of rounds. So the 1024 table entries and the offset are
pairwise different in the variants that do not reduce, and below the prime in those that do. -/
theorem mix_bijective_seeds (iterations : ℕ) :
    Function.Bijective (mix iterations) ∧ ∀ (seed : Word) (stopNode : PedNode),
      Function.Injective (seedValue (initSeed .dmix iterations seed stopNode)) ∧
      Function.Injective (seedValue (initSeed .fDmix iterations seed stopNode)) ∧
      (∀ i, (seedValue (initSeed .dmixPrime iterations seed stopNode) i).toNat < prime) ∧
      ∀ i, (seedValue (initSeed .fDmixPrime iterations seed stopNode) i).toNat < prime := by
  refine ⟨mix_bijective iterations, fun seed stopNode => ⟨?_, ?_, ?_, ?_⟩⟩
  · exact seedValue_injective rfl iterations seed stopNode
  · exact seedValue_injective rfl iterations seed stopNode
  · exact seedValue_lt rfl iterations seed stopNode
  · exact seedValue_lt rfl iterations seed stopNode

end CilkArtifact.DotMix
