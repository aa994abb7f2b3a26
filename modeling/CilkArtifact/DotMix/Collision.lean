import CilkArtifact.DotMix.Generator
import Mathlib.LinearAlgebra.Dual.Lemmas
import Mathlib.LinearAlgebra.Matrix.Dual
import Mathlib.FieldTheory.Finiteness
import Mathlib.Data.List.GetD
import Mathlib.Data.Set.Card

/-! Collision-universality of the prime reverse generator. Over all tables the
two dot products of distinct pedigrees agree on the kernel of a nonzero linear
form, and the offset and the mixing permutation neither create nor destroy
collisions. -/
namespace CilkArtifact.DotMix

/-- The zero set of a nonzero linear form over a finite field has codimension one. -/
theorem card_zeros_linear_form {F : Type} [Field F] [Finite F] {n : ℕ} (c : Fin (n + 1) → F)
    (nonzero : c ≠ 0) :
    {t : Fin (n + 1) → F | ∑ i, c i * t i = 0}.ncard = Nat.card F ^ n := by
  classical
  let form : Module.Dual F (Fin (n + 1) → F) := dotProductEquiv F (Fin (n + 1)) c
  have formNonzero : form ≠ 0 := by simpa [form] using nonzero
  have dimension : Module.finrank F (LinearMap.ker form) = n := by
    have := Module.Dual.finrank_ker_add_one_of_ne_zero formNonzero
    rw [Module.finrank_fin_fun] at this
    omega
  have kernel : {t : Fin (n + 1) → F | ∑ i, c i * t i = 0} = (LinearMap.ker form : Set _) := by
    ext t
    rfl
  have count := Module.natCard_eq_pow_finrank (K := F) (V := LinearMap.ker form)
  rw [dimension] at count
  rw [kernel, ← Nat.card_coe_set_eq]
  exact count

/-- A DMIX_PRIME generator at global scope with the given table and offset. -/
def primeGenerator (table : Fin maxTableLength → Fin prime) (X : Word) : DotMixGeneric :=
  ⟨maxTableLength, fun i => BitVec.ofNat 64 (table i), X, globalStopNode⟩

theorem terms_global (ranks : List Word) : terms globalStopNode ranks = ranks.map (· + 1) := by
  induction ranks with
  | nil => rfl
  | cons r rest ih =>
    cases rest with
    | nil => simp [terms, globalStopNode]
    | cons s rest => simp only [terms, ih, List.map_cons]

/-- The dot product of a list of terms with the table entries from `d` on. -/
def dot (table : ℕ → Word) : ℕ → List Word → ZMod prime
  | _, [] => 0
  | d, t :: rest => t.toNat * (table d).toNat + dot table (d + 1) rest

theorem dot_eq_sum (table : ℕ → Word) (ts : List Word) (bound d : ℕ) (fits : ts.length ≤ bound) :
    dot table d ts =
      ∑ i ∈ Finset.range bound, ((ts.getD i 0).toNat : ZMod prime) * (table (d + i)).toNat := by
  induction ts generalizing d bound with
  | nil => simp [dot]
  | cons t rest ih =>
    obtain ⟨bound, rfl⟩ : ∃ k, bound = k + 1 := ⟨bound - 1, by simp at fits; omega⟩
    rw [Finset.sum_range_succ', dot, ih bound (d + 1) (by simpa using fits), add_comm]
    simp [Nat.add_assoc, Nat.add_comm 1]

theorem accumulate_residue (table : ℕ → Word) (ts : List Word) (d : ℕ) {tmp : TmpResult} (reduced : tmp.Reduced) :
    (accumulate (fun tmp a x => dotprodUpdateModP a x tmp) table d tmp ts).Reduced ∧
      (accumulate (fun tmp a x => dotprodUpdateModP a x tmp) table d tmp ts).residue =
        tmp.residue + dot table d ts := by
  rw [dot_eq_sum table ts ts.length d (Nat.le_refl _)]
  exact accumulate_products table ts d reduced

/-- The coefficient of table entry `i` in the dot product of a pedigree. -/
def coefficient (ranks : List Word) (i : ℕ) : ZMod prime :=
  ((ranks.map (· + 1)).getD i 0).toNat

/-- Every rank leaves room for the increment below the prime. -/
def Admissible (ranks : List Word) : Prop := ∀ r ∈ ranks, r.toNat + 1 < prime

theorem coefficient_val {ranks : List Word} (small : Admissible ranks) (i : ℕ) :
    (coefficient ranks i).val = if h : i < ranks.length then ranks[i].toNat + 1 else 0 := by
  unfold coefficient
  split
  case isTrue h =>
    have bound := small _ (List.getElem_mem h)
    have exact : (ranks[i] + 1).toNat = ranks[i].toNat + 1 := by
      rw [BitVec.toNat_add, show (1 : Word).toNat = 1 by decide]
      exact Nat.mod_eq_of_lt (bound.trans prime_lt)
    rw [List.getD_eq_getElem _ _ (by simpa using h), List.getElem_map, exact,
      ZMod.val_cast_of_lt bound]
  case isFalse h =>
    rw [List.getD_eq_default _ _ (by simpa using h)]
    simp

/-- A term is never zero, so the coefficients determine the length and then
every rank: pedigrees of different length do not alias. -/
theorem coefficient_injective {first second : List Word} (small₁ : Admissible first)
    (small₂ : Admissible second) (fits₁ : first.length ≤ maxTableLength)
    (fits₂ : second.length ≤ maxTableLength)
    (same : ∀ i < maxTableLength, coefficient first i = coefficient second i) :
    first = second := by
  have values (i : ℕ) (hi : i < maxTableLength) := congrArg ZMod.val (same i hi)
  simp only [coefficient_val small₁, coefficient_val small₂] at values
  have lengths : first.length = second.length := by
    by_contra different
    rcases Nat.lt_or_gt_of_ne different with shorter | longer
    · have := values first.length (by omega)
      simp [shorter] at this
    · have := values second.length (by omega)
      simp [longer] at this
  apply List.ext_getElem lengths
  intro i h₁ h₂
  have := values i (by omega)
  rw [dif_pos h₁, dif_pos h₂] at this
  exact BitVec.eq_of_toNat_eq (by omega)

theorem primeGenerator_entry (table : Fin maxTableLength → Fin prime) (X : Word)
    (i : Fin maxTableLength) : ((primeGenerator table X).entry i).toNat = table i := by
  have inside : i.val < (primeGenerator table X).tableLength := i.isLt
  rw [DotMixGeneric.entry, dif_pos inside]
  exact Nat.mod_eq_of_lt ((table i).isLt.trans prime_lt)

/-- The hash of a pedigree before mixing: the linear form over the table. -/
def hashResidue (ranks : List Word) (table : Fin maxTableLength → Fin prime) : ZMod prime :=
  ∑ i : Fin maxTableLength, coefficient ranks i * (table i).val

/-- On a chain the generator returns the mixed sum of the offset and the hash,
and bumps the leaf rank; it cannot fail. -/
theorem getDmixPrime_chain (iterations : ℕ) (table : Fin maxTableLength → Fin prime) (X : Word)
    (w : Worker) {ranks : List Word} (chain : Chain w.nodes w.leaf ranks)
    (fits : ranks.length ≤ maxTableLength) :
    getDmixPrime iterations (primeGenerator table X) w =
      .ok (mix iterations (X + BitVec.ofNat 64 (hashResidue ranks table).val), w.bumpRank) := by
  have scopedChain : ScopedChain w.nodes (primeGenerator table X).stopNode w.leaf ranks := chain.global
  have compressed := compressReverse_chain (dmixPrimeSum (primeGenerator table X))
    (primeGenerator table X) w scopedChain fits (BitVec.le_def.mpr (Nat.zero_le _))
  obtain ⟨reduced, residue⟩ := accumulate_residue (primeGenerator table X).entry
    (terms globalStopNode ranks) 0 zero_reduced
  have hash : TmpResult.residue (accumulate (fun tmp a x => dotprodUpdateModP a x tmp)
      (primeGenerator table X).entry 0 .zero (terms globalStopNode ranks)) =
        hashResidue ranks table := by
    rw [residue, zero_residue, zero_add, terms_global,
      dot_eq_sum _ _ maxTableLength 0 (by simpa using fits), hashResidue,
      ← Fin.sum_univ_eq_sum_range]
    simp only [Nat.zero_add, primeGenerator_entry, coefficient]
  have finished := finalizeDotprodModP_toNat X reduced
  rw [hash] at finished
  have word : finalizeDotprodModP X (accumulate (fun tmp a x => dotprodUpdateModP a x tmp)
      (primeGenerator table X).entry 0 .zero (terms globalStopNode ranks)) =
        X + BitVec.ofNat 64 (hashResidue ranks table).val := by
    apply BitVec.eq_of_toNat_eq
    rw [finished, BitVec.toNat_add, BitVec.toNat_ofNat, Nat.add_mod_mod]
  simp only [getDmixPrime, getCompressedPedigreeDmixPrime, compressed, bind, Except.bind, pure,
    Except.pure]
  exact congrArg (fun x => Except.ok (mix iterations x, w.bumpRank)) word

theorem offset_hash_injective (X : Word) {a b : ZMod prime}
    (same : X + BitVec.ofNat 64 a.val = X + BitVec.ofNat 64 b.val) : a = b := by
  have cancelled := congrArg BitVec.toNat (add_left_cancel same)
  rw [BitVec.toNat_ofNat, BitVec.toNat_ofNat, Nat.mod_eq_of_lt ((ZMod.val_lt a).trans prime_lt),
    Nat.mod_eq_of_lt ((ZMod.val_lt b).trans prime_lt)] at cancelled
  exact ZMod.val_injective prime cancelled

/-- Table entries below the prime are exactly the residues. -/
def residueEquiv : Fin prime ≃ ZMod prime where
  toFun x := x.val
  invFun z := ⟨z.val, ZMod.val_lt z⟩
  left_inv x := Fin.ext (ZMod.val_cast_of_lt x.isLt)
  right_inv z := ZMod.natCast_zmod_val z

/-- For every offset, two distinct pedigrees of lengths 1 to 1024 (ranks leaf
first, on any two chains that end in NULL) receive equal values from exactly
p^1023 of the p^1024 tables. -/
theorem getDmixPrime_collisions (X : Word) (v w : Worker) (first second : List Word)
    (chain₁ : Chain v.nodes v.leaf first) (chain₂ : Chain w.nodes w.leaf second)
    (fits₁ : first.length ≤ maxTableLength) (fits₂ : second.length ≤ maxTableLength)
    (small₁ : Admissible first) (small₂ : Admissible second) (distinct : first ≠ second) :
    {table : Fin maxTableLength → Fin prime | ∃ value,
      (getDmixPrime 4 (primeGenerator table X) v).map Prod.fst = .ok value ∧
      (getDmixPrime 4 (primeGenerator table X) w).map Prod.fst = .ok value}.ncard = prime ^ 1023 := by
  let form (i : Fin maxTableLength) : ZMod prime := coefficient first i - coefficient second i
  have nonzero : form ≠ 0 := by
    intro vanishes
    apply distinct
    apply coefficient_injective small₁ small₂ fits₁ fits₂
    intro i hi
    exact sub_eq_zero.mp (congrFun vanishes ⟨i, hi⟩)
  let lift := Equiv.arrowCongr (Equiv.refl (Fin maxTableLength)) residueEquiv
  have image : {table : Fin maxTableLength → Fin prime | ∃ value,
      (getDmixPrime 4 (primeGenerator table X) v).map Prod.fst = .ok value ∧
      (getDmixPrime 4 (primeGenerator table X) w).map Prod.fst = .ok value} =
        Set.preimage lift {t | ∑ i, form i * t i = 0} := by
    ext table
    change (∃ value, (getDmixPrime 4 (primeGenerator table X) v).map Prod.fst = .ok value ∧
      (getDmixPrime 4 (primeGenerator table X) w).map Prod.fst = .ok value) ↔
        ∑ i, form i * lift table i = 0
    rw [getDmixPrime_chain 4 table X v chain₁ fits₁, getDmixPrime_chain 4 table X w chain₂ fits₂]
    have split : ∑ i, form i * lift table i = hashResidue first table - hashResidue second table := by
      rw [hashResidue, hashResidue, ← Finset.sum_sub_distrib]
      exact Finset.sum_congr rfl fun i _ => sub_mul _ _ _
    rw [split, sub_eq_zero]
    constructor
    · rintro ⟨value, left, right⟩
      have same := (Except.ok.inj left).trans (Except.ok.inj right).symm
      exact offset_hash_injective X (mix_injective 4 same)
    · intro same
      exact ⟨_, rfl, by rw [same]; rfl⟩
  have count := card_zeros_linear_form (n := 1023) form nonzero
  rw [Nat.card_zmod] at count
  rw [image, Set.ncard_preimage_of_injective_subset_range lift.injective (by simp)]
  exact count

/-- A root node and its child of the same rank: pedigrees [0] and [0, 0]. -/
theorem getDmixPrime_collisions_nested :
    {table : Fin maxTableLength → Fin prime | ∃ value,
      (getDmixPrime 4 (primeGenerator table 7) ⟨fun _ => none, ⟨0, none⟩⟩).map Prod.fst = .ok value ∧
      (getDmixPrime 4 (primeGenerator table 7)
        ⟨fun _ => some ⟨0, none⟩, ⟨0, some 0⟩⟩).map Prod.fst = .ok value}.ncard = prime ^ 1023 :=
  getDmixPrime_collisions 7 ⟨fun _ => none, ⟨0, none⟩⟩ ⟨fun _ => some ⟨0, none⟩, ⟨0, some 0⟩⟩
    [0] [0, 0] (.root rfl) (.up rfl rfl (.root rfl)) (by decide) (by decide)
    (by simp [Admissible, prime]) (by simp [Admissible, prime]) (by decide)

end CilkArtifact.DotMix
