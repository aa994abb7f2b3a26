import CilkArtifact.Cholesky.Quadtree

/-! What the operations on quadtrees do to the entries of the matrices. -/
namespace CilkArtifact.Cholesky
open Quadtree
variable {K : Type} {level : ℕ}

theorem size_zero : size 0 = BLOCK_SIZE := rfl

theorem size_succ (level : ℕ) : size (level + 1) = size level + size level := by
  rw [size, size, ← add_assoc, pow_succ, mul_two]

theorem size_pos (level : ℕ) : 0 < size level := Nat.two_pow_pos _

@[simp] theorem isNull_null : (null : Quadtree K level).isNull = true := rfl

@[simp] theorem isNull_leaf (address : ℕ) (block : Block K) : (leaf address block).isNull = false := rfl

@[simp] theorem isNull_internal (address : ℕ) (a00 a01 a10 a11 : Quadtree K level) :
    (internal address a00 a01 a10 a11).isNull = false := rfl

theorem isNull_iff (a : Quadtree K level) : a.isNull = true ↔ a = null := by
  cases a <;> simp

theorem isNull_of_pointer {a b : Quadtree K level} (same : a.pointer = b.pointer) : a.isNull = b.isNull := by
  rw [isNull, isNull, same]

theorem returns_assert {condition : Bool} {α : Type} {rest : Unit → Alloc α} {post : α → Prop}
    (holds : condition = true) (returns : Returns (rest ()) post) : Returns (assertTrue condition >>= rest) post := by
  have passed : Returns (assertTrue condition) fun _ => True := by
    rw [holds]
    exact returns_pure trivial
  exact passed.bind fun _ _ => returns

section Entries
variable [Zero K] {address : ℕ} {a00 a01 a10 a11 : Quadtree K level} {i j : ℕ}

@[simp] theorem get_null : get (null : Quadtree K level) i j = 0 := by
  rw [get]

@[simp] theorem get_leaf (block : Block K) : get (leaf address block) i j = block i j := by
  rw [get]

theorem get_00 (hi : i < size level) (hj : j < size level) :
    get (internal address a00 a01 a10 a11) i j = get a00 i j := by
  rw [get, if_pos hi, if_pos hj]

theorem get_01 (hi : i < size level) :
    get (internal address a00 a01 a10 a11) i (size level + j) = get a01 i j := by
  rw [get, if_pos hi, if_neg (by omega), Nat.add_sub_cancel_left]

theorem get_10 (hj : j < size level) :
    get (internal address a00 a01 a10 a11) (size level + i) j = get a10 i j := by
  rw [get, if_neg (by omega), if_pos hj, Nat.add_sub_cancel_left]

theorem get_11 : get (internal address a00 a01 a10 a11) (size level + i) (size level + j) = get a11 i j := by
  rw [get, if_neg (by omega), if_neg (by omega), Nat.add_sub_cancel_left, Nat.add_sub_cancel_left]

theorem get_children_00 (a : Quadtree K (level + 1)) (hi : i < size level) (hj : j < size level) :
    get a i j = get (children a).c00 i j := by
  cases a with
  | null => simp [children]
  | internal address a00 a01 a10 a11 => exact get_00 hi hj

theorem get_children_01 (a : Quadtree K (level + 1)) (hi : i < size level) :
    get a i (size level + j) = get (children a).c01 i j := by
  cases a with
  | null => simp [children]
  | internal address a00 a01 a10 a11 => exact get_01 hi

theorem get_children_10 (a : Quadtree K (level + 1)) (hj : j < size level) :
    get a (size level + i) j = get (children a).c10 i j := by
  cases a with
  | null => simp [children]
  | internal address a00 a01 a10 a11 => exact get_10 hj

theorem get_children_11 (a : Quadtree K (level + 1)) :
    get a (size level + i) (size level + j) = get (children a).c11 i j := by
  cases a with
  | null => simp [children]
  | internal address a00 a01 a10 a11 => exact get_11

/-- A property of all pairs of indices, quadrant by quadrant. -/
theorem forall_quadrants {P : ℕ → ℕ → Prop} (h00 : ∀ i j, i < size level → j < size level → P i j)
    (h01 : ∀ i j, i < size level → j < size level → P i (size level + j))
    (h10 : ∀ i j, i < size level → j < size level → P (size level + i) j)
    (h11 : ∀ i j, i < size level → j < size level → P (size level + i) (size level + j)) :
    ∀ i j, i < size (level + 1) → j < size (level + 1) → P i j := by
  intro i j hi hj
  rw [size_succ] at hi hj
  rcases lt_or_ge i (size level) with upper | lower
  · rcases lt_or_ge j (size level) with left | right
    · exact h00 i j upper left
    · obtain ⟨j, rfl⟩ := Nat.exists_eq_add_of_le right
      exact h01 i j upper (by omega)
  · obtain ⟨i, rfl⟩ := Nat.exists_eq_add_of_le lower
    rcases lt_or_ge j (size level) with left | right
    · exact h10 i j (by omega) left
    · obtain ⟨j, rfl⟩ := Nat.exists_eq_add_of_le right
      exact h11 i j (by omega) (by omega)

theorem leafOf_returns (r : Quadtree K 0) : Returns (leafOf r) fun node =>
    node.2 = get r ∧ (r.isNull = false → some node.1 = r.pointer) := by
  cases r with
  | null =>
    intro next
    refine ⟨(next, fun _ _ => 0), next + 1, rfl, ?_, fun present => by cases present⟩
    funext i j
    rw [get_null]
  | leaf address R =>
    refine returns_pure ⟨?_, fun _ => rfl⟩
    funext i j
    rw [get_leaf]

end Entries

/-! ### Products -/

/-- The node `r` was not replaced by another one. -/
def Kept (r r' : Quadtree K level) : Prop := r.isNull = false → r'.pointer = r.pointer

theorem Kept.trans {r r' r'' : Quadtree K level} (first : Kept r r') (second : Kept r' r'') : Kept r r'' := by
  intro present
  have same := first present
  rw [second (by rw [isNull_of_pointer same, present]), same]

theorem Kept.assertion {r r' : Quadtree K level} (kept : Kept r r') :
    (r.isNull || decide (r.pointer = r'.pointer)) = true := by
  cases present : r.isNull with
  | true => rfl
  | false => simp [kept present]

section Products
variable [CommRing K]

/-- Entries of `A Bᵀ`. -/
def product (n : ℕ) (A B : ℕ → ℕ → K) (i j : ℕ) : K := ∑ t ∈ Finset.range n, A i t * B j t

/-- What `mul_and_subT` has to make of `r`. -/
structure Subtracts (lower : Bool) (a b r r' : Quadtree K level) : Prop where
  entries : ∀ i j, i < size level → j < size level → get r' i j =
    if lower = true ∧ i < j then get r i j else get r i j - product (size level) (get a) (get b) i j
  kept : Kept r r'

theorem product_null_left (n : ℕ) (B : ℕ → ℕ → K) (i j : ℕ) :
    product n (get (null : Quadtree K level)) B i j = 0 := by
  simp [product]

theorem product_null_right (n : ℕ) (A : ℕ → ℕ → K) (i j : ℕ) :
    product n A (get (null : Quadtree K level)) i j = 0 := by
  simp [product]

/-- Nothing is subtracted when a factor is absent. -/
theorem Subtracts.absent {lower : Bool} {a b : Quadtree K level} (absent : a = null ∨ b = null)
    (r : Quadtree K level) : Subtracts lower a b r r := by
  refine ⟨fun i j _ _ => ?_, fun _ => rfl⟩
  rcases absent with rfl | rfl
  · rw [product_null_left, sub_zero, ite_self]
  · rw [product_null_right, sub_zero, ite_self]

/-- A call that is made only if both factors are there. -/
theorem Returns.guarded {lower : Bool} {a b r : Quadtree K level} {condition : Bool}
    (returns : a.isNull = false → b.isNull = false → Returns (mulAndSubT level lower a b r) (Subtracts lower a b r))
    (made : condition = (!a.isNull && !b.isNull)) :
    Returns (assignIf condition (mulAndSubT level lower a b r) r) (Subtracts lower a b r) := by
  rw [assignIf]
  cases ha : a.isNull with
  | true =>
    rw [if_neg (by simp [made, ha])]
    exact returns_pure (.absent (.inl ((isNull_iff a).mp ha)) r)
  | false =>
    cases hb : b.isNull with
    | true =>
      rw [if_neg (by simp [made, hb])]
      exact returns_pure (.absent (.inr ((isNull_iff b).mp hb)) r)
    | false =>
      rw [if_pos (by simp [made, ha, hb])]
      exact returns ha hb

theorem product_halves {n i j i' j' : ℕ} {A B A₀ A₁ B₀ B₁ : ℕ → ℕ → K} (left : ∀ t < n, A i t = A₀ i' t)
    (right : ∀ t < n, A i (n + t) = A₁ i' t) (left' : ∀ t < n, B j t = B₀ j' t)
    (right' : ∀ t < n, B j (n + t) = B₁ j' t) :
    product (n + n) A B i j = product n A₀ B₀ i' j' + product n A₁ B₁ i' j' := by
  simp only [product, Finset.sum_range_add]
  congr 1
  · exact Finset.sum_congr rfl fun t inside => by
      rw [left t (Finset.mem_range.mp inside), left' t (Finset.mem_range.mp inside)]
  · exact Finset.sum_congr rfl fun t inside => by
      rw [right t (Finset.mem_range.mp inside), right' t (Finset.mem_range.mp inside)]

theorem mulAndSubT_leaf (lower : Bool) (a b r : Quadtree K 0) (ha : a.isNull = false) (hb : b.isNull = false) :
    Returns (mulAndSubT 0 lower a b r) (Subtracts lower a b r) := by
  cases a with
  | null => cases ha
  | leaf addressA A =>
    cases b with
    | null => cases hb
    | leaf addressB B =>
      refine (leafOf_returns r).bind fun node fact => ?_
      obtain ⟨address, R⟩ := node
      obtain ⟨rfl, kept⟩ := fact
      have block : (if lower then blockSchurHalf (get r) A B else blockSchurFull (get r) A B) =
          some (subtracting (get r) A B fun i j =>
            if i < BLOCK_SIZE ∧ j < (if lower then i + 1 else BLOCK_SIZE) then BLOCK_SIZE else 0) := by
        cases lower with
        | true => exact blockSchur_eq (fun i => i + 1) (get r) A B
        | false => exact blockSchur_eq (fun _ => BLOCK_SIZE) (get r) A B
      refine (returns_lift block).bind fun R' same => returns_pure ⟨fun i j hi hj => ?_, kept⟩
      rw [size_zero] at hi hj
      rw [get_leaf, same, subtracting, size_zero]
      by_cases above : lower = true ∧ i < j
      · rw [if_pos above, if_pos above.1, if_neg (by omega), Finset.sum_range_zero, sub_zero]
      · rw [if_neg above, if_pos, product]
        · simp only [get_leaf]
        · cases lower with
          | false => exact ⟨hi, hj⟩
          | true =>
            rw [if_pos rfl]
            simp only [true_and] at above
            omega

/-- Two calls on one quadrant of `r`. -/
theorem Subtracts.entries_twice {lower : Bool} {a₀ b₀ a₁ b₁ r r' r'' : Quadtree K level}
    (first : Subtracts lower a₀ b₀ r r') (second : Subtracts lower a₁ b₁ r' r'') {i j : ℕ} (hi : i < size level)
    (hj : j < size level) : get r'' i j = if lower = true ∧ i < j then get r i j else
      get r i j - (product (size level) (get a₀) (get b₀) i j + product (size level) (get a₁) (get b₁) i j) := by
  rw [second.entries i j hi hj, first.entries i j hi hj]
  by_cases above : lower = true ∧ i < j
  · simp only [if_pos above]
  · simp only [if_neg above]
    ring

/-- The quadrant above the diagonal, which `lower` leaves alone. -/
def SubtractsUnless (lower : Bool) (a b r r' : Quadtree K level) : Prop :=
  if lower then r' = r else Subtracts false a b r r'

theorem SubtractsUnless.kept {lower : Bool} {a b r r' : Quadtree K level} (result : SubtractsUnless lower a b r r') :
    Kept r r' := by
  cases lower with
  | true =>
    obtain rfl : r' = r := result
    exact fun _ => rfl
  | false => exact Subtracts.kept result

theorem Returns.guarded_unless {lower : Bool} {a b r : Quadtree K level}
    (returns : a.isNull = false → b.isNull = false → Returns (mulAndSubT level false a b r) (Subtracts false a b r)) :
    Returns (assignIf (!lower && !a.isNull && !b.isNull) (mulAndSubT level false a b r) r)
      (SubtractsUnless lower a b r) := by
  cases lower with
  | true => exact returns_pure rfl
  | false => exact Returns.guarded returns rfl

theorem Subtracts.of_quadrants {lower : Bool} {a b r r' : Quadtree K (level + 1)} {m : Children K level}
    (s00 : Subtracts lower (children a).c00 (children b).c00 (children r).c00 m.c00)
    (s01 : SubtractsUnless lower (children a).c00 (children b).c10 (children r).c01 m.c01)
    (s10 : Subtracts false (children a).c10 (children b).c00 (children r).c10 m.c10)
    (s11 : Subtracts lower (children a).c10 (children b).c10 (children r).c11 m.c11)
    (t00 : Subtracts lower (children a).c01 (children b).c01 m.c00 (children r').c00)
    (t01 : SubtractsUnless lower (children a).c01 (children b).c11 m.c01 (children r').c01)
    (t10 : Subtracts false (children a).c11 (children b).c01 m.c10 (children r').c10)
    (t11 : Subtracts lower (children a).c11 (children b).c11 m.c11 (children r').c11) (kept : Kept r r') :
    Subtracts lower a b r r' := by
  refine ⟨forall_quadrants ?_ ?_ ?_ ?_, kept⟩
  · intro i j hi hj
    rw [get_children_00 r' hi hj, s00.entries_twice t00 hi hj, get_children_00 r hi hj, size_succ,
      product_halves (fun t ht => get_children_00 a hi ht) (fun t ht => get_children_01 a hi)
        (fun t ht => get_children_00 b hj ht) (fun t ht => get_children_01 b hj)]
  · intro i j hi hj
    rw [get_children_01 r' hi, get_children_01 r hi, size_succ,
      product_halves (fun t ht => get_children_00 a hi ht) (fun t ht => get_children_01 a hi)
        (fun t ht => get_children_10 b ht) (fun t ht => get_children_11 b)]
    cases lower with
    | true =>
      rw [if_pos ⟨rfl, by omega⟩]
      have first : m.c01 = (children r).c01 := s01
      have second : (children r').c01 = m.c01 := t01
      rw [second, first]
    | false =>
      rw [if_neg (by simp), Subtracts.entries_twice s01 t01 hi hj, if_neg (by simp)]
  · intro i j hi hj
    rw [get_children_10 r' hj, s10.entries_twice t10 hi hj, get_children_10 r hj, size_succ,
      product_halves (fun t ht => get_children_10 a ht) (fun t ht => get_children_11 a)
        (fun t ht => get_children_00 b hj ht) (fun t ht => get_children_01 b hj), if_neg (by simp), if_neg (by omega)]
  · intro i j hi hj
    rw [get_children_11 r', s11.entries_twice t11 hi hj, get_children_11 r, size_succ,
      product_halves (fun t ht => get_children_10 a ht) (fun t ht => get_children_11 a)
        (fun t ht => get_children_10 b ht) (fun t ht => get_children_11 b)]
    simp only [add_lt_add_iff_left]

theorem mulAndSubT_spec (level : ℕ) : ∀ (lower : Bool) (a b r : Quadtree K level), a.isNull = false →
    b.isNull = false → Returns (mulAndSubT level lower a b r) (Subtracts lower a b r) := by
  induction level with
  | zero => exact mulAndSubT_leaf
  | succ level ih =>
    intro lower a b r ha hb
    cases a with
    | null => cases ha
    | internal addressA a00 a01 a10 a11 =>
      cases b with
      | null => cases hb
      | internal addressB b00 b01 b10 b11 =>
        rw [mulAndSubT]
        refine (Returns.guarded (ih lower a00 b00 _) rfl).bind fun m00 s00 => ?_
        refine (Returns.guarded_unless (ih false a00 b10 _)).bind fun m01 s01 => ?_
        refine (Returns.guarded (ih false a10 b00 _) rfl).bind fun m10 s10 => ?_
        refine (Returns.guarded (ih lower a10 b10 _) rfl).bind fun m11 s11 => ?_
        refine (Returns.guarded (ih lower a01 b01 _) rfl).bind fun r00 t00 => ?_
        refine (Returns.guarded_unless (ih false a01 b11 _)).bind fun r01 t01 => ?_
        refine (Returns.guarded (ih false a11 b01 _) rfl).bind fun r10 t10 => ?_
        refine (Returns.guarded (ih lower a11 b11 _) rfl).bind fun r11 t11 => ?_
        have complete (r' : Quadtree K (level + 1)) (quadrants : children r' = ⟨r00, r01, r10, r11⟩)
            (kept : Kept r r') : Subtracts lower (internal addressA a00 a01 a10 a11)
              (internal addressB b00 b01 b10 b11) r r' := by
          refine Subtracts.of_quadrants (m := ⟨m00, m01, m10, m11⟩) s00 s01 s10 s11 ?_ ?_ ?_ ?_ kept
          all_goals rwa [quadrants]
        cases r with
        | null =>
          have fresh (r' : Quadtree K (level + 1)) : Kept null r' := fun present => by cases present
          by_cases filled : (!r00.isNull || !r01.isNull || !r10.isNull || !r11.isNull) = true
          · simp only [filled, if_true]
            exact fun next => ⟨internal next r00 r01 r10 r11, next + 1, rfl, complete _ rfl (fresh _)⟩
          · simp only [filled]
            refine returns_pure (complete null ?_ (fresh _))
            simp only [Bool.or_eq_true, Bool.not_eq_true', not_or, Bool.not_eq_false, isNull_iff] at filled
            obtain ⟨⟨⟨h00, h01⟩, h10⟩, h11⟩ := filled
            rw [h00, h01, h10, h11, children]
        | internal address c00 c01 c10 c11 =>
          apply returns_assert (s00.kept.trans t00.kept).assertion
          apply returns_assert (s01.kept.trans t01.kept).assertion
          apply returns_assert (s10.kept.trans t10.kept).assertion
          apply returns_assert (s11.kept.trans t11.kept).assertion
          exact returns_pure (complete _ rfl fun _ => rfl)

end Products

theorem Subtracts.solved [Field K] {x b r r' : Quadtree K level} {X : ℕ → ℕ → K} (result : Subtracts false x b r r')
    (same : ∀ i j, i < size level → j < size level → get x i j = X i j) (i j : ℕ) (hi : i < size level)
    (hj : j < size level) : get r' i j = get r i j - product (size level) X (get b) i j := by
  rw [result.entries i j hi hj, if_neg (by simp), product, product]
  congr 1
  exact Finset.sum_congr rfl fun t inside => by rw [same i t hi (Finset.mem_range.mp inside)]

/-! ### Substitution -/

section Substitution
variable [Field K]

/-- All blocks on the diagonal are there. -/
def Full {level : ℕ} : Quadtree K level → Prop
  | null => False
  | leaf _ _ => True
  | internal _ l00 _ _ l11 => Full l00 ∧ Full l11

omit [Field K] in
theorem Full.isNull {l : Quadtree K level} (full : Full l) : l.isNull = false := by
  cases l with
  | null => exact full.elim
  | leaf address block => rfl
  | internal address l00 l01 l10 l11 => rfl

variable {n : ℕ} {B U X : ℕ → ℕ → K}

theorem Solves.eq_zero (solves : Solves n B U X) (pivots : ∀ i < n, U i i ≠ 0)
    (zero : ∀ r c, r < n → c < n → B r c = 0) {r : ℕ} (hr : r < n) (c : ℕ) (hc : c < n) : X r c = 0 := by
  induction c using Nat.strong_induction_on with
  | _ c ih =>
    have equation := solves r c hr hc
    rw [zero r c hr hc, Finset.sum_eq_zero, zero_add] at equation
    · exact (mul_eq_zero.mp equation.symm).resolve_right (pivots c hc)
    · intro t before
      rw [Finset.mem_range] at before
      rw [ih t before (by omega), mul_zero]

section Halves
variable (ρ : ℕ → ℕ) {B₀ B₁ U₀₀ U₁₀ U₁₁ M : ℕ → ℕ → K}

/-- The left half of some of the rows solves a system of its own. -/
theorem Solves.left (solves : Solves (n + n) B U X) (rows : ∀ i < n, ρ i < n + n)
    (half : ∀ i j, i < n → j < n → B (ρ i) j = B₀ i j) (corner : ∀ i j, i < n → j < n → U i j = U₀₀ i j) :
    Solves n B₀ U₀₀ fun i j => X (ρ i) j := by
  intro i j hi hj
  rw [← half i j hi hj, solves (ρ i) j (rows i hi) (by omega), corner j j hj hj]
  congr 1
  apply Finset.sum_congr rfl
  intro t before
  rw [Finset.mem_range] at before
  rw [corner j t hj (by omega)]

/-- So does the right half, once the left half is multiplied out. -/
theorem Solves.right (solves : Solves (n + n) B U X) (rows : ∀ i < n, ρ i < n + n)
    (half : ∀ i j, i < n → j < n → B (ρ i) (n + j) = B₁ i j)
    (below : ∀ i j, i < n → j < n → U (n + i) j = U₁₀ i j)
    (corner : ∀ i j, i < n → j < n → U (n + i) (n + j) = U₁₁ i j)
    (multiplied : ∀ i j, i < n → j < n → M i j = B₁ i j - product n (fun i j => X (ρ i) j) U₁₀ i j) :
    Solves n M U₁₁ fun i j => X (ρ i) (n + j) := by
  intro i j hi hj
  have first : ∑ t ∈ Finset.range n, U (n + j) t * X (ρ i) t = product n (fun i j => X (ρ i) j) U₁₀ i j := by
    apply Finset.sum_congr rfl
    intro t before
    rw [Finset.mem_range] at before
    rw [below j t hj before, mul_comm]
  have second : ∑ t ∈ Finset.range j, U (n + j) (n + t) * X (ρ i) (n + t) =
      ∑ t ∈ Finset.range j, U₁₁ j t * X (ρ i) (n + t) := by
    apply Finset.sum_congr rfl
    intro t before
    rw [Finset.mem_range] at before
    rw [corner j t hj (by omega)]
  rw [multiplied i j hi hj, ← half i j hi hj, solves (ρ i) (n + j) (rows i hi) (by omega), Finset.sum_range_add,
    first, second, corner j j hj hj]
  ring

end Halves

variable [LinearOrder K]

theorem Returns.guarded_backsub {a l : Quadtree K level} (pivots : ∀ i < size level, get l i i ≠ 0)
    (solves : Solves (size level) (get a) (get l) X)
    (returns : a.isNull = false → Returns (backsub level a l) fun a' =>
      (∀ i j, i < size level → j < size level → get a' i j = X i j) ∧ a'.isNull = false) :
    Returns (assignIf (!a.isNull) (backsub level a l) a) fun a' =>
      ∀ i j, i < size level → j < size level → get a' i j = X i j := by
  rw [assignIf]
  cases present : a.isNull with
  | false => exact (returns present).mono fun a' result => result.1
  | true =>
    obtain rfl := (isNull_iff a).mp present
    refine returns_pure fun i j hi hj => ?_
    rw [get_null, solves.eq_zero pivots (fun r c _ _ => get_null) hi j hj]

theorem backsub_spec (level : ℕ) : ∀ {a l : Quadtree K level} {X : ℕ → ℕ → K}, a.isNull = false → Full l →
    (∀ i < size level, get l i i ≠ 0) → Solves (size level) (get a) (get l) X →
    Returns (backsub level a l) fun a' =>
      (∀ i j, i < size level → j < size level → get a' i j = X i j) ∧ a'.isNull = false := by
  induction level with
  | zero =>
    intro a l X ha full pivots solves
    cases a with
    | null => cases ha
    | leaf addressA A =>
      cases l with
      | null => exact full.elim
      | leaf addressL L =>
        simp only [get_leaf] at pivots
        have solves : Solves BLOCK_SIZE A L X := by
          intro i j hi hj
          simpa only [get_leaf] using solves i j hi hj
        refine (returns_lift (blockBacksub_eq pivots solves)).bind fun A' same => returns_pure ⟨?_, rfl⟩
        intro i j hi hj
        rw [get_leaf, same]
        exact if_pos ⟨hi, hj⟩
  | succ level ih =>
    intro a l X ha full pivots solves
    cases a with
    | null => cases ha
    | internal addressA a00 a01 a10 a11 =>
      cases l with
      | null => exact full.elim
      | internal addressL l00 l01 l10 l11 =>
        rw [size_succ] at pivots solves
        have pivots₀ (i : ℕ) (hi : i < size level) : get l00 i i ≠ 0 := by
          have := pivots i (by omega)
          rwa [get_00 hi hi] at this
        have pivots₁ (i : ℕ) (hi : i < size level) : get l11 i i ≠ 0 := by
          have := pivots (size level + i) (by omega)
          rwa [get_11] at this
        have upper := solves.left (fun i => i) (fun i hi => by omega) (fun i j hi hj => get_00 hi hj)
          (fun i j hi hj => get_00 hi hj)
        have lower := solves.left (fun i => size level + i) (fun i hi => by omega) (fun i j hi hj => get_10 hj)
          (fun i j hi hj => get_00 hi hj)
        rw [backsub]
        apply returns_assert (by rw [full.1.isNull, full.2.isNull]; rfl)
        refine (Returns.guarded_backsub pivots₀ upper fun present => ih present full.1 pivots₀ upper).bind
          fun x00 same00 => ?_
        refine (Returns.guarded_backsub pivots₀ lower fun present => ih present full.1 pivots₀ lower).bind
          fun x10 same10 => ?_
        refine (Returns.guarded (mulAndSubT_spec level false x00 l10 a01) rfl).bind fun m01 s01 => ?_
        refine (Returns.guarded (mulAndSubT_spec level false x10 l10 a11) rfl).bind fun m11 s11 => ?_
        have upper' := solves.right (fun i => i) (fun i hi => by omega) (fun i j hi hj => get_01 hi)
          (fun i j hi hj => get_10 hj) (fun i j hi hj => get_11) (s01.solved same00)
        have lower' := solves.right (fun i => size level + i) (fun i hi => by omega) (fun i j hi hj => get_11)
          (fun i j hi hj => get_10 hj) (fun i j hi hj => get_11) (s11.solved same10)
        refine (Returns.guarded_backsub pivots₁ upper' fun present => ih present full.2 pivots₁ upper').bind
          fun x01 same01 => ?_
        refine (Returns.guarded_backsub pivots₁ lower' fun present => ih present full.2 pivots₁ lower').bind
          fun x11 same11 => returns_pure ⟨forall_quadrants ?_ ?_ ?_ ?_, rfl⟩
        · intro i j hi hj
          rw [get_00 hi hj, same00 i j hi hj]
        · intro i j hi hj
          rw [get_01 hi, same01 i j hi hj]
        · intro i j hi hj
          rw [get_10 hj, same10 i j hi hj]
        · intro i j hi hj
          rw [get_11, same11 i j hi hj]

end Substitution

/-! ### Factorisation -/

section Factorisation
variable [Field K] {n : ℕ} {S G M : ℕ → ℕ → K}

/-- The rows below the first half solve a system with the factor of the first half. -/
theorem solves_of_isCholesky (factors : IsCholesky (n + n) S G) {B U : ℕ → ℕ → K}
    (half : ∀ i j, i < n → j < n → S (n + i) j = B i j) (corner : ∀ i j, j ≤ i → i < n → U i j = G i j) :
    Solves n B U fun i j => G (n + i) j := by
  intro i j hi hj
  rw [← half i j hi hj, factors (n + i) j (by omega) (by omega), corner j j le_rfl hj]
  congr 1
  apply Finset.sum_congr rfl
  intro t before
  rw [Finset.mem_range] at before
  rw [corner j t before.le hj, mul_comm]

/-- The rest of the factor belongs to the Schur complement. -/
theorem isCholesky_corner (factors : IsCholesky (n + n) S G) (multiplied : ∀ i j, j ≤ i → i < n →
      M i j = S (n + i) (n + j) - product n (fun i j => G (n + i) j) (fun i j => G (n + i) j) i j) :
    IsCholesky n M fun i j => G (n + i) (n + j) := by
  intro r c above inside
  rw [multiplied r c above inside, factors (n + r) (n + c) (by omega) (by omega), Finset.sum_range_add, product]
  ring

section Quarters
variable {address : ℕ} {a00 a01 a10 a11 x00 x10 m11 x11 : Quadtree K level}

/-- What is left of the last quarter is factored by the rest of the factor. -/
theorem isCholesky_complement (factors : IsCholesky (size level + size level) (get (internal address a00 a01 a10 a11)) G)
    (result10 : ∀ i j, i < size level → j < size level → get x10 i j = G (size level + i) j)
    (s11 : Subtracts true x10 x10 a11 m11) :
    IsCholesky (size level) (get m11) fun i j => G (size level + i) (size level + j) := by
  refine isCholesky_corner factors fun i j above inside => ?_
  rw [s11.entries i j inside (by omega), if_neg (by omega), get_11, product, product]
  congr 1
  apply Finset.sum_congr rfl
  intro t before
  rw [Finset.mem_range] at before
  rw [result10 i t inside before, result10 j t (by omega) before]

/-- The factor is made of its quarters, and nothing changes above the diagonal. -/
theorem get_factor (result00 : ∀ i j, i < size level → j < size level →
      get x00 i j = if j ≤ i then G i j else get a00 i j)
    (result10 : ∀ i j, i < size level → j < size level → get x10 i j = G (size level + i) j)
    (s11 : Subtracts true x10 x10 a11 m11)
    (result11 : ∀ i j, i < size level → j < size level → get x11 i j =
      if j ≤ i then G (size level + i) (size level + j) else get m11 i j) :
    ∀ i j, i < size (level + 1) → j < size (level + 1) → get (internal address x00 a01 x10 x11) i j =
      if j ≤ i then G i j else get (internal address a00 a01 a10 a11) i j := by
  refine forall_quadrants ?_ ?_ ?_ ?_
  · intro i j hi hj
    rw [get_00 hi hj, get_00 hi hj, result00 i j hi hj]
  · intro i j hi hj
    rw [get_01 hi, get_01 hi, if_neg (by omega)]
  · intro i j hi hj
    rw [get_10 hj, result10 i j hi hj, if_pos (by omega)]
  · intro i j hi hj
    rw [get_11, get_11, result11 i j hi hj]
    by_cases below : j ≤ i
    · rw [if_pos below, if_pos (by omega)]
    · rw [if_neg below, if_neg (by omega), s11.entries i j hi hj, if_pos ⟨rfl, by omega⟩]

end Quarters

variable [LinearOrder K] [IsStrictOrderedRing K] {sqrt : K → K}

theorem present_of_isCholesky {a : Quadtree K level} (factors : IsCholesky (size level) (get a) G)
    (pivots : ∀ i < size level, 0 < G i i) : a.isNull = false := by
  cases a with
  | null =>
    have corner := factors 0 0 le_rfl (size_pos level)
    have pivot := pivots 0 (size_pos level)
    rw [get_null, Finset.sum_range_zero, zero_add] at corner
    exact absurd corner (mul_pos pivot pivot).ne
  | leaf address block => rfl
  | internal address a00 a01 a10 a11 => rfl

theorem cholesky_spec (exact : ExactRoot sqrt) (level : ℕ) : ∀ {a : Quadtree K level} {G : ℕ → ℕ → K},
    (∀ i < size level, 0 < G i i) → IsCholesky (size level) (get a) G →
    Returns (cholesky sqrt level a) fun a' =>
      (∀ i j, i < size level → j < size level → get a' i j = if j ≤ i then G i j else get a i j) ∧ Full a' := by
  induction level with
  | zero =>
    intro a G pivots factors
    have present := present_of_isCholesky factors pivots
    cases a with
    | null => cases present
    | leaf address A =>
      have factors : IsCholesky BLOCK_SIZE A G := by
        intro r c above inside
        simpa only [get_leaf] using factors r c above inside
      refine (returns_lift (blockCholesky_eq exact pivots factors)).bind fun A' same => returns_pure ⟨?_, trivial⟩
      intro i j hi hj
      rw [get_leaf, get_leaf, same]
      exact if_congr (and_iff_left hi) rfl rfl
  | succ level ih =>
    intro a G pivots factors
    have present := present_of_isCholesky factors pivots
    rw [size_succ] at pivots factors
    cases a with
    | null => cases present
    | internal address a00 a01 a10 a11 =>
      have positive : 0 < size level := size_pos level
      have factors00 : IsCholesky (size level) (get a00) G := by
        intro r c above inside
        rw [← factors r c above (by omega), get_00 inside (by omega)]
      have pivots00 (i : ℕ) (hi : i < size level) : 0 < G i i := pivots i (by omega)
      have pivots11 (i : ℕ) (hi : i < size level) : 0 < G (size level + i) (size level + i) := pivots _ (by omega)
      rw [cholesky]
      apply returns_assert (by rw [present_of_isCholesky factors00 pivots00]; rfl)
      cases absent : a10.isNull with
      | true =>
        obtain rfl := (isNull_iff a10).mp absent
        have solves := solves_of_isCholesky factors (fun i j hi hj => get_10 hj) fun i j _ _ => rfl
        have result10 (i j : ℕ) (hi : i < size level) (hj : j < size level) :
            get (null : Quadtree K level) i j = G (size level + i) j := by
          rw [get_null, solves.eq_zero (fun i hi => (pivots00 i hi).ne') (fun r c _ _ => get_null) hi j hj]
        have s11 : Subtracts true null null a11 a11 := .absent (.inl rfl) a11
        refine (ih pivots00 factors00).bind fun x00 result00 => ?_
        refine (ih pivots11 (isCholesky_complement factors result10 s11)).bind fun x11 result11 => ?_
        exact returns_pure ⟨get_factor result00.1 result10 s11 result11.1, result00.2, result11.2⟩
      | false =>
        refine (ih pivots00 factors00).bind fun x00 result00 => ?_
        apply returns_assert (by rw [result00.2.isNull]; rfl)
        have corner (i j : ℕ) (above : j ≤ i) (inside : i < size level) : get x00 i j = G i j := by
          rw [result00.1 i j inside (by omega), if_pos above]
        have solves := solves_of_isCholesky factors (fun i j hi hj => get_10 hj) corner
        refine (backsub_spec level absent result00.2 (fun i hi => ?_) solves).bind fun x10 result10 => ?_
        · rw [corner i i le_rfl hi]
          exact (pivots00 i hi).ne'
        apply returns_assert (by rw [result10.2]; rfl)
        refine (mulAndSubT_spec level true x10 x10 a11 result10.2 result10.2).bind fun m11 s11 => ?_
        have factors11 := isCholesky_complement factors result10.1 s11
        apply returns_assert (by rw [present_of_isCholesky factors11 pivots11]; rfl)
        refine (ih pivots11 factors11).bind fun x11 result11 => ?_
        apply returns_assert (by rw [result11.2.isNull]; rfl)
        exact returns_pure ⟨get_factor result00.1 result10.1 s11 result11.1, result00.2, result11.2⟩

end Factorisation

end CilkArtifact.Cholesky
