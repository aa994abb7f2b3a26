import CilkArtifact.Cholesky.Ownership

/-! The quadtree in memory as a sparse matrix: what `set_matrix`, `get_matrix` and `copy_matrix` do to its entries, and
what `num_blocks` and `num_nonzeros` count. -/
namespace CilkArtifact.Cholesky
open Quadtree Quarter
variable {K : Type} {level : ℕ} {m m' : Memory K}

/-- `1 << depth` does not overflow. -/
def Shiftable (level : ℕ) : Prop := BLOCK_DEPTH + level ≤ 30

theorem Shiftable.lower (shiftable : Shiftable (level + 1)) : Shiftable level := by
  rw [Shiftable] at *
  omega

theorem Shiftable.oneShifted (shiftable : Shiftable level) : oneShifted (BLOCK_DEPTH + level) = some (size level) :=
  if_pos (Nat.lt_succ_of_le shiftable)

theorem Shiftable.checkIndices {r c : ℕ} (shiftable : Shiftable level) (hr : r < size level) (hc : c < size level) :
    checkIndices level r c = some () := by
  simp only [Cholesky.checkIndices, shiftable.oneShifted, assertThat_true hr, assertThat_true hc, Option.bind_eq_bind,
    Option.bind_some]

/-- The indices in a quadrant are inside of it. -/
theorem quadrant_inside {r c : ℕ} (hr : r < size (level + 1)) (hc : c < size (level + 1)) :
    (quadrant (size level) r c).2.1 < size level ∧ (quadrant (size level) r c).2.2 < size level := by
  rw [size_succ] at hr hc
  rw [quadrant]
  by_cases upper : r < size level
  · rw [if_pos upper]
    by_cases left : c < size level
    · rw [if_pos left]
      exact ⟨upper, left⟩
    · rw [if_neg left]
      exact ⟨upper, by change c - size level < size level; omega⟩
  · rw [if_neg upper]
    by_cases left : c < size level
    · rw [if_pos left]
      exact ⟨by change r - size level < size level; omega, left⟩
    · rw [if_neg left]
      exact ⟨by change r - size level < size level; omega, by change c - size level < size level; omega⟩

/-! ### Reading -/

section Reading
variable [Zero K]

theorem get_quadrant (a : Quadtree K (level + 1)) (r c : ℕ) : get a r c =
    get ((children a).at (quadrant (size level) r c).1) (quadrant (size level) r c).2.1
      (quadrant (size level) r c).2.2 := by
  cases a with
  | null =>
    rw [get_null]
    by_cases upper : r < size level <;> by_cases left : c < size level <;>
      simp [quadrant, upper, left, children, Children.at, quarters]
  | internal address a00 a01 a10 a11 =>
    rw [get]
    by_cases upper : r < size level <;> by_cases left : c < size level <;>
      simp [quadrant, upper, left, children, Children.at, quarters]

theorem getMatrixAt_eq (level : ℕ) : ∀ {a : Quadtree K level} {r c : ℕ}, Shiftable level → a.Denotes m →
    r < size level → c < size level → getMatrixAt m level a.pointer r c = some (get a r c) := by
  induction level with
  | zero =>
    intro a r c shiftable denotes hr hc
    rw [getMatrixAt, shiftable.checkIndices hr hc, Option.bind_eq_bind, Option.bind_some]
    cases absent : a.isNull with
    | true =>
      rw [if_pos ((pointer_eq_none_iff a).mpr absent), (isNull_iff a).mp absent, get_null]
    | false =>
      rw [if_neg (pointer_ne_none absent), denotes.block absent]
      rfl
  | succ level ih =>
    intro a r c shiftable denotes hr hc
    rw [getMatrixAt, shiftable.checkIndices hr hc, Option.bind_eq_bind, Option.bind_some]
    cases absent : a.isNull with
    | true =>
      rw [if_pos ((pointer_eq_none_iff a).mpr absent), (isNull_iff a).mp absent, get_null]
    | false =>
      obtain ⟨hr', hc'⟩ := quadrant_inside hr hc
      rw [if_neg (pointer_ne_none absent), shiftable.lower.oneShifted, denotes.child absent, get_quadrant]
      exact ih shiftable.lower (denotes.children _) hr' hc'

end Reading

/-! ### Writing -/

/-- Memory with no trees of its own yet. -/
theorem holding_null (m : Memory K) : Holding m ∅ (fun _ => (null : Quadtree K level)) m :=
  ⟨fun _ => trivial, fun _ => trivial, fun _ _ _ _ member => member.elim, fun _ _ member => member.elim,
    fun _ _ _ => rfl, Nat.le_refl _⟩

section Writing
variable [Zero K]

/-- The node that an update of `a` writes to, with its children as they were. -/
structure NodeReady (m : Memory K) (a : Quadtree K (level + 1)) (address : ℕ) (m₁ : Memory K) : Prop where
  onPointers : nodeAt a.pointer m = (some address, m₁)
  owned : Owned m₁ (nodeOver address (children a).at)
  updated : ∀ {t : Quadtree K (level + 1)} {m' : Memory K},
    Updated m₁ (nodeOver address (children a).at).addresses t m' → Updated m a.addresses t m'

omit [Zero K] in
theorem Owned.nodeReady {a : Quadtree K (level + 1)} (owned : Owned m a) : ∃ address m₁, NodeReady m a address m₁ := by
  cases a with
  | null =>
    have node : Updated m ∅ (nodeOver m.next fun _ => (null : Quadtree K level)) _ := (holding_null m).alloc
    have same : (children (null : Quadtree K (level + 1))).at = fun _ => null := quarters_eta fun _ => null
    have root : ∀ x ∈ (nodeOver m.next fun _ => (null : Quadtree K level)).addresses, m.next ≤ x :=
      fun x member => ((node.addresses x member).1).resolve_left fun absent => absent
    refine ⟨m.next, (m.alloc (.internal fun _ => none)).2, rfl, ?_, ?_⟩
    · rw [same]
      exact ⟨node.denotes, node.distinct, fun x member => (node.addresses x member).2⟩
    · rw [same]
      intro t m' updated
      refine ⟨updated.denotes, updated.distinct, ?_, ?_, node.next.trans updated.next⟩
      · intro x member
        obtain ⟨old | new, inside⟩ := updated.addresses x member
        · exact ⟨.inr (root x old), inside⟩
        · exact ⟨.inr (node.next.trans new), inside⟩
      · intro x outside old
        have other : x ∉ (nodeOver m.next fun _ => (null : Quadtree K level)).addresses :=
          fun member => absurd old (Nat.not_lt.mpr (root x member))
        exact (updated.frame x other (old.trans_le node.next)).trans (node.frame x (fun absent => absent) old)
  | internal address a00 a01 a10 a11 =>
    exact ⟨address, m, rfl, owned, fun updated => updated⟩

/-- The blocks that are there, by their positions. -/
def HasBlock {level : ℕ} : Quadtree K level → ℕ → ℕ → Prop
  | null, _, _ => False
  | leaf _ _, i, j => i = 0 ∧ j = 0
  | @internal _ level _ a00 a01 a10 a11, i, j =>
    HasBlock ((Children.mk a00 a01 a10 a11).at (quadrant (2 ^ level) i j).1) (quadrant (2 ^ level) i j).2.1
      (quadrant (2 ^ level) i j).2.2

theorem get_nodeOver (address : ℕ) (t : Quarter → Quadtree K level) (r c : ℕ) : get (nodeOver address t) r c =
    get (t (quadrant (size level) r c).1) (quadrant (size level) r c).2.1 (quadrant (size level) r c).2.2 := by
  rw [get_quadrant, children_nodeOver]

/-- Two positions in the same quadrant are the same if they are there. -/
theorem quadrant_inj {mid r c r' c' : ℕ} (same : quadrant mid r c = quadrant mid r' c') : r = r' ∧ c = c' := by
  unfold quadrant at same
  by_cases h₁ : r < mid <;> by_cases h₂ : c < mid <;> by_cases h₃ : r' < mid <;> by_cases h₄ : c' < mid <;>
    simp [h₁, h₂, h₃, h₄] at same <;> omega

/-- What a call of `set_matrix` leaves behind. -/
structure EntrySet (m : Memory K) (a : Quadtree K level) (r c : ℕ) (value : K) (a' : Quadtree K level)
    (m' : Memory K) : Prop where
  updated : Updated m a.addresses a' m'
  entries : ∀ i j, get a' i j = setEntry (get a) r c value i j
  blocks : ∀ i j, HasBlock a' i j ↔ HasBlock a i j ∨ i = r / BLOCK_SIZE ∧ j = c / BLOCK_SIZE

omit [Zero K] in
theorem hasBlock_quadrant (a : Quadtree K (level + 1)) (i j : ℕ) : HasBlock a i j ↔
    HasBlock ((children a).at (quadrant (2 ^ level) i j).1) (quadrant (2 ^ level) i j).2.1
      (quadrant (2 ^ level) i j).2.2 := by
  cases a with
  | null =>
    have absent : ∀ q, (children (null : Quadtree K (level + 1))).at q = null := congrFun (quarters_eta fun _ => null)
    rw [absent]
    simp only [HasBlock]
  | internal address a00 a01 a10 a11 => rfl

/-- Quadrants are made of whole blocks. -/
theorem quadrant_block (level r c : ℕ) : quadrant (2 ^ level) (r / BLOCK_SIZE) (c / BLOCK_SIZE) =
    ((quadrant (size level) r c).1, (quadrant (size level) r c).2.1 / BLOCK_SIZE,
      (quadrant (size level) r c).2.2 / BLOCK_SIZE) := by
  have mid : size level = BLOCK_SIZE * 2 ^ level := pow_add 2 BLOCK_DEPTH level
  have positive : 0 < BLOCK_SIZE := Nat.two_pow_pos _
  have below : ∀ n, n / BLOCK_SIZE < 2 ^ level ↔ n < size level := by
    intro n
    rw [mid, Nat.div_lt_iff_lt_mul positive, mul_comm]
  have shifted : ∀ n, (n - size level) / BLOCK_SIZE = n / BLOCK_SIZE - 2 ^ level := by
    intro n
    rw [mid, Nat.sub_mul_div]
  simp only [quadrant, below]
  by_cases upper : r < size level <;> by_cases left : c < size level <;> simp [upper, left, shifted]

theorem setMatrixAt_leaf {a : Quadtree K 0} {r c : ℕ} (value : K) (owned : Owned m a) (hr : r < size 0)
    (hc : c < size 0) :
    ∃ (a' : Quadtree K 0) (m' : Memory K), setMatrixAt 0 a.pointer r c value m = some (a'.pointer, m') ∧
      EntrySet m a r c value a' m' := by
  obtain ⟨address, m₁, ready⟩ := owned.leafReady
  have shiftable : Shiftable 0 := by
    rw [Shiftable]
    decide
  have first : r / BLOCK_SIZE = 0 ∧ c / BLOCK_SIZE = 0 := ⟨Nat.div_eq_of_lt hr, Nat.div_eq_of_lt hc⟩
  refine ⟨leaf address (setEntry (get a) r c value), m₁.store address (.leaf (setEntry (get a) r c value)), ?_,
    ready.updated _, fun i j => get_leaf _, fun i j => ?_⟩
  · simp only [setMatrixAt, shiftable.checkIndices hr hc, ready.onPointers, ready.block, Memory.setBlock,
      Option.bind_eq_bind, Option.bind_some]
    rfl
  · rw [first.1, first.2]
    constructor
    · exact fun there => .inr there
    · rintro (before | now)
      · cases a with
        | null => exact before.elim
        | leaf address block => exact before
      · exact now

/-- The step from a child to the node. -/
theorem EntrySet.node {m₁ m₂ m₃ : Memory K} {a : Quadtree K (level + 1)} {address r c : ℕ} {value : K}
    {x : Quadtree K level} (ready : NodeReady m a address m₁)
    (below : EntrySet m₁ ((children a).at (quadrant (size level) r c).1) (quadrant (size level) r c).2.1
      (quadrant (size level) r c).2.2 value x m₂)
    (updated : Updated m₁ (nodeOver address (children a).at).addresses
      (nodeOver address (Function.update (children a).at (quadrant (size level) r c).1 x)) m₃) :
    EntrySet m a r c value (nodeOver address (Function.update (children a).at (quadrant (size level) r c).1 x)) m₃ := by
  refine ⟨ready.updated updated, fun i j => ?_, fun i j => ?_⟩
  · rw [get_nodeOver, setEntry, get_quadrant a]
    by_cases same : (quadrant (size level) i j).1 = (quadrant (size level) r c).1
    · rw [same, Function.update_self, below.entries, setEntry]
      refine if_congr ⟨fun inside => ?_, ?_⟩ rfl rfl
      · exact quadrant_inj (Prod.ext same (Prod.ext inside.1 inside.2))
      · rintro ⟨rfl, rfl⟩
        exact ⟨rfl, rfl⟩
    · rw [Function.update_of_ne same, if_neg]
      rintro ⟨rfl, rfl⟩
      exact same rfl
  · have block := quadrant_block level r c
    rw [hasBlock_quadrant, children_nodeOver, hasBlock_quadrant a]
    by_cases same : (quadrant (2 ^ level) i j).1 = (quadrant (size level) r c).1
    · rw [same, Function.update_self, below.blocks]
      refine or_congr_right ⟨fun inside => ?_, ?_⟩
      · refine quadrant_inj (Eq.trans ?_ block.symm)
        exact Prod.ext same (Prod.ext inside.1 inside.2)
      · rintro ⟨rfl, rfl⟩
        rw [block]
        exact ⟨rfl, rfl⟩
    · rw [Function.update_of_ne same]
      refine (or_iff_left ?_).symm
      rintro ⟨rfl, rfl⟩
      rw [block] at same
      exact same rfl

theorem setMatrixAt_spec (level : ℕ) : ∀ {a : Quadtree K level} {r c : ℕ} {m : Memory K} (value : K), Shiftable level →
    Owned m a → r < size level → c < size level →
    ∃ (a' : Quadtree K level) (m' : Memory K), setMatrixAt level a.pointer r c value m = some (a'.pointer, m') ∧
      EntrySet m a r c value a' m' := by
  induction level with
  | zero => exact fun value _ owned hr hc => setMatrixAt_leaf value owned hr hc
  | succ level ih =>
    intro a r c m value shiftable owned hr hc
    obtain ⟨hr', hc'⟩ := quadrant_inside hr hc
    obtain ⟨address, m₁, ready⟩ := owned.nodeReady
    have holding := ready.owned.holding
    rw [children_nodeOver] at holding
    obtain ⟨x, m₂, run, below⟩ := ih value shiftable.lower (holding.owned (quadrant (size level) r c).1) hr' hc'
    obtain ⟨m₃, linked, _, updated⟩ := ready.owned.setChild below.updated
    have child : m₁.child (some address) = some fun q => ((children a).at q).pointer := by
      have node := ready.owned.denotes.child rfl
      rwa [children_nodeOver] at node
    refine ⟨_, m₃, ?_, below.node ready updated⟩
    simp only [setMatrixAt, shiftable.checkIndices hr hc, ready.onPointers, shiftable.lower.oneShifted, child, run,
      linked, Option.bind_eq_bind, Option.bind_some]
    rfl

end Writing

/-! ### Copying -/

/-- What a copy leaves behind: new nodes only. -/
structure Copied [Zero K] (m : Memory K) (a a' : Quadtree K level) (m' : Memory K) : Prop where
  updated : Updated m ∅ a' m'
  entries : get a' = get a

section Copying
variable [Zero K]

/-- `copy_matrix` copies trees of the level. -/
def Copies (K : Type) [Zero K] (level : ℕ) : Prop :=
  ∀ {a : Quadtree K level} {m : Memory K}, a.Denotes m → (∀ x ∈ a.addresses, x < m.next) →
    ∃ (a' : Quadtree K level) (m' : Memory K), copyMatrixAt level a.pointer m = some (a'.pointer, m') ∧ Copied m a a' m'

theorem copied_null (m : Memory K) : Copied m (null : Quadtree K level) null m :=
  ⟨⟨trivial, trivial, fun _ member => member.elim, fun _ _ _ => rfl, Nat.le_refl _⟩, rfl⟩

theorem copies_leaf : Copies K 0 := by
  intro a m denotes inside
  cases absent : a.isNull with
  | true =>
    rw [(isNull_iff a).mp absent]
    exact ⟨null, m, rfl, copied_null m⟩
  | false =>
    obtain ⟨address, present⟩ := Option.ne_none_iff_exists'.mp (pointer_ne_none absent)
    have block := denotes.block absent
    rw [present] at block
    refine ⟨leaf m.next (get a), (m.alloc (.leaf (get a))).2, ?_, ⟨?_, ?_⟩⟩
    · simp only [present, copyMatrixAt, block, Option.bind_eq_bind, Option.bind_some]
      rfl
    · refine ⟨store_same _ _, trivial, ?_, ?_, Nat.le_succ _⟩
      · rintro x rfl
        exact ⟨.inr (Nat.le_refl _), Nat.lt_succ_self _⟩
      · intro x _ old
        exact store_other _ (Nat.ne_of_lt old)
    · funext i j
      exact get_leaf _

/-- One of the four calls: the child is still there, and the copies made before it stay as they are. -/
theorem Copies.child (copies : Copies K level) {m₀ : Memory K} {t : Quarter → Quadtree K level}
    {a : Quadtree K (level + 1)} (q : Quarter) (denotes : a.Denotes m₀) (inside : ∀ x ∈ a.addresses, x < m₀.next)
    (holding : Holding m₀ ∅ t m) (absent : t q = null) :
    ∃ (x : Quadtree K level) (m' : Memory K),
      copyMatrixAt level ((children a).at q).pointer m = some (x.pointer, m') ∧ get x = get ((children a).at q) ∧
      Holding m₀ ∅ (Function.update t q x) m' := by
  have old : ∀ x ∈ ((children a).at q).addresses, x < m₀.next :=
    fun x member => inside x (children_addresses a q member)
  have there : ((children a).at q).Denotes m :=
    (denotes.children q).frame fun x member => holding.frame x (fun empty => empty) (old x member)
  obtain ⟨x, m', run, copied⟩ := copies there fun x member => (old x member).trans_le holding.next
  refine ⟨x, m', run, copied.entries, holding.step ?_⟩
  rw [absent]
  exact copied.updated

omit [Zero K] in
theorem updates_quarters {α : Type} (x : α) (t : Quarter → α) : Function.update (Function.update (Function.update
    (Function.update (fun _ => x) q00 (t q00)) q01 (t q01)) q10 (t q10)) q11 (t q11) = t := by
  funext q
  cases q <;> simp [Function.update]

theorem copies_internal (copies : Copies K level) : Copies K (level + 1) := by
  intro a m denotes inside
  cases absent : a.isNull with
  | true =>
    rw [(isNull_iff a).mp absent]
    exact ⟨null, m, rfl, copied_null m⟩
  | false =>
    obtain ⟨address, present⟩ := Option.ne_none_iff_exists'.mp (pointer_ne_none absent)
    have child := denotes.child absent
    rw [present] at child
    obtain ⟨x00, m₁, run00, same00, holding⟩ := copies.child q00 denotes inside (holding_null m) rfl
    obtain ⟨x01, m₂, run01, same01, holding⟩ := copies.child q01 denotes inside holding rfl
    obtain ⟨x10, m₃, run10, same10, holding⟩ := copies.child q10 denotes inside holding rfl
    obtain ⟨x11, m₄, run11, same11, holding⟩ := copies.child q11 denotes inside holding rfl
    have all := updates_quarters null (quarters x00 x01 x10 x11)
    simp only [quarters] at all
    rw [all] at holding
    have same : ∀ q, get (quarters x00 x01 x10 x11 q) = get ((children a).at q) := by
      intro q
      cases q with
      | q00 => exact same00
      | q01 => exact same01
      | q10 => exact same10
      | q11 => exact same11
    have pointers : quarters x00.pointer x01.pointer x10.pointer x11.pointer =
        fun q => (quarters x00 x01 x10 x11 q).pointer := by
      funext q
      cases q <;> rfl
    refine ⟨_, _, ?_, holding.alloc, ?_⟩
    · simp only [present, copyMatrixAt, child, run00, run01, run10, run11, pointers, Option.bind_eq_bind,
        Option.bind_some]
      rfl
    · funext r c
      rw [get_nodeOver, get_quadrant a, same]

theorem copyMatrixAt_spec (level : ℕ) : Copies K level := by
  induction level with
  | zero => exact copies_leaf
  | succ level ih => exact copies_internal ih

end Copying

end CilkArtifact.Cholesky
