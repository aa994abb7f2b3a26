import CilkArtifact.Cholesky.Heap

/-! Quadtrees in memory: which cells a tree owns, what changes leave a tree as it is, and that `mul_and_subT` on
pointers does what it does on trees as long as the tree that it updates owns its nodes alone. -/
namespace CilkArtifact.Cholesky
open Quadtree Quarter
variable {K : Type} {level : ℕ}

/-- `child[q]` -/
def Children.at (t : Children K level) : Quarter → Quadtree K level := quarters t.c00 t.c01 t.c10 t.c11

namespace Quadtree

/-- The addresses of the nodes. -/
def addresses {level : ℕ} : Quadtree K level → Set ℕ
  | null => ∅
  | leaf address _ => {address}
  | internal address a00 a01 a10 a11 =>
    insert address (a00.addresses ∪ a01.addresses ∪ (a10.addresses ∪ a11.addresses))

/-- No node is met twice. -/
def Distinct {level : ℕ} : Quadtree K level → Prop
  | null => True
  | leaf _ _ => True
  | internal address a00 a01 a10 a11 =>
    (∀ q, address ∉ ((Children.mk a00 a01 a10 a11).at q).addresses) ∧
    (∀ q q', q ≠ q' → ∀ x ∈ ((Children.mk a00 a01 a10 a11).at q).addresses,
      x ∉ ((Children.mk a00 a01 a10 a11).at q').addresses) ∧
    (a00.Distinct ∧ a01.Distinct) ∧ a10.Distinct ∧ a11.Distinct

/-- The tree is in memory. -/
def Denotes {level : ℕ} (m : Memory K) : Quadtree K level → Prop
  | null => True
  | leaf address block => m.cells address = some (.leaf block)
  | internal address a00 a01 a10 a11 =>
    m.cells address = some (.internal fun q => ((Children.mk a00 a01 a10 a11).at q).pointer) ∧
    (a00.Denotes m ∧ a01.Denotes m) ∧ a10.Denotes m ∧ a11.Denotes m

end Quadtree

variable {m m' : Memory K} {x : ℕ}

theorem assertThat_true {condition : Prop} [Decidable condition] (holds : condition) : assertThat condition = some () :=
  if_pos holds

theorem pointer_eq_none_iff (a : Quadtree K level) : a.pointer = none ↔ a.isNull = true := by
  cases a <;> simp [pointer]

theorem pointer_ne_none {a : Quadtree K level} (present : a.isNull = false) : a.pointer ≠ none := by
  rw [Ne, pointer_eq_none_iff, present]
  exact Bool.false_ne_true

theorem pointer_isSome (a : Quadtree K level) : a.pointer.isSome = !a.isNull := by
  cases a <;> rfl

theorem mem_addresses_internal {address : ℕ} {a00 a01 a10 a11 : Quadtree K level} :
    x ∈ (internal address a00 a01 a10 a11).addresses ↔
      x = address ∨ ∃ q, x ∈ ((Children.mk a00 a01 a10 a11).at q).addresses := by
  simp only [addresses, Set.mem_insert_iff, Set.mem_union]
  constructor
  · rintro (same | (h | h) | h | h)
    · exact .inl same
    · exact .inr ⟨q00, h⟩
    · exact .inr ⟨q01, h⟩
    · exact .inr ⟨q10, h⟩
    · exact .inr ⟨q11, h⟩
  · rintro (same | ⟨q, h⟩)
    · exact .inl same
    · cases q with
      | q00 => exact .inr (.inl (.inl h))
      | q01 => exact .inr (.inl (.inr h))
      | q10 => exact .inr (.inr (.inl h))
      | q11 => exact .inr (.inr (.inr h))

theorem distinct_internal {address : ℕ} {a00 a01 a10 a11 : Quadtree K level} :
    (internal address a00 a01 a10 a11).Distinct ↔
      (∀ q, address ∉ ((Children.mk a00 a01 a10 a11).at q).addresses) ∧
      (∀ q q', q ≠ q' → ∀ x ∈ ((Children.mk a00 a01 a10 a11).at q).addresses,
        x ∉ ((Children.mk a00 a01 a10 a11).at q').addresses) ∧
      ∀ q, ((Children.mk a00 a01 a10 a11).at q).Distinct := by
  simp only [Distinct]
  refine and_congr_right fun _ => and_congr_right fun _ => ⟨?_, ?_⟩
  · rintro ⟨⟨h00, h01⟩, h10, h11⟩ q
    cases q with
    | q00 => exact h00
    | q01 => exact h01
    | q10 => exact h10
    | q11 => exact h11
  · intro all
    exact ⟨⟨all q00, all q01⟩, all q10, all q11⟩

theorem denotes_internal {address : ℕ} {a00 a01 a10 a11 : Quadtree K level} :
    (internal address a00 a01 a10 a11).Denotes m ↔
      m.cells address = some (.internal fun q => ((Children.mk a00 a01 a10 a11).at q).pointer) ∧
      ∀ q, ((Children.mk a00 a01 a10 a11).at q).Denotes m := by
  simp only [Denotes]
  refine and_congr_right fun _ => ⟨?_, ?_⟩
  · rintro ⟨⟨h00, h01⟩, h10, h11⟩ q
    cases q with
    | q00 => exact h00
    | q01 => exact h01
    | q10 => exact h10
    | q11 => exact h11
  · intro all
    exact ⟨⟨all q00, all q01⟩, all q10, all q11⟩

/-- A tree depends on its own cells only. -/
theorem Quadtree.Denotes.frame {t : Quadtree K level} (denotes : t.Denotes m)
    (same : ∀ x ∈ t.addresses, m'.cells x = m.cells x) : t.Denotes m' := by
  induction t with
  | null => trivial
  | leaf address block =>
    simp only [Denotes] at denotes ⊢
    rw [same address rfl, denotes]
  | internal address a00 a01 a10 a11 h00 h01 h10 h11 =>
    rw [denotes_internal] at denotes ⊢
    have below : ∀ q, ∀ x ∈ ((Children.mk a00 a01 a10 a11).at q).addresses, m'.cells x = m.cells x :=
      fun q x member => same x (mem_addresses_internal.mpr (.inr ⟨q, member⟩))
    refine ⟨?_, fun q => ?_⟩
    · rw [same address (mem_addresses_internal.mpr (.inl rfl)), denotes.1]
    · cases q with
      | q00 => exact h00 (denotes.2 q00) (below q00)
      | q01 => exact h01 (denotes.2 q01) (below q01)
      | q10 => exact h10 (denotes.2 q10) (below q10)
      | q11 => exact h11 (denotes.2 q11) (below q11)

theorem children_addresses (t : Quadtree K (level + 1)) (q : Quarter) :
    ((children t).at q).addresses ⊆ t.addresses := by
  cases t with
  | null => cases q <;> exact fun x member => member
  | internal address a00 a01 a10 a11 => exact fun x member => mem_addresses_internal.mpr (.inr ⟨q, member⟩)

theorem Quadtree.Denotes.children {t : Quadtree K (level + 1)} (denotes : t.Denotes m) (q : Quarter) :
    ((children t).at q).Denotes m := by
  cases t with
  | null => cases q <;> trivial
  | internal address a00 a01 a10 a11 => exact (denotes_internal.mp denotes).2 q

/-- The children of a node in memory. -/
theorem Quadtree.Denotes.child {t : Quadtree K (level + 1)} (denotes : t.Denotes m) (present : t.isNull = false) :
    m.child t.pointer = some fun q => ((Cholesky.children t).at q).pointer := by
  cases t with
  | null => cases present
  | internal address a00 a01 a10 a11 =>
    simp only [Memory.child, pointer, (denotes_internal.mp denotes).1, Option.bind_eq_bind, Option.bind_some]
    rfl

theorem Quadtree.Denotes.block {t : Quadtree K 0} [Zero K] (denotes : t.Denotes m) (present : t.isNull = false) :
    m.block t.pointer = some (get t) := by
  cases t with
  | null => cases present
  | leaf address block =>
    simp only [Denotes] at denotes
    simp only [Memory.block, pointer, denotes, Option.bind_eq_bind, Option.bind_some, Option.some.injEq]
    funext i j
    rw [get_leaf]

/-! ### Updates -/

@[simp] theorem store_next (address : ℕ) (node : Node K) : (m.store address node).next = m.next := rfl

@[simp] theorem store_same (address : ℕ) (node : Node K) : (m.store address node).cells address = some node :=
  Function.update_self _ _ _

theorem store_other {address : ℕ} (node : Node K) (other : x ≠ address) :
    (m.store address node).cells x = m.cells x := Function.update_of_ne other _ _

/-- Memory after an update: only cells of `own` and new ones have changed, and the tree is made of these. -/
structure Updated (m : Memory K) (own : Set ℕ) (t : Quadtree K level) (m' : Memory K) : Prop where
  denotes : t.Denotes m'
  distinct : t.Distinct
  addresses : ∀ x ∈ t.addresses, (x ∈ own ∨ m.next ≤ x) ∧ x < m'.next
  frame : ∀ x, x ∉ own → x < m.next → m'.cells x = m.cells x
  next : m.next ≤ m'.next

/-- A tree that may be updated, and owns its nodes alone. -/
structure Owned (m : Memory K) (t : Quadtree K level) : Prop where
  denotes : t.Denotes m
  distinct : t.Distinct
  inside : ∀ x ∈ t.addresses, x < m.next

/-- The leaf that an update of `r` writes to. -/
structure LeafReady (m : Memory K) [Zero K] (r : Quadtree K 0) (address : ℕ) (m₁ : Memory K) : Prop where
  onPointers : leafAt r.pointer m = (some address, m₁)
  onTrees : leafOf r m.next = some ((address, get r), m₁.next)
  cell : m₁.cells address = some (.leaf (get r))
  owned : address ∈ r.addresses ∨ m.next ≤ address
  inside : address < m₁.next
  frame : ∀ x, x ∉ r.addresses → x < m.next → x ≠ address ∧ m₁.cells x = m.cells x
  next : m.next ≤ m₁.next

theorem Owned.leafReady [Zero K] {r : Quadtree K 0} (owned : Owned m r) : ∃ address m₁, LeafReady m r address m₁ := by
  cases r with
  | null =>
    have zero : get (null : Quadtree K 0) = fun _ _ => 0 := by
      funext i j
      exact get_null
    refine ⟨m.next, (m.alloc (.leaf fun _ _ => 0)).2, rfl, ?_, ?_, .inr (Nat.le_refl _), Nat.lt_succ_self _, ?_,
      Nat.le_succ _⟩
    · rw [zero]
      rfl
    · rw [zero]
      exact store_same _ _
    · intro x _ old
      exact ⟨Nat.ne_of_lt old, store_other _ (Nat.ne_of_lt old)⟩
  | leaf address block =>
    have entries : get (leaf address block) = block := by
      funext i j
      exact get_leaf block
    refine ⟨address, m, rfl, ?_, ?_, .inl rfl, owned.inside address rfl,
      fun x outside _ => ⟨outside, rfl⟩, Nat.le_refl _⟩
    · rw [entries]
      rfl
    · rw [entries]
      exact owned.denotes

theorem LeafReady.block [Zero K] {r : Quadtree K 0} {address : ℕ} {m₁ : Memory K} (ready : LeafReady m r address m₁) :
    m₁.block (some address) = some (get r) := by
  simp only [Memory.block, ready.cell, Option.bind_eq_bind, Option.bind_some]

theorem LeafReady.updated [Zero K] {r : Quadtree K 0} {address : ℕ} {m₁ : Memory K} (ready : LeafReady m r address m₁)
    (block : Block K) : Updated m r.addresses (leaf address block) (m₁.store address (.leaf block)) := by
  refine ⟨store_same _ _, trivial, ?_, ?_, ready.next⟩
  · rintro x rfl
    exact ⟨ready.owned, ready.inside⟩
  · intro x outside old
    obtain ⟨other, same⟩ := ready.frame x outside old
    rw [store_other _ other, same]

/-- Four trees that are updated one after the other, from memory `m₀` on. -/
structure Holding (m₀ : Memory K) (own : Set ℕ) (t : Quarter → Quadtree K level) (m : Memory K) : Prop where
  denotes : ∀ q, (t q).Denotes m
  distinct : ∀ q, (t q).Distinct
  apart : ∀ q q', q ≠ q' → ∀ x ∈ (t q).addresses, x ∉ (t q').addresses
  addresses : ∀ q, ∀ x ∈ (t q).addresses, (x ∈ own ∨ m₀.next ≤ x) ∧ x < m.next
  frame : ∀ x, x ∉ own → x < m₀.next → m.cells x = m₀.cells x
  next : m₀.next ≤ m.next

section Holding
variable {m₀ : Memory K} {own : Set ℕ} {t : Quarter → Quadtree K level} {q : Quarter}

theorem Holding.owned (holding : Holding m₀ own t m) (q : Quarter) : Owned m (t q) :=
  ⟨holding.denotes q, holding.distinct q, fun x member => (holding.addresses q x member).2⟩

/-- An update of one tree leaves the others as they are. -/
theorem Holding.step (holding : Holding m₀ own t m) {t' : Quadtree K level}
    (updated : Updated m (t q).addresses t' m') : Holding m₀ own (Function.update t q t') m' := by
  have others : ∀ q', q' ≠ q → ∀ x ∈ (t q').addresses, x ∉ t'.addresses := by
    intro q' different x member again
    obtain ⟨_, inside⟩ := holding.addresses q' x member
    rcases (updated.addresses x again).1 with old | new
    · exact holding.apart q' q different x member old
    · exact absurd inside (Nat.not_lt.mpr new)
  constructor
  · intro q'
    by_cases same : q' = q
    · rw [same, Function.update_self]
      exact updated.denotes
    · rw [Function.update_of_ne same]
      refine (holding.denotes q').frame fun x member => ?_
      exact updated.frame x (holding.apart q' q same x member) (holding.addresses q' x member).2
  · intro q'
    by_cases same : q' = q
    · rw [same, Function.update_self]
      exact updated.distinct
    · rw [Function.update_of_ne same]
      exact holding.distinct q'
  · intro q₁ q₂ different x
    by_cases first : q₁ = q
    · have second : q₂ ≠ q := fun same => different (first.trans same.symm)
      rw [first, Function.update_self, Function.update_of_ne second]
      exact fun member again => others q₂ second x again member
    · rw [Function.update_of_ne first]
      by_cases second : q₂ = q
      · rw [second, Function.update_self]
        exact others q₁ first x
      · rw [Function.update_of_ne second]
        exact holding.apart q₁ q₂ different x
  · intro q' x
    by_cases same : q' = q
    · rw [same, Function.update_self]
      intro member
      obtain ⟨old | new, inside⟩ := updated.addresses x member
      · exact ⟨(holding.addresses q x old).1, inside⟩
      · exact ⟨.inr (holding.next.trans new), inside⟩
    · rw [Function.update_of_ne same]
      intro member
      obtain ⟨from', inside⟩ := holding.addresses q' x member
      exact ⟨from', inside.trans_le updated.next⟩
  · intro x outside old
    have other : x ∉ (t q).addresses := by
      intro member
      rcases (holding.addresses q x member).1 with inside | new
      · exact outside inside
      · exact absurd old (Nat.not_lt.mpr new)
    rw [updated.frame x other (old.trans_le holding.next), holding.frame x outside old]
  · exact holding.next.trans updated.next

/-- The addresses below the root. -/
def below (r : Quadtree K (level + 1)) : Set ℕ := {x | ∃ q, x ∈ ((children r).at q).addresses}

theorem below_sub (r : Quadtree K (level + 1)) : below r ⊆ r.addresses := by
  rintro x ⟨q, member⟩
  exact children_addresses r q member

/-- The children of a tree that is to be updated. -/
theorem Owned.holding {r : Quadtree K (level + 1)} (owned : Owned m r) : Holding m (below r) (children r).at m := by
  refine ⟨owned.denotes.children, ?_, ?_, ?_, fun _ _ _ => rfl, Nat.le_refl _⟩
  · intro q
    cases r with
    | null => cases q <;> trivial
    | internal address a00 a01 a10 a11 => exact (distinct_internal.mp owned.distinct).2.2 q
  · cases r with
    | null =>
      intro q q' _ x member
      cases q <;> cases member
    | internal address a00 a01 a10 a11 => exact (distinct_internal.mp owned.distinct).2.1
  · intro q x member
    exact ⟨.inl ⟨q, member⟩, owned.inside x (children_addresses r q member)⟩

/-- The node over four trees. -/
def nodeOver (address : ℕ) (t : Quarter → Quadtree K level) : Quadtree K (level + 1) :=
  internal address (t q00) (t q01) (t q10) (t q11)

theorem quarters_eta {α : Type} (t : Quarter → α) : quarters (t q00) (t q01) (t q10) (t q11) = t := by
  funext q
  cases q <;> rfl

theorem at_mk (t : Quarter → Quadtree K level) (q : Quarter) :
    (Children.mk (t q00) (t q01) (t q10) (t q11)).at q = t q :=
  congrFun (quarters_eta t) q

theorem children_nodeOver (address : ℕ) (t : Quarter → Quadtree K level) : (children (nodeOver address t)).at = t :=
  quarters_eta t

theorem addresses_nodeOver (address : ℕ) (t : Quarter → Quadtree K level) :
    (nodeOver address t).addresses = insert address (below (nodeOver address t)) := by
  ext x
  exact mem_addresses_internal

theorem Owned.root {address : ℕ} (owned : Owned m (nodeOver address t)) :
    address ∉ below (nodeOver address t) ∧ address < m.next := by
  refine ⟨?_, owned.inside address (mem_addresses_internal.mpr (.inl rfl))⟩
  rintro ⟨q, member⟩
  exact (distinct_internal.mp owned.distinct).1 q member

theorem Owned.cell {address : ℕ} (owned : Owned m (nodeOver address t)) :
    m.cells address = some (.internal fun q => (t q).pointer) := by
  have cell := (denotes_internal.mp owned.denotes).1
  simpa only [at_mk] using cell

/-- A new node over the four trees. -/
theorem Holding.alloc (holding : Holding m₀ own t m) :
    Updated m₀ own (nodeOver m.next t) (m.alloc (.internal fun q => (t q).pointer)).2 := by
  have fresh : ∀ q, m.next ∉ (t q).addresses :=
    fun q member => Nat.lt_irrefl _ (holding.addresses q m.next member).2
  have kept : ∀ x, x < m.next → (m.alloc (.internal fun q => (t q).pointer)).2.cells x = m.cells x :=
    fun x old => store_other _ (Nat.ne_of_lt old)
  constructor
  · rw [nodeOver, denotes_internal]
    simp only [at_mk]
    refine ⟨store_same _ _, fun q => (holding.denotes q).frame fun x member => ?_⟩
    exact kept x (holding.addresses q x member).2
  · rw [nodeOver, distinct_internal]
    simp only [at_mk]
    exact ⟨fresh, holding.apart, holding.distinct⟩
  · intro x member
    rw [nodeOver, mem_addresses_internal] at member
    simp only [at_mk] at member
    rcases member with rfl | ⟨q, member⟩
    · exact ⟨.inr holding.next, Nat.lt_succ_self _⟩
    · obtain ⟨from', inside⟩ := holding.addresses q x member
      exact ⟨from', Nat.lt_succ_of_lt inside⟩
  · intro x outside old
    rw [kept x (old.trans_le holding.next), holding.frame x outside old]
  · exact holding.next.trans (Nat.le_succ _)

/-- The old root over the four trees. -/
theorem Holding.store {address : ℕ} (holding : Holding m₀ own t m) (root : address ∉ own) (inside : address < m₀.next) :
    Updated m₀ (insert address own) (nodeOver address t) (m.store address (.internal fun q => (t q).pointer)) := by
  have other : ∀ q, address ∉ (t q).addresses := by
    intro q member
    rcases (holding.addresses q address member).1 with old | new
    · exact root old
    · exact absurd inside (Nat.not_lt.mpr new)
  constructor
  · rw [nodeOver, denotes_internal]
    simp only [at_mk]
    refine ⟨store_same _ _, fun q => (holding.denotes q).frame fun x member => store_other _ ?_⟩
    rintro rfl
    exact other q member
  · rw [nodeOver, distinct_internal]
    simp only [at_mk]
    exact ⟨other, holding.apart, holding.distinct⟩
  · intro x member
    rw [nodeOver, mem_addresses_internal] at member
    simp only [at_mk] at member
    rcases member with rfl | ⟨q, member⟩
    · exact ⟨.inl (Set.mem_insert _ _), inside.trans_le holding.next⟩
    · obtain ⟨old | new, bound⟩ := holding.addresses q x member
      · exact ⟨.inl (Set.mem_insert_of_mem _ old), bound⟩
      · exact ⟨.inr new, bound⟩
  · intro x outside old
    rw [Set.mem_insert_iff, not_or] at outside
    rw [store_other _ outside.1, holding.frame x outside.2 old]
  · exact holding.next

/-- `a->child[q] = p` after an update of that child. -/
theorem Owned.setChild {address : ℕ} {t' : Quadtree K level} (owned : Owned m (nodeOver address t))
    (updated : Updated m (t q).addresses t' m') :
    ∃ m'', m'.setChild (some address) q t'.pointer = some m'' ∧ m''.next = m'.next ∧
      Updated m (nodeOver address t).addresses (nodeOver address (Function.update t q t')) m'' := by
  have holding := owned.holding
  rw [children_nodeOver] at holding
  obtain ⟨root, inside⟩ := owned.root
  have next := holding.step updated
  have cell := next.frame address root inside
  rw [owned.cell] at cell
  have pointers : Function.update (fun q => (t q).pointer) q t'.pointer =
      fun q' => (Function.update t q t' q').pointer := by
    funext q'
    by_cases same : q' = q
    · rw [same, Function.update_self, Function.update_self]
    · rw [Function.update_of_ne same, Function.update_of_ne same]
  rw [addresses_nodeOver]
  refine ⟨m'.store address (.internal fun q' => (Function.update t q t' q').pointer), ?_, rfl, next.store root inside⟩
  simp only [Memory.setChild, Memory.child, cell, pointers, Option.bind_eq_bind, Option.bind_some]

end Holding

/-! ### Products -/

/-- A tree that is only read while cells of `own` are written. -/
structure Readable (m : Memory K) (own : Set ℕ) (a : Quadtree K level) : Prop where
  denotes : a.Denotes m
  apart : ∀ x ∈ a.addresses, x ∉ own ∧ x < m.next

section Readable
variable {own : Set ℕ}

theorem Readable.children {a : Quadtree K (level + 1)} (readable : Readable m own a) (q : Quarter) :
    Readable m own ((children a).at q) :=
  ⟨readable.denotes.children q, fun x member => readable.apart x (children_addresses a q member)⟩

theorem Readable.mono {own' : Set ℕ} {a : Quadtree K level} (readable : Readable m own a) (sub : own' ⊆ own) :
    Readable m own' a :=
  ⟨readable.denotes,
    fun x member => ⟨fun inside => (readable.apart x member).1 (sub inside), (readable.apart x member).2⟩⟩

theorem Readable.updated {a : Quadtree K level} {t : Quadtree K level} (readable : Readable m own a)
    (updated : Updated m own t m') : a.Denotes m' :=
  readable.denotes.frame fun x member => updated.frame x (readable.apart x member).1 (readable.apart x member).2

/-- After some updates, the tree can be read during an update of one of the four trees. -/
theorem Readable.during {level' : ℕ} {m₀ : Memory K} {t : Quarter → Quadtree K level} {a : Quadtree K level'}
    (readable : Readable m₀ own a) (holding : Holding m₀ own t m) (q : Quarter) : Readable m (t q).addresses a := by
  constructor
  · exact readable.denotes.frame fun x member => holding.frame x (readable.apart x member).1 (readable.apart x member).2
  · intro x member
    obtain ⟨outside, old⟩ := readable.apart x member
    refine ⟨fun again => ?_, old.trans_le holding.next⟩
    rcases (holding.addresses q x again).1 with inside | new
    · exact outside inside
    · exact absurd old (Nat.not_lt.mpr new)

end Readable

end CilkArtifact.Cholesky
