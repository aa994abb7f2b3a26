import CilkArtifact.Cholesky.Ownership

/-! `mul_and_subT` on pointers does what it does on trees, as long as the tree that it updates owns its nodes alone;
the factors may share nodes with each other. -/
namespace CilkArtifact.Cholesky
open Quadtree Quarter
variable {K : Type} {level : ℕ} [CommRing K] {m m' : Memory K}

/-- A call on pointers follows the call on trees. -/
def Simulates (K : Type) [CommRing K] (level : ℕ) : Prop :=
  ∀ (lower : Bool) (a b r r' : Quadtree K level) (m : Memory K) (next : ℕ), Owned m r → Readable m r.addresses a →
    Readable m r.addresses b → mulAndSubT level lower a b r m.next = some (r', next) →
    ∃ m', mulAndSubTAt level lower a.pointer b.pointer r.pointer m = some (r'.pointer, m') ∧ m'.next = next ∧
      Updated m r.addresses r' m'

theorem LeafReady.read {r a : Quadtree K 0} {address : ℕ} {m₁ : Memory K} (ready : LeafReady m r address m₁)
    (readable : Readable m r.addresses a) (present : a.isNull = false) : m₁.block a.pointer = some (get a) := by
  have denotes : a.Denotes m₁ :=
    readable.denotes.frame fun x member => (ready.frame x (readable.apart x member).1 (readable.apart x member).2).2
  exact denotes.block present

theorem simulates_leaf : Simulates K 0 := by
  intro lower a b r r' m next owned left right run
  cases a with
  | null => cases run
  | leaf addressA A =>
    cases b with
    | null => cases run
    | leaf addressB B =>
      obtain ⟨address, m₁, ready⟩ := owned.leafReady
      have readA := ready.read left rfl
      have readB := ready.read right rfl
      have entriesA : get (leaf addressA A) = A := funext₂ fun i j => get_leaf A
      have entriesB : get (leaf addressB B) = B := funext₂ fun i j => get_leaf B
      rw [entriesA] at readA
      rw [entriesB] at readB
      rw [mulAndSubT, bind_eq_some] at run
      obtain ⟨_, _, first, run⟩ := run
      rw [ready.onTrees] at first
      cases Option.some.inj first
      obtain ⟨R, _, lifted, final⟩ := bind_eq_some.mp run
      cases Option.some.inj final
      obtain ⟨R', schur, same⟩ := Option.bind_eq_some_iff.mp lifted
      cases Option.some.inj same
      have block : schurBlock lower (get r) A B = some R := schur
      refine ⟨m₁.store address (.leaf R), ?_, rfl, ready.updated R⟩
      simp only [mulAndSubTAt, assertThat_true (show (leaf addressA A).pointer ≠ none ∧ (leaf addressB B).pointer ≠ none
        from ⟨Option.some_ne_none _, Option.some_ne_none _⟩), ready.onPointers, ready.block, readA, readB, block,
        Memory.setBlock, Option.bind_eq_bind, Option.bind_some]
      rfl

/-- One of the eight calls. -/
theorem callIf_simulates (simulates : Simulates K level) {lower condition : Bool} {m₀ : Memory K} {own : Set ℕ}
    {t : Quarter → Quadtree K level} {a b : Quadtree K (level + 1)} (guard : Bool) (qa qb q : Quarter)
    {old r' : Quadtree K level} {next : ℕ} (holding : Holding m₀ own t m) (left : Readable m₀ own a)
    (right : Readable m₀ own b) (ha : a.isNull = false) (hb : b.isNull = false)
    (made : condition = (guard && !((children a).at qa).isNull && !((children b).at qb).isNull))
    (run : assignIf condition (mulAndSubT level lower ((children a).at qa) ((children b).at qb) old) old m.next =
      some (r', next)) (current : t q = old) :
    ∃ m', callIf (mulAndSubTAt level lower) guard a.pointer b.pointer qa qb old.pointer m = some (r'.pointer, m') ∧
      m'.next = next ∧ Holding m₀ own (Function.update t q r') m' := by
  subst current
  have childA := (left.during holding q).denotes.child ha
  have childB := (right.during holding q).denotes.child hb
  have unchanged : t = Function.update t q (t q) := (Function.update_eq_self q t).symm
  cases guard with
  | false =>
    rw [made, Bool.false_and, Bool.false_and] at run
    cases Option.some.inj run
    exact ⟨m, rfl, rfl, unchanged ▸ holding⟩
  | true =>
    simp only [callIf, if_true, childA, childB, Option.bind_eq_bind, Option.bind_some, pointer_isSome]
    rw [Bool.true_and] at made
    rw [← made]
    cases condition with
    | false =>
      cases Option.some.inj run
      exact ⟨m, rfl, rfl, unchanged ▸ holding⟩
    | true =>
      rw [assignIf, if_pos rfl] at run
      obtain ⟨m', result, bound, updated⟩ := simulates lower _ _ _ _ m next (holding.owned q)
        ((left.children qa).during holding q) ((right.children qb).during holding q) run
      exact ⟨m', result, bound, holding.step updated⟩

omit [CommRing K] in
/-- The four assertions and assignments. -/
theorem replaceChildren_eq {address : ℕ} {child p : Quarter → Option ℕ}
    (cell : m.cells address = some (.internal child))
    (kept : ∀ q, child q = none ∨ child q = p q) :
    replaceChildren (some address) p m = some (m.store address (.internal p)) := by
  have loaded : ∀ child', (m.store address (.internal child')).child (some address) = some child' := by
    intro child'
    simp only [Memory.child, store_same, Option.bind_eq_bind, Option.bind_some]
  have again : ∀ node node', (m.store address node).store address node' = m.store address node' := by
    intro node node'
    simp only [Memory.store, Function.update_idem]
  have first : m.child (some address) = some child := by
    simp only [Memory.child, cell, Option.bind_eq_bind, Option.bind_some]
  have all : Function.update (Function.update (Function.update (Function.update child q00 (p q00)) q01 (p q01)) q10
      (p q10)) q11 (p q11) = p := by
    funext q
    cases q <;> simp [Function.update]
  simp only [replaceChildren, Memory.setChild, first, loaded, again, assertThat_true (kept _), all, Option.bind_eq_bind,
    Option.bind_some]

omit [CommRing K] in
theorem childOrNull_eq {r : Quadtree K (level + 1)} (denotes : r.Denotes m) :
    childOrNull m r.pointer = some fun q => ((children r).at q).pointer := by
  cases r with
  | null =>
    refine congrArg some (funext fun q => ?_)
    cases q <;> rfl
  | internal address a00 a01 a10 a11 => exact denotes.child rfl

omit [CommRing K] in
theorem assertTrue_passed {condition : Bool} {next : ℕ} {result : Unit × ℕ}
    (run : assertTrue condition next = some result) : condition = true ∧ result.2 = next := by
  cases condition with
  | false => cases run
  | true =>
    cases Option.some.inj run
    exact ⟨rfl, rfl⟩

omit [CommRing K] in
theorem pointer_kept {c r : Quadtree K level} (check : (c.isNull || decide (c.pointer = r.pointer)) = true) :
    c.isNull = true ∨ c.pointer = r.pointer := by simpa using check

/-- The end of a call: what becomes of the root. -/
def rootOf (r : Quadtree K (level + 1)) (r00 r01 r10 r11 : Quadtree K level) : Alloc (Quadtree K (level + 1)) :=
  match r with
  | null =>
    if !r00.isNull || !r01.isNull || !r10.isNull || !r11.isNull then newInternal r00 r01 r10 r11
    else return null
  | internal address c00 c01 c10 c11 => do
    assertTrue (c00.isNull || c00.pointer = r00.pointer)
    assertTrue (c01.isNull || c01.pointer = r01.pointer)
    assertTrue (c10.isNull || c10.pointer = r10.pointer)
    assertTrue (c11.isNull || c11.pointer = r11.pointer)
    return internal address r00 r01 r10 r11

omit [CommRing K] in
theorem pointers_quarters (r00 r01 r10 r11 : Quadtree K level) : (fun q => (quarters r00 r01 r10 r11 q).pointer) =
    quarters r00.pointer r01.pointer r10.pointer r11.pointer := by
  funext q
  cases q <;> rfl

omit [CommRing K] in
/-- A root that exists is kept with its new children, which are the old ones where these exist. -/
theorem rootOf_internal {address next next' : ℕ} {c00 c01 c10 c11 r00 r01 r10 r11 : Quadtree K level}
    {r' : Quadtree K (level + 1)}
    (run : rootOf (internal address c00 c01 c10 c11) r00 r01 r10 r11 next = some (r', next')) :
    r' = internal address r00 r01 r10 r11 ∧ next' = next ∧ ∀ q, (quarters c00 c01 c10 c11 q).pointer = none ∨
      (quarters c00 c01 c10 c11 q).pointer = quarters r00.pointer r01.pointer r10.pointer r11.pointer q := by
  rw [rootOf] at run
  obtain ⟨_, n₁, check₀, run₁⟩ := bind_eq_some.mp run
  obtain ⟨_, n₂, check₁, run₂⟩ := bind_eq_some.mp run₁
  obtain ⟨_, n₃, check₂, run₃⟩ := bind_eq_some.mp run₂
  obtain ⟨_, n₄, check₃, run₄⟩ := bind_eq_some.mp run₃
  obtain ⟨kept₀, rfl⟩ := assertTrue_passed check₀
  obtain ⟨kept₁, rfl⟩ := assertTrue_passed check₁
  obtain ⟨kept₂, rfl⟩ := assertTrue_passed check₂
  obtain ⟨kept₃, rfl⟩ := assertTrue_passed check₃
  cases Option.some.inj run₄
  refine ⟨rfl, rfl, fun q => ?_⟩
  rw [pointer_eq_none_iff]
  cases q with
  | q00 => exact pointer_kept kept₀
  | q01 => exact pointer_kept kept₁
  | q10 => exact pointer_kept kept₂
  | q11 => exact pointer_kept kept₃

omit [CommRing K] in
theorem below_null : below (null : Quadtree K (level + 1)) = ∅ := by
  apply Set.eq_empty_of_forall_notMem
  rintro x ⟨q, member⟩
  cases q <;> cases member

omit [CommRing K] in
/-- A root is made if there is a child. -/
theorem linkChildren_null (r00 r01 r10 r11 : Quadtree K level) (m : Memory K) :
    linkChildren (null : Quadtree K (level + 1)).pointer (quarters r00.pointer r01.pointer r10.pointer r11.pointer) m =
      if !r00.isNull || !r01.isNull || !r10.isNull || !r11.isNull then
        some (m.alloc (.internal (quarters r00.pointer r01.pointer r10.pointer r11.pointer)))
      else some (none, m) := by
  rw [← pointer_isSome, ← pointer_isSome, ← pointer_isSome, ← pointer_isSome]
  exact if_pos rfl

omit [CommRing K] in
theorem linkChildren_simulates {r r' : Quadtree K (level + 1)} {r00 r01 r10 r11 : Quadtree K level} {next : ℕ}
    (owned : Owned m r) (holding : Holding m (below r) (quarters r00 r01 r10 r11) m')
    (run : rootOf r r00 r01 r10 r11 m'.next = some (r', next)) :
    ∃ m'', linkChildren r.pointer (quarters r00.pointer r01.pointer r10.pointer r11.pointer) m' =
      some (r'.pointer, m'') ∧ m''.next = next ∧ Updated m r.addresses r' m'' := by
  cases r with
  | null =>
    rw [below_null] at holding
    rw [linkChildren_null]
    rw [rootOf] at run
    by_cases filled : (!r00.isNull || !r01.isNull || !r10.isNull || !r11.isNull) = true
    · rw [if_pos filled] at run ⊢
      cases Option.some.inj run
      have updated := holding.alloc
      rw [pointers_quarters] at updated
      exact ⟨_, rfl, rfl, updated⟩
    · rw [if_neg filled] at run ⊢
      cases Option.some.inj run
      refine ⟨m', rfl, rfl, trivial, trivial, ?_, holding.frame, holding.next⟩
      exact fun x member => member.elim
  | internal address c00 c01 c10 c11 =>
    obtain ⟨rfl, rfl, kept⟩ := rootOf_internal run
    have tree : internal address c00 c01 c10 c11 = nodeOver address (quarters c00 c01 c10 c11) := rfl
    rw [tree] at owned holding ⊢
    obtain ⟨root, inside⟩ := owned.root
    have cell := holding.frame address root inside
    rw [owned.cell] at cell
    have updated := holding.store root inside
    rw [pointers_quarters, ← addresses_nodeOver] at updated
    refine ⟨m'.store address (.internal (quarters r00.pointer r01.pointer r10.pointer r11.pointer)), ?_, rfl, updated⟩
    change (replaceChildren (some address) _ m').bind (fun m => some (some address, m)) = _
    rw [replaceChildren_eq cell kept]
    rfl

/-- The eight calls and what becomes of the root. -/
theorem simulates_internal (simulates : Simulates K level) : Simulates K (level + 1) := by
  intro lower a b r r' m next owned left right run
  cases a with
  | null => cases run
  | internal addressA a00 a01 a10 a11 =>
    cases b with
    | null => cases run
    | internal addressB b00 b01 b10 b11 =>
      rw [mulAndSubT] at run
      obtain ⟨x00, n₁, run₁, run⟩ := bind_eq_some.mp run
      obtain ⟨x01, n₂, run₂, run⟩ := bind_eq_some.mp run
      obtain ⟨x10, n₃, run₃, run⟩ := bind_eq_some.mp run
      obtain ⟨x11, n₄, run₄, run⟩ := bind_eq_some.mp run
      obtain ⟨r00, n₅, run₅, run⟩ := bind_eq_some.mp run
      obtain ⟨r01, n₆, run₆, run⟩ := bind_eq_some.mp run
      obtain ⟨r10, n₇, run₇, run⟩ := bind_eq_some.mp run
      obtain ⟨r11, n₈, run₈, run⟩ := bind_eq_some.mp run
      have left' := left.mono (below_sub r)
      have right' := right.mono (below_sub r)
      obtain ⟨m₁, call₁, rfl, holding⟩ :=
        callIf_simulates simulates true q00 q00 q00 owned.holding left' right' rfl rfl rfl run₁ rfl
      obtain ⟨m₂, call₂, rfl, holding⟩ :=
        callIf_simulates simulates (!lower) q00 q10 q01 holding left' right' rfl rfl rfl run₂ rfl
      obtain ⟨m₃, call₃, rfl, holding⟩ :=
        callIf_simulates simulates true q10 q00 q10 holding left' right' rfl rfl rfl run₃ rfl
      obtain ⟨m₄, call₄, rfl, holding⟩ :=
        callIf_simulates simulates true q10 q10 q11 holding left' right' rfl rfl rfl run₄ rfl
      obtain ⟨m₅, call₅, rfl, holding⟩ :=
        callIf_simulates simulates true q01 q01 q00 holding left' right' rfl rfl rfl run₅ rfl
      obtain ⟨m₆, call₆, rfl, holding⟩ :=
        callIf_simulates simulates (!lower) q01 q11 q01 holding left' right' rfl rfl rfl run₆ rfl
      obtain ⟨m₇, call₇, rfl, holding⟩ :=
        callIf_simulates simulates true q11 q01 q10 holding left' right' rfl rfl rfl run₇ rfl
      obtain ⟨m₈, call₈, rfl, holding⟩ :=
        callIf_simulates simulates true q11 q11 q11 holding left' right' rfl rfl rfl run₈ rfl
      have passed : assertThat ((internal addressA a00 a01 a10 a11).pointer ≠ none ∧
          (internal addressB b00 b01 b10 b11).pointer ≠ none) = some () :=
        assertThat_true ⟨Option.some_ne_none _, Option.some_ne_none _⟩
      simp only [mulAndSubTAt, passed, childOrNull_eq owned.denotes, Children.at, quarters, call₁, call₂, call₃, call₄,
        call₅, call₆, call₇, call₈, Option.bind_eq_bind, Option.bind_some]
      have same : Function.update (Function.update (Function.update (Function.update (Function.update (Function.update
          (Function.update (Function.update (children r).at q00 x00) q01 x01) q10 x10) q11 x11) q00 r00) q01 r01)
          q10 r10) q11 r11 = quarters r00 r01 r10 r11 := by
        funext q
        cases q <;> rfl
      rw [same] at holding
      exact linkChildren_simulates owned holding run

theorem mulAndSubTAt_simulates (level : ℕ) : Simulates K level := by
  induction level with
  | zero => exact simulates_leaf
  | succ level ih => exact simulates_internal ih

/-- `R -= A * Transpose(B)` for trees of any depth with any children missing: the factors stay as they are, and `r` is
updated in its own nodes and in new ones. -/
theorem mulAndSubTAt_product (level : ℕ) (lower : Bool) (a b r : Quadtree K level) (m : Memory K)
    (ha : a.isNull = false) (hb : b.isNull = false) (owned : Owned m r) (left : Readable m r.addresses a)
    (right : Readable m r.addresses b) :
    ∃ (r' : Quadtree K level) (m' : Memory K),
      mulAndSubTAt level lower a.pointer b.pointer r.pointer m = some (r'.pointer, m') ∧ r'.Denotes m' ∧
      (∀ i j, i < 2 ^ (BLOCK_DEPTH + level) → j < 2 ^ (BLOCK_DEPTH + level) → get r' i j =
        if lower = true ∧ i < j then get r i j
        else get r i j - ∑ k ∈ Finset.range (2 ^ (BLOCK_DEPTH + level)), get a i k * get b j k) ∧
      a.Denotes m' ∧ b.Denotes m' ∧ ∀ x, x ∉ r.addresses → x < m.next → m'.cells x = m.cells x := by
  obtain ⟨r', next, run, subtracts⟩ := mulAndSubT_spec level lower a b r ha hb m.next
  obtain ⟨m', result, _, updated⟩ := mulAndSubTAt_simulates level lower a b r r' m next owned left right run
  exact ⟨r', m', result, updated.denotes, subtracts.entries, left.updated updated, right.updated updated, updated.frame⟩

/-- A matrix of ones in its upper left block and no other node. -/
def onesTree : Quadtree ℤ 1 := internal 1 (leaf 0 fun _ _ => 1) null null null

def onesMemory : Memory ℤ where
  cells x := if x = 0 then some (.leaf fun _ _ => 1) else
    if x = 1 then some (.internal fun q => ((children onesTree).at q).pointer) else none
  next := 2

theorem mulAndSubTAt_product_ones : ∃ (r' : Quadtree ℤ 1) (m' : Memory ℤ),
    mulAndSubTAt 1 true (some 1) (some 1) none onesMemory = some (r'.pointer, m') ∧
      get r' 2 1 = -4 ∧ get r' 1 2 = 0 ∧ get r' 5 5 = 0 ∧ onesTree.Denotes m' := by
  have readable : Readable onesMemory (null : Quadtree ℤ 1).addresses onesTree := by
    refine ⟨denotes_internal.mpr ⟨rfl, fun q => ?_⟩, fun x member => ⟨fun absent => absent.elim, ?_⟩⟩
    · cases q with
      | q00 => rfl
      | q01 => trivial
      | q10 => trivial
      | q11 => trivial
    · rcases mem_addresses_internal.mp member with rfl | ⟨q, below⟩
      · decide
      · cases q with
        | q00 =>
          cases below
          decide
        | q01 => exact below.elim
        | q10 => exact below.elim
        | q11 => exact below.elim
  have owned : Owned onesMemory (null : Quadtree ℤ 1) := ⟨trivial, trivial, fun x absent => absent.elim⟩
  obtain ⟨r', m', run, _, entries, unchanged, _⟩ :=
    mulAndSubTAt_product 1 true onesTree onesTree null onesMemory rfl rfl owned readable readable
  refine ⟨r', m', run, ?_, ?_, ?_, unchanged⟩
  · rw [entries 2 1 (by decide) (by decide)]
    decide
  · rw [entries 1 2 (by decide) (by decide)]
    decide
  · rw [entries 5 5 (by decide) (by decide)]
    decide

end CilkArtifact.Cholesky
