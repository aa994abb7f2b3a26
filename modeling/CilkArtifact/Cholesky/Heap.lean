import CilkArtifact.Cholesky.Symmetric

/-! The quadtrees of `cholesky.c` as nodes in memory, which the operations read and write through pointers. A `Matrix`
is a pointer, and its level says whether it points to a leaf. Values of type `int` that overflow, NULL pointers that
are dereferenced and failed assertions are failures; memory does not run out. -/
namespace CilkArtifact.Cholesky
open Quadtree
variable {K : Type}

/-- The indices `_00`, `_01`, `_10` and `_11` of a child. -/
inductive Quarter where
  | q00 | q01 | q10 | q11
  deriving DecidableEq

open Quarter

/-- The array `child` from its elements. -/
def quarters {α : Type} (x00 x01 x10 x11 : α) : Quarter → α
  | q00 => x00
  | q01 => x01
  | q10 => x10
  | q11 => x11

/-- `LeafNode` and `InternalNode`. -/
inductive Node (K : Type) where
  | leaf (block : Block K)
  | internal (child : Quarter → Option ℕ)

/-- The nodes at their addresses, and the next address of `malloc`. -/
structure Memory (K : Type) where
  cells : ℕ → Option (Node K)
  next : ℕ

namespace Memory

/-- `((LeafNode *) a)->block` -/
def block (m : Memory K) (a : Option ℕ) : Option (Block K) := do
  let address ← a
  let node ← m.cells address
  match node with
  | .leaf block => some block
  | .internal _ => none

/-- `a->child` -/
def child (m : Memory K) (a : Option ℕ) : Option (Quarter → Option ℕ) := do
  let address ← a
  let node ← m.cells address
  match node with
  | .leaf _ => none
  | .internal child => some child

def store (m : Memory K) (address : ℕ) (node : Node K) : Memory K :=
  { m with cells := Function.update m.cells address (some node) }

def setBlock (m : Memory K) (a : Option ℕ) (block : Block K) : Option (Memory K) := do
  let address ← a
  some (m.store address (.leaf block))

/-- `a->child[q] = p` -/
def setChild (m : Memory K) (a : Option ℕ) (q : Quarter) (p : Option ℕ) : Option (Memory K) := do
  let address ← a
  let child ← m.child a
  some (m.store address (.internal (Function.update child q p)))

/-- A new node; `new_block_leaf` with its contents, or `new_internal`. -/
def alloc (m : Memory K) (node : Node K) : Option ℕ × Memory K :=
  (some m.next, { m.store m.next node with next := m.next + 1 })

end Memory

/-- `assert` -/
def assertThat (condition : Prop) [Decidable condition] : Option Unit := if condition then some () else none

/-- `1 << depth` in type `int`. -/
def oneShifted (depth : ℕ) : Option ℕ := if depth < 31 then some (2 ^ depth) else none

/-- A sum in type `int`. -/
def addInt (x y : ℕ) : Option ℕ := if x + y < 2 ^ 31 then some (x + y) else none

/-- The assertions of `get_matrix` and `set_matrix` at a level, for indices that are not negative. -/
def checkIndices (level r c : ℕ) : Option Unit := do
  let side ← oneShifted (BLOCK_DEPTH + level)
  assertThat (r < side)
  assertThat (c < side)

/-- The child for the indices, and the indices in there. -/
def quadrant (mid r c : ℕ) : Quarter × ℕ × ℕ :=
  if r < mid then
    if c < mid then (q00, r, c) else (q01, r, c - mid)
  else
    if c < mid then (q10, r - mid, c) else (q11, r - mid, c - mid)

section Entries
variable [Zero K]

def getMatrixAt (m : Memory K) : (level : ℕ) → Option ℕ → ℕ → ℕ → Option K
  | 0, a, r, c => do
    checkIndices 0 r c
    if a = none then some 0
    else do
      let block ← m.block a
      some (block r c)
  | level + 1, a, r, c => do
    checkIndices (level + 1) r c
    if a = none then some 0
    else do
      let mid ← oneShifted (BLOCK_DEPTH + level)
      let (q, r, c) := quadrant mid r c
      let child ← m.child a
      getMatrixAt m level (child q) r c

/-- The leaf to write to, a new one with zeros if there is none. -/
def leafAt (a : Option ℕ) (m : Memory K) : Option ℕ × Memory K :=
  if a = none then m.alloc (.leaf fun _ _ => 0) else (a, m)

/-- The inner node to write to, a new one without children if there is none. -/
def nodeAt (a : Option ℕ) (m : Memory K) : Option ℕ × Memory K :=
  if a = none then m.alloc (.internal fun _ => none) else (a, m)

def setMatrixAt : (level : ℕ) → Option ℕ → ℕ → ℕ → K → Memory K → Option (Option ℕ × Memory K)
  | 0, a, r, c, value, m => do
    checkIndices 0 r c
    let (a, m) := leafAt a m
    let block ← m.block a
    let m ← m.setBlock a (setEntry block r c value)
    some (a, m)
  | level + 1, a, r, c, value, m => do
    checkIndices (level + 1) r c
    let (a, m) := nodeAt a m
    let mid ← oneShifted (BLOCK_DEPTH + level)
    let (q, r, c) := quadrant mid r c
    let child ← m.child a
    let (p, m) ← setMatrixAt level (child q) r c value m
    let m ← m.setChild a q p
    some (a, m)

end Entries

def copyMatrixAt : (level : ℕ) → Option ℕ → Memory K → Option (Option ℕ × Memory K)
  | _, none, m => some (none, m)
  | 0, a, m => do
    let block ← m.block a
    some (m.alloc (.leaf block))
  | level + 1, a, m => do
    let child ← m.child a
    let (r00, m) ← copyMatrixAt level (child q00) m
    let (r01, m) ← copyMatrixAt level (child q01) m
    let (r10, m) ← copyMatrixAt level (child q10) m
    let (r11, m) ← copyMatrixAt level (child q11) m
    some (m.alloc (.internal (quarters r00 r01 r10 r11)))

/-- What `num_blocks` and `num_nonzeros` have in common: the sum over the leaves. -/
def sumLeaves (m : Memory K) (count : Block K → Option ℕ) : (level : ℕ) → Option ℕ → Option ℕ
  | _, none => some 0
  | 0, a => do
    let block ← m.block a
    count block
  | level + 1, a => do
    let child ← m.child a
    let x00 ← sumLeaves m count level (child q00)
    let res ← addInt 0 x00
    let x01 ← sumLeaves m count level (child q01)
    let res ← addInt res x01
    let x10 ← sumLeaves m count level (child q10)
    let res ← addInt res x10
    let x11 ← sumLeaves m count level (child q11)
    addInt res x11

def numBlocks (m : Memory K) (level : ℕ) (a : Option ℕ) : Option ℕ := sumLeaves m (fun _ => some 1) level a

/-- The two loops over a block. -/
def blockNonzeros [Zero K] [DecidableEq K] (block : Block K) : Option ℕ :=
  forLoop 0 BLOCK_SIZE (fun res i =>
    forLoop 0 BLOCK_SIZE (fun res j => if block i j ≠ 0 then addInt res 1 else some res) res) 0

def numNonzeros [Zero K] [DecidableEq K] (m : Memory K) (level : ℕ) (a : Option ℕ) : Option ℕ :=
  sumLeaves m blockNonzeros level a

/-- `if (guard && a->child[qa] && b->child[qb]) r = call (a->child[qa], b->child[qb], r)` -/
def callIf (call : Option ℕ → Option ℕ → Option ℕ → Memory K → Option (Option ℕ × Memory K)) (guard : Bool)
    (a b : Option ℕ) (qa qb : Quarter) (r : Option ℕ) (m : Memory K) : Option (Option ℕ × Memory K) :=
  if guard then do
    let a' ← m.child a
    let b' ← m.child b
    if (a' qa).isSome && (b' qb).isSome then call (a' qa) (b' qb) r m else some (r, m)
  else some (r, m)

/-- `r->child[q]`, or NULL without a node. -/
def childOrNull (m : Memory K) (r : Option ℕ) : Option (Quarter → Option ℕ) :=
  if r = none then some fun _ => none else m.child r

/-- `assert (r->child[q] == NULL || r->child[q] == p); r->child[q] = p` for all four children. -/
def replaceChildren (r : Option ℕ) (p : Quarter → Option ℕ) (m : Memory K) : Option (Memory K) := do
  let child ← m.child r
  assertThat (child q00 = none ∨ child q00 = p q00)
  assertThat (child q01 = none ∨ child q01 = p q01)
  assertThat (child q10 = none ∨ child q10 = p q10)
  assertThat (child q11 = none ∨ child q11 = p q11)
  let m ← m.setChild r q00 (p q00)
  let m ← m.setChild r q01 (p q01)
  let m ← m.setChild r q10 (p q10)
  m.setChild r q11 (p q11)

/-- The end of `mul_and_subT`: a new node only if it has children, the old one with its new children otherwise. -/
def linkChildren (r : Option ℕ) (p : Quarter → Option ℕ) (m : Memory K) : Option (Option ℕ × Memory K) :=
  if r = none then
    if (p q00).isSome || (p q01).isSome || (p q10).isSome || (p q11).isSome then some (m.alloc (.internal p))
    else some (none, m)
  else do
    let m ← replaceChildren r p m
    some (r, m)

section Products
variable [CommRing K]

/-- `if (lower) block_schur_half (…); else block_schur_full (…)` -/
def schurBlock (lower : Bool) (R A B : Block K) : Option (Block K) :=
  if lower then blockSchurHalf R A B else blockSchurFull R A B

def mulAndSubTAt : (level : ℕ) → Bool → Option ℕ → Option ℕ → Option ℕ → Memory K → Option (Option ℕ × Memory K)
  | 0, lower, a, b, r, m => do
    assertThat (a ≠ none ∧ b ≠ none)
    let (r, m) := leafAt r m
    let R ← m.block r
    let A ← m.block a
    let B ← m.block b
    let R ← schurBlock lower R A B
    let m ← m.setBlock r R
    some (r, m)
  | level + 1, lower, a, b, r, m => do
    assertThat (a ≠ none ∧ b ≠ none)
    let r' ← childOrNull m r
    let (r00, m) ← callIf (mulAndSubTAt level lower) true a b q00 q00 (r' q00) m
    let (r01, m) ← callIf (mulAndSubTAt level false) (!lower) a b q00 q10 (r' q01) m
    let (r10, m) ← callIf (mulAndSubTAt level false) true a b q10 q00 (r' q10) m
    let (r11, m) ← callIf (mulAndSubTAt level lower) true a b q10 q10 (r' q11) m
    let (r00, m) ← callIf (mulAndSubTAt level lower) true a b q01 q01 r00 m
    let (r01, m) ← callIf (mulAndSubTAt level false) (!lower) a b q01 q11 r01 m
    let (r10, m) ← callIf (mulAndSubTAt level false) true a b q11 q01 r10 m
    let (r11, m) ← callIf (mulAndSubTAt level lower) true a b q11 q11 r11 m
    linkChildren r (quarters r00 r01 r10 r11) m

end Products

end CilkArtifact.Cholesky
