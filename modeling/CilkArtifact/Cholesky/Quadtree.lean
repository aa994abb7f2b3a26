import CilkArtifact.Cholesky.Block
import CilkArtifact.Library.Returns

/-! Sparse matrices of `cholesky.c`: quadtrees with blocks at the leaves, and the recursive
factorisation on them. A tree of level `n` is a `Matrix` at depth `BLOCK_DEPTH + n`; indices are
natural numbers, memory does not run out, and a failed assertion is a failure. -/
namespace CilkArtifact.Cholesky
variable {K : Type}

/-- `Matrix`. Nodes carry their address. -/
inductive Quadtree (K : Type) : ℕ → Type
  | null {level : ℕ} : Quadtree K level
  | leaf (address : ℕ) (block : Block K) : Quadtree K 0
  | internal {level : ℕ} (address : ℕ) (a00 a01 a10 a11 : Quadtree K level) : Quadtree K (level + 1)

namespace Quadtree

/-- The pointer itself, for comparisons. -/
def pointer {level : ℕ} : Quadtree K level → Option ℕ
  | null => none
  | leaf address _ => some address
  | internal address _ _ _ _ => some address

def isNull {level : ℕ} (a : Quadtree K level) : Bool := a.pointer.isNone

end Quadtree
open Quadtree

/-- Programs that allocate nodes; the state is the next free address. -/
abbrev Alloc := StateT ℕ Option

def malloc : Alloc ℕ := fun next => some (next, next + 1)

/-- `assert` -/
def assertTrue (condition : Bool) : Alloc Unit := if condition then pure () else failure

/-- `if (condition) variable = call`, for a variable with value `old`. -/
def assignIf {α : Type} (condition : Bool) (call : Alloc α) (old : α) : Alloc α :=
  if condition then call else pure old

/-- `1 << depth` -/
def size (level : ℕ) : ℕ := 2 ^ (BLOCK_DEPTH + level)

def newInternal {level : ℕ} (a00 a01 a10 a11 : Quadtree K level) : Alloc (Quadtree K (level + 1)) := do
  let address ← malloc
  return internal address a00 a01 a10 a11

section Entries
variable [Zero K]

/-- Entries of a matrix, with zeros where there is no node. -/
def get {level : ℕ} : Quadtree K level → ℕ → ℕ → K
  | null, _, _ => 0
  | leaf _ block, r, c => block r c
  | @internal _ level _ a00 a01 a10 a11, r, c =>
    if r < size level then
      if c < size level then get a00 r c else get a01 r (c - size level)
    else
      if c < size level then get a10 (r - size level) c else get a11 (r - size level) (c - size level)

/-- The assertions of `get_matrix` and `set_matrix`. -/
def assertIndices (level r c : ℕ) : Alloc Unit := do
  assertTrue (r < size level)
  assertTrue (c < size level)

def getMatrix : (level : ℕ) → Quadtree K level → ℕ → ℕ → Alloc K
  | level, null, r, c => do
    assertIndices level r c
    return 0
  | 0, leaf _ block, r, c => do
    assertIndices 0 r c
    return block r c
  | level + 1, internal _ a00 a01 a10 a11, r, c => do
    assertIndices (level + 1) r c
    let mid := size level
    if r < mid then
      if c < mid then getMatrix level a00 r c else getMatrix level a01 r (c - mid)
    else
      if c < mid then getMatrix level a10 (r - mid) c else getMatrix level a11 (r - mid) (c - mid)

/-- The leaf to write to: a new one, all zeros, if there is none yet. -/
def leafOf : Quadtree K 0 → Alloc (ℕ × Block K)
  | null => do
    let address ← malloc
    return (address, fun _ _ => 0)
  | leaf address block => pure (address, block)

structure Children (K : Type) (level : ℕ) where
  (c00 c01 c10 c11 : Quadtree K level)

def children {level : ℕ} : Quadtree K (level + 1) → Children K level
  | null => ⟨null, null, null, null⟩
  | internal _ a00 a01 a10 a11 => ⟨a00, a01, a10, a11⟩

/-- The address of the node to write to: that of a new node if there is none yet. -/
def addressOf {level : ℕ} : Quadtree K (level + 1) → Alloc ℕ
  | null => malloc
  | internal address _ _ _ _ => pure address

def setMatrix : (level : ℕ) → Quadtree K level → ℕ → ℕ → K → Alloc (Quadtree K level)
  | 0, a, r, c, value => do
    assertIndices 0 r c
    let (address, block) ← leafOf a
    return leaf address (setEntry block r c value)
  | level + 1, a, r, c, value => do
    assertIndices (level + 1) r c
    let address ← addressOf a
    let ⟨a00, a01, a10, a11⟩ := children a
    let mid := size level
    if r < mid then
      if c < mid then
        let a00 ← setMatrix level a00 r c value
        return internal address a00 a01 a10 a11
      else
        let a01 ← setMatrix level a01 r (c - mid) value
        return internal address a00 a01 a10 a11
    else
      if c < mid then
        let a10 ← setMatrix level a10 (r - mid) c value
        return internal address a00 a01 a10 a11
      else
        let a11 ← setMatrix level a11 (r - mid) (c - mid) value
        return internal address a00 a01 a10 a11

end Entries

section Products
variable [CommRing K]

def mulAndSubT : (level : ℕ) → Bool → Quadtree K level → Quadtree K level → Quadtree K level →
    Alloc (Quadtree K level)
  | 0, lower, leaf _ A, leaf _ B, r => do
    let (address, R) ← leafOf r
    let R ← StateT.lift (if lower then blockSchurHalf R A B else blockSchurFull R A B)
    return leaf address R
  | level + 1, lower, internal _ a00 a01 a10 a11, internal _ b00 b01 b10 b11, r => do
    let old := children r
    let r00 ← assignIf (!a00.isNull && !b00.isNull) (mulAndSubT level lower a00 b00 old.c00) old.c00
    let r01 ← assignIf (!lower && !a00.isNull && !b10.isNull) (mulAndSubT level false a00 b10 old.c01) old.c01
    let r10 ← assignIf (!a10.isNull && !b00.isNull) (mulAndSubT level false a10 b00 old.c10) old.c10
    let r11 ← assignIf (!a10.isNull && !b10.isNull) (mulAndSubT level lower a10 b10 old.c11) old.c11
    let r00 ← assignIf (!a01.isNull && !b01.isNull) (mulAndSubT level lower a01 b01 r00) r00
    let r01 ← assignIf (!lower && !a01.isNull && !b11.isNull) (mulAndSubT level false a01 b11 r01) r01
    let r10 ← assignIf (!a11.isNull && !b01.isNull) (mulAndSubT level false a11 b01 r10) r10
    let r11 ← assignIf (!a11.isNull && !b11.isNull) (mulAndSubT level lower a11 b11 r11) r11
    match r with
    | null =>
      if !r00.isNull || !r01.isNull || !r10.isNull || !r11.isNull then newInternal r00 r01 r10 r11
      else return null
    | internal address c00 c01 c10 c11 => do
      assertTrue (c00.isNull || c00.pointer = r00.pointer)
      assertTrue (c01.isNull || c01.pointer = r01.pointer)
      assertTrue (c10.isNull || c10.pointer = r10.pointer)
      assertTrue (c11.isNull || c11.pointer = r11.pointer)
      return internal address r00 r01 r10 r11
  -- `a` or `b` is `NULL`
  | _, _, _, _, _ => failure

end Products

section Operations
variable [Field K] [LinearOrder K] (sqrt : K → K)

def backsub : (level : ℕ) → Quadtree K level → Quadtree K level → Alloc (Quadtree K level)
  | 0, leaf address A, leaf _ L => do
    let A ← StateT.lift (blockBacksub A L)
    return leaf address A
  | level + 1, internal address a00 a01 a10 a11, internal _ l00 _ l10 l11 => do
    assertTrue (!l00.isNull && !l11.isNull)
    let a00 ← assignIf (!a00.isNull) (backsub level a00 l00) a00
    let a10 ← assignIf (!a10.isNull) (backsub level a10 l00) a10
    let a01 ← assignIf (!a00.isNull && !l10.isNull) (mulAndSubT level false a00 l10 a01) a01
    let a11 ← assignIf (!a10.isNull && !l10.isNull) (mulAndSubT level false a10 l10 a11) a11
    let a01 ← assignIf (!a01.isNull) (backsub level a01 l11) a01
    let a11 ← assignIf (!a11.isNull) (backsub level a11 l11) a11
    return internal address a00 a01 a10 a11
  | _, _, _ => failure

def cholesky : (level : ℕ) → Quadtree K level → Alloc (Quadtree K level)
  | 0, leaf address A => do
    let A ← StateT.lift (blockCholesky sqrt A)
    return leaf address A
  | level + 1, internal address a00 a01 a10 a11 => do
    assertTrue !a00.isNull
    if a10.isNull then
      let a00 ← cholesky level a00
      let a11 ← cholesky level a11
      return internal address a00 a01 a10 a11
    else
      let a00 ← cholesky level a00
      assertTrue !a00.isNull
      let a10 ← backsub level a10 a00
      assertTrue !a10.isNull
      let a11 ← mulAndSubT level true a10 a10 a11
      assertTrue !a11.isNull
      let a11 ← cholesky level a11
      assertTrue !a11.isNull
      return internal address a00 a01 a10 a11
  | _, null => failure

end Operations

end CilkArtifact.Cholesky
