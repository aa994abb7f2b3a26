import CilkArtifact.DotMix.Generator
import CilkArtifact.Library.Buffer

/-! Pedigree objects (`opt_pedigree.h`). The terms are stored leaf first, in an array inside of the object
or in one on the heap. A failed assertion, a dereference of NULL and an access outside of an array or to a
cell that was never written fail the operation. -/
namespace CilkArtifact.Pedigree
open Buffer DotMix

/-- The array that `m_rev_ped_full` points to. -/
inductive Storage where
  | static
  | heap (capacity : ℕ) (array : Buffer ℕ Word)

/-- `opt_pedigree<S>`. -/
structure OptPedigree (S : ℕ) where
  length : ℕ
  revPed : Buffer ℕ Word
  revPedFull : Storage

namespace OptPedigree
variable {S : ℕ}

def malloc (n : ℕ) : Storage := .heap n (raw n)

/-- The old contents stay as far as they fit. -/
def realloc (array : Buffer ℕ Word) (n : ℕ) : Storage :=
  .heap n ⟨fun i => decide (i < n), fun i => if i < n then array.cell i else none⟩

/-- The array behind `m_rev_ped_full`. -/
def fullArray (o : OptPedigree S) : Buffer ℕ Word :=
  match o.revPedFull with
  | .static => o.revPed
  | .heap _ array => array

/-- `m_rev_ped_full == m_rev_ped` -/
def isStatic (o : OptPedigree S) : Bool :=
  match o.revPedFull with
  | .static => true
  | .heap _ _ => false

/-- `m_rev_ped_full[i]` -/
def readFull (o : OptPedigree S) (i : ℕ) : Option Word := o.fullArray.read i

/-- `m_rev_ped_full[i] = v` -/
def writeFull (o : OptPedigree S) (i : ℕ) (v : Word) : Option (OptPedigree S) :=
  match o.revPedFull with
  | .static => do
    let revPed ← o.revPed.write i v
    some { o with revPed := revPed }
  | .heap capacity array => do
    let array ← array.write i v
    some { o with revPedFull := .heap capacity array }

/-- The default constructor. -/
def empty : OptPedigree S := ⟨0, raw S, .static⟩

/-- The array that the constructors choose for `d` terms. -/
def emptyFor (d : ℕ) : OptPedigree S := ⟨d, raw S, if S < d then malloc d else .static⟩

/-- The constructor from a buffer of `d` terms. -/
def ofBuffer (buffer : List Word) (isReversed : Bool) : Option (OptPedigree S) :=
  let d := buffer.length
  forLoop 0 d (fun o i => do
    let v ← buffer[if isReversed then i else d - 1 - i]?
    o.writeFull i v) (emptyFor d)

/-- `for (i = 0; i < m_length; ++i) m_rev_ped_full[i] = ped.m_rev_ped_full[i];` where `none` stands for an
assignment from the object itself. -/
def copyTerms (ped : Option (OptPedigree S)) (o : OptPedigree S) : Option (OptPedigree S) :=
  forLoop 0 o.length (fun o i => do
    let v ← (ped.getD o).readFull i
    o.writeFull i v) o

/-- The copy constructor. -/
def copyOf (ped : OptPedigree S) : Option (OptPedigree S) :=
  if S < ped.length ∧ ped.isStatic then none else copyTerms (some ped) (emptyFor ped.length)

def clear (o : OptPedigree S) : OptPedigree S := { o with length := 0, revPedFull := .static }

/-- The first half of the assignment operator: enough space for the new terms. -/
def makeSpace (o : OptPedigree S) (newLength : ℕ) : Option (OptPedigree S) :=
  if newLength ≤ S then some o.clear
  else if newLength ≤ o.length then
    if o.isStatic then none else some o
  else
    match o.revPedFull with
    | .static => if o.length ≤ S then some { o with revPedFull := malloc newLength } else none
    | .heap _ array => if S < o.length then some { o with revPedFull := realloc array newLength } else none

/-- `operator=`; again `none` stands for the object itself. -/
def assign (o : OptPedigree S) (ped : Option (OptPedigree S)) : Option (OptPedigree S) := do
  let newLength := (ped.getD o).length
  let o ← o.makeSpace newLength
  copyTerms ped { o with length := newLength }

def getRevPedArray (o : OptPedigree S) : Option (Buffer ℕ Word) :=
  if S < o.length then
    if o.isStatic then none else some o.fullArray
  else
    if o.isStatic then some o.fullArray else none

/-! ### Reading the current pedigree -/

/-- A pointer to a pedigree node: to the copy of the worker's leaf node, or to a node on the stack. -/
inductive Ref where
  | leaf
  | node (a : Addr)
  deriving DecidableEq, Repr

/-- The pointer in a parent field. -/
def ofParent (parent : Option Addr) : Option Ref := parent.map .node

def load (w : Worker) : Ref → Option PedNode
  | .leaf => some w.leaf
  | .node a => w.nodes a

/-- `while (NULL != ped && stop_node.parent != ped && m_length < S)`, where `remaining` is `S - m_length`.
Without a scope, `stop` is NULL. -/
def storeTerms (w : Worker) (stop : Option Ref) : ℕ → OptPedigree S → Option Ref → Option (OptPedigree S × Option Ref)
  | _, o, none => some (o, none)
  | 0, o, some ped => some (o, some ped)
  | remaining + 1, o, some ped =>
    if stop = some ped then some (o, some ped)
    else do
      let node ← load w ped
      let revPed ← o.revPed.write o.length node.rank
      storeTerms w stop remaining { o with length := o.length + 1, revPed := revPed } (ofParent node.parent)

variable (w : Worker) (stop : Option Ref) in
/-- `while (NULL != ped && stop_node.parent != ped)`, which counts the other terms; `leftact% f a b` is `f a b`. -/
def countTerms (length : ℕ) : Option Ref → Option (ℕ × Option Ref)
  | none => some (length, none)
  | some ped =>
    if stop = some ped then some (length, some ped)
    else do
      let node ← load w ped
      leftact% countTerms (length + 1) (ofParent node.parent)
partial_fixpoint

def storeRemainder (w : Worker) (s : OptPedigree S × Option Ref) (start : ℕ) : Option (OptPedigree S × Option Ref) := do
  let remainder ← s.2
  let node ← load w remainder
  let o ← s.1.writeFull start node.rank
  some (o, ofParent node.parent)

/-- A pedigree that is too long for the static array moves to the heap. -/
def spill (w : Worker) (stop : Option Ref) (o : OptPedigree S) (remainder : Option Ref) : Option (OptPedigree S) :=
  if S < o.length then do
    let moved ← forLoop 0 S (fun o i => do
      let v ← o.revPed.read i
      o.writeFull i v) { o with revPedFull := malloc o.length }
    let last ← forLoop S o.length (storeRemainder w) (moved, remainder)
    if stop = last.2 then some last.1 else none
  else some o

def getCurrentPedigree (o : OptPedigree S) (w : Worker) : Option (OptPedigree S) := do
  let stored ← storeTerms w none S o.clear (some .leaf)
  let counted ← countTerms w none stored.1.length stored.2
  spill w none { stored.1 with length := counted.1 } stored.2

/-- The end of the scoped read: the last term is checked against the stop node and corrected. -/
def correctLast (stopNode : PedNode) (o : OptPedigree S) : Option (OptPedigree S) := do
  let last ← o.readFull (o.length - 1)
  if last < stopNode.rank then some { o with length := 0 }
  else o.writeFull (o.length - 1) (last - stopNode.rank)

def getCurrentScopedPedigree (o : OptPedigree S) (w : Worker) (stopNode : PedNode) : Option (OptPedigree S) := do
  let stop := ofParent stopNode.parent
  let stored ← storeTerms w stop S o.clear (some .leaf)
  let counted ← countTerms w stop stored.1.length stored.2
  if counted.2 = none ∧ stop ≠ counted.2 then some { stored.1 with length := 0 }
  else if counted.2 = stop then do
    let o ← spill w stop { stored.1 with length := counted.1 } stored.2
    correctLast stopNode o
  else none

/-- `current()`. -/
def current (w : Worker) : Option (OptPedigree S) := getCurrentPedigree empty w

/-- `current(scope)`. -/
def currentScoped (w : Worker) (stopNode : PedNode) : Option (OptPedigree S) :=
  getCurrentScopedPedigree empty w stopNode

end OptPedigree

end CilkArtifact.Pedigree
