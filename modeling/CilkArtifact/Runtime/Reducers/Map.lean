import CilkArtifact.Runtime.FrameMalloc
import CilkArtifact.DotMix.Util

/-! The hash table of `reducer_impl.cpp` from the key of a reducer to a strand's view of it. `none` is a failed
`CILK_ASSERT`, a call of `__cilkrts_bug` or one of `cilkos_error`. Sizes do not overflow. -/
namespace CilkArtifact.Runtime.Reducers
open DotMix

/-- `elem`, with the addresses that its fields hold. -/
structure Elem where
  key : Word
  hb : Word
  view : Word
  deriving DecidableEq, Repr

/-- The key 0 ends a bucket, and the rest of such an element is never read. -/
def Elem.zero : Elem := ⟨0, 0, 0⟩

/-- `elem::is_leftmost` -/
def Elem.isLeftmost (el : Elem) : Bool := el.key = el.view

/-- `bucket`, with `nmax + 1` elements. -/
structure Bucket where
  nmax : ℕ
  el : List Elem
  deriving DecidableEq, Repr

/-- `for (el = b->el; el->key; ++el)` -/
def Bucket.elems (b : Bucket) : List Elem := b.el.takeWhile (·.key ≠ 0)

def sizeofBucket (nmax : ℕ) : ℕ := 32 + nmax * 24

def roundup (nmax : ℕ) : ℕ := (frameMallocRoundup (sizeofBucket nmax) - 32) / 24

/-- The second half of `cilkred_map::grow`: a new bucket with the old elements, and the first free index. -/
def enlarge (nmax : ℕ) (old : List Elem) : Bucket × ℕ :=
  let nnmax := roundup (2 * nmax)
  (⟨nnmax, old ++ List.replicate (nnmax - nmax + 1) .zero⟩, nmax)

/-- `cilkred_map::grow`, which does not use the last element even if it is empty. -/
def grow : Option Bucket → Bucket × ℕ
  | none => enlarge 0 []
  | some b =>
    match (b.el.take b.nmax).findIdx? (·.key = 0) with
    | some i => (b, i)
    | none => enlarge b.nmax (b.el.take b.nmax)

/-- The loop at the end of `__cilkrts_hyper_destroy`, from the element that goes. -/
def shift : List Elem → List Elem
  | _ :: next :: rest => next :: if next.key ≠ 0 then shift (next :: rest) else next :: rest
  | el => el

structure CilkredMap where
  nelem : ℕ
  nbuckets : ℕ
  buckets : List (Option Bucket)
  merging : Bool
  isLeftmost : Bool
  deriving DecidableEq, Repr

def minsz (nelem : ℕ) : ℕ := 1 + nelem + nelem / 8

def nextsz (nelem : ℕ) : ℕ := 2 * nelem

def isPowerOf2 (n : ℕ) : Bool := n &&& (n - 1) = 0

def hashfun (nbuckets : ℕ) (key : Word) : ℕ :=
  let k := key
  let k := k ^^^ (k >>> 21)
  let k := k ^^^ (k >>> 8)
  let k := k ^^^ (k >>> 3)
  k.toNat &&& (nbuckets - 1)

/-- The elements of a bucket that may not be there. -/
def row (b : Option Bucket) : List Elem := (b.map Bucket.elems).getD []

/-- An `elem *`: the bucket and the index there. -/
abbrev Position := ℕ × ℕ

namespace CilkredMap

def rows (m : CilkredMap) : List (List Elem) := m.buckets.map row

/-- The elements in the order of the loops over all buckets. -/
def elems (m : CilkredMap) : List Elem := m.rows.flatten

def needRehash (m : CilkredMap) : Bool := minsz m.nelem > m.nbuckets

def makeBuckets (m : CilkredMap) (nbuckets : ℕ) : Option CilkredMap :=
  if isPowerOf2 nbuckets then some { m with nbuckets, buckets := .replicate nbuckets none, nelem := 0 } else none

def insertNoRehash (m : CilkredMap) (key hb view : Word) : Option (CilkredMap × Position) :=
  if key = 0 ∨ view = 0 then none
  else
    let i := hashfun m.nbuckets key
    let (b, j) := grow (m.buckets.getD i none)
    let b := { b with el := b.el.set j ⟨key, hb, view⟩ }
    some ({ m with buckets := m.buckets.set i (some b), nelem := m.nelem + 1 }, (i, j))

def rehash (m : CilkredMap) : Option CilkredMap := do
  let new ← m.makeBuckets (nextsz m.nbuckets)
  let new ← m.elems.foldlM (fun new oel => (new.insertNoRehash oel.key oel.hb oel.view).map (·.1)) new
  if new.nelem = m.nelem then some new else none

def rehashAndInsert (m : CilkredMap) (key hb view : Word) : Option (CilkredMap × Position) := do
  let m ← if m.needRehash then m.rehash else some m
  m.insertNoRehash key hb view

/-- The inner `none` is a null pointer. -/
def lookup (m : CilkredMap) (key : Word) : Option (Option Position) :=
  let i := hashfun m.nbuckets key
  match m.buckets.getD i none with
  | none => some none
  | some b =>
    match b.elems.findIdx? (·.key = key) with
    | none => some none
    | some j => if (b.el.getD j .zero).view = 0 then none else some (some (i, j))

/-- `*el` -/
def get (m : CilkredMap) (el : Position) : Elem :=
  match m.buckets.getD el.1 none with
  | none => .zero
  | some b => b.el.getD el.2 .zero

def onBucket (m : CilkredMap) (i : ℕ) (change : List Elem → List Elem) : CilkredMap :=
  { m with buckets := m.buckets.modify i (Option.map fun b => { b with el := change b.el }) }

/-- `el->view = view` -/
def setView (m : CilkredMap) (el : Position) (view : Word) : CilkredMap :=
  m.onBucket el.1 fun elems => elems.modify el.2 fun e => { e with view }

/-- The end of `__cilkrts_hyper_destroy`. -/
def remove (m : CilkredMap) (el : Position) : CilkredMap :=
  { m.onBucket el.1 fun elems => elems.take el.2 ++ shift (elems.drop el.2) with nelem := m.nelem - 1 }

end CilkredMap

/-- `__cilkrts_make_reducer_map` -/
def makeReducerMap : Option CilkredMap :=
  CilkredMap.makeBuckets ⟨0, 0, [], false, false⟩ 1

/-- `__cilkrts_hyperobject_base`, as far as it names the reducer. -/
structure Hyperobject where
  hb : Word
  viewOffset : Word

/-- `get_hyperobject_key` -/
def Hyperobject.key (h : Hyperobject) : Word := h.hb + h.viewOffset

/-- `__cilkrts_hyper_create` -/
def hyperCreate (map : Option CilkredMap) (h : Hyperobject) : Option CilkredMap := do
  let m ← map.elim makeReducerMap some
  let el ← m.lookup h.key
  if el.isSome ∨ m.merging then none else (m.rehashAndInsert h.key h.hb h.key).map (·.1)

/-- `__cilkrts_hyper_destroy` -/
def hyperDestroy (map : Option CilkredMap) (h : Hyperobject) : Option CilkredMap := do
  let m ← map
  if m.merging then none
  else
    let el ← m.lookup h.key
    let el ← el
    if (m.get el).isLeftmost then some (m.remove el) else none

/-- `__cilkrts_hyper_lookup`, where `allocate_fn` returns `rep`: the map and the view. -/
def hyperLookup (map : Option CilkredMap) (h : Hyperobject) (rep : Word) : Option (CilkredMap × Word) := do
  let m ← map.elim makeReducerMap some
  if m.merging then none
  else
    match ← m.lookup h.key with
    | some el => some (m, (m.get el).view)
    | none =>
      let rep := if m.isLeftmost then h.key else rep
      let (m, el) ← m.rehashAndInsert h.key h.hb rep
      some (m, (m.get el).view)

end CilkArtifact.Runtime.Reducers
