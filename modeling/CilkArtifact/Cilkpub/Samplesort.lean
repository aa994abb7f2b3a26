import CilkArtifact.Cilkpub.Quicksort
import Mathlib.Data.Nat.Log

/-! Sample sort of `sort.h`. All arrays have checked bounds; elements are moved, so a cell that has
been moved from or never been written cannot be read. The numbers involved stay far below the range
of `size_t`; a subtraction that would wrap around is a failure, and so is a division by zero. -/
namespace CilkArtifact.Cilkpub
variable {α : Type}

def SAMPLESORT_QSORT_CUTOFF : ℕ := 2000

def SAMPLESORT_BIN_CUTOFF : ℕ := 1024

def MAX_BINS : ℕ := 32

/-- `8*sizeof(size_t)` -/
def O_MAX : ℕ := 64

/-- `a - b` on `size_t` -/
def subtract (a b : ℕ) : Option ℕ := if b ≤ a then some (a - b) else none

/-- `a / b` on `size_t` -/
def quotient (a b : ℕ) : Option ℕ := if b = 0 then none else some (a / b)

/-- `a % b` on `size_t` -/
def remainder (a b : ℕ) : Option ℕ := if b = 0 then none else some (a % b)

def floorLg2 (n : ℕ) : ℕ := if 1 < n then floorLg2 (n / 2) + 1 else 0
termination_by n

def chooseNumberOfBins (n : ℕ) : ℕ := min MAX_BINS (1 <<< floorLg2 (n / SAMPLESORT_BIN_CUTOFF))

section Definitions
variable (std : Std α) (comp : α → α → Bool)

/-- The loop that selects samples for the tree; `step` is halved from level to level. -/
def fillTree (tmp : Cilkpub α) (m : ℕ) (tree : Buffer ℕ α) (level step : ℕ) : Option (Buffer ℕ α) :=
  if level < m then do
    let tree ← forLoop 0 level (fun tree k => do
      let i ← subtract (step / 2) 1
      let sample ← tmp.read (i + k * step)
      tree.write (level - 1 + k) sample) tree
    tmp |>.fillTree m tree (level * 2) (step / 2)
  else some tree
partial_fixpoint

/-- The three ways to build a tree differ in the place that sample `i` of `nSample` is taken from. -/
def buildSampleTreeWith (place : ℕ → ℕ → Option ℕ) (x : Buffer ℕ α) (n m : ℕ) (tree : Buffer ℕ α) :
    Option (Buffer ℕ α) :=
  if m ≤ MAX_BINS then do
    let o := floorLg2 n
    let nSample ← subtract (o * m) 1
    let tmp ← forLoop 0 nSample (fun (tmp : Buffer ℕ α) i => do
      let i' ← place nSample i
      let sample ← x.read i'
      tmp.write i sample) (.raw (O_MAX * MAX_BINS - 1))
    let tmp ← tmp.onRange 0 nSample fun samples => some (std.sort comp samples)
    fillTree tmp m tree 1 (nSample + 1)
  else none

def regularPlace (n nSample i : ℕ) : Option ℕ := do
  let span ← subtract n 1
  let gaps ← subtract nSample 1
  let r ← quotient span gaps
  some (i * r)

/-- A sample at a random place, for the numbers `numbers` returned by the generator. -/
def randomPlace (numbers : ℕ → ℕ) (nSample i : ℕ) : Option ℕ := remainder (numbers i) nSample

def buildSampleTree (x : Buffer ℕ α) (n m : ℕ) (tree : Buffer ℕ α) : Option (Buffer ℕ α) :=
  buildSampleTreeWith std comp (regularPlace n) x n m tree

def buildSampleTreeDotmix (dprng : ℕ → ℕ) (x : Buffer ℕ α) (n m : ℕ) (tree : Buffer ℕ α) : Option (Buffer ℕ α) :=
  buildSampleTreeWith std comp (randomPlace dprng) x n m tree

def buildSampleTreeDprand (dprand : ℕ → ℕ) (x : Buffer ℕ α) (n m : ℕ) (tree : Buffer ℕ α) : Option (Buffer ℕ α) :=
  buildSampleTreeWith std comp (randomPlace dprand) x n m tree

/-- Down the tree over `d` levels, with the key at index `i`. -/
def descend (x : Buffer ℕ α) (i : ℕ) (tree : Buffer ℕ α) (d : ℕ) : Option ℕ :=
  forLoop 0 d (fun k _ => do
    let key ← x.read i
    let node ← tree.read k
    some (2 * k + 2 - (comp key node).toNat)) 0

/-- On the block of `x` and `bindex` that starts at `js`. -/
def mapKeysToBins (x : Buffer ℕ α) (js n : ℕ) (tree : Buffer ℕ α) (m : ℕ) (bindex freq : Buffer ℕ ℕ) :
    Option (Buffer ℕ ℕ × Buffer ℕ ℕ) := do
  let d := floorLg2 m
  let freq ← forLoop 0 m (fun freq j => freq.write j 0) freq
  forLoop 0 n (fun (bindex, freq) i => do
    let k ← descend comp x (js + i) tree d
    let first ← subtract m 1
    let bin ← subtract k first
    -- `bindex_type` is `unsigned char`
    let bin := bin % 256
    let bindex ← bindex.write (js + i) bin
    let count ← freq.read bin
    let freq ← freq.write bin (count + 1)
    some (bindex, freq)) (bindex, freq)

/-- What is read and written while a block is binned. -/
structure Bins (α : Type) where
  x : Buffer ℕ α
  y : Buffer ℕ α
  tally : Buffer (ℕ × ℕ) ℕ
  bindex : Buffer ℕ ℕ

/-- The places where the buckets of block `i` start, and row `i` of `tally`. -/
def bucketStarts (m i js : ℕ) (freq : Buffer ℕ ℕ) (tally : Buffer (ℕ × ℕ) ℕ) :
    Option (Buffer ℕ ℕ × Buffer (ℕ × ℕ) ℕ × ℕ) :=
  forLoop 0 m (fun (dst, tally, s) j => do
    let dst ← dst.write j (js + s)
    let count ← freq.read j
    let tally ← tally.write (i, j) (s + count)
    some (dst, tally, s + count)) (.raw MAX_BINS, tally, 0)

def scatter (bindex : Buffer ℕ ℕ) (js je : ℕ) (x y : Buffer ℕ α) (dst : Buffer ℕ ℕ) :
    Option (Buffer ℕ α × Buffer ℕ α × Buffer ℕ ℕ) :=
  forLoop js je (fun (x, y, dst) j => do
    let bin ← bindex.read j
    let place ← dst.read bin
    let (value, x) ← x.move j
    let y ← y.write place value
    let dst ← dst.write bin (place + 1)
    some (x, y, dst)) (x, y, dst)

def binBlock (n m blockSize : ℕ) (tree : Buffer ℕ α) (bins : Bins α) (i : ℕ) : Option (Bins α) := do
  let js := i * blockSize
  let je := min (js + blockSize) n
  let length ← subtract je js
  let (bindex, freq) ← mapKeysToBins comp bins.x js length tree m bins.bindex (.raw MAX_BINS)
  let (dst, tally, _) ← bucketStarts m i js freq bins.tally
  let (x, y, _) ← scatter bindex js je bins.x bins.y dst
  some ⟨x, y, tally, bindex⟩

/-- The three versions of `bin` differ in how they build the tree. -/
def binWith (build : Buffer ℕ α → ℕ → ℕ → Buffer ℕ α → Option (Buffer ℕ α)) (n m : ℕ) (bins : Bins α) :
    Option (Bins α) := do
  let tree ← build bins.x n m (.raw (MAX_BINS - 1))
  let blockSize ← quotient (n + m - 1) m
  forLoop 0 m (binBlock comp n m blockSize tree) bins

def bin (n m : ℕ) (bins : Bins α) : Option (Bins α) := binWith comp (buildSampleTree std comp) n m bins

def binDotmix (dprng : ℕ → ℕ) (n m : ℕ) (bins : Bins α) : Option (Bins α) :=
  binWith comp (buildSampleTreeDotmix std comp dprng) n m bins

def binDprand (dprand : ℕ → ℕ) (n m : ℕ) (bins : Bins α) : Option (Bins α) :=
  binWith comp (buildSampleTreeDprand std comp dprand) n m bins

/-- `move_destroy` of `count` elements of `y` from `source` on, to `x` from `target` on. -/
def moveBucket (source target count : ℕ) (x y : Buffer ℕ α) : Option (Buffer ℕ α × Buffer ℕ α) :=
  forLoop 0 count (fun (x, y) k => do
    let (value, y) ← y.move (source + k)
    let x ← x.write (target + k) value
    some (x, y)) (x, y)

/-- The size of the buckets before bucket `j`, in a row of running sums. -/
def before (row : ℕ → Option ℕ) (j : ℕ) : Option ℕ := if j = 0 then some 0 else row (j - 1)

/-- The buckets of bin `j` in all blocks, moved to `x` one after the other. -/
def gather (m blockSize j start : ℕ) (tally : Buffer (ℕ × ℕ) ℕ) (x y : Buffer ℕ α) :
    Option (Buffer ℕ α × Buffer ℕ α × ℕ) :=
  forLoop 0 m (fun (x, y, place) i => do
    let js ← before (fun j => tally.read (i, j)) j
    let last ← tally.read (i, j)
    let n ← subtract last js
    let (x, y) ← moveBucket (i * blockSize + js) place n x y
    some (x, y, place + n)) (x, y, start)

def columnSums (m : ℕ) (tally : Buffer (ℕ × ℕ) ℕ) : Option (Buffer ℕ ℕ) :=
  forLoop 0 m (fun sums q => do
    let sums ← sums.write q 0
    forLoop 0 m (fun sums i => do
      let sum ← sums.read q
      let count ← tally.read (i, q)
      sums.write q (sum + count)) sums) (.raw MAX_BINS)

def repackAndSubsort (n m : ℕ) (x y : Buffer ℕ α) (tally : Buffer (ℕ × ℕ) ℕ) :
    Option (Buffer ℕ α × Buffer ℕ α) := do
  let colSum ← columnSums m tally
  let total ← colSum.read (m - 1)
  if total = n then do
    let blockSize ← quotient (n + m - 1) m
    forLoop 0 m (fun (x, y) j => do
      let start ← before colSum.read j
      let (x, y, stop) ← gather m blockSize j start tally x y
      let count ← subtract stop start
      let x ← x.onRange start count (parallelQuicksort std comp)
      some (x, y)) (x, y)
  else none

/-- The array `[xs, xe)` as it is passed in. -/
def ofList (l : List α) : Buffer ℕ α := ⟨fun i => decide (i < l.length), fun i => l[i]?⟩

/-- The three sample sorts, on buffers of the sizes `ySize` and `bindexSize` that the two requests
for temporary memory end up with. -/
def parallelSamplesortWith (bin : ℕ → ℕ → Bins α → Option (Bins α)) (ySize bindexSize : ℕ) (l : List α) :
    Option (List α) :=
  let n := l.length
  if SAMPLESORT_QSORT_CUTOFF < n ∧ n ≤ ySize ∧ n ≤ bindexSize then do
    let m := chooseNumberOfBins n
    let bins ← bin n m ⟨ofList l, .raw ySize, .rawTable MAX_BINS MAX_BINS, .raw bindexSize⟩
    let (x, _) ← repackAndSubsort std comp n m bins.x bins.y bins.tally
    x.readRange 0 n
  else parallelQuicksort std comp l

def cilkSort (ySize bindexSize : ℕ) (l : List α) : Option (List α) :=
  parallelSamplesortWith std comp (bin std comp) ySize bindexSize l

def cilkSortDotmix (dprng : ℕ → ℕ) (ySize bindexSize : ℕ) (l : List α) : Option (List α) :=
  parallelSamplesortWith std comp (binDotmix std comp dprng) ySize bindexSize l

def cilkSortDprand (dprand : ℕ → ℕ) (ySize bindexSize : ℕ) (l : List α) : Option (List α) :=
  parallelSamplesortWith std comp (binDprand std comp dprand) ySize bindexSize l

end Definitions

end CilkArtifact.Cilkpub
