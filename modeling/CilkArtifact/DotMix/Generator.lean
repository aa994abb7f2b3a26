import CilkArtifact.DotMix.Util

/-! The reverse DotMix generators (`dotmix_rgen_internal.h`, `dotmix_generic.h`)
over the runtime's pedigree chain. Nodes live at addresses, NULL is `none`, and
every dereference, table access and assertion can fail; the walk compares parent
pointers, not ranks, exactly as the source does. -/
namespace CilkArtifact.DotMix

abbrev Addr := ℕ

/-- `__cilkrts_pedigree`. -/
structure PedNode where
  rank : Word
  parent : Option Addr
  deriving DecidableEq, Repr

/-- The runtime state a generator reads: the spawn nodes still on the stack and
the worker's leaf node, which `__cilkrts_get_pedigree` returns by value. -/
structure Worker where
  nodes : Addr → Option PedNode
  leaf : PedNode

/-- `__cilkrts_bump_worker_rank`. -/
def Worker.bumpRank (w : Worker) : Worker := { w with leaf := { w.leaf with rank := w.leaf.rank + 1 } }

inductive Diagnostic where
  | ranOutOfPedigreeTerms
  | pedigreeTooLong
  deriving DecidableEq, Repr

inductive Fault where
  | nullDereference
  | danglingPointer
  | tableOutOfBounds
  | assertion (printed : List Diagnostic)
  deriving DecidableEq, Repr

/-- `MAX_TABLE_LENGTH`. -/
abbrev maxTableLength : ℕ := 1024

/-- `DotMixGeneric`: the table, its length, the offset and the stop node of the
generator's scope. -/
structure DotMixGeneric where
  tableLength : ℕ
  table : Fin tableLength → Word
  X : Word
  stopNode : PedNode

/-- The stop node of a default-constructed `pedigree_scope`. -/
def globalStopNode : PedNode := ⟨0, none⟩

def DotMixGeneric.read (g : DotMixGeneric) (d : ℕ) : Except Fault Word :=
  if h : d < g.tableLength then .ok (g.table ⟨d, h⟩) else .error .tableOutOfBounds

/-- Load the node a parent pointer designates; NULL stays NULL. -/
def follow (nodes : Addr → Option PedNode) : Option Addr → Except Fault (Option PedNode)
  | none => .ok none
  | some a => match nodes a with
    | none => .error .danglingPointer
    | some node => .ok (some node)

/-- What the reverse variants differ in: how a product of a pedigree term and a
table term enters the running sum, and how the sum becomes the result. -/
structure RunningSum (σ : Type) where
  start : σ
  update : σ → Word → Word → σ
  finish : σ → Word

/-- The `while` loop of `get_compressed_pedigree`. `remaining` counts the table
terms left, so that the test `d < m_table_length` is `remaining ≠ 0`. -/
def walk (sum : RunningSum σ) (g : DotMixGeneric) (nodes : Addr → Option PedNode) :
    (remaining d : ℕ) → Option PedNode → σ → Except Fault (ℕ × Option PedNode × σ)
  | _, d, none, acc => .ok (d, none, acc)
  | 0, d, some node, acc => .ok (d, some node, acc)
  | remaining + 1, d, some node, acc =>
    if g.stopNode.parent ≠ node.parent then do
      let tabTerm ← g.read d
      let up ← follow nodes node.parent
      walk sum g nodes remaining (d + 1) up (sum.update acc (node.rank + 1) tabTerm)
    else .ok (d, some node, acc)

/-- The body shared by the DMIX and DMIX_PRIME versions of
`get_compressed_pedigree`; returns the result and `*ped_length`. The error
branch reads `ped->parent` before it tests `ped` for NULL. -/
def compressReverse (sum : RunningSum σ) (g : DotMixGeneric) (w : Worker) :
    Except Fault (Word × ℕ × Worker) := do
  let (d, ped, acc) ← walk sum g w.nodes g.tableLength 0 (some w.leaf) sum.start
  match ped with
  | none => .error .nullDereference
  | some node =>
    if g.stopNode.parent ≠ node.parent then .error (.assertion [.pedigreeTooLong])
    else if node.rank < g.stopNode.rank then .error (.assertion [])
    else if g.tableLength ≤ d then .error (.assertion [])
    else do
      let tabTerm ← g.read d
      let acc := sum.update acc (node.rank + 1 - g.stopNode.rank) tabTerm
      return (sum.finish acc, d + 1, w.bumpRank)

/-- DMIX: a dot product in wrapping 64-bit arithmetic, starting from `m_X`. -/
def dmixSum (g : DotMixGeneric) : RunningSum Word :=
  ⟨g.X, fun result a x => result + a * x, id⟩

/-- DMIX_PRIME: three partial sums modulo the prime, then `m_X` is added. -/
def dmixPrimeSum (g : DotMixGeneric) : RunningSum TmpResult :=
  ⟨.zero, fun tmp a x => dotprodUpdateModP a x tmp, finalizeDotprodModP g.X⟩

def getCompressedPedigreeDmix (g : DotMixGeneric) (w : Worker) : Except Fault (Word × ℕ × Worker) :=
  compressReverse (dmixSum g) g w

def getCompressedPedigreeDmixPrime (g : DotMixGeneric) (w : Worker) :
    Except Fault (Word × ℕ × Worker) :=
  compressReverse (dmixPrimeSum g) g w

/-- `DotMixGeneric<DMIX_PRIME, NUM_MIX_ITER>::get`. -/
def getDmixPrime (iterations : ℕ) (g : DotMixGeneric) (w : Worker) : Except Fault (Word × Worker) := do
  let (result, _, w) ← getCompressedPedigreeDmixPrime g w
  return (mix iterations result, w)

/-! ### The chain a generator walks -/

/-- The chain from `node` up to the node whose parent is the stop node's parent;
`ranks` lists the ranks met, leaf first. -/
inductive ScopedChain (nodes : Addr → Option PedNode) (stop : PedNode) : PedNode → List Word → Prop
  | last {node} : stop.parent = node.parent → ScopedChain nodes stop node [node.rank]
  | up {node a parent ranks} : stop.parent ≠ node.parent → node.parent = some a →
      nodes a = some parent → ScopedChain nodes stop parent ranks →
      ScopedChain nodes stop node (node.rank :: ranks)

/-- A parent-linked chain that ends in NULL, with its ranks leaf first. -/
inductive Chain (nodes : Addr → Option PedNode) : PedNode → List Word → Prop
  | root {node} : node.parent = none → Chain nodes node [node.rank]
  | up {node a parent ranks} : node.parent = some a → nodes a = some parent →
      Chain nodes parent ranks → Chain nodes node (node.rank :: ranks)

theorem Chain.global {nodes : Addr → Option PedNode} {node : PedNode} {ranks : List Word}
    (chain : Chain nodes node ranks) : ScopedChain nodes globalStopNode node ranks := by
  induction chain with
  | root top => exact .last top.symm
  | up linked found _ ih => exact .up (by simp [globalStopNode, linked]) linked found ih

/-- The terms of the dot product: every rank plus one, the last one corrected by
the rank of the stop node. -/
def terms (stop : PedNode) : List Word → List Word
  | [] => []
  | [r] => [r + 1 - stop.rank]
  | r :: s :: rest => (r + 1) :: terms stop (s :: rest)

/-- The running sum after the table terms from index `d` on met `terms`. -/
def accumulate (update : σ → Word → Word → σ) (table : ℕ → Word) : ℕ → σ → List Word → σ
  | _, acc, [] => acc
  | d, acc, t :: rest => accumulate update table (d + 1) (update acc t (table d)) rest

/-- An update that adds products to the value of a state leaves their sum. -/
theorem accumulate_sum {R : Type} [AddCommMonoid R] {update : σ → Word → Word → σ} (Good : σ → Prop) (value : σ → R)
    (product : Word → Word → R) (step : ∀ acc a x, Good acc →
      Good (update acc a x) ∧ value (update acc a x) = value acc + product a x) (table : ℕ → Word) (ts : List Word) :
    ∀ (d : ℕ) (acc : σ), Good acc → Good (accumulate update table d acc ts) ∧
      value (accumulate update table d acc ts) =
        value acc + ∑ i ∈ Finset.range ts.length, product (ts.getD i 0) (table (d + i)) := by
  induction ts with
  | nil =>
    intro d acc good
    exact ⟨good, by simp [accumulate]⟩
  | cons t rest ih =>
    intro d acc good
    obtain ⟨good₁, value₁⟩ := step acc t (table d) good
    obtain ⟨good₂, value₂⟩ := ih (d + 1) _ good₁
    refine ⟨good₂, ?_⟩
    rw [accumulate, value₂, value₁, List.length_cons, Finset.sum_range_succ', add_assoc]
    have shift (i : ℕ) : d + 1 + i = d + (i + 1) := by omega
    simp only [shift, List.getD_cons_succ, List.getD_cons_zero, Nat.add_zero]
    rw [add_comm (product t _)]

/-- The accumulation modulo the prime. -/
theorem accumulate_products (table : ℕ → Word) (ts : List Word) (d : ℕ) {tmp : TmpResult} (reduced : tmp.Reduced) :
    (accumulate (fun tmp a x => dotprodUpdateModP a x tmp) table d tmp ts).Reduced ∧
      (accumulate (fun tmp a x => dotprodUpdateModP a x tmp) table d tmp ts).residue =
        tmp.residue + ∑ i ∈ Finset.range ts.length, ((ts.getD i 0).toNat : ZMod prime) * (table (d + i)).toNat :=
  accumulate_sum TmpResult.Reduced TmpResult.residue (fun a x => (a.toNat * x.toNat : ZMod prime))
    (fun _ a x reduced => dotprodUpdateModP_spec a x reduced) table ts d tmp reduced

/-- Table entries by index, zero past the end. -/
def DotMixGeneric.entry (g : DotMixGeneric) (d : ℕ) : Word :=
  if h : d < g.tableLength then g.table ⟨d, h⟩ else 0

theorem DotMixGeneric.read_eq (g : DotMixGeneric) {d : ℕ} (h : d < g.tableLength) :
    g.read d = .ok (g.entry d) := by
  simp only [read, entry, dif_pos h]

theorem follow_some {nodes : Addr → Option PedNode} {a : Addr} {node : PedNode}
    (found : nodes a = some node) : follow nodes (some a) = .ok (some node) := by
  simp only [follow, found]

theorem ScopedChain.ne_nil {nodes : Addr → Option PedNode} {stop node : PedNode} {ranks : List Word}
    (chain : ScopedChain nodes stop node ranks) : ranks ≠ [] := by
  cases chain <;> simp

/-- A chain that fits the remaining table is walked to its last node, which the
loop leaves unprocessed; adding that node's corrected term completes the sum. -/
theorem walk_chain (sum : RunningSum σ) (g : DotMixGeneric) {nodes : Addr → Option PedNode}
    {node : PedNode} {ranks : List Word} (chain : ScopedChain nodes g.stopNode node ranks) :
    ∀ (remaining d : ℕ) (acc : σ), ranks.length ≤ remaining → d + remaining = g.tableLength →
    ∃ before top, walk sum g nodes remaining d (some node) acc =
        .ok (d + (ranks.length - 1), some top, before) ∧
      g.stopNode.parent = top.parent ∧ top.rank = ranks.getLast chain.ne_nil ∧
      sum.update before (top.rank + 1 - g.stopNode.rank) (g.entry (d + (ranks.length - 1))) =
        accumulate sum.update g.entry d acc (terms g.stopNode ranks) := by
  induction chain with
  | @last node same =>
    intro remaining d acc fits _
    obtain ⟨remaining, rfl⟩ : ∃ k, remaining = k + 1 := ⟨remaining - 1, by simp at fits; omega⟩
    refine ⟨acc, node, ?_, same, rfl, rfl⟩
    simp [walk, same]
  | @up node a parent ranks different linked found rest ih =>
    intro remaining d acc fits table
    simp only [List.length_cons] at fits
    obtain ⟨remaining, rfl⟩ : ∃ k, remaining = k + 1 := ⟨remaining - 1, by omega⟩
    obtain ⟨r, s, rfl⟩ := List.exists_cons_of_ne_nil rest.ne_nil
    obtain ⟨before, top, walked, same, rank, summed⟩ :=
      ih remaining (d + 1) (sum.update acc (node.rank + 1) (g.entry d)) (by omega) (by omega)
    have index : d + 1 + ((r :: s).length - 1) = d + ((node.rank :: r :: s).length - 1) := by
      simp only [List.length_cons]
      omega
    rw [index] at walked summed
    refine ⟨before, top, ?_, same, ?_, ?_⟩
    · rw [walk, if_pos different, linked, follow_some found, g.read_eq (by omega)]
      exact walked
    · exact rank.trans (List.getLast_cons _).symm
    · rw [summed]
      rfl

/-- The generator's whole effect on a chain in scope: the dot product of the
corrected terms with the first table entries, and a bumped leaf rank. -/
theorem compressReverse_chain (sum : RunningSum σ) (g : DotMixGeneric) (w : Worker)
    {ranks : List Word} (chain : ScopedChain w.nodes g.stopNode w.leaf ranks)
    (fits : ranks.length ≤ g.tableLength)
    (inScope : g.stopNode.rank ≤ ranks.getLast chain.ne_nil) :
    compressReverse sum g w = .ok
      (sum.finish (accumulate sum.update g.entry 0 sum.start (terms g.stopNode ranks)),
        ranks.length, w.bumpRank) := by
  obtain ⟨before, top, walked, same, rank, summed⟩ :=
    walk_chain sum g chain g.tableLength 0 sum.start fits (by omega)
  have positive : 0 < ranks.length := List.length_pos_iff.mpr chain.ne_nil
  have bound : 0 + (ranks.length - 1) < g.tableLength := by omega
  have ordered : ¬ top.rank < g.stopNode.rank := by
    rw [rank]
    exact BitVec.not_lt.mpr inScope
  have length : 0 + (ranks.length - 1) + 1 = ranks.length := by omega
  simp only [compressReverse, walked, bind, Except.bind]
  rw [if_neg (by simpa using same), if_neg ordered, if_neg (by omega), g.read_eq bound]
  simp only [summed, length, pure, Except.pure]

end CilkArtifact.DotMix
