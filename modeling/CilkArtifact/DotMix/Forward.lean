import CilkArtifact.Pedigree.Lifetime
import Mathlib.Algebra.BigOperators.Intervals

/-! The forward DotMix generators, which read the scoped pedigree into a pedigree object first, and the
reverse generators on the same pedigree. -/
namespace CilkArtifact.DotMix
open Buffer Pedigree OptPedigree

/-- The body shared by the F_DMIX and F_DMIX_PRIME versions of `get_compressed_pedigree`. The iterator runs
from the end of the reversed array to its start. -/
def compressForward (S : ℕ) (sum : RunningSum σ) (g : DotMixGeneric) (w : Worker) : Option (Word × ℕ × Worker) := do
  let sped : OptPedigree S ← currentScoped w g.stopNode
  let d := sped.length
  if d < g.tableLength then do
    let it ← sped.getRevPedArray
    let acc ← forLoop 0 d (fun acc i => do
      let term ← it.read (d - 1 - i)
      let tabTerm ← (g.read i).toOption
      some (sum.update acc (term + 1) tabTerm)) sum.start
    some (sum.finish acc, d, w.bumpRank)
  else none

def getCompressedPedigreeFDmix (S : ℕ) (g : DotMixGeneric) (w : Worker) : Option (Word × ℕ × Worker) :=
  compressForward S (dmixSum g) g w

def getCompressedPedigreeFDmixPrime (S : ℕ) (g : DotMixGeneric) (w : Worker) : Option (Word × ℕ × Worker) :=
  compressForward S (dmixPrimeSum g) g w

variable {σ : Type} {nodes : Addr → Option PedNode} {node : PedNode} {ns : List PedNode} {stopNode : PedNode}

/-! ### Parents on a chain -/

theorem nodeChain_unique (chain : NodeChain nodes node ns) : ∀ {ns'}, NodeChain nodes node ns' → ns = ns' := by
  induction chain with
  | root top =>
    intro ns' other
    cases other with
    | root => rfl
    | up linked => simp [top] at linked
  | up linked found _ ih =>
    intro ns' other
    cases other with
    | root top => simp [top] at linked
    | up linked' found' rest =>
      rw [linked] at linked'
      cases linked'
      rw [found] at found'
      cases found'
      rw [ih rest]

/-- The nodes above the pointer `parent`. -/
inductive Above (nodes : Addr → Option PedNode) : Option Addr → List PedNode → Prop
  | top : Above nodes none []
  | node {a node ns} : nodes a = some node → NodeChain nodes node ns → Above nodes (some a) ns

theorem above_unique {parent : Option Addr} {l l' : List PedNode} (above : Above nodes parent l)
    (above' : Above nodes parent l') : l = l' := by
  cases above with
  | top =>
    cases above'
    rfl
  | node found chain =>
    cases above' with
    | node found' chain' =>
      rw [found] at found'
      cases found'
      exact nodeChain_unique chain chain'

theorem above_drop (chain : NodeChain nodes node ns) :
    ∀ {i : ℕ} (inside : i < ns.length), Above nodes ns[i].parent (ns.drop (i + 1)) := by
  induction chain with
  | root top =>
    intro i inside
    have first : i = 0 := by simpa using inside
    subst first
    simpa [top] using Above.top
  | up linked found chain ih =>
    intro i inside
    cases i with
    | zero => simpa [linked] using Above.node found chain
    | succ i => simpa using ih (by simpa using inside)

/-- A pointer is the parent of one node of a chain at most. -/
theorem parent_injective (chain : NodeChain nodes node ns) {i j : ℕ} (hi : i < ns.length) (hj : j < ns.length)
    (same : ns[i].parent = ns[j].parent) : i = j := by
  have above := above_drop chain hi
  rw [same] at above
  have lengths := congrArg List.length (above_unique above (above_drop chain hj))
  rw [List.length_drop, List.length_drop] at lengths
  omega

theorem walked_eq (chain : NodeChain nodes node ns) {i : ℕ} (inside : i < ns.length)
    (same : stopNode.parent = ns[i].parent) : walked stopNode ns = i := by
  have met : walked stopNode ns < ns.length := (walked_lt_iff stopNode ns).mpr ⟨_, List.getElem_mem inside, same⟩
  exact parent_injective chain met inside ((walked_parent met).symm.trans same)

/-! ### Scoped pedigrees -/

/-- The current pedigree is `pre ++ [x + k] ++ y`, and the scope is `pre ++ [x]`: its stop node has rank `x`
and the same parent as the node of rank `x + k`. The nodes `ns` are in leaf-first order. -/
structure ScopedBy (w : Worker) (stopNode : PedNode) (ns : List PedNode) (pre : List Word) (k : Word)
    (y : List Word) : Prop where
  chain : NodeChain w.nodes w.leaf ns
  pedigree : (ns.map PedNode.rank).reverse = pre ++ [stopNode.rank + k] ++ y
  rank : stopNode.rank ≤ stopNode.rank + k
  parent : ns[y.length]?.map PedNode.parent = some stopNode.parent

variable {w : Worker} {pre y : List Word} {k : Word}

theorem ScopedBy.ranks (scope : ScopedBy w stopNode ns pre k y) :
    ns.map PedNode.rank = y.reverse ++ (stopNode.rank + k) :: pre.reverse := by
  rw [← List.reverse_reverse (ns.map PedNode.rank), scope.pedigree]
  simp

theorem ScopedBy.inside (scope : ScopedBy w stopNode ns pre k y) : y.length < ns.length := by
  have length := congrArg List.length scope.ranks
  rw [List.length_map, List.length_append, List.length_reverse, List.length_cons] at length
  omega

theorem ScopedBy.walked (scope : ScopedBy w stopNode ns pre k y) : walked stopNode ns = y.length := by
  have parent := scope.parent
  rw [List.getElem?_eq_getElem scope.inside, Option.map_some, Option.some.injEq] at parent
  exact walked_eq scope.chain scope.inside parent.symm

theorem ScopedBy.met (scope : ScopedBy w stopNode ns pre k y) : DotMix.walked stopNode ns < ns.length := by
  rw [scope.walked]
  exact scope.inside

theorem ScopedBy.scopedRanks (scope : ScopedBy w stopNode ns pre k y) :
    scopedRanks stopNode ns = y.reverse ++ [stopNode.rank + k] := by
  rw [OptPedigree.scopedRanks, scope.walked, List.map_take, scope.ranks]
  simp [List.take_append]

theorem ScopedBy.inScope (scope : ScopedBy w stopNode ns pre k y) :
    stopNode.rank ≤ (ns.get ⟨DotMix.walked stopNode ns, scope.met⟩).rank := by
  have last := scopedRanks_getLast scope.met
  simp only [scope.scopedRanks, List.getLast_append_singleton] at last
  rw [List.get_eq_getElem, ← last]
  exact scope.rank

theorem ScopedBy.scopedTerms (scope : ScopedBy w stopNode ns pre k y) :
    scopedTerms stopNode ns = y.reverse ++ [k] := by
  have corrected : stopNode.rank + k - stopNode.rank = k := by ring
  rw [OptPedigree.scopedTerms, scope.scopedRanks, scope.walked, ← List.length_reverse]
  simp [List.modify_eq_set_getElem?, corrected]

theorem scopedChain_of_chain (chain : NodeChain nodes node ns) (stopNode : PedNode)
    (met : walked stopNode ns < ns.length) : ScopedChain nodes stopNode node (scopedRanks stopNode ns) := by
  induction chain with
  | @root node top =>
    have same : stopNode.parent = node.parent := by
      obtain ⟨other, member, same⟩ := (walked_lt_iff _ _).mp met
      rwa [List.mem_singleton.mp member] at same
    rw [OptPedigree.scopedRanks, walked_cons, if_pos same]
    exact .last same
  | @up node a parent rest linked found _ ih =>
    rw [walked_cons] at met
    rw [OptPedigree.scopedRanks, walked_cons]
    by_cases same : stopNode.parent = node.parent
    · rw [if_pos same]
      exact .last same
    · rw [if_neg same, List.length_cons] at met
      rw [if_neg same]
      exact .up same linked found (ih (Nat.lt_of_succ_lt_succ met))

theorem terms_append (stopNode : PedNode) (ranks : List Word) (last : Word) :
    terms stopNode (ranks ++ [last]) = (ranks ++ [last - stopNode.rank]).map (· + 1) := by
  induction ranks with
  | nil =>
    have order : last + 1 - stopNode.rank = last - stopNode.rank + 1 := by ring
    rw [List.nil_append, terms, order]
    rfl
  | cons rank rest ih =>
    cases rest with
    | nil =>
      rw [List.nil_append] at ih
      rw [List.cons_append, List.nil_append, terms, ih]
      rfl
    | cons next rest =>
      rw [List.cons_append, List.cons_append] at ih
      rw [List.cons_append, List.cons_append, terms, ih]
      rfl

/-- What a reverse generator computes in scope: it meets the terms leaf first. -/
theorem compressReverse_scoped (sum : RunningSum σ) (g : DotMixGeneric) (scope : ScopedBy w g.stopNode ns pre k y)
    (fits : 1 + y.length < g.tableLength) :
    compressReverse sum g w = .ok (sum.finish (accumulate sum.update g.entry 0 sum.start
      ((k :: y).map (· + 1)).reverse), 1 + y.length, w.bumpRank) := by
  have chain := scopedChain_of_chain scope.chain g.stopNode scope.met
  have length := scopedRanks_length scope.met
  rw [scope.walked] at length
  have last : g.stopNode.rank ≤ (scopedRanks g.stopNode ns).getLast chain.ne_nil := by
    rw [scopedRanks_getLast scope.met]
    exact scope.inScope
  have run := compressReverse_chain sum g w chain (by omega) last
  have corrected : g.stopNode.rank + k - g.stopNode.rank = k := by ring
  rw [length, Nat.add_comm y.length 1, scope.scopedRanks, terms_append, corrected] at run
  rw [run]
  simp

theorem accumulate_concat (update : σ → Word → Word → σ) (table : ℕ → Word) (ts : List Word) (t : Word) :
    ∀ (d : ℕ) (acc : σ), accumulate update table d acc (ts ++ [t]) =
      update (accumulate update table d acc ts) t (table (d + ts.length)) := by
  induction ts with
  | nil =>
    intro d acc
    rfl
  | cons first rest ih =>
    intro d acc
    rw [List.cons_append, accumulate, ih, accumulate, List.length_cons, Nat.add_assoc, Nat.add_comm 1]

/-- What a forward generator computes in scope: it meets the terms root first. -/
theorem compressForward_scoped (S : ℕ) (sum : RunningSum σ) (g : DotMixGeneric)
    (scope : ScopedBy w g.stopNode ns pre k y) (fits : 1 + y.length < g.tableLength) :
    compressForward S sum g w = some (sum.finish (accumulate sum.update g.entry 0 sum.start
      ((k :: y).map (· + 1))), 1 + y.length, w.bumpRank) := by
  obtain ⟨sped, run, represents⟩ := currentScoped_inScope (S := S) scope.chain scope.met scope.inScope
  rw [scope.scopedTerms] at represents
  have length : sped.length = 1 + y.length := by
    rw [represents.length]
    simp [Nat.add_comm]
  let terms := (k :: y).map (· + 1)
  have count : terms.length = 1 + y.length := by simp [terms, Nat.add_comm]
  have loop : forLoop 0 (1 + y.length) (fun acc i => do
      let term ← sped.fullArray.read (1 + y.length - 1 - i)
      let tabTerm ← (g.read i).toOption
      some (sum.update acc (term + 1) tabTerm)) sum.start =
        some (accumulate sum.update g.entry 0 sum.start (terms.take (1 + y.length))) := by
    refine forLoop_eq (fun i => accumulate sum.update g.entry 0 sum.start (terms.take i)) (Nat.zero_le _) rfl ?_
    intro i _ upper
    have inside : i < (k :: y).length := by
      rw [List.length_cons]
      omega
    have value := represents.read_root (i := i) (by rw [← represents.length, length]; exact upper)
    have term : terms[i] = (k :: y)[i] + 1 := List.getElem_map ..
    have position : (terms.take i).length = i := by
      rw [List.length_take]
      omega
    rw [length, List.reverse_append, List.reverse_reverse, List.reverse_singleton, List.singleton_append,
      List.getElem?_eq_getElem inside] at value
    rw [value, g.read_eq (by omega), ← List.take_concat_get' terms i (by omega), accumulate_concat, position, term]
    simp [Except.toOption]
  rw [List.take_of_length_le count.le] at loop
  simp only [compressForward, run, length, represents.getRevPedArray, Option.bind_eq_bind, Option.bind_some]
  rw [if_pos fits]
  simp only [Option.bind_eq_bind] at loop
  rw [loop]
  rfl

/-! ### Both orders of the dot product -/

/-- The reversed list meets the entries that the list meets in the reversed table. -/
theorem sum_reverse {R : Type} [AddCommMonoid R] (product : Word → Word → R) (ts : List Word) (table : ℕ → Word) :
    ∑ i ∈ Finset.range ts.length, product (ts.reverse.getD i 0) (table i) =
      ∑ i ∈ Finset.range ts.length, product (ts.getD i 0) (table (ts.length - 1 - i)) := by
  rw [← Finset.sum_range_reflect (fun i => product (ts.reverse.getD i 0) (table i))]
  apply Finset.sum_congr rfl
  intro i member
  have inside := Finset.mem_range.mp member
  have index : ts.length - 1 - (ts.length - 1 - i) = i := by omega
  rw [List.getD_eq_getElem?_getD, List.getElem?_reverse (by omega), index, ← List.getD_eq_getElem?_getD]

/-- The table with its first `d` entries reversed. -/
def reverseFirst (d : ℕ) (T : Fin maxTableLength → Word) : Fin maxTableLength → Word := fun i =>
  if inside : d - 1 - i < maxTableLength ∧ i < d then T ⟨d - 1 - i, inside.1⟩ else T i

/-- A generator with the table `T`. -/
def generator (T : Fin maxTableLength → Word) (X : Word) (stopNode : PedNode) : DotMixGeneric :=
  ⟨maxTableLength, T, X, stopNode⟩

theorem reverseFirst_entry {d i : ℕ} (T : Fin maxTableLength → Word) (X : Word) (stopNode : PedNode)
    (fits : d < maxTableLength) (inside : i < d) :
    (generator (reverseFirst d T) X stopNode).entry i = (generator T X stopNode).entry (d - 1 - i) := by
  have room : i < maxTableLength := by omega
  have mirrored : d - 1 - i < maxTableLength := by omega
  rw [DotMixGeneric.entry, DotMixGeneric.entry, generator, generator, dif_pos room, dif_pos mirrored]
  exact dif_pos ⟨mirrored, inside⟩

/-- An accumulation whose value is the sum of the products does not depend on the direction. -/
theorem accumulate_reverse {R : Type} [AddCommMonoid R] {update : σ → Word → Word → σ} (Good : σ → Prop)
    (value : σ → R) (product : Word → Word → R) (step : ∀ acc a x, Good acc →
      Good (update acc a x) ∧ value (update acc a x) = value acc + product a x)
    (T : Fin maxTableLength → Word) (X : Word) (stopNode : PedNode) (ts : List Word) (fits : ts.length < maxTableLength)
    (acc : σ) (good : Good acc) :
    value (accumulate update (generator T X stopNode).entry 0 acc ts.reverse) =
      value (accumulate update (generator (reverseFirst ts.length T) X stopNode).entry 0 acc ts) := by
  rw [(accumulate_sum Good value product step _ _ 0 acc good).2, (accumulate_sum Good value product step _ _ 0 acc good).2,
    List.length_reverse]
  simp only [Nat.zero_add]
  rw [sum_reverse]
  congr 1
  apply Finset.sum_congr rfl
  intro i member
  rw [reverseFirst_entry T X stopNode fits (Finset.mem_range.mp member)]

theorem finalize_congr (res : Word) {tmp tmp' : TmpResult} (reduced : tmp.Reduced) (reduced' : tmp'.Reduced)
    (same : tmp.residue = tmp'.residue) : finalizeDotprodModP res tmp = finalizeDotprodModP res tmp' := by
  apply BitVec.eq_of_toNat_eq
  rw [finalizeDotprodModP_toNat res reduced, finalizeDotprodModP_toNat res reduced', same]

theorem dmix_agree (S : ℕ) (T : Fin maxTableLength → Word) (X : Word) (scope : ScopedBy w stopNode ns pre k y)
    (fits : 1 + y.length < maxTableLength) :
    ∃ result, getCompressedPedigreeDmix (generator T X stopNode) w = .ok result ∧
      getCompressedPedigreeFDmix S (generator (reverseFirst (1 + y.length) T) X stopNode) w = some result := by
  have count : ((k :: y).map (· + 1)).length = 1 + y.length := by simp [Nat.add_comm]
  have same := accumulate_reverse (fun _ : Word => True) id (fun a x => a * x) (fun acc a x _ => ⟨trivial, rfl⟩)
    T X stopNode ((k :: y).map (· + 1)) (by rwa [count]) X trivial
  rw [count] at same
  refine ⟨_, compressReverse_scoped (dmixSum _) (generator T X stopNode) scope fits, ?_⟩
  rw [getCompressedPedigreeFDmix, compressForward_scoped S (dmixSum _) _ scope fits]
  exact congrArg (fun result => some (result, 1 + y.length, w.bumpRank)) same.symm

theorem accumulate_reduced (table : ℕ → Word) (ts : List Word) :
    (accumulate (fun tmp a x => dotprodUpdateModP a x tmp) table 0 .zero ts).Reduced :=
  (accumulate_products table ts 0 zero_reduced).1

theorem dmixPrime_agree (S : ℕ) (T : Fin maxTableLength → Word) (X : Word) (scope : ScopedBy w stopNode ns pre k y)
    (fits : 1 + y.length < maxTableLength) :
    ∃ result, getCompressedPedigreeDmixPrime (generator T X stopNode) w = .ok result ∧
      getCompressedPedigreeFDmixPrime S (generator (reverseFirst (1 + y.length) T) X stopNode) w = some result := by
  have count : ((k :: y).map (· + 1)).length = 1 + y.length := by simp [Nat.add_comm]
  have same := accumulate_reverse TmpResult.Reduced TmpResult.residue (fun a x => (a.toNat * x.toNat : ZMod prime))
    (fun _ a x reduced => dotprodUpdateModP_spec a x reduced) T X stopNode ((k :: y).map (· + 1)) (by rwa [count])
    .zero zero_reduced
  rw [count] at same
  refine ⟨_, compressReverse_scoped (dmixPrimeSum _) (generator T X stopNode) scope fits, ?_⟩
  rw [getCompressedPedigreeFDmixPrime, compressForward_scoped S (dmixPrimeSum _) _ scope fits]
  exact congrArg (fun result => some (result, 1 + y.length, w.bumpRank))
    (finalize_congr X (accumulate_reduced _ _) (accumulate_reduced _ _) same).symm

/-- Both kinds of generators read the scoped pedigree `[k] ++ y`, whatever they compute from its terms plus
one, and report its length. So a reverse generator returns what the forward generator of the same kind
returns on the table with its first entries reversed. -/
theorem generators_agree (S : ℕ) (T : Fin maxTableLength → Word) (X : Word) (scope : ScopedBy w stopNode ns pre k y)
    (fits : 1 + y.length < maxTableLength) :
    (∀ {σ : Type} (sum : RunningSum σ), compressReverse sum (generator T X stopNode) w =
      .ok (sum.finish (accumulate sum.update (generator T X stopNode).entry 0 sum.start ((k :: y).map (· + 1)).reverse),
        1 + y.length, w.bumpRank)) ∧
    (∀ {σ : Type} (sum : RunningSum σ), compressForward S sum (generator T X stopNode) w =
      some (sum.finish (accumulate sum.update (generator T X stopNode).entry 0 sum.start ((k :: y).map (· + 1))),
        1 + y.length, w.bumpRank)) ∧
    (∃ result, getCompressedPedigreeDmix (generator T X stopNode) w = .ok result ∧
      getCompressedPedigreeFDmix S (generator (reverseFirst (1 + y.length) T) X stopNode) w = some result) ∧
    ∃ result, getCompressedPedigreeDmixPrime (generator T X stopNode) w = .ok result ∧
      getCompressedPedigreeFDmixPrime S (generator (reverseFirst (1 + y.length) T) X stopNode) w = some result :=
  ⟨fun sum => compressReverse_scoped sum (generator T X stopNode) scope fits,
    fun sum => compressForward_scoped S sum (generator T X stopNode) scope fits,
    dmix_agree S T X scope fits, dmixPrime_agree S T X scope fits⟩

/-- A pedigree of two terms in the scope of its first one, read with room for one term. -/
theorem generators_agree_twoTerms :
    ∃ result, getCompressedPedigreeDmixPrime (generator (fun i => BitVec.ofNat 64 i) 7 ⟨3, none⟩)
        ⟨fun _ => some ⟨5, none⟩, ⟨9, some 0⟩⟩ = .ok result ∧
      getCompressedPedigreeFDmixPrime 1 (generator (reverseFirst 2 fun i => BitVec.ofNat 64 i) 7 ⟨3, none⟩)
        ⟨fun _ => some ⟨5, none⟩, ⟨9, some 0⟩⟩ = some result := by
  have scope : ScopedBy ⟨fun _ => some ⟨5, none⟩, ⟨9, some 0⟩⟩ ⟨3, none⟩ [⟨9, some 0⟩, ⟨5, none⟩] [] 2 [9] :=
    ⟨.up rfl rfl (.root rfl), by decide, by decide, rfl⟩
  exact (generators_agree 1 (fun i => BitVec.ofNat 64 i) 7 scope (by decide)).2.2.2

end CilkArtifact.DotMix
