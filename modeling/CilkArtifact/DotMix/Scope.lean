import CilkArtifact.DotMix.Seed

/-! How the reverse generators end on pedigrees that are in scope, out of scope or too long. -/
namespace CilkArtifact.DotMix
/-- A parent-linked chain that ends in NULL, with its nodes leaf first. -/
inductive NodeChain (nodes : Addr → Option PedNode) : PedNode → List PedNode → Prop
  | root {node} : node.parent = none → NodeChain nodes node [node]
  | up {node a parent rest} : node.parent = some a → nodes a = some parent → NodeChain nodes parent rest →
      NodeChain nodes node (node :: rest)

variable {σ α : Type} {nodes : Addr → Option PedNode} {node : PedNode} {ns : List PedNode}

theorem NodeChain.unique {ns' : List PedNode} (chain : NodeChain nodes node ns) (chain' : NodeChain nodes node ns') :
    ns = ns' := by
  induction chain generalizing ns' with
  | root top =>
    cases chain' with
    | root _ => rfl
    | up linked _ _ => cases top.symm.trans linked
  | up linked found _ ih =>
    cases chain' with
    | root top => cases top.symm.trans linked
    | up linked' found' rest =>
      cases linked.symm.trans linked'
      cases found.symm.trans found'
      rw [ih rest]

/-- The number of nodes below the first one whose parent is the stop node's parent: all nodes of the
chain, if there is no such node. -/
def walked (stop : PedNode) (ns : List PedNode) : ℕ := ns.findIdx fun node => stop.parent = node.parent

theorem walked_cons (stop : PedNode) (node : PedNode) (ns : List PedNode) :
    walked stop (node :: ns) = if stop.parent = node.parent then 0 else walked stop ns + 1 := by
  rw [walked, List.findIdx_cons]
  by_cases same : stop.parent = node.parent <;> simp [same, walked]

theorem walked_lt_iff (stop : PedNode) (ns : List PedNode) :
    walked stop ns < ns.length ↔ ∃ node ∈ ns, stop.parent = node.parent := by
  simp [walked, List.findIdx_lt_length]

theorem walked_le (stop : PedNode) (ns : List PedNode) : walked stop ns ≤ ns.length := List.findIdx_le_length

theorem walked_parent {stop : PedNode} {ns : List PedNode} (met : walked stop ns < ns.length) :
    stop.parent = ns[walked stop ns].parent := by
  unfold walked at met ⊢
  exact of_decide_eq_true (List.findIdx_getElem (w := met))

/-- A node before the walk's end is not below the stop node's parent. -/
theorem walked_before {stop : PedNode} {ns : List PedNode} {i : ℕ} (inside : i < ns.length)
    (before : i < walked stop ns) : stop.parent ≠ ns[i].parent := by
  simpa using List.not_of_lt_findIdx before

/-- The first node decides the walk when the table is used up or the scope is met. -/
theorem walk_stops (sum : RunningSum σ) (g : DotMixGeneric) (nodes : Addr → Option PedNode) {remaining : ℕ}
    (d : ℕ) (node : PedNode) (rest : List PedNode) (acc : σ)
    (stops : remaining = 0 ∨ g.stopNode.parent = node.parent) :
    walk sum g nodes remaining d (some node) acc = .ok (d + min (walked g.stopNode (node :: rest)) remaining,
      (node :: rest)[min (walked g.stopNode (node :: rest)) remaining]?, acc) := by
  have none : min (walked g.stopNode (node :: rest)) remaining = 0 := by
    rcases stops with rfl | met
    · exact Nat.min_zero _
    · rw [walked_cons, if_pos met, Nat.zero_min]
  rw [none]
  cases remaining with
  | zero => rfl
  | succ remaining =>
    have met : g.stopNode.parent = node.parent := stops.resolve_left (Nat.succ_ne_zero _)
    rw [walk, if_neg (not_not_intro met)]
    rfl

/-- The loop stops at the end of the walk, of the table or of the chain. -/
theorem walk_nodes (sum : RunningSum σ) (g : DotMixGeneric) (chain : NodeChain nodes node ns) :
    ∀ (remaining d : ℕ) (acc : σ), d + remaining = g.tableLength → ∃ acc', walk sum g nodes remaining d (some node) acc =
      .ok (d + min (walked g.stopNode ns) remaining, ns[min (walked g.stopNode ns) remaining]?, acc') := by
  induction chain with
  | @root node top =>
    intro remaining d acc table
    by_cases stops : remaining = 0 ∨ g.stopNode.parent = node.parent
    · exact ⟨acc, walk_stops sum g nodes d node [] acc stops⟩
    · rw [not_or] at stops
      obtain ⟨remaining, rfl⟩ := Nat.exists_eq_succ_of_ne_zero stops.1
      refine ⟨sum.update acc (node.rank + 1) (g.entry d), ?_⟩
      rw [walk, if_pos stops.2, g.read_eq (by omega), top, walked_cons, if_neg stops.2]
      cases remaining <;> simp [follow, walk, walked, bind, Except.bind]
  | @up node a parent rest linked found _ ih =>
    intro remaining d acc table
    by_cases stops : remaining = 0 ∨ g.stopNode.parent = node.parent
    · exact ⟨acc, walk_stops sum g nodes d node rest acc stops⟩
    · rw [not_or] at stops
      obtain ⟨remaining, rfl⟩ := Nat.exists_eq_succ_of_ne_zero stops.1
      obtain ⟨acc', run⟩ := ih remaining (d + 1) (sum.update acc (node.rank + 1) (g.entry d)) (by omega)
      have index (k : ℕ) : d + (k + 1) = d + 1 + k := by omega
      refine ⟨acc', ?_⟩
      rw [walk, if_pos stops.2, g.read_eq (by omega), linked, follow_some found, walked_cons, if_neg stops.2,
        Nat.add_min_add_right, List.getElem?_cons_succ, index (min _ _)]
      exact run

/-! ### Outcomes -/

/-- The pedigree is in scope: some node is below the stop node's parent, with a rank not below the stop
node's. -/
def InScope (stop : PedNode) (ns : List PedNode) : Prop :=
  ∃ met : walked stop ns < ns.length, stop.rank ≤ ns[walked stop ns].rank

/-- What a call should do. It returns if the pedigree is in scope and its scoped length is at most the
length of the table. Otherwise an assertion fails, after a message if the chain or the table ended before
the stop node's parent was met. -/
structure EndsProperly (stop : PedNode) (tableLength : ℕ) (ns : List PedNode) (run : Except Fault α) : Prop where
  returns : (∃ result, run = .ok result) ↔ InScope stop ns ∧ walked stop ns + 1 ≤ tableLength
  stops : ∀ fault, run = .error fault → ∃ printed, fault = .assertion printed ∧
    (walked stop ns = ns.length ∧ ns.length ≤ tableLength → printed = [.ranOutOfPedigreeTerms]) ∧
    (tableLength < walked stop ns → printed = [.pedigreeTooLong])

/-- When the chain ends first, the error branch dereferences NULL. -/
theorem compressReverse_chain_ends (sum : RunningSum σ) (g : DotMixGeneric) (w : Worker)
    (chain : NodeChain w.nodes w.leaf ns) (unmet : walked g.stopNode ns = ns.length)
    (long : ns.length ≤ g.tableLength) : compressReverse sum g w = .error .nullDereference := by
  obtain ⟨acc, run⟩ := walk_nodes sum g chain g.tableLength 0 sum.start (Nat.zero_add _)
  rw [unmet, Nat.min_eq_left long, List.getElem?_eq_none (Nat.le_refl _)] at run
  simp only [compressReverse, run, bind, Except.bind]

theorem compressReverse_table_ends (sum : RunningSum σ) (g : DotMixGeneric) (w : Worker)
    (chain : NodeChain w.nodes w.leaf ns) (short : g.tableLength < walked g.stopNode ns) :
    compressReverse sum g w = .error (.assertion [.pedigreeTooLong]) := by
  obtain ⟨acc, run⟩ := walk_nodes sum g chain g.tableLength 0 sum.start (Nat.zero_add _)
  have inside : g.tableLength < ns.length := Nat.lt_of_lt_of_le short (walked_le _ ns)
  rw [Nat.min_eq_right short.le, List.getElem?_eq_getElem inside] at run
  simp only [compressReverse, run, bind, Except.bind, if_pos (walked_before inside short)]

theorem compressReverse_met (sum : RunningSum σ) (g : DotMixGeneric) (w : Worker)
    (chain : NodeChain w.nodes w.leaf ns) (met : walked g.stopNode ns < ns.length)
    (table : walked g.stopNode ns ≤ g.tableLength) :
    if g.stopNode.rank ≤ ns[walked g.stopNode ns].rank ∧ walked g.stopNode ns < g.tableLength then
      ∃ result, compressReverse sum g w = .ok result
    else compressReverse sum g w = .error (.assertion []) := by
  obtain ⟨acc, run⟩ := walk_nodes sum g chain g.tableLength 0 sum.start (Nat.zero_add _)
  rw [Nat.min_eq_left table, List.getElem?_eq_getElem met, Nat.zero_add] at run
  simp only [compressReverse, run, bind, Except.bind, if_neg (not_not_intro (walked_parent met))]
  by_cases rank : g.stopNode.rank ≤ ns[walked g.stopNode ns].rank
  · rw [if_neg (BitVec.not_lt.mpr rank)]
    by_cases room : walked g.stopNode ns < g.tableLength
    · rw [if_pos ⟨rank, room⟩, if_neg (Nat.not_le.mpr room), g.read_eq room]
      exact ⟨_, rfl⟩
    · rw [if_neg (fun both => room both.2), if_pos (Nat.not_lt.mp room)]
  · rw [if_neg (fun both => rank both.1), if_pos (BitVec.not_le.mp rank)]

theorem compressReverse_ends (sum : RunningSum σ) (g : DotMixGeneric) (w : Worker)
    (chain : NodeChain w.nodes w.leaf ns) :
    EndsProperly g.stopNode g.tableLength ns (compressReverse sum g w) ↔
      (∃ node ∈ ns, g.stopNode.parent = node.parent) ∨ g.tableLength < ns.length := by
  rw [← walked_lt_iff]
  have bound := walked_le g.stopNode ns
  constructor
  · intro proper
    by_contra neither
    have unmet : walked g.stopNode ns = ns.length := by omega
    have faulty := compressReverse_chain_ends sum g w chain unmet (by omega)
    obtain ⟨printed, impossible, _⟩ := proper.stops _ faulty
    cases impossible
  · intro ends
    by_cases short : g.tableLength < walked g.stopNode ns
    · have stopped := compressReverse_table_ends sum g w chain short
      constructor
      · rw [stopped]
        constructor
        · rintro ⟨result, impossible⟩
          cases impossible
        · rintro ⟨_, room⟩
          omega
      · rw [stopped]
        rintro fault ⟨⟩
        exact ⟨_, rfl, fun ended => by omega, fun _ => rfl⟩
    · have met : walked g.stopNode ns < ns.length := by omega
      have result := compressReverse_met sum g w chain met (by omega)
      split at result
      · next inScope =>
        obtain ⟨value, returned⟩ := result
        constructor
        · rw [returned]
          exact ⟨fun _ => ⟨⟨met, inScope.1⟩, inScope.2⟩, fun _ => ⟨value, rfl⟩⟩
        · rw [returned]
          rintro fault ⟨⟩
      · next outside =>
        constructor
        · rw [result]
          constructor
          · rintro ⟨value, impossible⟩
            cases impossible
          · rintro ⟨⟨_, rank⟩, room⟩
            exact absurd ⟨rank, room⟩ outside
        · rw [result]
          rintro fault ⟨⟩
          exact ⟨[], rfl, fun ended => by omega, fun tooLong => absurd tooLong short⟩

/-- Both reverse variants end properly on a chain exactly if some node of it is below the stop node's
parent, or the table is shorter than the chain. -/
theorem getCompressedPedigree_ends_iff (g : DotMixGeneric) (w : Worker) (ns : List PedNode)
    (chain : NodeChain w.nodes w.leaf ns) :
    EndsProperly g.stopNode g.tableLength ns (getCompressedPedigreeDmix g w) ∧
        EndsProperly g.stopNode g.tableLength ns (getCompressedPedigreeDmixPrime g w) ↔
      (∃ node ∈ ns, g.stopNode.parent = node.parent) ∨ g.tableLength < ns.length := by
  rw [getCompressedPedigreeDmix, getCompressedPedigreeDmixPrime, compressReverse_ends _ g w chain,
    compressReverse_ends _ g w chain, and_self]

/-- The chain of ranks 4, 7 and 2, from the leaf up. -/
def threeNodes : Worker :=
  ⟨fun a => if a = 0 then some ⟨7, some 1⟩ else if a = 1 then some ⟨2, none⟩ else none, ⟨4, some 0⟩⟩

theorem threeNodes_chain : NodeChain threeNodes.nodes threeNodes.leaf [⟨4, some 0⟩, ⟨7, some 1⟩, ⟨2, none⟩] :=
  .up rfl rfl (.up rfl rfl (.root rfl))

/-- A generator with a table of two terms. -/
def twoTerms (stopNode : PedNode) : DotMixGeneric := ⟨2, ![3, 5], 7, stopNode⟩

/-- An inner scope that the chain is in, one that it has left, and one that is not met before the table ends. -/
theorem getCompressedPedigree_ends_threeNodes :
    let ns : List PedNode := [⟨4, some 0⟩, ⟨7, some 1⟩, ⟨2, none⟩]
    (EndsProperly ⟨3, some 1⟩ 2 ns (getCompressedPedigreeDmix (twoTerms ⟨3, some 1⟩) threeNodes) ∧
      EndsProperly ⟨3, some 1⟩ 2 ns (getCompressedPedigreeDmixPrime (twoTerms ⟨3, some 1⟩) threeNodes) ∧
      getCompressedPedigreeDmix (twoTerms ⟨3, some 1⟩) threeNodes = .ok (47, 2, threeNodes.bumpRank)) ∧
    (EndsProperly ⟨9, some 1⟩ 2 ns (getCompressedPedigreeDmix (twoTerms ⟨9, some 1⟩) threeNodes) ∧
      EndsProperly ⟨9, some 1⟩ 2 ns (getCompressedPedigreeDmixPrime (twoTerms ⟨9, some 1⟩) threeNodes) ∧
      getCompressedPedigreeDmix (twoTerms ⟨9, some 1⟩) threeNodes = .error (.assertion [])) ∧
    EndsProperly ⟨0, some 7⟩ 2 ns (getCompressedPedigreeDmix (twoTerms ⟨0, some 7⟩) threeNodes) ∧
      EndsProperly ⟨0, some 7⟩ 2 ns (getCompressedPedigreeDmixPrime (twoTerms ⟨0, some 7⟩) threeNodes) ∧
      getCompressedPedigreeDmix (twoTerms ⟨0, some 7⟩) threeNodes = .error (.assertion [.pedigreeTooLong]) := by
  intro ns
  have ends (stopNode : PedNode) := (getCompressedPedigree_ends_iff (twoTerms stopNode) threeNodes ns threeNodes_chain).mpr
  have inside := ends ⟨3, some 1⟩ (.inl ⟨⟨7, some 1⟩, by decide, rfl⟩)
  have outside := ends ⟨9, some 1⟩ (.inl ⟨⟨7, some 1⟩, by decide, rfl⟩)
  have unmet := ends ⟨0, some 7⟩ (.inr (Nat.lt_succ_self 2))
  exact ⟨⟨inside.1, inside.2, rfl⟩, ⟨outside.1, outside.2, rfl⟩, unmet.1, unmet.2, rfl⟩

/-- A chain of one node, and a scope whose stop node has another parent. -/
theorem getCompressedPedigree_dereferences_null :
    ¬ EndsProperly ⟨0, some 7⟩ maxTableLength [⟨0, none⟩]
      (getCompressedPedigreeDmix (initSeed .dmix 4 0 ⟨0, some 7⟩) ⟨fun _ => none, ⟨0, none⟩⟩) := by
  intro proper
  have ends := (compressReverse_ends (dmixSum _) (initSeed .dmix 4 0 ⟨0, some 7⟩) ⟨fun _ => none, ⟨0, none⟩⟩
    (.root rfl)).mp proper
  simp [initSeed] at ends

end CilkArtifact.DotMix
