import CilkArtifact.Pedigree.Storage

/-! Where pedigree objects keep their terms over their lifetime. -/
namespace CilkArtifact.Pedigree
open Buffer DotMix

namespace OptPedigree
variable {S : ℕ} {o : OptPedigree S} {l : List Word} {w : Worker} {stopNode : PedNode} {vs ns : List PedNode}

/-! ### Scoped reads -/

/-- A walk up a chain visits the nodes up to the first one below the stop node's parent. -/
theorem until_of_chain {node : PedNode} (chain : NodeChain w.nodes node ns) (stopNode : PedNode) {ref : Ref}
    (start : load w ref = some node) (fresh : ofParent stopNode.parent ≠ some ref) :
    Until w (ofParent stopNode.parent) (some ref) (ns.take (walked stopNode ns + 1))
      (if walked stopNode ns < ns.length then ofParent stopNode.parent else none) := by
  induction chain generalizing ref with
  | @root node top =>
    have path : Until w (ofParent stopNode.parent) (some ref) [node] none :=
      .up fresh start (by rw [top]; exact .null)
    rw [walked_cons, top]
    by_cases same : stopNode.parent = none
    · simpa [same, ofParent] using path
    · simpa [same, walked] using path
  | @up node a parent rest linked found _ ih =>
    rw [walked_cons]
    by_cases same : stopNode.parent = node.parent
    · have met : ofParent stopNode.parent = some (.node a) := by rw [same, linked]; rfl
      have path : Until w (ofParent stopNode.parent) (some ref) [node] (some (.node a)) :=
        .up fresh start (by rw [linked]; exact .met met)
      simpa [same, linked, ofParent] using path
    · have other : ofParent stopNode.parent ≠ some (.node a) := by
        rw [linked] at same
        simpa [ofParent] using same
      have path := Until.up fresh start (show Until w (ofParent stopNode.parent) (ofParent node.parent) _ _ by
        rw [linked]
        exact @ih (.node a) found other)
      simpa [same] using path

theorem until_leaf (chain : NodeChain w.nodes w.leaf ns) (stopNode : PedNode) :
    Until w (ofParent stopNode.parent) (some .leaf) (ns.take (walked stopNode ns + 1))
      (if walked stopNode ns < ns.length then ofParent stopNode.parent else none) :=
  until_of_chain chain stopNode rfl (by cases stopNode.parent <;> simp [ofParent])

/-- The chain ended before the stop node's parent was met: the object is empty. -/
theorem getCurrentScopedPedigree_unmet (own : o.revPed.Spans 0 S) (outside : ofParent stopNode.parent ≠ none)
    (path : Until w (ofParent stopNode.parent) (some .leaf) vs none) :
    ∃ o', getCurrentScopedPedigree o w stopNode = some o' ∧ Represents o' [] := by
  obtain ⟨⟨⟨length, revPed, full⟩, ref⟩, run, counted, static, spans, _, _⟩ := storeTerms_clear o own path
  subst static
  refine ⟨⟨0, revPed, .static⟩, ?_, clear_represents (o := ⟨0, revPed, .static⟩) spans⟩
  simp only [getCurrentScopedPedigree, run, counted, Option.bind_eq_bind, Option.bind_some]
  rw [if_pos ⟨trivial, outside⟩]

/-- Otherwise the terms are read and the last one is corrected. -/
theorem getCurrentScopedPedigree_met (own : o.revPed.Spans 0 S)
    (path : Until w (ofParent stopNode.parent) (some .leaf) vs (ofParent stopNode.parent)) :
    ∃ o', Represents o' (vs.map PedNode.rank) ∧ getCurrentScopedPedigree o w stopNode = correctLast stopNode o' := by
  obtain ⟨stored, run, counted, static, spans, stores, path'⟩ := storeTerms_clear o own path
  obtain ⟨o', spilled, represents⟩ :=
    spill_spec (o := { stored.1 with length := vs.length }) spans static rfl stores path'
  refine ⟨o', represents, ?_⟩
  simp only [getCurrentScopedPedigree, run, counted, Option.bind_eq_bind, Option.bind_some]
  rw [if_neg (fun both => both.2 rfl), if_pos trivial, spilled, Option.bind_some]

theorem writeFull_represents {i : ℕ} (represents : Represents o l) (inside : i < l.length) (v : Word) :
    ∃ o', o.writeFull i v = some o' ∧ Represents o' (l.set i v) := by
  have fits := represents.fits
  obtain ⟨o', run, written, writes⟩ := writeFull_spec (represents.spans i (mem_span.mpr (by omega))) v
  have ready := represents.toReady.writes writes
  refine ⟨o', run, ?_, ?_, ?_⟩
  · rwa [List.length_set]
  · rw [writes.length, represents.length, List.length_set]
  · intro t bound
    rw [List.length_set] at bound
    rw [Nat.zero_add]
    by_cases same : t = i
    · rw [same, written, List.getElem?_set_self inside]
    · have frame := writes.changes.frame t same
      have old := represents.stored t bound
      rw [Nat.zero_add] at old
      rw [frame, old, List.getElem?_set_ne (Ne.symm same)]

/-- Terms in scope: the last one is counted from the rank of the stop node. -/
theorem correctLast_inScope (represents : Represents o l) (nonempty : l ≠ [])
    (inScope : stopNode.rank ≤ l.getLast nonempty) :
    ∃ o', correctLast stopNode o = some o' ∧
      Represents o' (l.set (l.length - 1) (l.getLast nonempty - stopNode.rank)) := by
  have inside : l.length - 1 < l.length := Nat.sub_lt (List.length_pos_iff.mpr nonempty) Nat.one_pos
  have last : o.readFull (l.length - 1) = some (l.getLast nonempty) := by
    rw [represents.readFull inside, List.getLast_eq_getElem]
  obtain ⟨o', run, result⟩ := writeFull_represents represents inside (l.getLast nonempty - stopNode.rank)
  refine ⟨o', ?_, result⟩
  simp only [correctLast, represents.length, last, Option.bind_eq_bind, Option.bind_some]
  rw [if_neg (BitVec.not_lt.mpr inScope), run]

/-- Terms out of scope: the length is reset, but not the array. -/
theorem correctLast_outOfScope (represents : Represents o l) (nonempty : l ≠ [])
    (outOfScope : l.getLast nonempty < stopNode.rank) : correctLast stopNode o = some { o with length := 0 } := by
  have inside : l.length - 1 < l.length := Nat.sub_lt (List.length_pos_iff.mpr nonempty) Nat.one_pos
  have last : o.readFull (l.length - 1) = some (l.getLast nonempty) := by
    rw [represents.readFull inside, List.getLast_eq_getElem]
  simp only [correctLast, represents.length, last, Option.bind_eq_bind, Option.bind_some]
  rw [if_pos outOfScope]

/-- A shorter length leaves the object well formed as long as the static array is used. -/
theorem Represents.reset (represents : Represents o l) (short : l.length ≤ S) :
    Represents (S := S) { o with length := 0 } [] where
  static := by
    have static := represents.static
    rw [decide_eq_true short] at static
    exact static.trans (decide_eq_true (Nat.zero_le S)).symm
  fits := Nat.zero_le _
  spans := represents.spans
  own := represents.own
  length := rfl
  stored := stores_nil _ 0

theorem root_mem {node : PedNode} (chain : NodeChain w.nodes node ns) : ∃ root ∈ ns, root.parent = none := by
  induction chain with
  | @root node top => exact ⟨node, List.mem_singleton_self node, top⟩
  | up _ _ _ ih =>
    obtain ⟨root, member, top⟩ := ih
    exact ⟨root, List.mem_cons_of_mem _ member, top⟩

/-- The ranks that a scoped read stores before it corrects the last one. -/
def scopedRanks (stopNode : PedNode) (ns : List PedNode) : List Word := (ns.take (walked stopNode ns + 1)).map PedNode.rank

theorem scopedRanks_length (met : walked stopNode ns < ns.length) :
    (scopedRanks stopNode ns).length = walked stopNode ns + 1 := by
  rw [scopedRanks, List.length_map, List.length_take]
  omega

theorem scopedRanks_ne_nil (met : walked stopNode ns < ns.length) : scopedRanks stopNode ns ≠ [] := by
  have length := scopedRanks_length met
  intro empty
  rw [empty] at length
  cases length

theorem scopedRanks_getLast (met : walked stopNode ns < ns.length) :
    (scopedRanks stopNode ns).getLast (scopedRanks_ne_nil met) = ns[walked stopNode ns].rank := by
  have index : (scopedRanks stopNode ns).length - 1 = walked stopNode ns := by
    rw [scopedRanks_length met, Nat.add_sub_cancel]
  rw [List.getLast_eq_getElem]
  simp only [index]
  simp [scopedRanks]

/-- The chain ends before the stop node's parent is met. -/
theorem currentScoped_unmet (chain : NodeChain w.nodes w.leaf ns) (unmet : ¬ walked stopNode ns < ns.length) :
    ∃ o : OptPedigree S, currentScoped w stopNode = some o ∧ Represents o [] := by
  have path := until_leaf chain stopNode
  rw [if_neg unmet] at path
  have outside : ofParent stopNode.parent ≠ none := by
    intro top
    obtain ⟨root, member, same⟩ := root_mem chain
    have null : stopNode.parent = none := by
      cases stopped : stopNode.parent with
      | none => rfl
      | some a =>
        rw [stopped] at top
        cases top
    exact unmet ((walked_lt_iff stopNode ns).mpr ⟨root, member, null.trans same.symm⟩)
  exact getCurrentScopedPedigree_unmet empty_represents.own outside path

theorem currentScoped_met (chain : NodeChain w.nodes w.leaf ns) (met : walked stopNode ns < ns.length) :
    ∃ o : OptPedigree S, Represents o (scopedRanks stopNode ns) ∧ currentScoped w stopNode = correctLast stopNode o := by
  have path := until_leaf chain stopNode
  rw [if_pos met] at path
  exact getCurrentScopedPedigree_met empty_represents.own path

/-- The terms of a scoped read in scope, leaf first. -/
def scopedTerms (stopNode : PedNode) (ns : List PedNode) : List Word :=
  (scopedRanks stopNode ns).modify (walked stopNode ns) fun rank => rank - stopNode.rank

theorem currentScoped_inScope (chain : NodeChain w.nodes w.leaf ns) (met : walked stopNode ns < ns.length)
    (inScope : stopNode.rank ≤ ns[walked stopNode ns].rank) :
    ∃ o : OptPedigree S, currentScoped w stopNode = some o ∧ Represents o (scopedTerms stopNode ns) := by
  obtain ⟨o, represents, run⟩ := currentScoped_met (S := S) chain met
  have last := scopedRanks_getLast met
  obtain ⟨o', corrected, result⟩ := correctLast_inScope represents (scopedRanks_ne_nil met) (last ▸ inScope)
  have index : (scopedRanks stopNode ns).length - 1 = walked stopNode ns := by
    rw [scopedRanks_length met, Nat.add_sub_cancel]
  refine ⟨o', run.trans corrected, ?_⟩
  rw [scopedTerms, List.modify_eq_set_get _ (by rw [scopedRanks_length met]; exact Nat.lt_succ_self _)]
  rw [index, last] at result
  simpa [scopedRanks] using result

/-- Short terms out of scope were stored in the static array. -/
theorem currentScoped_short (chain : NodeChain w.nodes w.leaf ns) (met : walked stopNode ns < ns.length)
    (outOfScope : ns[walked stopNode ns].rank < stopNode.rank) (short : walked stopNode ns + 1 ≤ S) :
    ∃ o : OptPedigree S, currentScoped w stopNode = some o ∧ Represents o [] := by
  obtain ⟨o, represents, run⟩ := currentScoped_met (S := S) chain met
  have last := scopedRanks_getLast met
  refine ⟨_, run.trans (correctLast_outOfScope represents (scopedRanks_ne_nil met) (last ▸ outOfScope)), ?_⟩
  exact represents.reset ((scopedRanks_length met).le.trans short)

/-- Long terms out of scope leave an empty object with an array on the heap. -/
theorem currentScoped_long (chain : NodeChain w.nodes w.leaf ns) (met : walked stopNode ns < ns.length)
    (outOfScope : ns[walked stopNode ns].rank < stopNode.rank) (long : S < walked stopNode ns + 1) :
    ∃ o : OptPedigree S, currentScoped w stopNode = some o ∧ o.length = 0 ∧ o.isStatic = false := by
  obtain ⟨o, represents, run⟩ := currentScoped_met (S := S) chain met
  have last := scopedRanks_getLast met
  refine ⟨_, run.trans (correctLast_outOfScope represents (scopedRanks_ne_nil met) (last ▸ outOfScope)), rfl, ?_⟩
  refine Eq.trans represents.static (decide_eq_false ?_)
  rw [scopedRanks_length met]
  exact Nat.not_le.mpr long

/-- The static array is used exactly if it is large enough, and a heap array otherwise is. -/
structure WellStored (o : OptPedigree S) : Prop where
  static : o.revPedFull = .static ↔ o.length ≤ S
  heap : ∀ capacity array, o.revPedFull = .heap capacity array → o.length ≤ capacity ∧ array.Spans 0 capacity

theorem Represents.wellStored (represents : Represents o l) : WellStored o := by
  obtain ⟨ready, length, -⟩ := represents
  have static := ready.static
  rw [← length] at static
  constructor
  · constructor
    · intro same
      rw [isStatic, same] at static
      exact of_decide_eq_true static.symm
    · intro short
      rw [decide_eq_true short] at static
      exact static_full static
  · intro size array same
    have fits := ready.fits
    have spans := ready.spans
    rw [capacity, same] at fits spans
    rw [fullArray, same] at spans
    exact ⟨length ▸ fits, spans⟩

theorem Represents.getRevPedArray (represents : Represents o l) : o.getRevPedArray = some o.fullArray := by
  have static := represents.static
  rw [← represents.length] at static
  rw [OptPedigree.getRevPedArray, static]
  by_cases large : S < o.length
  · rw [if_pos large, decide_eq_false (Nat.not_le.mpr large)]
    rfl
  · rw [if_neg large, decide_eq_true (Nat.not_lt.mp large)]
    rfl

/-- The term at depth `i`, counted from the root. -/
theorem Represents.read_root {i : ℕ} (represents : Represents o l) (inside : i < l.length) :
    o.fullArray.read (o.length - 1 - i) = l.reverse[i]? := by
  have term := represents.readFull (i := l.length - 1 - i) (by omega)
  rw [represents.length, List.getElem?_reverse inside, List.getElem?_eq_getElem]
  exact term

end OptPedigree

open OptPedigree

/-! ### Runs -/

/-- The live objects by name. -/
abbrev Objects (S : ℕ) := ℕ → Option (OptPedigree S)

/-- The operations on pedigree objects. The constructors and reads make a new object `x`. -/
inductive Op where
  | construct (x : ℕ)
  | ofBuffer (x : ℕ) (buffer : List Word) (isReversed : Bool)
  | copy (x y : ℕ)
  | current (x : ℕ) (w : Worker)
  | currentScoped (x : ℕ) (w : Worker) (stopNode : PedNode)
  | assign (x y : ℕ)
  | clear (x : ℕ)
  | getRevPedArray (x : ℕ)
  | destroy (x : ℕ)

variable {S : ℕ} {objects objects' : Objects S}

def create (objects : Objects S) (x : ℕ) (made : Option (OptPedigree S)) : Option (Objects S) := do
  let o ← made
  some (Function.update objects x (some o))

def step (objects : Objects S) : Op → Option (Objects S)
  | .construct x => create objects x (some OptPedigree.empty)
  | .ofBuffer x buffer isReversed => create objects x (OptPedigree.ofBuffer buffer isReversed)
  | .copy x y => do
    let ped ← objects y
    create objects x (copyOf ped)
  | .current x w => create objects x (OptPedigree.current w)
  | .currentScoped x w stopNode => create objects x (OptPedigree.currentScoped w stopNode)
  | .assign x y => do
    let o ← objects x
    let ped ← objects y
    create objects x (o.assign (if x = y then none else some ped))
  | .clear x => do
    let o ← objects x
    create objects x (some o.clear)
  | .getRevPedArray x => do
    let o ← objects x
    let _ ← o.getRevPedArray
    some objects
  | .destroy x => some (Function.update objects x none)

/-- New objects have fresh names, the other objects are live, and pedigrees are chains. -/
def Op.Allowed (objects : Objects S) : Op → Prop
  | .construct x => objects x = none
  | .ofBuffer x _ _ => objects x = none
  | .copy x y => objects x = none ∧ (objects y).isSome
  | .current x w => objects x = none ∧ ∃ ns, NodeChain w.nodes w.leaf ns
  | .currentScoped x w _ => objects x = none ∧ ∃ ns, NodeChain w.nodes w.leaf ns
  | .assign x y => (objects x).isSome ∧ (objects y).isSome
  | .clear x => (objects x).isSome
  | .getRevPedArray x => (objects x).isSome
  | .destroy x => (objects x).isSome

/-- A scoped read that meets the stop node's parent after more terms than the static array fits meets it
above a node whose rank is not below the stop node's. -/
def Op.LongInScope (S : ℕ) : Op → Prop
  | .currentScoped _ w stopNode => ∀ ns, NodeChain w.nodes w.leaf ns → ∀ met : walked stopNode ns < ns.length,
      S < walked stopNode ns + 1 → stopNode.rank ≤ ns[walked stopNode ns].rank
  | _ => True

/-- The states of the runs whose steps all meet `LongInScope`. -/
inductive Reachable : Objects S → Prop
  | start : Reachable fun _ => none
  | step {objects objects' op} : Reachable objects → op.Allowed objects → op.LongInScope S →
      step objects op = some objects' → Reachable objects'

def AllWellStored (objects : Objects S) : Prop := ∀ x o, objects x = some o → WellStored o

/-- The invariant: every live object stores some terms. -/
def Live (objects : Objects S) : Prop := ∀ x o, objects x = some o → ∃ l, Represents o l

theorem Live.allWellStored (live : Live objects) : AllWellStored objects := by
  intro x o found
  obtain ⟨l, represents⟩ := live x o found
  exact represents.wellStored

theorem Live.create (live : Live objects) (x : ℕ) {made : Option (OptPedigree S)}
    (result : ∃ o l, made = some o ∧ Represents o l) :
    ∃ objects', create objects x made = some objects' ∧ Live objects' := by
  obtain ⟨o, l, rfl, represents⟩ := result
  refine ⟨_, rfl, ?_⟩
  intro y o' found
  by_cases same : y = x
  · subst same
    rw [Function.update_self] at found
    cases found
    exact ⟨l, represents⟩
  · rw [Function.update_of_ne same] at found
    exact live y o' found

/-- Every pedigree is read properly if a scoped read that is too long for the static array is in scope. -/
theorem currentScoped_represents {w : Worker} {stopNode : PedNode} {ns : List PedNode}
    (chain : NodeChain w.nodes w.leaf ns) (longInScope : ∀ met : walked stopNode ns < ns.length,
      S < walked stopNode ns + 1 → stopNode.rank ≤ ns[walked stopNode ns].rank) :
    ∃ (o : OptPedigree S) (l : List Word), OptPedigree.currentScoped w stopNode = some o ∧ Represents o l := by
  by_cases met : walked stopNode ns < ns.length
  · by_cases inScope : stopNode.rank ≤ ns[walked stopNode ns].rank
    · obtain ⟨o, run, represents⟩ := currentScoped_inScope (S := S) chain met inScope
      exact ⟨o, _, run, represents⟩
    · have short : walked stopNode ns + 1 ≤ S := Nat.not_lt.mp fun long => inScope (longInScope met long)
      obtain ⟨o, run, represents⟩ := currentScoped_short chain met (BitVec.not_le.mp inScope) short
      exact ⟨o, _, run, represents⟩
  · obtain ⟨o, run, represents⟩ := currentScoped_unmet (S := S) chain met
    exact ⟨o, _, run, represents⟩

theorem current_represents {w : Worker} {ns : List PedNode} (chain : NodeChain w.nodes w.leaf ns) :
    ∃ (o : OptPedigree S) (l : List Word), OptPedigree.current w = some o ∧ Represents o l := by
  have path : Until w none (some .leaf) (ns.take (walked ⟨0, none⟩ ns + 1)) none := by
    have path := until_leaf chain ⟨0, none⟩
    simpa [ofParent] using path
  obtain ⟨o, run, represents⟩ := getCurrentPedigree_spec OptPedigree.empty empty_represents.own path
  exact ⟨o, _, run, represents⟩

/-- What one step preserves. -/
theorem step_live {op : Op} (live : Live objects) (allowed : op.Allowed objects) (longInScope : op.LongInScope S) :
    ∃ objects', step objects op = some objects' ∧ Live objects' := by
  cases op with
  | construct x => exact live.create x ⟨_, _, rfl, empty_represents⟩
  | ofBuffer x buffer isReversed =>
    obtain ⟨o, run, represents⟩ := ofBuffer_spec (S := S) buffer isReversed
    exact live.create x ⟨o, _, run, represents⟩
  | copy x y =>
    obtain ⟨ped, found⟩ := Option.isSome_iff_exists.mp allowed.2
    obtain ⟨l, source⟩ := live y ped found
    obtain ⟨o, run, represents⟩ := copyOf_spec source
    rw [step, found]
    exact live.create x ⟨o, l, run, represents⟩
  | current x w =>
    obtain ⟨_, ns, chain⟩ := allowed
    exact live.create x (current_represents chain)
  | currentScoped x w stopNode =>
    obtain ⟨_, ns, chain⟩ := allowed
    exact live.create x (currentScoped_represents chain (longInScope ns chain))
  | assign x y =>
    obtain ⟨o, target⟩ := Option.isSome_iff_exists.mp allowed.1
    obtain ⟨ped, found⟩ := Option.isSome_iff_exists.mp allowed.2
    obtain ⟨l, represents⟩ := live x o target
    obtain ⟨m, source⟩ := live y ped found
    rw [step, target, found]
    by_cases same : x = y
    · obtain ⟨o', run, result⟩ := assign_self represents
      exact live.create x ⟨o', l, by rw [if_pos same, run], result⟩
    · obtain ⟨o', run, result⟩ := assign_spec represents source
      exact live.create x ⟨o', m, by rw [if_neg same, run], result⟩
  | clear x =>
    obtain ⟨o, found⟩ := Option.isSome_iff_exists.mp allowed
    obtain ⟨l, represents⟩ := live x o found
    rw [step, found]
    exact live.create x ⟨o.clear, [], rfl, clear_represents represents.own⟩
  | getRevPedArray x =>
    obtain ⟨o, found⟩ := Option.isSome_iff_exists.mp allowed
    obtain ⟨l, represents⟩ := live x o found
    refine ⟨objects, ?_, live⟩
    simp only [step, found, represents.getRevPedArray, Option.bind_eq_bind, Option.bind_some]
  | destroy x =>
    refine ⟨_, rfl, ?_⟩
    intro y o found
    by_cases same : y = x
    · rw [same, Function.update_self] at found
      cases found
    · rw [Function.update_of_ne same] at found
      exact live y o found

theorem reachable_live (reachable : Reachable objects) : Live objects := by
  induction reachable with
  | start =>
    intro x o found
    cases found
  | step _ allowed longInScope run ih =>
    obtain ⟨objects', run', live⟩ := step_live ih allowed longInScope
    rw [run] at run'
    cases run'
    exact live

/-- A long scoped read out of scope makes an object whose array is not the one its length asks for. -/
theorem step_not_wellStored {op : Op} (outOfScope : ¬ op.LongInScope S)
    (run : step objects op = some objects') : ¬ AllWellStored objects' := by
  cases op with
  | currentScoped x w stopNode =>
    simp only [Op.LongInScope, not_forall] at outOfScope
    obtain ⟨ns, chain, met, long, outside⟩ := outOfScope
    obtain ⟨o, read, length, heap⟩ := currentScoped_long (S := S) chain met (BitVec.not_le.mp outside) long
    rw [step, read] at run
    cases run
    intro wellStored
    have static := (wellStored x o (Function.update_self ..)).static.mpr (length ▸ Nat.zero_le S)
    rw [isStatic, static] at heap
    cases heap
  | _ => exact absurd trivial outOfScope

/-- In every state of a run whose long scoped reads are in scope, all objects are stored where they should
be. The next operation, whichever it is, then does not fail, and it keeps this exactly if it is not a long
scoped read out of scope. -/
theorem lifetime_wellStored (reachable : Reachable objects) :
    AllWellStored objects ∧ ∀ op : Op, op.Allowed objects →
      ((∃ objects', step objects op = some objects' ∧ AllWellStored objects') ↔ op.LongInScope S) := by
  have live := reachable_live reachable
  refine ⟨live.allWellStored, ?_⟩
  intro op allowed
  constructor
  · rintro ⟨objects', run, wellStored⟩
    by_contra outOfScope
    exact step_not_wellStored outOfScope run wellStored
  · intro longInScope
    obtain ⟨objects', run, live'⟩ := step_live live allowed longInScope
    exact ⟨objects', run, live'.allWellStored⟩

/-- With room for one term: a read of three terms in a scope, a whole pedigree, and assignments from the heap to an
empty object and back to a longer one. -/
theorem lifetime_wellStored_scoped : ∃ objects : Objects 1,
    [Op.currentScoped 0 threeNodes ⟨1, none⟩, .current 1 threeNodes, .construct 2, .assign 2 0].foldlM step
      (fun _ => none) = some objects ∧
    (∃ o, objects 2 = some o ∧ Represents o [4, 7, 1] ∧ o.isStatic = false) ∧ AllWellStored objects ∧
    ∃ objects', step objects (.assign 1 2) = some objects' ∧ AllWellStored objects' := by
  have inScope : (1 : Word) ≤ ([⟨4, some 0⟩, ⟨7, some 1⟩, ⟨2, none⟩] : List PedNode)[2].rank := by decide
  have met : walked ⟨1, none⟩ [⟨4, some 0⟩, ⟨7, some 1⟩, ⟨2, none⟩] < 3 := by decide
  have longInScope : Op.LongInScope 1 (.currentScoped 0 threeNodes ⟨1, none⟩) := by
    intro ns chain _ _
    obtain rfl := threeNodes_chain.unique chain
    exact inScope
  obtain ⟨o, read, represents⟩ := currentScoped_inScope (S := 1) threeNodes_chain met inScope
  obtain ⟨o₁, l₁, read₁, -⟩ := current_represents (S := 1) threeNodes_chain
  obtain ⟨o₂, assigned, copied⟩ := assign_spec empty_represents represents
  let objects₁ : Objects 1 := Function.update (fun _ => none) 0 (some o)
  let objects₂ : Objects 1 := Function.update objects₁ 1 (some o₁)
  let objects₃ : Objects 1 := Function.update objects₂ 2 (some OptPedigree.empty)
  let objects₄ : Objects 1 := Function.update objects₃ 2 (some o₂)
  have run₁ : step (fun _ => none) (.currentScoped 0 threeNodes ⟨1, none⟩) = some objects₁ := by
    rw [step, read]
    rfl
  have run₂ : step objects₁ (.current 1 threeNodes) = some objects₂ := by
    rw [step, read₁]
    rfl
  have run₃ : step objects₂ (.construct 2) = some objects₃ := rfl
  have run₄ : step objects₃ (.assign 2 0) = some objects₄ := by
    simp only [step, create, objects₁, objects₂, objects₃, objects₄]
    simp [assigned]
  have reachable₁ : Reachable objects₁ :=
    @Reachable.step 1 _ _ (.currentScoped 0 threeNodes ⟨1, none⟩) .start ⟨rfl, _, threeNodes_chain⟩ longInScope run₁
  have reachable₂ : Reachable objects₂ :=
    @Reachable.step 1 _ _ (.current 1 threeNodes) reachable₁ ⟨rfl, _, threeNodes_chain⟩ trivial run₂
  have reachable₃ : Reachable objects₃ := @Reachable.step 1 _ _ (.construct 2) reachable₂ rfl trivial run₃
  have reachable₄ : Reachable objects₄ := @Reachable.step 1 _ _ (.assign 2 0) reachable₃ ⟨rfl, rfl⟩ trivial run₄
  obtain ⟨wellStored, next⟩ := lifetime_wellStored reachable₄
  refine ⟨objects₄, ?_, ⟨o₂, rfl, copied, copied.static⟩, wellStored, (next (.assign 1 2) ⟨rfl, rfl⟩).mpr trivial⟩
  simp only [List.foldlM_cons, List.foldlM_nil, run₁, run₂, run₃, run₄, Option.bind_eq_bind, Option.bind_some,
    Option.pure_def]

/-- The chain of two nodes of rank 0. -/
def twoNodes : Worker := ⟨fun a => if a = 0 then some ⟨0, none⟩ else none, ⟨0, some 0⟩⟩

theorem twoNodes_chain : NodeChain twoNodes.nodes twoNodes.leaf [⟨0, some 0⟩, ⟨0, none⟩] := .up rfl rfl (.root rfl)

/-- With room for one term, a pedigree of two terms is read in a scope that starts at rank 5. -/
theorem currentScoped_not_wellStored : (Op.currentScoped 0 twoNodes ⟨5, none⟩).Allowed (fun _ => none : Objects 1) ∧
    ∃ objects', step (fun _ => none : Objects 1) (.currentScoped 0 twoNodes ⟨5, none⟩) = some objects' ∧
      ¬ AllWellStored objects' ∧ step objects' (.getRevPedArray 0) = none := by
  refine ⟨⟨rfl, _, twoNodes_chain⟩, ?_⟩
  have met : walked ⟨5, none⟩ [⟨0, some 0⟩, ⟨0, none⟩] < 2 := by decide
  obtain ⟨o, read, length, heap⟩ := currentScoped_long (S := 1) twoNodes_chain met (by decide +revert) (by decide)
  have run : step (fun _ => none : Objects 1) (.currentScoped 0 twoNodes ⟨5, none⟩) =
      some (Function.update (fun _ => none) 0 (some o)) := by
    rw [step, read]
    rfl
  refine ⟨_, run, step_not_wellStored ?_ run, ?_⟩
  · intro inScope
    exact absurd (inScope _ twoNodes_chain (by decide) (by decide)) (by decide)
  · have fails : o.getRevPedArray = none := by
      rw [OptPedigree.getRevPedArray, length, heap]
      rfl
    simp [step, fails]

end CilkArtifact.Pedigree
