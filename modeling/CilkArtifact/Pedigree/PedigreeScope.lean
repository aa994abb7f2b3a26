import CilkArtifact.Pedigree.Order

/-! Pedigree scopes (`pedigree_scope.h`): the test for the current pedigree against the two other readings of a
scope, the list test `in_scope_of` and the walk of a scoped read. -/
namespace CilkArtifact.Pedigree
open Buffer DotMix CommonPrefix OptPedigree

/-- `opt_pedigree_scope<S>`. -/
structure OptPedigreeScope (S : ℕ) where
  ped : OptPedigree S
  stopNode : PedNode

variable {S : ℕ}

namespace OptPedigreeScope

/-- The default constructor, for the scope of the whole program. -/
def empty : OptPedigreeScope S := ⟨OptPedigree.empty, ⟨0, none⟩⟩

/-- `operator=` from another object. -/
def assign (c rhs : OptPedigreeScope S) : Option (OptPedigreeScope S) := do
  let ped ← c.ped.assign (some rhs.ped)
  some ⟨ped, rhs.stopNode⟩

def current (w : Worker) : Option (OptPedigreeScope S) := do
  let c : OptPedigreeScope S := { empty with stopNode := w.leaf }
  let now ← OptPedigree.current w
  let ped ← c.ped.assign (some now)
  some { c with ped := ped }

def currentIsInScope (w : Worker) (other : OptPedigreeScope S) : Option Bool := do
  let now ← current w
  let c ← empty.assign now
  c.ped.isPrefixOf other.ped

end OptPedigreeScope

open OptPedigreeScope

/-- A scope with the terms of its pedigree, root first. -/
structure StoredScope (S : ℕ) extends OptPedigreeScope S where
  terms : List Word
  represents : Represents ped terms.reverse

def StoredScope.stored (s : StoredScope S) : Stored S := ⟨s.ped, s.terms, s.represents⟩

/-- The terms of the pedigree of a chain, root first. -/
def chainTerms (ns : List PedNode) : List Word := (ns.map PedNode.rank).reverse

variable {w : Worker} {ns : List PedNode}

/-- The walk without a scope ends behind the root, which is the last node. -/
theorem walked_root {node : PedNode} (chain : NodeChain w.nodes node ns) (rank : Word) :
    walked ⟨rank, none⟩ ns + 1 = ns.length := by
  induction chain with
  | root top => simp [walked_cons, top]
  | up parent _ _ ih => simp [walked_cons, parent, ih]

theorem current_chain (chain : NodeChain w.nodes w.leaf ns) :
    ∃ now : Stored S, OptPedigree.current w = some now.object ∧ now.terms = chainTerms ns := by
  have path : Until w none (some .leaf) ns none := by
    have path := until_leaf chain ⟨0, none⟩
    rw [walked_root chain, List.take_length] at path
    simpa [ofParent] using path
  obtain ⟨o, run, represents⟩ := getCurrentPedigree_spec OptPedigree.empty empty_represents.own path
  have terms : Represents o (chainTerms ns).reverse := by
    rw [chainTerms, List.reverse_reverse]
    exact represents
  exact ⟨⟨o, chainTerms ns, terms⟩, run, rfl⟩

theorem OptPedigreeScope.current_chain (chain : NodeChain w.nodes w.leaf ns) :
    ∃ s : StoredScope S, OptPedigreeScope.current w = some s.toOptPedigreeScope ∧ s.stopNode = w.leaf ∧
      s.terms = chainTerms ns := by
  obtain ⟨now, run, terms⟩ := Pedigree.current_chain (S := S) chain
  obtain ⟨ped, assigned, represents⟩ := assign_spec empty_represents now.represents
  refine ⟨⟨⟨ped, w.leaf⟩, now.terms, represents⟩, ?_, rfl, terms⟩
  simp only [OptPedigreeScope.current, OptPedigreeScope.empty, run, assigned, Option.bind_eq_bind, Option.bind_some]

namespace Stored

theorem isPrefixOf_eq (a b : Stored S) : isPrefixOf a.object b.object = some (decide (a.terms <+: b.terms)) := by
  obtain ⟨pre, r, s, left, right, prefixLength, diverge⟩ := common_split a.terms b.terms
  rw [isPrefixOf, commonPrefixLength_eq, prefixLength, a.length, left, right, Option.bind_eq_bind, Option.bind_some]
  apply congrArg some
  rw [decide_eq_decide, List.prefix_append_right_inj, List.length_append]
  cases diverge with
  | same => simp
  | shorter y m => simp
  | longer x l => simp
  | different l m different => simp [different]

end Stored

theorem currentIsInScope_eq (chain : NodeChain w.nodes w.leaf ns) (s : StoredScope S) :
    currentIsInScope w s.toOptPedigreeScope = some (decide (chainTerms ns <+: s.terms)) := by
  obtain ⟨now, run, _, terms⟩ := OptPedigreeScope.current_chain (S := S) chain
  obtain ⟨ped, assigned, represents⟩ := assign_spec empty_represents now.represents
  have test := Stored.isPrefixOf_eq ⟨ped, now.terms, represents⟩ s.stored
  simp only [currentIsInScope, OptPedigreeScope.assign, OptPedigreeScope.empty, run, assigned, Option.bind_eq_bind,
    Option.bind_some]
  rw [← terms]
  exact test

/-! ### The walk of a scoped read -/

/-- The scope is the whole program's, or it was entered at its stop node and the nodes above that are as they
were then. -/
def Entered (w : Worker) (s : StoredScope S) : Prop :=
  (s.stopNode = ⟨0, none⟩ ∧ s.terms = []) ∨ ∃ ms, NodeChain w.nodes s.stopNode ms ∧ s.terms = chainTerms ms

theorem chain_drop {node : PedNode} (chain : NodeChain w.nodes node ns) : ∀ {i : ℕ} (inside : i < ns.length),
    NodeChain w.nodes ns[i] (ns.drop i) := by
  induction chain with
  | root top =>
    intro i inside
    obtain rfl : i = 0 := by simpa using inside
    exact .root top
  | up parent loaded rest ih =>
    intro i inside
    cases i with
    | zero => exact .up parent loaded rest
    | succ i => exact ih (Nat.lt_of_succ_lt_succ inside)

theorem chain_head {node : PedNode} (chain : NodeChain w.nodes node ns) : ∃ rest, ns = node :: rest := by
  cases chain with
  | root top => exact ⟨[], rfl⟩
  | up parent loaded rest => exact ⟨_, rfl⟩

/-- Two nodes with one parent have the same nodes above them. -/
theorem chain_siblings {node : PedNode} (chain : NodeChain w.nodes node ns) :
    ∀ {other : PedNode} {ms : List PedNode}, NodeChain w.nodes other ms → other.parent = node.parent →
      ms.tail = ns.tail := by
  induction chain with
  | root top =>
    intro other ms chain same
    cases chain with
    | root _ => rfl
    | up parent _ _ =>
      rw [same, top] at parent
      cases parent
  | @up node a above rest parent loaded _ ih =>
    intro other ms chain same
    cases chain with
    | root top =>
      rw [same, parent] at top
      cases top
    | @up _ a' above' rest' parent' loaded' chain' =>
      obtain rfl : a' = a := Option.some.inj (by rw [← parent', same, parent])
      obtain rfl : above' = above := Option.some.inj (by rw [← loaded', loaded])
      have tails := ih chain' rfl
      obtain ⟨up', rfl⟩ := chain_head chain'
      obtain ⟨up, rfl⟩ := chain_head ‹NodeChain w.nodes above' rest›
      exact congrArg (above' :: ·) tails

theorem scopeOf_last (pre y : List Word) (last term : Word) :
    Stored.ScopeOf (pre ++ term :: y) (pre ++ [last]) ↔ last ≤ term := by
  by_cases same : term = last
  · subst same
    refine iff_of_true ?_ (BitVec.le_refl term)
    have extended := Stored.scopeOf_prefix (pre ++ [term]) y
    rwa [List.append_assoc, List.singleton_append] at extended
  · have unequal : last.toNat ≠ term.toNat := fun equal => same (BitVec.eq_of_toNat_eq equal.symm)
    rw [Stored.scopeOf_different same, BitVec.lt_def, BitVec.le_def]
    simp only [true_and]
    omega

/-- A scope that was entered above the current leaf is decided by the node next to its stop node. -/
theorem scopeOf_entered (chain : NodeChain w.nodes w.leaf ns) {s : StoredScope S} (entered : Entered w s)
    (met : walked s.stopNode ns < ns.length) :
    Stored.ScopeOf (chainTerms ns) s.terms ↔ s.stopNode.rank ≤ ns[walked s.stopNode ns].rank := by
  rcases entered with ⟨whole, none⟩ | ⟨ms, above, terms⟩
  · have rank : s.stopNode.rank = 0 := congrArg PedNode.rank whole
    rw [none, rank]
    exact iff_of_true (.inl rfl) (BitVec.le_def.mpr (Nat.zero_le _))
  · have rest := chain_drop chain met
    have tails := chain_siblings rest above (walked_parent met)
    obtain ⟨up, rfl⟩ := chain_head above
    have split : ns = ns.take (walked s.stopNode ns) ++ ns[walked s.stopNode ns] :: up := by
      obtain ⟨up', dropped⟩ := chain_head rest
      rw [dropped, List.tail_cons, List.tail_cons] at tails
      rw [tails, ← dropped, List.take_append_drop]
    have whole : chainTerms ns = chainTerms up ++ ns[walked s.stopNode ns].rank ::
        chainTerms (ns.take (walked s.stopNode ns)) := by
      conv_lhs => rw [split]
      simp [chainTerms]
    have entry : chainTerms (s.stopNode :: up) = chainTerms up ++ [s.stopNode.rank] := by simp [chainTerms]
    rw [terms, whole, entry, scopeOf_last]

/-- A scoped read is empty exactly if that node has a smaller rank than the stop node. -/
theorem currentScoped_nonempty (chain : NodeChain w.nodes w.leaf ns) (stopNode : PedNode)
    (met : walked stopNode ns < ns.length) :
    ∃ read : OptPedigree S, currentScoped w stopNode = some read ∧
      (read.length ≠ 0 ↔ stopNode.rank ≤ ns[walked stopNode ns].rank) := by
  by_cases inScope : stopNode.rank ≤ ns[walked stopNode ns].rank
  · obtain ⟨read, run, represents⟩ := currentScoped_inScope (S := S) chain met inScope
    refine ⟨read, run, iff_of_true ?_ inScope⟩
    rw [represents.length, scopedTerms, List.length_modify, scopedRanks_length met]
    exact Nat.succ_ne_zero _
  · have smaller := BitVec.not_le.mp inScope
    by_cases short : walked stopNode ns + 1 ≤ S
    · obtain ⟨read, run, represents⟩ := currentScoped_short chain met smaller short
      exact ⟨read, run, iff_of_false (not_not_intro represents.length) inScope⟩
    · obtain ⟨read, run, length, _⟩ := currentScoped_long chain met smaller (Nat.not_le.mp short)
      exact ⟨read, run, iff_of_false (not_not_intro length) inScope⟩

/-! ### The test against both readings -/

/-- `current_is_in_scope` answers as `in_scope_of` does and, for a scope whose stop parent is on the chain, as the
scoped read does. -/
structure DecidesScope (w : Worker) (ns : List PedNode) (s : StoredScope S) : Prop where
  list : ∃ (now : OptPedigree S) (result : Bool), OptPedigree.current w = some now ∧
    inScopeOf now s.ped = some result ∧ currentIsInScope w s.toOptPedigreeScope = some result
  walk : Entered w s → walked s.stopNode ns < ns.length → ∃ read : OptPedigree S,
    currentScoped w s.stopNode = some read ∧ currentIsInScope w s.toOptPedigreeScope = some (decide (read.length ≠ 0))

/-- The lists are the same, or their first different terms are inside of both and `m` goes on behind its own or
has the larger one. -/
def SameOrApart (l m : List Word) : Prop :=
  l = m ∨ ∃ pre x y l' m', l = pre ++ x :: l' ∧ m = pre ++ y :: m' ∧ x ≠ y ∧ (m' = [] → x < y)

theorem sameOrApart_iff (l m : List Word) : SameOrApart l m ↔ (l <+: m ↔ Stored.ScopeOf l m) := by
  constructor
  · rintro (rfl | ⟨pre, x, y, l', m', rfl, rfl, different, last⟩)
    · apply iff_of_true List.prefix_rfl
      simpa using Stored.scopeOf_prefix l []
    · rw [List.prefix_append_right_inj, Stored.scopeOf_different different]
      apply iff_of_false (by simp [different])
      rintro ⟨none, larger⟩
      exact BitVec.lt_asymm larger (last none)
  · intro agree
    obtain ⟨pre, r, s, rfl, rfl, _, diverge⟩ := common_split l m
    cases diverge with
    | same => exact .inl rfl
    | shorter y m =>
      have scope := agree.mp (by simp)
      exact absurd scope (Stored.not_scopeOf_shorter (by simp))
    | longer x l =>
      have scope := Stored.scopeOf_prefix pre (x :: l)
      rw [List.append_nil] at agree
      have shorter := (agree.mpr scope).length_le
      simp at shorter
    | @different x y l m different =>
      refine .inr ⟨pre, x, y, l, m, rfl, rfl, different, fun none => ?_⟩
      rw [List.prefix_append_right_inj, Stored.scopeOf_different different] at agree
      by_contra notLess
      have smaller : y < x := BitVec.lt_of_le_ne (BitVec.not_lt.mp notLess) (Ne.symm different)
      have extended := agree.mpr ⟨none, smaller⟩
      simp [different] at extended

theorem decidesScope_of_sameOrApart (chain : NodeChain w.nodes w.leaf ns) (s : StoredScope S)
    (agree : SameOrApart (chainTerms ns) s.terms) : DecidesScope w ns s where
  list := by
    obtain ⟨now, run, terms⟩ := current_chain (S := S) chain
    obtain ⟨result, test, decides⟩ := Stored.inScopeOf_eq now s.stored
    refine ⟨now.object, result, run, test, ?_⟩
    rw [terms] at decides
    have equivalent := (sameOrApart_iff _ _).mp agree
    rw [currentIsInScope_eq chain s, Option.some.injEq, Bool.eq_iff_iff, decide_eq_true_eq, equivalent]
    exact decides.symm
  walk := by
    intro entered met
    obtain ⟨read, run, nonempty⟩ := currentScoped_nonempty (S := S) chain s.stopNode met
    refine ⟨read, run, ?_⟩
    have equivalent := (sameOrApart_iff _ _).mp agree
    rw [currentIsInScope_eq chain s, Option.some.injEq, decide_eq_decide, equivalent, scopeOf_entered chain entered met,
      nonempty]

theorem DecidesScope.sameOrApart (chain : NodeChain w.nodes w.leaf ns) {s : StoredScope S}
    (decides : DecidesScope w ns s) : SameOrApart (chainTerms ns) s.terms := by
  obtain ⟨now, result, run, test, answer⟩ := decides.list
  obtain ⟨now', run', terms⟩ := current_chain (S := S) chain
  obtain rfl : now = now'.object := Option.some.inj (run.symm.trans run')
  obtain ⟨result', test', scope⟩ := Stored.inScopeOf_eq now' s.stored
  obtain rfl : result = result' := Option.some.inj (test.symm.trans test')
  rw [currentIsInScope_eq chain s, Option.some.injEq] at answer
  rw [terms, ← answer, decide_eq_true_eq] at scope
  exact (sameOrApart_iff _ _).mpr scope

/-- The test asks whether the current pedigree is a prefix of the scope's, the wrong way around. It is right only
for equal pedigrees and for those where neither is in the scope of the other. -/
theorem currentIsInScope_decides_iff (chain : NodeChain w.nodes w.leaf ns) (s : StoredScope S) :
    DecidesScope w ns s ↔ SameOrApart (chainTerms ns) s.terms :=
  ⟨DecidesScope.sameOrApart chain, decidesScope_of_sameOrApart chain s⟩

/-- At the leaf where a scope is entered, the test holds. -/
theorem currentIsInScope_decides_entry : ∃ s : StoredScope 4,
    OptPedigreeScope.current twoNodes = some s.toOptPedigreeScope ∧
      DecidesScope twoNodes [⟨0, some 0⟩, ⟨0, none⟩] s := by
  obtain ⟨s, run, _, terms⟩ := OptPedigreeScope.current_chain (S := 4) twoNodes_chain
  exact ⟨s, run, (currentIsInScope_decides_iff twoNodes_chain s).mpr (.inl terms.symm)⟩

/-- A scope that is entered at the root, followed by a test in a spawned child. -/
theorem currentIsInScope_child : ∃ s : StoredScope 4,
    OptPedigreeScope.current ⟨fun _ => none, ⟨0, none⟩⟩ = some s.toOptPedigreeScope ∧ Entered twoNodes s ∧
      ¬ DecidesScope twoNodes [⟨0, some 0⟩, ⟨0, none⟩] s := by
  have root : NodeChain (fun _ => none) ⟨0, none⟩ [⟨0, none⟩] := .root rfl
  obtain ⟨s, run, stopNode, terms⟩ := OptPedigreeScope.current_chain (S := 4) (w := ⟨fun _ => none, ⟨0, none⟩⟩) root
  refine ⟨s, run, .inr ⟨[⟨0, none⟩], by rw [stopNode]; exact .root rfl, terms⟩, fun decides => ?_⟩
  have agree := (sameOrApart_iff _ _).mp (decides.sameOrApart twoNodes_chain)
  rw [terms] at agree
  have shorter := (agree.mpr (Stored.scopeOf_prefix [0] [0])).length_le
  exact absurd shorter (by decide)

end CilkArtifact.Pedigree
