import CilkArtifact.Library.CommonPrefix
import CilkArtifact.Pedigree.Lifetime

/-! Comparisons and the scope test of pedigree objects (`opt_pedigree.h`), and the lexicographic order on the
terms with the root first. -/
namespace CilkArtifact.Pedigree
open Buffer DotMix CommonPrefix

namespace OptPedigree
variable {S : ℕ}

/-- `operator[]` -/
def term (o : OptPedigree S) (k : ℕ) : Option Word := do
  let rbuf ← o.getRevPedArray
  rbuf.read (o.length - 1 - k)

/-- The loop of `common_prefix_length`, where `remaining` is `min_length - current_length`. -/
def commonPrefixFrom (a b : OptPedigree S) : (remaining currentLength : ℕ) → Option ℕ
  | 0, currentLength => some currentLength
  | remaining + 1, currentLength => do
    let aTerm ← a.term currentLength
    let bTerm ← b.term currentLength
    if aTerm = bTerm then commonPrefixFrom a b remaining (currentLength + 1) else some currentLength

def commonPrefixLength (a b : OptPedigree S) : Option ℕ := commonPrefixFrom a b (min a.length b.length) 0

def compare (a b : OptPedigree S) : Option ℤ := do
  let currentLength ← commonPrefixLength a b
  if a.length ≤ currentLength then
    if currentLength = a.length then
      if b.length ≤ currentLength then
        if currentLength = b.length then some 0 else none
      else some (-1)
    else none
  else if b.length ≤ currentLength then some 1
  else do
    let aTerm ← a.term currentLength
    let bTerm ← b.term currentLength
    if aTerm < bTerm then some (-1) else if aTerm = bTerm then some 0 else some 1

/-- What the comparison operators have in common. -/
def compareWith (test : ℤ → Bool) (a b : OptPedigree S) : Option Bool := do
  let order ← compare a b
  some (test order)

/-- `operator<` -/
def lt (a b : OptPedigree S) : Option Bool := compareWith (fun order => decide (order < 0)) a b

/-- `operator<=` -/
def le (a b : OptPedigree S) : Option Bool := compareWith (fun order => decide (order ≤ 0)) a b

/-- `operator>` -/
def gt (a b : OptPedigree S) : Option Bool := compareWith (fun order => decide (order > 0)) a b

/-- `operator>=` -/
def ge (a b : OptPedigree S) : Option Bool := compareWith (fun order => decide (order ≥ 0)) a b

/-- The loop of `operator==`, where `remaining` is `L - q`. -/
def equalFrom (aBuf bBuf : Buffer ℕ Word) : (remaining q : ℕ) → Option Bool
  | 0, _ => some true
  | remaining + 1, q => do
    let aTerm ← aBuf.read q
    let bTerm ← bBuf.read q
    if aTerm ≠ bTerm then some false else equalFrom aBuf bBuf remaining (q + 1)

/-- `operator==` -/
def equal (a b : OptPedigree S) : Option Bool :=
  if a.length ≠ b.length then some false
  else do
    let aBuf ← a.getRevPedArray
    let bBuf ← b.getRevPedArray
    equalFrom aBuf bBuf a.length 0

def isPrefixOf (a ped : OptPedigree S) : Option Bool := do
  let currentLength ← commonPrefixLength a ped
  some (decide (a.length ≤ currentLength))

def inScopeOf (a ped : OptPedigree S) : Option Bool := do
  let commonLength ← commonPrefixLength a ped
  if ped.length ≤ commonLength then some true
  else if a.length ≤ commonLength then some false
  else if commonLength = ped.length - 1 then do
    let pedTerm ← ped.term commonLength
    let term ← a.term commonLength
    some (decide (pedTerm < term))
  else some false

end OptPedigree

open OptPedigree

/-- A pedigree object with the terms that it stores, root first. -/
structure Stored (S : ℕ) where
  object : OptPedigree S
  terms : List Word
  represents : Represents object terms.reverse

variable {S : ℕ}

/-- Every list of terms has an object. -/
theorem exists_stored (terms : List Word) : ∃ a : Stored S, a.terms = terms := by
  obtain ⟨o, _, represents⟩ := ofBuffer_spec (S := S) terms false
  exact ⟨⟨o, terms, represents⟩, rfl⟩

namespace Stored
variable (a b : Stored S)

theorem length : a.object.length = a.terms.length := by rw [a.represents.length, List.length_reverse]

theorem term {k : ℕ} (inside : k < a.terms.length) : a.object.term k = a.terms[k]? := by
  have value := a.represents.read_root (i := k) (by rwa [List.length_reverse])
  rw [List.reverse_reverse] at value
  rw [OptPedigree.term, a.represents.getRevPedArray, Option.bind_eq_bind, Option.bind_some, value]

/-- From any common prefix, the loop goes on to the longest one. -/
theorem commonPrefixFrom_spec (remaining : ℕ) : ∀ currentLength,
    currentLength + remaining = min a.terms.length b.terms.length →
    commonPrefixFrom a.object b.object remaining currentLength =
      some (currentLength + common (a.terms.drop currentLength) (b.terms.drop currentLength)) := by
  induction remaining with
  | zero =>
    intro c bound
    have ended : a.terms.drop c = [] ∨ b.terms.drop c = [] := by
      rw [List.drop_eq_nil_iff, List.drop_eq_nil_iff]
      omega
    rcases ended with ended | ended
    · rw [commonPrefixFrom, ended, common_nil_left, Nat.add_zero]
    · rw [commonPrefixFrom, ended, common_nil_right, Nat.add_zero]
  | succ remaining ih =>
    intro c bound
    have insideA : c < a.terms.length := by omega
    have insideB : c < b.terms.length := by omega
    rw [commonPrefixFrom, a.term insideA, b.term insideB, List.getElem?_eq_getElem insideA,
      List.getElem?_eq_getElem insideB, List.drop_eq_getElem_cons insideA, List.drop_eq_getElem_cons insideB]
    simp only [Option.bind_eq_bind, Option.bind_some]
    by_cases same : a.terms[c] = b.terms[c]
    · rw [if_pos same, same, common_cons_self, ih (c + 1) (by omega), Nat.add_assoc, Nat.add_comm 1]
    · rw [if_neg same, common_cons_of_ne same, Nat.add_zero]

theorem commonPrefixLength_eq : commonPrefixLength a.object b.object = some (common a.terms b.terms) := by
  have run := commonPrefixFrom_spec a b (min a.terms.length b.terms.length) 0 (Nat.zero_add _)
  rw [List.drop_zero, List.drop_zero, Nat.zero_add] at run
  rw [commonPrefixLength, a.length, b.length, run]

theorem equalFrom_spec (remaining : ℕ) : ∀ q, q + remaining = a.terms.length → a.terms.length = b.terms.length →
    equalFrom a.object.fullArray b.object.fullArray remaining q =
      some (decide (a.terms.reverse.drop q = b.terms.reverse.drop q)) := by
  induction remaining with
  | zero =>
    intro q bound same
    have endA : a.terms.reverse.drop q = [] := List.drop_eq_nil_iff.mpr (by rw [List.length_reverse]; omega)
    have endB : b.terms.reverse.drop q = [] := List.drop_eq_nil_iff.mpr (by rw [List.length_reverse]; omega)
    rw [equalFrom, endA, endB, decide_eq_true rfl]
  | succ remaining ih =>
    intro q bound same
    have insideA : q < a.terms.reverse.length := by rw [List.length_reverse]; omega
    have insideB : q < b.terms.reverse.length := by rw [List.length_reverse]; omega
    have readA := a.represents.readFull insideA
    have readB := b.represents.readFull insideB
    rw [readFull] at readA readB
    rw [equalFrom, readA, readB, List.drop_eq_getElem_cons insideA, List.drop_eq_getElem_cons insideB]
    simp only [Option.bind_eq_bind, Option.bind_some, List.cons.injEq]
    by_cases equal : a.terms.reverse[q] = b.terms.reverse[q]
    · rw [if_neg (not_not_intro equal), ih (q + 1) (by omega) same]
      simp only [equal, true_and]
    · rw [if_pos equal, decide_eq_false (fun both => equal both.1)]

theorem equal_eq : equal a.object b.object = some (decide (a.terms = b.terms)) := by
  rw [equal, a.length, b.length]
  by_cases same : a.terms.length = b.terms.length
  · rw [if_neg (not_not_intro same), a.represents.getRevPedArray, b.represents.getRevPedArray]
    simp only [Option.bind_eq_bind, Option.bind_some]
    rw [equalFrom_spec a b _ 0 (Nat.zero_add _) same]
    simp
  · rw [if_pos same, decide_eq_false (fun equal => same (congrArg List.length equal))]

/-- The lexicographic order as `compare` reports it. -/
def order (l m : List Word) : ℤ := if l < m then -1 else if l = m then 0 else 1

theorem order_append (pre r s : List Word) : order (pre ++ r) (pre ++ s) = order r s := by
  simp only [order, append_lt_append_iff, List.append_cancel_left_eq]

theorem compare_eq : a.object.compare b.object = some (order a.terms b.terms) := by
  obtain ⟨pre, r, s, left, right, prefixLength, diverge⟩ := common_split a.terms b.terms
  have termA {x : Word} {l : List Word} (next : r = x :: l) : a.object.term pre.length = some x := by
    rw [a.term (by simp [left, next]), left, next]
    simp
  have termB {x : Word} {l : List Word} (next : s = x :: l) : b.object.term pre.length = some x := by
    rw [b.term (by simp [right, next]), right, next]
    simp
  have lengthA : a.object.length = pre.length + r.length := by rw [a.length, left, List.length_append]
  have lengthB : b.object.length = pre.length + s.length := by rw [b.length, right, List.length_append]
  rw [left, right, order_append, OptPedigree.compare, commonPrefixLength_eq, prefixLength, lengthA, lengthB,
    Option.bind_eq_bind,
    Option.bind_some]
  cases diverge with
  | same => simp [order]
  | shorter y m => simp [order]
  | longer x l => simp [order]
  | @different x y l m different =>
    have moreA : ¬ pre.length + (x :: l).length ≤ pre.length := by simp
    have moreB : ¬ pre.length + (y :: m).length ≤ pre.length := by simp
    rw [if_neg moreA, if_neg moreB, termA rfl, termB rfl]
    simp only [Option.bind_eq_bind, Option.bind_some, order, List.cons_lt_cons_iff, List.cons.injEq, different,
      false_and, or_false, if_false]
    split <;> rfl

theorem order_cases (l m : List Word) :
    (l < m ∧ order l m = -1) ∨ (l = m ∧ order l m = 0) ∨ (m < l ∧ order l m = 1) := by
  by_cases less : l < m
  · exact .inl ⟨less, if_pos less⟩
  · rcases List.le_iff_lt_or_eq.mp (List.not_lt.mp less) with greater | same
    · have different : l ≠ m := by
        rintro rfl
        exact less greater
      exact .inr (.inr ⟨greater, by rw [order, if_neg less, if_neg different]⟩)
    · exact .inr (.inl ⟨same.symm, by rw [order, if_neg less, if_pos same.symm]⟩)

theorem order_neg_iff (l m : List Word) : order l m < 0 ↔ l < m := by
  rcases order_cases l m with ⟨less, value⟩ | ⟨rfl, value⟩ | ⟨greater, value⟩
  · simp [value, less]
  · simp [value, List.lt_irrefl]
  · simp [value, List.lt_asymm greater]

theorem order_comm (l m : List Word) : order m l = -order l m := by
  rcases order_cases l m with ⟨less, value⟩ | ⟨rfl, value⟩ | ⟨greater, value⟩
  · have different : m ≠ l := by
      rintro rfl
      exact List.lt_irrefl m less
    rw [value, order, if_neg (List.lt_asymm less), if_neg different]
    rfl
  · rw [value]
    rfl
  · rw [value, order, if_pos greater]

theorem order_nonpos_iff (l m : List Word) : order l m ≤ 0 ↔ l ≤ m := by
  rw [← List.not_lt, ← order_neg_iff m l, order_comm l m]
  omega

theorem order_eq_zero_iff (l m : List Word) : order l m = 0 ↔ l = m := by
  rcases order_cases l m with ⟨less, value⟩ | ⟨rfl, value⟩ | ⟨greater, value⟩
  · rw [value]
    apply iff_of_false (by decide)
    rintro rfl
    exact List.lt_irrefl l less
  · exact iff_of_true value rfl
  · rw [value]
    apply iff_of_false (by decide)
    rintro rfl
    exact List.lt_irrefl l greater

theorem compareWith_eq (test : ℤ → Bool) :
    compareWith test a.object b.object = some (test (order a.terms b.terms)) := by
  rw [compareWith, compare_eq, Option.bind_eq_bind, Option.bind_some]

/-! ### Scopes -/

/-- `m` is empty, or `l` is `m` with `k` added to its last term and more terms behind that. -/
def ScopeOf (l m : List Word) : Prop :=
  m = [] ∨ ∃ pre last term y, ∃ k : ℕ, m = pre ++ [last] ∧ l = pre ++ [term] ++ y ∧ term.toNat = last.toNat + k

theorem scopeOf_prefix (pre r : List Word) : ScopeOf (pre ++ r) pre := by
  rcases List.eq_nil_or_concat pre with rfl | ⟨init, last, rfl⟩
  · exact .inl rfl
  · exact .inr ⟨init, last, last, r, 0, by simp, by simp, rfl⟩

theorem not_scopeOf_shorter {l m : List Word} (shorter : l.length < m.length) : ¬ ScopeOf l m := by
  rintro (rfl | ⟨pre, last, term, y, k, rfl, rfl, _⟩)
  · exact Nat.not_lt_zero _ shorter
  · simp only [List.length_append, List.length_singleton] at shorter
    omega

theorem scopeOf_different {x y : Word} (different : x ≠ y) (pre l m : List Word) :
    ScopeOf (pre ++ x :: l) (pre ++ y :: m) ↔ m = [] ∧ y < x := by
  constructor
  · rintro (impossible | ⟨pre', last, term, y', k, right, left, sum⟩)
    · simp at impossible
    · -- Both lists start with `pre'`, so it is not longer than `pre`.
      have atMost : pre'.length ≤ pre.length := by
        by_contra longer
        have inPrefix : pre.length < pre'.length := Nat.not_le.mp longer
        have termB := congrArg (fun list => list[pre.length]?) right
        have termA := congrArg (fun list => list[pre.length]?) left
        simp only [List.append_assoc, List.getElem?_append_left inPrefix] at termA termB
        rw [← termB] at termA
        simp at termA
        exact different termA
      have lengths := congrArg List.length right
      simp only [List.length_append, List.length_cons, List.length_nil] at lengths
      have none : m = [] := List.length_eq_zero_iff.mp (by omega)
      subst none
      obtain ⟨rfl, same⟩ := List.append_inj' right rfl
      cases same
      simp only [List.append_assoc, List.append_cancel_left_eq, List.singleton_append, List.cons.injEq] at left
      rw [left.1] at different ⊢
      refine ⟨rfl, BitVec.lt_def.mpr ?_⟩
      have unequal : term.toNat ≠ y.toNat := fun same => different (BitVec.eq_of_toNat_eq same)
      omega
  · rintro ⟨rfl, smaller⟩
    refine .inr ⟨pre, y, x, l, x.toNat - y.toNat, rfl, by simp, ?_⟩
    have := BitVec.lt_def.mp smaller
    omega

theorem inScopeOf_eq : ∃ result, inScopeOf a.object b.object = some result ∧ (result = true ↔ ScopeOf a.terms b.terms) := by
  obtain ⟨pre, r, s, left, right, prefixLength, diverge⟩ := common_split a.terms b.terms
  have lengthA : a.object.length = pre.length + r.length := by rw [a.length, left, List.length_append]
  have lengthB : b.object.length = pre.length + s.length := by rw [b.length, right, List.length_append]
  rw [inScopeOf, commonPrefixLength_eq, prefixLength, lengthA, lengthB, Option.bind_eq_bind, Option.bind_some]
  cases diverge with
  | same =>
    refine ⟨true, by simp, iff_of_true rfl ?_⟩
    rw [left, right, List.append_nil]
    simpa using scopeOf_prefix pre []
  | longer x l =>
    refine ⟨true, by simp, iff_of_true rfl ?_⟩
    rw [left, right, List.append_nil]
    exact scopeOf_prefix pre (x :: l)
  | shorter y m =>
    refine ⟨false, by simp, iff_of_false Bool.false_ne_true ?_⟩
    rw [left, right]
    exact not_scopeOf_shorter (by simp)
  | @different x y l m different =>
    have moreA : ¬ pre.length + (x :: l).length ≤ pre.length := by simp
    have moreB : ¬ pre.length + (y :: m).length ≤ pre.length := by simp
    have termA : a.object.term pre.length = some x := by
      rw [a.term (by simp [left]), left]
      simp
    have termB : b.object.term pre.length = some y := by
      rw [b.term (by simp [right]), right]
      simp
    have last : pre.length = pre.length + (y :: m).length - 1 ↔ m = [] := by
      rw [← List.length_eq_zero_iff, List.length_cons]
      omega
    rw [left, right, scopeOf_different different, if_neg moreB, if_neg moreA]
    by_cases none : m = []
    · rw [if_pos (last.mpr none), termA, termB]
      exact ⟨decide (y < x), rfl, by simp [none]⟩
    · rw [if_neg (fun same => none (last.mp same))]
      exact ⟨false, rfl, by simp [none]⟩

/-- `compare` is the lexicographic order on the terms with the root first, where a proper prefix is smaller.
It is antisymmetric and transitive, is zero exactly for objects that `operator==` relates, and decides the
comparison operators; `in_scope_of` decides the scopes of the documentation. -/
theorem compare_lexicographic (a b c : Stored S) :
    (∃ r, a.object.compare b.object = some r ∧ b.object.compare a.object = some (-r) ∧ (r = -1 ∨ r = 0 ∨ r = 1) ∧
      (r < 0 ↔ a.terms < b.terms) ∧ (0 < r ↔ b.terms < a.terms) ∧
      (r = 0 ↔ equal a.object b.object = some true) ∧ (r = 0 ↔ a.terms = b.terms) ∧
      lt a.object b.object = some (decide (r < 0)) ∧ le a.object b.object = some (decide (r ≤ 0)) ∧
      gt a.object b.object = some (decide (r > 0)) ∧ ge a.object b.object = some (decide (r ≥ 0))) ∧
    (∀ r s, a.object.compare b.object = some r → b.object.compare c.object = some s → r ≤ 0 → s ≤ 0 →
      ∃ t, a.object.compare c.object = some t ∧ t ≤ 0 ∧ (r < 0 ∨ s < 0 → t < 0)) ∧
    ∃ result, inScopeOf a.object b.object = some result ∧ (result = true ↔ ScopeOf a.terms b.terms) := by
  refine ⟨⟨order a.terms b.terms, compare_eq a b, ?_, ?_, order_neg_iff _ _, ?_, ?_, order_eq_zero_iff _ _,
    compareWith_eq a b _, compareWith_eq a b _, compareWith_eq a b _, compareWith_eq a b _⟩, ?_, inScopeOf_eq a b⟩
  · rw [compare_eq, order_comm]
  · rcases order_cases a.terms b.terms with ⟨_, value⟩ | ⟨_, value⟩ | ⟨_, value⟩ <;> simp [value]
  · rw [← order_neg_iff b.terms a.terms, order_comm]
    omega
  · rw [equal_eq, order_eq_zero_iff, Option.some.injEq, decide_eq_true_eq]
  · intro r s first second atMost atMost'
    rw [compare_eq, Option.some.injEq] at first second
    subst first second
    rw [order_nonpos_iff] at atMost atMost'
    refine ⟨order a.terms c.terms, compare_eq a c, (order_nonpos_iff _ _).mpr (List.le_trans atMost atMost'), ?_⟩
    rw [order_neg_iff, order_neg_iff, order_neg_iff]
    rintro (less | less)
    · by_contra notLess
      exact List.le_trans atMost' (List.not_lt.mp notLess) less
    · exact List.lt_of_le_of_lt atMost less

/-- With room for two terms: a prefix, a pedigree on the heap and one that differs in the second term. -/
theorem compare_lexicographic_prefix : ∃ a b c : Stored 2,
    (a.terms = [1, 2] ∧ a.object.isStatic = true) ∧ (b.terms = [1, 2, 3] ∧ b.object.isStatic = false) ∧
    (c.terms = [1, 4] ∧ c.object.isStatic = true) ∧
    (∃ r, a.object.compare b.object = some r ∧ r < 0) ∧ (∃ r, b.object.compare c.object = some r ∧ r < 0) ∧
    (∃ r, a.object.compare c.object = some r ∧ r < 0) ∧ inScopeOf c.object a.object = some true := by
  obtain ⟨a, termsA⟩ := @exists_stored 2 [1, 2]
  obtain ⟨b, termsB⟩ := @exists_stored 2 [1, 2, 3]
  obtain ⟨c, termsC⟩ := @exists_stored 2 [1, 4]
  obtain ⟨⟨r, first, -, -, negative, -⟩, transitive, -⟩ := compare_lexicographic a b c
  obtain ⟨⟨r', second, -, -, negative', -⟩, -, -⟩ := compare_lexicographic b c a
  obtain ⟨-, -, result, inScope, meaning⟩ := compare_lexicographic c a b
  have less : r < 0 := negative.mpr (by rw [termsA, termsB]; decide)
  have less' : r' < 0 := negative'.mpr (by rw [termsB, termsC]; decide)
  obtain ⟨t, third, -, strict⟩ := transitive r r' first second less.le less'.le
  have inside : ScopeOf c.terms a.terms := by
    rw [termsA, termsC]
    exact .inr ⟨[1], 2, 4, [], 2, rfl, rfl, rfl⟩
  refine ⟨a, b, c, ⟨termsA, ?_⟩, ⟨termsB, ?_⟩, ⟨termsC, ?_⟩, ⟨r, first, less⟩, ⟨r', second, less'⟩,
    ⟨t, third, strict (.inl less)⟩, ?_⟩
  · exact a.represents.static.trans (by rw [termsA]; decide)
  · exact b.represents.static.trans (by rw [termsB]; decide)
  · exact c.represents.static.trans (by rw [termsC]; decide)
  · rw [inScope, meaning.mpr inside]

end Stored

end CilkArtifact.Pedigree
