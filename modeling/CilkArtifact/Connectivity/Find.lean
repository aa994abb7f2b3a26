import CilkArtifact.Library.Forest

/-! The find variants of the union-find connectivity algorithms (`union_find_rules.h`), one access to the shared parents
at a time under sequential consistency. -/
namespace CilkArtifact.Connectivity
open Forest

/-- `sequence<parent>` -/
abbrev Parents := ℕ → ℕ

/-- A find variant: where it is between two accesses to the parents, and what an access does; it goes on from there or
returns. -/
structure Find where
  Pc : Type
  start : ℕ → Pc
  access : Pc → Parents → (Pc ⊕ ℕ) × Parents

/-- `atomic_compare_and_swap(&parents[i], old, new)`, whose result the find variants do not use. -/
def compareAndSwap (parents : Parents) (i old new : ℕ) : Parents :=
  if parents i = old then Function.update parents i new else parents

/-- An access of a find of `x` changes nothing, or it gives a node another parent in its tree: a lower one, or in the tree
of `x` one that the find will not return above. -/
def Shortcut (parents parents' : Parents) (x bound : ℕ) : Prop :=
  parents' = parents ∨ ∃ i j, j < i ∧ Joined parents j i ∧ (j ≤ parents i ∨ Joined parents i x ∧ j ≤ bound) ∧
    parents' = Function.update parents i j

/-- What a find of `x` knows between two accesses, what it will return at most, and how far it is from its end. The
other threads may only change what `Changes` allows. -/
structure Find.Correct (f : Find) where
  knows : ℕ → f.Pc → Parents → Prop
  bound : f.Pc → Parents → ℕ
  left : f.Pc → Parents → ℕ
  start : ∀ {x i p}, Joined p i x → knows x (f.start i) p
  start_bound : ∀ i p, bound (f.start i) p ≤ root p i
  shortcut : ∀ {x pc p}, Descending p → knows x pc p → Shortcut p (f.access pc p).2 x (bound pc p)
  next : ∀ {x pc p pc' p'}, Descending p → knows x pc p → f.access pc p = (.inl pc', p') →
    knows x pc' p' ∧ bound pc' p' ≤ bound pc p ∧ left pc' p' < left pc p
  returns : ∀ {x pc p j p'}, Descending p → knows x pc p → f.access pc p = (.inr j, p') →
    Joined p' j x ∧ j ≤ bound pc p
  stable : ∀ {x pc p p'}, Descending p → Descending p' → Changes p p' → knows x pc p →
    knows x pc p' ∧ bound pc p' ≤ bound pc p ∧ left pc p' ≤ left pc p

section Shortcut
variable {p p' : Parents} {x bound : ℕ}

theorem Shortcut.refl (p : Parents) (x bound : ℕ) : Shortcut p p x bound := .inl rfl

theorem Shortcut.descending (shortcut : Shortcut p p' x bound) (descending : Descending p) : Descending p' := by
  rcases shortcut with rfl | ⟨i, j, lower, -, -, rfl⟩
  · exact descending
  · exact descending_update descending lower.le

theorem Shortcut.root_eq (shortcut : Shortcut p p' x bound) (descending : Descending p) (v : ℕ) : root p' v = root p v := by
  rcases shortcut with rfl | ⟨i, j, lower, joined, -, rfl⟩
  · rfl
  · exact root_shortcut descending lower joined v

theorem Shortcut.changes (shortcut : Shortcut p p' x bound) (descending : Descending p) : Changes p p' := by
  rcases shortcut with rfl | ⟨i, j, lower, joined, -, rfl⟩
  · exact .refl _
  · exact changes_shortcut descending lower joined

theorem shortcut_compareAndSwap (p : Parents) (x bound : ℕ) {i old new : ℕ} (lower : new < i) (joined : Joined p new i)
    (below : new ≤ old) : Shortcut p (compareAndSwap p i old new) x bound := by
  unfold compareAndSwap
  split
  · exact .inr ⟨i, new, lower, joined, .inl (by omega), rfl⟩
  · exact .inl rfl

end Shortcut

/-! ## Variants -/

inductive NaivePc where
  /-- At `i != parents[i]`. -/
  | test (i : ℕ)
  | next (i : ℕ)

/-- `find_naive` -/
def findNaive : Find where
  Pc := NaivePc
  start := .test
  access
    | .test i, p => (if i ≠ p i then .inl (.next i) else .inr i, p)
    | .next i, p => (.inl (.test (p i)), p)

inductive CompressPc where
  /-- At `parents[j] == j`, where `j` is `i`. -/
  | first (i : ℕ)
  | up (i j : ℕ)
  | test (i j : ℕ)
  /-- At `(tmp = parents[i]) > j`. -/
  | read (i j : ℕ)
  | write (i j tmp : ℕ)

/-- `find_compress` -/
def findCompress : Find where
  Pc := CompressPc
  start := .first
  access
    | .first i, p => (if p i = i then .inr i else .inl (.up i i), p)
    | .up i j, p => (.inl (.test i (p j)), p)
    | .test i j, p => (.inl (if p j ≠ j then .up i j else .read i j), p)
    | .read i j, p => (if p i > j then .inl (.write i j (p i)) else .inr j, p)
    | .write i j tmp, p => (.inl (.read tmp j), Function.update p i j)

/-- `find_atomic_split` and `find_atomic_halve` read the parent and the grandparent. -/
inductive SplitPc where
  | readV (i : ℕ)
  | readW (i v : ℕ)
  | swap (i v w : ℕ)
  /-- At the second read of `parents[i]` in `find_atomic_halve`. -/
  | again (i : ℕ)

/-- `find_atomic_split` -/
def findAtomicSplit : Find where
  Pc := SplitPc
  start := .readV
  access
    | .readV i, p => (.inl (.readW i (p i)), p)
    | .readW i v, p => (if v = p v then .inr v else .inl (.swap i v (p v)), p)
    | .swap i v w, p => (.inl (.readV v), compareAndSwap p i v w)
    | .again i, p => (.inl (.readV i), p)

/-- `find_atomic_halve` -/
def findAtomicHalve : Find where
  Pc := SplitPc
  start := .readV
  access
    | .readV i, p => (.inl (.readW i (p i)), p)
    | .readW i v, p => (if v = p v then .inr v else .inl (.swap i v (p v)), p)
    | .swap i v w, p => (.inl (.again i), compareAndSwap p i v w)
    | .again i, p => (.inl (.readV (p i)), p)

section Correct
variable {p : Parents} {i j : ℕ}

theorem parent_lt (descending : Descending p) (child : p i ≠ i) : p i < i := lt_of_le_of_ne (descending i) child

def findNaive_correct : findNaive.Correct where
  knows x pc p :=
    match pc with
    | .test i => Joined p i x
    | .next i => Joined p i x ∧ p i ≠ i
  bound pc p :=
    match pc with
    | .test i | .next i => root p i
  left pc _ :=
    match pc with
    | .test i => 2 * i + 1
    | .next i => 2 * i
  start := id
  start_bound _ _ := le_refl _
  shortcut {x pc p} _ _ := by cases pc <;> exact .inl rfl
  next {x pc p pc' p'} descending known access := by
    cases pc with
    | test i =>
      simp only [findNaive] at access
      split at access
      · cases access
        exact ⟨⟨known, Ne.symm ‹_›⟩, le_refl _, Nat.lt_succ_self _⟩
      · cases access
    | next i =>
      cases access
      obtain ⟨joined, child⟩ := known
      have below : 2 * p i + 1 < 2 * i := by
        have lower := parent_lt descending child
        omega
      exact ⟨(joined_parent descending i).trans joined, (root_parent descending i).le, below⟩
  returns {x pc p j p'} _ known access := by
    cases pc with
    | test i =>
      simp only [findNaive] at access
      split at access
      · cases access
      · cases access
        exact ⟨known, (root_of_fixed (Eq.symm (not_not.mp ‹_›))).ge⟩
    | next i => cases access
  stable {x pc p p'} descending descending' changes known := by
    cases pc with
    | test i => exact ⟨changes.joined known, changes.root_le descending descending' i, le_refl _⟩
    | next i =>
      obtain ⟨joined, child⟩ := known
      exact ⟨⟨changes.joined joined, changes.child child⟩, changes.root_le descending descending' i, le_refl _⟩

/-- In the second phase `j` was a root when it was found, and everything on the way is in its tree. -/
def findCompress_correct : findCompress.Correct where
  knows x pc p :=
    match pc with
    | .first i => Joined p i x
    | .up i j => Joined p i x ∧ Joined p j x ∧ j ≤ i ∧ p j ≠ j
    | .test i j => Joined p i x ∧ Joined p j x ∧ j ≤ i
    | .read i j => Joined p i x ∧ Joined p j x
    | .write i j tmp => Joined p i x ∧ Joined p j x ∧ Joined p tmp x ∧ j < tmp ∧ tmp < i
  bound pc p :=
    match pc with
    | .first i => root p i
    | .up _ j | .test _ j => root p j
    | .read _ j | .write _ j _ => j
  left pc _ :=
    match pc with
    | .first i => 4 * i + 3
    | .up i j => 2 * i + 2 + 2 * j
    | .test i j => 2 * i + 2 + 2 * j + 1
    | .read i _ => 2 * i + 1
    | .write i _ _ => 2 * i
  start := id
  start_bound _ _ := le_refl _
  shortcut {x pc p} descending known := by
    cases pc with
    | write i j tmp =>
      obtain ⟨joined, joined', -, low, high⟩ := known
      exact .inr ⟨i, j, low.trans high, joined'.trans joined.symm, .inr ⟨joined, le_refl j⟩, rfl⟩
    | _ => exact .inl rfl
  next {x pc p pc' p'} descending known access := by
    cases pc with
    | first i =>
      simp only [findCompress] at access
      split at access
      · cases access
      · cases access
        have less : 2 * i + 2 + 2 * i < 4 * i + 3 := by omega
        exact ⟨⟨known, known, le_refl i, ‹_›⟩, le_refl _, less⟩
    | up i j =>
      cases access
      obtain ⟨joined, joined', low, child⟩ := known
      have less : 2 * i + 2 + 2 * p j + 1 < 2 * i + 2 + 2 * j := by
        have lower := parent_lt descending child
        omega
      exact ⟨⟨joined, (joined_parent descending j).trans joined', (descending j).trans low⟩,
        (root_parent descending j).le, less⟩
    | test i j =>
      obtain ⟨joined, joined', low⟩ := known
      simp only [findCompress] at access
      split at access
      · cases access
        exact ⟨⟨joined, joined', low, ‹_›⟩, le_refl _, Nat.lt_succ_self _⟩
      · cases access
        have less : 2 * i + 1 < 2 * i + 2 + 2 * j + 1 := by omega
        exact ⟨⟨joined, joined'⟩, (root_of_fixed (not_not.mp ‹_›)).ge, less⟩
    | read i j =>
      obtain ⟨joined, joined'⟩ := known
      simp only [findCompress] at access
      split at access
      · rename_i high
        cases access
        have above : j < i := high.trans_le (descending i)
        have child := child_of_joined descending (joined.trans joined'.symm) above
        exact ⟨⟨joined, joined', (joined_parent descending i).trans joined, high, parent_lt descending child⟩, le_refl _,
          Nat.lt_succ_self _⟩
      · cases access
    | write i j tmp =>
      cases access
      obtain ⟨joined, joined', joined_tmp, low, high⟩ := known
      have same : Joined p j i := joined'.trans joined.symm
      have changes := changes_shortcut descending (low.trans high) same
      have less : 2 * tmp + 1 < 2 * i := by omega
      exact ⟨⟨changes.joined joined_tmp, changes.joined joined'⟩, le_refl _, less⟩
  returns {x pc p j p'} descending known access := by
    cases pc with
    | first i =>
      simp only [findCompress] at access
      split at access
      · cases access
        exact ⟨known, (root_of_fixed ‹_›).ge⟩
      · cases access
    | read i j =>
      simp only [findCompress] at access
      split at access
      · cases access
      · cases access
        exact ⟨known.2, le_refl _⟩
    | _ => cases access
  stable {x pc p p'} descending descending' changes known := by
    cases pc with
    | first i => exact ⟨changes.joined known, changes.root_le descending descending' i, le_refl _⟩
    | up i j =>
      obtain ⟨joined, joined', low, child⟩ := known
      exact ⟨⟨changes.joined joined, changes.joined joined', low, changes.child child⟩,
        changes.root_le descending descending' j, le_refl _⟩
    | test i j =>
      obtain ⟨joined, joined', low⟩ := known
      exact ⟨⟨changes.joined joined, changes.joined joined', low⟩, changes.root_le descending descending' j, le_refl _⟩
    | read i j => exact ⟨⟨changes.joined known.1, changes.joined known.2⟩, le_refl _, le_refl _⟩
    | write i j tmp =>
      obtain ⟨joined, joined', joined_tmp, order⟩ := known
      exact ⟨⟨changes.joined joined, changes.joined joined', changes.joined joined_tmp, order⟩, le_refl _, le_refl _⟩

theorem swap_shortcut {v w x : ℕ} (bound : ℕ) (joined : Joined p i x) (joined_w : Joined p w x) (low : w < v) (high : v ≤ i) :
    Shortcut p (compareAndSwap p i v w) x bound :=
  shortcut_compareAndSwap p x bound (low.trans_le high) (joined_w.trans joined.symm) low.le

/-- The find goes on from the parent, which may be `i` itself when `i` was a root and has just got a parent. -/
def findAtomicSplit_correct : findAtomicSplit.Correct where
  knows x pc p :=
    match pc with
    | .readV i => Joined p i x
    | .readW i v => Joined p i x ∧ Joined p v x ∧ v ≤ i
    | .swap i v w => Joined p i x ∧ Joined p v x ∧ Joined p w x ∧ p v ≠ v ∧ w < v ∧ v ≤ i
    | .again _ => False
  bound pc p :=
    match pc with
    | .readV i | .again i => root p i
    | .readW _ v | .swap _ v _ => root p v
  left pc p :=
    match pc with
    | .readV i => 6 * i + if p i = i then 5 else 0
    | .readW _ v => 6 * v + 4
    | .swap _ v _ => 6 * v + 3
    | .again _ => 0
  start := id
  start_bound _ _ := le_refl _
  shortcut {x pc p} descending known := by
    cases pc with
    | swap i v w =>
      obtain ⟨joined, -, joined_w, -, low, high⟩ := known
      exact swap_shortcut _ joined joined_w low high
    | _ => exact .inl rfl
  next {x pc p pc' p'} descending known access := by
    cases pc with
    | readV i =>
      cases access
      have less : 6 * p i + 4 < 6 * i + if p i = i then 5 else 0 := by
        have lower := descending i
        split <;> omega
      exact ⟨⟨known, (joined_parent descending i).trans known, descending i⟩, (root_parent descending i).le, less⟩
    | readW i v =>
      obtain ⟨joined, joined_v, high⟩ := known
      simp only [findAtomicSplit] at access
      split at access
      · cases access
      · cases access
        have child : p v ≠ v := Ne.symm ‹_›
        exact ⟨⟨joined, joined_v, (joined_parent descending v).trans joined_v, child, parent_lt descending child, high⟩,
          le_refl _, Nat.lt_succ_self _⟩
    | swap i v w =>
      cases access
      obtain ⟨joined, joined_v, joined_w, child, low, high⟩ := known
      have shortcut : Shortcut p (compareAndSwap p i v w) x 0 := swap_shortcut _ joined joined_w low high
      have changes := shortcut.changes descending
      have less : (6 * v + if compareAndSwap p i v w v = v then 5 else 0) < 6 * v + 3 := by
        rw [if_neg (changes.child child)]
        omega
      exact ⟨changes.joined joined_v, (shortcut.root_eq descending v).le, less⟩
    | again i => exact known.elim
  returns {x pc p j p'} descending known access := by
    cases pc with
    | readW i v =>
      simp only [findAtomicSplit] at access
      split at access
      · rename_i fixed
        cases access
        exact ⟨known.2.1, (root_of_fixed fixed.symm).ge⟩
      · cases access
    | _ => cases access
  stable {x pc p p'} descending descending' changes known := by
    cases pc with
    | readV i =>
      have less : (6 * i + if p' i = i then 5 else 0) ≤ 6 * i + if p i = i then 5 else 0 := by
        by_cases fixed : p i = i
        · rw [if_pos fixed]
          split <;> omega
        · rw [if_neg (changes.child fixed), if_neg fixed]
      exact ⟨changes.joined known, changes.root_le descending descending' i, less⟩
    | readW i v =>
      obtain ⟨joined, joined_v, high⟩ := known
      exact ⟨⟨changes.joined joined, changes.joined joined_v, high⟩, changes.root_le descending descending' v, le_refl _⟩
    | swap i v w =>
      obtain ⟨joined, joined_v, joined_w, child, order⟩ := known
      exact ⟨⟨changes.joined joined, changes.joined joined_v, changes.joined joined_w, changes.child child, order⟩,
        changes.root_le descending descending' v, le_refl _⟩
    | again i => exact known.elim

/-- When the swap is reached `i` has a parent, so the second read of it goes up. -/
def findAtomicHalve_correct : findAtomicHalve.Correct where
  knows x pc p :=
    match pc with
    | .readV i => Joined p i x
    | .readW i v => Joined p i x ∧ Joined p v x ∧ v ≤ i ∧ (v = i ∨ p i ≠ i)
    | .swap i v w => Joined p i x ∧ Joined p w x ∧ p i ≠ i ∧ w < v ∧ v ≤ i
    | .again i => Joined p i x ∧ p i ≠ i
  bound pc p :=
    match pc with
    | .readV i | .again i | .swap i _ _ => root p i
    | .readW _ v => root p v
  left pc _ :=
    match pc with
    | .readV i => 4 * i + 3
    | .readW i _ => 4 * i + 2
    | .swap i _ _ => 4 * i + 1
    | .again i => 4 * i
  start := id
  start_bound _ _ := le_refl _
  shortcut {x pc p} descending known := by
    cases pc with
    | swap i v w =>
      obtain ⟨joined, joined_w, -, low, high⟩ := known
      exact swap_shortcut _ joined joined_w low high
    | _ => exact .inl rfl
  next {x pc p pc' p'} descending known access := by
    cases pc with
    | readV i =>
      cases access
      exact ⟨⟨known, (joined_parent descending i).trans known, descending i, eq_or_ne _ _⟩, (root_parent descending i).le,
        Nat.lt_succ_self _⟩
    | readW i v =>
      obtain ⟨joined, joined_v, high, child⟩ := known
      simp only [findAtomicHalve] at access
      split at access
      · cases access
      · cases access
        have child_v : p v ≠ v := Ne.symm ‹_›
        have child_i : p i ≠ i := child.elim (fun same => same ▸ child_v) id
        have same : Joined p i v := joined.trans joined_v.symm
        exact ⟨⟨joined, (joined_parent descending v).trans joined_v, child_i, parent_lt descending child_v, high⟩, same.le,
          Nat.lt_succ_self _⟩
    | swap i v w =>
      cases access
      obtain ⟨joined, joined_w, child, low, high⟩ := known
      have shortcut : Shortcut p (compareAndSwap p i v w) x 0 := swap_shortcut _ joined joined_w low high
      have changes := shortcut.changes descending
      exact ⟨⟨changes.joined joined, changes.child child⟩, (shortcut.root_eq descending i).le, Nat.lt_succ_self _⟩
    | again i =>
      cases access
      obtain ⟨joined, child⟩ := known
      have less : 4 * p i + 3 < 4 * i := by
        have lower := parent_lt descending child
        omega
      exact ⟨(joined_parent descending i).trans joined, (root_parent descending i).le, less⟩
  returns {x pc p j p'} descending known access := by
    cases pc with
    | readW i v =>
      simp only [findAtomicHalve] at access
      split at access
      · rename_i fixed
        cases access
        exact ⟨known.2.1, (root_of_fixed fixed.symm).ge⟩
      · cases access
    | _ => cases access
  stable {x pc p p'} descending descending' changes known := by
    cases pc with
    | readV i => exact ⟨changes.joined known, changes.root_le descending descending' i, le_refl _⟩
    | readW i v =>
      obtain ⟨joined, joined_v, high, child⟩ := known
      exact ⟨⟨changes.joined joined, changes.joined joined_v, high, child.imp_right changes.child⟩,
        changes.root_le descending descending' v, le_refl _⟩
    | swap i v w =>
      obtain ⟨joined, joined_w, child, order⟩ := known
      exact ⟨⟨changes.joined joined, changes.joined joined_w, changes.child child, order⟩,
        changes.root_le descending descending' i, le_refl _⟩
    | again i => exact ⟨⟨changes.joined known.1, changes.child known.2⟩, changes.root_le descending descending' i, le_refl _⟩

end Correct

/-- The variants of `FindOption` that `find_variants` has. -/
inductive FindOption where
  | compress
  | naive
  | atomicSplit
  | atomicHalve
  deriving DecidableEq

def FindOption.find : FindOption → Find
  | compress => findCompress
  | naive => findNaive
  | atomicSplit => findAtomicSplit
  | atomicHalve => findAtomicHalve

def FindOption.correct : ∀ option : FindOption, option.find.Correct
  | compress => findCompress_correct
  | naive => findNaive_correct
  | atomicSplit => findAtomicSplit_correct
  | atomicHalve => findAtomicHalve_correct

end CilkArtifact.Connectivity
