import CilkArtifact.Library.Components

/-! Forests on the natural numbers in which no parent is above its child. A shortcut to a lower node of the same tree
changes no root, and a root hooked under a lower node merges two trees. -/
namespace CilkArtifact.Forest
open Components

/-- A root is its own parent. -/
def Descending (p : ℕ → ℕ) : Prop := ∀ v, p v ≤ v

/-- The root of the tree of a node. -/
def root (p : ℕ → ℕ) (v : ℕ) : ℕ := p^[v] v

/-- Two nodes are in one tree. -/
def Joined (p : ℕ → ℕ) (a b : ℕ) : Prop := root p a = root p b

variable {p p' : ℕ → ℕ} {a b i j u v : ℕ}

theorem descending_id : Descending id := fun v => le_refl v

/-- From a parent to its child, from the roots on. -/
theorem Descending.induct (descending : Descending p) {P : ℕ → Prop} (base : ∀ v, p v = v → P v)
    (step : ∀ v, p v < v → P (p v) → P v) (v : ℕ) : P v := by
  induction v using Nat.strong_induction_on with
  | h v ih =>
    rcases (descending v).lt_or_eq with lower | same
    · exact step v lower (ih _ lower)
    · exact base v same

theorem root_of_fixed (fixed : p v = v) : root p v = v := Function.iterate_fixed fixed v

/-- More steps than the node is high lead to the same root. -/
theorem iterate_eq_root (descending : Descending p) {k : ℕ} (enough : v ≤ k) : p^[k] v = root p v := by
  induction v using Nat.strong_induction_on generalizing k with
  | h v ih =>
    rcases (descending v).lt_or_eq with lower | same
    · obtain ⟨n, rfl⟩ : ∃ n, v = n + 1 := Nat.exists_eq_succ_of_ne_zero (by omega)
      obtain ⟨m, rfl⟩ : ∃ m, k = m + 1 := Nat.exists_eq_succ_of_ne_zero (by omega)
      rw [root, Function.iterate_succ_apply, Function.iterate_succ_apply, ih _ lower (by omega), ih _ lower (by omega)]
    · rw [root_of_fixed same]
      exact Function.iterate_fixed same k

theorem root_parent (descending : Descending p) (v : ℕ) : root p (p v) = root p v := by
  rw [← iterate_eq_root descending (Nat.le_succ v), Function.iterate_succ_apply]
  exact (iterate_eq_root descending (descending v)).symm

theorem parent_root (descending : Descending p) (v : ℕ) : p (root p v) = root p v := by
  induction v using descending.induct with
  | base v fixed => rw [root_of_fixed fixed, fixed]
  | step v lower ih => rwa [← root_parent descending]

theorem root_le (descending : Descending p) (v : ℕ) : root p v ≤ v := by
  induction v using descending.induct with
  | base v fixed => rw [root_of_fixed fixed]
  | step v lower ih =>
    rw [← root_parent descending]
    exact ih.trans lower.le

theorem root_root (descending : Descending p) (v : ℕ) : root p (root p v) = root p v :=
  root_of_fixed (parent_root descending v)

theorem root_lt (descending : Descending p) (child : p v ≠ v) : root p v < v := by
  rw [← root_parent descending]
  exact (root_le descending _).trans_lt (lt_of_le_of_ne (descending v) child)

theorem joined_parent (descending : Descending p) (v : ℕ) : Joined p (p v) v := root_parent descending v

theorem joined_root (descending : Descending p) (v : ℕ) : Joined p (root p v) v := root_root descending v

theorem Joined.refl (a : ℕ) : Joined p a a := rfl

theorem Joined.symm (joined : Joined p a b) : Joined p b a := Eq.symm joined

theorem Joined.trans {c : ℕ} (first : Joined p a b) (second : Joined p b c) : Joined p a c := Eq.trans first second

theorem joined_equivalence (p : ℕ → ℕ) : Equivalence (Joined p) := ⟨.refl, .symm, .trans⟩

/-- A node that is above the roots of its tree has a parent. -/
theorem child_of_joined (descending : Descending p) (joined : Joined p i j) (above : j < i) : p i ≠ i := by
  intro fixed
  have low := root_le descending j
  rw [← joined, root_of_fixed fixed] at low
  omega

theorem descending_update (descending : Descending p) (lower : j ≤ i) : Descending (Function.update p i j) := by
  intro v
  by_cases here : v = i
  · rw [here, Function.update_self]
    exact lower
  · rw [Function.update_of_ne here]
    exact descending v

/-- A parent may be replaced by any lower node of the tree. -/
theorem root_shortcut (descending : Descending p) (lower : j < i) (joined : Joined p j i) (v : ℕ) :
    root (Function.update p i j) v = root p v := by
  have descending' := descending_update descending lower.le
  induction v using Nat.strong_induction_on with
  | h v ih =>
    rw [← root_parent descending' v]
    by_cases here : v = i
    · rw [here, Function.update_self]
      exact (ih j (here ▸ lower)).trans joined
    · rw [Function.update_of_ne here]
      rcases (descending v).lt_or_eq with below | fixed
      · exact (ih _ below).trans (root_parent descending v)
      · rw [fixed, root_of_fixed fixed]
        exact root_of_fixed (by rw [Function.update_of_ne here, fixed])

/-- A root that gets a lower parent takes its tree along. -/
theorem root_hook (descending : Descending p) (fixed : p u = u) (lower : v < u) (w : ℕ) :
    root (Function.update p u v) w = if root p w = u then root p v else root p w := by
  have descending' := descending_update descending lower.le
  induction w using Nat.strong_induction_on with
  | h w ih =>
    rw [← root_parent descending' w]
    by_cases here : w = u
    · rw [here, Function.update_self, ih v (here ▸ lower), if_pos (root_of_fixed fixed), if_neg]
      exact ((root_le descending v).trans_lt lower).ne
    · rw [Function.update_of_ne here]
      rcases (descending w).lt_or_eq with below | same
      · rw [ih _ below, root_parent descending]
      · rw [same, root_of_fixed same, if_neg here]
        exact root_of_fixed (by rw [Function.update_of_ne here, same])

/-- What may happen to a forest while others look at it: trees are merged but not split, and children stay children. -/
structure Changes (p p' : ℕ → ℕ) : Prop where
  joined : ∀ {a b}, Joined p a b → Joined p' a b
  child : ∀ {v}, p v ≠ v → p' v ≠ v

theorem Changes.refl (p : ℕ → ℕ) : Changes p p := ⟨id, id⟩

theorem Changes.trans {q : ℕ → ℕ} (first : Changes p p') (second : Changes p' q) : Changes p q :=
  ⟨fun joined => second.joined (first.joined joined), fun child => second.child (first.child child)⟩

theorem Changes.root_le (changes : Changes p p') (descending : Descending p) (descending' : Descending p') (v : ℕ) :
    root p' v ≤ root p v := by
  rw [← changes.joined (joined_root descending v)]
  exact Forest.root_le descending' _

theorem changes_shortcut (descending : Descending p) (lower : j < i) (joined : Joined p j i) :
    Changes p (Function.update p i j) := by
  constructor
  · intro a b same
    rwa [Joined, root_shortcut descending lower joined, root_shortcut descending lower joined]
  · intro v child
    by_cases here : v = i
    · rw [here, Function.update_self]
      exact lower.ne
    · rwa [Function.update_of_ne here]

theorem changes_hook (descending : Descending p) (fixed : p u = u) (lower : v < u) : Changes p (Function.update p u v) := by
  constructor
  · intro a b same
    rw [Joined, root_hook descending fixed lower, root_hook descending fixed lower, same]
  · intro w child
    by_cases here : w = u
    · rw [here, Function.update_self]
      exact lower.ne
    · rwa [Function.update_of_ne here]

/-- A hooked root makes its tree and the other one, and nothing else. -/
theorem joined_hook (descending : Descending p) (fixed : p u = u) (lower : v < u) :
    Joined (Function.update p u v) a b ↔ Glued (Joined p) u v a b := by
  have stays : root p v ≠ u := ((root_le descending v).trans_lt lower).ne
  have own : root p u = u := root_of_fixed fixed
  simp only [Glued, Joined, root_hook descending fixed lower, own]
  by_cases first : root p a = u <;> by_cases second : root p b = u
  · simp [first, second]
  · simp [first, second, Ne.symm second, eq_comm]
  · simp [first, second, stays]
  · simp [first, second, Ne.symm second]

theorem root_eq_self (descending : Descending p) : root p v = v ↔ p v = v :=
  ⟨fun top => by simpa [top] using parent_root descending v, root_of_fixed⟩

end CilkArtifact.Forest
