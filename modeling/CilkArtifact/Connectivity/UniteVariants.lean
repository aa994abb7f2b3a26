import CilkArtifact.Connectivity.Unite

/-! `Unite`, `UniteEarly` and `UniteRemCAS` of the union-find connectivity algorithms (`union_find_rules.h`). -/
namespace CilkArtifact.Connectivity
open Forest

section Order
variable {a a' : ℕ} {b b' : ℕ ×ₗ ℕ}

theorem lex_lt (first : a' ≤ a) (second : b' < b) : (toLex (a', b') : ℕ ×ₗ ℕ ×ₗ ℕ) < toLex (a, b) := by
  rcases first.lt_or_eq with less | same
  · exact Prod.Lex.toLex_lt_toLex.mpr (.inl less)
  · exact Prod.Lex.toLex_lt_toLex.mpr (.inr ⟨same, second⟩)

theorem lex_le (first : a' ≤ a) (second : b' ≤ b) : (toLex (a', b') : ℕ ×ₗ ℕ ×ₗ ℕ) ≤ toLex (a, b) := by
  rcases first.lt_or_eq with less | same
  · exact Prod.Lex.toLex_le_toLex.mpr (.inl less)
  · exact Prod.Lex.toLex_le_toLex.mpr (.inr ⟨same, second⟩)

/-- The bound goes down. -/
theorem bound_lt (less : a' < a) : (toLex (a', b') : ℕ ×ₗ ℕ ×ₗ ℕ) < toLex (a, b) :=
  Prod.Lex.toLex_lt_toLex.mpr (.inl less)

theorem phase_lt {n n' m m' : ℕ} (less : n' < n) : (toLex (n', m') : ℕ ×ₗ ℕ) < toLex (n, m) :=
  Prod.Lex.toLex_lt_toLex.mpr (.inl less)

theorem within_phase_lt {n m m' : ℕ} (less : m' < m) : (toLex (n, m') : ℕ ×ₗ ℕ) < toLex (n, m) :=
  Prod.Lex.toLex_lt_toLex.mpr (.inr ⟨rfl, less⟩)

theorem within_phase_le {n m m' : ℕ} (less : m' ≤ m) : (toLex (n, m') : ℕ ×ₗ ℕ) ≤ toLex (n, m) :=
  Prod.Lex.toLex_le_toLex.mpr (.inr ⟨rfl, less⟩)

end Order

/-! ## Unite -/

inductive UnitePc (find : Find) where
  /-- In `u = find(u, parents)`. -/
  | findU (pc : find.Pc) (v : ℕ)
  /-- In `v = find(v, parents)`. -/
  | findV (u : ℕ) (pc : find.Pc)
  /-- At `parents[u] == u` or `parents[v] == v`, of the higher one. -/
  | check (u v : ℕ)
  /-- At the swap of the higher one's parent. -/
  | swap (u v : ℕ)

/-- `Unite` -/
def unite (find : Find) : UniteVariant where
  Pc := UnitePc find
  start edge := .findU (find.start edge.1) edge.2
  access _
    | .findU pc v, p =>
      match find.access pc p with
      | (.inl pc, p) => (.inl (.findU pc v), p)
      | (.inr u, p) => (.inl (.findV u (find.start v)), p)
    | .findV u pc, p =>
      match find.access pc p with
      | (.inl pc, p) => (.inl (.findV u pc), p)
      | (.inr v, p) => (if u = v then .inr none else .inl (.check u v), p)
    | .check u v, p => (.inl (if p (max u v) = max u v then .swap u v else .findU (find.start u) v), p)
    | .swap u v, p =>
      if p (max u v) = max u v then (.inr (some (max u v)), Function.update p (max u v) (min u v))
      else (.inl (.findU (find.start u) v), p)

section Unite
variable {find : Find} (correct : find.Correct) {p : Parents}

/-- An upper bound of the roots that `Unite` will try, which a retry lowers. -/
def uniteBound (pc : UnitePc find) (p : Parents) : ℕ :=
  match pc with
  | .findU pc v => 2 * (correct.bound pc p + root p v) + 1
  | .findV u pc => 2 * (u + correct.bound pc p)
  | .check u v | .swap u v => 2 * (u + v)

/-- The bound, the place in the loop, and how far a find is. -/
def uniteLeft (pc : UnitePc find) (p : Parents) : ℕ ×ₗ ℕ ×ₗ ℕ :=
  toLex (uniteBound correct pc p,
    match pc with
    | .findU pc _ => toLex (4, correct.left pc p)
    | .findV _ pc => toLex (3, correct.left pc p)
    | .check _ _ => toLex (2, 0)
    | .swap _ _ => toLex (1, 0))

/-- A failed attempt starts again from lower roots. -/
theorem retry_bound {u v : ℕ} (descending : Descending p) (child : p (max u v) ≠ max u v) :
    2 * (correct.bound (find.start u) p + root p v) + 1 < 2 * (u + v) := by
  have start := correct.start_bound u p
  have low := root_lt descending child
  have low_u := root_le descending u
  have low_v := root_le descending v
  rcases le_total u v with order | order
  · rw [max_eq_right order] at low
    omega
  · rw [max_eq_left order] at low
    omega

theorem ends_max_min {edge : ℕ × ℕ} {u v : ℕ} (ends : Ends edge p u v) : Ends edge p (max u v) (min u v) := by
  rcases le_total u v with order | order
  · rw [max_eq_right order, min_eq_left order]
    exact ends.swap
  · rwa [max_eq_left order, min_eq_right order]

/-- Once `u` is found it is a root of the first end's tree, or was one. -/
def unite_correct : (unite find).Correct where
  knows edge pc p :=
    match pc with
    | .findU pc v => correct.knows edge.1 pc p ∧ Joined p v edge.2
    | .findV u pc => Joined p u edge.1 ∧ correct.knows edge.2 pc p
    | .check u v | .swap u v => Joined p u edge.1 ∧ Joined p v edge.2 ∧ u ≠ v
  hooked _ := none
  left := uniteLeft correct
  exact := True
  start edge p := ⟨⟨correct.start (.refl _), .refl _⟩, rfl⟩
  next {edge pc p pc' p'} descending knows access := by
    cases pc with
    | findU pc v =>
      obtain ⟨known, joined⟩ := knows
      have shortcut := correct.shortcut descending known
      have changes := shortcut.changes descending
      cases accessed : find.access pc p with
      | mk result p₁ =>
        rw [accessed] at shortcut changes
        have root_eq := shortcut.root_eq descending v
        cases result with
        | inl pc₁ =>
          simp only [unite, accessed] at access
          cases access
          obtain ⟨known', bound, left⟩ := correct.next descending known accessed
          refine ⟨.shortcut shortcut, ⟨known', changes.joined joined⟩, lex_lt ?_ (within_phase_lt left)⟩
          simp only [uniteBound, root_eq]
          omega
        | inr u =>
          simp only [unite, accessed] at access
          cases access
          obtain ⟨found, bound⟩ := correct.returns descending known accessed
          have start := correct.start_bound v p'
          refine ⟨.shortcut shortcut, ⟨found, correct.start (changes.joined joined)⟩, lex_lt ?_ (phase_lt (by decide))⟩
          simp only [uniteBound, ← root_eq]
          omega
    | findV u pc =>
      obtain ⟨joined, known⟩ := knows
      have shortcut := correct.shortcut descending known
      have changes := shortcut.changes descending
      cases accessed : find.access pc p with
      | mk result p₁ =>
        rw [accessed] at shortcut changes
        cases result with
        | inl pc₁ =>
          simp only [unite, accessed] at access
          cases access
          obtain ⟨known', bound, left⟩ := correct.next descending known accessed
          refine ⟨.shortcut shortcut, ⟨changes.joined joined, known'⟩, lex_lt ?_ (within_phase_lt left)⟩
          simp only [uniteBound]
          omega
        | inr v =>
          simp only [unite, accessed] at access
          obtain ⟨found, bound⟩ := correct.returns descending known accessed
          split at access
          · cases access
          · cases access
            refine ⟨.shortcut shortcut, ⟨changes.joined joined, found, ‹_›⟩, lex_lt ?_ (phase_lt (by decide))⟩
            simp only [uniteBound]
            omega
    | check u v =>
      simp only [unite] at access
      split at access
      · cases access
        exact ⟨.shortcut (.refl p 0 0), knows, lex_lt (le_refl _) (phase_lt (by decide))⟩
      · cases access
        obtain ⟨joined, joined', -⟩ := knows
        exact ⟨.shortcut (.refl p 0 0), ⟨correct.start joined, joined'⟩, bound_lt (retry_bound correct descending ‹_›)⟩
    | swap u v =>
      simp only [unite] at access
      split at access
      · cases access
      · cases access
        obtain ⟨joined, joined', -⟩ := knows
        exact ⟨.shortcut (.refl p 0 0), ⟨correct.start joined, joined'⟩, bound_lt (retry_bound correct descending ‹_›)⟩
  returns {edge pc p result p'} descending knows access := by
    cases pc with
    | findU pc v =>
      simp only [unite] at access
      split at access <;> cases access
    | findV u pc =>
      obtain ⟨joined, known⟩ := knows
      have shortcut := correct.shortcut descending known
      cases accessed : find.access pc p with
      | mk outcome p₁ =>
        rw [accessed] at shortcut
        cases outcome with
        | inl pc₁ =>
          simp only [unite, accessed] at access
          cases access
        | inr v =>
          simp only [unite, accessed] at access
          obtain ⟨found, -⟩ := correct.returns descending known accessed
          split at access
          · rename_i same
            cases access
            have ends : Joined p' edge.1 edge.2 := ((shortcut.changes descending).joined joined).symm.trans (same ▸ found)
            exact ⟨none, .shortcut shortcut, ends, fun _ => rfl⟩
          · cases access
    | check u v => cases access
    | swap u v =>
      simp only [unite] at access
      split at access
      · rename_i fixed
        cases access
        obtain ⟨joined, joined', other⟩ := knows
        have lower : min u v < max u v := min_lt_max.mpr other
        have ends : Ends edge p (max u v) (min u v) := ends_max_min (.inl ⟨joined, joined'⟩)
        exact ⟨some (max u v), .hook fixed lower ends, ends.hooked descending fixed lower, fun _ => rfl⟩
      · cases access
  stable {edge pc p p'} descending descending' changes knows := by
    cases pc with
    | findU pc v =>
      obtain ⟨known, joined⟩ := knows
      obtain ⟨known', bound, left⟩ := correct.stable descending descending' changes known
      refine ⟨⟨known', changes.joined joined⟩, lex_le ?_ (within_phase_le left)⟩
      have lower := changes.root_le descending descending' v
      simp only [uniteBound]
      omega
    | findV u pc =>
      obtain ⟨joined, known⟩ := knows
      obtain ⟨known', bound, left⟩ := correct.stable descending descending' changes known
      refine ⟨⟨changes.joined joined, known'⟩, lex_le ?_ (within_phase_le left)⟩
      simp only [uniteBound]
      omega
    | check u v | swap u v =>
      obtain ⟨joined, joined', other⟩ := knows
      exact ⟨⟨changes.joined joined, changes.joined joined', other⟩, le_refl _⟩

end Unite

/-! ## Compression afterwards -/

/-- The finds of both ends that `UniteEarly` and `UniteRemCAS` end with, unless `find_option` is `find_naive`. -/
inductive ForcePc (find : Find) where
  | first (pc : find.Pc)
  | second (pc : find.Pc)

def ForcePc.access {find : Find} (edge : ℕ × ℕ) : ForcePc find → Parents → Option (ForcePc find) × Parents
  | .first pc, p =>
    match find.access pc p with
    | (.inl pc, p) => (some (.first pc), p)
    | (.inr _, p) => (some (.second (find.start edge.2)), p)
  | .second pc, p =>
    match find.access pc p with
    | (.inl pc, p) => (some (.second pc), p)
    | (.inr _, p) => (none, p)

section Force
variable {find : Find} (correct : find.Correct) {edge : ℕ × ℕ} {p p' : Parents} {pc : ForcePc find}

def forceKnows (edge : ℕ × ℕ) (pc : ForcePc find) (p : Parents) : Prop :=
  match pc with
  | .first pc => correct.knows edge.1 pc p
  | .second pc => correct.knows edge.2 pc p

def forceLeft (pc : ForcePc find) (p : Parents) : ℕ ×ₗ ℕ :=
  match pc with
  | .first pc => toLex (1, correct.left pc p)
  | .second pc => toLex (0, correct.left pc p)

theorem force_effect (descending : Descending p) (knows : forceKnows correct edge pc p) (hooked : Option ℕ) :
    Effect edge hooked hooked p (pc.access edge p).2 := by
  cases pc with
  | first pc | second pc =>
    have shortcut := correct.shortcut descending knows
    cases accessed : find.access pc p with
    | mk result p₁ =>
      rw [accessed] at shortcut
      cases result <;> simpa only [ForcePc.access, accessed] using .shortcut shortcut

theorem force_next {pc' : ForcePc find} (descending : Descending p) (knows : forceKnows correct edge pc p)
    (access : pc.access edge p = (some pc', p')) :
    forceKnows correct edge pc' p' ∧ forceLeft correct pc' p' < forceLeft correct pc p := by
  cases pc with
  | first pc =>
    cases accessed : find.access pc p with
    | mk result p₁ =>
      cases result with
      | inl pc₁ =>
        simp only [ForcePc.access, accessed] at access
        cases access
        obtain ⟨knows', -, left⟩ := correct.next descending knows accessed
        exact ⟨knows', within_phase_lt left⟩
      | inr j =>
        simp only [ForcePc.access, accessed] at access
        cases access
        exact ⟨correct.start (.refl _), phase_lt Nat.zero_lt_one⟩
  | second pc =>
    cases accessed : find.access pc p with
    | mk result p₁ =>
      cases result with
      | inl pc₁ =>
        simp only [ForcePc.access, accessed] at access
        cases access
        obtain ⟨knows', -, left⟩ := correct.next descending knows accessed
        exact ⟨knows', within_phase_lt left⟩
      | inr j =>
        simp only [ForcePc.access, accessed] at access
        cases access

theorem force_stable (descending : Descending p) (descending' : Descending p') (changes : Changes p p')
    (knows : forceKnows correct edge pc p) :
    forceKnows correct edge pc p' ∧ forceLeft correct pc p' ≤ forceLeft correct pc p := by
  cases pc with
  | first pc | second pc =>
    obtain ⟨knows', -, left⟩ := correct.stable descending descending' changes knows
    exact ⟨knows', within_phase_le left⟩

end Force

/-! ## UniteEarly -/

inductive EarlyPc (find : Find) where
  /-- At `u != v`. -/
  | test (u v : ℕ)
  /-- At `parents[u] == u`, where `v < u`. -/
  | check (u v : ℕ)
  | swap (u v : ℕ)
  /-- At `z = parents[u]`. -/
  | readZ (u v : ℕ)
  /-- At `w = parents[z]`. -/
  | readW (u v z : ℕ)
  /-- At the swap that makes `w` the parent of `u`. -/
  | split (u v z w : ℕ)
  | force (ret : Option ℕ) (pc : ForcePc find)

/-- Where `UniteEarly` goes on after its loop. -/
def EarlyPc.after (option : FindOption) (edge : ℕ × ℕ) (ret : Option ℕ) : EarlyPc option.find ⊕ Option ℕ :=
  if option = .naive then .inr ret else .inl (.force ret (.first (option.find.start edge.1)))

/-- `UniteEarly` -/
def uniteEarly (option : FindOption) : UniteVariant where
  Pc := EarlyPc option.find
  start edge := .test edge.1 edge.2
  access edge
    | .test u v, p => (if u ≠ v then .inl (.check (max u v) (min u v)) else EarlyPc.after option edge none, p)
    | .check u v, p => (.inl (if p u = u then .swap u v else .readZ u v), p)
    | .swap u v, p =>
      if p u = u then (EarlyPc.after option edge (some u), Function.update p u v) else (.inl (.readZ u v), p)
    | .readZ u v, p => (.inl (.readW u v (p u)), p)
    | .readW u v z, p => (.inl (.split u v z (p z)), p)
    | .split u v z w, p => (.inl (.test w v), compareAndSwap p u z w)
    | .force ret pc, p =>
      match pc.access edge p with
      | (some pc, p) => (.inl (.force ret pc), p)
      | (none, p) => (.inr ret, p)

section Early
variable {option : FindOption} {p : Parents}

theorem after_cases {edge : ℕ × ℕ} {ret : Option ℕ} {pc : EarlyPc option.find ⊕ Option ℕ}
    (after : EarlyPc.after option edge ret = pc) :
    pc = .inr ret ∨ pc = .inl (.force ret (.first (option.find.start edge.1))) := by
  unfold EarlyPc.after at after
  split at after
  · exact .inl after.symm
  · exact .inr after.symm

def uniteEarly_correct (option : FindOption) : (uniteEarly option).Correct where
  knows edge pc p :=
    match pc with
    | .test u v => Ends edge p u v
    | .check u v | .swap u v => Ends edge p u v ∧ v < u
    | .readZ u v => Ends edge p u v ∧ p u ≠ u
    | .readW u v z => Ends edge p u v ∧ Joined p z u ∧ z < u
    | .split u v z w => Ends edge p u v ∧ Joined p w u ∧ w ≤ z ∧ z < u
    | .force _ pc => Joined p edge.1 edge.2 ∧ forceKnows option.correct edge pc p
  hooked pc :=
    match pc with
    | .force ret _ => ret
    | _ => none
  left pc p :=
    match pc with
    | .test u v => toLex (u + v + 1, toLex (6, 0))
    | .check u v => toLex (u + v + 1, toLex (5, 0))
    | .swap u v => toLex (u + v + 1, toLex (4, 0))
    | .readZ u v => toLex (u + v + 1, toLex (3, 0))
    | .readW u v _ => toLex (u + v + 1, toLex (2, 0))
    | .split u v _ _ => toLex (u + v + 1, toLex (1, 0))
    | .force _ pc => toLex (0, forceLeft option.correct pc p)
  exact := True
  start edge p := ⟨.inl ⟨.refl _, .refl _⟩, rfl⟩
  next {edge pc p pc' p'} descending knows access := by
    cases pc with
    | test u v =>
      simp only [uniteEarly] at access
      split at access
      · cases access
        have sum : max u v + min u v + 1 ≤ u + v + 1 := by rw [max_add_min]
        exact ⟨.shortcut (.refl p 0 0), ⟨ends_max_min knows, min_lt_max.mpr ‹_›⟩, lex_lt sum (phase_lt (by decide))⟩
      · rename_i same
        obtain ⟨after, rfl⟩ := Prod.mk.inj access
        rcases after_cases after with returned | forced
        · cases returned
        · cases forced
          have joined : Joined p edge.1 edge.2 := Ends.joined knows (not_not.mp same ▸ .refl _)
          exact ⟨.shortcut (.refl p 0 0), ⟨joined, option.correct.start (.refl _)⟩, bound_lt (Nat.succ_pos _)⟩
    | check u v =>
      simp only [uniteEarly] at access
      split at access
      · cases access
        exact ⟨.shortcut (.refl p 0 0), knows, lex_lt (le_refl _) (phase_lt (by decide))⟩
      · cases access
        exact ⟨.shortcut (.refl p 0 0), ⟨knows.1, ‹_›⟩, lex_lt (le_refl _) (phase_lt (by decide))⟩
    | swap u v =>
      obtain ⟨ends, lower⟩ := knows
      simp only [uniteEarly] at access
      split at access
      · rename_i fixed
        obtain ⟨after, rfl⟩ := Prod.mk.inj access
        rcases after_cases after with returned | forced
        · cases returned
        · cases forced
          exact ⟨.hook fixed lower ends, ⟨ends.hooked descending fixed lower, option.correct.start (.refl _)⟩,
            bound_lt (Nat.succ_pos _)⟩
      · cases access
        exact ⟨.shortcut (.refl p 0 0), ⟨ends, ‹_›⟩, lex_lt (le_refl _) (phase_lt (by decide))⟩
    | readZ u v =>
      cases access
      obtain ⟨ends, child⟩ := knows
      exact ⟨.shortcut (.refl p 0 0), ⟨ends, joined_parent descending u, parent_lt descending child⟩,
        lex_lt (le_refl _) (phase_lt (by decide))⟩
    | readW u v z =>
      cases access
      obtain ⟨ends, joined, low⟩ := knows
      exact ⟨.shortcut (.refl p 0 0), ⟨ends, (joined_parent descending z).trans joined, descending z, low⟩,
        lex_lt (le_refl _) (phase_lt (by decide))⟩
    | split u v z w =>
      cases access
      obtain ⟨ends, joined, low, high⟩ := knows
      have shortcut : Shortcut p (compareAndSwap p u z w) 0 0 := shortcut_compareAndSwap p 0 0 (low.trans_lt high) joined low
      have ends' : Ends edge (compareAndSwap p u z w) w v := (ends.left joined).changes (shortcut.changes descending)
      have less : w + v + 1 < u + v + 1 := by omega
      exact ⟨.shortcut shortcut, ends', bound_lt less⟩
    | force ret pc =>
      obtain ⟨joined, known⟩ := knows
      have effect := force_effect option.correct descending known ret
      have changes := effect.changes descending
      cases accessed : pc.access edge p with
      | mk result p₁ =>
        rw [accessed] at effect changes
        cases result with
        | some pc₁ =>
          simp only [uniteEarly, accessed] at access
          cases access
          obtain ⟨knows', left⟩ := force_next option.correct descending known accessed
          exact ⟨effect, ⟨changes.joined joined, knows'⟩, lex_lt (le_refl _) left⟩
        | none =>
          simp only [uniteEarly, accessed] at access
          cases access
  returns {edge pc p result p'} descending knows access := by
    cases pc with
    | test u v =>
      simp only [uniteEarly] at access
      split at access
      · cases access
      · rename_i same
        obtain ⟨after, rfl⟩ := Prod.mk.inj access
        rcases after_cases after with returned | forced
        · cases returned
          exact ⟨none, .shortcut (.refl p 0 0), Ends.joined knows (not_not.mp same ▸ .refl _), fun _ => rfl⟩
        · cases forced
    | swap u v =>
      obtain ⟨ends, lower⟩ := knows
      simp only [uniteEarly] at access
      split at access
      · rename_i fixed
        obtain ⟨after, rfl⟩ := Prod.mk.inj access
        rcases after_cases after with returned | forced
        · cases returned
          exact ⟨some u, .hook fixed lower ends, ends.hooked descending fixed lower, fun _ => rfl⟩
        · cases forced
      · cases access
    | force ret pc =>
      obtain ⟨joined, known⟩ := knows
      have effect := force_effect option.correct descending known ret
      have changes := effect.changes descending
      cases accessed : pc.access edge p with
      | mk outcome p₁ =>
        rw [accessed] at effect changes
        cases outcome with
        | some pc₁ =>
          simp only [uniteEarly, accessed] at access
          cases access
        | none =>
          simp only [uniteEarly, accessed] at access
          cases access
          exact ⟨result, effect, changes.joined joined, fun _ => rfl⟩
    | _ => cases access
  stable {edge pc p p'} descending descending' changes knows := by
    cases pc with
    | test u v => exact ⟨Ends.changes knows changes, le_refl _⟩
    | check u v | swap u v => exact ⟨⟨knows.1.changes changes, knows.2⟩, le_refl _⟩
    | readZ u v => exact ⟨⟨knows.1.changes changes, changes.child knows.2⟩, le_refl _⟩
    | readW u v z | split u v z w => exact ⟨⟨knows.1.changes changes, changes.joined knows.2.1, knows.2.2⟩, le_refl _⟩
    | force ret pc =>
      obtain ⟨knows', left⟩ := force_stable option.correct descending descending' changes knows.2
      exact ⟨⟨changes.joined knows.1, knows'⟩, lex_le (le_refl _) left⟩

end Early

/-! ## UniteRemCAS -/

/-- The splice variants that stay in the tree of `u`; `splice_atomic` does not. -/
inductive SpliceOption where
  | splitAtomicOne
  | halveAtomicOne

inductive RemPc (find : Find) where
  /-- At the first read of `parents[rx] != parents[ry]`. -/
  | testX (rx ry : ℕ)
  | testY (rx ry px : ℕ)
  /-- At `p_ry = parents[ry]`. -/
  | readY (rx ry : ℕ)
  /-- At `p_rx = parents[rx]`, and the exchange of `rx` and `ry` that may follow. -/
  | readX (rx ry p_ry : ℕ)
  /-- At `rx == parents[rx]`. -/
  | check (rx ry p_ry : ℕ)
  | swap (rx ry p_ry : ℕ)
  /-- In the splice, at `v = parents[i]`. -/
  | spliceV (rx ry : ℕ)
  | spliceW (rx ry v : ℕ)
  | splice (rx ry v w : ℕ)
  | force (rx p_ry : ℕ) (pc : ForcePc find)

/-- Where `UniteRemCAS` goes on after its swap. -/
def RemPc.after (option : FindOption) (edge : ℕ × ℕ) (rx p_ry : ℕ) : RemPc option.find ⊕ Option ℕ :=
  if option = .naive then .inr (some rx) else .inl (.force rx p_ry (.first (option.find.start edge.1)))

/-- `UniteRemCAS` -/
def uniteRemCas (option : FindOption) (splice : SpliceOption) : UniteVariant where
  Pc := RemPc option.find
  start edge := .testX edge.1 edge.2
  access edge
    | .testX rx ry, p => (.inl (.testY rx ry (p rx)), p)
    | .testY rx ry px, p => (if px ≠ p ry then .inl (.readY rx ry) else .inr none, p)
    | .readY rx ry, p => (.inl (.readX rx ry (p ry)), p)
    | .readX rx ry p_ry, p => (.inl (if p rx < p_ry then .check ry rx (p rx) else .check rx ry p_ry), p)
    | .check rx ry p_ry, p => (.inl (if rx = p rx then .swap rx ry p_ry else .spliceV rx ry), p)
    | .swap rx ry p_ry, p =>
      if p rx = rx then (RemPc.after option edge rx p_ry, Function.update p rx p_ry) else (.inl (.spliceV rx ry), p)
    | .spliceV rx ry, p => (.inl (.spliceW rx ry (p rx)), p)
    | .spliceW rx ry v, p => (.inl (if v = p v then .testX v ry else .splice rx ry v (p v)), p)
    | .splice rx ry v w, p =>
      (.inl (.testX (match splice with | .splitAtomicOne => v | .halveAtomicOne => w) ry), compareAndSwap p rx v w)
    | .force rx p_ry pc, p =>
      match pc.access edge p with
      | (some pc, p) => (.inl (.force rx p_ry pc), p)
      | (none, p) => (.inr (some rx), p)

section Rem
variable {option : FindOption} {p : Parents} {edge : ℕ × ℕ} {rx ry p_ry : ℕ}

/-- The root that a swap with `p_ry` hooks: none when `rx` has meanwhile become the parent of `ry`. -/
def remHooked (rx p_ry : ℕ) : Option ℕ := if p_ry = rx then none else some rx

theorem rem_after_cases {pc : RemPc option.find ⊕ Option ℕ} (after : RemPc.after option edge rx p_ry = pc) :
    pc = .inr (some rx) ∨ pc = .inl (.force rx p_ry (.first (option.find.start edge.1))) := by
  unfold RemPc.after at after
  split at after
  · exact .inl after.symm
  · exact .inr after.symm

theorem rem_swap (descending : Descending p) (ends : Ends edge p rx ry) (joined : Joined p p_ry ry) (low : p_ry ≤ rx)
    (fixed : p rx = rx) :
    Effect edge none (remHooked rx p_ry) p (Function.update p rx p_ry) ∧ Joined (Function.update p rx p_ry) edge.1 edge.2 := by
  unfold remHooked
  split
  · rename_i same
    subst same
    have unchanged : Function.update p p_ry p_ry = p := by
      nth_rewrite 2 [← fixed]
      exact Function.update_eq_self p_ry p
    rw [unchanged]
    exact ⟨.shortcut (.refl p 0 0), ends.joined joined⟩
  · have lower : p_ry < rx := lt_of_le_of_ne low ‹_›
    have ends' := ends.right joined
    exact ⟨.hook fixed lower ends', ends'.hooked descending fixed lower⟩

/-- The swap of a root with its own number, after a find has made `rx` the parent of `ry`, makes this variant inexact. -/
def uniteRemCas_correct (option : FindOption) (splice : SpliceOption) : (uniteRemCas option splice).Correct where
  knows edge pc p :=
    match pc with
    | .testX rx ry | .readY rx ry => Ends edge p rx ry
    | .testY rx ry px => Ends edge p rx ry ∧ Joined p px rx
    | .readX rx ry p_ry => Ends edge p rx ry ∧ Joined p p_ry ry ∧ p_ry ≤ ry
    | .check rx ry p_ry | .swap rx ry p_ry => Ends edge p rx ry ∧ Joined p p_ry ry ∧ p_ry ≤ rx
    | .spliceV rx ry => Ends edge p rx ry ∧ p rx ≠ rx
    | .spliceW rx ry v => Ends edge p rx ry ∧ Joined p v rx ∧ v < rx
    | .splice rx ry v w => Ends edge p rx ry ∧ Joined p v rx ∧ Joined p w rx ∧ w < v ∧ v < rx
    | .force _ _ pc => Joined p edge.1 edge.2 ∧ forceKnows option.correct edge pc p
  hooked pc :=
    match pc with
    | .force rx p_ry _ => remHooked rx p_ry
    | _ => none
  left pc p :=
    match pc with
    | .testX rx ry => toLex (rx + ry + 1, toLex (9, 0))
    | .testY rx ry _ => toLex (rx + ry + 1, toLex (8, 0))
    | .readY rx ry => toLex (rx + ry + 1, toLex (7, 0))
    | .readX rx ry _ => toLex (rx + ry + 1, toLex (6, 0))
    | .check rx ry _ => toLex (rx + ry + 1, toLex (5, 0))
    | .swap rx ry _ => toLex (rx + ry + 1, toLex (4, 0))
    | .spliceV rx ry => toLex (rx + ry + 1, toLex (3, 0))
    | .spliceW rx ry _ => toLex (rx + ry + 1, toLex (2, 0))
    | .splice rx ry _ _ => toLex (rx + ry + 1, toLex (1, 0))
    | .force _ _ pc => toLex (0, forceLeft option.correct pc p)
  exact := False
  start edge p := ⟨.inl ⟨.refl _, .refl _⟩, rfl⟩
  next {edge pc p pc' p'} descending knows access := by
    cases pc with
    | testX rx ry =>
      cases access
      exact ⟨.shortcut (.refl p 0 0), ⟨knows, joined_parent descending rx⟩, lex_lt (le_refl _) (phase_lt (by decide))⟩
    | testY rx ry px =>
      simp only [uniteRemCas] at access
      split at access
      · cases access
        exact ⟨.shortcut (.refl p 0 0), knows.1, lex_lt (le_refl _) (phase_lt (by decide))⟩
      · cases access
    | readY rx ry =>
      cases access
      exact ⟨.shortcut (.refl p 0 0), ⟨knows, joined_parent descending ry, descending ry⟩,
        lex_lt (le_refl _) (phase_lt (by decide))⟩
    | readX rx ry p_ry =>
      obtain ⟨ends, joined, low⟩ := knows
      simp only [uniteRemCas] at access
      split at access
      · rename_i less
        cases access
        exact ⟨.shortcut (.refl p 0 0), ⟨ends.swap, joined_parent descending rx, less.le.trans low⟩,
          lex_lt (Nat.add_comm ry rx ▸ le_refl _) (phase_lt (by decide))⟩
      · rename_i above
        cases access
        exact ⟨.shortcut (.refl p 0 0), ⟨ends, joined, (not_lt.mp above).trans (descending rx)⟩,
          lex_lt (le_refl _) (phase_lt (by decide))⟩
    | check rx ry p_ry =>
      simp only [uniteRemCas] at access
      split at access
      · cases access
        exact ⟨.shortcut (.refl p 0 0), knows, lex_lt (le_refl _) (phase_lt (by decide))⟩
      · cases access
        exact ⟨.shortcut (.refl p 0 0), ⟨knows.1, Ne.symm ‹_›⟩, lex_lt (le_refl _) (phase_lt (by decide))⟩
    | swap rx ry p_ry =>
      obtain ⟨ends, joined, low⟩ := knows
      simp only [uniteRemCas] at access
      split at access
      · rename_i fixed
        obtain ⟨after, rfl⟩ := Prod.mk.inj access
        rcases rem_after_cases after with returned | forced
        · cases returned
        · cases forced
          obtain ⟨effect, united⟩ := rem_swap descending ends joined low fixed
          exact ⟨effect, ⟨united, option.correct.start (.refl _)⟩, bound_lt (Nat.succ_pos _)⟩
      · cases access
        exact ⟨.shortcut (.refl p 0 0), ⟨ends, ‹_›⟩, lex_lt (le_refl _) (phase_lt (by decide))⟩
    | spliceV rx ry =>
      cases access
      obtain ⟨ends, child⟩ := knows
      exact ⟨.shortcut (.refl p 0 0), ⟨ends, joined_parent descending rx, parent_lt descending child⟩,
        lex_lt (le_refl _) (phase_lt (by decide))⟩
    | spliceW rx ry v =>
      obtain ⟨ends, joined, low⟩ := knows
      simp only [uniteRemCas] at access
      split at access
      · cases access
        have less : v + ry + 1 < rx + ry + 1 := by omega
        exact ⟨.shortcut (.refl p 0 0), ends.left joined, bound_lt less⟩
      · cases access
        exact ⟨.shortcut (.refl p 0 0),
          ⟨ends, joined, (joined_parent descending v).trans joined, parent_lt descending (Ne.symm ‹_›), low⟩,
          lex_lt (le_refl _) (phase_lt (by decide))⟩
    | splice rx ry v w =>
      cases access
      obtain ⟨ends, joined, joined', low, high⟩ := knows
      have shortcut : Shortcut p (compareAndSwap p rx v w) 0 0 :=
        shortcut_compareAndSwap p 0 0 (low.trans high) joined' low.le
      have changes := shortcut.changes descending
      cases splice with
      | splitAtomicOne =>
        have less : v + ry + 1 < rx + ry + 1 := by omega
        exact ⟨.shortcut shortcut, (ends.left joined).changes changes, bound_lt less⟩
      | halveAtomicOne =>
        have less : w + ry + 1 < rx + ry + 1 := by omega
        exact ⟨.shortcut shortcut, (ends.left joined').changes changes, bound_lt less⟩
    | force rx p_ry pc =>
      obtain ⟨joined, known⟩ := knows
      have effect := force_effect option.correct descending known (remHooked rx p_ry)
      have changes := effect.changes descending
      cases accessed : pc.access edge p with
      | mk result p₁ =>
        rw [accessed] at effect changes
        cases result with
        | some pc₁ =>
          simp only [uniteRemCas, accessed] at access
          cases access
          obtain ⟨knows', left⟩ := force_next option.correct descending known accessed
          exact ⟨effect, ⟨changes.joined joined, knows'⟩, lex_lt (le_refl _) left⟩
        | none =>
          simp only [uniteRemCas, accessed] at access
          cases access
  returns {edge pc p result p'} descending knows access := by
    cases pc with
    | testY rx ry px =>
      obtain ⟨ends, joined⟩ := knows
      simp only [uniteRemCas] at access
      split at access
      · cases access
      · rename_i same
        cases access
        have met : Joined p rx ry := joined.symm.trans (not_not.mp same ▸ joined_parent descending ry)
        exact ⟨none, .shortcut (.refl p 0 0), ends.joined met, False.elim⟩
    | swap rx ry p_ry =>
      obtain ⟨ends, joined, low⟩ := knows
      simp only [uniteRemCas] at access
      split at access
      · rename_i fixed
        obtain ⟨after, rfl⟩ := Prod.mk.inj access
        rcases rem_after_cases after with returned | forced
        · cases returned
          obtain ⟨effect, united⟩ := rem_swap descending ends joined low fixed
          exact ⟨remHooked rx p_ry, effect, united, False.elim⟩
        · cases forced
      · cases access
    | force rx p_ry pc =>
      obtain ⟨joined, known⟩ := knows
      have effect := force_effect option.correct descending known (remHooked rx p_ry)
      have changes := effect.changes descending
      cases accessed : pc.access edge p with
      | mk outcome p₁ =>
        rw [accessed] at effect changes
        cases outcome with
        | some pc₁ =>
          simp only [uniteRemCas, accessed] at access
          cases access
        | none =>
          simp only [uniteRemCas, accessed] at access
          cases access
          exact ⟨remHooked rx p_ry, effect, changes.joined joined, False.elim⟩
    | _ => cases access
  stable {edge pc p p'} descending descending' changes knows := by
    cases pc with
    | testX rx ry | readY rx ry => exact ⟨Ends.changes knows changes, le_refl _⟩
    | testY rx ry px => exact ⟨⟨knows.1.changes changes, changes.joined knows.2⟩, le_refl _⟩
    | readX rx ry p_ry | check rx ry p_ry | swap rx ry p_ry | spliceW rx ry v =>
      exact ⟨⟨knows.1.changes changes, changes.joined knows.2.1, knows.2.2⟩, le_refl _⟩
    | spliceV rx ry => exact ⟨⟨knows.1.changes changes, changes.child knows.2⟩, le_refl _⟩
    | splice rx ry v w =>
      obtain ⟨ends, joined, joined', order⟩ := knows
      exact ⟨⟨ends.changes changes, changes.joined joined, changes.joined joined', order⟩, le_refl _⟩
    | force rx p_ry pc =>
      obtain ⟨knows', left⟩ := force_stable option.correct descending descending' changes knows.2
      exact ⟨⟨changes.joined knows.1, knows'⟩, lex_le (le_refl _) left⟩

end Rem

/-- The variants of `UniteOption` that keep to the parents; `unite_rem_lock` and `unite_nd` have memory of their own. -/
inductive UniteOption where
  | unite
  | uniteEarly
  | uniteRemCas (splice : SpliceOption)

def UniteOption.variant (find : FindOption) : UniteOption → UniteVariant
  | unite => Connectivity.unite find.find
  | uniteEarly => Connectivity.uniteEarly find
  | uniteRemCas splice => Connectivity.uniteRemCas find splice

def UniteOption.correct (find : FindOption) : ∀ option : UniteOption, (option.variant find).Correct
  | unite => unite_correct find.correct
  | uniteEarly => uniteEarly_correct find
  | uniteRemCas splice => uniteRemCas_correct find splice

end CilkArtifact.Connectivity
