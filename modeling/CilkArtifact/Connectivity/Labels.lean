import CilkArtifact.Connectivity.SpanningForest

/-! The labels that the connectivity algorithms leave once the unions have returned: every vertex gets the least vertex of
its component, while the finds of all vertices still shorten each other's paths. -/
namespace CilkArtifact.Connectivity
open Forest Threads Components

/-- `parents[i] = find(i, parents)`, between two accesses. -/
inductive LabelPc (find : Find) where
  | find (pc : find.Pc)
  | write (j : ℕ)
  | done

def label (find : Find) (i : ℕ) : LabelPc find → Parents → Option (LabelPc find × Parents)
  | .find pc, p =>
    match find.access pc p with
    | (.inl pc, p) => some (.find pc, p)
    | (.inr j, p) => some (.write j, p)
  | .write j, p => some (.done, Function.update p i j)
  | .done, _ => none

/-- The second phase of `SimpleUnionAsync`, which leaves the labels to the writes of `find_compress`. -/
inductive FinishPc where
  | find (pc : CompressPc)
  | done

def finish : FinishPc → Parents → Option (FinishPc × Parents)
  | .find pc, p =>
    match findCompress.access pc p with
    | (.inl pc, p) => some (.find pc, p)
    | (.inr _, p) => some (.done, p)
  | .done, _ => none

def startFinish (n : ℕ) (p : Parents) : State Parents fun _ : Fin n => FinishPc :=
  ⟨p, fun i => .find (findCompress.start i)⟩

section Settled
variable {find : Find} (correct : find.Correct) {p₀ p p' : Parents} {x : ℕ}

/-- The parent of the vertex is its root. -/
def Settled (p : Parents) (v : ℕ) : Prop := p v = root p v

/-- The trees are those of `p₀`. -/
structure Fixed (p₀ p : Parents) : Prop where
  descending : Descending p
  roots : ∀ v, root p v = root p₀ v

/-- What happens while no root is hooked: settled vertices stay settled. -/
structure Settles (p p' : Parents) : Prop where
  changes : Changes p p'
  settled : ∀ {v}, Settled p v → Settled p' v

theorem Fixed.same (fixed : Fixed p₀ p) (fixed' : Fixed p₀ p') (v : ℕ) : root p' v = root p v :=
  (fixed'.roots v).trans (fixed.roots v).symm

theorem fixed_shortcut {bound : ℕ} (fixed : Fixed p₀ p) (shortcut : Shortcut p p' x bound) : Fixed p₀ p' :=
  ⟨shortcut.descending fixed.descending, fun v => (shortcut.root_eq fixed.descending v).trans (fixed.roots v)⟩

/-- In a tree nothing is below the root. -/
theorem eq_root_of_le {j v : ℕ} (descending : Descending p) (joined : Joined p j v) (low : j ≤ root p v) : j = root p v := by
  refine le_antisymm low ?_
  rw [← show root p j = root p v from joined]
  exact root_le descending j

theorem settles_shortcut {bound : ℕ} (descending : Descending p) (shortcut : Shortcut p p' x bound) (low : bound ≤ root p x) :
    Settles p p' := by
  refine ⟨shortcut.changes descending, fun {v} settled => ?_⟩
  have same := shortcut.root_eq descending v
  rw [Settled, same]
  rcases shortcut with rfl | ⟨i, j, lower, joined, height, rfl⟩
  · exact settled
  · by_cases here : v = i
    · subst here
      rw [Function.update_self]
      refine eq_root_of_le descending joined ?_
      rcases height with below | ⟨tree, below⟩
      · exact below.trans settled.le
      · rw [show root p v = root p x from tree]
        exact below.trans low
    · rwa [Function.update_of_ne here]

end Settled

section Compress
variable {p₀ p p' : Parents} {i : ℕ}

/-- What the thread of vertex `i` knows beyond what every `find_compress` does: once it has left the vertex, that has its
root for its parent. -/
def compressKnows (i : ℕ) (pc : CompressPc) (p : Parents) : Prop :=
  match pc with
  | .first k | .up k _ | .test k _ => k = i
  | .read k _ | .write k _ _ => k = i ∨ Settled p i

def finishKnows (i : ℕ) (pc : FinishPc) (p : Parents) : Prop :=
  match pc with
  | .find pc => findCompress_correct.knows i pc p ∧ findCompress_correct.bound pc p ≤ root p i ∧ compressKnows i pc p
  | .done => Settled p i

def finishLeft (pc : FinishPc) (p : Parents) : ℕ ×ₗ ℕ :=
  match pc with
  | .find pc => toLex (1, findCompress_correct.left pc p)
  | .done => toLex (0, 0)

theorem compress_next {pc pc' : CompressPc} (fixed : Fixed p₀ p) (knows : finishKnows i (.find pc) p)
    (access : findCompress.access pc p = (.inl pc', p')) : compressKnows i pc' p' := by
  obtain ⟨known, low, own⟩ := knows
  cases pc with
  | first k =>
    simp only [findCompress] at access
    split at access
    · cases access
    · cases access
      exact own
  | up k j =>
    cases access
    exact own
  | test k j =>
    simp only [findCompress] at access
    split at access
    · cases access
      exact own
    · cases access
      exact .inl own
  | read k j =>
    simp only [findCompress] at access
    split at access
    · cases access
      exact own
    · cases access
  | write k j tmp =>
    have shortcut := findCompress_correct.shortcut fixed.descending known
    rw [access] at shortcut
    have settles := settles_shortcut fixed.descending shortcut low
    have same := shortcut.root_eq fixed.descending i
    cases access
    refine .inr ?_
    rcases own with rfl | settled
    · rw [Settled, same, Function.update_self]
      exact eq_root_of_le fixed.descending known.2.1 low
    · exact settles.settled settled

theorem compress_returns {pc : CompressPc} {j : ℕ} (fixed : Fixed p₀ p) (knows : finishKnows i (.find pc) p)
    (access : findCompress.access pc p = (.inr j, p')) : Settled p' i := by
  obtain ⟨known, low, own⟩ := knows
  cases pc with
  | first k =>
    simp only [findCompress] at access
    split at access
    · rename_i top
      cases access
      rw [← own, Settled, root_of_fixed top, top]
    · cases access
  | read k j =>
    simp only [findCompress] at access
    split at access
    · cases access
    · rename_i height
      cases access
      rcases own with rfl | settled
      · exact eq_root_of_le fixed.descending (joined_parent fixed.descending k) ((not_lt.mp height).trans low)
      · exact settled
  | _ => cases access

theorem finish_accessed {pc pc' : FinishPc} (fixed : Fixed p₀ p) (knows : finishKnows i pc p)
    (access : finish pc p = some (pc', p')) :
    Fixed p₀ p' ∧ Settles p p' ∧ finishKnows i pc' p' ∧ finishLeft pc' p' < finishLeft pc p := by
  have descending := fixed.descending
  cases pc with
  | find pc =>
    obtain ⟨known, low, own⟩ := id knows
    have shortcut := findCompress_correct.shortcut descending known
    cases accessed : findCompress.access pc p with
    | mk result p₁ =>
      rw [accessed] at shortcut
      have same := shortcut.root_eq descending i
      cases result with
      | inl pc₁ =>
        simp only [finish, accessed] at access
        cases access
        obtain ⟨known', bound, left⟩ := findCompress_correct.next descending known accessed
        exact ⟨fixed_shortcut fixed shortcut, settles_shortcut descending shortcut low,
          ⟨known', same ▸ bound.trans low, compress_next fixed knows accessed⟩, within_phase_lt left⟩
      | inr j =>
        simp only [finish, accessed] at access
        cases access
        exact ⟨fixed_shortcut fixed shortcut, settles_shortcut descending shortcut low,
          compress_returns fixed knows accessed, phase_lt (by decide)⟩
  | done => cases access

theorem finish_stable {pc : FinishPc} (fixed : Fixed p₀ p) (fixed' : Fixed p₀ p') (settles : Settles p p')
    (knows : finishKnows i pc p) : finishKnows i pc p' ∧ finishLeft pc p' ≤ finishLeft pc p := by
  have same := fixed.same fixed' i
  cases pc with
  | find pc =>
    obtain ⟨known, low, own⟩ := knows
    obtain ⟨known', bound, left⟩ := findCompress_correct.stable fixed.descending fixed'.descending settles.changes known
    have own' : compressKnows i pc p' := by
      cases pc with
      | first k | up k j | test k j => exact own
      | read k j | write k j tmp => exact own.imp_right settles.settled
    exact ⟨⟨known', same ▸ bound.trans low, own'⟩, within_phase_le left⟩
  | done => exact ⟨settles.settled knows, le_refl _⟩

theorem finish_relyGuarantee (p₀ : Parents) (n : ℕ) :
    RelyGuarantee (fun _ : Fin n => finish) (Fixed p₀) Settles fun i => finishKnows i where
  access fixed knows access :=
    have ⟨fixed', settles, knows', _⟩ := finish_accessed fixed knows access
    ⟨fixed', settles, knows'⟩
  stable fixed fixed' knows settles := (finish_stable fixed fixed' settles knows).1

theorem startFinish_safe (descending : Descending p) (n : ℕ) :
    Safe (Fixed p) (fun i : Fin n => finishKnows i) (startFinish n p) :=
  ⟨⟨descending, fun _ => rfl⟩,
    fun i => ⟨findCompress_correct.start (.refl _), findCompress_correct.start_bound i p, rfl⟩⟩

end Compress

/-! ## The algorithms -/

section Components
variable {ι : Type*} [DecidableEq ι] {edges : ι → ℕ × ℕ} {n : ℕ}

theorem joined_id : Forest.Joined id = Eq := by
  ext a b
  rw [Forest.Joined, root_of_fixed rfl, root_of_fixed rfl]

/-- The root of a tree is the least vertex of its component when the trees are the components. -/
theorem isLeast_root {r : ℕ → ℕ → Prop} {p : Parents} (descending : Descending p)
    (joined : ∀ a b, Forest.Joined p a b ↔ r a b) (v : ℕ) : IsLeast {a | r a v} (root p v) := by
  refine ⟨(joined _ _).mp (joined_root descending v), fun a related => ?_⟩
  rw [← show root p a = root p v from (joined a v).mpr related]
  exact root_le descending a

theorem finish_ended {pc : FinishPc} {p : Parents} (stopped : finish pc p = none) : pc = .done := by
  cases pc with
  | find pc =>
    simp only [finish] at stopped
    split at stopped <;> cases stopped
  | done => rfl

def pathEdges : Fin 2 → ℕ × ℕ := ![(2, 1), (1, 0)]

/-- The unions of a path, whose threads take turns. -/
def pathUnites (variant : UniteVariant) : State Parents fun _ : Fin 2 => variant.Pc ⊕ Option ℕ :=
  (List.replicate 12 [0, 1]).flatten.foldl (take fun i : Fin 2 => variant.step (pathEdges i)) (startUnites variant pathEdges id)

/-- So it is after `SimpleUnionAsync`, which does not write the labels down. -/
theorem simpleUnionAsync_least {s : State Parents fun _ : ι => (unite findCompress).Pc ⊕ Option ℕ}
    (unions : Relation.ReflTransGen (Steps fun i => (unite findCompress).step (edges i))
      (startUnites (unite findCompress) edges id) s)
    (united : Ended (fun i => (unite findCompress).step (edges i)) s) {t : State Parents fun _ : Fin n => FinishPc}
    (finished : Relation.ReflTransGen (Steps fun _ : Fin n => finish) (startFinish n s.memory) t)
    (ended : Ended (fun _ : Fin n => finish) t) (v : Fin n) :
    IsLeast {a | Linked Eq edges Set.univ a v} (t.memory v) := by
  have correct := unite_correct findCompress_correct
  have descending := (unites_run correct descending_id unions).1.memory.descending
  have components (a b : ℕ) : Forest.Joined s.memory a b ↔ Component id edges a b :=
    unites_components correct descending_id unions united
  have safe := (finish_relyGuarantee s.memory n).run finished (startFinish_safe descending n)
  have settled := safe.locals v
  rw [finish_ended (ended v)] at settled
  have least := isLeast_root descending components v.val
  rwa [Component, joined_id, ← safe.memory.roots, ← show t.memory v = root t.memory v from settled] at least

set_option maxRecDepth 4000 in
theorem simpleUnionAsync_least_path :
    IsLeast {a | Linked Eq pathEdges Set.univ a 2}
      (((List.replicate 14 [2, 1, 0]).flatten.foldl (take fun _ : Fin 3 => finish)
        (startFinish 3 (pathUnites (unite findCompress)).memory)).memory 2) :=
  simpleUnionAsync_least (ι := Fin 2) (take_run _ _) (fun i => by fin_cases i <;> rfl) (take_run _ _)
    (fun i => by fin_cases i <;> rfl) 2

end Components

end CilkArtifact.Connectivity
