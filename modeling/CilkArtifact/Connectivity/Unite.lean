import CilkArtifact.Connectivity.Find
import CilkArtifact.Library.Threads

/-! Concurrent unions of edges by any of the unite variants: in every interleaving the parents stay a forest that connects
no more than the edges do, and when all have returned it connects what they do. -/
namespace CilkArtifact.Connectivity
open Forest Threads Components

/-- A unite variant: where it is between two accesses to the parents when it unites an edge, and what an access does; it
goes on from there or returns the root that it has hooked, with `none` for `UINT_E_MAX`. -/
structure UniteVariant where
  Pc : Type
  start : ℕ × ℕ → Pc
  access : ℕ × ℕ → Pc → Parents → (Pc ⊕ Option ℕ) × Parents

/-- A thread that unites an edge, until it has returned. -/
def UniteVariant.step (variant : UniteVariant) (edge : ℕ × ℕ) :
    variant.Pc ⊕ Option ℕ → Parents → Option ((variant.Pc ⊕ Option ℕ) × Parents)
  | .inl pc, p => some (variant.access edge pc p)
  | .inr _, _ => none

/-- Two nodes are in the trees of the two ends of the edge. -/
def Ends (edge : ℕ × ℕ) (p : Parents) (u v : ℕ) : Prop :=
  Joined p u edge.1 ∧ Joined p v edge.2 ∨ Joined p u edge.2 ∧ Joined p v edge.1

/-- What an access does to the trees: nothing, or it hooks a root and so makes one tree of those of the edge. -/
inductive Effect (edge : ℕ × ℕ) : Option ℕ → Option ℕ → Parents → Parents → Prop
  | shortcut {hooked p p' x bound} (shortcut : Shortcut p p' x bound) : Effect edge hooked hooked p p'
  | hook {p u v} (fixed : p u = u) (lower : v < u) (ends : Ends edge p u v) :
      Effect edge none (some u) p (Function.update p u v)

/-- What a union knows between two accesses, which root it has hooked, and how far it is from its end. An exact variant
returns the root that it has hooked. -/
structure UniteVariant.Correct (variant : UniteVariant) where
  knows : ℕ × ℕ → variant.Pc → Parents → Prop
  hooked : variant.Pc → Option ℕ
  left : variant.Pc → Parents → ℕ ×ₗ ℕ ×ₗ ℕ
  exact : Prop
  start : ∀ edge p, knows edge (variant.start edge) p ∧ hooked (variant.start edge) = none
  next : ∀ {edge pc p pc' p'}, Descending p → knows edge pc p → variant.access edge pc p = (.inl pc', p') →
    Effect edge (hooked pc) (hooked pc') p p' ∧ knows edge pc' p' ∧ left pc' p' < left pc p
  returns : ∀ {edge pc p result p'}, Descending p → knows edge pc p → variant.access edge pc p = (.inr result, p') →
    ∃ root, Effect edge (hooked pc) root p p' ∧ Joined p' edge.1 edge.2 ∧ (exact → result = root)
  stable : ∀ {edge pc p p'}, Descending p → Descending p' → Changes p p' → knows edge pc p →
    knows edge pc p' ∧ left pc p' ≤ left pc p

section Ends
variable {edge : ℕ × ℕ} {p p' : Parents} {u v w : ℕ}

theorem Ends.swap (ends : Ends edge p u v) : Ends edge p v u := by
  rcases ends with ⟨first, second⟩ | ⟨first, second⟩
  · exact .inr ⟨second, first⟩
  · exact .inl ⟨second, first⟩

theorem Ends.changes (ends : Ends edge p u v) (changes : Changes p p') : Ends edge p' u v := by
  rcases ends with ⟨first, second⟩ | ⟨first, second⟩
  · exact .inl ⟨changes.joined first, changes.joined second⟩
  · exact .inr ⟨changes.joined first, changes.joined second⟩

theorem Ends.left (ends : Ends edge p u v) (joined : Joined p w u) : Ends edge p w v := by
  rcases ends with ⟨first, second⟩ | ⟨first, second⟩
  · exact .inl ⟨joined.trans first, second⟩
  · exact .inr ⟨joined.trans first, second⟩

theorem Ends.right (ends : Ends edge p u v) (joined : Joined p w v) : Ends edge p u w := (ends.swap.left joined).swap

/-- When the nodes are in one tree, so are the ends. -/
theorem Ends.joined (ends : Ends edge p u v) (joined : Joined p u v) : Joined p edge.1 edge.2 := by
  rcases ends with ⟨first, second⟩ | ⟨first, second⟩
  · exact first.symm.trans (joined.trans second)
  · exact second.symm.trans (joined.symm.trans first)

theorem Ends.hooked (ends : Ends edge p u v) (descending : Descending p) (fixed : p u = u) (lower : v < u) :
    Joined (Function.update p u v) edge.1 edge.2 := by
  refine (ends.changes (changes_hook descending fixed lower)).joined ?_
  exact (joined_hook descending fixed lower).mpr (.inr (.inl ⟨.refl u, .refl v⟩))

end Ends

section Effect
variable {edge : ℕ × ℕ} {hooked hooked' : Option ℕ} {p p' : Parents}

theorem Effect.descending (effect : Effect edge hooked hooked' p p') (descending : Descending p) : Descending p' := by
  cases effect with
  | shortcut shortcut => exact shortcut.descending descending
  | hook fixed lower ends => exact descending_update descending lower.le

theorem Effect.changes (effect : Effect edge hooked hooked' p p') (descending : Descending p) : Changes p p' := by
  cases effect with
  | shortcut shortcut => exact shortcut.changes descending
  | hook fixed lower ends => exact changes_hook descending fixed lower

/-- The forest connects no more than an equivalence that relates the ends of the edge. -/
theorem Effect.within {r : ℕ → ℕ → Prop} (effect : Effect edge hooked hooked' p p') (descending : Descending p)
    (equivalence : Equivalence r) (related : r edge.1 edge.2) (within : ∀ a b, Joined p a b → r a b) :
    ∀ a b, Joined p' a b → r a b := by
  intro a b joined
  cases effect with
  | shortcut shortcut =>
    rw [Forest.Joined, shortcut.root_eq descending, shortcut.root_eq descending] at joined
    exact within a b joined
  | @hook _ u v fixed lower ends =>
    have across : r u v := by
      rcases ends with ⟨first, second⟩ | ⟨first, second⟩
      · exact equivalence.trans (within _ _ first) (equivalence.trans related (equivalence.symm (within _ _ second)))
      · exact equivalence.symm
          (equivalence.trans (within _ _ second) (equivalence.trans related (equivalence.symm (within _ _ first))))
    rcases (joined_hook descending fixed lower).mp joined with same | ⟨left, right⟩ | ⟨left, right⟩
    · exact within a b same
    · exact equivalence.trans (within _ _ left) (equivalence.trans across (within _ _ right))
    · exact equivalence.trans (within _ _ left) (equivalence.trans (equivalence.symm across) (within _ _ right))

end Effect

/-! ## Runs -/

section Runs
variable {ι : Type*} {variant : UniteVariant} (correct : variant.Correct) {edge : ℕ × ℕ} {edges : ι → ℕ × ℕ} {p p' : Parents}

/-- What the thread of an edge knows: the edge is united when it has returned. -/
def threadKnows (edge : ℕ × ℕ) (pc : variant.Pc ⊕ Option ℕ) (p : Parents) : Prop :=
  match pc with
  | .inl pc => correct.knows edge pc p
  | .inr _ => Joined p edge.1 edge.2

def threadLeft (pc : variant.Pc ⊕ Option ℕ) (p : Parents) : ℕ ×ₗ ℕ ×ₗ ℕ ×ₗ ℕ :=
  match pc with
  | .inl pc => toLex (1, correct.left pc p)
  | .inr _ => toLex (0, 0)

theorem thread_accessed {pc pc' : variant.Pc ⊕ Option ℕ} (descending : Descending p) (knows : threadKnows correct edge pc p)
    (access : variant.step edge pc p = some (pc', p')) :
    (∃ hooked hooked', Effect edge hooked hooked' p p') ∧ threadKnows correct edge pc' p' ∧
      threadLeft correct pc' p' < threadLeft correct pc p := by
  cases pc with
  | inr result => cases access
  | inl pc =>
    have accessed : variant.access edge pc p = (pc', p') := Option.some.inj access
    cases pc' with
    | inl pc₁ =>
      obtain ⟨effect, knows', left⟩ := correct.next descending knows accessed
      exact ⟨⟨_, _, effect⟩, knows', Prod.Lex.toLex_lt_toLex.mpr (.inr ⟨rfl, left⟩)⟩
    | inr result =>
      obtain ⟨root, effect, joined, -⟩ := correct.returns descending knows accessed
      exact ⟨⟨_, _, effect⟩, joined, Prod.Lex.toLex_lt_toLex.mpr (.inl Nat.zero_lt_one)⟩

theorem thread_stable {pc : variant.Pc ⊕ Option ℕ} (descending : Descending p) (descending' : Descending p')
    (changes : Changes p p') (knows : threadKnows correct edge pc p) :
    threadKnows correct edge pc p' ∧ threadLeft correct pc p' ≤ threadLeft correct pc p := by
  cases pc with
  | inl pc =>
    obtain ⟨knows', left⟩ := correct.stable descending descending' changes knows
    exact ⟨knows', Prod.Lex.toLex_le_toLex.mpr (.inr ⟨rfl, left⟩)⟩
  | inr result => exact ⟨changes.joined knows, le_refl _⟩

/-- Parents are not above their children, and trees connect only what is related. -/
structure Sound (r : ℕ → ℕ → Prop) (p : Parents) : Prop where
  descending : Descending p
  within : ∀ a b, Joined p a b → r a b

theorem unite_relyGuarantee {r : ℕ → ℕ → Prop} (equivalence : Equivalence r) (related : ∀ i, r (edges i).1 (edges i).2) :
    RelyGuarantee (fun i => variant.step (edges i)) (Sound r) Changes fun i => threadKnows correct (edges i) where
  access {i pc p pc' p'} sound knows access := by
    obtain ⟨⟨_, _, effect⟩, knows', -⟩ := thread_accessed correct sound.descending knows access
    have sound' : Sound r p' :=
      ⟨effect.descending sound.descending, effect.within sound.descending equivalence (related i) sound.within⟩
    exact ⟨sound', effect.changes sound.descending, knows'⟩
  stable sound sound' knows changes := (thread_stable correct sound.descending sound'.descending changes knows).1

/-- A thread for each edge. That the edges of one vertex are taken one after another only leaves out runs. -/
def startUnites (variant : UniteVariant) (edges : ι → ℕ × ℕ) (p : Parents) :
    State Parents fun _ : ι => variant.Pc ⊕ Option ℕ :=
  ⟨p, fun i => .inl (variant.start (edges i))⟩

/-- The components of the edges, over the trees that are there already. -/
abbrev Component (p : Parents) (edges : ι → ℕ × ℕ) : ℕ → ℕ → Prop := Linked (Forest.Joined p) edges Set.univ

theorem startUnites_safe (descending : Descending p) :
    Safe (Sound (Component p edges)) (fun i => threadKnows correct (edges i)) (startUnites variant edges p) :=
  ⟨⟨descending, fun _ _ joined => .rel _ _ (.inl joined)⟩, fun i => (correct.start (edges i) p).1⟩

theorem returned_of_none {pc : variant.Pc ⊕ Option ℕ} (stopped : variant.step edge pc p = none) :
    ∃ result, pc = .inr result := by
  cases pc with
  | inl pc => cases stopped
  | inr result => exact ⟨result, rfl⟩

variable [DecidableEq ι]

theorem unites_run (descending : Descending p) {s : State Parents fun _ : ι => variant.Pc ⊕ Option ℕ}
    (run : Relation.ReflTransGen (Steps fun i => variant.step (edges i)) (startUnites variant edges p) s) :
    Safe (Sound (Component p edges)) (fun i => threadKnows correct (edges i)) s ∧ Changes p s.memory := by
  have related (i : ι) : Component p edges (edges i).1 (edges i).2 := linked_edge (Set.mem_univ i)
  have keeps := unite_relyGuarantee correct (linked_equivalence (S := Set.univ)) related
  induction run with
  | refl => exact ⟨startUnites_safe correct descending, .refl p⟩
  | tail _ last ih =>
    obtain ⟨safe, changes⟩ := ih
    obtain ⟨safe', changes'⟩ := keeps.steps last safe
    exact ⟨safe', changes.trans changes'⟩

/-- When all have returned, the trees are the components. -/
theorem unites_components (correct : variant.Correct) (descending : Descending p)
    {s : State Parents fun _ : ι => variant.Pc ⊕ Option ℕ}
    (run : Relation.ReflTransGen (Steps fun i => variant.step (edges i)) (startUnites variant edges p) s)
    (ended : Ended (fun i => variant.step (edges i)) s) {a b : ℕ} :
    Forest.Joined s.memory a b ↔ Component p edges a b := by
  obtain ⟨safe, changes⟩ := unites_run correct descending run
  refine ⟨safe.memory.within a b, linked_le (joined_equivalence _) (fun joined => changes.joined joined) (fun i _ => ?_)⟩
  obtain ⟨result, returned⟩ := returned_of_none (ended i)
  have known := safe.locals i
  rwa [returned] at known

end Runs

end CilkArtifact.Connectivity
