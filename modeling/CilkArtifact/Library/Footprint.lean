import Mathlib

/-! Programs on a shared state: the cells that one reads and writes, and two that can change places. A state is seen
through its cells, `view s a` being all there is to cell `a`. -/
namespace CilkArtifact
variable {σ ι γ : Type} {view : σ → ι → γ} {s s₁ s₂ : σ} {S T W V : Set ι}

/-- From every state with the cells of `s` on `S`, whatever its other cells are, the program succeeds; it leaves the
cells of `s'` on `W` and changes no others. -/
def Footprint (view : σ → ι → γ) (program : σ → Option σ) (S W : Set ι) (s s' : σ) : Prop :=
  ∀ t, (∀ a ∈ S, view t a = view s a) →
    ∃ t', program t = some t' ∧ (∀ a ∈ W, view t' a = view s' a) ∧ ∀ a ∉ W, view t' a = view t a

/-- Two programs, neither of which touches what the other one writes, in either order. -/
theorem Footprint.either_order {p q : σ → Option σ} (ofP : Footprint view p S W s s₁) (ofQ : Footprint view q T V s s₂)
    (readQ : Disjoint W T) (readP : Disjoint V S) (writes : Disjoint W V) :
    ∃ t t', (p s).bind q = some t ∧ (q s).bind p = some t' ∧ ∀ a, view t a = view t' a := by
  obtain ⟨p₁, runP, madeP, keptP⟩ := ofP s fun _ _ => rfl
  obtain ⟨q₁, runQ, madeQ, keptQ⟩ := ofQ s fun _ _ => rfl
  obtain ⟨t, runPQ, madePQ, keptPQ⟩ := ofQ p₁ fun a member => keptP a (Set.disjoint_right.mp readQ member)
  obtain ⟨t', runQP, madeQP, keptQP⟩ := ofP q₁ fun a member => keptQ a (Set.disjoint_right.mp readP member)
  refine ⟨t, t', ?_, ?_, fun a => ?_⟩
  · rw [runP]
    exact runPQ
  · rw [runQ]
    exact runQP
  · by_cases inW : a ∈ W
    · rw [keptPQ a (Set.disjoint_left.mp writes inW), madeP a inW, madeQP a inW]
    · rw [keptQP a inW]
      by_cases inV : a ∈ V
      · rw [madePQ a inV, madeQ a inV]
      · rw [keptPQ a inV, keptP a inW, keptQ a inV]

end CilkArtifact
