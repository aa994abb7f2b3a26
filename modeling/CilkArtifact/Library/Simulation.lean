import Mathlib

/-! Runs of labelled steps, where some steps show no event, and forward simulation by an abstract machine whose every
step shows one. -/
namespace CilkArtifact.Simulation
variable {S Q E : Type*} {step : S → Option E → S → Prop} {spec : Q → E → Q → Prop}

/-- A run with the events that it shows. -/
inductive Run (step : S → Option E → S → Prop) : S → List E → S → Prop
  | refl {s} : Run step s [] s
  | tail {s events s' event s''} (run : Run step s events s') (last : step s' event s'') :
      Run step s (events ++ event.toList) s''

/-- A run of the abstract machine. -/
inductive Behaves (spec : Q → E → Q → Prop) : Q → List E → Q → Prop
  | refl {q} : Behaves spec q [] q
  | tail {q events q' event q''} (run : Behaves spec q events q') (last : spec q' event q'') :
      Behaves spec q (events ++ [event]) q''

/-- What a step does to the abstract state: what the event says, or nothing. -/
def Matches (spec : Q → E → Q → Prop) (q : Q) (event : Option E) (q' : Q) : Prop :=
  match event with
  | none => q' = q
  | some event => spec q event q'

/-- Every run shows what the abstract machine may do. -/
theorem Run.behaves {inv : S → Prop} {abs : S → Q}
    (sim : ∀ s event s', inv s → step s event s' → inv s' ∧ Matches spec (abs s) event (abs s')) {s s' : S}
    {events : List E} (run : Run step s events s') (start : inv s) : inv s' ∧ Behaves spec (abs s) events (abs s') := by
  induction run with
  | refl => exact ⟨start, .refl⟩
  | @tail events s' event s'' run last ih =>
    obtain ⟨inv', behaves⟩ := ih
    obtain ⟨inv'', matched⟩ := sim s' event s'' inv' last
    refine ⟨inv'', ?_⟩
    cases event with
    | none =>
      have same : abs s'' = abs s' := matched
      rw [same, Option.toList_none, List.append_nil]
      exact behaves
    | some event => exact behaves.tail matched

end CilkArtifact.Simulation
