import Mathlib.Data.Nat.Notation

/-! Total correctness of programs over a state that their results do not depend on, such as the
allocator behind fresh nodes. -/
namespace CilkArtifact
variable {σ α β : Type} {program : StateT σ Option α} {post : α → Prop}

/-- From every state, `program` comes to an end without a failure and `post` holds of its result. -/
def Returns (program : StateT σ Option α) (post : α → Prop) : Prop :=
  ∀ s, ∃ a s', program s = some (a, s') ∧ post a

theorem returns_pure {a : α} (holds : post a) : Returns (pure a : StateT σ Option α) post := fun s => ⟨a, s, rfl, holds⟩

theorem returns_lift {x : Option α} {a : α} (value : x = some a) :
    Returns (StateT.lift x : StateT σ Option α) fun result => result = a := by
  intro s
  refine ⟨a, s, ?_, rfl⟩
  rw [value]
  rfl

theorem Returns.bind {next : α → StateT σ Option β} {final : β → Prop} (first : Returns program post)
    (rest : ∀ a, post a → Returns (next a) final) : Returns (program >>= next) final := by
  intro s
  obtain ⟨a, s', run, holds⟩ := first s
  obtain ⟨b, s'', run', holds'⟩ := rest a holds s'
  refine ⟨b, s'', ?_, holds'⟩
  change program s >>= (fun result => next result.1 result.2) = some (b, s'')
  rw [run]
  exact run'

/-- What a sequence of two programs has done. -/
theorem bind_eq_some {next : α → StateT σ Option β} {s : σ} {result : β × σ} :
    (program >>= next) s = some result ↔ ∃ a s', program s = some (a, s') ∧ next a s' = some result := by
  change program s >>= (fun made => next made.1 made.2) = some result ↔ _
  rw [Option.bind_eq_bind, Option.bind_eq_some_iff]
  constructor
  · rintro ⟨⟨a, s'⟩, run, rest⟩
    exact ⟨a, s', run, rest⟩
  · rintro ⟨a, s', run, rest⟩
    exact ⟨(a, s'), run, rest⟩

theorem Returns.mono {weaker : α → Prop} (returns : Returns program post) (implies : ∀ a, post a → weaker a) :
    Returns program weaker := by
  intro s
  obtain ⟨a, s', run, holds⟩ := returns s
  exact ⟨a, s', run, implies a holds⟩

end CilkArtifact
