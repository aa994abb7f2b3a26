import Mathlib

/-! Termination by a multiset of tasks and a number: a step replaces a task by smaller ones, or leaves the tasks
and makes the number smaller. -/
namespace CilkArtifact.Descent
universe u
variable {α : Type u} [Preorder α]

/-- The tasks come first. -/
def Descends (next now : Multiset α × ℕ) : Prop :=
  next.1.IsDershowitzMannaLT now.1 ∨ next.1 = now.1 ∧ next.2 < now.2

theorem wellFounded [WellFoundedLT α] : WellFounded (Descends : Multiset α × ℕ → Multiset α × ℕ → Prop) := by
  refine Subrelation.wf (fun {next now} smaller => ?_)
    (Prod.lex ⟨_, Multiset.wellFounded_isDershowitzMannaLT (α := α)⟩ ⟨_, Nat.lt_wfRel.wf⟩).wf
  obtain ⟨tasks, number⟩ := next
  obtain ⟨tasks', number'⟩ := now
  rcases smaller with replaced | ⟨rfl, fewer⟩
  · exact .left _ _ replaced
  · exact .right _ fewer

theorem Descends.add_right {next now : Multiset α × ℕ} (smaller : Descends next now) (others : Multiset α × ℕ) :
    Descends (next + others) (now + others) := by
  rcases smaller with ⟨kept, new, old, nonempty, next_eq, now_eq, below⟩ | ⟨same, fewer⟩
  · refine .inl ⟨kept + others.1, new, old, nonempty, ?_, ?_, below⟩
    · rw [Prod.fst_add, next_eq, add_right_comm]
    · rw [Prod.fst_add, now_eq, add_right_comm]
  · exact .inr ⟨by rw [Prod.fst_add, Prod.fst_add, same], Nat.add_lt_add_right fewer _⟩

theorem Descends.add_left {next now : Multiset α × ℕ} (smaller : Descends next now) (others : Multiset α × ℕ) :
    Descends (others + next) (others + now) := by
  rw [add_comm others, add_comm others]
  exact smaller.add_right others

/-- One task gives way to smaller ones. -/
theorem descends_of_task {next now : Multiset α × ℕ} (task : α) (new kept : Multiset α) (below : ∀ t ∈ new, t < task)
    (now_eq : now.1 = {task} + kept) (next_eq : next.1 = new + kept) : Descends next now := by
  refine .inl ⟨kept, new, {task}, Multiset.singleton_ne_zero task, ?_, ?_, ?_⟩
  · rw [next_eq, add_comm]
  · rw [now_eq, add_comm]
  · exact fun t member => ⟨task, Multiset.mem_singleton_self task, below t member⟩

/-- One task ends. -/
theorem descends_of_end {next now : Multiset α × ℕ} (task : α) (ended : now.1 = {task} + next.1) :
    Descends next now :=
  descends_of_task task 0 next.1 (by simp) ended (zero_add _).symm

end CilkArtifact.Descent
