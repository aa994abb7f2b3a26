import Mathlib.Data.List.Basic

/-! The longest common prefix of two lists decides their lexicographic order. -/
namespace CilkArtifact.CommonPrefix
variable {α : Type} [DecidableEq α]

/-- The length of the longest common prefix. -/
def common : List α → List α → ℕ
  | x :: l, y :: m => if x = y then common l m + 1 else 0
  | _, _ => 0

@[simp] theorem common_nil_left (m : List α) : common [] m = 0 := by cases m <;> rfl

@[simp] theorem common_nil_right (l : List α) : common l [] = 0 := by cases l <;> rfl

theorem common_cons_self (x : α) (l m : List α) : common (x :: l) (x :: m) = common l m + 1 := if_pos rfl

theorem common_cons_of_ne {x y : α} (different : x ≠ y) (l m : List α) : common (x :: l) (y :: m) = 0 :=
  if_neg different

/-- Two lists after their common prefix: one of them has ended, or the next elements differ. -/
inductive Diverge : List α → List α → Prop
  | same : Diverge [] []
  | shorter (y : α) (m : List α) : Diverge [] (y :: m)
  | longer (x : α) (l : List α) : Diverge (x :: l) []
  | different {x y : α} (l m : List α) : x ≠ y → Diverge (x :: l) (y :: m)

theorem common_split (l m : List α) :
    ∃ pre r s, l = pre ++ r ∧ m = pre ++ s ∧ common l m = pre.length ∧ Diverge r s := by
  induction l generalizing m with
  | nil =>
    refine ⟨[], [], m, rfl, rfl, common_nil_left m, ?_⟩
    cases m with
    | nil => exact .same
    | cons y m => exact .shorter y m
  | cons x l ih =>
    cases m with
    | nil => exact ⟨[], x :: l, [], rfl, rfl, rfl, .longer x l⟩
    | cons y m =>
      by_cases same : x = y
      · subst same
        obtain ⟨pre, r, s, rfl, rfl, length, diverge⟩ := ih m
        exact ⟨x :: pre, r, s, rfl, rfl, by rw [common_cons_self, length, List.length_cons], diverge⟩
      · exact ⟨[], x :: l, y :: m, rfl, rfl, common_cons_of_ne same l m, .different l m same⟩

omit [DecidableEq α] in
theorem append_lt_append_iff [LT α] [Std.Irrefl (· < · : α → α → Prop)] (pre r s : List α) :
    pre ++ r < pre ++ s ↔ r < s := by
  induction pre with
  | nil => rfl
  | cons x pre ih =>
    rw [List.cons_append, List.cons_append, List.cons_lt_cons_iff, ih]
    simp [Std.Irrefl.irrefl]

end CilkArtifact.CommonPrefix
