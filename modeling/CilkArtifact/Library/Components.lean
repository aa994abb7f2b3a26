import Mathlib

/-! The components that a family of edges makes, over an equivalence that is there already, and families without
redundant edges. -/
namespace CilkArtifact.Components
variable {α ι : Type*} {r : α → α → Prop} {a b x y z : α}

/-- Two classes of an equivalence made one. -/
def Glued (r : α → α → Prop) (a b x y : α) : Prop := r x y ∨ r x a ∧ r b y ∨ r x b ∧ r a y

theorem Glued.symm (equivalence : Equivalence r) (glued : Glued r a b x y) : Glued r a b y x := by
  rcases glued with same | ⟨left, right⟩ | ⟨left, right⟩
  · exact .inl (equivalence.symm same)
  · exact .inr (.inr ⟨equivalence.symm right, equivalence.symm left⟩)
  · exact .inr (.inl ⟨equivalence.symm right, equivalence.symm left⟩)

theorem Glued.trans (equivalence : Equivalence r) (first : Glued r a b x y) (second : Glued r a b y z) : Glued r a b x z := by
  have chain {u v w : α} : r u v → r v w → r u w := equivalence.trans
  rcases first with same | ⟨left, right⟩ | ⟨left, right⟩ <;> rcases second with same' | ⟨left', right'⟩ | ⟨left', right'⟩
  · exact .inl (chain same same')
  · exact .inr (.inl ⟨chain same left', right'⟩)
  · exact .inr (.inr ⟨chain same left', right'⟩)
  · exact .inr (.inl ⟨left, chain right same'⟩)
  · exact .inr (.inl ⟨left, right'⟩)
  · exact .inl (chain left right')
  · exact .inr (.inr ⟨left, chain right same'⟩)
  · exact .inl (chain left right')
  · exact .inr (.inr ⟨left, right'⟩)

/-- Any members of the two classes do. -/
theorem glued_congr (equivalence : Equivalence r) {a' b' : α} (first : r a a') (second : r b b') :
    Glued r a b x y ↔ Glued r a' b' x y := by
  have chain {u v w : α} : r u v → r v w → r u w := equivalence.trans
  constructor
  · rintro (same | ⟨left, right⟩ | ⟨left, right⟩)
    · exact .inl same
    · exact .inr (.inl ⟨chain left first, chain (equivalence.symm second) right⟩)
    · exact .inr (.inr ⟨chain left second, chain (equivalence.symm first) right⟩)
  · rintro (same | ⟨left, right⟩ | ⟨left, right⟩)
    · exact .inl same
    · exact .inr (.inl ⟨chain left (equivalence.symm first), chain second right⟩)
    · exact .inr (.inr ⟨chain left (equivalence.symm second), chain first right⟩)

theorem glued_swap : Glued r a b x y ↔ Glued r b a x y := or_congr_right or_comm

/-- What the edges of `S` connect. -/
def Linked (r : α → α → Prop) (edges : ι → α × α) (S : Set ι) : α → α → Prop :=
  Relation.EqvGen fun x y => r x y ∨ ∃ i ∈ S, edges i = (x, y)

variable {edges : ι → α × α} {S T : Set ι} {i : ι}

theorem linked_equivalence : Equivalence (Linked r edges S) := Relation.EqvGen.is_equivalence _

theorem linked_edge (mem : i ∈ S) : Linked r edges S (edges i).1 (edges i).2 := .rel _ _ (.inr ⟨i, mem, rfl⟩)

theorem linked_mono (subset : S ⊆ T) (linked : Linked r edges S x y) : Linked r edges T x y :=
  linked.mono fun _ _ => Or.imp_right fun ⟨i, mem, edge⟩ => ⟨i, subset mem, edge⟩

/-- The edges connect no more than an equivalence that has them all. -/
theorem linked_le {s : α → α → Prop} (equivalence : Equivalence s) (base : ∀ {x y}, r x y → s x y)
    (closed : ∀ i ∈ S, s (edges i).1 (edges i).2) (linked : Linked r edges S x y) : s x y := by
  induction linked with
  | rel x y step =>
    rcases step with start | ⟨i, mem, edge⟩
    · exact base start
    · simpa [edge] using closed i mem
  | refl x => exact equivalence.refl x
  | symm _ _ _ ih => exact equivalence.symm ih
  | trans _ _ _ _ _ first second => exact equivalence.trans first second

theorem linked_empty (equivalence : Equivalence r) : Linked r edges ∅ x y ↔ r x y :=
  ⟨linked_le equivalence id (fun _ none => none.elim), fun start => .rel _ _ (.inl start)⟩

theorem linked_insert : Linked r edges (insert i S) x y ↔ Glued (Linked r edges S) (edges i).1 (edges i).2 x y := by
  have equivalence : Equivalence (Linked r edges S) := linked_equivalence
  have inserted : Linked r edges (insert i S) (edges i).1 (edges i).2 := linked_edge (Set.mem_insert i S)
  have grow {u v : α} : Linked r edges S u v → Linked r edges (insert i S) u v := linked_mono (Set.subset_insert i S)
  constructor
  · intro linked
    refine linked_le (s := Glued (Linked r edges S) (edges i).1 (edges i).2) ?_ ?_ ?_ linked
    · exact ⟨fun u => .inl (equivalence.refl u), .symm equivalence, .trans equivalence⟩
    · exact fun start => .inl (.rel _ _ (.inl start))
    · rintro j (rfl | mem)
      · exact .inr (.inl ⟨equivalence.refl _, equivalence.refl _⟩)
      · exact .inl (linked_edge mem)
  · rintro (same | ⟨left, right⟩ | ⟨left, right⟩)
    · exact grow same
    · exact ((grow left).trans _ _ _ inserted).trans _ _ _ (grow right)
    · exact ((grow left).trans _ _ _ (inserted.symm _ _)).trans _ _ _ (grow right)

/-- No edge of `S` connects what the others connect. -/
def Independent (r : α → α → Prop) (edges : ι → α × α) (S : Set ι) : Prop :=
  ∀ i ∈ S, ¬ Linked r edges (S \ {i}) (edges i).1 (edges i).2

theorem independent_empty : Independent r edges ∅ := fun _ none => none.elim

/-- An edge between two components makes none of the others redundant. -/
theorem Independent.insert (independent : Independent r edges S) (apart : ¬ Linked r edges S (edges i).1 (edges i).2) :
    Independent r edges (insert i S) := by
  have fresh : i ∉ S := fun mem => apart (linked_edge mem)
  rintro j (rfl | mem) linked
  · rw [Set.insert_sdiff_self_of_notMem fresh] at linked
    exact apart linked
  · have other : i ≠ j := fun same => fresh (same ▸ mem)
    have within {u v : α} : Linked r edges (S \ {j}) u v → Linked r edges S u v := linked_mono Set.sdiff_subset
    have around : Linked r edges S (edges j).1 (edges j).2 := linked_edge mem
    rw [Set.insert_sdiff_of_notMem _ (by simpa using other), linked_insert] at linked
    -- a way around the edge of `j` that needs the new edge closes the way that the edge of `j` is on
    rcases linked with same | ⟨left, right⟩ | ⟨left, right⟩
    · exact independent j mem same
    · exact apart (((within left).symm _ _).trans _ _ _ (around.trans _ _ _ ((within right).symm _ _)))
    · exact apart ((within right).trans _ _ _ ((around.symm _ _).trans _ _ _ (within left)))

end CilkArtifact.Components
