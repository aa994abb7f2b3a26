import CilkArtifact.Runtime.Progress

/-! The leftmost reducer map, whose views are the reducers of the program themselves. The user's worker starts with it,
`cilkred_map::merge` asserts that it is never merged into a map to its left, and it is the map that is left in the
end. -/
namespace CilkArtifact.Runtime
universe u
variable {M : Type u}

/-- A reducer map with `is_leftmost`; `wrong` if a leftmost map has been merged from the right. A map that has not
been made is the unit. -/
@[ext] structure Flagged (M : Type u) where
  views : M
  made : Bool
  isLeftmost : Bool
  wrong : Bool

namespace Flagged

/-- `cilkred_map::merge` or-s the flags of the two maps. -/
instance [Mul M] : Mul (Flagged M) :=
  ⟨fun left right => ⟨left.views * right.views, left.made || right.made, left.isLeftmost || right.isLeftmost,
    left.wrong || right.wrong || left.made && right.isLeftmost⟩⟩

instance [One M] : One (Flagged M) := ⟨⟨1, false, false, false⟩⟩

section Fields
variable [Monoid M] (left right : Flagged M)

@[simp] theorem views_mul : (left * right).views = left.views * right.views := rfl
@[simp] theorem made_mul : (left * right).made = (left.made || right.made) := rfl
@[simp] theorem isLeftmost_mul : (left * right).isLeftmost = (left.isLeftmost || right.isLeftmost) := rfl
@[simp] theorem wrong_mul : (left * right).wrong = (left.wrong || right.wrong || left.made && right.isLeftmost) := rfl
@[simp] theorem views_one : (1 : Flagged M).views = 1 := rfl
@[simp] theorem made_one : (1 : Flagged M).made = false := rfl
@[simp] theorem isLeftmost_one : (1 : Flagged M).isLeftmost = false := rfl
@[simp] theorem wrong_one : (1 : Flagged M).wrong = false := rfl

end Fields

instance [Monoid M] : Monoid (Flagged M) where
  mul_assoc first second third := by
    ext
    · exact mul_assoc ..
    · exact Bool.or_assoc ..
    · exact Bool.or_assoc ..
    · simp only [wrong_mul, made_mul, isLeftmost_mul]
      grind
  one_mul map := by ext <;> simp
  mul_one map := by ext <;> simp

/-- A map that a strand makes. -/
def inner (views : M) : Flagged M := ⟨views, true, false, false⟩

/-- The map that `bind_thread` makes for the user's worker. -/
def leftmost (views : M) : Flagged M := ⟨views, true, true, false⟩

end Flagged

/-- The program, where a strand without a reducer map makes one that is not the leftmost. -/
def Code.flagged : Code M → Code (Flagged M)
  | ret => .ret
  | strand update rest => .strand (fun p => (update p).map Flagged.inner) fun p => (rest p).flagged
  | setPedigree update rest => .setPedigree update rest.flagged
  | spawn body rest => .spawn body.flagged rest.flagged
  | call body rest => .call body.flagged rest.flagged
  | sync rest => .sync rest.flagged

section Serial
variable [Monoid M]

/-- The map is the given value, is not the leftmost one, and no map has been merged in the wrong place. -/
structure Flagged.Inner (map : Flagged M) (views : M) : Prop where
  views : map.views = views
  inner : map.isLeftmost = false
  right : map.wrong = false

theorem Flagged.Inner.mul {first second : Flagged M} {views views' : M} (inner : first.Inner views)
    (inner' : second.Inner views') : (first * second).Inner (views * views') where
  views := by rw [views_mul, inner.views, inner'.views]
  inner := by simp [inner.inner, inner'.inner]
  right := by simp [inner.right, inner'.right, inner'.inner]

theorem Flagged.inner_one : (1 : Flagged M).Inner 1 := ⟨rfl, rfl, rfl⟩

theorem Code.flagged_serial (code : Code M) (p : Pedigree) :
    (code.flagged.serial p).1.Inner (code.serial p).1 ∧ (code.flagged.serial p).2 = (code.serial p).2 := by
  induction code generalizing p with
  | ret => exact ⟨Flagged.inner_one, rfl⟩
  | strand update rest ih =>
    have made : (view ((update p).map Flagged.inner)).Inner (view (update p)) := by
      cases update p with
      | none => exact Flagged.inner_one
      | some views => exact ⟨rfl, rfl, rfl⟩
    exact ⟨made.mul (ih p p).1, (ih p p).2⟩
  | setPedigree update rest ih => exact ih (update p)
  | spawn body rest body_ih rest_ih => exact ⟨(body_ih p.child).1.mul (rest_ih p.bump).1, (rest_ih p.bump).2⟩
  | call body rest body_ih rest_ih =>
    obtain ⟨inner, ends⟩ := body_ih p
    obtain ⟨inner', ends'⟩ := rest_ih (body.serial p).2.bump
    simp only [flagged, serial, ends]
    exact ⟨inner.mul inner', ends'⟩
  | sync rest ih => exact ih p.bump

end Serial

namespace State
variable [Monoid M] {code : Code M} {w : Worker (Flagged M)} {stale : Pedigree} {idle : Multiset (Worker (Flagged M))}
  {s : State (Flagged M)} {views : M}

/-- The thread is left with its own views: the map that is destroyed in the end is the leftmost one, whose views are
kept. Its value is that of the serial elision, and no merge on the way had the leftmost map on the right. -/
theorem returns_leftmost (enters : Enters w idle) (leftmost : w.reducerMap = some (.leftmost views))
    (run : (initial code.flagged w stale idle).Reaches s) {w' : Worker (Flagged M)} (ends : s.ends w') :
    ∃ unbound, s.returnFromInitial w' = some unbound ∧
      unbound.destroyed = some (.leftmost (views * (code.serial w.pedigree).1)) := by
  obtain ⟨unbound, returned, -, -, value, -⟩ := returns_serial_elision enters run ends
  obtain ⟨inner, -⟩ := code.flagged_serial w.pedigree
  have whole : view unbound.destroyed = .leftmost (views * (code.serial w.pedigree).1) := by
    rw [value, leftmost, view_some]
    ext
    · simp [Flagged.leftmost, inner.views]
    · simp [Flagged.leftmost]
    · simp [Flagged.leftmost]
    · simp [Flagged.leftmost, inner.inner, inner.right]
  refine ⟨unbound, returned, ?_⟩
  cases destroyed : unbound.destroyed with
  | some map => rw [← whole, destroyed, view_some]
  | none =>
    rw [destroyed, view_none] at whole
    cases congrArg Flagged.made whole

section Forked
open DotMix

/-- The worker of a thread that has just entered Cilk. -/
def boundWorker : Worker (Flagged (FreeMonoid Word)) := ⟨0, true, ⟨0, []⟩, some (.leftmost 1), false, false⟩

def idleWorker : Worker (Flagged (FreeMonoid Word)) := ⟨1, false, ⟨0, []⟩, none, false, false⟩

theorem boundWorker_enters : Enters boundWorker {idleWorker} := ⟨rfl, rfl, rfl, by simp [idleWorker], by simp [idleWorker]⟩

/-- Some run of the program comes to its end. -/
theorem returns_leftmost_forked : ∃ s w' unbound, (initial forked.flagged boundWorker ⟨0, []⟩ {idleWorker}).Reaches s ∧
    s.returnFromInitial w' = some unbound ∧ unbound.destroyed = some (.leftmost (.of 0 * .of 1)) := by
  obtain ⟨s, w', run, ends⟩ := exists_end boundWorker_enters
  obtain ⟨unbound, returned, destroyed⟩ := returns_leftmost boundWorker_enters rfl run ends
  exact ⟨s, w', unbound, run, returned, destroyed⟩

end Forked

end State

end CilkArtifact.Runtime
