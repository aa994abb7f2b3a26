import CilkArtifact.Runtime.Scheduler

/-! What a tree of full frames still has to do: the value of the reducers when every frame in it has ended, in the
order of the serial elision, and the pedigree then. -/
namespace CilkArtifact.Runtime
universe u
variable {M : Type u} [Monoid M]

/-- The frame's code from a pedigree on, and the pedigree after the frame is left. -/
def StackFrame.serial (sf : StackFrame M) (p : Pedigree) : M × Pedigree :=
  ((sf.code.serial p).1, sf.leave (sf.code.serial p).2)

/-- The frames of a stack, the youngest first. -/
def stackSerial : List (StackFrame M) → Pedigree → M × Pedigree
  | [], p => (1, p)
  | sf :: older, p => ((sf.serial p).1 * (stackSerial older (sf.serial p).2).1, (stackSerial older (sf.serial p).2).2)

@[simp] theorem stackSerial_nil (p : Pedigree) : stackSerial ([] : List (StackFrame M)) p = (1, p) := rfl

@[simp] theorem stackSerial_singleton (sf : StackFrame M) (p : Pedigree) : stackSerial [sf] p = sf.serial p := by
  simp [stackSerial]

theorem stackSerial_append (newer older : List (StackFrame M)) (p : Pedigree) :
    stackSerial (newer ++ older) p =
      ((stackSerial newer p).1 * (stackSerial older (stackSerial newer p).2).1,
        (stackSerial older (stackSerial newer p).2).2) := by
  induction newer generalizing p with
  | nil => simp
  | cons sf newer ih => simp [stackSerial, ih, mul_assoc]

/-- The value in the hands of the worker that has the frame. -/
def Holder.hand : Holder M → M
  | .suspended => 1
  | .next w _ | .running w _ | .spawnReturn w _ | .stalled w => view w.reducerMap
  | .reducing _ left middle right => view left * view middle * view right
  | .syncing _ middle => view middle
  | .merging _ left middle => view left * view middle

namespace FullFrame

/-- The pedigree with which a suspended frame goes on: that of the call it waits for, if it waits for one. -/
def resumes (ff : FullFrame M) (called : Option Pedigree) : Pedigree := called.getD ff.callStack.parentPedigree

/-- What the stack frames of a full frame still have to do. -/
def rest (ff : FullFrame M) (called : Option Pedigree) : M × Pedigree :=
  match ff.holder with
  | .suspended => ff.callStack.serial (ff.resumes called)
  | .next w true => ff.callStack.serial w.pedigree
  | .next w false => ff.callStack.serial (setupForExecutionPedigree w ff.callStack).1.pedigree
  | .running w young => stackSerial (young ++ [ff.callStack]) w.pedigree
  | .spawnReturn w _ | .reducing w _ _ _ => (1, ff.callStack.leave w.pedigree)
  | .syncing w _ | .merging w _ _ | .stalled w => ff.callStack.serial w.pedigree

/-- The same with what the frame's children leave to it. -/
def finish (ff : FullFrame M) (below : M × Option Pedigree) : M × Pedigree :=
  (below.1 * ff.holder.hand * (ff.rest below.2).1, (ff.rest below.2).2)

end FullFrame

namespace Children

/-- What the children leave to the parent, from left to right, and the pedigree of a call that it waits for. -/
def sum : Children M → M × Option Pedigree
  | none childrenReducerMap _ => (view childrenReducerMap, Option.none)
  | snoc left child below =>
    (left.sum.1 * (child.finish below.sum).1 * view child.rightReducerMap,
      if child.isCallChild then some (child.finish below.sum).2 else Option.none)

/-- Without the map in the slot at the right end. -/
def beforeLeftMap : Children M → M
  | none _ _ => 1
  | snoc left child below => left.sum.1 * (child.finish below.sum).1

theorem sum_eq (children : Children M) : children.sum.1 = children.beforeLeftMap * view children.leftMap := by
  cases children with
  | none map unlinked => simp [sum, beforeLeftMap, leftMap]
  | snoc left child below => rfl

theorem finish_right (child : FullFrame M) (map : Option M) (below : M × Option Pedigree) :
    ({ child with rightReducerMap := map } : FullFrame M).finish below = child.finish below := rfl

theorem sum_setLeftMap (children : Children M) (map : Option M) :
    (children.setLeftMap map).sum = (children.beforeLeftMap * view map, children.sum.2) := by
  cases children with
  | none _ unlinked => simp [sum, beforeLeftMap, setLeftMap]
  | snoc left child below => simp [sum, beforeLeftMap, setLeftMap, finish_right]

@[simp] theorem sum_setUnlinked (children : Children M) (unlinked : Multiset (Unlinked M)) :
    (children.setUnlinked unlinked).sum = children.sum := by
  induction children with
  | none _ _ => rfl
  | snoc left child below ih => simp [sum, setUnlinked, ih]

end Children

namespace State

/-- The reducers and the pedigree with which the root frame will return. -/
def finish (s : State M) : M × Pedigree := s.root.finish s.children.sum

end State

end CilkArtifact.Runtime
