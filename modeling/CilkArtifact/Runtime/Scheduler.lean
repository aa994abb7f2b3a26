import CilkArtifact.Runtime.Frames
import Mathlib.Logic.Relation

/-! The runtime as a step relation: any worker may take its next step, and an idle one may steal from any victim
that has a stealable frame. A steal and a pop of the same frame exclude each other, which is what the deque's
protocol is for; everything between two acquisitions of a lock is one step. -/
namespace CilkArtifact.Runtime
open DotMix
universe u
variable {M : Type u} [Mul M]

/-- A full frame with its children, and the workers that look for work. -/
abbrev Local (M : Type u) := FullFrame M × Children M × Multiset (Worker M)

/-- The leader of the team, if it looks for work, and the other workers that do. -/
inductive Team : Multiset (Worker M) → Option (Worker M) → Multiset (Worker M) → Prop
  | waits {leader : Worker M} {others : Multiset (Worker M)} (user : leader.user = true) :
      Team (leader ::ₘ others) (some leader) others
  | busy {idle : Multiset (Worker M)} (system : ∀ w ∈ idle, w.user = false) : Team idle none idle

/-- Steps that only touch one full frame and its children. -/
inductive FrameStep (ff : FullFrame M) (children : Children M) :
    Multiset (Worker M) → Option (Local M) → Prop
  | run {idle w young stale ff'} (held : ff.holder = .running w young) (runs : ff.run stale w young = some ff') :
      FrameStep ff children idle (some (ff', children, idle))
  | leave {idle w sf young} (held : ff.holder = .running w (sf :: young)) (ends : sf.code = .ret)
      (synched : sf.stalls = false) :
      FrameStep ff children idle (some ({ ff with holder := .running (w.leave sf) young }, children, idle))
  | sync {idle w young} (held : ff.holder = .running w young) (stalls : (ff.current young).stalls = true) :
      FrameStep ff children idle ((ff.cSync w young).map fun ff => (ff, children, idle))
  | syncLoop {idle w middle} (held : ff.holder = .syncing w middle) :
      FrameStep ff children idle
        (some ((reductionsForSync ff children w middle).1, (reductionsForSync ff children w middle).2, idle))
  | syncMerge {idle w left middle} (held : ff.holder = .merging w left middle) :
      FrameStep ff children idle
        (some ({ ff with holder := .syncing w (mergeReducerMaps left middle) }, children, idle))
  | doSync {idle w leader others} (held : ff.holder = .stalled w) (team : Team idle leader others) :
      FrameStep ff children idle ((doSync ff w leader).map fun result => (result.1, children, result.2 + others))
  /-- `__cilkrts_c_THE_exception_check` finds that the parent has been stolen. -/
  | exceptionCheck {idle w} (held : ff.holder = .running w []) (ends : ff.callStack.code = .ret)
      (helper : ff.callStack.detached = true) :
      FrameStep ff children idle (some ({ ff with holder := .spawnReturn w false }, children, idle))
  | reduce {idle w left middle right} (held : ff.holder = .reducing w left middle right) :
      FrameStep ff children idle
        ((reduceForSpawnReturn ff w left middle right).map fun ff => (ff, children, idle))
  | doReturnFromSpawn {idle child unlinked leader others} (gone : children.unlinked = child ::ₘ unlinked)
      (team : Team idle leader others) :
      FrameStep ff children idle ((doReturnFromSpawn ff child leader).map fun result =>
        (result.1, children.setUnlinked unlinked, result.2 + others))
  | returnFromCall {idle left child below w} (rightmost : children = left.snoc child below)
      (returns : child.returns w) :
      FrameStep ff children idle ((returnFromCall ff left child below w).map fun result =>
        (result.1, result.2, idle))
  | setup {idle w isReturnFromCall} (held : ff.holder = .next w isReturnFromCall) :
      FrameStep ff children idle ((setupForExecution ff children w isReturnFromCall).map fun result =>
        (result.1, result.2, idle))
  | steal {idle victim thief newer helper older} (held : ff.holder = .running victim (newer ++ helper :: older))
      (detached : helper.detached = true) (oldest : ∀ sf ∈ older, sf.detached = false) :
      FrameStep ff children (thief ::ₘ idle)
        ((detachForSteal ff children victim thief newer helper older).map fun result =>
          (result.1, result.2, idle))

/-- Steps of a row of siblings and of what is below them. -/
inductive Step : Children M → Multiset (Worker M) → Option (Children M × Multiset (Worker M)) → Prop
  | frame {left ff children idle result} (step : FrameStep ff children idle result) :
      Step (.snoc left ff children) idle (result.map fun r => (left.snoc r.1 r.2.1, r.2.2))
  | inside {left ff children idle result} (step : Step children idle result) :
      Step (.snoc left ff children) idle (result.map fun r => (left.snoc ff r.1, r.2))
  | left {left ff children idle result} (step : Step left idle result) :
      Step (.snoc left ff children) idle (result.map fun r => (r.1.snoc ff children, r.2))
  | spawnReturn {left ff children idle w again} (held : ff.holder = .spawnReturn w again) :
      Step (.snoc left ff children) idle ((spliceSpawnReturn left ff children w again).map fun row => (row, idle))
  /-- `finalize_child_for_call` asserts that the child is the rightmost one. -/
  | returnsFromTheMiddle {left child below right children idle w} (returns : child.returns w) :
      Step (.snoc (.snoc left child below) right children) idle none

/-- The root frame with all below it, and the idle workers. -/
structure State (M : Type u) where
  root : FullFrame M
  children : Children M
  idle : Multiset (Worker M)

/-- The root frame is at its end. -/
def State.ends (s : State M) (w : Worker M) : Prop :=
  s.root.holder = .running w [] ∧ s.root.callStack.code = .ret ∧ s.root.callStack.unsynched = false

/-- What `__cilkrts_c_return_from_initial` leaves: the worker, free again, the reducer map that it destroys, and the
rank that it saves for the thread. -/
structure Unbound (M : Type u) where
  worker : Worker M
  destroyed : Option M
  savedRank : Word

/-- `__cilkrts_c_return_from_initial` with `__cilkrts_unbind_thread`, which only a user worker may call. -/
def State.returnFromInitial (s : State M) (w : Worker M) : Option (Unbound M) :=
  if w.user = false ∨ s.root.joinCounter ≠ 1 then none
  else if s.children.childrenReducerMap.isSome ∨ s.root.rightReducerMap.isSome then none
  else
    let w := w.leave s.root.callStack
    some ⟨{ w with reducerMap := none, user := false }, w.reducerMap, w.pedigree.rank⟩

/-- One step; `none` is an abort. -/
inductive State.Steps (s : State M) : Option (State M) → Prop
  | frame {result} (step : FrameStep s.root s.children s.idle result) :
      State.Steps s (result.map fun r => ⟨r.1, r.2.1, r.2.2⟩)
  | inside {result} (step : Step s.children s.idle result) :
      State.Steps s (result.map fun r => ⟨s.root, r.1, r.2⟩)
  | spawnReturnOfRoot {w again} (held : s.root.holder = .spawnReturn w again) : State.Steps s none
  | failsAtTheEnd {w} (ends : s.ends w) (fails : s.returnFromInitial w = none) : State.Steps s none

end CilkArtifact.Runtime
