import CilkArtifact.Runtime.Program
import Mathlib.Data.Multiset.Basic

/-! Workers, stack frames and the tree of full frames of the Cilk Plus runtime, and what the sections of
`scheduler.c` that run under the locks of a frame do to them. `none` is a failed `CILK_ASSERT`. One thread of the
program has entered Cilk, so all workers are of one team. Left out are exceptions, stacks and fibers, simulated steals,
replay logs and the parallel reduce operations, which spawn. -/
namespace CilkArtifact.Runtime
open DotMix
universe u

/-- `__cilkrts_worker`, as far as it moves with a frame. The worker of the thread that entered Cilk is of type
`WORKER_USER` and leads the team; it has a last full frame while another worker may have its work. -/
structure Worker (M : Type u) where
  self : ℤ
  user : Bool
  pedigree : Pedigree
  reducerMap : Option M
  workStolen : Bool
  lastFullFrame : Bool

/-- `__cilkrts_stack_frame`, where `code` stands for the saved context. Only frames of spawn helpers are
detached, and only the frame that bound the thread is the last one. -/
structure StackFrame (M : Type u) where
  code : Code M
  detached : Bool
  unsynched : Bool
  pedigreeUnsynched : Bool
  last : Bool
  parentPedigree : Pedigree
  spawnHelperPedigree : Pedigree

/-- Who has a full frame, and where in the runtime it is. -/
inductive Holder (M : Type u) : Type u where
  /-- No worker refers to the frame. -/
  | suspended
  /-- The frame is the worker's `next_frame_ff`. -/
  | next (w : Worker M) (isReturnFromCall : Bool)
  /-- The frame is the worker's `frame_ff`; the stack frames above the oldest one, the youngest first. -/
  | running (w : Worker M) (young : List (StackFrame M))
  /-- The spawn helper has ended and the worker is about to lock the parent, again after a reduction. -/
  | spawnReturn (w : Worker M) (again : Bool)
  /-- `slow_path_reductions_for_spawn_return` merges the three maps without a lock. -/
  | reducing (w : Worker M) (left middle right : Option M)
  /-- At the head of the loop of `slow_path_reductions_for_sync`. -/
  | syncing (w : Worker M) (middle : Option M)
  /-- That loop merges the two maps without a lock. -/
  | merging (w : Worker M) (left middle : Option M)
  /-- The reductions for the sync are done and `do_sync` follows. -/
  | stalled (w : Worker M)

/-- `full_frame`. The oldest stack frame stays in `callStack` also while a worker runs it. A frame with a sync
master is only synched by the leader of the team. -/
structure FullFrame (M : Type u) where
  callStack : StackFrame M
  joinCounter : ℕ
  isCallChild : Bool
  rightReducerMap : Option M
  holder : Holder M
  syncMaster : Bool

/-- A full frame that has left the list of its siblings but has not been through `do_return_from_spawn`. -/
structure Unlinked (M : Type u) where
  worker : Worker M
  isCallChild : Bool
  joinCounter : ℕ
  childrenReducerMap : Option M
  rightReducerMap : Option M

/-- The children of a full frame from its `rightmost_child` along the `left_sibling` pointers. At the left end
stand the parent's `children_reducer_map` and the frames unlinked from it. -/
inductive Children (M : Type u) : Type u where
  | none (childrenReducerMap : Option M) (unlinked : Multiset (Unlinked M))
  | snoc (leftSiblings : Children M) (child : FullFrame M) (children : Children M)

namespace Children
variable {M : Type u}

def hasChild : Children M → Bool
  | none _ _ => false
  | snoc _ _ _ => true

def count : Children M → ℕ
  | none _ _ => 0
  | snoc left _ _ => left.count + 1

def unlinked : Children M → Multiset (Unlinked M)
  | none _ unlinked => unlinked
  | snoc left _ _ => left.unlinked

def setUnlinked (children : Children M) (unlinked : Multiset (Unlinked M)) : Children M :=
  match children with
  | none childrenReducerMap _ => none childrenReducerMap unlinked
  | snoc left child below => snoc (left.setUnlinked unlinked) child below

/-- `*left_ptrs.map_ptr` of `compute_left_ptrs_for_spawn_return` for the next sibling, and of
`compute_left_ptrs_for_sync` for the parent. -/
def leftMap : Children M → Option M
  | none childrenReducerMap _ => childrenReducerMap
  | snoc _ child _ => child.rightReducerMap

def setLeftMap (children : Children M) (map : Option M) : Children M :=
  match children with
  | none _ unlinked => none map unlinked
  | snoc left child below => snoc left { child with rightReducerMap := map } below

def childrenReducerMap : Children M → Option M
  | none childrenReducerMap _ => childrenReducerMap
  | snoc left _ _ => left.childrenReducerMap

end Children

section User
variable {M : Type u}

/-- `__cilkrts_enter_frame_1`. The pedigrees keep what the memory of the frame held. -/
def enterFrame (body : Code M) (stale : Pedigree) : StackFrame M :=
  ⟨body, false, false, false, false, stale, stale⟩

/-- The helper's frame after `__cilk_fake_detach`, when it still has to call the spawned function. -/
def spawnHelper (body : Code M) (w : Worker M) (stale : Pedigree) : StackFrame M :=
  ⟨.call body .ret, true, false, false, false, stale, w.pedigree⟩

/-- One operation of the current stack frame: the worker, the frame and the frame pushed on it. -/
def execute [Mul M] (stale : Pedigree) (w : Worker M) (sf : StackFrame M) :
    Option (Worker M × StackFrame M × List (StackFrame M)) :=
  match sf.code with
  | .ret => none
  | .strand update rest =>
    some ({ w with reducerMap := mergeReducerMaps w.reducerMap (update w.pedigree) },
      { sf with code := rest w.pedigree }, [])
  | .setPedigree update rest => some ({ w with pedigree := update w.pedigree }, { sf with code := rest }, [])
  | .spawn body rest =>
    some ({ w with pedigree := w.pedigree.child },
      { sf with code := rest, parentPedigree := w.pedigree }, [spawnHelper body w stale])
  | .call body rest => some (w, { sf with code := rest }, [enterFrame body stale])
  | .sync rest =>
    if sf.unsynched then none
    else some ({ w with pedigree := w.pedigree.bump }, { sf with code := rest }, [])

/-- `CILK_FAKE_SYNC_IMP` finds the frame unsynched, at a sync or in the epilogue. -/
def StackFrame.stalls (sf : StackFrame M) : Bool :=
  match sf.code with
  | .sync _ => sf.unsynched
  | .ret => sf.unsynched && !sf.detached
  | _ => false

/-- `update_pedigree_on_leave_frame` for a spawn helper, else the increment after the sync in the epilogue. -/
def StackFrame.leave (sf : StackFrame M) (p : Pedigree) : Pedigree :=
  if sf.detached then sf.spawnHelperPedigree.bump else p.bump

def Worker.leave (w : Worker M) (sf : StackFrame M) : Worker M := { w with pedigree := sf.leave w.pedigree }

end User

namespace FullFrame
variable {M : Type u}

/-- The worker's `current_stack_frame`. -/
def current (ff : FullFrame M) : List (StackFrame M) → StackFrame M
  | [] => ff.callStack
  | sf :: _ => sf

def run [Mul M] (ff : FullFrame M) (stale : Pedigree) (w : Worker M) (young : List (StackFrame M)) :
    Option (FullFrame M) := do
  let (w, sf, pushed) ← execute stale w (ff.current young)
  match young with
  | [] => some { ff with callStack := sf, holder := .running w pushed }
  | _ :: young => some { ff with holder := .running w (pushed ++ sf :: young) }

/-- `__cilkrts_c_sync` up to the fast path. A frame above the oldest one fails in `do_sync`, which asserts that
the frame has no call parent. -/
def cSync (ff : FullFrame M) (w : Worker M) (young : List (StackFrame M)) : Option (FullFrame M) :=
  match young with
  | [] =>
    let ff := { ff with callStack := { ff.callStack with parentPedigree := w.pedigree } }
    match w.reducerMap with
    | none => some { ff with holder := .stalled w }
    | some map => some { ff with holder := .syncing { w with reducerMap := none } (some map) }
  | _ :: _ => none

end FullFrame

section Locked
variable {M : Type u}

/-- `setup_for_execution_reducers` -/
def setupForExecutionReducers (ff : FullFrame M) (children : Children M) (w : Worker M) :
    Option (Worker M × Children M) :=
  if ff.callStack.unsynched then some (w, children)
  else if children.hasChild then none
  else
    match children.childrenReducerMap, w.reducerMap with
    | none, _ => some (w, children)
    | some _, some _ => none
    | some map, none => some ({ w with reducerMap := some map }, children.setLeftMap none)

/-- `setup_for_execution_pedigree` -/
def setupForExecutionPedigree (w : Worker M) (sf : StackFrame M) : Worker M × StackFrame M :=
  let rank :=
    if w.workStolen then sf.parentPedigree.rank + 1
    else if sf.pedigreeUnsynched then sf.parentPedigree.rank
    else w.pedigree.rank
  ({ w with pedigree := ⟨rank, sf.parentPedigree.parent⟩, workStolen := false }, { sf with pedigreeUnsynched := false })

/-- `setup_for_execution` -/
def setupForExecution (ff : FullFrame M) (children : Children M) (w : Worker M) (isReturnFromCall : Bool) :
    Option (FullFrame M × Children M) := do
  let (w, children) ← setupForExecutionReducers ff children w
  if isReturnFromCall then some ({ ff with holder := .running w [] }, children)
  else
    let (w, sf) := setupForExecutionPedigree w ff.callStack
    some ({ ff with callStack := sf, holder := .running w [] }, children)

/-- Nothing of the user worker's team has been stolen since it last was alone. -/
def Worker.firstStolen (victim : Worker M) : Bool := victim.user && !victim.lastFullFrame

/-- What `set_sync_master` sets in the victim, for the first theft. -/
def Worker.setSyncMaster (victim : Worker M) : Worker M :=
  { victim with lastFullFrame := victim.lastFullFrame || victim.firstStolen }

@[simp] theorem Worker.setSyncMaster_pedigree (victim : Worker M) : victim.setSyncMaster.pedigree = victim.pedigree := rfl

@[simp] theorem Worker.setSyncMaster_reducerMap (victim : Worker M) :
    victim.setSyncMaster.reducerMap = victim.reducerMap := rfl

/-- `unroll_call_stack`, from the oldest stack frame to the one the thief gets, which may become the one that the
team ends in and adopts `child`. -/
def unrollCallStack (thief : Worker M) (child : FullFrame M) (setSyncMaster : Bool) :
    FullFrame M → Children M → List (StackFrame M) → FullFrame M × Children M
  | ff, children, [] =>
    ({ ff with
        callStack := { ff.callStack with unsynched := true }
        joinCounter := ff.joinCounter + 1 + 1
        holder := .next { thief with workStolen := true } false
        syncMaster := ff.syncMaster || setSyncMaster },
      children.snoc child (.none none 0))
  | ff, children, sf :: newer =>
    let (callChild, below) :=
      unrollCallStack thief child setSyncMaster ⟨sf, 0, true, none, .suspended, false⟩ (.none none 0) newer
    ({ ff with joinCounter := ff.joinCounter + 1, holder := .suspended }, children.snoc callChild below)

/-- `detach_for_steal`: the victim keeps the oldest detached stack frame `helper` and what is above it. -/
def detachForSteal (ff : FullFrame M) (children : Children M) (victim thief : Worker M)
    (newer : List (StackFrame M)) (helper : StackFrame M) (older : List (StackFrame M)) :
    Option (FullFrame M × Children M) :=
  if ff.joinCounter = 0 then none
  else
    let child : FullFrame M := ⟨helper, 1, false, none, .running victim.setSyncMaster newer, false⟩
    some (unrollCallStack thief child victim.firstStolen { ff with joinCounter := ff.joinCounter - 1 } children
      older.reverse)

/-- `provably_good_steal`: the frame, and the workers that have to look for other work. A frame with a sync master
goes back to the leader of the team, which is this worker or has to be one without work. -/
def provablyGoodSteal (ff : FullFrame M) (w : Worker M) (leader : Option (Worker M)) :
    Option (FullFrame M × Multiset (Worker M)) :=
  if ff.joinCounter = 0 then none
  else if ff.joinCounter = 1 then
    let ff := { ff with callStack := { ff.callStack with unsynched := false }, joinCounter := 1 }
    if ff.syncMaster then
      let ff := { ff with syncMaster := false }
      if w.user then some ({ ff with holder := .next { w with lastFullFrame := false } false }, leader.toList)
      else
        match leader with
        | none => none
        | some leader => some ({ ff with holder := .next { leader with lastFullFrame := false } false }, {w})
    else some ({ ff with holder := .next w false }, leader.toList)
  else some ({ ff with joinCounter := ff.joinCounter - 1 }, w ::ₘ leader.toList)

/-- `do_sync` -/
def doSync (ff : FullFrame M) (w : Worker M) (leader : Option (Worker M)) :
    Option (FullFrame M × Multiset (Worker M)) :=
  if ff.callStack.unsynched then
    provablyGoodSteal
      { ff with
        callStack := { ff.callStack with parentPedigree := w.pedigree, pedigreeUnsynched := true }
        holder := .suspended } w leader
  else none

/-- `do_return_from_spawn` with `__cilkrts_destroy_full_frame` -/
def doReturnFromSpawn (parent : FullFrame M) (ff : Unlinked M) (leader : Option (Worker M)) :
    Option (FullFrame M × Multiset (Worker M)) :=
  if ff.isCallChild ∨ ff.joinCounter = 0 then none
  else do
    let parent ← provablyGoodSteal parent ff.worker leader
    if ff.childrenReducerMap.isSome ∨ ff.rightReducerMap.isSome then none else some parent

/-- The frame is at its end and goes to `__cilkrts_return`. -/
def FullFrame.returns (ff : FullFrame M) (w : Worker M) : Prop :=
  ff.holder = .running w [] ∧ ff.callStack.code = .ret ∧ ff.callStack.detached = false ∧
    ff.callStack.unsynched = false ∧ ff.callStack.last = false

/-- `__cilkrts_return` with `finalize_child_for_call`, for the rightmost child. The last sync of the epilogue
has still to add to the rank. -/
def returnFromCall (parent : FullFrame M) (left : Children M) (child : FullFrame M) (below : Children M)
    (w : Worker M) : Option (FullFrame M × Children M) :=
  if child.joinCounter ≠ 1 ∨ child.isCallChild = false then none
  else if below.hasChild ∨ below.childrenReducerMap.isSome ∨ child.rightReducerMap.isSome then none
  else if parent.joinCounter = 0 then none
  else some ({ parent with holder := .next (w.leave child.callStack) true }, left)

section Reductions

/-- `fast_path_reductions_for_spawn_return`: the left map, the worker's and the right one afterwards; `none`
where the slow path has to go on. -/
def fastPathReductionsForSpawnReturn (left middle right : Option M) : Option (Option M × Option M × Option M) :=
  match left, middle, right with
  | left, none, none => some (left, none, none)
  | none, some m, none => some (some m, none, none)
  | none, none, some r => some (some r, none, none)
  | _, _, _ => none

/-- How the loop of `slow_path_reductions_for_spawn_return` slides the maps to the left. -/
def slideLeft (left middle right : Option M) : Option M × Option M × Option M :=
  let (left, middle) := if left.isNone then (middle, none) else (left, middle)
  let (middle, right) := if middle.isNone then (right, none) else (middle, right)
  (left, middle, right)

/-- One critical section on the parent's lock: the maps that are left for the loop. -/
def reductionsForSpawnReturn (again : Bool) (left middle right : Option M) : Option M × Option M × Option M :=
  if again then slideLeft left middle right
  else (fastPathReductionsForSpawnReturn left middle right).getD (slideLeft left middle right)

/-- `execute_reductions_for_spawn_return` up to the next release of the parent's lock. A frame with children
left would fail the debugging assertion of the slow path. -/
def spliceSpawnReturn (left : Children M) (child : FullFrame M) (below : Children M) (w : Worker M) (again : Bool) :
    Option (Children M) :=
  let (leftMap, middle, right) := reductionsForSpawnReturn again left.leftMap w.reducerMap child.rightReducerMap
  if middle.isSome then
    some ((left.setLeftMap none).snoc
      { child with rightReducerMap := none, holder := .reducing { w with reducerMap := none } leftMap middle right } below)
  else if below.hasChild then none
  else
    let ff : Unlinked M :=
      ⟨{ w with reducerMap := middle }.leave child.callStack, child.isCallChild, child.joinCounter,
        below.childrenReducerMap, right⟩
    some ((left.setLeftMap leftMap).setUnlinked (ff ::ₘ left.unlinked))

/-- `repeated_merge_reducer_maps`, twice, without a lock. -/
def reduceForSpawnReturn [Mul M] (ff : FullFrame M) (w : Worker M) (left middle right : Option M) :
    Option (FullFrame M) :=
  if w.reducerMap.isSome then none
  else
    let map := mergeReducerMaps (mergeReducerMaps left middle) right
    some { ff with holder := .spawnReturn { w with reducerMap := map } true }

/-- `slow_path_reductions_for_sync` up to the next release of the lock. -/
def reductionsForSync (ff : FullFrame M) (children : Children M) (w : Worker M) (middle : Option M) :
    FullFrame M × Children M :=
  let (left, middle) := if children.leftMap.isNone then (middle, none) else (children.leftMap, middle)
  if middle.isNone then ({ ff with holder := .stalled w }, children.setLeftMap left)
  else ({ ff with holder := .merging w left middle }, children.setLeftMap none)

end Reductions

end Locked

end CilkArtifact.Runtime
