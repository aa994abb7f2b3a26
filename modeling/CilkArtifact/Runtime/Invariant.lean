import CilkArtifact.Runtime.Serial

/-! The invariants of full frames: who may hold a frame that is synched, waits for a call or for a sync, what the
join counter counts, which maps are NULL, and which frame the team of the user worker will end in. -/
namespace CilkArtifact.Runtime
universe u
variable {M : Type u}

/-- A spawn helper only calls the spawned function. -/
def Code.OfHelper (code : Code M) : Prop := code = .ret ∨ ∃ body, code = .call body .ret

/-- What holds between a stack frame and the one it was pushed on. -/
structure StackFrame.Above (sf parent : StackFrame M) : Prop where
  synched : sf.unsynched = false
  notLast : sf.last = false
  helper : sf.detached = true → sf.code.OfHelper ∧ parent.detached = false ∧
    parent.parentPedigree = sf.spawnHelperPedigree

/-- The stack frames above the oldest one, the youngest first. -/
def Stacked (oldest : StackFrame M) : List (StackFrame M) → Prop
  | [] => True
  | sf :: young => sf.Above (young.headD oldest) ∧ Stacked oldest young

theorem stacked_append {oldest sf : StackFrame M} {newer older : List (StackFrame M)} :
    Stacked oldest (newer ++ sf :: older) ↔ Stacked sf newer ∧ Stacked oldest (sf :: older) := by
  induction newer with
  | nil => simp [Stacked]
  | cons top newer ih =>
    have parent : (newer ++ sf :: older).headD oldest = newer.headD sf := by cases newer <;> rfl
    rw [List.cons_append, Stacked, ih, parent]
    simp only [Stacked, and_assoc]

namespace Children

/-- Neither children nor anything left by former ones. -/
def Bare (children : Children M) : Prop := children = none Option.none 0

/-- Children and former children that the join counter still counts. -/
def joining (children : Children M) : ℕ := children.count + Multiset.card children.unlinked

/-- The rightmost child was called. -/
def awaitsCall : Children M → Bool
  | none _ _ => false
  | snoc _ child _ => child.isCallChild

/-- No child was called. -/
def Spawned : Children M → Prop
  | none _ _ => True
  | snoc left child _ => left.Spawned ∧ child.isCallChild = false

/-- The call that the frame waits for is its only child. -/
def OnlyCall : Children M → Prop
  | none _ _ => False
  | snoc left child _ => left.Bare ∧ child.isCallChild = true

theorem Spawned.awaitsCall {children : Children M} (spawned : children.Spawned) : children.awaitsCall = false := by
  cases children with
  | none _ _ => rfl
  | snoc _ _ _ => exact spawned.2

theorem Bare.spawned {children : Children M} (bare : children.Bare) : children.Spawned := by
  subst bare
  trivial

theorem OnlyCall.unlinked {children : Children M} (onlyCall : children.OnlyCall) : children.unlinked = 0 := by
  cases children with
  | none _ _ => cases onlyCall
  | snoc left _ _ =>
    obtain ⟨rfl, -⟩ := onlyCall
    rfl

theorem joining_snoc {left below : Children M} {child : FullFrame M} :
    (left.snoc child below).joining = left.joining + 1 := by
  simp only [joining, count, Children.unlinked]
  omega

/-- A frame that nothing is left to join has only the map of its former children. -/
theorem eq_none_of_joining {children : Children M} (alone : children.joining = 0) :
    children = none children.childrenReducerMap 0 := by
  cases children with
  | none map unlinked =>
    simp only [joining, count, Children.unlinked, Nat.zero_add, Multiset.card_eq_zero] at alone
    rw [alone, childrenReducerMap]
  | snoc _ _ _ => simp [joining, count] at alone

section LeftMap
variable (children : Children M) (map : Option M)

@[simp] theorem count_setLeftMap : (children.setLeftMap map).count = children.count := by
  cases children <;> rfl

@[simp] theorem unlinked_setLeftMap : (children.setLeftMap map).unlinked = children.unlinked := by
  cases children <;> rfl

@[simp] theorem joining_setLeftMap : (children.setLeftMap map).joining = children.joining := by
  cases children <;> rfl

@[simp] theorem awaitsCall_setLeftMap : (children.setLeftMap map).awaitsCall = children.awaitsCall := by
  cases children <;> rfl

theorem Spawned.setLeftMap {children : Children M} (spawned : children.Spawned) (map : Option M) :
    (children.setLeftMap map).Spawned := by
  cases children <;> exact spawned

end LeftMap

section Unlinked
variable (children : Children M) (unlinked : Multiset (Unlinked M))

@[simp] theorem count_setUnlinked : (children.setUnlinked unlinked).count = children.count := by
  induction children with
  | none _ _ => rfl
  | snoc left _ _ ih => simp [setUnlinked, count, ih]

@[simp] theorem unlinked_setUnlinked : (children.setUnlinked unlinked).unlinked = unlinked := by
  induction children with
  | none _ _ => rfl
  | snoc left _ _ ih => simp [setUnlinked, Children.unlinked, ih]

@[simp] theorem awaitsCall_setUnlinked : (children.setUnlinked unlinked).awaitsCall = children.awaitsCall := by
  cases children <;> rfl

theorem Spawned.setUnlinked {children : Children M} (spawned : children.Spawned) (unlinked : Multiset (Unlinked M)) :
    (children.setUnlinked unlinked).Spawned := by
  induction children with
  | none _ _ => trivial
  | snoc left _ _ ih => exact ⟨ih spawned.1, spawned.2⟩

end Unlinked

end Children

namespace StackFrame

/-- A full frame whose stack frame is not unsynched has no children and no map from them. -/
def Clean (sf : StackFrame M) (children : Children M) : Prop := sf.unsynched = false → children.Bare

/-- The frame waits at a sync in `execute_reductions_for_sync`. -/
structure AtSync (sf : StackFrame M) (children : Children M) (w : Worker M) : Prop where
  stalls : sf.stalls = true
  spawned : children.Spawned
  mine : w.workStolen = false
  empty : w.reducerMap = none

/-- The frame belongs to a spawn helper that has ended. -/
structure Returned (sf : StackFrame M) (children : Children M) (w : Worker M) : Prop where
  detached : sf.detached = true
  bare : children.Bare
  mine : w.workStolen = false

end StackFrame

namespace FullFrame

/-- What holds of a frame, its children and the worker that has it. -/
def Holds (ff : FullFrame M) (children : Children M) : Prop :=
  match ff.holder with
  | .suspended =>
    if children.awaitsCall then ff.callStack.unsynched = false → children.OnlyCall
    else ff.callStack.unsynched = true ∧ ff.callStack.pedigreeUnsynched = true ∧ 0 < children.joining
  | .next w true => children.Spawned ∧ w.workStolen = false ∧ ff.callStack.Clean children
  | .next w false => w.reducerMap = none ∧ children.Spawned ∧
      if w.workStolen then ff.callStack.unsynched = true
      else ff.callStack.unsynched = false ∧ ff.callStack.pedigreeUnsynched = true ∧ children.joining = 0
  | .running w young => children.Spawned ∧ w.workStolen = false ∧ ff.callStack.Clean children ∧ Stacked ff.callStack young
  | .spawnReturn w again => ff.callStack.Returned children w ∧ (again = true → w.reducerMap.isSome)
  | .reducing w left middle _ => ff.callStack.Returned children w ∧ w.reducerMap = none ∧ left.isSome ∧ middle.isSome
  | .syncing w middle => ff.callStack.AtSync children w ∧ middle.isSome
  | .merging w left middle => ff.callStack.AtSync children w ∧ left.isSome ∧ middle.isSome
  | .stalled w => ff.callStack.AtSync children w

/-- The number of workers that have the frame, which the join counter includes. -/
def holders (ff : FullFrame M) : ℕ :=
  match ff.holder with
  | .suspended => 0
  | _ => 1

structure Consistent (ff : FullFrame M) (children : Children M) : Prop where
  joins : ff.joinCounter = children.joining + ff.holders
  helper : ff.callStack.detached = true → ff.callStack.unsynched = false ∧ ff.callStack.code.OfHelper
  holds : ff.Holds children

/-- What holds of a frame that has a parent. -/
structure IsChild (ff : FullFrame M) : Prop where
  kind : ff.isCallChild = !ff.callStack.detached
  notLast : ff.callStack.last = false
  callMap : ff.isCallChild = true → ff.rightReducerMap = none

end FullFrame

/-- What `do_return_from_spawn` finds. -/
structure Unlinked.Ready (ff : Unlinked M) : Prop where
  spawned : ff.isCallChild = false
  joins : ff.joinCounter = 1
  childrenMap : ff.childrenReducerMap = none
  rightMap : ff.rightReducerMap = none
  empty : ff.worker.reducerMap = none
  mine : ff.worker.workStolen = false

/-- The invariant of a row of siblings and of all below them. -/
inductive Children.Inv : Children M → Prop
  | none {map unlinked} (ready : ∀ ff ∈ unlinked, Unlinked.Ready ff) : Children.Inv (.none map unlinked)
  | snoc {left child below} (left_inv : left.Inv) (below_inv : below.Inv) (consistent : child.Consistent below)
      (isChild : child.IsChild) (spawned : left.Spawned) : Children.Inv (.snoc left child below)

namespace Children

theorem Inv.unlinked_ready {children : Children M} (inv : children.Inv) : ∀ ff ∈ children.unlinked, ff.Ready := by
  induction inv with
  | none ready => exact ready
  | snoc _ _ _ _ _ left_ih _ => exact left_ih

theorem Inv.spawned_of {children : Children M} (inv : children.Inv) (spawned : children.awaitsCall = false) :
    children.Spawned := by
  cases inv with
  | none _ => trivial
  | snoc _ _ _ _ left => exact ⟨left, spawned⟩

theorem Inv.setLeftMap {children : Children M} (inv : children.Inv) (spawned : children.Spawned) (map : Option M) :
    (children.setLeftMap map).Inv := by
  cases inv with
  | none ready => exact .none ready
  | snoc left_inv below_inv consistent isChild left =>
    refine .snoc left_inv below_inv ⟨consistent.joins, consistent.helper, consistent.holds⟩
      ⟨isChild.kind, isChild.notLast, fun called => ?_⟩ left
    exact absurd (spawned.2.symm.trans called) Bool.false_ne_true

theorem Inv.setUnlinked {children : Children M} (inv : children.Inv) {unlinked : Multiset (Unlinked M)}
    (ready : ∀ ff ∈ unlinked, ff.Ready) : (children.setUnlinked unlinked).Inv := by
  induction inv with
  | none _ => exact .none ready
  | snoc _ below_inv consistent isChild left ih _ => exact .snoc ih below_inv consistent isChild (left.setUnlinked _)

end Children

/-- Workers that look for work have no reducer map, and the leader has finished what it once stole. -/
def Idle (workers : Multiset (Worker M)) : Prop :=
  ∀ w ∈ workers, w.reducerMap = none ∧ (w.user = true → w.workStolen = false)

section Workers

def Holder.workers : Holder M → Multiset (Worker M)
  | suspended => 0
  | next w _ | running w _ | spawnReturn w _ | reducing w _ _ _ | syncing w _ | merging w _ _ | stalled w => {w}

/-- The workers that have a frame of a row or below it, or come from one. -/
def Children.workers : Children M → Multiset (Worker M)
  | none _ unlinked => unlinked.map Unlinked.worker
  | snoc left child below => left.workers + child.holder.workers + below.workers

/-- The workers at a frame or below it, and those that look for work. -/
def crew (ff : FullFrame M) (children : Children M) (idle : Multiset (Worker M)) : Multiset (Worker M) :=
  ff.holder.workers + children.workers + idle

/-- All workers that take part in a run. -/
def State.workers (s : State M) : Multiset (Worker M) := crew s.root s.children s.idle

/-- A worker's number, and whether the leader of the team has a last full frame. -/
def Worker.badge (w : Worker M) : ℤ × Option Bool := (w.self, if w.user then some w.lastFullFrame else none)

def badges (workers : Multiset (Worker M)) : Multiset (ℤ × Option Bool) := workers.map Worker.badge

/-- One leader, and workers with the numbers of the others. -/
def Crewed (leader : ℤ) (others : Multiset ℤ) (lastFullFrame : Bool) (workers : Multiset (Worker M)) : Prop :=
  badges workers = (leader, some lastFullFrame) ::ₘ others.map fun other => (other, none)

end Workers

section SyncMaster

/-- No frame of a row or below it has a sync master. -/
def Children.Free : Children M → Prop
  | none _ _ => True
  | snoc left child below => left.Free ∧ child.syncMaster = false ∧ below.Free

/-- Down from a frame, calls lead to the frame that the leader runs alone, or to the one with a sync master, where
all work of the team is. -/
inductive Led : Bool → FullFrame M → Children M → Prop
  | alone {ff below leader} (free : ff.syncMaster = false) (synched : ff.callStack.unsynched = false)
      (childless : below.joining = 0) (held : leader ∈ ff.holder.workers) (user : leader.user = true) : Led false ff below
  | master {ff below} (master : ff.syncMaster = true) (unsynched : ff.callStack.unsynched = true) (free : below.Free) :
      Led true ff below
  | call {lastFullFrame ff child below} (free : ff.syncMaster = false) (synched : ff.callStack.unsynched = false)
      (suspended : ff.holder = .suspended) (called : child.isCallChild = true) (led : Led lastFullFrame child below) :
      Led lastFullFrame ff (.snoc (.none none 0) child below)

/-- A full frame somewhere in a row or below it, with its children. -/
inductive Children.Has : Children M → FullFrame M → Children M → Prop
  | here {left child below} : Children.Has (.snoc left child below) child below
  | left {left child below ff children} (has : left.Has ff children) : Children.Has (.snoc left child below) ff children
  | inside {left child below ff children} (has : below.Has ff children) : Children.Has (.snoc left child below) ff children

/-- The leader is at a frame with a sync master, below it, or looks for work. -/
def FullFrame.HasLeader (ff : FullFrame M) (children : Children M) (idle : Multiset (Worker M)) : Prop :=
  ff.syncMaster = true → ∃ w ∈ crew ff children idle, w.user = true

def Children.HaveLeader (row : Children M) (idle : Multiset (Worker M)) : Prop :=
  ∀ ff below, row.Has ff below → ff.HasLeader below idle

end SyncMaster

structure State.Inv (leader : ℤ) (others : Multiset ℤ) (s : State M) : Prop where
  consistent : s.root.Consistent s.children
  attached : s.root.callStack.detached = false
  last : s.root.callStack.last = true
  right : s.root.rightReducerMap = none
  children : s.children.Inv
  idle : Idle s.idle
  led : ∃ lastFullFrame, Led lastFullFrame s.root s.children ∧ Crewed leader others lastFullFrame s.workers

end CilkArtifact.Runtime
