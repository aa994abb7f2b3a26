import CilkArtifact.Runtime.Deque
import CilkArtifact.Runtime.Workers

/-! The deque of a worker in the model of the scheduler, which has the worker's stack frames instead: the call parents
of its spawn helpers. Every step of the scheduler does to it what the atomic deque allows. -/
namespace CilkArtifact.Runtime
open Simulation DotMix
open Deque (Atomic)
universe u
variable {M : Type u}

/-- The deque of a worker with these stack frames: the call parents of the detached ones, the oldest first. -/
def callParents (oldest : StackFrame M) : List (StackFrame M) → List (StackFrame M)
  | [] => []
  | sf :: young => callParents oldest young ++ if sf.detached then [young.headD oldest] else []

theorem callParents_older (oldest : StackFrame M) {older : List (StackFrame M)}
    (attached : ∀ sf ∈ older, sf.detached = false) :
    callParents oldest older = [] := by
  induction older with
  | nil => rfl
  | cons sf older ih => simp [callParents, attached sf, ih fun sf mem => attached sf (.tail _ mem)]

theorem callParents_newer (oldest helper : StackFrame M) (newer older : List (StackFrame M)) :
    callParents oldest (newer ++ helper :: older) = callParents oldest (helper :: older) ++ callParents helper newer := by
  induction newer with
  | nil => exact (List.append_nil _).symm
  | cons sf newer ih =>
    have parent : (newer ++ helper :: older).headD oldest = newer.headD helper := by cases newer <;> rfl
    rw [List.cons_append, callParents, ih, parent, callParents.eq_2 helper, List.append_assoc]

/-- A stack frame calls one frame at a time. -/
theorem execute_pushed [Mul M] {stale : Pedigree} {w w' : Worker M} {sf sf' : StackFrame M} {pushed : List (StackFrame M)}
    (runs : execute stale w sf = some (w', sf', pushed)) :
    sf'.detached = sf.detached ∧ (pushed = [] ∨ ∃ called, pushed = [called]) := by
  unfold execute at runs
  split at runs
  · cases runs
  · cases runs
    exact ⟨rfl, .inl rfl⟩
  · cases runs
    exact ⟨rfl, .inl rfl⟩
  · cases runs
    exact ⟨rfl, .inr ⟨_, rfl⟩⟩
  · cases runs
    exact ⟨rfl, .inr ⟨_, rfl⟩⟩
  · split at runs
    · cases runs
    · cases runs
      exact ⟨rfl, .inl rfl⟩

theorem enter_deque (oldest called : StackFrame M) (young : List (StackFrame M)) :
    Matches Atomic (callParents oldest young) (if called.detached then some (.push (young.headD oldest)) else none)
      (callParents oldest (called :: young)) := by
  cases detached : called.detached with
  | true =>
    simp only [callParents, detached, if_true]
    exact .push
  | false => simp [callParents, detached, Matches]

/-- A worker that leaves a spawn helper pops the frame it returns to. -/
theorem leave_deque (oldest sf : StackFrame M) (young : List (StackFrame M)) :
    Matches Atomic (callParents oldest (sf :: young)) (if sf.detached then some (.pop (young.headD oldest)) else none)
      (callParents oldest young) := by
  cases detached : sf.detached with
  | true =>
    simp only [callParents, detached, if_true]
    exact .pop
  | false => simp [callParents, detached, Matches]

/-- What the current stack frame runs pushes that frame at most. -/
theorem run_deque [Mul M] {ff ff' : FullFrame M} {stale : Pedigree} {w : Worker M} {young : List (StackFrame M)}
    (runs : ff.run stale w young = some ff') : ∃ w' young' event, ff'.holder = .running w' young' ∧
      Matches Atomic (callParents ff.callStack young) event (callParents ff'.callStack young') := by
  obtain ⟨⟨w', sf, pushed⟩, executed, result⟩ := Option.bind_eq_some_iff.mp runs
  obtain ⟨detached, called⟩ := execute_pushed executed
  cases young with
  | nil =>
    cases result
    rcases called with rfl | ⟨called, rfl⟩
    · exact ⟨w', [], none, rfl, rfl⟩
    · exact ⟨w', [called], _, rfl, enter_deque sf called []⟩
  | cons current young =>
    cases result
    have same : callParents ff.callStack (sf :: young) = callParents ff.callStack (current :: young) := by
      rw [callParents, callParents, detached]
      rfl
    rcases called with rfl | ⟨called, rfl⟩
    · exact ⟨w', sf :: young, none, rfl, same⟩
    · exact ⟨w', called :: sf :: young, _, rfl, same ▸ enter_deque ff.callStack called (sf :: young)⟩

/-- A thief steals the oldest frame of the deque, and the victim keeps the others. -/
theorem detachForSteal_deque (oldest : StackFrame M) {newer older : List (StackFrame M)} {helper : StackFrame M}
    (detached : helper.detached = true) (attached : ∀ sf ∈ older, sf.detached = false) :
    Atomic (callParents oldest (newer ++ helper :: older)) (.steal (older.headD oldest)) (callParents helper newer) := by
  have first : callParents oldest (helper :: older) = [older.headD oldest] := by
    simp [callParents, detached, callParents_older oldest attached]
  rw [callParents_newer, first]
  exact .steal

/-- The deque of the worker that runs a full frame; other workers have nothing in theirs. -/
def FullFrame.deque (ff : FullFrame M) : List (StackFrame M) :=
  match ff.holder with
  | .running _ young => callParents ff.callStack young
  | _ => []

section Deque
variable {ff ff' : FullFrame M} {children children' : Children M} {idle idle' : Multiset (Worker M)} {w : Worker M}

theorem FullFrame.deque_running {young : List (StackFrame M)} (held : ff.holder = .running w young) :
    ff.deque = callParents ff.callStack young := by
  rw [FullFrame.deque, held]

/-- A worker that stalls at a sync has nothing in its deque, since `do_sync` asserts that the frame has no call
parent. -/
theorem cSync_deque {young : List (StackFrame M)} (syncs : ff.cSync w young = some ff') : young = [] ∧ ff'.deque = [] := by
  cases young with
  | nil =>
    simp only [FullFrame.cSync] at syncs
    split at syncs <;> cases syncs <;> exact ⟨rfl, rfl⟩
  | cons sf young => cases syncs

theorem reductionsForSync_deque (middle : Option M) : (reductionsForSync ff children w middle).1.deque = [] := by
  unfold reductionsForSync
  split
  split <;> rfl

/-- `provably_good_steal` takes the frame from no worker that runs it. -/
theorem provablyGoodSteal_deque {leader : Option (Worker M)} {result : FullFrame M × Multiset (Worker M)}
    (steals : provablyGoodSteal ff w leader = some result) :
    result.1.deque = ff.deque ∨ ff.joinCounter = 1 ∧ result.1.deque = [] := by
  simp only [provablyGoodSteal] at steals
  split at steals
  · cases steals
  split at steals
  case isTrue last =>
    refine .inr ⟨last, ?_⟩
    split at steals
    · split at steals
      · cases steals
        rfl
      · split at steals <;> cases steals
        rfl
    · cases steals
      rfl
  case isFalse => exact .inl (by cases steals; rfl)

theorem frameStep_deque [Monoid M] {result : Option (FullFrame M × Children M × Multiset (Worker M))}
    (step : FrameStep ff children idle result) (taken : result = some (ff', children', idle'))
    (consistent : ff.Consistent children) (inv : children.Inv) :
    (∃ event, Matches Atomic ff.deque event ff'.deque) ∨
      ∃ victim thief newer helper older, ff.holder = .running victim (newer ++ helper :: older) ∧
        detachForSteal ff children victim thief newer helper older = some (ff', children') ∧
        Atomic ff.deque (.steal (older.headD ff.callStack)) (callParents helper newer) := by
  cases step with
  | run held runs =>
    cases taken
    obtain ⟨w', young', event, held', pushes⟩ := run_deque runs
    rw [FullFrame.deque_running held, FullFrame.deque_running held']
    exact .inl ⟨event, pushes⟩
  | leave held ends synched =>
    cases taken
    rw [FullFrame.deque_running held]
    exact .inl ⟨_, leave_deque ..⟩
  | sync held stalls =>
    obtain ⟨_, syncs, same⟩ := Option.map_eq_some_iff.mp taken
    cases same
    obtain ⟨rfl, empty⟩ := cSync_deque syncs
    rw [FullFrame.deque_running held, empty]
    exact .inl ⟨none, rfl⟩
  | syncLoop held =>
    cases taken
    rw [reductionsForSync_deque, FullFrame.deque, held]
    exact .inl ⟨none, rfl⟩
  | syncMerge held =>
    cases taken
    rw [FullFrame.deque, held]
    exact .inl ⟨none, rfl⟩
  | doSync held team =>
    obtain ⟨_, syncs, same⟩ := Option.map_eq_some_iff.mp taken
    cases same
    unfold doSync at syncs
    split at syncs
    · refine .inl ⟨none, ?_⟩
      rw [Matches, show ff.deque = [] by rw [FullFrame.deque, held]]
      rcases provablyGoodSteal_deque syncs with kept | ⟨-, empty⟩
      · exact kept
      · exact empty
    · cases syncs
  | exceptionCheck held ends helper =>
    cases taken
    rw [FullFrame.deque_running held]
    exact .inl ⟨some .orphan, .orphan⟩
  | reduce held =>
    obtain ⟨_, reduces, same⟩ := Option.map_eq_some_iff.mp taken
    cases same
    unfold reduceForSpawnReturn at reduces
    split at reduces <;> cases reduces
    rw [FullFrame.deque, held]
    exact .inl ⟨none, rfl⟩
  | doReturnFromSpawn gone team =>
    obtain ⟨_, returns, same⟩ := Option.map_eq_some_iff.mp taken
    cases same
    unfold doReturnFromSpawn at returns
    split at returns
    · cases returns
    obtain ⟨parent, steals, checked⟩ := Option.bind_eq_some_iff.mp returns
    split at checked <;> cases checked
    rcases provablyGoodSteal_deque steals with kept | ⟨last, empty⟩
    · exact .inl ⟨none, kept⟩
    · refine .inl ⟨none, empty.trans ?_⟩
      rw [FullFrame.deque, (last_joins consistent gone last).1]
  | returnFromCall rightmost returns =>
    obtain ⟨_, result, same⟩ := Option.map_eq_some_iff.mp taken
    cases same
    subst rightmost
    have suspended := suspended_of_call consistent (returns_child inv returns).1
    unfold returnFromCall at result
    split at result
    · cases result
    split at result
    · cases result
    split at result <;> cases result
    rw [FullFrame.deque, suspended]
    exact .inl ⟨none, rfl⟩
  | @setup _ w isReturnFromCall held =>
    obtain ⟨_, resumes, same⟩ := Option.map_eq_some_iff.mp taken
    cases same
    obtain ⟨⟨w', kept⟩, -, running⟩ := Option.bind_eq_some_iff.mp resumes
    refine .inl ⟨none, ?_⟩
    rw [Matches, show ff.deque = [] by rw [FullFrame.deque, held]]
    cases isReturnFromCall with
    | true =>
      cases running
      rfl
    | false =>
      cases running
      rfl
  | steal held detached oldest =>
    obtain ⟨_, steals, same⟩ := Option.map_eq_some_iff.mp taken
    cases same
    rw [FullFrame.deque_running held]
    exact .inr ⟨_, _, _, _, _, held, steals, detachForSteal_deque _ detached oldest⟩

end Deque

section Runs
variable [Monoid M] {code : Code M} {w : Worker M} {stale : Pedigree} {idle idle' : Multiset (Worker M)}
  {s : State M} {ff ff' : FullFrame M} {below below' : Children M}

omit [Monoid M] in
theorem Children.Has.inv {row : Children M} (has : row.Has ff below) (inv : row.Inv) : below.Inv := by
  induction has with
  | here =>
    cases inv with
    | snoc _ below_inv _ _ _ => exact below_inv
  | left _ ih =>
    cases inv with
    | snoc left_inv _ _ _ _ => exact ih left_inv
  | inside _ ih =>
    cases inv with
    | snoc _ below_inv _ _ _ => exact ih below_inv

/-- In every reachable state a step of the scheduler on a full frame does at most one thing to the deque of the worker
that runs it: the worker pushes or pops a frame, finds that the one it would return to is gone, or loses the oldest
one to a thief and goes on with the others in a new full frame. -/
theorem scheduler_atomic (enters : State.Enters w idle) (run : (State.initial code w stale idle).Reaches s)
    (frame : (ff = s.root ∧ below = s.children) ∨ s.children.Has ff below)
    (step : FrameStep ff below s.idle (some (ff', below', idle'))) :
    (∃ event, Matches Atomic ff.deque event ff'.deque) ∨
      ∃ victim thief newer helper older, ff.holder = .running victim (newer ++ helper :: older) ∧
        detachForSteal ff below victim thief newer helper older = some (ff', below') ∧
        Atomic ff.deque (.steal (older.headD ff.callStack)) (callParents helper newer) := by
  have inv := (run.preserved (State.initial_inv enters)).1
  rcases frame with ⟨rfl, rfl⟩ | has
  · exact frameStep_deque step rfl inv.consistent inv.children
  · exact frameStep_deque step rfl (has.consistent inv.children) (has.inv inv.children)

open State in
/-- The system worker steals the continuation of the first spawn. -/
theorem scheduler_atomic_forked : ∃ s : State (FreeMonoid Word), ∃ ff' below',
    (initial forked mainWorker ⟨0, []⟩ {systemWorker}).Reaches s ∧ s.root.deque = [s.root.callStack] ∧
      ((∃ event, Matches Atomic s.root.deque event ff'.deque) ∨
        ∃ victim thief newer helper older, s.root.holder = .running victim (newer ++ helper :: older) ∧
          detachForSteal s.root s.children victim thief newer helper older = some (ff', below') ∧
          Atomic s.root.deque (.steal (older.headD s.root.callStack)) (callParents helper newer)) := by
  have spawn : (initial forked mainWorker ⟨0, []⟩ {systemWorker}).Steps (some forkedSpawned) :=
    .frame (@FrameStep.run _ _ _ _ _ _ _ ⟨0, []⟩ _ rfl rfl)
  have steal : FrameStep forkedSpawned.root forkedSpawned.children forkedSpawned.idle _ :=
    @FrameStep.steal _ _ _ _ 0 _ systemWorker [] _ [] rfl rfl (by simp)
  have run : (initial forked mainWorker ⟨0, []⟩ {systemWorker}).Reaches forkedSpawned := .tail .refl spawn
  exact ⟨forkedSpawned, _, _, run, rfl, scheduler_atomic mainWorker_enters run (.inl ⟨rfl, rfl⟩) steal⟩

end Runs

end CilkArtifact.Runtime
