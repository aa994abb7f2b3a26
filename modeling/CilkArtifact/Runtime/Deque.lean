import CilkArtifact.Library.Simulation

/-! The THE protocol between a worker that pushes and pops frames at the tail of its deque and thieves that steal at
the head, under sequential consistency. A step makes one access to a word that another party may change at that
moment, with the accesses next to it that no other party can see: those to words the worker alone writes, and those
that need the lock its party has. A thief's test of the deque before it asks for the lock, which decides nothing, and
the end of the array are left out, as are `__cilkrts_promote_own_deque`, which races with no one, and the exception
pointer at infinity, which the runtime never sets. -/
namespace CilkArtifact.Runtime.Deque
open Simulation

/-- Why the worker takes its own lock. -/
inductive Purpose where
  /-- `__cilkrts_c_THE_exception_check` -/
  | exceptionCheck
  /-- `__cilkrts_pop_tail`, for an exception that leaves a spawn helper. -/
  | popTail
  /-- `setup_for_execution` for the next frame, if there is one. -/
  | setup
  /-- What does not touch the deque, and whether the worker is without work then. -/
  | visit (idle : Bool)
  deriving DecidableEq

/-- Where the worker that owns the deque is. -/
inductive VictimPc where
  /-- In the program, or in the reductions before it gives up its full frame. -/
  | working
  /-- In `__cilk_fake_detach`, between the stores of the frame and of the tail. -/
  | detaching
  /-- In `__cilkrts_undo_detach`, between the store of the tail and the load of the exception pointer. -/
  | undoing
  /-- At the start of `__cilkrts_worker_lock`. -/
  | flagging (purpose : Purpose)
  | waiting (purpose : Purpose)
  | entered (purpose : Purpose)
  /-- In `__cilkrts_worker_unlock`, before the lock is free. -/
  | unlocking (idle : Bool)
  | clearing (idle : Bool)
  /-- Without work. -/
  | idle
  deriving DecidableEq

/-- Where a thief is. -/
inductive ThiefPc where
  | away
  /-- In `worker_trylock_other` with the steal lock. -/
  | admitted
  /-- There, and has found `do_not_steal` clear. -/
  | cleared
  /-- About to free the steal lock. -/
  | leaving (status : Bool)
  /-- In `random_steal` with the victim's lock. -/
  | inside
  /-- In `can_steal_from`, before it reads the tail. -/
  | raised
  /-- There, before it reads the protected tail. -/
  | checking
  | lowering
  /-- `dekker_protocol` has allowed the theft. -/
  | detaching
  /-- In `detach_for_steal`, between the store of the head and the load of the frame. -/
  | looting
  /-- About to free the victim's lock. -/
  | unlocking
  deriving DecidableEq

inductive Owner (ι : Type*) where
  | victim
  | thief (i : ι)
  deriving DecidableEq

/-- The shared words, with positions counted from the start of the array, and where everyone is. Two fields are no
words of the program: where the tail was when the worker was last without frames, and how often a thief has got the
lock since the worker asked thieves to stay away. -/
structure State (ι F : Type*) where
  head : ℤ
  tail : ℤ
  exc : ℤ
  protectedTail : ℤ
  ltq : ℤ → F
  doNotSteal : Bool
  stealLock : Option ι
  lock : Option (Owner ι)
  victim : VictimPc
  thieves : ι → ThiefPc
  bottom : ℤ
  overtaken : ℕ

/-- What happens to a frame. -/
inductive Event (F : Type*) where
  | push (frame : F)
  | pop (frame : F)
  | steal (frame : F)
  /-- The worker finds that the frame it would return to is gone. -/
  | orphan

/-- The deque as one word, the oldest frame first. -/
inductive Atomic {F : Type*} : List F → Event F → List F → Prop
  | push {frames frame} : Atomic frames (.push frame) (frames ++ [frame])
  | pop {frames frame} : Atomic (frames ++ [frame]) (.pop frame) frames
  | steal {frames frame} : Atomic (frame :: frames) (.steal frame) frames
  | orphan : Atomic [] .orphan []

variable {ι F : Type*} [DecidableEq ι]

def State.move (s : State ι F) (i : ι) (pc : ThiefPc) : State ι F := { s with thieves := Function.update s.thieves i pc }

section Move
variable (s : State ι F) (i : ι) (pc : ThiefPc)

@[simp] theorem State.move_thieves : (s.move i pc).thieves = Function.update s.thieves i pc := rfl
@[simp] theorem State.move_lock : (s.move i pc).lock = s.lock := rfl
@[simp] theorem State.move_stealLock : (s.move i pc).stealLock = s.stealLock := rfl

end Move

inductive Step (s : State ι F) : Option (Event F) → State ι F → Prop
  /-- `*tail++ = sf->call_parent` -/
  | storeFrame (frame : F) (pc : s.victim = .working) :
      Step s none { s with ltq := Function.update s.ltq s.tail frame, victim := .detaching }
  /-- `w->tail = tail` -/
  | storeTail (pc : s.victim = .detaching) :
      Step s (some (.push (s.ltq s.tail))) { s with tail := s.tail + 1, victim := .working }
  | undoDetach (pc : s.victim = .working) : Step s none { s with tail := s.tail - 1, victim := .undoing }
  | undoWins (pc : s.victim = .undoing) (enough : s.exc ≤ s.tail) :
      Step s (some (.pop (s.ltq s.tail))) { s with victim := .working }
  | undoFails (pc : s.victim = .undoing) (short : s.tail < s.exc) :
      Step s none { s with victim := .flagging .exceptionCheck }
  /-- `__cilkrts_return_exception` -/
  | returnException (pc : s.victim = .working) : Step s none { s with victim := .flagging .popTail }
  /-- `do_sync`, `do_return_from_spawn` or `__cilkrts_c_return_from_initial`, after the spawn helpers of the full frame. -/
  | finish (pc : s.victim = .working) (without : s.tail = s.bottom) :
      Step s none { s with victim := .flagging (.visit true) }
  /-- `__cilkrts_return`, after the spawn helpers of the full frame. -/
  | returnCall (pc : s.victim = .working) (without : s.tail = s.bottom) :
      Step s none { s with victim := .flagging .setup }
  /-- `__cilkrts_watch_stack` -/
  | watch (pc : s.victim = .working) : Step s none { s with victim := .flagging (.visit false) }
  /-- `check_for_work`, or another round of `provably_good_steal` in a replay. -/
  | look (pc : s.victim = .idle) : Step s none { s with victim := .flagging (.visit true) }
  | findWork (pc : s.victim = .idle) : Step s none { s with victim := .flagging .setup }
  /-- `__cilkrts_bind_thread` -/
  | bind (pc : s.victim = .idle) : Step s none { s with victim := .working }
  /-- `__cilkrts_disallow_stealing` or `__cilkrts_restore_stealing` -/
  | protect (newTail : ℤ) : Step s none { s with protectedTail := newTail }
  | flag {purpose} (pc : s.victim = .flagging purpose) :
      Step s none { s with doNotSteal := true, victim := .waiting purpose, overtaken := 0 }
  | enter {purpose} (pc : s.victim = .waiting purpose) (free : s.lock = none) :
      Step s none { s with lock := some .victim, victim := .entered purpose }
  /-- The check finds the frame still there. -/
  | notStolen (pc : s.victim = .entered .exceptionCheck) (here : s.head < s.tail + 1) :
      Step s (some (.pop (s.ltq s.tail))) { s with exc := s.head, victim := .unlocking false }
  | stolen (pc : s.victim = .entered .exceptionCheck) (gone : ¬ s.head < s.tail + 1) :
      Step s (some .orphan)
        { s with exc := s.head, tail := s.tail + 1, victim := .unlocking false, bottom := s.tail + 1 }
  | popTail (pc : s.victim = .entered .popTail) (here : s.head < s.tail) :
      Step s (some (.pop (s.ltq (s.tail - 1)))) { s with tail := s.tail - 1, victim := .unlocking false }
  | popNothing (pc : s.victim = .entered .popTail) (gone : ¬ s.head < s.tail) :
      Step s (some .orphan) { s with victim := .unlocking false, bottom := s.tail }
  | setup (pc : s.victim = .entered .setup) :
      Step s none { s with head := 0, tail := 0, exc := 0, victim := .unlocking false, bottom := 0 }
  /-- `pop_next_frame` has no frame. -/
  | noWork (pc : s.victim = .entered .setup) : Step s none { s with victim := .unlocking true }
  | visited {idle} (pc : s.victim = .entered (.visit idle)) : Step s none { s with victim := .unlocking idle }
  | unlock {idle} (pc : s.victim = .unlocking idle) : Step s none { s with lock := none, victim := .clearing idle }
  | clear {idle} (pc : s.victim = .clearing idle) :
      Step s none { s with doNotSteal := false, victim := if idle then .idle else .working }
  | trySteal (i : ι) (pc : s.thieves i = .away) (free : s.stealLock = none) :
      Step s none { s.move i .admitted with stealLock := some i }
  | readFlag (i : ι) (pc : s.thieves i = .admitted) :
      Step s none (s.move i (if s.doNotSteal then .leaving false else .cleared))
  | tryLock (i : ι) (pc : s.thieves i = .cleared) (free : s.lock = none) :
      Step s none { s.move i (.leaving true) with lock := some (.thief i), overtaken := s.overtaken + 1 }
  | lockTaken (i : ι) (pc : s.thieves i = .cleared) (taken : s.lock ≠ none) :
      Step s none (s.move i (.leaving false))
  | freeStealLock (i : ι) {status} (pc : s.thieves i = .leaving status) :
      Step s none { s.move i (if status then .inside else .away) with stealLock := none }
  /-- The victim has no full frame, or is in another team. -/
  | decline (i : ι) (pc : s.thieves i = .inside) : Step s none (s.move i .unlocking)
  /-- `increment_E` -/
  | raise (i : ι) (pc : s.thieves i = .inside) : Step s none { s.move i .raised with exc := s.exc + 1 }
  | checkTail (i : ι) (pc : s.thieves i = .raised) :
      Step s none (s.move i (if s.head < s.tail then .checking else .lowering))
  | checkProtected (i : ι) (pc : s.thieves i = .checking) :
      Step s none (s.move i (if s.head < s.protectedTail then .detaching else .lowering))
  /-- A replay asks for another frame. -/
  | refuse (i : ι) (pc : s.thieves i = .detaching) : Step s none (s.move i .lowering)
  /-- `decrement_E` -/
  | lower (i : ι) (pc : s.thieves i = .lowering) : Step s none { s.move i .unlocking with exc := s.exc - 1 }
  /-- `victim->head = h + 1` -/
  | detach (i : ι) (pc : s.thieves i = .detaching) : Step s none { s.move i .looting with head := s.head + 1 }
  /-- `sf = *h` -/
  | loot (i : ι) (pc : s.thieves i = .looting) :
      Step s (some (.steal (s.ltq (s.head - 1)))) (s.move i .unlocking)
  | freeLock (i : ι) (pc : s.thieves i = .unlocking) : Step s none { s.move i .away with lock := none }

/-! ## The invariant -/

/-- The tail is decremented but it is open whether the frame above it has been stolen. -/
def Purpose.undecided : Purpose → ℤ
  | exceptionCheck => 1
  | _ => 0

theorem Purpose.undecided_nonneg (purpose : Purpose) : 0 ≤ purpose.undecided := by
  unfold undecided
  split <;> decide

/-- The worker has no frames of its own. -/
def Purpose.out : Purpose → Bool
  | setup | visit true => true
  | _ => false

theorem Purpose.undecided_of_out {purpose : Purpose} (empty : purpose.out = true) : purpose.undecided = 0 := by
  cases purpose with
  | exceptionCheck => cases empty
  | _ => rfl

namespace VictimPc

def hasLock : VictimPc → Bool
  | entered _ | unlocking _ => true
  | _ => false

/-- Between the stores of `do_not_steal`. -/
def hasFlag : VictimPc → Bool
  | waiting _ | entered _ | unlocking _ | clearing _ => true
  | _ => false

def undecided : VictimPc → ℤ
  | undoing => 1
  | flagging purpose | waiting purpose | entered purpose => purpose.undecided
  | _ => 0

def out : VictimPc → Bool
  | idle => true
  | flagging purpose | waiting purpose | entered purpose => purpose.out
  | unlocking resting | clearing resting => resting
  | _ => false

theorem undecided_nonneg (pc : VictimPc) : 0 ≤ pc.undecided := by
  cases pc with
  | undoing => exact zero_le_one
  | flagging purpose => exact purpose.undecided_nonneg
  | waiting purpose => exact purpose.undecided_nonneg
  | entered purpose => exact purpose.undecided_nonneg
  | _ => exact le_rfl

theorem undecided_of_out {pc : VictimPc} (empty : pc.out = true) : pc.undecided = 0 := by
  cases pc with
  | undoing => cases empty
  | flagging purpose => exact purpose.undecided_of_out empty
  | waiting purpose => exact purpose.undecided_of_out empty
  | entered purpose => exact purpose.undecided_of_out empty
  | _ => rfl

end VictimPc

namespace ThiefPc

def hasLock : ThiefPc → Bool
  | away | admitted | cleared | leaving false => false
  | _ => true

def hasStealLock : ThiefPc → Bool
  | admitted | cleared | leaving _ => true
  | _ => false

/-- How far the exception pointer is above the head. -/
def raise : ThiefPc → ℤ
  | raised | checking | lowering | detaching => 1
  | _ => 0

/-- The thief has found a frame at the head. -/
def claims : ThiefPc → Bool
  | checking | detaching => true
  | _ => false

/-- How many frames below the head are still to be read. -/
def loot : ThiefPc → ℤ
  | looting => 1
  | _ => 0

theorem raise_nonneg (pc : ThiefPc) : 0 ≤ pc.raise := by
  unfold raise
  split <;> decide

theorem raise_of_claims (pc : ThiefPc) (holds : pc.claims = true) : pc.raise = 1 := by
  cases pc with
  | checking => rfl
  | detaching => rfl
  | _ => cases holds

end ThiefPc

namespace State

/-- The end of the frames of the deque. -/
def top (s : State ι F) : ℤ := s.tail + s.victim.undecided

/-- Where the thief with the victim's lock is, if one has it. -/
def inLock (s : State ι F) : ThiefPc :=
  match s.lock with
  | some (.thief i) => s.thieves i
  | _ => .away

/-- Where the thief with the steal lock is, if one has it. -/
def inStealLock (s : State ι F) : ThiefPc :=
  match s.stealLock with
  | some i => s.thieves i
  | none => .away

/-- The start of the frames of the deque. -/
def base (s : State ι F) : ℤ := s.head - s.inLock.loot

/-- Whoever is where a lock is needed has it. -/
structure Locked (s : State ι F) : Prop where
  thief : ∀ i, (s.thieves i).hasLock = true ↔ s.lock = some (.thief i)
  victim : s.victim.hasLock = true ↔ s.lock = some .victim
  steal : ∀ i, (s.thieves i).hasStealLock = true ↔ s.stealLock = some i

/-- Where the exception pointer, the head and the tail may be. -/
structure Ordered (s : State ι F) : Prop where
  exc : s.exc = s.head + s.inLock.raise
  bottom : s.bottom ≤ s.base
  order : s.head ≤ s.top
  claims : s.inLock.claims = true → s.head < s.top
  out : s.victim.out = true → s.tail = s.bottom

/-- A worker that has asked thieves to stay away has been overtaken by one at most. -/
structure Flagged (s : State ι F) : Prop where
  flag : s.doNotSteal = s.victim.hasFlag
  once : s.doNotSteal = true → s.overtaken ≤ 1
  never : s.doNotSteal = true → s.inStealLock = .cleared → s.overtaken = 0

end State

section Moves
variable {s t : State ι F} {i : ι} {pc : ThiefPc}

/-- A thief moves, and only its own part of the locks changes. -/
theorem State.Locked.move (locked : s.Locked) (thieves : t.thieves = Function.update s.thieves i pc)
    (victim : t.victim = s.victim) (mine : pc.hasLock = true ↔ t.lock = some (.thief i))
    (others : ∀ owner, owner ≠ .thief i → (t.lock = some owner ↔ s.lock = some owner))
    (mineSteal : pc.hasStealLock = true ↔ t.stealLock = some i)
    (othersSteal : ∀ j, j ≠ i → (t.stealLock = some j ↔ s.stealLock = some j)) : t.Locked := by
  refine ⟨?_, ?_, ?_⟩
  · rw [thieves, Function.forall_update_iff s.thieves fun j pc => pc.hasLock = true ↔ t.lock = some (.thief j)]
    exact ⟨mine, fun j other => (locked.thief j).trans (others _ (by simpa using other)).symm⟩
  · rw [victim, locked.victim, others _ (by simp)]
  · rw [thieves, Function.forall_update_iff s.thieves fun j pc => pc.hasStealLock = true ↔ t.stealLock = some j]
    exact ⟨mineSteal, fun j other => (locked.steal j).trans (othersSteal j other).symm⟩

/-- A thief moves without touching a lock. -/
theorem State.Locked.walk (locked : s.Locked) (thieves : t.thieves = Function.update s.thieves i pc)
    (victim : t.victim = s.victim) (lock : t.lock = s.lock) (stealLock : t.stealLock = s.stealLock)
    (has : pc.hasLock = (s.thieves i).hasLock) (hasSteal : pc.hasStealLock = (s.thieves i).hasStealLock) :
    t.Locked := by
  refine locked.move thieves victim ?_ (fun owner _ => by rw [lock]) ?_ fun j _ => by rw [stealLock]
  · rw [has, lock]
    exact locked.thief i
  · rw [hasSteal, stealLock]
    exact locked.steal i

omit [DecidableEq ι] in
/-- The worker moves without touching a lock. -/
theorem State.Locked.worker (locked : s.Locked) (thieves : t.thieves = s.thieves) (lock : t.lock = s.lock)
    (stealLock : t.stealLock = s.stealLock) (has : t.victim.hasLock = s.victim.hasLock) : t.Locked := by
  constructor
  · rw [thieves, lock]
    exact locked.thief
  · rw [has, lock]
    exact locked.victim
  · rw [thieves, stealLock]
    exact locked.steal

omit [DecidableEq ι] in
theorem State.inLock_eq (own : s.lock = some (.thief i)) : s.inLock = s.thieves i := by
  rw [State.inLock, own]

omit [DecidableEq ι] in
/-- No thief is past the lock that the worker has. -/
theorem State.Locked.alone (locked : s.Locked) (has : s.victim.hasLock = true) : s.inLock = .away := by
  rw [State.inLock, locked.victim.mp has]

theorem State.inLock_move (other : s.lock ≠ some (.thief i)) : (s.move i pc).inLock = s.inLock := by
  cases lock : s.lock with
  | none => simp [State.inLock, State.move, lock]
  | some owner =>
    cases owner with
    | victim => simp [State.inLock, State.move, lock]
    | thief j =>
      have different : j ≠ i := fun same => other (by rw [lock, same])
      simp [State.inLock, State.move, lock, different]

omit [DecidableEq ι] in
theorem State.inStealLock_eq (own : s.stealLock = some i) : s.inStealLock = s.thieves i := by
  rw [State.inStealLock, own]

theorem State.inStealLock_move (other : s.stealLock ≠ some i) : (s.move i pc).inStealLock = s.inStealLock := by
  cases lock : s.stealLock with
  | none => simp [State.inStealLock, State.move, lock]
  | some j =>
    have different : j ≠ i := fun same => other (by rw [lock, same])
    simp [State.inStealLock, State.move, lock, different]

omit [DecidableEq ι] in
/-- A thief that is not where the lock is needed does not have it. -/
theorem State.Locked.not_mine (locked : s.Locked) (away : (s.thieves i).hasLock = false) :
    s.lock ≠ some (.thief i) := by
  intro own
  rw [(locked.thief i).mpr own] at away
  cases away

omit [DecidableEq ι] in
/-- Nor one that is not where the steal lock is needed. -/
theorem State.Locked.not_steal (locked : s.Locked) (away : (s.thieves i).hasStealLock = false) :
    s.stealLock ≠ some i := by
  intro own
  rw [(locked.steal i).mpr own] at away
  cases away

end Moves

section Steps
variable {s s' : State ι F} {event : Option (Event F)}

theorem Step.locked (step : Step s event s') (locked : s.Locked) : s'.Locked := by
  cases step with
  | storeFrame frame pc => exact locked.worker rfl rfl rfl (by rw [pc]; rfl)
  | storeTail pc => exact locked.worker rfl rfl rfl (by rw [pc]; rfl)
  | undoDetach pc => exact locked.worker rfl rfl rfl (by rw [pc]; rfl)
  | undoWins pc => exact locked.worker rfl rfl rfl (by rw [pc]; rfl)
  | undoFails pc => exact locked.worker rfl rfl rfl (by rw [pc]; rfl)
  | returnException pc => exact locked.worker rfl rfl rfl (by rw [pc]; rfl)
  | finish pc => exact locked.worker rfl rfl rfl (by rw [pc]; rfl)
  | returnCall pc => exact locked.worker rfl rfl rfl (by rw [pc]; rfl)
  | watch pc => exact locked.worker rfl rfl rfl (by rw [pc]; rfl)
  | look pc => exact locked.worker rfl rfl rfl (by rw [pc]; rfl)
  | findWork pc => exact locked.worker rfl rfl rfl (by rw [pc]; rfl)
  | bind pc => exact locked.worker rfl rfl rfl (by rw [pc]; rfl)
  | protect newTail => exact locked.worker rfl rfl rfl rfl
  | flag pc => exact locked.worker rfl rfl rfl (by rw [pc]; rfl)
  | enter pc free => exact ⟨by simpa [free] using locked.thief, by simp [VictimPc.hasLock], locked.steal⟩
  | notStolen pc => exact locked.worker rfl rfl rfl (by rw [pc]; rfl)
  | stolen pc => exact locked.worker rfl rfl rfl (by rw [pc]; rfl)
  | popTail pc => exact locked.worker rfl rfl rfl (by rw [pc]; rfl)
  | popNothing pc => exact locked.worker rfl rfl rfl (by rw [pc]; rfl)
  | setup pc => exact locked.worker rfl rfl rfl (by rw [pc]; rfl)
  | noWork pc => exact locked.worker rfl rfl rfl (by rw [pc]; rfl)
  | visited pc => exact locked.worker rfl rfl rfl (by rw [pc]; rfl)
  | unlock pc =>
    have own : s.lock = some .victim := locked.victim.mp (by rw [pc]; rfl)
    exact ⟨by simpa [own] using locked.thief, by simp [VictimPc.hasLock], locked.steal⟩
  | @clear idle pc => cases idle <;> exact locked.worker rfl rfl rfl (by rw [pc]; rfl)
  | trySteal i pc free =>
    refine locked.move rfl rfl ?_ (fun _ _ => Iff.rfl) (by simp [ThiefPc.hasStealLock]) fun j other => ?_
    · simpa [pc, ThiefPc.hasLock] using locked.thief i
    · simpa [free] using other.symm
  | readFlag i pc =>
    cases s.doNotSteal <;> exact locked.walk rfl rfl rfl rfl (by rw [pc]; rfl) (by rw [pc]; rfl)
  | tryLock i pc free =>
    refine locked.move rfl rfl (by simp [ThiefPc.hasLock]) (fun owner other => ?_) ?_ fun _ _ => Iff.rfl
    · simpa [free] using other.symm
    · simpa [pc, ThiefPc.hasStealLock, State.move] using locked.steal i
  | lockTaken i pc taken => exact locked.walk rfl rfl rfl rfl (by rw [pc]; rfl) (by rw [pc]; rfl)
  | @freeStealLock i status pc =>
    have own : s.stealLock = some i := (locked.steal i).mp (by rw [pc]; rfl)
    have mine := locked.thief i
    rw [pc] at mine
    refine locked.move rfl rfl ?_ (fun _ _ => Iff.rfl) ?_ fun j other => ?_
    · cases status <;> exact mine
    · cases status <;> simp [ThiefPc.hasStealLock]
    · simpa [own] using other.symm
  | decline i pc => exact locked.walk rfl rfl rfl rfl (by rw [pc]; rfl) (by rw [pc]; rfl)
  | raise i pc => exact locked.walk rfl rfl rfl rfl (by rw [pc]; rfl) (by rw [pc]; rfl)
  | checkTail i pc => refine locked.walk rfl rfl rfl rfl ?_ ?_ <;> split <;> rw [pc] <;> rfl
  | checkProtected i pc => refine locked.walk rfl rfl rfl rfl ?_ ?_ <;> split <;> rw [pc] <;> rfl
  | refuse i pc => exact locked.walk rfl rfl rfl rfl (by rw [pc]; rfl) (by rw [pc]; rfl)
  | lower i pc => exact locked.walk rfl rfl rfl rfl (by rw [pc]; rfl) (by rw [pc]; rfl)
  | detach i pc => exact locked.walk rfl rfl rfl rfl (by rw [pc]; rfl) (by rw [pc]; rfl)
  | loot i pc => exact locked.walk rfl rfl rfl rfl (by rw [pc]; rfl) (by rw [pc]; rfl)
  | freeLock i pc =>
    have own : s.lock = some (.thief i) := (locked.thief i).mp (by rw [pc]; rfl)
    refine locked.move rfl rfl (by simp [ThiefPc.hasLock]) (fun owner other => ?_) ?_ fun _ _ => Iff.rfl
    · simpa [own] using other.symm
    · simpa [pc, ThiefPc.hasStealLock, State.move] using locked.steal i

omit [DecidableEq ι] in
/-- The worker moves, and the thieves, the lock and the words that need it stay. -/
theorem State.Ordered.worker {t : State ι F} (ordered : s.Ordered) (inLock : t.inLock = s.inLock) (exc : t.exc = s.exc)
    (head : t.head = s.head) (bottom : t.bottom = s.bottom) (order : s.head ≤ t.top)
    (claims : s.inLock.claims = true → s.head < t.top) (out : t.victim.out = true → t.tail = s.bottom) : t.Ordered := by
  constructor
  · rw [exc, head, inLock, ordered.exc]
  · rw [State.base, bottom, head, inLock]
    exact ordered.bottom
  · rwa [head]
  · rwa [inLock, head]
  · rwa [bottom]

omit [DecidableEq ι] in
/-- The worker moves and the top of the deque stays. -/
theorem State.Ordered.stay {t : State ι F} (ordered : s.Ordered) (inLock : t.inLock = s.inLock) (exc : t.exc = s.exc)
    (head : t.head = s.head) (bottom : t.bottom = s.bottom) (top : t.top = s.top)
    (out : t.victim.out = true → t.tail = s.bottom) : t.Ordered :=
  ordered.worker inLock exc head bottom (top ▸ ordered.order) (top ▸ ordered.claims) out

omit [DecidableEq ι] in
/-- No thief has the lock. -/
theorem State.Ordered.calm {t : State ι F} (alone : t.inLock = .away) (exc : t.exc = t.head) (bottom : t.bottom ≤ t.head)
    (order : t.head ≤ t.top) (out : t.victim.out = true → t.tail = t.bottom) : t.Ordered := by
  constructor
  · rw [exc, alone]
    exact (add_zero _).symm
  · rw [State.base, alone]
    exact bottom.trans_eq (sub_zero _).symm
  · exact order
  · rw [alone]
    exact nofun
  · exact out

omit [DecidableEq ι] in
theorem State.Ordered.exc_calm (ordered : s.Ordered) (alone : s.inLock = .away) : s.exc = s.head := by
  rw [ordered.exc, alone]
  exact add_zero _

omit [DecidableEq ι] in
theorem State.base_le_head (s : State ι F) : s.base ≤ s.head := by
  unfold State.base ThiefPc.loot
  split <;> omega

omit [DecidableEq ι] in
theorem State.Ordered.bottom_le_head (ordered : s.Ordered) : s.bottom ≤ s.head := ordered.bottom.trans s.base_le_head

omit [DecidableEq ι] in
/-- A thief moves, and the deque's worker stays. -/
theorem State.Ordered.thief {t : State ι F} (ordered : s.Ordered) (victim : t.victim = s.victim) (tail : t.tail = s.tail)
    (bottom : t.bottom = s.bottom) (exc : t.exc = t.head + t.inLock.raise) (base : s.base ≤ t.base)
    (order : t.head ≤ s.top) (claims : t.inLock.claims = true → t.head < s.top) : t.Ordered := by
  have top : t.top = s.top := by rw [State.top, victim, tail, State.top]
  constructor
  · exact exc
  · rw [bottom]
    exact ordered.bottom.trans base
  · rwa [top]
  · rwa [top]
  · rw [victim, tail, bottom]
    exact ordered.out

omit [DecidableEq ι] in
/-- A thief without the lock moves. -/
theorem State.Ordered.visitor {t : State ι F} (ordered : s.Ordered) (victim : t.victim = s.victim) (tail : t.tail = s.tail)
    (bottom : t.bottom = s.bottom) (exc : t.exc = s.exc) (head : t.head = s.head) (inLock : t.inLock = s.inLock) :
    t.Ordered := by
  refine ordered.thief victim tail bottom ?_ ?_ ?_ ?_
  · rw [exc, head, inLock, ordered.exc]
  · rw [State.base, State.base, head, inLock]
  · rw [head]
    exact ordered.order
  · rw [head, inLock]
    exact ordered.claims

/-- A thief with the lock moves, and neither the head nor what it has to read changes. -/
theorem State.Ordered.inside {t : State ι F} {i : ι} {old new : ThiefPc} (ordered : s.Ordered) (locked : s.Locked)
    (pc : s.thieves i = old) (has : old.hasLock = true) (thieves : t.thieves = Function.update s.thieves i new)
    (victim : t.victim = s.victim) (tail : t.tail = s.tail) (bottom : t.bottom = s.bottom) (lock : t.lock = s.lock)
    (head : t.head = s.head) (exc : t.exc - new.raise = s.exc - old.raise) (loot : new.loot ≤ old.loot)
    (claims : new.claims = true → s.head < s.top) : t.Ordered := by
  have own : s.lock = some (.thief i) := (locked.thief i).mp (pc ▸ has)
  have before : s.inLock = old := (State.inLock_eq own).trans pc
  have after : t.inLock = new := by
    rw [State.inLock_eq (lock.trans own), thieves, Function.update_self]
  have excBefore := ordered.exc
  rw [before] at excBefore
  refine ordered.thief victim tail bottom ?_ ?_ ?_ ?_
  · rw [after, head]
    omega
  · rw [State.base, State.base, head, before, after]
    omega
  · rw [head]
    exact ordered.order
  · rw [head, after]
    exact claims

theorem Step.ordered (step : Step s event s') (locked : s.Locked) (ordered : s.Ordered) : s'.Ordered := by
  have order := ordered.order
  have claims := ordered.claims
  have out := ordered.out
  have exc := ordered.exc
  have bottom := ordered.bottom_le_head
  have top : s.top = s.tail + s.victim.undecided := rfl
  cases step with
  | storeFrame frame pc =>
    rw [pc] at top
    exact ordered.stay rfl rfl rfl rfl top.symm nofun
  | storeTail pc =>
    replace top : s.top = s.tail + 0 := by rw [top, pc]; rfl
    have more : s.top ≤ s.tail + 1 + 0 := by omega
    exact ordered.worker rfl rfl rfl rfl (order.trans more) (fun held => (claims held).trans_le more) nofun
  | undoDetach pc =>
    replace top : s.top = s.tail + 0 := by rw [top, pc]; rfl
    have same : s.tail - 1 + 1 = s.top := by omega
    exact ordered.stay rfl rfl rfl rfl same nofun
  | undoWins pc enough =>
    -- the exception pointer is above the head while a thief may still take the frame there
    refine ordered.worker rfl rfl rfl rfl ?_ (fun held => ?_) nofun
    · have left : s.head ≤ s.tail + 0 := by
        have := s.inLock.raise_nonneg
        omega
      exact left
    · have left : s.head < s.tail + 0 := by
        have := s.inLock.raise_of_claims held
        omega
      exact left
  | undoFails pc short =>
    rw [pc] at top
    exact ordered.stay rfl rfl rfl rfl top.symm nofun
  | returnException pc =>
    rw [pc] at top
    exact ordered.stay rfl rfl rfl rfl top.symm nofun
  | finish pc without =>
    rw [pc] at top
    exact ordered.stay rfl rfl rfl rfl top.symm fun _ => without
  | returnCall pc without =>
    rw [pc] at top
    exact ordered.stay rfl rfl rfl rfl top.symm fun _ => without
  | watch pc =>
    rw [pc] at top
    exact ordered.stay rfl rfl rfl rfl top.symm nofun
  | look pc =>
    rw [pc] at top out
    exact ordered.stay rfl rfl rfl rfl top.symm out
  | findWork pc =>
    rw [pc] at top out
    exact ordered.stay rfl rfl rfl rfl top.symm out
  | bind pc =>
    rw [pc] at top
    exact ordered.stay rfl rfl rfl rfl top.symm nofun
  | protect newTail => exact ordered.stay rfl rfl rfl rfl rfl out
  | flag pc =>
    rw [pc] at top out
    exact ordered.stay rfl rfl rfl rfl top.symm out
  | enter pc free =>
    have alone : s.inLock = .away := by rw [State.inLock, free]
    rw [pc] at top out
    exact .calm rfl (ordered.exc_calm alone) bottom (order.trans_eq top) out
  | notStolen pc here =>
    have alone := locked.alone (by rw [pc]; rfl)
    have left : s.head ≤ s.tail + 0 := by omega
    exact .calm alone rfl bottom left nofun
  | stolen pc gone =>
    have alone := locked.alone (by rw [pc]; rfl)
    replace top : s.top = s.tail + 1 := by rw [top, pc]; rfl
    have last : s.head = s.tail + 1 := by omega
    exact .calm alone rfl last.ge (last.trans (add_zero _).symm).le fun _ => rfl
  | popTail pc here =>
    have alone := locked.alone (by rw [pc]; rfl)
    have left : s.head ≤ s.tail - 1 + 0 := by omega
    exact .calm alone (ordered.exc_calm alone) bottom left nofun
  | popNothing pc gone =>
    have alone := locked.alone (by rw [pc]; rfl)
    replace top : s.top = s.tail + 0 := by rw [top, pc]; rfl
    have last : s.head = s.tail := by omega
    exact .calm alone (ordered.exc_calm alone) last.ge (last.trans (add_zero _).symm).le fun _ => rfl
  | setup pc => exact .calm (locked.alone (by rw [pc]; rfl)) rfl le_rfl le_rfl nofun
  | noWork pc =>
    rw [pc] at top out
    exact ordered.stay rfl rfl rfl rfl top.symm out
  | @visited idle pc =>
    rw [pc] at top out
    cases idle with
    | true => exact ordered.stay rfl rfl rfl rfl top.symm out
    | false => exact ordered.stay rfl rfl rfl rfl top.symm nofun
  | unlock pc =>
    have alone := locked.alone (by rw [pc]; rfl)
    rw [pc] at top out
    exact .calm rfl (ordered.exc_calm alone) bottom (order.trans_eq top) out
  | @clear idle pc =>
    rw [pc] at top out
    cases idle with
    | true => exact ordered.stay rfl rfl rfl rfl top.symm out
    | false => exact ordered.stay rfl rfl rfl rfl top.symm nofun
  | trySteal i pc free => exact ordered.visitor rfl rfl rfl rfl rfl (State.inLock_move (locked.not_mine (by rw [pc]; rfl)))
  | readFlag i pc => exact ordered.visitor rfl rfl rfl rfl rfl (State.inLock_move (locked.not_mine (by rw [pc]; rfl)))
  | tryLock i pc free =>
    have alone : s.inLock = .away := by rw [State.inLock, free]
    have inside : State.inLock { s.move i (.leaving true) with
        lock := some (.thief i), overtaken := s.overtaken + 1 } = .leaving true := by simp [State.inLock]
    refine ordered.thief rfl rfl rfl ?_ ?_ order ?_
    · rw [inside]
      exact (ordered.exc_calm alone).trans (add_zero _).symm
    · rw [State.base, State.base, alone, inside]
      exact le_rfl
    · rw [inside]
      exact nofun
  | lockTaken i pc taken =>
    exact ordered.visitor rfl rfl rfl rfl rfl (State.inLock_move (locked.not_mine (by rw [pc]; rfl)))
  | @freeStealLock i status pc =>
    cases status with
    | false => exact ordered.visitor rfl rfl rfl rfl rfl (State.inLock_move (locked.not_mine (by rw [pc]; rfl)))
    | true => exact ordered.inside locked pc rfl rfl rfl rfl rfl rfl rfl rfl le_rfl nofun
  | decline i pc => exact ordered.inside locked pc rfl rfl rfl rfl rfl rfl rfl rfl le_rfl nofun
  | raise i pc => exact ordered.inside locked pc rfl rfl rfl rfl rfl rfl rfl (by simp [ThiefPc.raise]) le_rfl nofun
  | checkTail i pc =>
    have above : s.tail ≤ s.top := by
      have := s.victim.undecided_nonneg
      omega
    by_cases some : s.head < s.tail
    · rw [if_pos some]
      exact ordered.inside locked pc rfl rfl rfl rfl rfl rfl rfl rfl le_rfl fun _ => some.trans_le above
    · rw [if_neg some]
      exact ordered.inside locked pc rfl rfl rfl rfl rfl rfl rfl rfl le_rfl nofun
  | checkProtected i pc =>
    have own : s.lock = some (.thief i) := (locked.thief i).mp (by rw [pc]; rfl)
    rw [State.inLock_eq own, pc] at claims
    split
    · exact ordered.inside locked pc rfl rfl rfl rfl rfl rfl rfl rfl le_rfl fun _ => claims rfl
    · exact ordered.inside locked pc rfl rfl rfl rfl rfl rfl rfl rfl le_rfl nofun
  | refuse i pc => exact ordered.inside locked pc rfl rfl rfl rfl rfl rfl rfl rfl le_rfl nofun
  | lower i pc => exact ordered.inside locked pc rfl rfl rfl rfl rfl rfl rfl (by simp [ThiefPc.raise]) le_rfl nofun
  | detach i pc =>
    have own : s.lock = some (.thief i) := (locked.thief i).mp (by rw [pc]; rfl)
    have before : s.inLock = .detaching := (State.inLock_eq own).trans pc
    have after : State.inLock { s.move i .looting with head := s.head + 1 } = .looting := by simp [State.inLock, own]
    refine ordered.thief rfl rfl rfl ?_ ?_ (claims (by rw [before]; rfl)) ?_
    · rw [after]
      rw [before] at exc
      exact exc.trans (add_zero _).symm
    · rw [State.base, State.base, before, after]
      exact (by omega : s.head - 0 ≤ s.head + 1 - 1)
    · rw [after]
      exact nofun
  | loot i pc => exact ordered.inside locked pc rfl rfl rfl rfl rfl rfl rfl rfl (by decide) nofun
  | freeLock i pc =>
    have own : s.lock = some (.thief i) := (locked.thief i).mp (by rw [pc]; rfl)
    have before : s.inLock = .unlocking := (State.inLock_eq own).trans pc
    rw [before] at exc
    refine ordered.thief rfl rfl rfl exc ?_ order nofun
    rw [State.base, State.base, before]
    exact le_rfl

omit [DecidableEq ι] in
/-- The worker moves, and the flag says so. -/
theorem State.Flagged.worker {t : State ι F} (flagged : s.Flagged) (steal : t.inStealLock = s.inStealLock)
    (asked : t.doNotSteal = s.doNotSteal) (overtaken : t.overtaken = s.overtaken)
    (has : t.victim.hasFlag = s.victim.hasFlag) : t.Flagged := by
  constructor
  · rw [asked, has, flagged.flag]
  · rw [asked, overtaken]
    exact flagged.once
  · rw [asked, overtaken, steal]
    exact flagged.never

/-- A thief moves that is not past the test of `do_not_steal`. -/
theorem State.Flagged.thief {t : State ι F} {i : ι} {pc : ThiefPc} (flagged : s.Flagged) (locked : s.Locked)
    (away : (s.thieves i).hasStealLock = false) (thieves : t.thieves = Function.update s.thieves i pc)
    (stealLock : t.stealLock = s.stealLock) (victim : t.victim = s.victim) (asked : t.doNotSteal = s.doNotSteal)
    (overtaken : t.overtaken = s.overtaken) : t.Flagged := by
  refine flagged.worker ?_ asked overtaken (by rw [victim])
  have moved : t.inStealLock = (s.move i pc).inStealLock := by
    rw [State.inStealLock, State.inStealLock, stealLock, thieves]
    rfl
  exact moved.trans (State.inStealLock_move (locked.not_steal away))

/-- Only the thief with the steal lock can be past the test of `do_not_steal`. -/
theorem Step.flagged (step : Step s event s') (locked : s.Locked) (flagged : s.Flagged) : s'.Flagged := by
  obtain ⟨flag, once, never⟩ := id flagged
  have own {i : ι} {pc : ThiefPc} (at_pc : s.thieves i = pc) (has : pc.hasStealLock = true) : s.stealLock = some i :=
    (locked.steal i).mp (at_pc ▸ has)
  cases step with
  | storeFrame frame pc => exact flagged.worker rfl rfl rfl (by rw [pc]; rfl)
  | storeTail pc => exact flagged.worker rfl rfl rfl (by rw [pc]; rfl)
  | undoDetach pc => exact flagged.worker rfl rfl rfl (by rw [pc]; rfl)
  | undoWins pc => exact flagged.worker rfl rfl rfl (by rw [pc]; rfl)
  | undoFails pc => exact flagged.worker rfl rfl rfl (by rw [pc]; rfl)
  | returnException pc => exact flagged.worker rfl rfl rfl (by rw [pc]; rfl)
  | finish pc => exact flagged.worker rfl rfl rfl (by rw [pc]; rfl)
  | returnCall pc => exact flagged.worker rfl rfl rfl (by rw [pc]; rfl)
  | watch pc => exact flagged.worker rfl rfl rfl (by rw [pc]; rfl)
  | look pc => exact flagged.worker rfl rfl rfl (by rw [pc]; rfl)
  | findWork pc => exact flagged.worker rfl rfl rfl (by rw [pc]; rfl)
  | bind pc => exact flagged.worker rfl rfl rfl (by rw [pc]; rfl)
  | protect newTail => exact flagged.worker rfl rfl rfl rfl
  | flag pc => exact ⟨rfl, fun _ => Nat.zero_le _, fun _ _ => rfl⟩
  | enter pc free => exact flagged.worker rfl rfl rfl (by rw [pc]; rfl)
  | notStolen pc => exact flagged.worker rfl rfl rfl (by rw [pc]; rfl)
  | stolen pc => exact flagged.worker rfl rfl rfl (by rw [pc]; rfl)
  | popTail pc => exact flagged.worker rfl rfl rfl (by rw [pc]; rfl)
  | popNothing pc => exact flagged.worker rfl rfl rfl (by rw [pc]; rfl)
  | setup pc => exact flagged.worker rfl rfl rfl (by rw [pc]; rfl)
  | noWork pc => exact flagged.worker rfl rfl rfl (by rw [pc]; rfl)
  | visited pc => exact flagged.worker rfl rfl rfl (by rw [pc]; rfl)
  | unlock pc => exact flagged.worker rfl rfl rfl (by rw [pc]; rfl)
  | @clear idle pc => exact ⟨by cases idle <;> rfl, nofun, nofun⟩
  | trySteal i pc free =>
    refine ⟨flag, once, fun _ => ?_⟩
    simp [State.inStealLock]
  | readFlag i pc =>
    refine ⟨flag, once, fun asked => ?_⟩
    have asked : s.doNotSteal = true := asked
    simp [State.inStealLock, own pc rfl, asked]
  | tryLock i pc free =>
    have here : s.inStealLock = .cleared := (State.inStealLock_eq (own pc rfl)).trans pc
    refine ⟨flag, fun asked => ?_, fun _ => ?_⟩
    · exact Nat.succ_le_succ (Nat.le_of_eq (never asked here))
    · simp [State.inStealLock, own pc rfl]
  | lockTaken i pc taken =>
    refine ⟨flag, once, fun _ => ?_⟩
    simp [State.inStealLock, own pc rfl]
  | freeStealLock i pc => exact ⟨flag, once, fun _ => by simp [State.inStealLock]⟩
  | decline i pc => exact flagged.thief locked (by rw [pc]; rfl) rfl rfl rfl rfl rfl
  | raise i pc => exact flagged.thief locked (by rw [pc]; rfl) rfl rfl rfl rfl rfl
  | checkTail i pc => exact flagged.thief locked (by rw [pc]; rfl) rfl rfl rfl rfl rfl
  | checkProtected i pc => exact flagged.thief locked (by rw [pc]; rfl) rfl rfl rfl rfl rfl
  | refuse i pc => exact flagged.thief locked (by rw [pc]; rfl) rfl rfl rfl rfl rfl
  | lower i pc => exact flagged.thief locked (by rw [pc]; rfl) rfl rfl rfl rfl rfl
  | detach i pc => exact flagged.thief locked (by rw [pc]; rfl) rfl rfl rfl rfl rfl
  | loot i pc => exact flagged.thief locked (by rw [pc]; rfl) rfl rfl rfl rfl rfl
  | freeLock i pc => exact flagged.thief locked (by rw [pc]; rfl) rfl rfl rfl rfl rfl

/-! ## The deque as one word -/

/-- The frames between two positions. -/
def frames (ltq : ℤ → F) (base top : ℤ) : List F := (List.range (top - base).toNat).map fun k : ℕ => ltq (base + k)

theorem frames_push (ltq : ℤ → F) {base top : ℤ} (order : base ≤ top) :
    frames ltq base (top + 1) = frames ltq base top ++ [ltq top] := by
  have length : (top + 1 - base).toNat = (top - base).toNat + 1 := by omega
  have last : base + ((top - base).toNat : ℤ) = top := by omega
  rw [frames, length, List.range_succ, List.map_append, List.map_singleton, last, frames]

theorem frames_steal (ltq : ℤ → F) {base top : ℤ} (some : base < top) :
    frames ltq base top = ltq base :: frames ltq (base + 1) top := by
  have length : (top - base).toNat = (top - (base + 1)).toNat + 1 := by omega
  rw [frames, length, List.range_succ_eq_map, List.map_cons, List.map_map, frames, Nat.cast_zero, add_zero]
  refine congrArg (List.cons _) (List.map_congr_left fun k _ => congrArg ltq ?_)
  simp only [Nat.cast_succ]
  omega

theorem frames_nil (ltq : ℤ → F) (base : ℤ) : frames ltq base base = [] := by
  rw [frames, Int.sub_self]
  rfl

/-- Positions outside the deque do not count. -/
theorem frames_update (ltq : ℤ → F) (base top : ℤ) (frame : F) :
    frames (Function.update ltq top frame) base top = frames ltq base top := by
  refine List.map_congr_left fun k inside => Function.update_of_ne ?_ ..
  have below := List.mem_range.mp inside
  omega

def State.queue (s : State ι F) : List F := frames s.ltq s.base s.top

omit [DecidableEq ι] in
theorem State.queue_eq {t : State ι F} (ltq : t.ltq = s.ltq) (base : t.base = s.base) (top : t.top = s.top) :
    t.queue = s.queue := by
  rw [State.queue, State.queue, ltq, base, top]

omit [DecidableEq ι] in
/-- A thief without the lock does not touch the deque. -/
theorem State.queue_visitor {t : State ι F} (ltq : t.ltq = s.ltq) (head : t.head = s.head) (inLock : t.inLock = s.inLock)
    (top : t.top = s.top) : t.queue = s.queue :=
  State.queue_eq ltq (by rw [State.base, State.base, head, inLock]) top

/-- Nor does one with the lock, until it has read the frame. -/
theorem State.queue_inside {t : State ι F} {i : ι} {old new : ThiefPc} (locked : s.Locked) (pc : s.thieves i = old)
    (has : old.hasLock = true) (thieves : t.thieves = Function.update s.thieves i new) (lock : t.lock = s.lock)
    (ltq : t.ltq = s.ltq) (base : t.head - new.loot = s.head - old.loot) (top : t.top = s.top) : t.queue = s.queue := by
  have own : s.lock = some (.thief i) := (locked.thief i).mp (pc ▸ has)
  have before : s.inLock = old := (State.inLock_eq own).trans pc
  have after : t.inLock = new := by rw [State.inLock_eq (lock.trans own), thieves, Function.update_self]
  exact State.queue_eq ltq (by rw [State.base, State.base, before, after, base]) top

omit [DecidableEq ι] in
theorem State.base_calm (alone : s.inLock = .away) : s.base = s.head := by
  rw [State.base, alone]
  exact sub_zero _

omit [DecidableEq ι] in
theorem State.queue_nil (empty : s.base = s.top) : s.queue = [] := by
  rw [State.queue, empty]
  exact frames_nil ..

omit [DecidableEq ι] in
theorem State.queue_orphan {t : State ι F} (before : s.base = s.top) (after : t.base = t.top) :
    Atomic s.queue .orphan t.queue := by
  rw [State.queue_nil before, State.queue_nil after]
  exact .orphan

omit [DecidableEq ι] in
/-- The worker gives up the newest frame, whose position is not below the start of the deque. -/
theorem State.queue_pop {t : State ι F} {last : ℤ} (left : s.base ≤ last) (before : s.top = last + 1) (after : t.top = last)
    (base : t.base = s.base) (ltq : t.ltq = s.ltq) : Atomic s.queue (.pop (s.ltq last)) t.queue := by
  have popped : s.queue = t.queue ++ [s.ltq last] := by
    rw [State.queue, before, frames_push s.ltq left, State.queue, after, base, ltq]
  rw [popped]
  exact .pop

/-- The worker and the thieves agree with the atomic deque: a frame is pushed when the tail is stored, popped when the
worker finds that it is still there, and stolen when the thief reads it. -/
theorem Step.matches (step : Step s event s') (locked : s.Locked) (ordered : s.Ordered) :
    Matches Atomic s.queue event s'.queue := by
  have order := ordered.order
  have exc := ordered.exc
  have out := ordered.out
  have bottom := ordered.bottom
  have queue : s.queue = frames s.ltq s.base s.top := rfl
  have top : s.top = s.tail + s.victim.undecided := rfl
  have base : s.base ≤ s.head := s.base_le_head
  cases step with
  | storeFrame frame pc =>
    replace top : s.top = s.tail := by rw [top, pc]; exact add_zero _
    have kept : frames (Function.update s.ltq s.tail frame) s.base s.tail = s.queue := by
      rw [frames_update, queue, top]
    exact (congrArg (frames _ s.base) (add_zero s.tail)).trans kept
  | storeTail pc =>
    replace top : s.top = s.tail := by rw [top, pc]; exact add_zero _
    have pushed : State.queue { s with tail := s.tail + 1, victim := .working } = s.queue ++ [s.ltq s.tail] := by
      calc frames s.ltq s.base (s.tail + 1 + 0) = frames s.ltq s.base (s.top + 1) := by rw [add_zero, top]
        _ = s.queue ++ [s.ltq s.tail] := by rw [frames_push s.ltq (base.trans order), top, queue, top]
    rw [Matches, pushed]
    exact .push
  | undoDetach pc =>
    replace top : s.top = s.tail := by rw [top, pc]; exact add_zero _
    have same : s.tail - 1 + 1 = s.top := by omega
    exact State.queue_eq rfl rfl same
  | undoWins pc enough =>
    replace top : s.top = s.tail + 1 := by rw [top, pc]; rfl
    have left : s.base ≤ s.tail := by
      have := s.inLock.raise_nonneg
      omega
    exact State.queue_pop left top (add_zero s.tail) rfl rfl
  | undoFails pc short =>
    rw [pc] at top
    exact State.queue_eq rfl rfl top.symm
  | returnException pc =>
    rw [pc] at top
    exact State.queue_eq rfl rfl top.symm
  | finish pc without =>
    rw [pc] at top
    exact State.queue_eq rfl rfl top.symm
  | returnCall pc without =>
    rw [pc] at top
    exact State.queue_eq rfl rfl top.symm
  | watch pc =>
    rw [pc] at top
    exact State.queue_eq rfl rfl top.symm
  | look pc =>
    rw [pc] at top
    exact State.queue_eq rfl rfl top.symm
  | findWork pc =>
    rw [pc] at top
    exact State.queue_eq rfl rfl top.symm
  | bind pc =>
    rw [pc] at top
    exact State.queue_eq rfl rfl top.symm
  | protect newTail => exact State.queue_eq rfl rfl rfl
  | flag pc =>
    rw [pc] at top
    exact State.queue_eq rfl rfl top.symm
  | enter pc free =>
    have alone : s.inLock = .away := by rw [State.inLock, free]
    rw [pc] at top
    exact State.queue_eq rfl ((State.base_calm rfl).trans (State.base_calm alone).symm) top.symm
  | notStolen pc here =>
    replace top : s.top = s.tail + 1 := by rw [top, pc]; rfl
    exact State.queue_pop (by omega) top (add_zero s.tail) rfl rfl
  | stolen pc gone =>
    replace top : s.top = s.tail + 1 := by rw [top, pc]; rfl
    have first : s.base = s.head := State.base_calm (locked.alone (by rw [pc]; rfl))
    have empty : s.base = s.tail + 1 := by omega
    exact State.queue_orphan (empty.trans top.symm) (empty.trans (add_zero _).symm)
  | popTail pc here =>
    replace top : s.top = s.tail - 1 + 1 := by rw [top, pc]; exact (by omega : s.tail + 0 = s.tail - 1 + 1)
    exact State.queue_pop (by omega) top (add_zero _) rfl rfl
  | popNothing pc gone =>
    replace top : s.top = s.tail := by rw [top, pc]; exact add_zero _
    have first : s.base = s.head := State.base_calm (locked.alone (by rw [pc]; rfl))
    have empty : s.base = s.tail := by omega
    exact State.queue_orphan (empty.trans top.symm) (empty.trans (add_zero _).symm)
  | setup pc =>
    have alone := locked.alone (by rw [pc]; rfl)
    rw [pc] at out
    have without : s.tail = s.bottom := out rfl
    replace top : s.top = s.tail := by rw [top, pc]; exact add_zero _
    have empty : s.base = s.top := by omega
    rw [Matches, State.queue_nil empty]
    exact State.queue_nil (State.base_calm alone)
  | noWork pc =>
    rw [pc] at top
    exact State.queue_eq rfl rfl top.symm
  | @visited idle pc =>
    rw [pc] at top
    cases idle <;> exact State.queue_eq rfl rfl top.symm
  | unlock pc =>
    have alone := locked.alone (by rw [pc]; rfl)
    rw [pc] at top
    exact State.queue_eq rfl ((State.base_calm rfl).trans (State.base_calm alone).symm) top.symm
  | @clear idle pc =>
    rw [pc] at top
    cases idle <;> exact State.queue_eq rfl rfl top.symm
  | trySteal i pc free => exact State.queue_visitor rfl rfl (State.inLock_move (locked.not_mine (by rw [pc]; rfl))) rfl
  | readFlag i pc => exact State.queue_visitor rfl rfl (State.inLock_move (locked.not_mine (by rw [pc]; rfl))) rfl
  | tryLock i pc free =>
    have alone : s.inLock = .away := by rw [State.inLock, free]
    have inside : State.inLock { s.move i (.leaving true) with
        lock := some (.thief i), overtaken := s.overtaken + 1 } = .leaving true := by simp [State.inLock]
    refine State.queue_eq rfl ?_ rfl
    rw [State.base, State.base, alone, inside]
    rfl
  | lockTaken i pc taken => exact State.queue_visitor rfl rfl (State.inLock_move (locked.not_mine (by rw [pc]; rfl))) rfl
  | @freeStealLock i status pc =>
    cases status with
    | false => exact State.queue_visitor rfl rfl (State.inLock_move (locked.not_mine (by rw [pc]; rfl))) rfl
    | true => exact State.queue_inside locked pc rfl rfl rfl rfl rfl rfl
  | decline i pc => exact State.queue_inside locked pc rfl rfl rfl rfl rfl rfl
  | raise i pc => exact State.queue_inside locked pc rfl rfl rfl rfl rfl rfl
  | checkTail i pc => refine State.queue_inside locked pc rfl rfl rfl rfl ?_ rfl; split <;> rfl
  | checkProtected i pc => refine State.queue_inside locked pc rfl rfl rfl rfl ?_ rfl; split <;> rfl
  | refuse i pc => exact State.queue_inside locked pc rfl rfl rfl rfl rfl rfl
  | lower i pc => exact State.queue_inside locked pc rfl rfl rfl rfl rfl rfl
  | detach i pc =>
    have same : s.head + 1 - 1 = s.head - 0 := by omega
    exact State.queue_inside locked pc rfl rfl rfl rfl same rfl
  | loot i pc =>
    have own : s.lock = some (.thief i) := (locked.thief i).mp (by rw [pc]; rfl)
    have before : s.base = s.head - 1 := by rw [State.base, State.inLock_eq own, pc]; rfl
    have left : State.inLock (s.move i .unlocking) = .unlocking := by simp [State.inLock, own]
    have after : State.base (s.move i .unlocking) = s.head - 1 + 1 := by
      rw [State.base, left, sub_add_cancel]
      exact sub_zero _
    have taken : s.queue = s.ltq (s.head - 1) :: State.queue (s.move i .unlocking) := by
      rw [queue, before, frames_steal s.ltq (Int.sub_one_lt_of_le order), State.queue, after]
      rfl
    rw [Matches, taken]
    exact .steal
  | freeLock i pc =>
    have own : s.lock = some (.thief i) := (locked.thief i).mp (by rw [pc]; rfl)
    refine State.queue_eq rfl ?_ rfl
    rw [State.base, State.base, State.inLock_eq own, pc]
    rfl

end Steps

/-! ## Runs -/

/-- All that a step keeps. -/
structure State.Inv (s : State ι F) : Prop where
  locked : s.Locked
  ordered : s.Ordered
  flagged : s.Flagged

theorem Step.inv {s s' : State ι F} {event : Option (Event F)} (step : Step s event s') (inv : s.Inv) : s'.Inv :=
  ⟨step.locked inv.locked, step.ordered inv.locked inv.ordered, step.flagged inv.locked inv.flagged⟩

/-- A worker that `make_worker` has made, whose deque ends at `limit`, and thieves elsewhere. -/
def start (ltq : ℤ → F) (limit : ℤ) : State ι F :=
  ⟨0, 0, 0, limit, ltq, false, none, none, .idle, fun _ => .away, 0, 0⟩

omit [DecidableEq ι] in
theorem start_inv (ltq : ℤ → F) (limit : ℤ) : (start ltq limit : State ι F).Inv := by
  constructor
  · constructor <;> simp [start, ThiefPc.hasLock, VictimPc.hasLock, ThiefPc.hasStealLock]
  · exact .calm rfl rfl le_rfl le_rfl fun _ => rfl
  · exact ⟨rfl, nofun, nofun⟩

theorem run_inv {s s' : State ι F} {events : List (Event F)} (run : Run Step s events s') (inv : s.Inv) :
    s'.Inv ∧ Behaves Atomic s.queue events s'.queue :=
  run.behaves (fun _ _ _ inv step => ⟨step.inv inv, step.matches inv.locked inv.ordered⟩) inv

omit [DecidableEq ι] in
/-- A worker whose tail is where it was when it had no frames has none, and no thief is about to take one. -/
theorem State.Inv.without {s : State ι F} (inv : s.Inv) (decided : s.victim.undecided = 0) (without : s.tail = s.bottom) :
    s.head = s.tail ∧ s.queue = [] ∧ ∀ i, s.thieves i ≠ .detaching ∧ s.thieves i ≠ .looting := by
  have order := inv.ordered.order
  have bottom := inv.ordered.bottom
  have base := s.base_le_head
  have top : s.top = s.tail := by rw [State.top, decided, add_zero]
  have first : s.base = s.head := by omega
  refine ⟨by omega, State.queue_nil (by omega), fun i => ⟨fun claims => ?_, fun loots => ?_⟩⟩
  · have own : s.inLock = .detaching := (State.inLock_eq ((inv.locked.thief i).mp (by rw [claims]; rfl))).trans claims
    have some := inv.ordered.claims (by rw [own]; rfl)
    omega
  · have own : s.inLock = .looting := (State.inLock_eq ((inv.locked.thief i).mp (by rw [loots]; rfl))).trans loots
    rw [State.base, own] at first
    exact absurd first (Int.sub_one_lt_of_le le_rfl).ne

variable {ltq : ℤ → F} {limit : ℤ} {events : List (Event F)} {s : State ι F}

/-- Whatever the worker and any thieves do, they do to one queue: every frame that is pushed leaves it once, the worker
gets the newest and a thief the oldest, and the worker finds its frame gone only when the queue is empty. A worker that
has no frames left, so that it gives up its full frame or resets the deque, has an empty queue, and no thief is about to
take a frame from it. -/
theorem linearizes (run : Run Step (start ltq limit) events s) : Behaves Atomic [] events s.queue ∧
    (s.victim.out = true → s.head = s.tail ∧ s.queue = [] ∧ ∀ i, s.thieves i ≠ .detaching ∧ s.thieves i ≠ .looting) := by
  obtain ⟨inv, behaves⟩ := run_inv run (start_inv ltq limit)
  exact ⟨behaves, fun out => inv.without (VictimPc.undecided_of_out out) (inv.ordered.out out)⟩

/-- The thief raises the exception pointer before the worker gives up its frame, so the worker loses it. -/
theorem raced : ∃ s : State Unit ℕ, Run Step (start Int.toNat 8) [.push 7, .steal 7] s ∧ s.thieves () = .away ∧
    s.lock = none ∧ s.stealLock = none ∧ s.doNotSteal = false ∧ s.victim = .flagging .exceptionCheck ∧
    s.head = 1 ∧ s.tail = 0 := by
  have begun : Run Step (start Int.toNat 8 : State Unit ℕ) [] (start Int.toNat 8) := .refl
  have pushed := ((begun.tail (.bind rfl)).tail (.storeFrame 7 rfl)).tail (.storeTail rfl)
  have admitted := (pushed.tail (.trySteal () rfl rfl)).tail (.readFlag () rfl)
  have inside := (admitted.tail (.tryLock () rfl rfl)).tail (.freeStealLock () rfl)
  have allowed := ((inside.tail (.raise () rfl)).tail (.checkTail () rfl)).tail (.checkProtected () rfl)
  have lost := (allowed.tail (.undoDetach rfl)).tail (.undoFails rfl (by decide))
  have taken := (lost.tail (.detach () rfl)).tail (.loot () rfl)
  exact ⟨_, taken.tail (.freeLock () rfl), rfl, rfl, rfl, rfl, rfl, rfl, rfl⟩

/-- The worker that has lost its frame returns from a call, goes on with a spawn helper whose parent was stolen long
ago, and gives up its full frame. -/
theorem linearizes_raced : ∃ s : State Unit ℕ, Run Step (start Int.toNat 8) [.push 7, .steal 7, .orphan, .orphan] s ∧
    Behaves Atomic [] [.push 7, .steal 7, .orphan, .orphan] s.queue ∧ s.victim = .flagging (.visit true) ∧
    s.head = s.tail ∧ s.queue = [] ∧ ∀ i, s.thieves i ≠ .detaching ∧ s.thieves i ≠ .looting := by
  obtain ⟨s, run, -, free, -, -, pc, head, tail⟩ := raced
  have waiting := (run.tail (.flag pc)).tail (.enter rfl free)
  have gone : ¬ s.head < s.tail + 1 := by simp [head, tail]
  have orphaned := ((waiting.tail (.stolen rfl gone)).tail (.unlock rfl)).tail (.clear rfl)
  have returning := ((orphaned.tail (.returnCall rfl rfl)).tail (.flag rfl)).tail (.enter rfl rfl)
  have resumed := ((returning.tail (.setup rfl)).tail (.unlock rfl)).tail (.clear rfl)
  have below : (0 : ℤ) - 1 < 0 := by decide
  have left := (resumed.tail (.undoDetach rfl)).tail (.undoFails rfl below)
  have empty : ¬ (0 : ℤ) < 0 - 1 + 1 := by decide
  have again := ((left.tail (.flag rfl)).tail (.enter rfl rfl)).tail (.stolen rfl empty)
  have finished := ((again.tail (.unlock rfl)).tail (.clear rfl)).tail (.finish rfl rfl)
  obtain ⟨behaves, without⟩ := linearizes finished
  exact ⟨_, finished, behaves, rfl, without rfl⟩

/-- The lock has one owner, who alone is past it, in `random_steal` or in a section of the worker, and of the thieves
that a worker asks to stay away one at most still gets the lock. -/
theorem excludes (run : Run Step (start ltq limit) events s) :
    (∀ i, (s.thieves i).hasLock = true → s.victim.hasLock = false ∧ ∀ j, (s.thieves j).hasLock = true → j = i) ∧
      (s.doNotSteal = true → s.overtaken ≤ 1) := by
  have inv := (run_inv run (start_inv ltq limit)).1
  refine ⟨fun i inside => ?_, inv.flagged.once⟩
  have own : s.lock = some (.thief i) := (inv.locked.thief i).mp inside
  constructor
  · cases worker : s.victim.hasLock with
    | false => rfl
    | true => cases own.symm.trans (inv.locked.victim.mp worker)
  · intro j other
    cases own.symm.trans ((inv.locked.thief j).mp other)
    rfl

theorem excludes_raced : ∃ s : State Unit ℕ, s.doNotSteal = true ∧ (s.thieves ()).hasLock = true ∧
    s.victim.hasLock = false ∧ s.overtaken ≤ 1 := by
  obtain ⟨s, run, away, free, freeSteal, clear, pc, -, -⟩ := raced
  have cleared := (run.tail (.trySteal () away freeSteal)).tail (.readFlag () (by simp))
  have asked := cleared.tail (.flag pc)
  have overtaken := asked.tail (.tryLock () (by simp [State.move, clear]) free)
  obtain ⟨alone, once⟩ := excludes overtaken
  exact ⟨_, rfl, by simp [ThiefPc.hasLock], (alone () (by simp [ThiefPc.hasLock])).1, once rfl⟩

end CilkArtifact.Runtime.Deque
