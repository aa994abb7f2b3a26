import CilkArtifact.Runtime.Termination

/-! A state in which no worker can take a step is one in which the program has ended: no frame waits for ever. -/
namespace CilkArtifact.Runtime
open DotMix
universe u
variable {M : Type u} [Monoid M] {ff : FullFrame M} {children : Children M} {idle : Multiset (Worker M)}

omit [Monoid M] in
theorem execute_isSome [Mul M] (stale : Pedigree) (w : Worker M) {sf : StackFrame M} (more : sf.code ≠ .ret)
    (calm : sf.stalls = false) : (execute stale w sf).isSome := by
  unfold execute
  split
  case h_1 ends => exact absurd ends more
  case h_6 rest code =>
    simp only [StackFrame.stalls, code] at calm
    simp [calm]
  all_goals rfl

/-- A worker in user code runs it, leaves a frame, enters the runtime or is at the end of the full frame. -/
theorem running_steps {w : Worker M} {young : List (StackFrame M)} (held : ff.holder = .running w young) :
    (∃ result, FrameStep ff children idle result) ∨ young = [] ∧ ff.callStack.code = .ret ∧
      ff.callStack.detached = false ∧ ff.callStack.unsynched = false := by
  have runs (more : (ff.current young).code ≠ .ret) (calm : (ff.current young).stalls = false) :
      ∃ result, FrameStep ff children idle result := by
    obtain ⟨_, executed⟩ := Option.isSome_iff_exists.mp (execute_isSome w.pedigree w more calm)
    have ran : (ff.run w.pedigree w young).isSome = true := by
      cases young <;> simp only [FullFrame.run, executed, Option.bind_eq_bind, Option.bind_some, Option.isSome_some]
    obtain ⟨ff', ran⟩ := Option.isSome_iff_exists.mp ran
    exact ⟨_, .run held ran⟩
  by_cases stalls : (ff.current young).stalls = true
  · exact .inl ⟨_, .sync held stalls⟩
  · have calm : (ff.current young).stalls = false := by simpa using stalls
    by_cases ends : (ff.current young).code = .ret
    · cases young with
      | cons sf young => exact .inl ⟨_, .leave held ends calm⟩
      | nil =>
        cases detached : ff.callStack.detached with
        | true => exact .inl ⟨_, .exceptionCheck held ends detached⟩
        | false =>
          refine .inr ⟨rfl, ends, rfl, ?_⟩
          have code : ff.callStack.code = .ret := ends
          have quiet : ff.callStack.stalls = false := calm
          simpa only [StackFrame.stalls, code, detached, Bool.not_false, Bool.and_true] using quiet
    · exact .inl (runs ends calm)

/-- Somewhere among the children there is a step, or the rightmost one returns from a call. -/
def Children.Moves (children : Children M) (idle : Multiset (Worker M)) : Prop :=
  (∃ result, Step children idle result) ∨
    ∃ (left : Children M) (child : FullFrame M) (below : Children M) (w : Worker M),
      children = left.snoc child below ∧ child.returns w

omit [Monoid M] in
theorem exists_team (idle : Multiset (Worker M)) : ∃ leader others, Team idle leader others := by
  by_cases waits : ∃ w ∈ idle, w.user = true
  · obtain ⟨leader, member, user⟩ := waits
    obtain ⟨others, rfl⟩ := Multiset.exists_cons_of_mem member
    exact ⟨_, _, .waits user⟩
  · exact ⟨_, _, .busy fun w member => by simpa using fun user => waits ⟨w, member, user⟩⟩

/-- A frame that waits is moved by one of its children. -/
theorem suspended_steps (consistent : ff.Consistent children) (held : ff.holder = .suspended)
    (moves : children.hasChild = true → children.Moves idle) :
    (∃ result, FrameStep ff children idle result) ∨ ∃ result, Step children idle result := by
  have descend (some : children.hasChild = true) :
      (∃ result, FrameStep ff children idle result) ∨ ∃ result, Step children idle result := by
    rcases moves some with step | ⟨left, child, below, w, rightmost, returns⟩
    · exact .inr step
    · exact .inl ⟨_, .returnFromCall rightmost returns⟩
  cases some : children.hasChild with
  | true => exact descend some
  | false =>
    cases children with
    | snoc _ _ _ => cases some
    | none slot unlinked =>
      have holds := consistent.holds
      simp only [FullFrame.Holds, held, Children.awaitsCall, Bool.false_eq_true, ↓reduceIte, Children.joining,
        Children.count, Children.unlinked, Nat.zero_add] at holds
      obtain ⟨child, member⟩ := Multiset.card_pos_iff_exists_mem.mp holds.2.2
      obtain ⟨others, gone⟩ := Multiset.exists_cons_of_mem member
      obtain ⟨leader, idle', team⟩ := exists_team idle
      exact .inl ⟨_, .doReturnFromSpawn gone team⟩

/-- A frame moves, or it is at its end. -/
theorem frame_steps (consistent : ff.Consistent children) (moves : children.hasChild = true → children.Moves idle) :
    (∃ result, FrameStep ff children idle result) ∨ (∃ result, Step children idle result) ∨
      (∃ w again, ff.holder = .spawnReturn w again) ∨
      ∃ w, ff.holder = .running w [] ∧ ff.callStack.code = .ret ∧ ff.callStack.detached = false ∧
        ff.callStack.unsynched = false := by
  cases held : ff.holder with
  | suspended => exact (suspended_steps consistent held moves).imp_right .inl
  | next w isReturnFromCall => exact .inl ⟨_, .setup held⟩
  | running w young =>
    rcases running_steps held with step | ⟨rfl, ends⟩
    · exact .inl step
    · exact .inr (.inr (.inr ⟨w, rfl, ends⟩))
  | spawnReturn w again => exact .inr (.inr (.inl ⟨w, again, rfl⟩))
  | reducing w left middle right => exact .inl ⟨_, .reduce held⟩
  | syncing w middle => exact .inl ⟨_, .syncLoop held⟩
  | merging w left middle => exact .inl ⟨_, .syncMerge held⟩
  | stalled w =>
    obtain ⟨leader, others, team⟩ := exists_team idle
    exact .inl ⟨_, .doSync held team⟩

theorem Children.Inv.moves (inv : children.Inv) : children.hasChild = true → children.Moves idle := by
  induction inv with
  | none _ => exact nofun
  | snoc left_inv below_inv consistent isChild spawned left_ih below_ih =>
    intro _
    rcases frame_steps consistent below_ih with ⟨_, step⟩ | ⟨_, step⟩ | ⟨w, again, held⟩ | ⟨w, held, ends, attached, synched⟩
    · exact .inl ⟨_, .frame step⟩
    · exact .inl ⟨_, .inside step⟩
    · exact .inl ⟨_, .spawnReturn held⟩
    · exact .inr ⟨_, _, _, w, rfl, held, ends, attached, synched, isChild.notLast⟩

namespace State

theorem progress {leader : ℤ} {others : Multiset ℤ} {s : State M} (inv : s.Inv leader others) :
    (∃ result, s.Steps result) ∨ ∃ w, s.ends w := by
  rcases frame_steps inv.consistent (inv.children.moves) with
    ⟨_, step⟩ | ⟨_, step⟩ | ⟨w, again, held⟩ | ⟨w, held, ends, -, synched⟩
  · exact .inl ⟨_, .frame step⟩
  · exact .inl ⟨_, .inside step⟩
  · exact .inl ⟨_, .spawnReturnOfRoot held⟩
  · exact .inr ⟨w, held, ends, synched⟩

variable {code : Code M} {w : Worker M} {stale : Pedigree} {s : State M}

/-- Every run is finite, and where it stops the thread's own worker has come to the end of the root frame and returns
from it: the reducer map that is then destroyed, whose leftmost views stay with the program, and the pedigree are what
the serial elision computes. -/
theorem runs_end (enters : Enters w idle) :
    Acc (fun s' s : State M => s.Steps (some s')) (initial code w stale idle) ∧
      ∀ s, (initial code w stale idle).Reaches s → (∀ result, ¬ s.Steps result) →
        ∃ w' unbound, s.ends w' ∧ s.returnFromInitial w' = some unbound ∧ unbound.worker.self = w.self ∧
          unbound.worker.reducerMap = none ∧
          view unbound.destroyed = view w.reducerMap * (code.serial w.pedigree).1 ∧
          unbound.worker.pedigree = (code.serial w.pedigree).2.bump ∧
          unbound.savedRank = (code.serial w.pedigree).2.bump.rank := by
  refine ⟨acc_steps (initial_inv enters), fun s run stuck => ?_⟩
  rcases progress (run.preserved (initial_inv enters)).1 with ⟨result, step⟩ | ⟨w', ends⟩
  · exact absurd step (stuck result)
  · obtain ⟨unbound, returned, results⟩ := returns_serial_elision enters run ends
    exact ⟨w', unbound, ends, returned, results⟩

/-- Any run can be continued to such an end. -/
theorem exists_end (enters : Enters w idle) : ∃ s w', (initial code w stale idle).Reaches s ∧ s.ends w' := by
  have inv : (initial code w stale idle).Inv w.self (idle.map Worker.self) := initial_inv enters
  suffices continued : ∀ s : State M, Acc (fun s' s : State M => s.Steps (some s')) s →
      (initial code w stale idle).Reaches s → ∃ s w', (initial code w stale idle).Reaches s ∧ s.ends w' from
    continued _ (acc_steps inv) .refl
  intro s acc
  induction acc with
  | intro s _ ih =>
    intro run
    obtain ⟨inv', -⟩ := run.preserved inv
    rcases progress inv' with ⟨result, step⟩ | ⟨w', ends⟩
    · obtain ⟨s', rfl, -⟩ := step.preserved inv'
      exact ih s' step (.tail run step)
    · exact ⟨s, w', run, ends⟩

theorem runs_end_forked :
    Acc (fun s' s : State (FreeMonoid Word) => s.Steps (some s')) (initial forked mainWorker ⟨0, []⟩ {systemWorker}) ∧
      ∀ s, (initial forked mainWorker ⟨0, []⟩ {systemWorker}).Reaches s → (∀ result, ¬ s.Steps result) →
        ∃ w' unbound, s.ends w' ∧ s.returnFromInitial w' = some unbound ∧ unbound.worker.self = 0 ∧
          view unbound.destroyed = FreeMonoid.of 0 * FreeMonoid.of 1 ∧ unbound.savedRank = 3 := by
  have ends : _ ∧ ∀ s, (initial forked mainWorker ⟨0, []⟩ {systemWorker}).Reaches s → _ := runs_end mainWorker_enters
  refine ⟨ends.1, fun s run stuck => ?_⟩
  obtain ⟨w', unbound, ends, returned, self, -, value, -, saved⟩ := ends.2 s run stuck
  exact ⟨w', unbound, ends, returned, self, value, saved⟩

end State

end CilkArtifact.Runtime
