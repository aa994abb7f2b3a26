import CilkArtifact.Runtime.Leader

/-! Every run of the runtime keeps the invariants and what is left to do, in any order of steps. -/
namespace CilkArtifact.Runtime
universe u
variable {M : Type u} [Monoid M]

namespace State

section Steps
variable {leader : ℤ} {others : Multiset ℤ} {s s' : State M} {w : Worker M}

omit [Monoid M] in
/-- Only the leader of the team comes to the end of the root frame. -/
theorem leader_ends (inv : s.Inv leader others) (ends : s.ends w) : w.self = leader ∧ w.user = true := by
  obtain ⟨held, -, synched⟩ := ends
  obtain ⟨flag, led, crewed⟩ := inv.led
  have user := led.user held synched
  exact ⟨(crewed.leads (by simp [State.workers, crew, held]) user).1, user⟩

theorem ends_of_inv (inv : s.Inv leader others) (ends : s.ends w) :
    ∃ unbound, s.returnFromInitial w = some unbound ∧ unbound.worker.self = leader ∧ unbound.worker.reducerMap = none ∧
      unbound.savedRank = unbound.worker.pedigree.rank ∧
      s.finish = (view unbound.destroyed, unbound.worker.pedigree) := by
  obtain ⟨self, user⟩ := leader_ends inv ends
  obtain ⟨held, code, synched⟩ := ends
  have holds := inv.consistent.holds
  have joins := inv.consistent.joins
  simp only [FullFrame.Holds, FullFrame.holders, held] at holds joins
  have bare : s.children = .none none 0 := holds.2.2.1 synched
  rw [bare] at joins
  have joined : s.root.joinCounter = 1 := joins
  have returned : s.returnFromInitial w = some ⟨{ w.leave s.root.callStack with reducerMap := none, user := false },
      w.reducerMap, (w.leave s.root.callStack).pedigree.rank⟩ := by
    simp [returnFromInitial, user, joined, bare, inv.right, Children.childrenReducerMap, Worker.leave]
  refine ⟨_, returned, self, rfl, rfl, ?_⟩
  simp [finish, FullFrame.finish, FullFrame.rest, Holder.hand, held, bare, Children.sum, StackFrame.serial, code,
    Code.serial, Worker.leave]

theorem Steps.preserved {result : Option (State M)} (step : s.Steps result) (inv : s.Inv leader others) :
    ∃ s', result = some s' ∧ s'.Inv leader others ∧ s'.finish = s.finish := by
  obtain ⟨flag, led, crewed⟩ := inv.led
  obtain ⟨leads, leads_below⟩ := led.hasLeader crewed
  cases step with
  | frame step =>
    obtain ⟨r, rfl, preserved⟩ := step.preserved inv.consistent inv.children inv.idle leads
    exact ⟨_, rfl, ⟨preserved.consistent, preserved.detached.trans inv.attached, preserved.last.trans inv.last,
      preserved.right.trans inv.right, preserved.inv, preserved.idle,
      (step.effect inv.consistent).led inv.consistent inv.children led crewed⟩, preserved.finish⟩
  | inside step =>
    obtain ⟨r, rfl, inv', empty, kept⟩ := step.preserved inv.children inv.idle leads_below
    exact ⟨_, rfl, ⟨kept.consistent inv.consistent, inv.attached, inv.last, inv.right, inv', empty,
      led.step_below step inv.children inv.idle crewed r rfl⟩, by simp only [finish, kept.sum]⟩
  | spawnReturnOfRoot held =>
    have holds := inv.consistent.holds
    simp only [FullFrame.Holds, held] at holds
    exact absurd (inv.attached.symm.trans holds.1.detached) Bool.false_ne_true
  | failsAtTheEnd ends fails =>
    obtain ⟨_, returned, -⟩ := ends_of_inv inv ends
    cases returned.symm.trans fails

end Steps

/-- A user thread enters Cilk with a program and its pedigree; the other workers are idle. -/
def initial (code : Code M) (w : Worker M) (stale : Pedigree) (idle : Multiset (Worker M)) : State M :=
  ⟨⟨{ enterFrame code stale with last := true }, 1, false, none, .running w [], false⟩, .none none 0, idle⟩

/-- The worker to which `bind_thread` binds the thread, and the system workers, which have no reducer map. -/
structure Enters (w : Worker M) (idle : Multiset (Worker M)) : Prop where
  user : w.user = true
  mine : w.workStolen = false
  fresh : w.lastFullFrame = false
  system : ∀ other ∈ idle, other.user = false
  empty : ∀ other ∈ idle, other.reducerMap = none

/-- What a run may reach. -/
def Reaches : State M → State M → Prop := Relation.ReflTransGen fun s s' => s.Steps (some s')

omit [Monoid M] in
theorem Enters.crewed {w : Worker M} {idle : Multiset (Worker M)} (enters : Enters w idle) (young : List (StackFrame M)) :
    Crewed w.self (idle.map Worker.self) false ((Holder.running w young).workers + 0 + idle) := by
  have system : badges idle = (idle.map Worker.self).map fun other => (other, (none : Option Bool)) := by
    rw [badges, Multiset.map_map]
    exact Multiset.map_congr rfl fun other member => by simp [Worker.badge, enters.system other member]
  rw [Crewed, Holder.workers_running, add_zero, badges_add, badges_singleton, badge_of_user enters.user, enters.fresh,
    system, Multiset.singleton_add]

omit [Monoid M] in
theorem initial_inv {code : Code M} {w : Worker M} {stale : Pedigree} {idle : Multiset (Worker M)} (enters : Enters w idle) :
    (initial code w stale idle).Inv w.self (idle.map Worker.self) where
  consistent := ⟨rfl, by simp [initial, enterFrame], trivial, enters.mine, fun _ => rfl, trivial⟩
  attached := rfl
  last := rfl
  right := rfl
  children := .none (by simp)
  idle other member := ⟨enters.empty other member, fun user => nomatch (enters.system other member).symm.trans user⟩
  led := ⟨false, .alone rfl rfl rfl (Multiset.mem_singleton_self w) enters.user, enters.crewed []⟩

theorem initial_finish (code : Code M) (w : Worker M) (stale : Pedigree) (idle : Multiset (Worker M)) :
    (initial code w stale idle).finish =
      (view w.reducerMap * (code.serial w.pedigree).1, (code.serial w.pedigree).2.bump) := by
  simp [initial, finish, FullFrame.finish, FullFrame.rest, Holder.hand, Children.sum, StackFrame.serial, StackFrame.leave,
    enterFrame]

theorem Reaches.preserved {leader : ℤ} {others : Multiset ℤ} {s s' : State M} (run : s.Reaches s')
    (inv : s.Inv leader others) : s'.Inv leader others ∧ s'.finish = s.finish := by
  induction run with
  | refl => exact ⟨inv, rfl⟩
  | tail _ step ih =>
    obtain ⟨s', same, inv', finish⟩ := step.preserved ih.1
    obtain rfl := Option.some.inj same
    exact ⟨inv', finish.trans ih.2⟩

section Results
variable {code : Code M} {w : Worker M} {stale : Pedigree} {idle : Multiset (Worker M)} {s : State M}

/-- Whatever is stolen in a run, the thread's own worker returns from the root frame, and the reducer map that it then
destroys and the pedigree are those of the serial elision. -/
theorem returns_serial_elision (enters : Enters w idle) (run : (initial code w stale idle).Reaches s) {w' : Worker M}
    (ends : s.ends w') :
    ∃ unbound, s.returnFromInitial w' = some unbound ∧ unbound.worker.self = w.self ∧ unbound.worker.reducerMap = none ∧
      view unbound.destroyed = view w.reducerMap * (code.serial w.pedigree).1 ∧
      unbound.worker.pedigree = (code.serial w.pedigree).2.bump ∧
      unbound.savedRank = (code.serial w.pedigree).2.bump.rank := by
  obtain ⟨inv, finish⟩ := run.preserved (initial_inv enters)
  obtain ⟨unbound, returned, self, empty, saved, value⟩ := ends_of_inv inv ends
  obtain ⟨map, pedigree⟩ := Prod.mk.inj (value.symm.trans (finish.trans (initial_finish ..)))
  exact ⟨unbound, returned, self, empty, map, pedigree, by rw [saved, pedigree]⟩

section Forked
open DotMix

/-- A worker that has just been made for the main thread. -/
def mainWorker : Worker (FreeMonoid Word) := ⟨0, true, ⟨0, []⟩, none, false, false⟩

def systemWorker : Worker (FreeMonoid Word) := ⟨1, false, ⟨0, []⟩, none, false, false⟩

theorem mainWorker_enters : Enters mainWorker {systemWorker} :=
  ⟨rfl, rfl, rfl, by simp [systemWorker], by simp [systemWorker]⟩

/-- The program has spawned its first strand. -/
def forkedSpawned : State (FreeMonoid Word) where
  root := ⟨{ enterFrame (logRank (.sync .ret)) ⟨0, []⟩ with last := true }, 1, false, none,
    .running { mainWorker with pedigree := ⟨0, [0]⟩ } [spawnHelper (logRank .ret) mainWorker ⟨0, []⟩], false⟩
  children := .none none 0
  idle := {systemWorker}

/-- The system worker steals the continuation of the spawn, which the main thread will have to sync. -/
theorem forked_stolen : ∃ s, (initial forked mainWorker ⟨0, []⟩ {systemWorker}).Reaches s ∧
    s.idle = 0 ∧ s.root.callStack.unsynched = true ∧ s.root.syncMaster = true ∧ s.children.count = 1 := by
  have spawn : (initial forked mainWorker ⟨0, []⟩ {systemWorker}).Steps (some forkedSpawned) :=
    .frame (@FrameStep.run _ _ _ _ _ _ _ ⟨0, []⟩ _ rfl rfl)
  have steal : FrameStep forkedSpawned.root forkedSpawned.children forkedSpawned.idle _ :=
    @FrameStep.steal _ _ _ _ 0 _ systemWorker [] _ [] rfl rfl (by simp)
  exact ⟨_, .tail (.tail .refl spawn) (.frame steal), rfl, rfl, rfl, rfl⟩

end Forked

/-- In no run does an assertion fail that the sections above make: on join counters, reducer maps, children, call
children, and that the last sync of the team and the root frame's end are the leader's. -/
theorem never_aborts (enters : Enters w idle) (run : (initial code w stale idle).Reaches s) : ¬ s.Steps none := by
  intro aborts
  obtain ⟨_, same, -⟩ := aborts.preserved (run.preserved (initial_inv enters)).1
  cases same

theorem never_aborts_forked : ∃ s, (initial forked mainWorker ⟨0, []⟩ {systemWorker}).Reaches s ∧ s.children.count = 1 ∧
    ¬ s.Steps none := by
  obtain ⟨s, run, -, -, -, child⟩ := forked_stolen
  exact ⟨s, run, child, never_aborts mainWorker_enters run⟩

end Results

end State

end CilkArtifact.Runtime
