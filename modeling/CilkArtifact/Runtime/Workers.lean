import CilkArtifact.Runtime.Runs

/-! In every state that a run reaches, each worker is in one place, and each full frame's join counter counts its
children, the children that are leaving it and its worker. -/
namespace CilkArtifact.Runtime
universe u
variable {M : Type u}

theorem Children.Has.consistent {row below : Children M} {ff : FullFrame M} (has : row.Has ff below) (inv : row.Inv) :
    ff.Consistent below := by
  induction has with
  | here =>
    cases inv with
    | snoc _ _ consistent _ _ => exact consistent
  | left _ ih =>
    cases inv with
    | snoc left_inv _ _ _ _ => exact ih left_inv
  | inside _ ih =>
    cases inv with
    | snoc _ below_inv _ _ _ => exact ih below_inv

theorem Crewed.selves {leader : ℤ} {others : Multiset ℤ} {flag : Bool} {workers : Multiset (Worker M)}
    (crewed : Crewed leader others flag workers) : workers.map Worker.self = leader ::ₘ others := by
  have selves : (badges workers).map Prod.fst = workers.map Worker.self := Multiset.map_map _ _ _
  rw [← selves, crewed, Multiset.map_cons, Multiset.map_map]
  exact congrArg (leader ::ₘ ·) (Multiset.map_id others)

namespace State
variable [Monoid M] {code : Code M} {w : Worker M} {stale : Pedigree} {idle : Multiset (Worker M)} {s : State M}

/-- A run neither loses a worker nor puts one in two places: the frames, the children that leave them and the idle
workers always have the workers that were there at the start, each once. An idle worker has no reducer map. -/
theorem workers_conserved (enters : Enters w idle) (run : (initial code w stale idle).Reaches s) :
    s.workers.map Worker.self = w.self ::ₘ idle.map Worker.self ∧
      ((w.self ::ₘ idle.map Worker.self).Nodup →
        ∀ self ∈ w.self ::ₘ idle.map Worker.self, (s.workers.map Worker.self).count self = 1) ∧
      Idle s.idle := by
  have inv := (run.preserved (initial_inv enters)).1
  obtain ⟨flag, -, crewed⟩ := inv.led
  refine ⟨crewed.selves, fun distinct self member => ?_, inv.idle⟩
  rw [crewed.selves]
  exact Multiset.count_eq_one_of_mem distinct member

theorem workers_conserved_forked : ∃ s, (initial forked mainWorker ⟨0, []⟩ {systemWorker}).Reaches s ∧ s.idle = 0 ∧
    s.workers.map Worker.self = {0, 1} ∧ (s.workers.map Worker.self).count 1 = 1 ∧ Idle s.idle := by
  obtain ⟨s, run, idle, -⟩ := forked_stolen
  obtain ⟨selves, once, empty⟩ := workers_conserved mainWorker_enters run
  exact ⟨s, run, idle, selves, once (by decide) 1 (by decide), empty⟩

/-- In every full frame of a reachable state the join counter is the number of its children, of children that have
left it but have not counted down yet, and of its worker. A worker runs the frame's code past a sync only when all its
children have gone, and none of their reducers with them: what the frames hold and still have to do is the value of the
serial elision. -/
theorem sync_waits (enters : Enters w idle) (run : (initial code w stale idle).Reaches s)
    {ff : FullFrame M} {below : Children M} (frame : (ff = s.root ∧ below = s.children) ∨ s.children.Has ff below) :
    ff.joinCounter = below.count + Multiset.card below.unlinked + ff.holders ∧
      (∀ w' young, ff.holder = .running w' young → ff.callStack.unsynched = false → below = .none none 0) ∧
      s.finish = (view w.reducerMap * (code.serial w.pedigree).1, (code.serial w.pedigree).2.bump) := by
  obtain ⟨inv, finish⟩ := run.preserved (initial_inv enters)
  have consistent : ff.Consistent below := by
    rcases frame with ⟨rfl, rfl⟩ | has
    · exact inv.consistent
    · exact has.consistent inv.children
  refine ⟨consistent.joins, fun w' young held synched => ?_, finish.trans (initial_finish ..)⟩
  have holds := consistent.holds
  simp only [FullFrame.Holds, held] at holds
  exact holds.2.2.1 synched

theorem sync_waits_forked : ∃ s, (initial forked mainWorker ⟨0, []⟩ {systemWorker}).Reaches s ∧
    s.root.callStack.unsynched = true ∧
    s.root.joinCounter = s.children.count + Multiset.card s.children.unlinked + s.root.holders ∧
      (∀ w' young, s.root.holder = .running w' young → s.root.callStack.unsynched = false →
        s.children = .none none 0) ∧ s.finish = (FreeMonoid.of 0 * FreeMonoid.of 1, ⟨3, []⟩) := by
  obtain ⟨s, run, -, unsynched, -⟩ := forked_stolen
  exact ⟨s, run, unsynched, sync_waits mainWorker_enters run (.inl ⟨rfl, rfl⟩)⟩

end State

end CilkArtifact.Runtime
