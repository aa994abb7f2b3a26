import CilkArtifact.DotMix.Util
import Mathlib.Algebra.FreeMonoid.Basic

/-! Programs of the Cilk Plus runtime as the macros of `cilk_fake.h` compile them, and their serial elision: the
value of the reducers and the pedigrees of the run in which every spawn is a call. -/
namespace CilkArtifact.Runtime
open DotMix
universe u
variable {M : Type u}

/-- `__cilkrts_pedigree`, with the ranks that its parent pointers lead through. -/
structure Pedigree where
  rank : Word
  parent : List Word
  deriving DecidableEq, Repr

namespace Pedigree

/-- `++rank`, which wraps in 64 bits. -/
def bump (p : Pedigree) : Pedigree := { p with rank := p.rank + 1 }

/-- The worker's pedigree after `__cilk_fake_detach`: rank 0 below a copy of the old one. -/
def child (p : Pedigree) : Pedigree := ⟨0, p.rank :: p.parent⟩

end Pedigree

/-- What a spawning function has still to do. A strand may update the reducers and go on as its pedigree says;
it does not read a view, which is only determined where the function has no children. Frames are entered in the
prologue (`CILK_FAKE_NO_SHRINKWRAP`). -/
inductive Code (M : Type u) : Type u where
  /-- `CILK_FAKE_EPILOG`, or `CILK_FAKE_SPAWN_HELPER_EPILOG` in a spawn helper. -/
  | ret
  /-- Serial code that multiplies an update onto the reducers, or none. -/
  | strand (update : Pedigree → Option M) (rest : Pedigree → Code M)
  /-- Serial code that sets the worker's pedigree, such as `__cilkrts_bump_worker_rank`. -/
  | setPedigree (update : Pedigree → Pedigree) (rest : Code M)
  /-- `CILK_FAKE_CALL_SPAWN_HELPER`, where the helper calls a function with this body. -/
  | spawn (body rest : Code M)
  /-- A call of a function with this body. -/
  | call (body rest : Code M)
  /-- `CILK_FAKE_SYNC` -/
  | sync (rest : Code M)

/-- The value of a reducer map, where NULL has no views yet. -/
def view [One M] (map : Option M) : M := map.getD 1

@[simp] theorem view_none [One M] : view (none : Option M) = 1 := rfl
@[simp] theorem view_some [One M] (m : M) : view (some m) = m := rfl

/-- `merge_reducer_maps`, which copies no map when one of the two is NULL. -/
def mergeReducerMaps [Mul M] (left right : Option M) : Option M :=
  match left, right with
  | none, right => right
  | left, none => left
  | some l, some r => some (l * r)

@[simp] theorem view_merge [Monoid M] (left right : Option M) :
    view (mergeReducerMaps left right) = view left * view right := by
  cases left <;> cases right <;> simp [mergeReducerMaps]

theorem merge_isSome [Mul M] (left right : Option M) :
    (mergeReducerMaps left right).isSome = (left.isSome || right.isSome) := by
  cases left <;> cases right <;> rfl

namespace Code
variable [Monoid M]

/-- The reducers and the worker's pedigree where the code reaches its end, when no frame is stolen. -/
def serial : Code M → Pedigree → M × Pedigree
  | ret, p => (1, p)
  | strand update rest, p => (view (update p) * ((rest p).serial p).1, ((rest p).serial p).2)
  | setPedigree update rest, p => rest.serial (update p)
  | spawn body rest, p => ((body.serial p.child).1 * (rest.serial p.bump).1, (rest.serial p.bump).2)
  | call body rest, p =>
    ((body.serial p).1 * (rest.serial (body.serial p).2.bump).1, (rest.serial (body.serial p).2.bump).2)
  | sync rest, p => rest.serial p.bump

end Code

/-- A strand that logs its rank. -/
def logRank (rest : Code (FreeMonoid Word)) : Code (FreeMonoid Word) :=
  .strand (fun p => some (.of p.rank)) fun _ => rest

/-- A spawned strand and one in the continuation, then a sync. -/
def forked : Code (FreeMonoid Word) := .spawn (logRank .ret) (logRank (.sync .ret))

example : forked.serial ⟨0, []⟩ = (.of 0 * .of 1, ⟨2, []⟩) := rfl

end CilkArtifact.Runtime
