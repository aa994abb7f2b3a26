import CilkArtifact.Runtime.Progress

/-! `_Cilk_for` (`cilk-abi-cilk-for.cpp`) as a program of the runtime. Neither the grain size nor the schedule shows in
the reducers or in the pedigrees of the iterations. -/
namespace CilkArtifact.Runtime.CilkFor
open DotMix
universe u
variable {M : Type u}

/-- `grainsize` for trip counts of so many bits, where the sum before the division may wrap. -/
def grainsize (bits : ℕ) (req : ℤ) (count P : ℕ) (underPtool : Bool) : ℕ :=
  if req > 0 then req.toNat
  else if count < 1 then 1
  else if underPtool then 1
  else
    let Px8 := P * 8
    let n := (count + Px8 - 1) % 2 ^ bits / Px8
    if n > 2048 then 2048 else n

/-- A loop has a grain size of at least 1, which `cilk_for_recursive` relies on, unless the user has chosen none and
the trip count is so close to its type's limit that rounding up wraps. -/
theorem grainsize_pos_iff {bits count P : ℕ} (req : ℤ) (underPtool : Bool) (fits : count < 2 ^ bits) (workers : 0 < P)
    (few : P * 8 ≤ 2 ^ bits) : 0 < grainsize bits req count P underPtool ↔
      0 < req ∨ count = 0 ∨ underPtool = true ∨ count + P * 8 ≤ 2 ^ bits := by
  unfold grainsize
  by_cases chosen : req > 0
  · simp [chosen]
  by_cases empty : count < 1
  · simp [chosen, Nat.lt_one_iff.mp empty]
  cases underPtool with
  | true => simp [chosen, empty]
  | false =>
    have n_pos : 0 < (count + P * 8 - 1) % 2 ^ bits / (P * 8) ↔ count + P * 8 ≤ 2 ^ bits := by
      rw [Nat.div_pos_iff]
      by_cases wraps : count + P * 8 - 1 < 2 ^ bits
      · rw [Nat.mod_eq_of_lt wraps]
        omega
      · have rest : (count + P * 8 - 1) % 2 ^ bits = count + P * 8 - 1 - 2 ^ bits := by
          rw [Nat.mod_eq_sub_mod (Nat.not_lt.mp wraps), Nat.mod_eq_of_lt (by omega)]
        rw [rest]
        omega
    simp only [chosen, empty, if_false, Bool.false_eq_true, false_or]
    have some_count : count ≠ 0 := by omega
    split
    · simp only [some_count, false_or]
      exact ⟨fun _ => n_pos.mp (by omega), fun _ => by decide⟩
    · rw [n_pos]
      simp [some_count]

/-- The largest 32-bit trip count on one worker. -/
theorem grainsize_wraps : ¬ 0 < grainsize 32 0 4294967295 1 false :=
  (not_congr (grainsize_pos_iff 0 false (by decide) (by decide) (by decide))).mpr (by decide)

section Code

/-- `call_cilk_for_loop_body`, with the epilogue of the function that it is part of. -/
def callCilkForLoopBody (low high : ℕ) (body : ℕ → ℕ → Code M) (loopRootPedigree : Pedigree) : Code M :=
  .strand (fun _ => none) fun saved =>
  .setPedigree (fun _ => ⟨0, .ofNat 64 low :: loopRootPedigree.rank :: loopRootPedigree.parent⟩) <|
  .call (body low high) <|
  .setPedigree (fun p => ⟨p.rank, saved.parent⟩) .ret

/-- `cilk_for_recursive`, which goes on with the upper half in the same frame. -/
def cilkForRecursive (body : ℕ → ℕ → Code M) (grain : ℕ+) (loopRootPedigree : Pedigree) (low high : ℕ) : Code M :=
  if _large : high - low > grain then
    let mid := low + (high - low) / 2
    .spawn (cilkForRecursive body grain loopRootPedigree low mid)
      (cilkForRecursive body grain loopRootPedigree mid high)
  else callCilkForLoopBody low high body loopRootPedigree
termination_by high - low
decreasing_by
  all_goals
    have pos := grain.pos
    omega

/-- `cilk_for_root` -/
def cilkForRoot (body : ℕ → ℕ → Code M) (count : ℕ) (grain : ℕ+) : Code M :=
  .spawn .ret <|
  .setPedigree (fun p => { p with rank := p.rank - 1 }) <|
  .strand (fun _ => none) fun loopRootPedigree =>
  .call (cilkForRecursive body grain loopRootPedigree 0 count) <|
  .setPedigree (fun _ => loopRootPedigree.bump) .ret

/-- `__cilkrts_cilk_for_32` and `__cilkrts_cilk_for_64` -/
def cilkFor (body : ℕ → ℕ → Code M) (count : ℕ) (grain : ℕ+) (rest : Code M) : Code M :=
  if count > 0 then .call (cilkForRoot body count grain) rest else rest

/-- `__cilkrts_bump_loop_rank_internal`. The iteration has synched, so no other pedigree leads through the node of the
loop. -/
def bumpLoopRank (p : Pedigree) : Pedigree :=
  match p.parent with
  | [] => { p with rank := 0 }
  | rank :: parent => ⟨0, (rank + 1) :: parent⟩

theorem bumpLoopRank_eq {p : Pedigree} {rank : Word} {parent : List Word} (here : p.parent = rank :: parent) :
    bumpLoopRank p = ⟨0, (rank + 1) :: parent⟩ := by
  rw [bumpLoopRank, here]

/-- The loop body that runs so many iterations and bumps the rank after each, as users are expected to. -/
def iterations (iteration : ℕ → Code M) : ℕ → ℕ → Code M
  | 0, _ => .ret
  | n + 1, low => .call (iteration low) (.setPedigree bumpLoopRank (iterations iteration n (low + 1)))

def loopBody (iteration : ℕ → Code M) (low high : ℕ) : Code M := iterations iteration (high - low) low

end Code

section Serial
variable [Monoid M] {iteration : ℕ → Code M} {body : ℕ → ℕ → Code M} {grain : ℕ+} {loopRootPedigree : Pedigree}

/-- Code that leaves the worker below the same parent, as all does that sets no pedigrees of its own. -/
def Keeps (code : Code M) : Prop := ∀ p, (code.serial p).2.parent = p.parent

/-- The pedigree of an iteration: its index below that of the loop. -/
def iterationPedigree (p : Pedigree) (i : ℕ) : Pedigree := ⟨0, .ofNat 64 i :: p.rank :: p.parent⟩

theorem iterations_serial (keeps : ∀ i, Keeps (iteration i)) (n low : ℕ) (p : Pedigree) :
    ((iterations iteration n low).serial (iterationPedigree p low)).1 =
      ((List.range' low n).map fun i => ((iteration i).serial (iterationPedigree p i)).1).prod := by
  induction n generalizing low with
  | zero => rfl
  | succ n ih =>
    have next : bumpLoopRank ((iteration low).serial (iterationPedigree p low)).2.bump = iterationPedigree p (low + 1) := by
      have parent : ((iteration low).serial (iterationPedigree p low)).2.bump.parent = _ :=
        keeps low (iterationPedigree p low)
      rw [bumpLoopRank_eq parent, iterationPedigree, BitVec.ofNat_add]
      rfl
    rw [iterations, Code.serial, Code.serial, next, ih, List.range'_succ, List.map_cons, List.prod_cons]

/-- A range of the loop leaves the product of its iterations, whatever the pedigree it starts with. -/
theorem cilkForRecursive_serial (keeps : ∀ i, Keeps (iteration i)) (low high : ℕ) (p : Pedigree) :
    ((cilkForRecursive (loopBody iteration) grain loopRootPedigree low high).serial p).1 =
      ((List.range' low (high - low)).map fun i => ((iteration i).serial (iterationPedigree loopRootPedigree i)).1).prod := by
  fun_induction cilkForRecursive (loopBody iteration) grain loopRootPedigree low high generalizing p with
  | case1 low high large mid lower upper =>
    have halves : List.range' low (high - low) = List.range' low (mid - low) ++ List.range' mid (high - mid) := by
      have first : low + (mid - low) = mid := by omega
      have size : high - low = (mid - low) + (high - mid) := by omega
      rw [size, ← List.range'_append_1, first]
    rw [Code.serial, lower, upper, halves, List.map_append, List.prod_append]
  | case2 low high small =>
    have body := iterations_serial keeps (high - low) low loopRootPedigree
    simp only [callCilkForLoopBody, Code.serial, view_none, one_mul, mul_one]
    exact body

theorem cilkForRoot_serial (keeps : ∀ i, Keeps (iteration i)) (count : ℕ) (p : Pedigree) :
    (cilkForRoot (loopBody iteration) count grain).serial p =
      (((List.range count).map fun i => ((iteration i).serial (iterationPedigree p i)).1).prod, p.bump) := by
  have root : ({ p.bump with rank := p.bump.rank - 1 } : Pedigree) = p := by simp [Pedigree.bump]
  simp only [cilkForRoot, Code.serial, root, view_none, one_mul, mul_one, cilkForRecursive_serial keeps, Nat.sub_zero,
    List.range_eq_range']

/-- The pedigree after a loop: as if a single spawn and sync had been executed, or nothing when there is no iteration. -/
def afterLoop (count : ℕ) (p : Pedigree) : Pedigree := if count > 0 then { p with rank := p.rank + 2 } else p

theorem cilkFor_serial (keeps : ∀ i, Keeps (iteration i)) (count : ℕ) (rest : Code M) (p : Pedigree) :
    (cilkFor (loopBody iteration) count grain rest).serial p =
      (((List.range count).map fun i => ((iteration i).serial (iterationPedigree p i)).1).prod *
        (rest.serial (afterLoop count p)).1, (rest.serial (afterLoop count p)).2) := by
  unfold cilkFor afterLoop
  split
  · have twice : p.bump.bump = { p with rank := p.rank + 2 } := by
      simp only [Pedigree.bump, add_assoc]
      rfl
    rw [Code.serial, cilkForRoot_serial keeps, twice]
  · have none : count = 0 := by omega
    simp [none]

variable {w : Worker M} {stale : Pedigree} {idle : Multiset (Worker M)}

/-- Whatever the grain size, the number of workers and their steals: a program that is a loop ends, its iterations
leave their updates in the order of their indices, each under the pedigree of its index, and the pedigree afterwards is
that of a spawn and a sync. -/
theorem cilkFor_runs (keeps : ∀ i, Keeps (iteration i)) (count : ℕ) (grain : ℕ+) (enters : State.Enters w idle) :
    Acc (fun s' s : State M => s.Steps (some s'))
        (State.initial (cilkFor (loopBody iteration) count grain .ret) w stale idle) ∧
      ∀ s, (State.initial (cilkFor (loopBody iteration) count grain .ret) w stale idle).Reaches s →
        (∀ result, ¬ s.Steps result) → ∃ w' unbound, s.ends w' ∧ s.returnFromInitial w' = some unbound ∧
          view unbound.destroyed = view w.reducerMap *
            ((List.range count).map fun i => ((iteration i).serial (iterationPedigree w.pedigree i)).1).prod ∧
          unbound.worker.pedigree = (afterLoop count w.pedigree).bump := by
  obtain ⟨finite, ends⟩ : Acc _ (State.initial (cilkFor (loopBody iteration) count grain .ret) w stale idle) ∧ _ :=
    State.runs_end enters
  refine ⟨finite, fun s run stuck => ?_⟩
  obtain ⟨w', unbound, ended, returned, -, -, value, pedigree, -⟩ := ends s run stuck
  rw [cilkFor_serial keeps] at value pedigree
  exact ⟨w', unbound, ended, returned, by rw [value, Code.serial, mul_one], pedigree⟩

end Serial

/-- An iteration that logs the rank of its loop. -/
def logIteration (_i : ℕ) : Code (FreeMonoid Word) := .strand (fun p => some (.of (p.parent.headD 0))) fun _ => .ret

theorem cilkFor_runs_three :
    Acc (fun s' s : State (FreeMonoid Word) => s.Steps (some s'))
        (State.initial (cilkFor (loopBody logIteration) 3 1 .ret) State.mainWorker ⟨0, []⟩ {State.systemWorker}) ∧
      ∀ s, (State.initial (cilkFor (loopBody logIteration) 3 1 .ret) State.mainWorker ⟨0, []⟩
          {State.systemWorker}).Reaches s →
        (∀ result, ¬ s.Steps result) → ∃ w' unbound, s.ends w' ∧ s.returnFromInitial w' = some unbound ∧
          view unbound.destroyed = FreeMonoid.of 0 * FreeMonoid.of 1 * FreeMonoid.of 2 ∧
          unbound.worker.pedigree = ⟨3, []⟩ := by
  have keeps : ∀ i, Keeps (logIteration i) := fun i p => rfl
  obtain ⟨finite, ends⟩ := cilkFor_runs keeps 3 1 State.mainWorker_enters
  exact ⟨finite, ends⟩

end CilkArtifact.Runtime.CilkFor
