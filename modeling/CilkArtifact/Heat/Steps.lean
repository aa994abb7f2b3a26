import CilkArtifact.Heat.Stripes
import CilkArtifact.Library.CInt

/-! The recursion of `heat.c` over stripes and the steps in time. Rows have indices of type `int`. -/
namespace CilkArtifact.Heat
open Buffer Recorded
variable {V : Type}

inductive Mode where
  | ALLC
  | INIT
  | COMP

/-- Nothing is allocated. -/
def start : State V := ⟨fun _ => ⟨fun _ => false, fun _ => none⟩, []⟩

section Definitions
variable [Add V] [Sub V] [Mul V] [NatCast V] (p : Problem V)

/-- The calls that `divide` makes for a stripe of at most `leafmaxcol` rows. -/
def stripeCall (mode : Mode) (timestep : ℕ) (t : V) (neww old : Grid) (lb ub : ℕ) (s : State V) : Option (State V) :=
  match mode with
  | .COMP => if timestep % 2 ≠ 0 then compstripe p t neww old lb ub s else compstripe p t old neww lb ub s
  | .ALLC => allcgrid p neww old lb ub s
  | .INIT => initgrid p old lb ub s

def State.divide (mode : Mode) (timestep : ℕ) (t : V) (neww old : Grid) (lb ub : ℕ) (s : State V) :
    Option (State V × ℕ) := do
  if ub - lb > p.leafmaxcol then
    let sum ← cint (ub + lb)
    let (s, l) ← s |>.divide mode timestep t neww old lb (sum / 2)
    let (s, r) ← s |>.divide mode timestep t neww old (sum / 2) ub
    let tmp ← cint (l + r)
    some (s, tmp)
  else
    let s ← stripeCall p mode timestep t neww old lb ub s
    some (s, 1)
partial_fixpoint

export State (divide)

/-- An iteration of the loop, with `c++`. -/
def timeStep (s : State V) (c : ℕ) : Option (State V) := do
  let t := p.tu + c * p.dt
  let (s, _) ← divide p .COMP c t .newwGrid .oldGrid 0 p.nx s
  let _ ← cint (c + 1)
  some s

/-- The global variable `t` is zero before the first step. -/
def heat (nt : ℕ) : Option (State V) := do
  let (s, _) ← divide p .ALLC 0 (0 : ℕ) .newwGrid .oldGrid 0 p.nx start
  let (s, _) ← divide p .INIT 0 (0 : ℕ) .newwGrid .oldGrid 0 p.nx s
  forLoop 1 (nt + 1) (timeStep p) s

/-- `mat`, for the value of `c` after the loop -/
def summaryArray (c : ℕ) : Grid := if c % 2 ≠ 0 then .oldGrid else .newwGrid

/-- One stripe for the whole grid. -/
def heatUndivided (nt : ℕ) : Option (State V) := do
  let s ← allcgrid p .newwGrid .oldGrid 0 p.nx start
  let s ← initgrid p .oldGrid 0 p.nx s
  forLoop 1 (nt + 1) (fun s c => stripeCall p .COMP c (p.tu + c * p.dt) .newwGrid .oldGrid 0 p.nx s) s

end Definitions

/-! ### Grids -/

variable {p : Problem V} {s s' : State V} {u : ℕ × ℕ → V} {array : Grid} {n : ℕ}

/-- Rows `lb` up to `ub` of both arrays have been allocated. -/
def allocated (p : Problem V) (lb ub : ℕ) (s : State V) : State V :=
  { s with grid := fun array =>
      ⟨fun c => if lb ≤ c.1 ∧ c.1 < ub then decide (c.2 < p.ny) else (s.grid array).inside c,
        fun c => if lb ≤ c.1 ∧ c.1 < ub then none else (s.grid array).cell c⟩ }

theorem allocated_empty (lb : ℕ) (s : State V) : allocated p lb lb s = s := by
  have nothing (c : ℕ × ℕ) : ¬ (lb ≤ c.1 ∧ c.1 < lb) := fun both => absurd both.1 (Nat.not_le.mpr both.2)
  simp only [allocated, nothing, if_false]

theorem allocated_join {lb middle ub : ℕ} (lower : lb < middle) (upper : middle < ub) (s : State V) :
    allocated p middle ub (allocated p lb middle s) = allocated p lb ub s := by
  have parts (c : ℕ × ℕ) : lb ≤ c.1 ∧ c.1 < ub ↔ (middle ≤ c.1 ∧ c.1 < ub) ∨ lb ≤ c.1 ∧ c.1 < middle := by omega
  simp only [allocated, parts, ite_or]

theorem allcgrid_eq {lb ub : ℕ} (nonempty : lb < ub) (bound : ub ≤ p.nx) (s : State V) :
    allcgrid p .newwGrid .oldGrid lb ub s = some (allocated p lb ub s) := by
  refine forLoop_eq (fun j => allocated p lb j s) nonempty.le (allocated_empty lb s).symm fun j lower upper => ?_
  have row : j < p.nx := by omega
  have here (c : ℕ × ℕ) : lb ≤ c.1 ∧ c.1 < j + 1 ↔ c.1 = j ∨ lb ≤ c.1 ∧ c.1 < j := by omega
  simp only [allocRow, if_pos row, Option.bind_eq_bind, Option.bind_some, allocated, here, ite_or]
  congr 2
  funext array
  cases array <;> simp [Function.update]

/-- An array with these values. -/
def gridOf (p : Problem V) (u : ℕ × ℕ → V) : Buffer (ℕ × ℕ) V :=
  ⟨fun c => decide (c.1 < p.nx ∧ c.2 < p.ny), fun c => if c.1 < p.nx ∧ c.2 < p.ny then some (u c) else none⟩

/-- What is known of a whole array. -/
structure Shaped (p : Problem V) (grid : Buffer (ℕ × ℕ) V) : Prop where
  inside : grid.inside = fun c => decide (c.1 < p.nx ∧ c.2 < p.ny)
  outside : ∀ c ∉ stripe p 0 p.nx, grid.cell c = none

theorem mem_grid {c : ℕ × ℕ} : c ∈ stripe p 0 p.nx ↔ c.1 < p.nx ∧ c.2 < p.ny :=
  ⟨fun member => member.2, fun bounds => ⟨Nat.zero_le _, bounds⟩⟩

theorem shaped_gridOf (u : ℕ × ℕ → V) : Shaped p (gridOf p u) :=
  ⟨rfl, fun _ outside => if_neg fun bounds => outside (mem_grid.mpr bounds)⟩

theorem Shaped.roomy (shaped : Shaped p (s.grid array)) : Roomy p array 0 p.nx s := by
  intro c member
  rw [shaped.inside]
  exact decide_eq_true (mem_grid.mp member)

theorem Shaped.filled (shaped : Shaped p (s.grid array)) (fills : Fills array (stripe p 0 p.nx) u s s') :
    s'.grid array = gridOf p u := by
  have inside : (s'.grid array).inside = (gridOf p u).inside := fills.changes.inside.trans shaped.inside
  have cells : (s'.grid array).cell = (gridOf p u).cell := by
    funext c
    by_cases member : c ∈ stripe p 0 p.nx
    · rw [fills.filled c member]
      exact (if_pos (mem_grid.mp member)).symm
    · rw [fills.changes.frame c member, shaped.outside c member]
      exact (if_neg fun bounds => member (mem_grid.mpr bounds)).symm
  calc s'.grid array = ⟨(s'.grid array).inside, (s'.grid array).cell⟩ := rfl
    _ = gridOf p u := by rw [inside, cells]

theorem known_gridOf (holds : s.grid array = gridOf p u) : Known p array u s := by
  intro c member
  rw [holds, read_eq (decide_eq_true (mem_grid.mp member))]
  exact if_pos (mem_grid.mp member)

theorem allocated_start (array : Grid) : (allocated p 0 p.nx start).grid array = rawTable p.nx p.ny := by
  have inside : ((allocated p 0 p.nx start : State V).grid array).inside =
      (rawTable p.nx p.ny : Buffer (ℕ × ℕ) V).inside := by
    funext c
    by_cases row : c.1 < p.nx <;> simp [allocated, start, rawTable, row]
  have cells : ((allocated p 0 p.nx start : State V).grid array).cell =
      (rawTable p.nx p.ny : Buffer (ℕ × ℕ) V).cell := by
    funext c
    simp [allocated, start, rawTable]
  calc (allocated p 0 p.nx start).grid array =
        ⟨((allocated p 0 p.nx start).grid array).inside, ((allocated p 0 p.nx start).grid array).cell⟩ := rfl
    _ = rawTable p.nx p.ny := by rw [inside, cells]

theorem roomy_start : Roomy p .oldGrid 0 p.nx (allocated p 0 p.nx start : State V) := by
  apply Shaped.roomy
  rw [allocated_start]
  exact ⟨rfl, fun _ _ => rfl⟩

/-- Stripes that follow each other. -/
theorem fills_join {lb middle ub : ℕ} {s'' : State V} (lower : lb < middle) (upper : middle < ub)
    (first : Fills array (stripe p lb middle) u s s') (second : Fills array (stripe p middle ub) u s' s'') :
    Fills array (stripe p lb ub) u s s'' := by
  have disjoint : Disjoint (stripe p lb middle) (stripe p middle ub) :=
    Set.disjoint_left.mpr fun c above below => absurd below.1 (Nat.not_le.mpr above.2.1)
  refine (first.append second disjoint).congr ?_ fun _ _ => rfl
  ext c
  simp only [stripe, Set.mem_union, Set.mem_ofPred_eq]
  omega

/-- The array with the values after `n` steps. -/
def latest (n : ℕ) : Grid := if n % 2 = 0 then .oldGrid else .newwGrid

theorem latest_cases (n : ℕ) :
    n % 2 = 0 ∧ latest n = .oldGrid ∧ latest (n + 1) = .newwGrid ∨
      n % 2 = 1 ∧ latest n = .newwGrid ∧ latest (n + 1) = .oldGrid := by
  rcases Nat.mod_two_eq_zero_or_one n with even | odd
  · exact .inl ⟨even, if_pos even, if_neg (by omega)⟩
  · exact .inr ⟨odd, if_neg (by omega), if_pos (by omega)⟩

theorem latest_ne (n : ℕ) : latest n ≠ latest (n + 1) := by
  rcases latest_cases n with ⟨-, now, later⟩ | ⟨-, now, later⟩
  all_goals
    rw [now, later]
    decide

theorem latest_add_two (n : ℕ) : latest (n + 2) = latest n := by
  rw [latest, latest, Nat.add_mod_right]

/-! ### Division into stripes -/

variable [Add V] [Sub V] [Mul V] [NatCast V]

structure Fits (p : Problem V) : Prop where
  wide : 2 ≤ p.nx
  high : 2 ≤ p.ny
  positive : 1 ≤ p.leafmaxcol
  range : p.nx < 2 ^ 31
  sums : 2 * p.nx ≤ 2 ^ 31 + p.leafmaxcol

/-- What holds of every stripe and can be joined holds of the grid. -/
theorem divide_rule (fits : Fits p) {mode : Mode} {timestep : ℕ} {t : V} {neww old : Grid} (Ready : State V → Prop)
    (Does : ℕ → ℕ → State V → State V → Prop)
    (leaf : ∀ lb ub s, lb < ub → ub ≤ p.nx → Ready s →
      ∃ s', stripeCall p mode timestep t neww old lb ub s = some s' ∧ Does lb ub s s')
    (keeps : ∀ lb ub s s', Does lb ub s s' → Ready s → Ready s')
    (joins : ∀ lb middle ub s s' s'', lb < middle → middle < ub → Does lb middle s s' → Does middle ub s' s'' →
      Does lb ub s s'') : ∀ {lb ub s}, lb < ub → ub ≤ p.nx → Ready s →
      ∃ s' count, divide p mode timestep t neww old lb ub s = some (s', count) ∧ count ≤ ub - lb ∧ Does lb ub s s' := by
  suffices sized : ∀ size lb ub s, ub - lb = size → lb < ub → ub ≤ p.nx → Ready s →
      ∃ s' count, divide p mode timestep t neww old lb ub s = some (s', count) ∧ count ≤ ub - lb ∧ Does lb ub s s' by
    intro lb ub s nonempty bound ready
    exact sized _ lb ub s rfl nonempty bound ready
  intro size
  induction size using Nat.strongRecOn with
  | ind size ih =>
    intro lb ub s length nonempty bound ready
    have positive := fits.positive
    rw [divide]
    by_cases large : ub - lb > p.leafmaxcol
    · have sum : cint (ub + lb) = some (ub + lb) := cint_fits (by have := fits.sums; omega)
      have middle : lb < (ub + lb) / 2 ∧ (ub + lb) / 2 < ub := by omega
      obtain ⟨s₁, l, run₁, count₁, left⟩ := ih ((ub + lb) / 2 - lb) (by omega) lb ((ub + lb) / 2) s rfl middle.1
        (by omega) ready
      obtain ⟨s₂, r, run₂, count₂, right⟩ := ih (ub - (ub + lb) / 2) (by omega) ((ub + lb) / 2) ub s₁ rfl middle.2
        bound (keeps _ _ _ _ left ready)
      have total : cint (l + r) = some (l + r) := cint_fits (by have := fits.range; omega)
      refine ⟨s₂, l + r, ?_, by omega, joins _ _ _ _ _ _ middle.1 middle.2 left right⟩
      simp only [if_pos large, sum, run₁, run₂, total, Option.bind_eq_bind, Option.bind_some]
    · obtain ⟨s', run, done⟩ := leaf lb ub s nonempty bound ready
      refine ⟨s', 1, ?_, by omega, done⟩
      simp only [if_neg large, run, Option.bind_eq_bind, Option.bind_some]

/-! ### Steps -/

section Solution
variable (p)

/-- The values after `n` steps. -/
def solution : ℕ → ℕ × ℕ → V
  | 0 => initial p
  | n + 1 => next p (p.tu + (n + 1 : ℕ) * p.dt) (solution n)

/-- The array that does not have the values after `n` steps. -/
def previous : ℕ → Buffer (ℕ × ℕ) V
  | 0 => rawTable p.nx p.ny
  | n + 1 => gridOf p (solution p n)

end Solution

structure After (p : Problem V) (n : ℕ) (s : State V) : Prop where
  newest : s.grid (latest n) = gridOf p (solution p n)
  before : s.grid (latest (n + 1)) = previous p n

theorem shaped_previous : ∀ n, Shaped p (previous p n)
  | 0 => ⟨rfl, fun _ _ => rfl⟩
  | n + 1 => shaped_gridOf (solution p n)

theorem After.next (after : After p n s) (fills : Fills (latest (n + 1)) (stripe p 0 p.nx) (solution p (n + 1)) s s') :
    After p (n + 1) s' := by
  have shaped : Shaped p (s.grid (latest (n + 1))) := by
    rw [after.before]
    exact shaped_previous n
  refine ⟨shaped.filled fills, ?_⟩
  rw [latest_add_two, fills.others _ (latest_ne n), after.newest]
  rfl

/-- Both arrays are known. -/
theorem After.unique (after : After p n s) (after' : After p n s') : s.grid = s'.grid := by
  funext array
  have either : array = latest n ∨ array = latest (n + 1) := by
    rcases latest_cases n with ⟨-, now, later⟩ | ⟨-, now, later⟩
    all_goals
      rw [now, later]
      cases array <;> decide
  rcases either with rfl | rfl
  · rw [after.newest, after'.newest]
  · rw [after.before, after'.before]

theorem stripeCall_comp (n : ℕ) (t : V) (lb ub : ℕ) (s : State V) :
    stripeCall p .COMP (n + 1) t .newwGrid .oldGrid lb ub s =
      compstripe p t (latest (n + 1)) (latest n) lb ub s := by
  rcases latest_cases n with ⟨even, now, later⟩ | ⟨odd, now, later⟩
  · rw [now, later]
    exact if_pos (by omega)
  · rw [now, later]
    exact if_neg (by omega)

/-- A call for a stripe in step `n + 1`. -/
theorem stripeCall_step (fits : Fits p) {lb ub : ℕ} (nonempty : lb < ub) (bound : ub ≤ p.nx)
    (roomy : Roomy p (latest (n + 1)) 0 p.nx s) (known : Known p (latest n) (solution p n) s) :
    ∃ s', stripeCall p .COMP (n + 1) (p.tu + (n + 1 : ℕ) * p.dt) .newwGrid .oldGrid lb ub s = some s' ∧
      Fills (latest (n + 1)) (stripe p lb ub) (solution p (n + 1)) s s' := by
  rw [stripeCall_comp]
  refine compstripe_fills fits.wide fits.high nonempty bound (fun c member => roomy c ?_) known (latest_ne n)
  exact ⟨Nat.zero_le _, member.2.1.trans_le bound, member.2.2⟩

theorem After.ready (after : After p n s) :
    Roomy p (latest (n + 1)) 0 p.nx s ∧ Known p (latest n) (solution p n) s := by
  refine ⟨Shaped.roomy ?_, known_gridOf after.newest⟩
  rw [after.before]
  exact shaped_previous n

theorem divide_step (fits : Fits p) (after : After p n s) :
    ∃ s' count, divide p .COMP (n + 1) (p.tu + (n + 1 : ℕ) * p.dt) .newwGrid .oldGrid 0 p.nx s = some (s', count) ∧
      Fills (latest (n + 1)) (stripe p 0 p.nx) (solution p (n + 1)) s s' := by
  obtain ⟨s', count, run, -, fills⟩ := divide_rule fits
    (fun now => Roomy p (latest (n + 1)) 0 p.nx now ∧ Known p (latest n) (solution p n) now)
    (fun lb ub => Fills (latest (n + 1)) (stripe p lb ub) (solution p (n + 1)))
    (fun _ _ _ nonempty bound ready => stripeCall_step fits nonempty bound ready.1 ready.2)
    (fun _ _ _ _ fills ready => ⟨ready.1.fills fills, ready.2.fills fills (latest_ne n)⟩)
    (fun _ _ _ _ _ _ lower upper => fills_join lower upper)
    (Nat.zero_lt_of_lt fits.wide) le_rfl after.ready
  exact ⟨s', count, run, fills⟩

theorem divide_init (fits : Fits p) (roomy : Roomy p .oldGrid 0 p.nx s) :
    ∃ s' count, divide p .INIT 0 (0 : ℕ) .newwGrid .oldGrid 0 p.nx s = some (s', count) ∧
      Fills .oldGrid (stripe p 0 p.nx) (initial p) s s' := by
  have leaf (lb ub : ℕ) (now : State V) (nonempty : lb < ub) (bound : ub ≤ p.nx) (ready : Roomy p .oldGrid 0 p.nx now) :
      ∃ s', stripeCall p .INIT 0 (0 : ℕ) .newwGrid .oldGrid lb ub now = some s' ∧
        Fills .oldGrid (stripe p lb ub) (initial p) now s' :=
    initgrid_fills fits.wide fits.high nonempty bound fun c member =>
      ready c ⟨Nat.zero_le _, member.2.1.trans_le bound, member.2.2⟩
  obtain ⟨s', count, run, -, fills⟩ := divide_rule fits (Roomy p .oldGrid 0 p.nx)
    (fun lb ub => Fills .oldGrid (stripe p lb ub) (initial p)) leaf (fun _ _ _ _ fills ready => ready.fills fills)
    (fun _ _ _ _ _ _ lower upper => fills_join lower upper)
    (Nat.zero_lt_of_lt fits.wide) le_rfl roomy
  exact ⟨s', count, run, fills⟩

theorem divide_alloc (fits : Fits p) (s : State V) :
    ∃ count, divide p .ALLC 0 (0 : ℕ) .newwGrid .oldGrid 0 p.nx s = some (allocated p 0 p.nx s, count) := by
  have leaf (lb ub : ℕ) (now : State V) (nonempty : lb < ub) (bound : ub ≤ p.nx) (_ : True) :
      ∃ s', stripeCall p .ALLC 0 (0 : ℕ) .newwGrid .oldGrid lb ub now = some s' ∧ s' = allocated p lb ub now :=
    ⟨_, allcgrid_eq nonempty bound now, rfl⟩
  have joins (lb middle ub : ℕ) (now now' now'' : State V) (lower : lb < middle) (upper : middle < ub)
      (first : now' = allocated p lb middle now) (second : now'' = allocated p middle ub now') :
      now'' = allocated p lb ub now := by
    rw [second, first, allocated_join lower upper]
  obtain ⟨s', count, run, -, rfl⟩ := divide_rule fits (fun _ => True)
    (fun lb ub now now' => now' = allocated p lb ub now) leaf (fun _ _ _ _ _ _ => trivial) joins
    (Nat.zero_lt_of_lt fits.wide) le_rfl trivial
  exact ⟨count, run⟩

/-! ### Runs -/

/-- Before the first step. -/
theorem After.init (fills : Fills .oldGrid (stripe p 0 p.nx) (initial p) (allocated p 0 p.nx start) s) :
    After p 0 s := by
  have shaped : Shaped p ((allocated p 0 p.nx start : State V).grid .oldGrid) := by
    rw [allocated_start]
    exact ⟨rfl, fun _ _ => rfl⟩
  refine ⟨shaped.filled fills, ?_⟩
  rw [fills.others (latest 1) (by decide), allocated_start]
  rfl

/-- No step. -/
theorem heat_zero (fits : Fits p) : ∃ s, heat p 0 = some s ∧ After p 0 s ∧
    Fills .oldGrid (stripe p 0 p.nx) (initial p) (allocated p 0 p.nx start) s := by
  obtain ⟨count, allocates⟩ := divide_alloc fits (start : State V)
  obtain ⟨s, count', run, fills⟩ := divide_init fits roomy_start
  refine ⟨s, ?_, .init fills, fills⟩
  simp only [heat, allocates, run, Option.bind_eq_bind, Option.bind_some]
  rfl

theorem heat_succ (n : ℕ) : heat p (n + 1) = (heat p n).bind fun s => timeStep p s (n + 1) := by
  simp only [heat, forLoop_succ _ (Nat.le_add_left 1 n), Option.bind_eq_bind, Option.bind_assoc]

/-- One more step. -/
theorem heat_step (fits : Fits p) (range : n + 2 < 2 ^ 31) (run : heat p n = some s) (after : After p n s) :
    ∃ s', heat p (n + 1) = some s' ∧ After p (n + 1) s' ∧
      Fills (latest (n + 1)) (stripe p 0 p.nx) (solution p (n + 1)) s s' := by
  obtain ⟨s', count, divided, fills⟩ := divide_step fits after
  refine ⟨s', ?_, after.next fills, fills⟩
  rw [heat_succ, run, Option.bind_some, timeStep]
  simp only [divided, cint_fits range, Option.bind_eq_bind, Option.bind_some]

theorem heat_run (fits : Fits p) : ∀ n, n + 1 < 2 ^ 31 → ∃ s, heat p n = some s ∧ After p n s := by
  intro n
  induction n with
  | zero =>
    intro _
    obtain ⟨s, run, after, -⟩ := heat_zero fits
    exact ⟨s, run, after⟩
  | succ n ih =>
    intro range
    obtain ⟨s, run, after⟩ := ih (by omega)
    obtain ⟨s', run', after', -⟩ := heat_step fits range run after
    exact ⟨s', run', after'⟩

theorem heatUndivided_run (fits : Fits p) (n : ℕ) : ∃ s, heatUndivided p n = some s ∧ After p n s := by
  have nonempty : 0 < p.nx := Nat.zero_lt_of_lt fits.wide
  induction n with
  | zero =>
    obtain ⟨s, run, fills⟩ := initgrid_fills fits.wide fits.high nonempty le_rfl roomy_start
    refine ⟨s, ?_, .init fills⟩
    simp only [heatUndivided, allcgrid_eq nonempty le_rfl, run, Option.bind_eq_bind, Option.bind_some]
    rfl
  | succ n ih =>
    obtain ⟨s, run, after⟩ := ih
    obtain ⟨s', run', fills⟩ := stripeCall_step fits nonempty le_rfl after.ready.1 after.ready.2
    refine ⟨s', ?_, after.next fills⟩
    have more : heatUndivided p (n + 1) = (heatUndivided p n).bind fun s =>
        stripeCall p .COMP (n + 1) (p.tu + (n + 1 : ℕ) * p.dt) .newwGrid .oldGrid 0 p.nx s := by
      simp only [heatUndivided, forLoop_succ _ (Nat.le_add_left 1 n), Option.bind_eq_bind, Option.bind_assoc]
    rw [more, run, Option.bind_some, run']

/-- The program leaves what it leaves without division into stripes. In every step each element of one array is written
once, and what is read are elements of the other array that have values. -/
theorem heat_correct {nt : ℕ} (fits : Fits p) (range : nt + 1 < 2 ^ 31) :
    (∃ s s', heat p nt = some s ∧ heatUndivided p nt = some s' ∧ s.grid = s'.grid ∧
      s.grid (if nt % 2 = 0 then .oldGrid else .newwGrid) = gridOf p (solution p nt) ∧
      summaryArray (nt + 1) = if nt % 2 = 0 then .oldGrid else .newwGrid) ∧
    (∃ s, heat p 0 = some s ∧ Once .oldGrid (stripe p 0 p.nx) (allocated p 0 p.nx start) s.accesses) ∧
    ∀ c < nt, ∃ s s' made, heat p c = some s ∧ heat p (c + 1) = some s' ∧ s'.accesses = s.accesses ++ made ∧
      Once (if (c + 1) % 2 ≠ 0 then .newwGrid else .oldGrid) (stripe p 0 p.nx) s made := by
  refine ⟨?_, ?_, fun c earlier => ?_⟩
  · obtain ⟨s, run, after⟩ := heat_run fits nt range
    obtain ⟨s', run', after'⟩ := heatUndivided_run fits nt
    refine ⟨s, s', run, run', after.unique after', after.newest, ?_⟩
    rcases Nat.mod_two_eq_zero_or_one nt with even | odd
    · rw [if_pos even, summaryArray, if_pos (by omega)]
    · rw [if_neg (by omega), summaryArray, if_neg (by omega)]
  · obtain ⟨s, run, -, fills⟩ := heat_zero fits
    obtain ⟨made, log, once⟩ := fills.accesses
    rw [show (allocated p 0 p.nx start : State V).accesses = [] from rfl, List.nil_append] at log
    exact ⟨s, run, log ▸ once⟩
  · obtain ⟨s, run, after⟩ := heat_run fits c (by omega)
    obtain ⟨s', run', -, fills⟩ := heat_step fits (by omega) run after
    obtain ⟨made, log, once⟩ := fills.accesses
    have target : latest (c + 1) = if (c + 1) % 2 ≠ 0 then .newwGrid else .oldGrid := by
      rw [latest, ite_not]
    rw [target] at once
    exact ⟨s, s', made, run, run', log, once⟩

theorem heat_correct_three :
    let p : Problem ℤ := ⟨5, 4, 1, 0, 0, 0, 1, 1, 1, 1, 1, fun x t => x + t, fun x t => x - t, fun y t => y + t,
      fun y t => y - t, fun x y => x * y⟩
    ∃ s, heat p 3 = some s ∧ s.grid .newwGrid = gridOf p (solution p 3) := by
  intro p
  have fits : Fits p := ⟨by decide, by decide, by decide, by decide, by decide⟩
  have range : 3 + 1 < 2 ^ 31 := by decide
  obtain ⟨⟨s, _, run, -, -, newest, -⟩, -⟩ := heat_correct fits range
  exact ⟨s, run, newest⟩

/-- The stripe from row `2 ^ 30 - 1` up to row `2 ^ 31 - 1` is divided, and the sum of its bounds is no value of type
`int`. -/
theorem heat_overflows :
    let p : Problem ℤ := ⟨2 ^ 31 - 1, 2, 2 ^ 30 - 1, 0, 0, 0, 1, 1, 1, 1, 1, fun x t => x + t, fun x t => x - t,
      fun y t => y + t, fun y t => y - t, fun x y => x * y⟩
    2 ≤ p.nx ∧ 2 ≤ p.ny ∧ 1 ≤ p.leafmaxcol ∧ p.nx < 2 ^ 31 ∧ heat p 0 = none := by
  intro p
  refine ⟨by decide, by decide, by decide, by decide, ?_⟩
  have lower (s : State ℤ) : divide p .ALLC 0 (0 : ℕ) .newwGrid .oldGrid (2 ^ 30 - 1) (2 ^ 31 - 1) s = none := by
    have large : 2 ^ 31 - 1 - (2 ^ 30 - 1) > p.leafmaxcol := by decide
    rw [divide, if_pos large, cint_overflow (by decide)]
    rfl
  have whole : divide p .ALLC 0 (0 : ℕ) .newwGrid .oldGrid 0 p.nx start = none := by
    have large : p.nx - 0 > p.leafmaxcol := by decide
    have sum : cint (p.nx + 0) = some (2 ^ 31 - 1) := rfl
    rw [divide, if_pos large, sum]
    change (divide p .ALLC 0 (0 : ℕ) .newwGrid .oldGrid 0 (2 ^ 30 - 1) start).bind (fun upper =>
      (divide p .ALLC 0 (0 : ℕ) .newwGrid .oldGrid (2 ^ 30 - 1) (2 ^ 31 - 1) upper.1).bind fun both =>
        (cint (upper.2 + both.2)).bind fun tmp => some (both.1, tmp)) = none
    cases divide p .ALLC 0 (0 : ℕ) .newwGrid .oldGrid 0 (2 ^ 30 - 1) start with
    | none => rfl
    | some upper => rw [Option.bind_some, lower, Option.bind_none]
  rw [heat, whole]
  rfl

end CilkArtifact.Heat
