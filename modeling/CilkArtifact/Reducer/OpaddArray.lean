import CilkArtifact.Library.Loop
import Mathlib.Algebra.BigOperators.Intervals

/-! The commutative reducer array (`creducer_opadd_array.h`). Every worker has a view, which points to an
array of its own; view 0 may point to an array of the user instead. NULL pointers, indices outside of an
array and failed assertions fail the operation. -/
namespace CilkArtifact.OpaddArray

/-- The arrays: the memory that the constructor of view `p` allocates, and those of the user. Different
arrays do not overlap. -/
inductive ArrayId where
  | internal (p : ℕ)
  | user (n : ℕ)
  deriving DecidableEq, Repr

/-- The contents of all arrays, the pointers `m_a` of the views and `m_orig_array`. -/
structure State (T : Type) where
  memory : ArrayId → ℕ → T
  views : ℕ → Option ArrayId
  origArray : Option ArrayId

variable {T : Type}

def State.write (s : State T) (a : ArrayId) (i : ℕ) (v : T) : State T :=
  { s with memory := fun b j => if b = a ∧ j = i then v else s.memory b j }

section Code
variable [AddCommMonoid T] (P size : ℕ)

/-- `a[i]` through a pointer. -/
def readSlot (s : State T) (a : Option ArrayId) (i : ℕ) : Option T := do
  let a ← a
  if i < size then some (s.memory a i) else none

/-- `a[i] = v` through a pointer. -/
def writeSlot (s : State T) (a : Option ArrayId) (i : ℕ) (v : T) : Option (State T) := do
  let a ← a
  if i < size then some (s.write a i v) else none

/-- `reset_array_slot`; the value of `T()` is 0. -/
def resetArraySlot (s : State T) (a : Option ArrayId) (i : ℕ) : Option (State T) := writeSlot size s a i 0

/-- The constructor of a view that allocates its array, with an assertion about the size. -/
def constructView (s : State T) (p : ℕ) : Option (State T) :=
  if 0 < size then
    forLoop 0 size (fun s i => writeSlot size s (some (.internal p)) i 0)
      { s with views := fun q => if q = p then some (.internal p) else s.views q }
  else none

/-- Both constructors; `origArray` is NULL in the default one. -/
def init (memory : ArrayId → ℕ → T) (origArray : Option ArrayId) : Option (State T) :=
  if 1 ≤ P then
    forLoop 0 P (fun s i =>
      if origArray ≠ none ∧ i = 0 then some { s with views := fun q => if q = 0 then origArray else s.views q }
      else constructView size s i) ⟨memory, fun _ => none, origArray⟩
  else none

/-- `creducer_opadd_array_op::operator+=` on the worker `wkrId`. -/
def update (s : State T) (wkrId idx : ℕ) (x : T) : Option (State T) :=
  if wkrId < P then do
    let v ← readSlot size s (s.views wkrId) idx
    writeSlot size s (s.views wkrId) idx (v + x)
  else none

def mergeInternal (s : State T) (output : Option ArrayId) (pStart pEnd : ℕ) : Option (State T) :=
  forLoop 0 size (fun s i =>
    forLoop pStart pEnd (fun s p => do
      let sum ← readSlot size s output i
      let v ← readSlot size s (s.views p) i
      let s ← writeSlot size s output i (sum + v)
      resetArraySlot size s (s.views p) i) s) s

/-- `creducer_opadd_array_view::move_in`, on view 0. -/
def viewMoveIn (s : State T) (inputArray : ArrayId) : Option (State T) :=
  if s.views 0 ≠ some inputArray then
    match s.views 0 with
    | some a => forLoop 0 size (fun s i => do
        let v ← readSlot size s (some inputArray) i
        writeSlot size s (some a) i v) s
    | none => some { s with views := fun q => if q = 0 then some inputArray else s.views q }
  else some s

/-- `creducer_opadd_array_view::move_out`, on view 0. -/
def viewMoveOut (s : State T) (outputArray : ArrayId) : Option (State T) :=
  if s.views 0 = some outputArray then some { s with views := fun q => if q = 0 then none else s.views q }
  else
    match s.views 0 with
    | some a => forLoop 0 size (fun s i => do
        let v ← readSlot size s (some a) i
        let s ← writeSlot size s (some outputArray) i v
        resetArraySlot size s (some a) i) s
    | none => some s

def moveIn (s : State T) (a : ArrayId) : Option (State T) :=
  let s := if s.origArray = none then { s with origArray := some a } else s
  viewMoveIn size s a

def merge (s : State T) : Option (State T) := mergeInternal size s (s.views 0) 1 P

def moveOut (s : State T) (a : ArrayId) : Option (State T) := do
  let s ← mergeInternal size s (s.views 0) 1 P
  let s ← viewMoveOut size s a
  some (if s.origArray = some a then { s with origArray := none } else s)

end Code

/-! ### Rounds -/

inductive Action (T : Type) where
  | update (wkrId idx : ℕ) (x : T)
  | merge

/-- The user fills an array and moves it in, or not; then there are updates and merges, and the result is
moved out. -/
structure Round (T : Type) where
  moveIn : Option (ℕ × (ℕ → T))
  actions : List (Action T)
  target : ArrayId

section Rounds
variable [AddCommMonoid T] (P size : ℕ)

def act (s : State T) : Action T → Option (State T)
  | .update wkrId idx x => update P size s wkrId idx x
  | .merge => merge P size s

def startRound (s : State T) : Option (ℕ × (ℕ → T)) → Option (State T)
  | none => some s
  | some (n, contents) =>
    moveIn size { s with memory := fun b => if b = .user n then contents else s.memory b } (.user n)

/-- The state after the round and the contents of the target. -/
def runRound (s : State T) (round : Round T) : Option (State T × (ℕ → T)) := do
  let s ← startRound size s round.moveIn
  let s ← round.actions.foldlM (act P size) s
  let s ← moveOut P size s round.target
  some (s, s.memory round.target)

def runRounds (s : State T) : List (Round T) → Option (State T × List (ℕ → T))
  | [] => some (s, [])
  | round :: rounds => do
    let (s, delivered) ← runRound P size s round
    let (s, others) ← runRounds s rounds
    some (s, delivered :: others)

end Rounds

/-! ### Writes and loops -/

/-- Nothing but the contents of the arrays in `X` differs. -/
structure Frame (X : Set ArrayId) (s s' : State T) : Prop where
  views : s'.views = s.views
  origArray : s'.origArray = s.origArray
  memory : ∀ b ∉ X, s'.memory b = s.memory b

variable {X : Set ArrayId} {s s' s'' : State T}

theorem Frame.refl (X : Set ArrayId) (s : State T) : Frame X s s := ⟨rfl, rfl, fun _ _ => rfl⟩

theorem Frame.trans (first : Frame X s s') (second : Frame X s' s'') : Frame X s s'' :=
  ⟨second.views.trans first.views, second.origArray.trans first.origArray,
    fun b outside => (second.memory b outside).trans (first.memory b outside)⟩

@[simp] theorem write_views (a : ArrayId) (i : ℕ) (v : T) : (s.write a i v).views = s.views := rfl

theorem write_same (a : ArrayId) (i : ℕ) (v : T) : (s.write a i v).memory a i = v := if_pos ⟨rfl, rfl⟩

theorem write_index {i j : ℕ} (a b : ArrayId) (v : T) (other : j ≠ i) :
    (s.write a i v).memory b j = s.memory b j := if_neg fun both => other both.2

theorem write_array {a b : ArrayId} (i j : ℕ) (v : T) (other : b ≠ a) :
    (s.write a i v).memory b j = s.memory b j := if_neg fun both => other both.1

theorem write_frame (a : ArrayId) (i : ℕ) (v : T) (member : a ∈ X) : Frame X s (s.write a i v) := by
  refine ⟨rfl, rfl, fun b outside => ?_⟩
  have other : b ≠ a := by
    rintro rfl
    exact outside member
  exact funext fun j => write_array i j v other

variable {P size : ℕ} {a master : ArrayId}

theorem readSlot_eq {i : ℕ} (inside : i < size) : readSlot size s (some a) i = some (s.memory a i) := if_pos inside

theorem writeSlot_eq {i : ℕ} (inside : i < size) (v : T) : writeSlot size s (some a) i v = some (s.write a i v) :=
  if_pos inside

/-- A loop whose iterations change the cells of their own index only. -/
theorem loop_spec {body : State T → ℕ → Option (State T)} (X : Set ArrayId) (result : ArrayId → ℕ → T)
    (step : ∀ i s', i < size → Frame X s s' → (∀ b j, i ≤ j → s'.memory b j = s.memory b j) →
      ∃ s'', body s' i = some s'' ∧ Frame X s' s'' ∧ (∀ b, s''.memory b i = result b i) ∧
        ∀ b j, j ≠ i → s''.memory b j = s'.memory b j) :
    ∃ s', forLoop 0 size body s = some s' ∧ Frame X s s' ∧ ∀ b, ∀ i < size, s'.memory b i = result b i := by
  have loop : ∃ s', forLoop 0 size body s = some s' ∧ Frame X s s' ∧
      (∀ b, ∀ i < size, s'.memory b i = result b i) ∧ ∀ b j, size ≤ j → s'.memory b j = s.memory b j := by
    refine forLoop_invariant (fun m (s' : State T) => Frame X s s' ∧
      (∀ b, ∀ i < m, s'.memory b i = result b i) ∧ ∀ b j, m ≤ j → s'.memory b j = s.memory b j) (Nat.zero_le size)
      ⟨.refl X s, fun _ i impossible => absurd impossible (Nat.not_lt_zero i), fun _ _ _ => rfl⟩ ?_
    rintro m s₁ _ inside ⟨frame, done, rest⟩
    obtain ⟨s₂, run, frame₂, row, others⟩ := step m s₁ inside frame rest
    refine ⟨s₂, run, frame.trans frame₂, ?_, ?_⟩
    · intro b i bound
      by_cases last : i = m
      · rw [last, row]
      · rw [others b i last, done b i (by omega)]
    · intro b j bound
      rw [others b j (by omega), rest b j (by omega)]
  obtain ⟨s', run, frame, done, _⟩ := loop
  exact ⟨s', run, frame, done⟩

/-- Data that `move_in` copies from the array `b`. -/
theorem copyIn_spec (size : ℕ) (s : State T) (a b : ArrayId) :
    ∃ s', forLoop 0 size (fun s i => do
        let v ← readSlot size s (some b) i
        writeSlot size s (some a) i v) s = some s' ∧ Frame {a} s s' ∧ ∀ i < size, s'.memory a i = s.memory b i := by
  have loop : ∃ s', forLoop 0 size (fun s i => do
      let v ← readSlot size s (some b) i
      writeSlot size s (some a) i v) s = some s' ∧ Frame {a} s s' ∧
        ∀ c, ∀ i < size, s'.memory c i = if c = a then s.memory b i else s.memory c i := by
    refine loop_spec {a} (fun c i => if c = a then s.memory b i else s.memory c i) ?_
    intro i s₁ inside _ rest
    refine ⟨s₁.write a i (s₁.memory b i), ?_, write_frame _ _ _ rfl, ?_, fun c j other => write_index _ _ _ other⟩
    · rw [readSlot_eq inside, Option.bind_eq_bind, Option.bind_some, writeSlot_eq inside]
    · intro c
      by_cases same : c = a
      · rw [same, write_same, if_pos rfl, rest b i (Nat.le_refl i)]
      · rw [write_array _ _ _ same, if_neg same, rest c i (Nat.le_refl i)]
  obtain ⟨s', run, frame, contents⟩ := loop
  exact ⟨s', run, frame, fun i inside => (contents a i inside).trans (if_pos rfl)⟩

/-! ### Views -/

/-- The array of view `p`, if view 0 uses `master`. -/
def arrayOf (master : ArrayId) (p : ℕ) : ArrayId := if p = 0 then master else .internal p

/-- View 0 uses `master`, and the other views their own arrays. -/
structure Shape (P : ℕ) (s : State T) (master : ArrayId) : Prop where
  first : s.views 0 = some master
  views : ∀ p, 0 < p → p < P → s.views p = some (.internal p)
  own : ∀ p, 0 < p → master ≠ .internal p

theorem Shape.frame (shape : Shape P s master) (frame : Frame X s s') : Shape P s' master :=
  ⟨by rw [frame.views, shape.first], fun p positive inside => by rw [frame.views, shape.views p positive inside],
    shape.own⟩

theorem Shape.pointer (shape : Shape P s master) {p : ℕ} (inside : p < P) : s.views p = some (arrayOf master p) := by
  rw [arrayOf]
  by_cases first : p = 0
  · rw [if_pos first, first, shape.first]
  · rw [if_neg first, shape.views p (Nat.pos_of_ne_zero first) inside]

theorem Shape.injective (shape : Shape P s master) {p q : ℕ} (same : arrayOf master p = arrayOf master q) : p = q := by
  rw [arrayOf, arrayOf] at same
  by_cases first : p = 0
  · by_cases second : q = 0
    · omega
    · rw [if_pos first, if_neg second] at same
      exact absurd same (shape.own q (Nat.pos_of_ne_zero second))
  · by_cases second : q = 0
    · rw [if_neg first, if_pos second] at same
      exact absurd same.symm (shape.own p (Nat.pos_of_ne_zero first))
    · rw [if_neg first, if_neg second] at same
      exact ArrayId.internal.inj same

variable [AddCommMonoid T]

/-! ### Merging -/

/-- The arrays that the views from 1 to `p - 1` allocate. -/
def ArrayId.isBelow (p : ℕ) : ArrayId → Bool
  | .internal q => decide (0 < q ∧ q < p)
  | .user _ => false

/-- The contents after the views below `p` have been merged. -/
def merged (memory : ArrayId → ℕ → T) (master : ArrayId) (p : ℕ) (b : ArrayId) (i : ℕ) : T :=
  if b = master then ∑ q ∈ Finset.range p, memory (arrayOf master q) i
  else if b.isBelow p then 0 else memory b i

theorem merged_one (memory : ArrayId → ℕ → T) (b : ArrayId) (i : ℕ) : merged memory master 1 b i = memory b i := by
  rw [merged]
  by_cases same : b = master
  · rw [if_pos same, Finset.sum_range_one, arrayOf, if_pos rfl, same]
  · have none : b.isBelow 1 = false := by
      cases b with
      | internal q => exact decide_eq_false (by omega)
      | user n => rfl
    rw [if_neg same, none]
    rfl

theorem merged_master (memory : ArrayId → ℕ → T) (p i : ℕ) :
    merged memory master p master i = ∑ q ∈ Finset.range p, memory (arrayOf master q) i := if_pos rfl

theorem merged_internal (memory : ArrayId → ℕ → T) {p q : ℕ} (i : ℕ) (own : master ≠ .internal q) (positive : 0 < q)
    (inside : q < p) : merged memory master p (.internal q) i = 0 := by
  rw [merged, if_neg own.symm]
  exact if_pos (decide_eq_true ⟨positive, inside⟩)

theorem merged_later (memory : ArrayId → ℕ → T) {p q : ℕ} (i : ℕ) (own : master ≠ .internal q) (outside : p ≤ q) :
    merged memory master p (.internal q) i = memory (.internal q) i := by
  have none : (ArrayId.internal q).isBelow p = false := decide_eq_false (by omega)
  rw [merged, if_neg own.symm, none]
  rfl

theorem merged_succ (memory : ArrayId → ℕ → T) {p : ℕ} {b : ArrayId} (i : ℕ) (notMaster : b ≠ master)
    (other : b ≠ .internal p) : merged memory master (p + 1) b i = merged memory master p b i := by
  have same : b.isBelow (p + 1) = b.isBelow p := by
    cases b with
    | internal q =>
      have different : q ≠ p := by
        rintro rfl
        exact other rfl
      exact decide_eq_decide.mpr (by omega)
    | user n => rfl
  rw [merged, merged, if_neg notMaster, if_neg notMaster, same]

/-- One row of `merge_internal`: the views are added to view 0 one after the other. -/
theorem mergeRow_spec {i : ℕ} (shape : Shape P s master) (workers : 1 ≤ P) (inside : i < size) :
    ∃ s', forLoop 1 P (fun s p => do
        let sum ← readSlot size s (some master) i
        let v ← readSlot size s (s.views p) i
        let s ← writeSlot size s (some master) i (sum + v)
        resetArraySlot size s (s.views p) i) s = some s' ∧
      Frame Set.univ s s' ∧ (∀ b, s'.memory b i = merged s.memory master P b i) ∧
        ∀ b j, j ≠ i → s'.memory b j = s.memory b j := by
  refine forLoop_invariant (fun p (s' : State T) => Frame Set.univ s s' ∧
    (∀ b, s'.memory b i = merged s.memory master p b i) ∧ ∀ b j, j ≠ i → s'.memory b j = s.memory b j) workers
    ⟨.refl _ s, fun b => (merged_one s.memory b i).symm, fun _ _ _ => rfl⟩ ?_
  rintro p s₁ lower upper ⟨frame, row, others⟩
  have own := shape.own p lower
  have pointer := (shape.frame frame).views p lower upper
  have sum := row master
  have term := (row (.internal p)).trans (merged_later s.memory i own (Nat.le_refl p))
  refine ⟨(s₁.write master i (s₁.memory master i + s₁.memory (.internal p) i)).write (.internal p) i 0, ?_, ?_, ?_, ?_⟩
  · simp only [readSlot_eq inside, writeSlot_eq inside, resetArraySlot, pointer, write_views, Option.bind_eq_bind,
      Option.bind_some]
  · exact (frame.trans (write_frame _ _ _ (Set.mem_univ _))).trans (write_frame _ _ _ (Set.mem_univ _))
  · intro b
    by_cases isMaster : b = master
    · subst isMaster
      rw [write_array _ _ _ own, write_same, sum, term, merged_master, merged_master, Finset.sum_range_succ,
        arrayOf, if_neg (by omega)]
    · by_cases isView : b = .internal p
      · subst isView
        rw [write_same, merged_internal s.memory i own lower (Nat.lt_succ_self p)]
      · rw [write_array _ _ _ isView, write_array _ _ _ isMaster, row b, merged_succ s.memory i isMaster isView]
  · intro b j other
    rw [write_index _ _ _ other, write_index _ _ _ other, others b j other]

theorem mergeInternal_spec (size : ℕ) (shape : Shape P s master) (workers : 1 ≤ P) :
    ∃ s', mergeInternal size s (s.views 0) 1 P = some s' ∧ Frame Set.univ s s' ∧
      ∀ b, ∀ i < size, s'.memory b i = merged s.memory master P b i := by
  rw [mergeInternal, shape.first]
  refine loop_spec Set.univ (fun b i => merged s.memory master P b i) ?_
  intro i s₁ inside frame rest
  obtain ⟨s₂, run, frame₂, row, others⟩ := mergeRow_spec (shape.frame frame) workers inside
  refine ⟨s₂, run, frame₂, ?_, others⟩
  intro b
  have same : ∀ c, s₁.memory c i = s.memory c i := fun c => rest c i (Nat.le_refl i)
  rw [row b]
  simp only [merged, same]

/-! ### Updates -/

/-- The sum of the slots of all views. -/
def total (P : ℕ) (s : State T) (master : ArrayId) (i : ℕ) : T := ∑ q ∈ Finset.range P, s.memory (arrayOf master q) i

theorem update_spec (shape : Shape P s master) {wkrId idx : ℕ} (worker : wkrId < P) (inside : idx < size) (x : T) :
    ∃ s', update P size s wkrId idx x = some s' ∧ Shape P s' master ∧
      ∀ i, total P s' master i = total P s master i + if idx = i then x else 0 := by
  have pointer := shape.pointer worker
  refine ⟨s.write (arrayOf master wkrId) idx (s.memory (arrayOf master wkrId) idx + x), ?_,
    shape.frame (write_frame _ _ _ (Set.mem_univ _)), ?_⟩
  · rw [update, if_pos worker, pointer, readSlot_eq inside, Option.bind_eq_bind, Option.bind_some, writeSlot_eq inside]
  · intro i
    by_cases same : idx = i
    · subst same
      have slot (q : ℕ) : (s.write (arrayOf master wkrId) idx (s.memory (arrayOf master wkrId) idx + x)).memory
          (arrayOf master q) idx = s.memory (arrayOf master q) idx + if q = wkrId then x else 0 := by
        by_cases own : q = wkrId
        · rw [own, write_same, if_pos rfl]
        · rw [write_array _ _ _ fun equal => own (shape.injective equal), if_neg own, add_zero]
      rw [total, Finset.sum_congr rfl fun q _ => slot q, Finset.sum_add_distrib, if_pos rfl, total]
      simp [Finset.sum_ite_eq', worker]
    · rw [if_neg same, add_zero, total, total]
      exact Finset.sum_congr rfl fun q _ => write_index _ _ _ (Ne.symm same)

/-- After a merge, view 0 has the sums and the other views are empty. -/
theorem merged_total (shape : Shape P s master) (workers : 1 ≤ P) (memory : ArrayId → ℕ → T) (i : ℕ) :
    ∑ q ∈ Finset.range P, merged memory master P (arrayOf master q) i =
      ∑ q ∈ Finset.range P, memory (arrayOf master q) i := by
  obtain ⟨n, rfl⟩ := Nat.exists_eq_add_of_le' workers
  have others : ∀ q ∈ Finset.range n, merged memory master (n + 1) (arrayOf master (q + 1)) i = 0 := by
    intro q member
    have inside := Finset.mem_range.mp member
    rw [arrayOf, if_neg (Nat.succ_ne_zero q)]
    exact merged_internal memory i (shape.own (q + 1) (Nat.succ_pos q)) (Nat.succ_pos q) (by omega)
  rw [Finset.sum_range_succ', Finset.sum_eq_zero others, zero_add, arrayOf, if_pos rfl, merged_master]

theorem merge_spec (size : ℕ) (shape : Shape P s master) (workers : 1 ≤ P) :
    ∃ s', merge P size s = some s' ∧ Shape P s' master ∧ ∀ i < size, total P s' master i = total P s master i := by
  obtain ⟨s', run, frame, contents⟩ := mergeInternal_spec size shape workers
  refine ⟨s', run, shape.frame frame, ?_⟩
  intro i inside
  rw [total, Finset.sum_congr rfl fun q _ => contents (arrayOf master q) i inside, merged_total shape workers, total]

/-- The workers and indices that exist. -/
def Action.Valid (P size : ℕ) : Action T → Prop
  | .update wkrId idx _ => wkrId < P ∧ idx < size
  | .merge => True

/-- What an action adds to the slot `i`. -/
def Action.adds (i : ℕ) : Action T → T
  | .update _ idx x => if idx = i then x else 0
  | .merge => 0

/-- What the updates of a round add to the slot `i`. -/
def added (actions : List (Action T)) (i : ℕ) : T := (actions.map (Action.adds i)).sum

theorem act_spec (shape : Shape P s master) (workers : 1 ≤ P) {action : Action T} (valid : action.Valid P size) :
    ∃ s', act P size s action = some s' ∧ Shape P s' master ∧
      ∀ i < size, total P s' master i = total P s master i + action.adds i := by
  cases action with
  | update wkrId idx x =>
    obtain ⟨s', run, shape', sum⟩ := update_spec shape valid.1 valid.2 x
    exact ⟨s', run, shape', fun i _ => sum i⟩
  | merge =>
    obtain ⟨s', run, shape', sum⟩ := merge_spec size shape workers
    exact ⟨s', run, shape', fun i inside => (sum i inside).trans (add_zero _).symm⟩

theorem acts_spec (workers : 1 ≤ P) (actions : List (Action T)) : ∀ {s : State T}, Shape P s master →
    (∀ action ∈ actions, action.Valid P size) → ∃ s', actions.foldlM (act P size) s = some s' ∧ Shape P s' master ∧
      ∀ i < size, total P s' master i = total P s master i + added actions i := by
  induction actions with
  | nil =>
    intro s shape _
    exact ⟨s, rfl, shape, fun i _ => (add_zero _).symm⟩
  | cons action actions ih =>
    intro s shape valid
    obtain ⟨s₁, run₁, shape₁, sum₁⟩ := act_spec shape workers (valid action (List.mem_cons_self ..))
    obtain ⟨s₂, run₂, shape₂, sum₂⟩ := ih shape₁ fun other member => valid other (List.mem_cons_of_mem _ member)
    refine ⟨s₂, ?_, shape₂, ?_⟩
    · rw [List.foldlM_cons, run₁, Option.bind_eq_bind, Option.bind_some, run₂]
    · intro i inside
      rw [sum₂ i inside, sum₁ i inside, add_assoc, added, added, List.map_cons, List.sum_cons]

/-! ### Moves -/

/-- Between two rounds: view 0 uses an array that contains `initial`, or none, and all other slots are empty. -/
structure Holds (P size : ℕ) (s : State T) (used : Option ArrayId) (initial : ℕ → T) : Prop where
  first : s.views 0 = used
  views : ∀ p, 0 < p → p < P → s.views p = some (.internal p)
  zeros : ∀ p, 0 < p → p < P → ∀ i < size, s.memory (.internal p) i = 0
  own : ∀ master, used = some master → ∀ p, 0 < p → master ≠ .internal p
  contents : ∀ master, used = some master → ∀ i < size, s.memory master i = initial i

/-- The array that view 0 uses after a move-in: a new one only if there was none. -/
def usedAfterMoveIn : Option ArrayId → Option (ℕ × (ℕ → T)) → Option ArrayId
  | some a, _ => some a
  | none, some (n, _) => some (.user n)
  | none, none => none

/-- What a round starts with. -/
def base (initial : ℕ → T) : Option (ℕ × (ℕ → T)) → ℕ → T
  | some (_, contents) => contents
  | none => initial

variable {used : Option ArrayId} {initial : ℕ → T}

/-- Data that `move_out` moves from the array `a` to another one. -/
theorem copyOut_spec (size : ℕ) (s : State T) (a b : ArrayId) :
    ∃ s', forLoop 0 size (fun s i => do
        let v ← readSlot size s (some a) i
        let s ← writeSlot size s (some b) i v
        resetArraySlot size s (some a) i) s = some s' ∧ Frame {a, b} s s' ∧
      ∀ c, ∀ i < size, s'.memory c i = if c = a then 0 else if c = b then s.memory a i else s.memory c i := by
  refine loop_spec {a, b} (fun c i => if c = a then 0 else if c = b then s.memory a i else s.memory c i) ?_
  intro i s₁ inside _ rest
  refine ⟨(s₁.write b i (s₁.memory a i)).write a i 0, ?_,
    (write_frame _ _ _ (by simp)).trans (write_frame _ _ _ (by simp)), ?_, ?_⟩
  · simp only [readSlot_eq inside, writeSlot_eq inside, resetArraySlot, Option.bind_eq_bind, Option.bind_some]
  · intro c
    by_cases first : c = a
    · rw [first, write_same, if_pos rfl]
    · rw [write_array _ _ _ first, if_neg first]
      by_cases second : c = b
      · rw [second, write_same, if_pos rfl, rest a i (Nat.le_refl i)]
      · rw [write_array _ _ _ second, if_neg second, rest c i (Nat.le_refl i)]
  · intro c j other
    rw [write_index _ _ _ other, write_index _ _ _ other]

/-- The start of a round, in all cases of the array that is moved in. -/
theorem startRound_spec (holds : Holds P size s used initial) {moveIn : Option (ℕ × (ℕ → T))}
    (ready : used = none → moveIn ≠ none) :
    ∃ s' master, startRound size s moveIn = some s' ∧ usedAfterMoveIn used moveIn = some master ∧
      Holds P size s' (some master) (base initial moveIn) := by
  cases moveIn with
  | none =>
    obtain ⟨master, rfl⟩ := Option.ne_none_iff_exists'.mp fun none => ready none rfl
    exact ⟨s, master, rfl, rfl, holds⟩
  | some given =>
    obtain ⟨n, contents⟩ := given
    -- The state in which view 0 is called, whatever `m_orig_array` is.
    obtain ⟨s₁, called, views, memory⟩ : ∃ s₁ : State T, startRound size s (some (n, contents)) =
        viewMoveIn size s₁ (.user n) ∧ s₁.views = s.views ∧
        s₁.memory = fun b => if b = .user n then contents else s.memory b := by
      refine ⟨_, rfl, ?_, ?_⟩
      · split <;> rfl
      · split <;> rfl
    have zeros : ∀ p, 0 < p → p < P → ∀ i < size, s₁.memory (.internal p) i = 0 := by
      intro p positive inside i bound
      rw [memory]
      exact (congrFun (if_neg (by simp)) i).trans (holds.zeros p positive inside i bound)
    have filled : s₁.memory (.user n) = contents := by
      rw [memory]
      exact if_pos rfl
    rw [called]
    cases used with
    | none =>
      refine ⟨{ s₁ with views := fun q => if q = 0 then some (.user n) else s₁.views q }, .user n, ?_, rfl, ?_⟩
      · rw [viewMoveIn, views, holds.first]
        rfl
      · refine ⟨rfl, ?_, zeros, ?_, ?_⟩
        · intro p positive inside
          rw [← holds.views p positive inside, ← views]
          exact if_neg (by omega)
        · rintro master ⟨⟩ p _
          exact fun impossible => by cases impossible
        · rintro master ⟨⟩ i _
          exact congrFun filled i
    | some master =>
      by_cases same : master = .user n
      · subst same
        refine ⟨s₁, .user n, ?_, rfl, ⟨by rw [views, holds.first], ?_, zeros, holds.own, ?_⟩⟩
        · rw [viewMoveIn, views, holds.first]
          exact if_neg (not_not_intro rfl)
        · intro p positive inside
          rw [views, holds.views p positive inside]
        · rintro master ⟨⟩ i _
          exact congrFun filled i
      · obtain ⟨s₂, run, frame, copied⟩ := copyIn_spec size s₁ master (.user n)
        refine ⟨s₂, master, ?_, rfl, ⟨by rw [frame.views, views, holds.first], ?_, ?_, holds.own, ?_⟩⟩
        · rw [viewMoveIn, views, holds.first, if_pos (by simpa using same)]
          exact run
        · intro p positive inside
          rw [frame.views, views, holds.views p positive inside]
        · intro p positive inside i bound
          rw [frame.memory _ (Ne.symm (holds.own master rfl p positive)), zeros p positive inside i bound]
        · rintro other ⟨⟩ i bound
          rw [copied i bound, filled]
          rfl

/-- Targets: arrays of the user, and the array that view 0 uses. -/
def Target (used : Option ArrayId) (target : ArrayId) : Prop := (∃ n, target = .user n) ∨ used = some target

/-- The end of a round: the sums are delivered, and all slots that are used again are empty. -/
theorem moveOut_spec (size : ℕ) (shape : Shape P s master) (workers : 1 ≤ P) {target : ArrayId}
    (valid : Target (some master) target) :
    ∃ s', moveOut P size s target = some s' ∧ (∀ i < size, s'.memory target i = total P s master i) ∧
      Holds P size s' (if some master = some target then none else some master) 0 := by
  obtain ⟨s₁, merges, frame, contents⟩ := mergeInternal_spec size shape workers
  have shape₁ := shape.frame frame
  have sums : ∀ i < size, s₁.memory master i = total P s master i := fun i inside =>
    (contents master i inside).trans (merged_master s.memory P i)
  have zeros : ∀ p, 0 < p → p < P → ∀ i < size, s₁.memory (.internal p) i = 0 := fun p positive inside i bound =>
    (contents _ i bound).trans (merged_internal s.memory i (shape.own p positive) positive inside)
  -- The flag does not matter for the contents and the views.
  suffices moved : ∃ s₂, viewMoveOut size s₁ target = some s₂ ∧
      (∀ i < size, s₂.memory target i = total P s master i) ∧
      Holds P size s₂ (if some master = some target then none else some master) 0 by
    obtain ⟨s₂, run, delivered, holds⟩ := moved
    refine ⟨if s₂.origArray = some target then { s₂ with origArray := none } else s₂, ?_, ?_, ?_⟩
    · rw [moveOut, merges, Option.bind_eq_bind, Option.bind_some, run]
      rfl
    · split <;> exact delivered
    · split <;> exact ⟨holds.first, holds.views, holds.zeros, holds.own, holds.contents⟩
  by_cases same : master = target
  · subst same
    refine ⟨{ s₁ with views := fun q => if q = 0 then none else s₁.views q }, ?_, sums, ?_⟩
    · rw [viewMoveOut, shape₁.first, if_pos rfl]
    · rw [if_pos rfl]
      refine ⟨rfl, fun p positive inside => ?_, zeros, ?_, ?_⟩
      · rw [← shape₁.views p positive inside]
        exact if_neg (by omega)
      · rintro other ⟨⟩
      · rintro other ⟨⟩
  · have different : some master ≠ some target := fun equal => same (Option.some.inj equal)
    obtain ⟨n, rfl⟩ := valid.resolve_right different
    obtain ⟨s₂, run, frame₂, copied⟩ := copyOut_spec size s₁ master (.user n)
    refine ⟨s₂, ?_, ?_, ?_⟩
    · rw [viewMoveOut, shape₁.first, if_neg different]
      exact run
    · intro i inside
      rw [copied _ i inside, if_neg (Ne.symm same), if_pos rfl, sums i inside]
    · rw [if_neg different]
      refine ⟨by rw [frame₂.views, shape₁.first], fun p positive inside => ?_, fun p positive inside i bound => ?_, ?_, ?_⟩
      · rw [frame₂.views, shape₁.views p positive inside]
      · rw [copied _ i bound, if_neg (Ne.symm (shape.own p positive)), if_neg (by simp), zeros p positive inside i bound]
      · rintro other ⟨⟩
        exact shape.own
      · rintro other ⟨⟩ i inside
        exact (copied _ i inside).trans (if_pos rfl)

/-! ### Runs -/

/-- The array that view 0 uses after a round. -/
def usedAfter (used : Option ArrayId) (round : Round T) : Option ArrayId :=
  if usedAfterMoveIn used round.moveIn = some round.target then none else usedAfterMoveIn used round.moveIn

/-- An array is moved in if view 0 has lost its own, the workers and indices exist, and the result goes to an
array of the user or to the one that view 0 uses. -/
def Valid (P size : ℕ) (used : Option ArrayId) : List (Round T) → Prop
  | [] => True
  | round :: rounds => (used = none → round.moveIn ≠ none) ∧ (∀ action ∈ round.actions, action.Valid P size) ∧
      Target (usedAfterMoveIn used round.moveIn) round.target ∧ Valid P size (usedAfter used round) rounds

/-- Every round delivers what it started with and the sum of its updates. -/
def Delivers (size : ℕ) (initial : ℕ → T) : List (Round T) → List (ℕ → T) → Prop
  | [], [] => True
  | round :: rounds, delivered :: others =>
      (∀ i < size, delivered i = base initial round.moveIn i + added round.actions i) ∧ Delivers size 0 rounds others
  | _, _ => False

theorem Holds.shape (holds : Holds P size s (some master) initial) : Shape P s master :=
  ⟨holds.first, holds.views, holds.own master rfl⟩

theorem Holds.total (holds : Holds P size s (some master) initial) (workers : 1 ≤ P) {i : ℕ} (inside : i < size) :
    total P s master i = initial i := by
  obtain ⟨n, rfl⟩ := Nat.exists_eq_add_of_le' workers
  have others : ∀ q ∈ Finset.range n, s.memory (arrayOf master (q + 1)) i = 0 := by
    intro q member
    have bound := Finset.mem_range.mp member
    rw [arrayOf, if_neg (Nat.succ_ne_zero q)]
    exact holds.zeros (q + 1) (Nat.succ_pos q) (by omega) i inside
  rw [OpaddArray.total, Finset.sum_range_succ', Finset.sum_eq_zero others, zero_add, arrayOf, if_pos rfl]
  exact holds.contents master rfl i inside

theorem runRound_spec (workers : 1 ≤ P) (holds : Holds P size s used initial) {round : Round T}
    (ready : used = none → round.moveIn ≠ none) (actions : ∀ action ∈ round.actions, action.Valid P size)
    (target : Target (usedAfterMoveIn used round.moveIn) round.target) :
    ∃ s' delivered, runRound P size s round = some (s', delivered) ∧
      (∀ i < size, delivered i = base initial round.moveIn i + added round.actions i) ∧
      Holds P size s' (usedAfter used round) 0 := by
  obtain ⟨s₁, master, start, uses, holds₁⟩ := startRound_spec holds ready
  obtain ⟨s₂, acts, shape₂, sums⟩ := acts_spec workers round.actions holds₁.shape actions
  rw [uses] at target
  obtain ⟨s₃, moved, delivered, holds₃⟩ := moveOut_spec size shape₂ workers target
  refine ⟨s₃, s₃.memory round.target, ?_, ?_, ?_⟩
  · simp only [runRound, start, acts, moved, Option.bind_eq_bind, Option.bind_some]
  · intro i inside
    rw [delivered i inside, sums i inside, holds₁.total workers inside]
  · rw [usedAfter, uses]
    exact holds₃

theorem runRounds_spec (workers : 1 ≤ P) (rounds : List (Round T)) : ∀ {s : State T} {used : Option ArrayId}
    {initial : ℕ → T}, Holds P size s used initial → Valid P size used rounds →
    ∃ s' delivered, runRounds P size s rounds = some (s', delivered) ∧ Delivers size initial rounds delivered ∧
      Holds P size s' (rounds.foldl usedAfter used) (if rounds = [] then initial else 0) := by
  induction rounds with
  | nil =>
    intro s used initial holds _
    exact ⟨s, [], rfl, trivial, by rw [if_pos rfl]; exact holds⟩
  | cons round rounds ih =>
    rintro s used initial holds ⟨ready, actions, target, valid⟩
    obtain ⟨s₁, delivered, run, sums, holds₁⟩ := runRound_spec workers holds ready actions target
    obtain ⟨s₂, others, run₂, delivers, holds₂⟩ := ih holds₁ valid
    refine ⟨s₂, delivered :: others, ?_, ⟨sums, delivers⟩, ?_⟩
    · simp only [runRounds, run, run₂, Option.bind_eq_bind, Option.bind_some]
    · rw [ite_self] at holds₂
      rw [if_neg (List.cons_ne_nil _ _)]
      exact holds₂

theorem constructView_spec (s : State T) (p : ℕ) (positive : 0 < size) :
    ∃ s', constructView size s p = some s' ∧ s'.views = (fun q => if q = p then some (.internal p) else s.views q) ∧
      (∀ i < size, s'.memory (.internal p) i = 0) ∧ ∀ b, b ≠ .internal p → s'.memory b = s.memory b := by
  have loop : ∃ s', forLoop 0 size (fun s i => writeSlot size s (some (.internal p)) i 0)
      { s with views := fun q => if q = p then some (.internal p) else s.views q } = some s' ∧
      Frame {.internal p} { s with views := fun q => if q = p then some (.internal p) else s.views q } s' ∧
      ∀ c, ∀ i < size, s'.memory c i = if c = .internal p then 0 else s.memory c i := by
    refine loop_spec {.internal p} (fun c i => if c = .internal p then 0 else s.memory c i) ?_
    intro i s₁ inside _ rest
    refine ⟨s₁.write (.internal p) i 0, writeSlot_eq inside 0, write_frame _ _ _ rfl, ?_,
      fun c j other => write_index _ _ _ other⟩
    intro c
    by_cases same : c = .internal p
    · rw [same, write_same, if_pos rfl]
    · rw [write_array _ _ _ same, if_neg same, rest c i (Nat.le_refl i)]
  obtain ⟨s', run, frame, contents⟩ := loop
  refine ⟨s', ?_, frame.views, fun i inside => (contents _ i inside).trans (if_pos rfl), fun b other => ?_⟩
  · rw [constructView, if_pos positive, run]
  · exact frame.memory b other

/-- The array that a constructor gives to view `p`. -/
def firstArray (n : Option ℕ) (p : ℕ) : ArrayId := arrayOf (n.elim (.internal 0) .user) p

/-- The views below `m` have been constructed. -/
structure Constructed (size : ℕ) (memory : ArrayId → ℕ → T) (n : Option ℕ) (m : ℕ) (s : State T) : Prop where
  views : ∀ p < m, s.views p = some (firstArray n p)
  zeros : ∀ p < m, firstArray n p = .internal p → ∀ i < size, s.memory (.internal p) i = 0
  users : ∀ k, s.memory (.user k) = memory (.user k)

theorem construct_next {memory : ArrayId → ℕ → T} {n : Option ℕ} {m : ℕ} (positive : 0 < size)
    (constructed : Constructed size memory n m s) :
    ∃ s', (if n.map ArrayId.user ≠ none ∧ m = 0 then
        some { s with views := fun q => if q = 0 then n.map .user else s.views q }
      else constructView size s m) = some s' ∧ Constructed size memory n (m + 1) s' := by
  by_cases given : n.map ArrayId.user ≠ none ∧ m = 0
  · obtain ⟨some, rfl⟩ := given
    cases n with
    | none => exact absurd rfl some
    | some k =>
      refine ⟨_, if_pos ⟨some, rfl⟩, ?_, ?_, constructed.users⟩
      · intro p bound
        have first : p = 0 := by omega
        subst first
        rfl
      · intro p bound impossible
        have first : p = 0 := by omega
        subst first
        cases impossible
  · obtain ⟨s', run, views, zeros, others⟩ := constructView_spec s m positive
    have own : firstArray n m = .internal m := by
      rw [firstArray, arrayOf]
      by_cases first : m = 0
      · cases n with
        | none => rw [if_pos first, first]; rfl
        | some k => exact absurd ⟨by simp, first⟩ given
      · rw [if_neg first]
    refine ⟨s', by rw [if_neg given, run], ?_, ?_, ?_⟩
    · intro p bound
      rw [views]
      by_cases last : p = m
      · rw [last, own]
        exact if_pos rfl
      · exact (if_neg last).trans (constructed.views p (by omega))
    · intro p bound internal i inside
      by_cases last : p = m
      · rw [last, zeros i inside]
      · rw [others _ (by simpa using last), constructed.zeros p (by omega) internal i inside]
    · intro k
      rw [others _ (by simp), constructed.users k]

/-- Both constructors: view 0 uses the array of the user, if there is one. -/
theorem init_spec (workers : 1 ≤ P) (positive : 0 < size) (memory : ArrayId → ℕ → T) (n : Option ℕ) :
    ∃ s, init P size memory (n.map .user) = some s ∧
      Holds P size s (some (n.elim (.internal 0) .user)) (n.elim 0 fun k => memory (.user k)) := by
  have loop : ∃ s, forLoop 0 P (fun s i =>
      if n.map ArrayId.user ≠ none ∧ i = 0 then
        some { s with views := fun q => if q = 0 then n.map .user else s.views q }
      else constructView size s i) ⟨memory, fun _ => none, n.map .user⟩ = some s ∧ Constructed size memory n P s := by
    refine forLoop_invariant (Constructed size memory n) (Nat.zero_le P) ⟨?_, ?_, fun k => rfl⟩ ?_
    · intro p impossible
      exact absurd impossible (Nat.not_lt_zero p)
    · intro p impossible
      exact absurd impossible (Nat.not_lt_zero p)
    · intro m s' _ _ constructed
      exact construct_next positive constructed
  obtain ⟨s, run, constructed⟩ := loop
  have later : ∀ p, 0 < p → firstArray n p = .internal p := fun p positive => if_neg (by omega)
  refine ⟨s, ?_, constructed.views 0 workers, ?_, ?_, ?_, ?_⟩
  · rw [init, if_pos workers, run]
  · intro p positive inside
    rw [constructed.views p inside, later p positive]
  · intro p positive inside
    exact constructed.zeros p inside (later p positive)
  · rintro master ⟨⟩ p positive
    cases n with
    | none => exact fun same => absurd (ArrayId.internal.inj same) (by omega)
    | some k => exact fun impossible => by cases impossible
  · rintro master ⟨⟩ i inside
    cases n with
    | none => exact constructed.zeros 0 workers rfl i inside
    | some k => exact congrFun (constructed.users k) i

/-- After either constructor, every run of valid rounds succeeds. Every round delivers the contents that it
started with and the sum of its updates at each index, whichever workers ran them. After the last round
all slots that are used again are empty. -/
theorem opaddArray_delivers (workers : 1 ≤ P) (positive : 0 < size) (memory : ArrayId → ℕ → T) (n : Option ℕ)
    (rounds : List (Round T)) (valid : Valid P size (some (n.elim (.internal 0) .user)) rounds) :
    ∃ s s' delivered, init P size memory (n.map .user) = some s ∧
      runRounds P size s rounds = some (s', delivered) ∧
      Delivers size (n.elim 0 fun k => memory (.user k)) rounds delivered ∧
      (rounds ≠ [] → Holds P size s' (rounds.foldl usedAfter (some (n.elim (.internal 0) .user))) 0) := by
  obtain ⟨s, constructed, holds⟩ := init_spec workers positive memory n
  obtain ⟨s', delivered, run, delivers, final⟩ := runRounds_spec workers rounds holds valid
  refine ⟨s, s', delivered, constructed, run, delivers, fun some => ?_⟩
  rwa [if_neg some] at final

/-- Two rounds on two workers: the array of the constructor is filled, and then another one is moved in. -/
def twoRounds : List (Round ℕ) :=
  [⟨none, [.update 0 0 1, .update 1 0 2, .merge], .user 0⟩, ⟨some (1, fun _ => 7), [.update 1 0 3], .user 2⟩]

theorem opaddArray_delivers_twoRounds :
    ∃ s s' delivered, init 2 1 (fun _ _ => 4) (some (.user 0)) = some s ∧
      runRounds 2 1 s twoRounds = some (s', delivered) ∧ Delivers 1 (fun _ => 4) twoRounds delivered := by
  have valid : Valid 2 1 (some (.user 0)) twoRounds := by
    refine ⟨by simp, ?_, .inl ⟨0, rfl⟩, by simp, ?_, .inl ⟨2, rfl⟩, trivial⟩
    · simp [Action.Valid]
    · simp [Action.Valid]
  obtain ⟨s, s', delivered, constructed, run, delivers, _⟩ :=
    opaddArray_delivers (by decide) (by decide) (fun _ _ => 4) (some 0) twoRounds valid
  exact ⟨s, s', delivered, constructed, run, delivers⟩

end CilkArtifact.OpaddArray
