import Mathlib.Data.List.Basic

/-! Vector reducers (`reducer_vector_cilkpub.h`). A view keeps a list of vectors; a call of `front()` or
`back()` on an empty list fails the operation. -/
namespace CilkArtifact.VectorReducer

/-- `std::vector<Type, Alloc>` -/
structure Vec (A α : Type) where
  alloc : A
  elems : List α

/-- `op_vector_view`, which has the member `m_list`. -/
structure View (A α : Type) where
  list : List (Vec A α)

namespace View
variable {A α : Type} [DecidableEq A]

/-- `m_list.front()` -/
def front (view : View A α) : Option (Vec A α) := view.list.head?

/-- `m_list.back()`, which is also `vector()`. -/
def back (view : View A α) : Option (Vec A α) := view.list.getLast?

/-- An assignment through `m_list.back()`. -/
def setBack (view : View A α) (v : Vec A α) : View A α := ⟨view.list.dropLast ++ [v]⟩

def getAllocator (view : View A α) : Option A := do
  let last ← view.back
  some last.alloc

/-- The constructors: one vector, which the arguments make. -/
def construct (v : Vec A α) : View A α := ⟨[v]⟩

/-- `op_vector::identity`, with the allocator of the monoid. -/
def identity (allocator : A) : View A α := construct ⟨allocator, []⟩

def flatten (view : View A α) : Option (View A α) :=
  if view.list.length = 1 then some view
  else do
    let head ← view.front
    let head := view.list.tail.foldl (fun head i => { head with elems := head.elems ++ i.elems }) head
    some ⟨[head]⟩

/-- `reduce`: the vectors of `other` are moved to the end. -/
def reduce (view other : View A α) : View A α := ⟨view.list ++ other.list⟩

/-- What the modifiers have in common: elements are inserted at the end of `vector()`. -/
def append (view : View A α) (elements : List α) : Option (View A α) := do
  let v ← view.back
  some (view.setBack { v with elems := v.elems ++ elements })

def pushBack (view : View A α) (x : α) : Option (View A α) := view.append [x]

/-- `insert_back(element)` -/
def insertBack (view : View A α) (element : α) : Option (View A α) := view.append [element]

/-- `insert_back(n, element)` -/
def insertBackN (view : View A α) (n : ℕ) (element : α) : Option (View A α) := view.append (List.replicate n element)

/-- `insert_back(first, last)` -/
def insertBackRange (view : View A α) (elements : List α) : Option (View A α) := view.append elements

/-- `view_move_in`; returns what is left in `v`, too. -/
def viewMoveIn (view : View A α) (v : Vec A α) : Option (View A α × Vec A α) := do
  let view := { view with list := [] }
  let last ← view.back
  if last.alloc = v.alloc then do
    let allocator ← view.getAllocator
    let view : View A α := ⟨view.list ++ [⟨allocator, []⟩]⟩
    let fresh ← view.back
    some (view.setBack { fresh with elems := v.elems }, { v with elems := [] })
  else some (⟨view.list ++ [v]⟩, { v with elems := [] })

/-- `view_move_out`; returns the new `v`, too. -/
def viewMoveOut (view : View A α) (v : Vec A α) : Option (View A α × Vec A α) := do
  let view ← view.flatten
  let last ← view.back
  if last.alloc = v.alloc then some (view.setBack { last with elems := v.elems }, { v with elems := last.elems })
  else some (view.setBack { last with elems := [] }, { v with elems := last.elems })

def viewSetValue (v : Vec A α) : View A α := ⟨[] ++ [v]⟩

/-- `view_get_value`, which flattens the list of a `const` view. -/
def viewGetValue (view : View A α) : Option (View A α × Vec A α) := do
  let view ← view.flatten
  let v ← view.back
  some (view, v)

end View

/-! ### Operations and the serial program -/

/-- The operations on a view. -/
inductive Op (A α : Type) where
  | pushBack (x : α)
  | insertBack (element : α)
  | insertBackN (n : ℕ) (element : α)
  | insertBackRange (elements : List α)
  | viewGetValue
  | viewSetValue (v : Vec A α)
  | viewMoveIn (v : Vec A α)
  | viewMoveOut (v : Vec A α)

namespace Op
variable {A α : Type} [DecidableEq A]

def withoutResult (run : Option (View A α)) : Option (View A α × Option (List α)) := do
  let view ← run
  some (view, none)

def withResult (run : Option (View A α × Vec A α)) : Option (View A α × Option (List α)) := do
  let (view, v) ← run
  some (view, some v.elems)

/-- The view after the operation, and the contents of the vector that it returns or fills. -/
def perform (view : View A α) : Op A α → Option (View A α × Option (List α))
  | pushBack x => withoutResult (view.pushBack x)
  | insertBack element => withoutResult (view.insertBack element)
  | insertBackN n element => withoutResult (view.insertBackN n element)
  | insertBackRange elements => withoutResult (view.insertBackRange elements)
  | viewGetValue => withResult view.viewGetValue
  | viewSetValue v => withoutResult (some (View.viewSetValue v))
  | viewMoveIn v => withResult (view.viewMoveIn v)
  | viewMoveOut v => withResult (view.viewMoveOut v)

/-- What the operation does to the vector of the serial program; `none` is an unspecified vector. -/
def serialStep (value : Option (List α)) : Op A α → Option (List α)
  | pushBack x => value.map (· ++ [x])
  | insertBack element => value.map (· ++ [element])
  | insertBackN n element => value.map (· ++ List.replicate n element)
  | insertBackRange elements => value.map (· ++ elements)
  | viewGetValue => value
  | viewSetValue v => some v.elems
  | viewMoveIn v => some v.elems
  | viewMoveOut _ => none

/-- The operations that only read the value or append to it. -/
def Appends : Op A α → Prop
  | pushBack _ | insertBack _ | insertBackN _ _ | insertBackRange _ | viewGetValue => True
  | viewSetValue _ | viewMoveIn _ | viewMoveOut _ => False

/-- A vector that the operation returns or fills has the contents of the serial program's, if these are
specified. -/
def Reads (value result : Option (List α)) : Op A α → Prop
  | viewGetValue | viewMoveOut _ => ∀ vector, value = some vector → result = some vector
  | _ => True

end Op

/-- The vector of the serial program after the operations `ops`. -/
def serial {A α : Type} (value : Option (List α)) (ops : List (Op A α)) : Option (List α) :=
  ops.foldl Op.serialStep value

/-! ### What the operations do to the value -/

variable {A α : Type} {view : View A α}

/-- The value of a view is the concatenation of its vectors. -/
def View.value (view : View A α) : List α := (view.list.map Vec.elems).flatten

theorem back_eq (nonempty : view.list ≠ []) : ∃ init last, view.list = init ++ [last] ∧ view.back = some last := by
  rcases List.eq_nil_or_concat view.list with empty | ⟨init, last, same⟩
  · exact absurd empty nonempty
  · refine ⟨init, last, by simpa using same, ?_⟩
    rw [View.back, same]
    simp

theorem append_spec (nonempty : view.list ≠ []) (elements : List α) :
    ∃ view', view.append elements = some view' ∧ view'.list ≠ [] ∧ view'.value = view.value ++ elements := by
  obtain ⟨init, last, same, back⟩ := back_eq nonempty
  refine ⟨view.setBack { last with elems := last.elems ++ elements }, ?_, ?_, ?_⟩
  · rw [View.append, back]
    rfl
  · simp [View.setBack]
  · simp [View.setBack, View.value, same]

theorem flatten_fold (vectors : List (Vec A α)) (head : Vec A α) :
    vectors.foldl (fun head i => { head with elems := head.elems ++ i.elems }) head =
      { head with elems := head.elems ++ (vectors.map Vec.elems).flatten } := by
  induction vectors generalizing head with
  | nil => simp
  | cons v rest ih => simp [ih]

/-- A flattened view has its whole value in one vector. -/
theorem flatten_spec (nonempty : view.list ≠ []) :
    ∃ v, view.flatten = some ⟨[v]⟩ ∧ v.elems = view.value := by
  obtain ⟨head, rest, same⟩ := List.exists_cons_of_ne_nil nonempty
  rw [View.flatten]
  by_cases one : view.list.length = 1
  · have alone : rest = [] := by simpa [same] using one
    subst alone
    refine ⟨head, ?_, by simp [View.value, same]⟩
    rw [if_pos one, ← same]
  · rw [if_neg one]
    refine ⟨{ head with elems := view.value }, ?_, rfl⟩
    simp [View.front, same, flatten_fold, View.value]

theorem viewGetValue_spec (nonempty : view.list ≠ []) :
    ∃ view' v, view.viewGetValue = some (view', v) ∧ view'.list ≠ [] ∧ view'.value = view.value ∧
      v.elems = view.value := by
  obtain ⟨v, flat, elems⟩ := flatten_spec nonempty
  refine ⟨⟨[v]⟩, v, ?_, by simp, by simp [View.value, elems], elems⟩
  rw [View.viewGetValue, flat]
  rfl

theorem reduce_value (view other : View A α) : (view.reduce other).value = view.value ++ other.value := by
  simp [View.reduce, View.value]

theorem modifier_spec (nonempty : view.list ≠ []) (elements : List α) :
    ∃ view', Op.withoutResult (view.append elements) = some (view', none) ∧ view'.list ≠ [] ∧
      view'.value = view.value ++ elements := by
  obtain ⟨view', run, filled, value⟩ := append_spec nonempty elements
  refine ⟨view', ?_, filled, value⟩
  rw [run]
  rfl

/-! ### The serial program -/

theorem serial_append (value : Option (List α)) (ops ops' : List (Op A α)) :
    serial value (ops ++ ops') = serial (serial value ops) ops' := List.foldl_append ..

theorem serial_none {ops : List (Op A α)} (appends : ∀ op ∈ ops, op.Appends) : serial none ops = none := by
  induction ops with
  | nil => rfl
  | cons op ops ih =>
    have step : op.serialStep none = none := by
      have first := appends op (List.mem_cons_self ..)
      cases op <;> first | rfl | exact first.elim
    rw [serial, List.foldl_cons, step]
    exact ih fun op member => appends op (List.mem_cons_of_mem _ member)

/-- Appended elements do not depend on what they are appended to. -/
theorem serial_some {ops : List (Op A α)} (appends : ∀ op ∈ ops, op.Appends) :
    ∃ elements, ∀ vector : List α, serial (some vector) ops = some (vector ++ elements) := by
  induction ops with
  | nil => exact ⟨[], fun vector => by simp [serial]⟩
  | cons op ops ih =>
    obtain ⟨rest, sum⟩ := ih fun op member => appends op (List.mem_cons_of_mem _ member)
    have step : ∃ elements, ∀ vector : List α, op.serialStep (some vector) = some (vector ++ elements) := by
      have first := appends op (List.mem_cons_self ..)
      cases op with
      | pushBack x => exact ⟨[x], fun _ => rfl⟩
      | insertBack x => exact ⟨[x], fun _ => rfl⟩
      | insertBackN n x => exact ⟨List.replicate n x, fun _ => rfl⟩
      | insertBackRange elements => exact ⟨elements, fun _ => rfl⟩
      | viewGetValue => exact ⟨[], fun vector => by simp [Op.serialStep]⟩
      | _ => exact first.elim
    obtain ⟨elements, first⟩ := step
    refine ⟨elements ++ rest, fun vector => ?_⟩
    rw [serial, List.foldl_cons, first, ← List.append_assoc]
    exact sum (vector ++ elements)

/-- An operation that specifies a value does not depend on the old one. -/
theorem serialStep_of_none {op : Op A α} {vector : List α} (specified : op.serialStep none = some vector)
    (value : Option (List α)) : op.serialStep value = some vector := by
  cases op <;> first | exact specified | cases specified

/-! ### Strands -/

/-- A view and the operations that it stands for: those on the view itself and on the views that have been
merged into it, in serial order. -/
structure Strand (A α : Type) where
  view : View A α
  ops : List (Op A α)

/-- The vector before the first operation of a strand: all strands but the leftmost one start with an empty
vector. -/
def startOf (init : Vec A α) (left : List (Strand A α)) : List α := if left = [] then init.elems else []

/-- What a strand keeps: its view has a vector, and its value is that of the serial program. All strands but
the leftmost one only append. -/
structure Fits (init : Vec A α) (left : List (Strand A α)) (strand : Strand A α) : Prop where
  nonempty : strand.view.list ≠ []
  value : ∀ vector, serial (some (startOf init left)) strand.ops = some vector → strand.view.value = vector
  appends : left ≠ [] → ∀ op ∈ strand.ops, op.Appends

variable {init : Vec A α} {left right : List (Strand A α)} {strand : Strand A α}

/-- Only whether a strand is the leftmost one counts. -/
theorem Fits.congr {left' : List (Strand A α)} (fits : Fits init left strand) (same : left = [] ↔ left' = []) :
    Fits init left' strand := by
  have start : startOf init left' = startOf init left := by simp only [startOf, same]
  exact ⟨fits.nonempty, by rw [start]; exact fits.value, fun other => fits.appends (mt same.mp other)⟩

/-- All strands fit their places. -/
def Invariant (init : Vec A α) : List (Strand A α) → Prop
  | [] => False
  | first :: rest => Fits init [] first ∧ ∀ strand ∈ rest, Fits init [first] strand

theorem Invariant.at (invariant : Invariant init (left ++ strand :: right)) : Fits init left strand := by
  cases left with
  | nil => exact invariant.1
  | cons first left => exact (invariant.2 strand (by simp)).congr (by simp)

/-- Other strands may take the place of some. -/
theorem Invariant.replace {strand' : Strand A α} (mid new : List (Strand A α))
    (invariant : Invariant init (left ++ strand :: mid ++ right)) (fits : Fits init left strand')
    (others : ∀ other ∈ new, Fits init [strand'] other) : Invariant init (left ++ strand' :: new ++ right) := by
  cases left with
  | nil =>
    refine ⟨fits, fun other member => ?_⟩
    rcases List.mem_append.mp member with inNew | inRight
    · exact others other inNew
    · exact (invariant.2 other (List.mem_append_right _ inRight)).congr (by simp)
  | cons first left =>
    refine ⟨invariant.1, fun other member => ?_⟩
    simp only [List.append_eq, List.mem_append, List.mem_cons] at member
    rcases member with (inLeft | rfl | inNew) | inRight
    · exact invariant.2 other (by simp [inLeft])
    · exact fits.congr (by simp)
    · exact (others other inNew).congr (by simp)
    · exact invariant.2 other (by simp [inRight])

theorem identity_fits (allocator : A) (first : Strand A α) : Fits init [first] ⟨.identity allocator, []⟩ where
  nonempty := by simp [View.identity, View.construct]
  value vector same := by simpa [serial, startOf, View.value, View.identity, View.construct] using same
  appends _ op member := by cases member

/-- A merged view has the value of the serial program with the operations of both strands. -/
theorem Fits.reduce {next : Strand A α} (fits : Fits init left strand) (follows : Fits init [strand] next) :
    Fits init left ⟨strand.view.reduce next.view, strand.ops ++ next.ops⟩ where
  nonempty := by simp [View.reduce, fits.nonempty]
  value vector same := by
    have appends := follows.appends (List.cons_ne_nil _ _)
    obtain ⟨elements, sum⟩ := serial_some appends
    rw [serial_append] at same
    cases before : serial (some (startOf init left)) strand.ops with
    | none =>
      rw [before, serial_none appends] at same
      cases same
    | some value =>
      rw [before, sum, Option.some.injEq] at same
      have tail : next.view.value = elements := follows.value elements (by simpa [startOf] using sum [])
      rw [reduce_value, fits.value value before, tail, same]
  appends other op member := by
    rcases List.mem_append.mp member with first | second
    · exact fits.appends other op first
    · exact follows.appends (List.cons_ne_nil _ _) op second

variable [DecidableEq A]

/-! ### Operations that can fail -/

theorem viewMoveOut_spec (nonempty : view.list ≠ []) (v : Vec A α) :
    ∃ view' v', view.viewMoveOut v = some (view', v') ∧ view'.list ≠ [] ∧ v'.elems = view.value := by
  obtain ⟨last, flat, elems⟩ := flatten_spec nonempty
  have back : (⟨[last]⟩ : View A α).back = some last := rfl
  by_cases equal : last.alloc = v.alloc
  · refine ⟨View.setBack ⟨[last]⟩ { last with elems := v.elems }, { v with elems := last.elems }, ?_, ?_, elems⟩
    · simp only [View.viewMoveOut, flat, back, Option.bind_eq_bind, Option.bind_some]
      rw [if_pos equal]
    · simp [View.setBack]
  · refine ⟨View.setBack ⟨[last]⟩ { last with elems := [] }, { v with elems := last.elems }, ?_, ?_, elems⟩
    · simp only [View.viewMoveOut, flat, back, Option.bind_eq_bind, Option.bind_some]
      rw [if_neg equal]
    · simp [View.setBack]

/-- Every operation but `view_move_in` succeeds on a view with a vector, and the view then has a vector
again. Its value stays in step with the serial program. -/
theorem perform_spec (nonempty : view.list ≠ []) {op : Op A α} (allowed : ∀ v, op ≠ .viewMoveIn v) :
    ∃ view' result, op.perform view = some (view', result) ∧ view'.list ≠ [] ∧ op.Reads (some view.value) result ∧
      ∀ vector, op.serialStep (some view.value) = some vector → view'.value = vector := by
  cases op with
  | pushBack x =>
    obtain ⟨view', run, filled, value⟩ := modifier_spec nonempty [x]
    exact ⟨view', none, run, filled, trivial, fun vector same => value.trans (Option.some.inj same)⟩
  | insertBack element =>
    obtain ⟨view', run, filled, value⟩ := modifier_spec nonempty [element]
    exact ⟨view', none, run, filled, trivial, fun vector same => value.trans (Option.some.inj same)⟩
  | insertBackN n element =>
    obtain ⟨view', run, filled, value⟩ := modifier_spec nonempty (List.replicate n element)
    exact ⟨view', none, run, filled, trivial, fun vector same => value.trans (Option.some.inj same)⟩
  | insertBackRange elements =>
    obtain ⟨view', run, filled, value⟩ := modifier_spec nonempty elements
    exact ⟨view', none, run, filled, trivial, fun vector same => value.trans (Option.some.inj same)⟩
  | viewGetValue =>
    obtain ⟨view', v, run, filled, value, elems⟩ := viewGetValue_spec nonempty
    refine ⟨view', some v.elems, ?_, filled, ?_, fun vector same => value.trans (Option.some.inj same)⟩
    · rw [Op.perform, run]
      rfl
    · intro vector same
      rw [elems, same]
  | viewSetValue v =>
    refine ⟨View.viewSetValue v, none, rfl, by simp [View.viewSetValue], trivial, ?_⟩
    intro vector same
    cases same
    simp [View.viewSetValue, View.value]
  | viewMoveIn v => exact absurd rfl (allowed v)
  | viewMoveOut v =>
    obtain ⟨view', v', run, filled, elems⟩ := viewMoveOut_spec nonempty v
    refine ⟨view', some v'.elems, ?_, filled, ?_, ?_⟩
    · rw [Op.perform, run]
      rfl
    · intro vector same
      rw [elems, same]
    · intro vector impossible
      cases impossible

/-! ### Reductions -/

/-- The strands of a computation are kept in serial order. The leftmost one has the view that the reducer
was constructed with; the operations that set or take the value are for this view only. -/
inductive Step (allocator : A) : List (Strand A α) → List (Strand A α) → Prop
  | perform {left right strand view' result} (op : Op A α) : left = [] ∨ op.Appends → (∀ v, op ≠ .viewMoveIn v) →
      op.perform strand.view = some (view', result) →
      Step allocator (left ++ strand :: right) (left ++ ⟨view', strand.ops ++ [op]⟩ :: right)
  | identity (left : List (Strand A α)) (strand right) :
      Step allocator (left ++ strand :: right) (left ++ strand :: ⟨.identity allocator, []⟩ :: right)
  | reduce (left : List (Strand A α)) (strand next right) :
      Step allocator (left ++ strand :: next :: right)
        (left ++ ⟨strand.view.reduce next.view, strand.ops ++ next.ops⟩ :: right)

/-- The states of the runs without `view_move_in`. -/
inductive Reachable (allocator : A) (init : Vec A α) : List (Strand A α) → Prop
  | start : Reachable allocator init [⟨.construct init, []⟩]
  | step {strands strands'} : Reachable allocator init strands → Step allocator strands strands' →
      Reachable allocator init strands'

theorem perform_fits {op : Op A α} {view' : View A α} {result : Option (List α)} (fits : Fits init left strand)
    (place : left = [] ∨ op.Appends) (allowed : ∀ v, op ≠ .viewMoveIn v)
    (run : op.perform strand.view = some (view', result)) : Fits init left ⟨view', strand.ops ++ [op]⟩ := by
  obtain ⟨view₁, result₁, run₁, nonempty, _, value⟩ := perform_spec fits.nonempty allowed
  rw [run] at run₁
  cases run₁
  refine ⟨nonempty, ?_, ?_⟩
  · intro vector same
    rw [serial_append] at same
    cases before : serial (some (startOf init left)) strand.ops with
    | none =>
      rw [before] at same
      exact value vector (serialStep_of_none same _)
    | some old =>
      rw [before, ← fits.value old before] at same
      exact value vector same
  · intro other op' member
    rcases List.mem_append.mp member with earlier | last
    · exact fits.appends other op' earlier
    · rw [List.mem_singleton.mp last]
      exact place.resolve_left other

theorem step_invariant {allocator : A} {strands strands' : List (Strand A α)} (step : Step allocator strands strands')
    (invariant : Invariant init strands) : Invariant init strands' := by
  cases step with
  | @perform left right strand view' result op place allowed run =>
    have fits := perform_fits invariant.at place allowed run
    have replaced := Invariant.replace [] [] (by simpa using invariant) fits (by simp)
    simpa using replaced
  | identity left strand right =>
    have replaced := Invariant.replace [] [⟨.identity allocator, []⟩] (by simpa using invariant) invariant.at
      (by simpa using identity_fits allocator strand)
    simpa using replaced
  | reduce left strand next right =>
    have known : Invariant init ((left ++ [strand]) ++ next :: right) := by simpa using invariant
    have fits := invariant.at.reduce (known.at.congr (by simp))
    have replaced := Invariant.replace [next] [] (by simpa using invariant) fits (by simp)
    simpa using replaced

theorem reachable_invariant {allocator : A} {strands : List (Strand A α)} (reachable : Reachable allocator init strands) :
    Invariant init strands := by
  induction reachable with
  | start =>
    refine ⟨⟨by simp [View.construct], ?_, fun other => absurd rfl other⟩, by simp⟩
    intro vector same
    simpa [serial, startOf, View.construct, View.value] using same
  | step _ step ih => exact step_invariant step ih

/-- In every state of a run without `view_move_in`, every view has a vector, and an operation succeeds and
reads the vector of the serial program exactly if it is not `view_move_in`. -/
theorem vector_reducer_serial {allocator : A} {strands : List (Strand A α)}
    (reachable : Reachable allocator init strands) (same : strands = left ++ strand :: right) :
    strand.view.list ≠ [] ∧ ∀ op : Op A α, left = [] ∨ op.Appends →
      ((∃ view' result, op.perform strand.view = some (view', result) ∧
        op.Reads (serial (some (startOf init left)) strand.ops) result) ↔ ∀ v, op ≠ .viewMoveIn v) := by
  subst same
  have fits := (reachable_invariant reachable).at
  refine ⟨fits.nonempty, fun op _ => ⟨?_, fun allowed => ?_⟩⟩
  · rintro ⟨view', result, run, _⟩ v rfl
    cases run
  · obtain ⟨view', result, run, _, reads, _⟩ := perform_spec fits.nonempty allowed
    refine ⟨view', result, run, ?_⟩
    cases op with
    | viewGetValue => exact fun vector specified => reads vector (congrArg some (fits.value vector specified))
    | viewMoveOut v => exact fun vector specified => reads vector (congrArg some (fits.value vector specified))
    | _ => exact trivial

/-- A spawned strand and its continuation push elements on views of their own; the views are merged, and the reader of
the merged view sees all elements in one vector. -/
theorem vector_reducer_serial_spawn :
    ∃ view', Op.perform (View.reduce ⟨[⟨(), [5, 6]⟩]⟩ ⟨[⟨(), [7]⟩]⟩) (.viewGetValue : Op Unit ℕ) =
      some (view', some [5, 6, 7]) := by
  have spawned : Reachable () (⟨(), [5]⟩ : Vec Unit ℕ) ([⟨.construct ⟨(), [5]⟩, []⟩] ++ ⟨.identity (), []⟩ :: []) :=
    .step .start (.identity [] ⟨.construct ⟨(), [5]⟩, []⟩ [])
  have continued : Reachable () (⟨(), [5]⟩ : Vec Unit ℕ)
      ([] ++ ⟨.construct ⟨(), [5]⟩, []⟩ :: [⟨⟨[⟨(), [7]⟩]⟩, [.pushBack 7]⟩]) :=
    .step spawned (.perform (.pushBack 7) (.inr trivial) (by simp) rfl)
  have pushed : Reachable () (⟨(), [5]⟩ : Vec Unit ℕ)
      ([] ++ ⟨⟨[⟨(), [5, 6]⟩]⟩, [.pushBack 6]⟩ :: [⟨⟨[⟨(), [7]⟩]⟩, [.pushBack 7]⟩]) :=
    .step continued (.perform (.pushBack 6) (.inl rfl) (by simp) rfl)
  have reduced := Reachable.step pushed (.reduce [] _ _ [])
  obtain ⟨view', result, run, reads⟩ :=
    ((vector_reducer_serial reduced rfl).2 .viewGetValue (.inl rfl)).mpr (by simp)
  exact ⟨view', run.trans (by rw [reads [5, 6, 7] rfl])⟩

/-- Moving a vector into a new reducer. -/
theorem viewMoveIn_calls_back_on_empty :
    Reachable () (⟨(), []⟩ : Vec Unit ℕ) [⟨.construct ⟨(), []⟩, []⟩] ∧
      Op.perform (.construct ⟨(), []⟩) (.viewMoveIn ⟨(), [1]⟩ : Op Unit ℕ) = none := ⟨.start, rfl⟩

end CilkArtifact.VectorReducer
