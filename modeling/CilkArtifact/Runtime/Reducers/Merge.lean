import CilkArtifact.Runtime.Program
import CilkArtifact.Runtime.Reducers.Uses

/-! `merge_reducer_maps` on the hash tables and the views they point to: key by key the left view times the right one,
whichever map is merged into the other. -/
namespace CilkArtifact.Runtime.Reducers
open DotMix Buckets

/-- `merge_kind` -/
inductive MergeKind where
  | unordered
  | intoLeft
  | intoRight
  deriving DecidableEq

/-- The loop of `cilkred_map::merge`: the map that is merged into, the values of the views, and the elements of the
other map that the loop has passed, as it leaves them. -/
structure Merging (V : Type*) where
  map : CilkredMap
  heap : Word → V
  passed : List Elem

section Code
variable {V : Type*} (reduceFn : Word → V → V → V)

/-- `reduce_fn(hb, left, right)`, where every hyperobject has a monoid of its own. -/
def reduce (heap : Word → V) (hb left right : Word) : Word → V :=
  Function.update heap left (reduceFn hb (heap left) (heap right))

/-- `this_el`, which a leftmost map makes when it has none: its view is the leftmost one, unless the other map has
that already. -/
def thisElem (mergeToLeftmost : Bool) (map : CilkredMap) (other : Elem) : Option (CilkredMap × Option Position) := do
  match ← map.lookup other.key with
  | some el => some (map, some el)
  | none =>
    if mergeToLeftmost ∧ other.key ≠ other.view then
      (map.rehashAndInsert other.key other.hb other.key).map fun r => (r.1, some r.2)
    else some (map, none)

/-- `switch (kind)` -/
def mergeViews (kind : MergeKind) (s : Merging V) (thisEl : Position) (other : Elem) : Option (Merging V) :=
  let view := (s.map.get thisEl).view
  match kind with
  | .unordered => none
  | .intoRight =>
    some ⟨s.map.setView thisEl other.view, reduce reduceFn s.heap other.hb other.view view, s.passed ++ [{ other with view }]⟩
  | .intoLeft => some ⟨s.map, reduce reduceFn s.heap other.hb view other.view, s.passed ++ [other]⟩

/-- The body of the loop. -/
def mergeElem (kind : MergeKind) (mergeToLeftmost : Bool) (s : Merging V) (other : Elem) : Option (Merging V) :=
  if other.view = 0 then none
  else
    match thisElem mergeToLeftmost s.map other with
    | none => none
    | some (map, some el) => mergeViews reduceFn kind { s with map } el other
    | some (map, none) =>
      (map.rehashAndInsert other.key other.hb other.view).map fun r =>
        ⟨r.1, s.heap, s.passed ++ [{ other with view := 0 }]⟩

/-- `__cilkrts_destroy_reducer_map`: the views that it destroys. -/
def destroyReducerMap (elems : List Elem) : List Word :=
  (elems.filter fun el => el.view ≠ 0 ∧ el.isLeftmost = false).map (·.view)

/-- `cilkred_map::merge` -/
def merge (kind : MergeKind) (this other : CilkredMap) (heap : Word → V) :
    Option (CilkredMap × (Word → V) × List Word) := do
  if other.isLeftmost then none
  else
    let s ← other.elems.foldlM (mergeElem reduceFn kind this.isLeftmost) ⟨{ this with merging := true }, heap, []⟩
    some ({ s.map with isLeftmost := this.isLeftmost || other.isLeftmost, merging := false }, s.heap,
      destroyReducerMap s.passed)

/-- `merge_reducer_maps` -/
def mergeMaps (left right : Option CilkredMap) (heap : Word → V) : Option (Option CilkredMap × (Word → V) × List Word) :=
  match left, right with
  | none, right => some (right, heap, [])
  | left, none => some (left, heap, [])
  | some left, some right =>
    if left.isLeftmost ∨ left.nelem > right.nelem then
      (merge reduceFn .intoLeft left right heap).map fun r => (some r.1, r.2)
    else (merge reduceFn .intoRight right left heap).map fun r => (some r.1, r.2)

end Code

section Elem

/-- The element of this map that an element of the other one meets, which may be the leftmost view, made now. -/
def meets (mergeToLeftmost : Bool) (found : Option Elem) (other : Elem) : Option Elem :=
  match found with
  | some el => some el
  | none => if mergeToLeftmost ∧ other.key ≠ other.view then some ⟨other.key, other.hb, other.key⟩ else none

/-- What the two maps have for a key afterwards. -/
def mergedElem (kind : MergeKind) (this : Option Elem) (other : Elem) : Elem :=
  match this with
  | none => other
  | some el => if kind = .intoRight then { el with view := other.view } else el

def passedElem (kind : MergeKind) (this : Option Elem) (other : Elem) : Elem :=
  match this with
  | none => { other with view := 0 }
  | some el => if kind = .intoRight then { other with view := el.view } else other

def mergedHeap {V : Type*} (reduceFn : Word → V → V → V) (kind : MergeKind) (this : Option Elem) (other : Elem)
    (heap : Word → V) : Word → V :=
  match this with
  | none => heap
  | some el =>
    if kind = .intoRight then reduce reduceFn heap other.hb other.view el.view
    else reduce reduceFn heap other.hb el.view other.view

end Elem

section Loop
variable {V : Type*} {reduceFn : Word → V → V → V} {kind : MergeKind} {mergeToLeftmost : Bool} {s : Merging V} {other : Elem}

/-- What one element does. -/
structure Merging.Next (reduceFn : Word → V → V → V) (kind : MergeKind) (mergeToLeftmost : Bool) (s : Merging V)
    (other : Elem) (s' : Merging V) : Prop where
  wf : s'.map.WellFormed
  find : ∀ key, s'.map.find key =
    if key = other.key then some (mergedElem kind (meets mergeToLeftmost (s.map.find other.key) other) other)
    else s.map.find key
  heap : s'.heap = mergedHeap reduceFn kind (meets mergeToLeftmost (s.map.find other.key) other) other s.heap
  passed : s'.passed = s.passed ++ [passedElem kind (meets mergeToLeftmost (s.map.find other.key) other) other]

theorem find_setView {map : CilkredMap} {el : Position} {e : Elem} (wf : map.WellFormed) (here : map.At el e) {view : Word}
    (some_view : view ≠ 0) : (map.setView el view).WellFormed ∧
      ∀ key, (map.setView el view).find key = if key = e.key then some { e with view } else map.find key := by
  obtain ⟨table, others, perm, perm'⟩ := CilkredMap.setView_spec wf.table here some_view
  refine ⟨⟨table, wf.load⟩, fun key => ?_⟩
  rw [CilkredMap.find, CilkredMap.find, entry_perm table.distinct perm', entry_perm wf.table.distinct perm, entry_cons, entry_cons]
  by_cases same : key = e.key
  · simp [same]
  · simp [same, Ne.symm same]

/-- The element of this map is there, found or made. -/
theorem mergeViews_spec (reduceFn : Word → V → V → V) (s : Merging V) {el : Position} {e : Elem}
    (ordered : kind ≠ .unordered) (wf : s.map.WellFormed)
    (here : s.map.At el e) (same : e.key = other.key) (some_view : other.view ≠ 0) :
    ∃ s', mergeViews reduceFn kind s el other = some s' ∧ s'.map.WellFormed ∧
      (∀ key, s'.map.find key = if key = other.key then some (mergedElem kind (some e) other) else s.map.find key) ∧
      s'.heap = mergedHeap reduceFn kind (some e) other s.heap ∧ s'.passed = s.passed ++ [passedElem kind (some e) other] := by
  have get := here.get_eq wf.table
  cases kind with
  | unordered => exact absurd rfl ordered
  | intoRight =>
    obtain ⟨wf', found⟩ := find_setView wf here some_view
    refine ⟨_, rfl, wf', fun key => ?_, ?_, ?_⟩
    · rw [← same]
      exact found key
    · simp [mergedHeap, get]
    · simp [passedElem, get]
  | intoLeft =>
    refine ⟨_, rfl, wf, fun key => ?_, ?_, ?_⟩
    · split
      · subst key
        rw [← same]
        exact (entry_eq_some wf.table.distinct).mpr ⟨here.mem wf.table, rfl⟩
      · rfl
    · simp [mergedHeap, get]
    · simp [passedElem]

/-- Found, made or missing. -/
theorem thisElem_spec (mergeToLeftmost : Bool) {map : CilkredMap} (wf : map.WellFormed) (some_key : other.key ≠ 0) :
    ∃ map' el, thisElem mergeToLeftmost map other = some (map', el) ∧ map'.WellFormed ∧
      (∀ key, key ≠ other.key → map'.find key = map.find key) ∧
      match meets mergeToLeftmost (map.find other.key) other with
      | none => el = none ∧ map' = map
      | some e => ∃ p, el = some p ∧ map'.At p e ∧ e.key = other.key := by
  cases found : map.find other.key with
  | some e =>
    obtain ⟨p, looked, here⟩ := CilkredMap.lookup_some wf.table found
    refine ⟨map, some p, ?_, wf, fun _ _ => rfl, p, rfl, here, (CilkredMap.mem_of_find found).2⟩
    simp [thisElem, looked]
  | none =>
    have looked := CilkredMap.lookup_none wf.table found
    by_cases make : mergeToLeftmost = true ∧ other.key ≠ other.view
    · obtain ⟨map', p, inserts, wf', -, perm, here⟩ :=
        CilkredMap.rehashAndInsert_spec wf (e := ⟨other.key, other.hb, other.key⟩) some_key some_key found
      refine ⟨map', some p, ?_, wf', fun key away => ?_, ?_⟩
      · simp [thisElem, looked, make, inserts]
      · rw [CilkredMap.find_insert perm wf'.table, if_neg away]
      · simp only [meets, if_pos make]
        exact ⟨p, rfl, here, trivial⟩
    · refine ⟨map, none, ?_, wf, fun _ _ => rfl, ?_⟩
      · simp only [thisElem, looked, Option.bind_eq_bind, Option.bind_some, if_neg make]
      · simp only [meets, if_neg make]
        exact ⟨trivial, trivial⟩

theorem mergeElem_spec (reduceFn : Word → V → V → V) (mergeToLeftmost : Bool) (ordered : kind ≠ .unordered)
    (wf : s.map.WellFormed) (some_key : other.key ≠ 0)
    (some_view : other.view ≠ 0) : ∃ s', mergeElem reduceFn kind mergeToLeftmost s other = some s' ∧
      s.Next reduceFn kind mergeToLeftmost other s' := by
  obtain ⟨map, el, this, wf', others, here⟩ := thisElem_spec mergeToLeftmost wf some_key
  cases met : meets mergeToLeftmost (s.map.find other.key) other with
  | none =>
    rw [met] at here
    obtain ⟨rfl, rfl⟩ := here
    have missing : s.map.find other.key = none := by
      cases found : s.map.find other.key with
      | none => rfl
      | some e =>
        rw [found] at met
        cases met
    obtain ⟨map, p, inserts, wf'', -, perm, -⟩ := CilkredMap.rehashAndInsert_spec wf some_key some_view missing
    refine ⟨⟨map, s.heap, s.passed ++ [{ other with view := 0 }]⟩, ?_, wf'', fun key => ?_, ?_, ?_⟩
    · simp only [mergeElem, if_neg some_view, this, inserts, Option.map_some]
    · rw [CilkredMap.find_insert perm wf''.table, met]
      rfl
    · rw [met]
      rfl
    · rw [met]
      rfl
  | some e =>
    rw [met] at here
    obtain ⟨p, rfl, here, same⟩ := here
    obtain ⟨s', merges, wf'', found, heap, passed⟩ :=
      mergeViews_spec reduceFn { s with map } ordered wf' here same some_view
    refine ⟨s', ?_, wf'', fun key => ?_, ?_, ?_⟩
    · simp only [mergeElem, if_neg some_view, this, merges]
    · rw [found, met]
      split
      · rfl
      · exact others key ‹_›
    · rw [heap, met]
    · rw [passed, met]

end Loop

section Own
variable {V : Type*} {reduceFn : Word → V → V → V} {kind : MergeKind} {mergeToLeftmost : Bool} {other : Elem}
  {own : Word → Word}

/-- The views of an element belong to its reducer, and so does the leftmost view, which is at the key. -/
def Elem.Owned (own : Word → Word) (e : Elem) : Prop := own e.view = e.key ∧ own e.key = e.key

instance (own : Word → Word) (e : Elem) : Decidable (e.Owned own) := inferInstanceAs (Decidable (_ ∧ _))

theorem meets_owned {found : Option Elem} (mine : other.Owned own) (same : ∀ e ∈ found, e.Owned own ∧ e.key = other.key) :
    ∀ e ∈ meets mergeToLeftmost found other, e.Owned own ∧ e.key = other.key := by
  intro e mem
  cases found with
  | some el => exact same e mem
  | none =>
    by_cases make : mergeToLeftmost = true ∧ other.key ≠ other.view
    · simp only [meets, if_pos make] at mem
      cases mem
      exact ⟨⟨mine.2, mine.2⟩, rfl⟩
    · simp only [meets, if_neg make] at mem
      cases mem

theorem mergedElem_owned (kind : MergeKind) {this : Option Elem} (mine : other.Owned own)
    (same : ∀ e ∈ this, e.Owned own ∧ e.key = other.key) :
    (mergedElem kind this other).Owned own := by
  cases this with
  | none => exact mine
  | some el =>
    obtain ⟨owned, key⟩ := same el rfl
    simp only [mergedElem]
    split
    · exact ⟨mine.1.trans key.symm, owned.2⟩
    · exact owned

variable {this : Option Elem} {heap heap' : Word → V} {a : Word}

/-- Views of other reducers stay. -/
theorem mergedHeap_frame (mine : other.Owned own) (same : ∀ e ∈ this, e.Owned own ∧ e.key = other.key)
    (away : own a ≠ other.key) :
    mergedHeap reduceFn kind this other heap a = heap a := by
  cases this with
  | none => rfl
  | some el =>
    obtain ⟨owned, key⟩ := same el rfl
    have left : a ≠ el.view := by
      rintro rfl
      exact away (owned.1.trans key)
    have right : a ≠ other.view := by
      rintro rfl
      exact away mine.1
    simp only [mergedHeap]
    split
    · exact Function.update_of_ne right ..
    · exact Function.update_of_ne left ..

/-- A merge of two views reads no others. -/
theorem mergedHeap_congr (mine : other.Owned own) (same : ∀ e ∈ this, e.Owned own ∧ e.key = other.key)
    (agree : ∀ b, own b = other.key → heap' b = heap b) (here : own a = other.key) :
    mergedHeap reduceFn kind this other heap' a = mergedHeap reduceFn kind this other heap a := by
  cases this with
  | none => exact agree a here
  | some el =>
    obtain ⟨owned, key⟩ := same el rfl
    have left := agree el.view (owned.1.trans key)
    have right := agree other.view mine.1
    unfold mergedHeap reduce
    split <;> simp only [Function.update_apply, left, right, agree a here]

/-- The whole loop, key by key. -/
theorem merge_loop (reduceFn : Word → V → V → V) (mergeToLeftmost : Bool) (elems : List Elem) (s : Merging V)
    (ordered : kind ≠ .unordered) (wf : s.map.WellFormed)
    (used : ∀ e ∈ elems, e.key ≠ 0 ∧ e.view ≠ 0) (distinct : (elems.map Elem.key).Nodup)
    (owned : ∀ e ∈ elems, e.Owned own) (map_owned : ∀ key, ∀ e ∈ s.map.find key, e.Owned own) :
    ∃ s', elems.foldlM (mergeElem reduceFn kind mergeToLeftmost) s = some s' ∧ s'.map.WellFormed ∧
      (∀ key, s'.map.find key = match entry Elem.key key elems with
        | none => s.map.find key
        | some e => some (mergedElem kind (meets mergeToLeftmost (s.map.find e.key) e) e)) ∧
      (∀ a, s'.heap a = match entry Elem.key (own a) elems with
        | none => s.heap a
        | some e => mergedHeap reduceFn kind (meets mergeToLeftmost (s.map.find e.key) e) e s.heap a) ∧
      s'.passed = s.passed ++ elems.map fun e => passedElem kind (meets mergeToLeftmost (s.map.find e.key) e) e := by
  induction elems generalizing s with
  | nil => exact ⟨s, rfl, wf, fun _ => rfl, fun _ => rfl, (List.append_nil _).symm⟩
  | cons e elems ih =>
    obtain ⟨some_key, some_view⟩ := used e (List.mem_cons_self ..)
    obtain ⟨fresh, distinct⟩ := List.nodup_cons.mp distinct
    have mine := owned e (List.mem_cons_self ..)
    have this : ∀ el ∈ meets mergeToLeftmost (s.map.find e.key) e, el.Owned own ∧ el.key = e.key :=
      meets_owned mine fun el found => ⟨map_owned e.key el found, (CilkredMap.mem_of_find found).2⟩
    obtain ⟨s₁, first, next⟩ := mergeElem_spec reduceFn mergeToLeftmost ordered wf
      some_key some_view
    have later : ∀ key, key ≠ e.key → s₁.map.find key = s.map.find key := fun key away => by
      rw [next.find, if_neg away]
    have others : ∀ e' ∈ elems, e'.key ≠ e.key := fun e' mem same => fresh (same ▸ List.mem_map_of_mem mem)
    obtain ⟨s', loop, wf', find, heap, passed⟩ := ih s₁ next.wf (fun e mem => used e (.tail _ mem)) distinct
      (fun e mem => owned e (.tail _ mem)) (by
        intro key e' found
        rw [next.find] at found
        split at found
        · cases found
          exact mergedElem_owned kind mine this
        · exact map_owned key e' found)
    refine ⟨s', ?_, wf', fun key => ?_, fun a => ?_, ?_⟩
    · rw [List.foldlM_cons, first]
      exact loop
    · rw [find, entry_cons]
      by_cases here : e.key = key
      · subst here
        have absent : entry Elem.key e.key elems = none := entry_eq_none.mpr others
        simp only [absent, next.find, if_true]
      · rw [if_neg here]
        cases found : entry Elem.key key elems with
        | none => exact later key (Ne.symm here)
        | some e' =>
          have away : e'.key ≠ e.key := others e' (mem_of_entry found).1
          simp only [later e'.key away]
    · rw [heap, entry_cons]
      by_cases here : e.key = own a
      · have absent : entry Elem.key (own a) elems = none := by
          rw [← here]
          exact entry_eq_none.mpr others
        simp only [absent, if_pos here, next.heap]
      · rw [if_neg here]
        have stays : ∀ b, own b ≠ e.key → s₁.heap b = s.heap b := fun b away => by
          rw [next.heap]
          exact mergedHeap_frame mine this away
        cases found : entry Elem.key (own a) elems with
        | none => exact stays a (Ne.symm here)
        | some e' =>
          obtain ⟨mem, key⟩ := mem_of_entry found
          have away : e'.key ≠ e.key := others e' mem
          have mine' := owned e' (.tail _ mem)
          simp only [later e'.key away]
          apply mergedHeap_congr mine'
          · exact meets_owned mine' fun el found => ⟨map_owned e'.key el found, (CilkredMap.mem_of_find found).2⟩
          · exact fun b same => stays b (same ▸ away)
          · exact key.symm
    · rw [passed, next.passed, List.append_assoc, List.map_cons]
      have same : elems.map (fun e => passedElem kind (meets mergeToLeftmost (s₁.map.find e.key) e) e) =
          elems.map fun e => passedElem kind (meets mergeToLeftmost (s.map.find e.key) e) e :=
        List.map_congr_left fun e' mem => by rw [later e'.key (others e' mem)]
      rw [same]
      rfl

end Own

/-! ## Two maps -/

/-- Every view belongs to one reducer and to one strand, and every reducer to one hyperobject. -/
structure Apart (own base : Word → Word) (this other : CilkredMap) : Prop where
  owned : ∀ e ∈ this.elems ++ other.elems, e.Owned own ∧ e.hb = base e.key
  apart : ∀ e ∈ this.elems, ∀ e' ∈ other.elems, e.key = e'.key → e.view ≠ e'.view

theorem Apart.symm {own base : Word → Word} {this other : CilkredMap} (apart : Apart own base this other) :
    Apart own base other this :=
  ⟨fun e mem => apart.owned e (by simpa [or_comm] using mem), fun e mem e' mem' same =>
    (apart.apart e' mem' e mem same.symm).symm⟩

section Maps
variable {V : Type*} {reduceFn : Word → V → V → V} {kind : MergeKind} {this other : CilkredMap} {own base : Word → Word}
  {heap : Word → V}

/-- What an element of the other map meets in this one. -/
def CilkredMap.meets (this : CilkredMap) (e : Elem) : Option Elem := Reducers.meets this.isLeftmost (this.find e.key) e

theorem CilkredMap.meets_owned (apart : Apart own base this other) {e : Elem} (mem : e ∈ other.elems) :
    ∀ el ∈ this.meets e, el.Owned own ∧ el.key = e.key := by
  apply Reducers.meets_owned (apart.owned e (List.mem_append_right _ mem)).1
  intro el found
  obtain ⟨mem, key⟩ := mem_of_find found
  exact ⟨(apart.owned el (List.mem_append_left _ mem)).1, key⟩

theorem merge_spec (reduceFn : Word → V → V → V) (heap : Word → V) (ordered : kind ≠ .unordered)
    (quiet : Quiet (some this)) (quiet' : Quiet (some other))
    (apart : Apart own base this other) (inner : other.isLeftmost = false) :
    ∃ m heap', merge reduceFn kind this other heap =
        some (m, heap', destroyReducerMap (other.elems.map fun e => passedElem kind (this.meets e) e)) ∧
      Quiet (some m) ∧ m.isLeftmost = this.isLeftmost ∧
      (∀ key, m.find key = match other.find key with
        | none => this.find key
        | some e => some (mergedElem kind (this.meets e) e)) ∧
      ∀ a, heap' a = match other.find (own a) with
        | none => heap a
        | some e => mergedHeap reduceFn kind (this.meets e) e heap a := by
  obtain ⟨wf, -⟩ := quiet this rfl
  obtain ⟨wf', -⟩ := quiet' other rfl
  have busy : CilkredMap.WellFormed { this with merging := true } :=
    ⟨⟨wf.table.buckets, wf.table.power, wf.table.holds, wf.table.placed, wf.table.distinct, wf.table.nelem, wf.table.views⟩,
      wf.load⟩
  obtain ⟨s, loop, wf'', find, heap', passed⟩ := merge_loop reduceFn this.isLeftmost other.elems
    ⟨{ this with merging := true }, heap, []⟩ ordered busy
    (fun e mem => ⟨wf'.table.used mem, wf'.table.views e mem⟩) wf'.table.distinct
    (fun e mem => (apart.owned e (List.mem_append_right _ mem)).1)
    (fun key e found => (apart.owned e (List.mem_append_left _ (CilkredMap.mem_of_find found).1)).1)
  refine ⟨{ s.map with isLeftmost := this.isLeftmost || other.isLeftmost, merging := false }, s.heap, ?_, ?_, ?_, find, heap'⟩
  · have passed : s.passed = other.elems.map fun e => passedElem kind (this.meets e) e := passed
    simp only [merge, inner, Bool.false_eq_true, if_false, Option.bind_eq_bind, loop, Option.bind_some, passed, Bool.or_false]
  · rintro _ ⟨⟩
    exact ⟨⟨⟨wf''.table.buckets, wf''.table.power, wf''.table.holds, wf''.table.placed, wf''.table.distinct,
      wf''.table.nelem, wf''.table.views⟩, wf''.load⟩, rfl⟩
  · simp [inner]

theorem mergedHeap_view (this : Option Elem) (e : Elem) :
    mergedHeap reduceFn kind this e heap (mergedElem kind this e).view =
      match this with
      | none => heap e.view
      | some el =>
        if kind = .intoRight then reduceFn e.hb (heap e.view) (heap el.view)
        else reduceFn e.hb (heap el.view) (heap e.view) := by
  cases this with
  | none => rfl
  | some el =>
    simp only [mergedHeap, mergedElem, reduce]
    split <;> exact Function.update_self ..

/-- The value of a view that may be missing. -/
def valueOf (heap : Word → V) (e : Option Elem) : Option V := e.map fun e => heap e.view

theorem merge_value (apart : Apart own base this other) {m : CilkredMap} {heap' : Word → V}
    (find : ∀ key, m.find key = match other.find key with
      | none => this.find key
      | some e => some (mergedElem kind (this.meets e) e))
    (heaps : ∀ a, heap' a = match other.find (own a) with
      | none => heap a
      | some e => mergedHeap reduceFn kind (this.meets e) e heap a) (key : Word) :
    valueOf heap' (m.find key) = match other.find key with
      | none => valueOf heap (this.find key)
      | some e => match this.meets e with
        | none => some (heap e.view)
        | some el => some (if kind = .intoRight then reduceFn (base key) (heap e.view) (heap el.view)
          else reduceFn (base key) (heap el.view) (heap e.view)) := by
  rw [find]
  cases found : other.find key with
  | none =>
    cases mine : this.find key with
    | none => rfl
    | some el =>
      obtain ⟨mem, same⟩ := CilkredMap.mem_of_find mine
      have owner : own el.view = key := ((apart.owned el (List.mem_append_left _ mem)).1.1).trans same
      simp only [valueOf, Option.map_some, heaps, owner, found]
  | some e =>
    obtain ⟨mem, rfl⟩ := CilkredMap.mem_of_find found
    obtain ⟨owned, hyperobject⟩ := apart.owned e (List.mem_append_right _ mem)
    have owner : own (mergedElem kind (this.meets e) e).view = e.key := by
      have merged := mergedElem_owned kind owned (CilkredMap.meets_owned apart mem)
      rw [merged.1]
      cases met : this.meets e with
      | none => rfl
      | some el =>
        have same := (CilkredMap.meets_owned apart mem el met).2
        simp only [mergedElem]
        split <;> exact same
    simp only [valueOf, Option.map_some, heaps, owner, found, mergedHeap_view, hyperobject]
    cases this.meets e <;> rfl

@[simp] theorem passedElem_key (this : Option Elem) (e : Elem) : (passedElem kind this e).key = e.key := by
  cases this with
  | none => rfl
  | some el =>
    simp only [passedElem]
    split <;> rfl

theorem passedElem_owned (apart : Apart own base this other) {e : Elem} (mem : e ∈ other.elems)
    (left : (passedElem kind (this.meets e) e).view ≠ 0) : own (passedElem kind (this.meets e) e).view = e.key := by
  have owned := (apart.owned e (List.mem_append_right _ mem)).1
  cases met : this.meets e with
  | none =>
    rw [met] at left
    exact absurd rfl left
  | some el =>
    obtain ⟨owned', same⟩ := CilkredMap.meets_owned apart mem el met
    simp only [passedElem]
    split
    · exact owned'.1.trans same
    · exact owned.1

theorem mem_destroyReducerMap {elems : List Elem} {a : Word} :
    a ∈ destroyReducerMap elems ↔ ∃ e ∈ elems, e.view = a ∧ a ≠ 0 ∧ e.key ≠ a := by
  simp only [destroyReducerMap, List.mem_map, List.mem_filter, Elem.isLeftmost]
  constructor
  · rintro ⟨e, ⟨mem, left⟩, rfl⟩
    exact ⟨e, mem, rfl, by simpa using left⟩
  · rintro ⟨e, mem, rfl, left⟩
    exact ⟨e, ⟨mem, by simpa using left⟩, rfl⟩

/-- No view is destroyed twice. -/
theorem destroyed_once (kind : MergeKind) (apart : Apart own base this other) (table : other.Table) :
    (destroyReducerMap (other.elems.map fun e => passedElem kind (this.meets e) e)).Nodup := by
  apply List.Nodup.of_map own
  have owners : (destroyReducerMap (other.elems.map fun e => passedElem kind (this.meets e) e)).map own =
      ((other.elems.map fun e => passedElem kind (this.meets e) e).filter
        fun el => el.view ≠ 0 ∧ el.isLeftmost = false).map Elem.key := by
    rw [destroyReducerMap, List.map_map]
    apply List.map_congr_left
    intro el mem
    obtain ⟨passed, left⟩ := List.mem_filter.mp mem
    obtain ⟨e, inside, rfl⟩ := List.mem_map.mp passed
    rw [passedElem_key]
    exact passedElem_owned apart inside (of_decide_eq_true left).1
  rw [owners]
  apply List.Nodup.sublist (List.filter_sublist.map Elem.key)
  simpa [List.map_map, Function.comp_def] using table.distinct

theorem CilkredMap.meets_cases {e el : Elem} (met : this.meets e = some el) :
    this.find e.key = some el ∨ el.view = e.key ∧ e.key ≠ e.view := by
  unfold CilkredMap.meets Reducers.meets at met
  split at met
  · cases met
    exact .inl ‹_›
  · split at met
    · cases met
      exact .inr ⟨rfl, (‹_ ∧ _› : _ ∧ _).2⟩
    · cases met

/-- The two views that a merge reads are different ones. -/
theorem CilkredMap.meets_apart (apart : Apart own base this other) {e el : Elem} (mem : e ∈ other.elems)
    (met : this.meets e = some el) : el.view ≠ e.view := by
  rcases meets_cases met with found | ⟨leftmost, new⟩
  · obtain ⟨mem', same⟩ := mem_of_find found
    exact apart.apart el mem' e mem same
  · exact leftmost ▸ new

section Destroyed
variable {m : CilkredMap} (apart : Apart own base this other) (wf : this.WellFormed) (wf' : other.WellFormed)
  (merged : m.WellFormed) (find : ∀ key, m.find key = match other.find key with
    | none => this.find key
    | some e => some (mergedElem kind (this.meets e) e))
include apart find

theorem merged_owned {key : Word} {e : Elem} (found : m.find key = some e) : own e.view = e.key := by
  rw [find] at found
  split at found
  · exact (apart.owned e (List.mem_append_left _ (CilkredMap.mem_of_find found).1)).1.1
  · cases found
    obtain ⟨mem, -⟩ := CilkredMap.mem_of_find ‹other.find key = some _›
    exact (mergedElem_owned kind (apart.owned _ (List.mem_append_right _ mem)).1 (CilkredMap.meets_owned apart mem)).1

include wf wf' merged

/-- The destroyed views are those that have gone, but never a leftmost one. -/
theorem mem_destroyed (a : Word) :
    a ∈ destroyReducerMap (other.elems.map fun e => passedElem kind (this.meets e) e) ↔
      (∃ e ∈ this.elems ++ other.elems, e.view = a ∧ e.key ≠ a) ∧ ∀ e ∈ m.elems, e.view ≠ a := by
  have here {e : Elem} {key : Word} (found : m.find key = some e) : e ∈ m.elems := (CilkredMap.mem_of_find found).1
  have in_other {e : Elem} (mem : e ∈ other.elems) : other.find e.key = some e :=
    (entry_eq_some wf'.table.distinct).mpr ⟨mem, rfl⟩
  rw [mem_destroyReducerMap]
  constructor
  · rintro ⟨_, passed, rfl, some_view, inner⟩
    obtain ⟨e, mem, rfl⟩ := List.mem_map.mp passed
    rw [passedElem_key] at inner
    have owner := passedElem_owned apart mem some_view
    constructor
    · cases met : this.meets e with
      | none =>
        rw [met] at some_view
        exact absurd rfl some_view
      | some el =>
        by_cases right : kind = .intoRight
        · simp only [met, passedElem, if_pos right] at inner ⊢
          rcases CilkredMap.meets_cases met with found | ⟨leftmost, -⟩
          · obtain ⟨mem', same⟩ := CilkredMap.mem_of_find found
            exact ⟨el, List.mem_append_left _ mem', rfl, same ▸ inner⟩
          · exact absurd leftmost.symm inner
        · simp only [met, passedElem, if_neg right] at inner ⊢
          exact ⟨e, List.mem_append_right _ mem, rfl, inner⟩
    · intro r mem_r same
      have found : m.find r.key = some r := (entry_eq_some merged.table.distinct).mpr ⟨mem_r, rfl⟩
      have key : r.key = e.key := by rw [← merged_owned apart find found, same, owner]
      rw [find, key, in_other mem] at found
      cases found
      cases met : this.meets e with
      | none =>
        rw [met] at some_view
        exact absurd rfl some_view
      | some el =>
        have distinct := CilkredMap.meets_apart apart mem met
        simp only [met, mergedElem, passedElem] at same
        split at same
        · exact distinct same.symm
        · exact distinct same
  · rintro ⟨⟨e, mem, rfl, inner⟩, gone⟩
    rcases List.mem_append.mp mem with mine | mine
    · have found : this.find e.key = some e := (entry_eq_some wf.table.distinct).mpr ⟨mine, rfl⟩
      cases meets : other.find e.key with
      | none => exact absurd rfl (gone e (here ((find e.key).trans (by rw [meets, found]))))
      | some e' =>
        obtain ⟨mem', same⟩ := CilkredMap.mem_of_find meets
        have met : this.meets e' = some e := by simp only [CilkredMap.meets, same, found, Reducers.meets]
        refine ⟨_, List.mem_map_of_mem mem', ?_, wf.table.views e mine, ?_⟩
        · by_cases right : kind = .intoRight
          · simp only [met, passedElem, if_pos right]
          · have kept : m.find e.key = some e := by
              rw [find, meets]
              simp only [met, mergedElem, if_neg right]
            exact absurd rfl (gone e (here kept))
        · rwa [passedElem_key, same]
    · refine ⟨_, List.mem_map_of_mem mine, ?_, wf'.table.views e mine, ?_⟩
      · have kept : m.find e.key = some (mergedElem kind (this.meets e) e) := by rw [find, in_other mine]
        cases met : this.meets e with
        | none =>
          rw [met] at kept
          exact absurd rfl (gone e (here kept))
        | some el =>
          rw [met] at kept
          by_cases right : kind = .intoRight
          · simp only [mergedElem, if_pos right] at kept
            have lost := gone _ (here kept)
            exact absurd rfl lost
          · simp only [passedElem, if_neg right]
      · rwa [passedElem_key]

end Destroyed

theorem CilkredMap.meets_of_inner (inner : this.isLeftmost = false) (e : Elem) : this.meets e = this.find e.key := by
  unfold CilkredMap.meets Reducers.meets
  cases this.find e.key with
  | some el => rfl
  | none => simp [inner]

/-- The value that the left map has for a reducer: that of its view, or in a leftmost map that of the leftmost view,
which it has yet to find, unless the right map has brought that view. -/
def leftValue (left right : CilkredMap) (heap : Word → V) (key : Word) : Option V :=
  match right.find key with
  | none => valueOf heap (left.find key)
  | some e => valueOf heap (left.meets e)

/-- `merge_reducer_maps` keeps for every reducer the left value times the right one, whichever map goes. It destroys
each view that it drops once, no leftmost view and none that it keeps, and touches no other reducer. -/
theorem mergeMaps_spec (reduceFn : Word → V → V → V) (heap : Word → V) {left right : CilkredMap}
    (quiet : Quiet (some left)) (quiet' : Quiet (some right))
    (apart : Apart own base left right) (inner : right.isLeftmost = false) :
    ∃ m heap' destroyed, mergeMaps reduceFn (some left) (some right) heap = some (some m, heap', destroyed) ∧
      Quiet (some m) ∧ m.isLeftmost = left.isLeftmost ∧
      (∀ key, valueOf heap' (m.find key) =
        @mergeReducerMaps V ⟨reduceFn (base key)⟩ (leftValue left right heap key) (valueOf heap (right.find key))) ∧
      (∀ a, left.find (own a) = none → right.find (own a) = none → heap' a = heap a) ∧
      destroyed.Nodup ∧
      ∀ a, a ∈ destroyed ↔ (∃ e ∈ left.elems ++ right.elems, e.view = a ∧ e.key ≠ a) ∧ ∀ e ∈ m.elems, e.view ≠ a := by
  obtain ⟨wf, -⟩ := quiet left rfl
  obtain ⟨wf', -⟩ := quiet' right rfl
  by_cases into_left : left.isLeftmost = true ∨ left.nelem > right.nelem
  · obtain ⟨m, heap', merges, merged, leftmost, find, heaps⟩ :=
      merge_spec reduceFn heap (show MergeKind.intoLeft ≠ .unordered by decide) quiet quiet' apart inner
    refine ⟨m, heap', _, ?_, merged, leftmost, fun key => ?_, fun a _ gone => ?_,
      destroyed_once .intoLeft apart wf'.table, mem_destroyed apart wf wf' (merged m rfl).1 find⟩
    · simp only [mergeMaps, if_pos into_left, merges, Option.map_some]
    · rw [merge_value apart find heaps, leftValue]
      cases right.find key with
      | none => cases valueOf heap (left.find key) <;> rfl
      | some e =>
        dsimp only
        cases left.meets e <;> rfl
    · rw [heaps, gone]
  · obtain ⟨outer, -⟩ := not_or.mp into_left
    have outer : left.isLeftmost = false := by simpa using outer
    obtain ⟨m, heap', merges, merged, leftmost, find, heaps⟩ :=
      merge_spec reduceFn heap (show MergeKind.intoRight ≠ .unordered by decide) quiet' quiet apart.symm outer
    refine ⟨m, heap', _, ?_, merged, leftmost.trans (inner.trans outer.symm), fun key => ?_, fun a gone _ => ?_,
      destroyed_once .intoRight apart.symm wf.table, fun a => ?_⟩
    · simp only [mergeMaps, if_neg into_left, merges, Option.map_some]
    · rw [merge_value apart.symm find heaps, leftValue]
      have known {e : Elem} (found : right.find key = some e) : left.meets e = left.find key := by
        rw [CilkredMap.meets_of_inner outer, (CilkredMap.mem_of_find found).2]
      have known' {e : Elem} (found : left.find key = some e) : right.meets e = right.find key := by
        rw [CilkredMap.meets_of_inner inner, (CilkredMap.mem_of_find found).2]
      cases mine : left.find key with
      | none =>
        cases other : right.find key with
        | none => rfl
        | some e =>
          simp only [known other, mine]
          rfl
      | some e =>
        simp only [known' mine]
        cases other : right.find key with
        | none => rfl
        | some e' =>
          simp only [known other, mine]
          rfl
    · rw [heaps, gone]
    · rw [mem_destroyed apart.symm wf' wf (merged m rfl).1 find]
      simp only [List.mem_append, or_comm]

end Maps

/-- A strand with one view, and the strand to its right with two. -/
def sampleLeft : List Use := [.lookup ⟨64, 0⟩ 8]

def sampleRight : List Use := [.lookup ⟨64, 0⟩ 16, .lookup ⟨128, 0⟩ 24]

def sampleOwn (a : Word) : Word := if a = 24 ∨ a = 128 then 128 else 64

theorem mergeMaps_spec_sample : ∃ left right m heap' destroyed, runUses none sampleLeft = some (some left, [some 8]) ∧
    runUses none sampleRight = some (some right, [some 16, some 24]) ∧
    mergeMaps (fun _ l r => 10 * l + r) (some left) (some right) (BitVec.toNat : Word → ℕ) =
      some (some m, heap', destroyed) ∧ valueOf heap' (m.find 64) = some 96 ∧ valueOf heap' (m.find 128) = some 24 := by
  have quiet : Quiet none := fun m mem => by cases mem
  obtain ⟨left, made, inner, left_elems⟩ : ∃ left, runUses none sampleLeft = some (some left, [some 8]) ∧
      left.isLeftmost = false ∧ left.elems = [⟨64, 64, 8⟩] := ⟨_, rfl, rfl, rfl⟩
  obtain ⟨right, made', inner', right_elems⟩ : ∃ right, runUses none sampleRight = some (some right, [some 16, some 24]) ∧
      right.isLeftmost = false ∧ right.elems = [⟨64, 64, 16⟩, ⟨128, 128, 24⟩] := ⟨_, rfl, rfl, rfl⟩
  have left_quiet : Quiet (some left) :=
    (uses_refine quiet sampleLeft (by simp [sampleLeft, Use.Valid, Hyperobject.key])).2 _ made
  have right_quiet : Quiet (some right) :=
    (uses_refine quiet sampleRight (by simp [sampleRight, Use.Valid, Hyperobject.key])).2 _ made'
  have apart : Apart sampleOwn id left right := by
    constructor
    · rw [left_elems, right_elems]
      decide
    · rw [left_elems, right_elems]
      decide
  have find_left (key : Word) : left.find key = entry Elem.key key [⟨64, 64, 8⟩] := left_elems ▸ rfl
  have find_right (key : Word) : right.find key = entry Elem.key key [⟨64, 64, 16⟩, ⟨128, 128, 24⟩] := right_elems ▸ rfl
  obtain ⟨m, heap', destroyed, merges, -, -, values, -⟩ :=
    mergeMaps_spec (fun _ l r => 10 * l + r) BitVec.toNat left_quiet right_quiet apart inner'
  refine ⟨left, right, m, heap', destroyed, made, made', merges, ?_, ?_⟩
  · rw [values, leftValue, find_right]
    simp only [CilkredMap.meets, find_left, inner]
    rfl
  · rw [values, leftValue, find_right]
    simp only [CilkredMap.meets, find_left, inner]
    rfl

end CilkArtifact.Runtime.Reducers
