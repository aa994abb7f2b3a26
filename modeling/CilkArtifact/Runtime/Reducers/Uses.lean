import CilkArtifact.Runtime.Reducers.Table

/-! A strand's uses of its reducer map: the hash table acts as a partial function from keys to views. -/
namespace CilkArtifact.Runtime.Reducers
open DotMix Buckets

/-- What a strand may do with a reducer. -/
inductive Use where
  | create (h : Hyperobject)
  | destroy (h : Hyperobject)
  /-- With the memory for a new view. -/
  | lookup (h : Hyperobject) (rep : Word)

namespace Use

/-- No object and no view is at address 0. -/
def Valid : Use → Prop
  | create h | destroy h => h.key ≠ 0
  | lookup h rep => h.key ≠ 0 ∧ rep ≠ 0

/-- The worker's reducer map afterwards, and the view that a lookup returns. -/
def apply (map : Option CilkredMap) : Use → Option (Option CilkredMap × Option Word)
  | create h => (hyperCreate map h).map fun m => (some m, none)
  | destroy h => (hyperDestroy map h).map fun m => (some m, none)
  | lookup h rep => (hyperLookup map h rep).map fun r => (some r.1, some r.2)

/-- The same on the views of the strand. -/
def expect (leftmost : Bool) (views : Word → Option Word) : Use → Option ((Word → Option Word) × Option Word)
  | create h => if views h.key = none then some (Function.update views h.key (some h.key), none) else none
  | destroy h => if views h.key = some h.key then some (Function.update views h.key none, none) else none
  | lookup h rep =>
    match views h.key with
    | some view => some (views, some view)
    | none =>
      let view := if leftmost then h.key else rep
      some (Function.update views h.key (some view), some view)

end Use

/-- The reducer map of a worker that is not merging. -/
def Quiet (map : Option CilkredMap) : Prop := ∀ m ∈ map, m.WellFormed ∧ m.merging = false

def mapped (map : Option CilkredMap) (key : Word) : Option Word := map.bind fun m => (m.find key).map (·.view)

def leftmost (map : Option CilkredMap) : Bool := map.elim false (·.isLeftmost)

namespace CilkredMap
variable {m m' : CilkredMap} {e : Elem} {key : Word}

theorem find_insert (perm : m'.elems.Perm (e :: m.elems)) (table : m'.Table) (key : Word) :
    m'.find key = if key = e.key then some e else m.find key := by
  rw [find, entry_perm table.distinct perm, entry_cons]
  simp only [find, eq_comm]

theorem find_remove (table : m.Table) (perm : m.elems.Perm (e :: m'.elems)) (key : Word) :
    m'.find key = if key = e.key then none else m.find key := by
  have distinct := (perm.map Elem.key).nodup_iff.mp table.distinct
  split
  · subst key
    apply entry_eq_none.mpr
    intro e' mem same
    exact (List.nodup_cons.mp distinct).1 (same ▸ List.mem_map_of_mem mem)
  · rw [find, find, entry_perm table.distinct perm, entry_cons, if_neg (Ne.symm ‹_›)]

end CilkredMap

theorem makeReducerMap_eq : makeReducerMap = some (CilkredMap.emptied ⟨0, 0, [], false, false⟩ 1) :=
  CilkredMap.makeBuckets_eq 0

/-- The map that a use starts with, which a worker without one makes. -/
theorem exists_map {map : Option CilkredMap} (quiet : Quiet map) : ∃ m, map.elim makeReducerMap some = some m ∧
    Quiet (some m) ∧ mapped (some m) = mapped map ∧ m.isLeftmost = leftmost map := by
  cases map with
  | some m => exact ⟨m, rfl, quiet, rfl, rfl⟩
  | none =>
    have elems := CilkredMap.emptied_elems (m := ⟨0, 0, [], false, false⟩) 1
    refine ⟨_, makeReducerMap_eq, ?_, ?_, rfl⟩
    · rintro _ ⟨⟩
      exact ⟨⟨CilkredMap.emptied_table 0, Nat.zero_le _⟩, rfl⟩
    · funext key
      simp [mapped, CilkredMap.find, elems]

/-- A new element of a map. -/
theorem insert_spec {m : CilkredMap} (quiet : Quiet (some m)) {e : Elem} (used : e.key ≠ 0) (some_view : e.view ≠ 0)
    (absent : mapped (some m) e.key = none) : ∃ m' p, m.rehashAndInsert e.key e.hb e.view = some (m', p) ∧
      Quiet (some m') ∧ mapped (some m') = Function.update (mapped (some m)) e.key (some e.view) ∧
      m'.isLeftmost = m.isLeftmost ∧ m'.get p = e := by
  obtain ⟨wf, idle⟩ := quiet m rfl
  have fresh : m.find e.key = none := Option.map_eq_none_iff.mp absent
  obtain ⟨m', p, inserts, wf', keeps, perm, here⟩ := CilkredMap.rehashAndInsert_spec wf used some_view fresh
  refine ⟨m', p, inserts, ?_, ?_, keeps.2, here.get_eq wf'.table⟩
  · rintro _ ⟨⟩
    exact ⟨wf', keeps.1.trans idle⟩
  · funext key
    have found := CilkredMap.find_insert perm wf'.table key
    by_cases same : key = e.key
    · subst same
      simp only [mapped, Option.bind_some, found, if_true, Option.map_some, Function.update_self]
    · simp [mapped, found, same]

variable {map : Option CilkredMap}

/-- What a use does on the table is what it does on the partial function. -/
def Use.Refines (map : Option CilkredMap) (use : Use) : Prop :=
  (use.apply map).map (fun r => (mapped r.1, r.2)) = use.expect (leftmost map) (mapped map) ∧
    ∀ r ∈ use.apply map, Quiet r.1 ∧ leftmost r.1 = leftmost map

theorem Use.refines_of_some {use : Use} (m : CilkredMap) (view : Option Word) (applied : use.apply map = some (some m, view))
    (quiet : Quiet (some m)) (left : m.isLeftmost = leftmost map)
    (expected : use.expect (leftmost map) (mapped map) = some (mapped (some m), view)) : use.Refines map := by
  constructor
  · rw [applied, expected]
    rfl
  · rw [applied]
    rintro _ ⟨⟩
    exact ⟨quiet, left⟩

theorem Use.refines_of_none {use : Use} (applied : use.apply map = none)
    (expected : use.expect (leftmost map) (mapped map) = none) : use.Refines map := by
  constructor
  · rw [applied, expected]
    rfl
  · rw [applied]
    rintro _ ⟨⟩

theorem create_refines (quiet : Quiet map) {h : Hyperobject} (valid : h.key ≠ 0) : (Use.create h).Refines map := by
  obtain ⟨m, made, quiet', same, left⟩ := exists_map quiet
  obtain ⟨wf, idle⟩ := quiet' m rfl
  cases found : m.find h.key with
  | some e =>
    obtain ⟨p, looked, -⟩ := CilkredMap.lookup_some wf.table found
    have present : mapped map h.key = some e.view := by
      rw [← same]
      simp [mapped, found]
    apply Use.refines_of_none
    · simp [Use.apply, hyperCreate, made, looked]
    · simp [Use.expect, present]
  | none =>
    have absent : mapped (some m) h.key = none := by simp [mapped, found]
    obtain ⟨m', p, inserts, quiet'', mapped', left', -⟩ := insert_spec quiet' (e := ⟨h.key, h.hb, h.key⟩) valid valid absent
    apply Use.refines_of_some m' none
    · simp [Use.apply, hyperCreate, made, CilkredMap.lookup_none wf.table found, idle, inserts]
    · exact quiet''
    · exact left'.trans left
    · rw [mapped', ← same]
      exact if_pos absent

theorem destroy_refines (quiet : Quiet map) {h : Hyperobject} : (Use.destroy h).Refines map := by
  cases map with
  | none => exact Use.refines_of_none rfl rfl
  | some m =>
    obtain ⟨wf, idle⟩ := quiet m rfl
    cases found : m.find h.key with
    | none =>
      apply Use.refines_of_none
      · simp [Use.apply, hyperDestroy, CilkredMap.lookup_none wf.table found]
      · simp [Use.expect, mapped, found]
    | some e =>
      obtain ⟨p, looked, here⟩ := CilkredMap.lookup_some wf.table found
      have mine : e.key = h.key := (CilkredMap.mem_of_find found).2
      have get := here.get_eq wf.table
      by_cases same : e.key = e.view
      · obtain ⟨table, perm⟩ := CilkredMap.remove_spec wf.table here
        have load := wf.load
        apply Use.refines_of_some (m.remove p) none
        · simp [Use.apply, hyperDestroy, looked, idle, get, Elem.isLeftmost, same]
        · rintro _ ⟨⟩
          exact ⟨⟨table, Nat.le_trans (Nat.sub_le ..) load⟩, idle⟩
        · rfl
        · have leftmost_view : e.view = h.key := same.symm.trans mine
          have present : mapped (some m) h.key = some h.key := by simp [mapped, found, leftmost_view]
          have removed : Function.update (mapped (some m)) h.key none = mapped (some (m.remove p)) := by
            funext key
            have left := CilkredMap.find_remove wf.table perm key
            rw [mine] at left
            by_cases other : key = h.key
            · subst other
              simp only [mapped, Option.bind_some, left, if_true, Option.map_none, Function.update_self]
            · simp [mapped, left, other]
          rw [Use.expect, if_pos present, removed]
      · apply Use.refines_of_none
        · simp [Use.apply, hyperDestroy, looked, idle, get, Elem.isLeftmost, same]
        · have other : e.view ≠ h.key := fun leftmost => same (mine.trans leftmost.symm)
          simp [Use.expect, mapped, found, other]

theorem lookup_refines (quiet : Quiet map) {h : Hyperobject} {rep : Word} (valid : h.key ≠ 0) (some_rep : rep ≠ 0) :
    (Use.lookup h rep).Refines map := by
  obtain ⟨m, made, quiet', same, left⟩ := exists_map quiet
  obtain ⟨wf, idle⟩ := quiet' m rfl
  cases found : m.find h.key with
  | some e =>
    obtain ⟨p, looked, here⟩ := CilkredMap.lookup_some wf.table found
    have present : mapped map h.key = some e.view := by
      rw [← same]
      simp [mapped, found]
    apply Use.refines_of_some m (some e.view)
    · simp [Use.apply, hyperLookup, made, looked, idle, here.get_eq wf.table]
    · exact quiet'
    · exact left
    · simp only [Use.expect, present, same]
  | none =>
    have absent : mapped (some m) h.key = none := by simp [mapped, found]
    have some_view : (if leftmost map then h.key else rep) ≠ 0 := by split <;> assumption
    obtain ⟨m', p, inserts, quiet'', mapped', left', get⟩ :=
      insert_spec quiet' (e := ⟨h.key, h.hb, if leftmost map then h.key else rep⟩) valid some_view absent
    apply Use.refines_of_some m' (some (if leftmost map then h.key else rep))
    · simp [Use.apply, hyperLookup, made, CilkredMap.lookup_none wf.table found, idle, left, inserts, get]
    · exact quiet''
    · exact left'.trans left
    · rw [same] at absent
      simp only [Use.expect, absent, mapped', same]

theorem refines (quiet : Quiet map) (use : Use) (valid : use.Valid) : use.Refines map := by
  cases use with
  | create h => exact create_refines quiet valid
  | destroy h => exact destroy_refines quiet
  | lookup h rep => exact lookup_refines quiet valid.1 valid.2

/-- A strand's uses one after the other, with what they return. -/
def runUses (map : Option CilkredMap) : List Use → Option (Option CilkredMap × List (Option Word))
  | [] => some (map, [])
  | use :: uses => do
    let (map, view) ← use.apply map
    let (map, views) ← runUses map uses
    some (map, view :: views)

def expectUses (leftmost : Bool) (views : Word → Option Word) : List Use → Option ((Word → Option Word) × List (Option Word))
  | [] => some (views, [])
  | use :: uses => do
    let (views, view) ← use.expect leftmost views
    let (views, returned) ← expectUses leftmost views uses
    some (views, view :: returned)

/-- The hash table of a strand is a partial function from reducers to views, whatever the strand does with them: it
returns the same views, stops in the same states and stays well formed. -/
theorem uses_refine (quiet : Quiet map) (uses : List Use) (valid : ∀ use ∈ uses, use.Valid) :
    (runUses map uses).map (fun r => (mapped r.1, r.2)) = expectUses (leftmost map) (mapped map) uses ∧
      ∀ r ∈ runUses map uses, Quiet r.1 := by
  induction uses generalizing map with
  | nil =>
    constructor
    · rfl
    · rintro _ ⟨⟩
      exact quiet
  | cons use uses ih =>
    obtain ⟨matches_expect, keeps⟩ := refines quiet use (valid use (List.mem_cons_self ..))
    cases applied : use.apply map with
    | none =>
      rw [applied] at matches_expect
      simp [runUses, expectUses, applied, ← matches_expect]
    | some r =>
      rw [applied] at matches_expect keeps
      obtain ⟨quiet', left⟩ := keeps r rfl
      obtain ⟨rest, safe⟩ := ih quiet' fun use mem => valid use (.tail _ mem)
      rw [left] at rest
      cases ran : runUses r.1 uses with
      | none =>
        rw [ran] at rest
        simp [runUses, expectUses, applied, ← matches_expect, ran, ← rest]
      | some r' =>
        rw [ran] at rest safe
        simp only [runUses, expectUses, applied, ← matches_expect, ran, ← rest, Option.map_some, Option.bind_eq_bind,
          Option.bind_some, true_and]
        rintro _ ⟨⟩
        exact safe r' rfl

/-- Two reducers whose keys are in one bucket of two, and one that the strand creates itself. -/
def sampleUses : List Use :=
  [.lookup ⟨64, 0⟩ 8, .lookup ⟨128, 0⟩ 16, .create ⟨32, 0⟩, .destroy ⟨32, 0⟩, .lookup ⟨64, 0⟩ 24]

theorem uses_refine_sample : Option.map Prod.snd (runUses none sampleUses) =
    some [some 8, some 16, none, none, some 8] ∧ ∀ r ∈ runUses none sampleUses, Quiet r.1 := by
  have quiet : Quiet none := fun m mem => by cases mem
  have valid : ∀ use ∈ sampleUses, use.Valid := by
    simp [sampleUses, Use.Valid, Hyperobject.key]
  obtain ⟨run, safe⟩ := uses_refine quiet sampleUses valid
  have views := congrArg (Option.map Prod.snd) run
  rw [Option.map_map] at views
  exact ⟨views.trans rfl, safe⟩

end CilkArtifact.Runtime.Reducers
