import CilkArtifact.Library.Buffer
import Mathlib

/-! Several arrays, with a record of all accesses to them: programs that fill cells of one array with values they compute
from the others. -/
namespace CilkArtifact
open Buffer

structure Access (ν ι : Type) where
  array : ν
  cell : ι
  write : Bool
  deriving DecidableEq

structure Recorded (ν ι V : Type) where
  grid : ν → Buffer ι V
  accesses : List (Access ν ι)

namespace Recorded
variable {ν ι V : Type} [DecidableEq ν] [DecidableEq ι]

def load (array : ν) (i : ι) (s : Recorded ν ι V) : Option (V × Recorded ν ι V) := do
  let v ← (s.grid array).read i
  some (v, { s with accesses := s.accesses ++ [⟨array, i, false⟩] })

def store (array : ν) (i : ι) (v : V) (s : Recorded ν ι V) : Option (Recorded ν ι V) := do
  let buffer ← (s.grid array).write i v
  some ⟨Function.update s.grid array buffer, s.accesses ++ [⟨array, i, true⟩]⟩

/-- Accesses that write the cells once each and read, of other arrays, what has a value. -/
structure Once (array : ν) (cells : Set ι) (s : Recorded ν ι V) (made : List (Access ν ι)) : Prop where
  reads : ∀ e ∈ made, e.write = false → e.array ≠ array ∧ ∃ v, (s.grid e.array).read e.cell = some v
  writes : ∀ e ∈ made, e.write = true → e.array = array ∧ e.cell ∈ cells
  once : ∀ c ∈ cells, made.count ⟨array, c, true⟩ = 1

/-- The cells of an array have received values, and nothing else has changed. -/
structure Fills (array : ν) (cells : Set ι) (v : ι → V) (s s' : Recorded ν ι V) : Prop where
  changes : Changes cells (s.grid array) (s'.grid array)
  filled : ∀ c ∈ cells, (s'.grid array).cell c = some (v c)
  others : ∀ other, other ≠ array → s'.grid other = s.grid other
  accesses : ∃ made, s'.accesses = s.accesses ++ made ∧ Once array cells s made

variable {array source : ν} {S T : Set ι} {v w : ι → V} {s s' s'' : Recorded ν ι V} {made made' : List (Access ν ι)}

theorem Once.empty (array : ν) (s : Recorded ν ι V) : Once array ∅ s [] :=
  ⟨fun _ member => (List.not_mem_nil member).elim, fun _ member => (List.not_mem_nil member).elim,
    fun _ member => member.elim⟩

theorem Once.count_eq_zero (once : Once array S s made) {c : ι} (outside : c ∉ S) :
    made.count ⟨array, c, true⟩ = 0 :=
  List.count_eq_zero.mpr fun member => outside (once.writes _ member rfl).2

/-- Accesses that follow each other and write different cells. -/
theorem Once.append (first : Once array S s made) (second : Once array T s' made')
    (others : ∀ other, other ≠ array → s'.grid other = s.grid other) (disjoint : Disjoint S T) :
    Once array (S ∪ T) s (made ++ made') := by
  constructor
  · intro e member reads
    rcases List.mem_append.mp member with before | after
    · exact first.reads e before reads
    · obtain ⟨other, v, found⟩ := second.reads e after reads
      exact ⟨other, v, by rw [← others _ other, found]⟩
  · intro e member writes
    rcases List.mem_append.mp member with before | after
    · exact ⟨(first.writes e before writes).1, .inl (first.writes e before writes).2⟩
    · exact ⟨(second.writes e after writes).1, .inr (second.writes e after writes).2⟩
  · rintro c (before | after)
    · rw [List.count_append, first.once c before, second.count_eq_zero (Set.disjoint_left.mp disjoint before)]
    · rw [List.count_append, second.once c after, first.count_eq_zero (Set.disjoint_right.mp disjoint after)]

theorem Fills.empty (array : ν) (v : ι → V) (s : Recorded ν ι V) : Fills array ∅ v s s :=
  ⟨.refl _ _, fun _ member => member.elim, fun _ _ => rfl, [], (List.append_nil _).symm, .empty array s⟩

theorem Fills.append (first : Fills array S v s s') (second : Fills array T v s' s'') (disjoint : Disjoint S T) :
    Fills array (S ∪ T) v s s'' := by
  obtain ⟨made, log, once⟩ := first.accesses
  obtain ⟨made', log', once'⟩ := second.accesses
  constructor
  · exact (first.changes.mono Set.subset_union_left).trans (second.changes.mono Set.subset_union_right)
  · rintro c (before | after)
    · rw [second.changes.frame c (Set.disjoint_left.mp disjoint before), first.filled c before]
    · exact second.filled c after
  · intro other different
    rw [second.others other different, first.others other different]
  · refine ⟨made ++ made', ?_, once.append once' first.others disjoint⟩
    rw [log', log, List.append_assoc]

/-- After accesses that write nothing. -/
theorem Fills.after (reads : Fills array ∅ w s s') (fills : Fills array S v s' s'') : Fills array S v s s'' := by
  have first : Fills array ∅ v s s' := ⟨reads.changes, fun _ member => member.elim, reads.others, reads.accesses⟩
  have both := first.append fills (Set.empty_disjoint S)
  rwa [Set.empty_union] at both

theorem Fills.congr (fills : Fills array S v s s') (cells : S = T) (values : ∀ c ∈ T, v c = w c) :
    Fills array T w s s' := by
  subst cells
  exact ⟨fills.changes, fun c member => (fills.filled c member).trans (congrArg some (values c member)), fills.others,
    fills.accesses⟩

theorem load_fills {i : ι} {x : V} (found : (s.grid source).read i = some x) (other : source ≠ array) (v : ι → V) :
    ∃ s', load source i s = some (x, s') ∧ Fills array ∅ v s s' := by
  refine ⟨{ s with accesses := s.accesses ++ [⟨source, i, false⟩] }, ?_, .refl _ _, fun _ member => member.elim,
    fun _ _ => rfl, [⟨source, i, false⟩], rfl, ?_, ?_, fun _ member => member.elim⟩
  · simp only [load, found, Option.bind_eq_bind, Option.bind_some]
  · intro e member _
    rw [List.mem_singleton.mp member]
    exact ⟨other, x, found⟩
  · intro e member writes
    rw [List.mem_singleton.mp member] at writes
    cases writes

theorem store_fills {i : ι} (inside : (s.grid array).inside i = true) (v : ι → V) :
    ∃ s', store array i (v i) s = some s' ∧ Fills array {i} v s s' := by
  obtain ⟨buffer, run, filled, changes⟩ := write_spec inside (v i)
  refine ⟨⟨Function.update s.grid array buffer, s.accesses ++ [⟨array, i, true⟩]⟩, ?_, ?_, ?_, ?_,
    [⟨array, i, true⟩], rfl, ?_, ?_, ?_⟩
  · simp only [store, run, Option.bind_eq_bind, Option.bind_some]
  · simpa only [Function.update_self] using changes
  · rintro _ rfl
    simpa only [Function.update_self] using filled
  · intro other different
    exact Function.update_of_ne different ..
  · intro e member reads
    rw [List.mem_singleton.mp member] at reads
    cases reads
  · intro e member _
    rw [List.mem_singleton.mp member]
    exact ⟨rfl, rfl⟩
  · rintro _ rfl
    exact List.count_singleton_self

/-- A loop whose iterations fill different cells. `Ready` is what an iteration needs. -/
theorem forLoop_fills {Ready : Recorded ν ι V → Prop} {cells : ℕ → Set ι}
    {body : Recorded ν ι V → ℕ → Option (Recorded ν ι V)}
    {start stop : ℕ} (bounds : start ≤ stop) (ready : Ready s)
    (keeps : ∀ {S s s'}, Fills array S v s s' → Ready s → Ready s')
    (distinct : ∀ k k', k ≠ k' → Disjoint (cells k) (cells k'))
    (step : ∀ k s, start ≤ k → k < stop → Ready s → ∃ s', body s k = some s' ∧ Fills array (cells k) v s s') :
    ∃ s', forLoop start stop body s = some s' ∧ Fills array {c | ∃ k, start ≤ k ∧ k < stop ∧ c ∈ cells k} v s s' := by
  refine forLoop_invariant (fun n now => Fills array {c | ∃ k, start ≤ k ∧ k < n ∧ c ∈ cells k} v s now) bounds ?_ ?_
  · refine (Fills.empty array v s).congr ?_ fun _ _ => rfl
    ext c
    simp only [Set.mem_empty_iff_false, false_iff]
    rintro ⟨k, lower, upper, -⟩
    exact absurd lower (Nat.not_le.mpr upper)
  · intro n now lower upper before
    obtain ⟨next, run, fills⟩ := step n now lower upper (keeps before ready)
    have apart : Disjoint {c | ∃ k, start ≤ k ∧ k < n ∧ c ∈ cells k} (cells n) := by
      rw [Set.disjoint_left]
      rintro c ⟨k, -, earlier, member⟩ here
      exact Set.disjoint_left.mp (distinct k n (Nat.ne_of_lt earlier)) member here
    refine ⟨next, run, (before.append fills apart).congr ?_ fun _ _ => rfl⟩
    ext c
    constructor
    · rintro (⟨k, lower, earlier, member⟩ | member)
      · exact ⟨k, lower, Nat.lt_succ_of_lt earlier, member⟩
      · exact ⟨n, lower, Nat.lt_succ_self n, member⟩
    · rintro ⟨k, lower, earlier, member⟩
      rcases Nat.lt_succ_iff_lt_or_eq.mp earlier with older | rfl
      · exact .inl ⟨k, lower, older, member⟩
      · exact .inr member

theorem Fills.inside (fills : Fills array S v s s') (other : ν) : (s'.grid other).inside = (s.grid other).inside := by
  by_cases same : other = array
  · rw [same, fills.changes.inside]
  · rw [fills.others other same]

/-- Assignments to the cells of a line. -/
theorem forLoop_store {cell : ℕ → ι} {value : ℕ → V} {start stop : ℕ} (injective : Function.Injective cell)
    (bounds : start ≤ stop) (inside : ∀ k, start ≤ k → k < stop → (s.grid array).inside (cell k) = true)
    (values : ∀ k, start ≤ k → k < stop → value k = v (cell k)) :
    ∃ s', forLoop start stop (fun s k => store array (cell k) (value k) s) s = some s' ∧
      Fills array {c | ∃ k, start ≤ k ∧ k < stop ∧ c ∈ ({cell k} : Set ι)} v s s' := by
  have kept : ∀ {S s s'}, Fills array S v s s' → (s.grid array).inside = (s'.grid array).inside :=
    fun fills => (fills.inside array).symm
  refine @forLoop_fills ν ι V _ _ array v s (fun now => (s.grid array).inside = (now.grid array).inside)
    (fun k => {cell k}) _ start stop bounds rfl (fun fills same => same.trans (kept fills)) ?_ ?_
  · intro k k' different
    apply Set.disjoint_left.mpr
    rintro _ rfl same
    exact different (injective same)
  · intro k now lower upper same
    rw [values k lower upper]
    refine store_fills ?_ v
    rw [← same, inside k lower upper]

end Recorded

end CilkArtifact
