import CilkArtifact.Cilksort.Merge
import CilkArtifact.Library.Footprint

/-! The two halves of `cilkmerge` are independent: which cells the calls write, which ones they touch, and that the
order in which they run makes no difference. -/
namespace CilkArtifact.Cilksort
open Memory
variable {ELM : Type} [LinearOrder ELM] {m m' : Memory ELM} {low1 high1 low2 high2 dest : ℤ}

/-! ### Stores -/

omit [LinearOrder ELM] in
theorem copyCells_stored (dst src : ℤ) (n : ℕ) : ∀ {m' : Memory ELM}, copyCells m dst src n = some m' →
    Stored (Set.Ico dst (dst + n)) m m' := by
  induction n with
  | zero =>
    intro m' run
    cases Option.some.inj run
    have none : Set.Ico dst (dst + (0 : ℕ)) = ∅ := Set.Ico_eq_empty (by omega)
    rw [none]
    exact .refl m
  | succ n ih =>
    intro m' run
    simp only [copyCells, Option.bind_eq_bind, Option.bind_eq_some_iff] at run
    obtain ⟨m₁, before, v, -, last⟩ := run
    have next : dst + (n + 1 : ℕ) = dst + n + 1 := by omega
    rw [next]
    exact (ih before).append (.store last) (by omega) (by omega)

omit [LinearOrder ELM] in
theorem memcpy_stored {dst src count : ℤ} (run : memcpy m dst src count = some m') :
    0 ≤ count ∧ Stored (Set.Ico dst (dst + count)) m m' := by
  rw [memcpy, Option.ite_none_left_eq_some] at run
  have size : (count.toNat : ℤ) = count := by omega
  have stored := copyCells_stored dst src count.toNat run.2
  rw [size] at stored
  exact ⟨by omega, stored⟩

/-- The state of a merge some steps on, and what they have stored. -/
structure Moved (m : Memory ELM) (low1 low2 dest : ℤ) (s : MergeState ELM) : Prop where
  stored : Stored (Set.Ico dest s.2.2.2) m s.1
  forward : dest ≤ s.2.2.2
  count : s.2.1 + s.2.2.1 - s.2.2.2 = low1 + low2 - dest

omit [LinearOrder ELM] in
theorem Moved.refl (m : Memory ELM) (low1 low2 dest : ℤ) : Moved m low1 low2 dest (m, low1, low2, dest) := by
  refine ⟨?_, le_rfl, rfl⟩
  rw [Set.Ico_self]
  exact .refl m

omit [LinearOrder ELM] in
/-- One store, and one of the ranges is shorter. -/
theorem Moved.step {m₁ : Memory ELM} {v : ELM} {next1 next2 : ℤ} {s : MergeState ELM} (run : m.store dest v = some m₁)
    (next : next1 + next2 = low1 + low2 + 1) (moved : Moved m₁ next1 next2 (dest + 1) s) :
    Moved m low1 low2 dest s := by
  obtain ⟨stored, forward, count⟩ := moved
  exact ⟨(Stored.store run).append stored (by omega) forward, by omega, by omega⟩

theorem fastLoop_moved {s : MergeState ELM} {a1 a2 : ELM} (run : fastLoop high1 high2 m a1 a2 low1 low2 dest = some s) :
    low1 < high1 → low2 < high2 → Moved m low1 low2 dest s ∧ s.2.1 ≤ high1 ∧ s.2.2.1 ≤ high2 := by
  refine fastLoop.partial_correctness high1 high2
    (fun m _ _ low1 low2 dest s => low1 < high1 → low2 < high2 →
      Moved m low1 low2 dest s ∧ s.2.1 ≤ high1 ∧ s.2.2.1 ≤ high2) ?_ m a1 a2 low1 low2 dest s run
  intro loop ih m a1 a2 low1 low2 dest s run more1 more2
  by_cases less : a1 < a2
  · simp only [if_pos less, Option.bind_eq_bind, Option.bind_eq_some_iff] at run
    obtain ⟨m₁, store, a, -, rest⟩ := run
    by_cases last : low1 + 1 ≥ high1
    · rw [if_pos last] at rest
      cases Option.some.inj rest
      exact ⟨.step store (by omega) (.refl _ _ _ _), by dsimp only; omega, more2.le⟩
    · rw [if_neg last] at rest
      obtain ⟨moved, bounds⟩ := ih _ _ _ _ _ _ _ rest (by omega) more2
      exact ⟨moved.step store (by omega), bounds⟩
  · simp only [if_neg less, Option.bind_eq_bind, Option.bind_eq_some_iff] at run
    obtain ⟨m₁, store, a, -, rest⟩ := run
    by_cases last : low2 + 1 ≥ high2
    · rw [if_pos last] at rest
      cases Option.some.inj rest
      exact ⟨.step store (by omega) (.refl _ _ _ _), more1.le, by dsimp only; omega⟩
    · rw [if_neg last] at rest
      obtain ⟨moved, bounds⟩ := ih _ _ _ _ _ _ _ rest more1 (by omega)
      exact ⟨moved.step store (by omega), bounds⟩

/-- One of the ranges is used up, and none has been left. -/
def UsedUp (high1 high2 : ℤ) (s : MergeState ELM) : Prop :=
  s.2.1 ≤ high1 + 1 ∧ s.2.2.1 ≤ high2 + 1 ∧ (high1 < s.2.1 ∨ high2 < s.2.2.1)

theorem slowLoop_moved {s : MergeState ELM} {a1 a2 : ELM} (run : slowLoop high1 high2 m a1 a2 low1 low2 dest = some s) :
    low1 ≤ high1 → low2 ≤ high2 → Moved m low1 low2 dest s ∧ UsedUp high1 high2 s := by
  refine slowLoop.partial_correctness high1 high2
    (fun m _ _ low1 low2 dest s => low1 ≤ high1 → low2 ≤ high2 → Moved m low1 low2 dest s ∧ UsedUp high1 high2 s)
    ?_ m a1 a2 low1 low2 dest s run
  intro loop ih m a1 a2 low1 low2 dest s run more1 more2
  by_cases less : a1 < a2
  · simp only [if_pos less, Option.bind_eq_bind, Option.bind_eq_some_iff] at run
    obtain ⟨m₁, store, rest⟩ := run
    by_cases last : low1 + 1 > high1
    · rw [if_pos last] at rest
      cases Option.some.inj rest
      refine ⟨.step store (by omega) (.refl _ _ _ _), ?_, ?_, .inl last⟩ <;> dsimp only <;> omega
    · rw [if_neg last, Option.bind_eq_some_iff] at rest
      obtain ⟨a, -, rest⟩ := rest
      obtain ⟨moved, used⟩ := ih _ _ _ _ _ _ _ rest (by omega) more2
      exact ⟨moved.step store (by omega), used⟩
  · simp only [if_neg less, Option.bind_eq_bind, Option.bind_eq_some_iff] at run
    obtain ⟨m₁, store, rest⟩ := run
    by_cases last : low2 + 1 > high2
    · rw [if_pos last] at rest
      cases Option.some.inj rest
      refine ⟨.step store (by omega) (.refl _ _ _ _), ?_, ?_, .inr last⟩ <;> dsimp only <;> omega
    · rw [if_neg last, Option.bind_eq_some_iff] at rest
      obtain ⟨a, -, rest⟩ := rest
      obtain ⟨moved, used⟩ := ih _ _ _ _ _ _ _ rest more1 (by omega)
      exact ⟨moved.step store (by omega), used⟩

theorem fastPhase_moved {s : MergeState ELM} (run : fastPhase high1 high2 (m, low1, low2, dest) = some s)
    (range1 : low1 ≤ high1 + 1) (range2 : low2 ≤ high2 + 1) :
    Moved m low1 low2 dest s ∧ s.2.1 ≤ high1 + 1 ∧ s.2.2.1 ≤ high2 + 1 := by
  rw [fastPhase] at run
  by_cases both : low1 < high1 ∧ low2 < high2
  · simp only [if_pos both, Option.bind_eq_bind, Option.bind_eq_some_iff] at run
    obtain ⟨a1, -, a2, -, loop⟩ := run
    obtain ⟨moved, bound1, bound2⟩ := fastLoop_moved loop both.1 both.2
    exact ⟨moved, by omega, by omega⟩
  · rw [if_neg both] at run
    cases Option.some.inj run
    exact ⟨.refl _ _ _ _, range1, range2⟩

theorem slowPhase_moved {s : MergeState ELM} (run : slowPhase high1 high2 (m, low1, low2, dest) = some s)
    (range1 : low1 ≤ high1 + 1) (range2 : low2 ≤ high2 + 1) : Moved m low1 low2 dest s ∧ UsedUp high1 high2 s := by
  rw [slowPhase] at run
  by_cases both : low1 ≤ high1 ∧ low2 ≤ high2
  · simp only [if_pos both, Option.bind_eq_bind, Option.bind_eq_some_iff] at run
    obtain ⟨a1, -, a2, -, loop⟩ := run
    exact slowLoop_moved loop both.1 both.2
  · rw [if_neg both] at run
    cases Option.some.inj run
    exact ⟨.refl _ _ _ _, range1, range2, by dsimp only; omega⟩

omit [LinearOrder ELM] in
theorem copyRest_stored {s : MergeState ELM} (run : copyRest high1 high2 s = some m') (used : UsedUp high1 high2 s) :
    s.2.2.2 ≤ s.2.2.2 + (high1 - s.2.1 + high2 - s.2.2.1 + 2) ∧
      Stored (Set.Ico s.2.2.2 (s.2.2.2 + (high1 - s.2.1 + high2 - s.2.2.1 + 2))) s.1 m' := by
  obtain ⟨m, low1, low2, dest⟩ := s
  obtain ⟨bound1, bound2, empty⟩ := used
  dsimp only at bound1 bound2 empty ⊢
  rw [copyRest] at run
  by_cases first : low1 > high1
  · rw [if_pos first] at run
    obtain ⟨positive, stored⟩ := memcpy_stored run
    have rest : high1 - low1 + high2 - low2 + 2 = high2 - low2 + 1 := by omega
    rw [rest]
    exact ⟨by omega, stored⟩
  · rw [if_neg first] at run
    obtain ⟨positive, stored⟩ := memcpy_stored run
    have rest : high1 - low1 + high2 - low2 + 2 = high1 - low1 + 1 := by omega
    rw [rest]
    exact ⟨by omega, stored⟩

/-- `seqmerge` stores every cell of the destination once. -/
theorem seqmerge_stored (run : seqmerge m low1 high1 low2 high2 dest = some m') (range1 : low1 ≤ high1 + 1)
    (range2 : low2 ≤ high2 + 1) : Stored (Set.Ico dest (dest + (high1 - low1 + high2 - low2 + 2))) m m' := by
  simp only [seqmerge, Option.bind_eq_bind, Option.bind_eq_some_iff] at run
  obtain ⟨⟨m₁, low1', low2', dest'⟩, fast, ⟨m₂, low1'', low2'', dest''⟩, slow, rest⟩ := run
  obtain ⟨⟨stored₁, forward₁, count₁⟩, bound1, bound2⟩ := fastPhase_moved fast range1 range2
  obtain ⟨⟨stored₂, forward₂, count₂⟩, used⟩ := slowPhase_moved slow bound1 bound2
  obtain ⟨forward₃, stored₃⟩ := copyRest_stored rest used
  dsimp only at *
  have last : dest + (high1 - low1 + high2 - low2 + 2) = dest'' + (high1 - low1'' + high2 - low2'' + 2) := by omega
  rw [last]
  exact (stored₁.append stored₂ forward₁ forward₂).append stored₃ (forward₁.trans forward₂) forward₃

/-! ### One level of the recursion -/

/-- The arguments of `cilkmerge`. -/
structure Args where
  low1 : ℤ
  high1 : ℤ
  low2 : ℤ
  high2 : ℤ
  dest : ℤ

namespace Args

/-- The number of elements. -/
def size (args : Args) : ℤ := args.high1 - args.low1 + args.high2 - args.low2 + 2

def sources (args : Args) : Set ℤ := Set.Ico args.low1 (args.high1 + 1) ∪ Set.Ico args.low2 (args.high2 + 1)

def dests (args : Args) : Set ℤ := Set.Ico args.dest (args.dest + args.size)

/-- The larger range first. -/
def ordered (args : Args) : Args :=
  if args.high2 - args.low2 > args.high1 - args.low1 then ⟨args.low2, args.high2, args.low1, args.high1, args.dest⟩
  else args

/-- The call divides its ranges, and does not merge them itself. -/
def Divides (args : Args) : Prop := MERGESIZE ≤ args.ordered.high2 - args.ordered.low2

end Args

def cilkmergeOf (args : Args) (m : Memory ELM) : Option (Memory ELM) :=
  cilkmerge m args.low1 args.high1 args.low2 args.high2 args.dest

/-- Memory with the splitting element stored, its cell, and the two calls. -/
structure Halves (ELM : Type) where
  m : Memory ELM
  cell : ℤ
  spawned : Args
  rest : Args

/-- `cilkmerge` up to the two calls, for a call that divides its ranges. -/
def halves (m : Memory ELM) (args : Args) : Option (Halves ELM) := do
  let ⟨low1, high1, low2, high2, lowdest⟩ := args.ordered
  let split1 := (high1 - low1 + 1) / 2 + low1
  let x ← m.load split1
  let split2 ← binsplit m x low2 high2
  let lowsize := split1 - low1 + split2 - low2
  let m ← m.store (lowdest + lowsize + 1) x
  some ⟨m, lowdest + lowsize + 1, ⟨low1, split1 - 1, low2, split2, lowdest⟩,
    ⟨split1 + 1, high1, split2 + 1, high2, lowdest + lowsize + 2⟩⟩

/-- A call that divides its ranges makes the two calls, and one that does not is a sequential merge. -/
theorem cilkmergeOf_eq (args : Args) (nonempty : 0 < args.size) (range1 : args.low1 ≤ args.high1 + 1)
    (range2 : args.low2 ≤ args.high2 + 1) (m : Memory ELM) : cilkmergeOf args m =
      if args.ordered.high2 - args.ordered.low2 < MERGESIZE then
        seqmerge m args.ordered.low1 args.ordered.high1 args.ordered.low2 args.ordered.high2 args.ordered.dest
      else (halves m args).bind fun h => (cilkmergeOf h.spawned h.m).bind (cilkmergeOf h.rest) := by
  obtain ⟨low1, high1, low2, high2, dest⟩ := args
  simp only [Args.size] at nonempty
  dsimp only at range1 range2
  rw [cilkmergeOf, halves]
  by_cases larger : high2 - low2 > high1 - low1
  · simp only [Args.ordered, if_pos larger]
    rw [cilkmerge_swap larger, cilkmerge_ordered larger.le, if_neg (by omega)]
    simp only [Option.bind_eq_bind, Option.bind_assoc, Option.bind_some, cilkmergeOf]
    rfl
  · simp only [Args.ordered, if_neg larger]
    rw [cilkmerge_ordered (not_lt.mp larger), if_neg (by omega)]
    simp only [Option.bind_eq_bind, Option.bind_assoc, Option.bind_some, cilkmergeOf]
    rfl

/-- A call as it is made: the ranges are sorted and not both empty, and the destination meets neither of them. -/
structure Args.Ready (args : Args) (m : Memory ELM) : Prop where
  input : MergeInput m args.low1 args.high1 args.low2 args.high2 args.dest
  nonempty : 0 < args.size

theorem Args.Ready.ordered {args : Args} (ready : args.Ready m) : args.ordered.Ready m ∧
    args.ordered.high2 - args.ordered.low2 ≤ args.ordered.high1 - args.ordered.low1 ∧
    args.ordered.dests = args.dests ∧ args.ordered.sources = args.sources := by
  rw [Args.ordered]
  by_cases larger : args.high2 - args.low2 > args.high1 - args.low1
  · have size : Args.size ⟨args.low2, args.high2, args.low1, args.high1, args.dest⟩ = args.size := by
      simp only [Args.size]
      omega
    rw [if_pos larger]
    refine ⟨⟨ready.input.symm, size ▸ ready.nonempty⟩, larger.le, ?_, Set.union_comm _ _⟩
    rw [Args.dests, size, Args.dests]
  · rw [if_neg larger]
    exact ⟨ready, not_lt.mp larger, rfl, rfl⟩

/-- What the two calls and the store have to do with each other. -/
structure Parts (m : Memory ELM) (args : Args) (h : Halves ELM) : Prop where
  store : Stored {h.cell} m h.m
  spawned : h.spawned.Ready h.m
  rest : h.rest.Ready h.m
  dests : h.spawned.dests ∪ {h.cell} ∪ h.rest.dests = args.dests
  apart : Disjoint h.spawned.dests h.rest.dests
  cellSpawned : h.cell ∉ h.spawned.dests
  cellRest : h.cell ∉ h.rest.dests
  sources : h.spawned.sources ∪ h.rest.sources ⊆ args.sources
  smaller : h.spawned.size < args.size ∧ h.rest.size < args.size

theorem Parts.of_ordered {args : Args} {h : Halves ELM} (ready : args.Ready m) (parts : Parts m args.ordered h) :
    Parts m args h := by
  obtain ⟨-, -, dests, sources⟩ := ready.ordered
  have size : args.ordered.size = args.size := by
    rw [Args.ordered]
    split
    · simp only [Args.size]
      omega
    · rfl
  exact { parts with
    dests := parts.dests.trans dests
    sources := sources ▸ parts.sources
    smaller := size ▸ parts.smaller }

/-- The two halves around a splitting element. -/
theorem parts_of_split {split1 split2 lowsize : ℤ} {x : ELM} (input : MergeInput m low1 high1 low2 high2 dest)
    (in1 : low1 < split1 ∧ split1 < high1) (in2 : low2 - 1 ≤ split2 ∧ split2 ≤ high2)
    (size : lowsize = split1 - low1 + split2 - low2) (run : m.store (dest + lowsize + 1) x = some m') :
    Parts m ⟨low1, high1, low2, high2, dest⟩ ⟨m', dest + lowsize + 1, ⟨low1, split1 - 1, low2, split2, dest⟩,
      ⟨split1 + 1, high1, split2 + 1, high2, dest + lowsize + 2⟩⟩ := by
  have store := Stored.store run
  rw [Ico_single] at store
  have outside : ∀ a ∈ ({dest + lowsize + 1} : Set ℤ), ¬ (low1 ≤ a ∧ a ≤ high1) ∧ ¬ (low2 ≤ a ∧ a ≤ high2) := by
    rintro a rfl
    exact input.apart _ (by omega) (by omega)
  have kept := input.changes store.toChanges outside
  have inside1 : low1 ≤ split1 ∧ split1 ≤ high1 := ⟨in1.1.le, in1.2.le⟩
  refine ⟨store, ⟨kept.lowerHalf inside1 in2, ?_⟩, ⟨kept.upperHalf inside1 in2 size, ?_⟩, ?_, ?_, ?_, ?_, ?_, ?_⟩
  · simp only [Args.size]
    omega
  · simp only [Args.size]
    omega
  · ext a
    simp only [Args.dests, Args.size, Set.mem_union, Set.mem_Ico, Set.mem_singleton_iff]
    omega
  · rw [Set.disjoint_left]
    intro a
    simp only [Args.dests, Args.size, Set.mem_Ico]
    omega
  · simp only [Args.dests, Args.size, Set.mem_Ico]
    omega
  · simp only [Args.dests, Args.size, Set.mem_Ico]
    omega
  · intro a
    simp only [Args.sources, Set.mem_union, Set.mem_Ico]
    omega
  · simp only [Args.size]
    omega

theorem Args.Ready.halves {args : Args} (ready : args.Ready m) (divides : args.Divides) :
    ∃ h, halves m args = some h ∧ Parts m args h := by
  obtain ⟨⟨input, nonempty⟩, larger, -, -⟩ := ready.ordered
  rw [Args.Divides, MERGESIZE] at divides
  suffices found : ∃ h, Cilksort.halves m args = some h ∧ Parts m args.ordered h by
    obtain ⟨h, run, parts⟩ := found
    exact ⟨h, run, parts.of_ordered ready⟩
  rw [Cilksort.halves]
  generalize args.ordered = args at *
  obtain ⟨low1, high1, low2, high2, dest⟩ := args
  dsimp only at *
  have in1 : low1 < (high1 - low1 + 1) / 2 + low1 ∧ (high1 - low1 + 1) / 2 + low1 < high1 := by omega
  generalize (high1 - low1 + 1) / 2 + low1 = split1 at in1
  obtain ⟨split2, search, lowerBound, upperBound, -, -⟩ :=
    binsplit_spec (m.val split1) (by omega) input.mapped2 input.sorted2
  have stored : m.mapped (dest + (split1 - low1 + split2 - low2) + 1) = true :=
    input.mappedDest _ ⟨by omega, by omega⟩
  refine ⟨_, ?_, parts_of_split input in1 ⟨lowerBound, upperBound⟩ rfl (store_mapped (v := m.val split1) stored)⟩
  simp only [load_mapped (input.mapped1 split1 ⟨by omega, by omega⟩), search, store_mapped stored, Option.bind_eq_bind,
    Option.bind_some]

theorem Args.Ready.apart {args : Args} (ready : args.Ready m) : Disjoint args.dests args.sources := by
  refine Set.disjoint_left.mpr fun a inDest inSources => ?_
  have outside := ready.input.apart a inDest.1 inDest.2
  rcases inSources with ⟨lower, upper⟩ | ⟨lower, upper⟩
  · exact outside.1 ⟨lower, Int.le_of_lt_add_one upper⟩
  · exact outside.2 ⟨lower, Int.le_of_lt_add_one upper⟩

theorem Args.Ready.changes {args : Args} {S : Set ℤ} (ready : args.Ready m) (changes : Changes S m m')
    (apart : Disjoint S args.sources) : args.Ready m' := by
  refine ⟨ready.input.changes changes fun a member => ?_, ready.nonempty⟩
  have outside := Set.disjoint_left.mp apart member
  simp only [Args.sources, Set.mem_union, Set.mem_Ico, not_or] at outside
  omega

/-- Neither call reads what the other one writes. -/
theorem Parts.reads {args : Args} {h : Halves ELM} (ready : args.Ready m) (parts : Parts m args h) :
    Disjoint args.dests (h.spawned.sources ∪ h.rest.sources) := ready.apart.mono_right parts.sources

theorem Parts.spawned_sub {args : Args} {h : Halves ELM} (parts : Parts m args h) : h.spawned.dests ⊆ args.dests := by
  rw [← parts.dests]
  exact fun a member => .inl (.inl member)

theorem Parts.rest_sub {args : Args} {h : Halves ELM} (parts : Parts m args h) : h.rest.dests ⊆ args.dests := by
  rw [← parts.dests]
  exact fun a member => .inr member

/-- The call on the upper halves, after some writes of the call on the lower halves. -/
theorem Parts.rest_after {args : Args} {h : Halves ELM} (ready : args.Ready m) (parts : Parts m args h)
    (changes : Changes h.spawned.dests h.m m') : h.rest.Ready m' :=
  parts.rest.changes changes
    ((parts.reads ready).mono parts.spawned_sub Set.subset_union_right)

theorem Parts.spawned_after {args : Args} {h : Halves ELM} (ready : args.Ready m) (parts : Parts m args h)
    (changes : Changes h.rest.dests h.m m') : h.spawned.Ready m' :=
  parts.spawned.changes changes
    ((parts.reads ready).mono parts.rest_sub Set.subset_union_left)

/-- Every cell of the destination is stored once. -/
theorem Args.Ready.stored (n : ℕ) : ∀ {args : Args} {m m' : Memory ELM}, args.size < n → args.Ready m →
    cilkmergeOf args m = some m' → Stored args.dests m m' := by
  induction n with
  | zero =>
    intro args m m' size ready
    have := ready.nonempty
    omega
  | succ n ih =>
    intro args m m' size ready run
    rw [cilkmergeOf_eq args ready.nonempty ready.input.range1 ready.input.range2] at run
    by_cases short : args.ordered.high2 - args.ordered.low2 < MERGESIZE
    · rw [if_pos short] at run
      obtain ⟨ordered, -, dests, -⟩ := ready.ordered
      rw [← dests]
      exact seqmerge_stored run ordered.input.range1 ordered.input.range2
    · rw [if_neg short] at run
      obtain ⟨h, found, parts⟩ := ready.halves (not_lt.mp short)
      rw [found, Option.bind_some, Option.bind_eq_some_iff] at run
      obtain ⟨m₂, runSpawned, runRest⟩ := run
      have smaller := parts.smaller
      have storedSpawned := ih (by omega) parts.spawned runSpawned
      have storedRest := ih (by omega) (parts.rest_after ready storedSpawned.toChanges) runRest
      rw [← parts.dests, Set.union_comm h.spawned.dests]
      refine (parts.store.union storedSpawned ?_).union storedRest ?_
      · exact Set.disjoint_singleton_left.mpr parts.cellSpawned
      · rw [Set.disjoint_union_left]
        exact ⟨Set.disjoint_singleton_left.mpr parts.cellRest, parts.apart⟩

/-! ### Calls at the same time -/

/-- What a call leaves behind: the sorted merge, with one store for each of its cells. -/
theorem Args.Ready.merges {args : Args} (ready : args.Ready m) : ∃ m', cilkmergeOf args m = some m' ∧
    Merged m m' args.low1 args.high1 args.low2 args.high2 args.dest ∧ Stored args.dests m m' := by
  have nonempty := ready.nonempty
  obtain ⟨m', run, merged⟩ := cilkmerge_spec (args.size + 1).toNat (by rw [Args.size]; omega) nonempty ready.input
  exact ⟨m', run, merged, Args.Ready.stored (args.size + 1).toNat (by omega) ready run⟩

/-- All there is to a cell. -/
def cellAt (m : Memory ELM) (a : ℤ) : Bool × Cell ELM := (m.mapped a, m.cells a)

omit [LinearOrder ELM] in
theorem cellAt_ext (same : ∀ a, cellAt m a = cellAt m' a) : m = m' := by
  have cells : m.cells = m'.cells := funext fun a => congrArg Prod.snd (same a)
  have mapped : m.mapped = m'.mapped := funext fun a => congrArg Prod.fst (same a)
  cases m
  cases m'
  cases cells
  cases mapped
  rfl

theorem Args.Ready.of_cells {args : Args} (ready : args.Ready m)
    (same : ∀ a ∈ args.sources ∪ args.dests, cellAt m' a = cellAt m a) : args.Ready m' := by
  have value : ∀ a ∈ args.sources ∪ args.dests, m'.val a = m.val a :=
    fun a member => congrArg (fun cell => cell.2.value) (same a member)
  have mapped : ∀ a ∈ args.sources ∪ args.dests, m'.mapped a = m.mapped a :=
    fun a member => congrArg Prod.fst (same a member)
  have input := ready.input
  refine ⟨⟨input.range1, input.range2, ?_, ?_, ?_, ?_, ?_, input.apart⟩, ready.nonempty⟩
  · exact input.sorted1.congr fun a lower upper => value a (.inl (.inl ⟨lower, upper⟩))
  · exact input.sorted2.congr fun a lower upper => value a (.inl (.inr ⟨lower, upper⟩))
  · exact fun a member => (mapped a (.inl (.inl member))).trans (input.mapped1 a member)
  · exact fun a member => (mapped a (.inl (.inr member))).trans (input.mapped2 a member)
  · exact fun a member => (mapped a (.inr member)).trans (input.mappedDest a member)

/-- A call touches its ranges and its destination only, and writes its destination only. -/
theorem Args.Ready.footprint {args : Args} (ready : args.Ready m) (run : cilkmergeOf args m = some m') :
    Footprint cellAt (cilkmergeOf args) (args.sources ∪ args.dests) args.dests m m' := by
  obtain ⟨_, run', merged, stored⟩ := ready.merges
  cases Option.some.inj (run.symm.trans run')
  intro t same
  obtain ⟨t', runT, mergedT, storedT⟩ := (ready.of_cells same).merges
  refine ⟨t', runT, fun a member => ?_, fun a outside => ?_⟩
  · have cell : t.cells a = m.cells a := congrArg Prod.snd (same a (.inr member))
    have mapped : t.mapped a = m.mapped a := congrArg Prod.fst (same a (.inr member))
    have value : ∀ b ∈ args.sources, t.val b = m.val b :=
      fun b inSources => congrArg (fun cell => cell.2.value) (same b (.inl inSources))
    have bags : t'.bag args.dest (args.dest + args.size) = m'.bag args.dest (args.dest + args.size) := by
      rw [Args.size, merged.bags, mergedT.bags, bag_congr fun b lower upper => value b (.inl ⟨lower, upper⟩),
        bag_congr fun b lower upper => value b (.inr ⟨lower, upper⟩)]
    have sameValue := merged.sorted.unique mergedT.sorted bags member.1 member.2
    have sameWrites : (t'.cells a).writes = (m'.cells a).writes := by
      rw [storedT.once a member, stored.once a member, cell]
    change (t'.mapped a, (⟨t'.val a, (t'.cells a).writes⟩ : Cell ELM)) = (m'.mapped a, ⟨m'.val a, (m'.cells a).writes⟩)
    rw [sameValue, sameWrites, storedT.mapped, stored.mapped, mapped]
  · rw [cellAt, cellAt, storedT.mapped, storedT.frame a outside]

/-- A call and the memory that it finds. -/
structure Call (ELM : Type) where
  m : Memory ELM
  args : Args

/-- The calls of a merge, on all levels. The spawned call and the other one run at the same time: each may find some
of the destination of the other one written. -/
inductive Reaches : Call ELM → Call ELM → Prop
  | start (c : Call ELM) : Reaches c c
  | spawned {c u : Call ELM} {h : Halves ELM} {m : Memory ELM} : c.args.Divides → halves c.m c.args = some h →
    Changes h.rest.dests h.m m → Reaches ⟨m, h.spawned⟩ u → Reaches c u
  | rest {c u : Call ELM} {h : Halves ELM} {m : Memory ELM} : c.args.Divides → halves c.m c.args = some h →
    Changes h.spawned.dests h.m m → Reaches ⟨m, h.rest⟩ u → Reaches c u

/-- One level of the recursion: the cells that the spawned call, the other one and the store of the splitting element
write are the destination, each of them written by one of the three only; the calls have elements to merge, neither
touches a cell that another one writes, and their order makes no difference. -/
structure Independent (m : Memory ELM) (args : Args) (h : Halves ELM) : Prop where
  store : written m h.m = {h.cell}
  spawned : ∃ m', cilkmergeOf h.spawned h.m = some m' ∧ written h.m m' = h.spawned.dests ∧
    Footprint cellAt (cilkmergeOf h.spawned) (h.spawned.sources ∪ h.spawned.dests) h.spawned.dests h.m m'
  rest : ∃ m', cilkmergeOf h.rest h.m = some m' ∧ written h.m m' = h.rest.dests ∧
    Footprint cellAt (cilkmergeOf h.rest) (h.rest.sources ∪ h.rest.dests) h.rest.dests h.m m'
  dests : h.spawned.dests ∪ {h.cell} ∪ h.rest.dests = args.dests
  apart : Disjoint h.spawned.dests h.rest.dests ∧ h.cell ∉ h.spawned.dests ∧ h.cell ∉ h.rest.dests
  nonempty : 0 < h.spawned.size ∧ 0 < h.rest.size
  readsSpawned : Disjoint (h.spawned.sources ∪ h.spawned.dests) (h.rest.dests ∪ {h.cell})
  readsRest : Disjoint (h.rest.sources ∪ h.rest.dests) (h.spawned.dests ∪ {h.cell})
  readsSplit : Disjoint args.sources args.dests
  orders : ∃ m', (cilkmergeOf h.spawned h.m).bind (cilkmergeOf h.rest) = some m' ∧
    (cilkmergeOf h.rest h.m).bind (cilkmergeOf h.spawned) = some m' ∧ cilkmergeOf args m = some m' ∧
    Merged m m' args.low1 args.high1 args.low2 args.high2 args.dest

theorem Parts.touches {args : Args} {h : Halves ELM} (ready : args.Ready m) (parts : Parts m args h) :
    Disjoint (h.spawned.sources ∪ h.spawned.dests) (h.rest.dests ∪ {h.cell}) ∧
      Disjoint (h.rest.sources ∪ h.rest.dests) (h.spawned.dests ∪ {h.cell}) := by
  have reads := parts.reads ready
  have cell : h.cell ∈ args.dests := by
    rw [← parts.dests]
    exact .inl (.inr rfl)
  have cells : ({h.cell} : Set ℤ) ⊆ args.dests := Set.singleton_subset_iff.mpr cell
  have spawnedReads : Disjoint h.spawned.sources args.dests := (reads.mono_right Set.subset_union_left).symm
  have restReads : Disjoint h.rest.sources args.dests := (reads.mono_right Set.subset_union_right).symm
  constructor
  · rw [Set.disjoint_union_left]
    exact ⟨spawnedReads.mono_right (Set.union_subset parts.rest_sub cells),
      Set.disjoint_union_right.mpr ⟨parts.apart, Set.disjoint_singleton_right.mpr parts.cellSpawned⟩⟩
  · rw [Set.disjoint_union_left]
    exact ⟨restReads.mono_right (Set.union_subset parts.spawned_sub cells),
      Set.disjoint_union_right.mpr ⟨parts.apart.symm, Set.disjoint_singleton_right.mpr parts.cellRest⟩⟩

theorem Parts.independent {args : Args} {h : Halves ELM} (ready : args.Ready m) (divides : args.Divides)
    (found : halves m args = some h) (parts : Parts m args h) : Independent m args h := by
  obtain ⟨m₁, runSpawned, -, storedSpawned⟩ := parts.spawned.merges
  obtain ⟨m₂, runRest, -, storedRest⟩ := parts.rest.merges
  have footSpawned := parts.spawned.footprint runSpawned
  have footRest := parts.rest.footprint runRest
  obtain ⟨readsSpawned, readsRest⟩ := parts.touches ready
  obtain ⟨t, t', order, order', same⟩ := footSpawned.either_order footRest
    (readsRest.mono_right Set.subset_union_left).symm (readsSpawned.mono_right Set.subset_union_left).symm parts.apart
  cases cellAt_ext same
  obtain ⟨m', run, merged, -⟩ := ready.merges
  have whole : cilkmergeOf args m = some t := by
    rw [cilkmergeOf_eq args ready.nonempty ready.input.range1 ready.input.range2, if_neg (not_lt.mpr divides), found]
    exact order
  cases Option.some.inj (run.symm.trans whole)
  exact ⟨parts.store.written_eq, ⟨m₁, runSpawned, storedSpawned.written_eq, footSpawned⟩,
    ⟨m₂, runRest, storedRest.written_eq, footRest⟩, parts.dests, ⟨parts.apart, parts.cellSpawned, parts.cellRest⟩,
    ⟨parts.spawned.nonempty, parts.rest.nonempty⟩, readsSpawned, readsRest, ready.apart.symm, t, order, order', run,
    merged⟩

theorem Reaches.ready {c u : Call ELM} (reaches : Reaches c u) : c.args.Ready c.m → u.args.Ready u.m := by
  induction reaches with
  | start c => exact fun ready => ready
  | spawned divides found changes _ ih =>
    intro ready
    obtain ⟨h, found', parts⟩ := ready.halves divides
    cases Option.some.inj (found.symm.trans found')
    exact ih (parts.spawned_after ready changes)
  | rest divides found changes _ ih =>
    intro ready
    obtain ⟨h, found', parts⟩ := ready.halves divides
    cases Option.some.inj (found.symm.trans found')
    exact ih (parts.rest_after ready changes)

/-- `cilkmerge` merges, and on every level of the recursion its halves are independent. -/
theorem cilkmerge_independent (args : Args) (m : Memory ELM)
    (input : MergeInput m args.low1 args.high1 args.low2 args.high2 args.dest) (nonempty : 0 < args.size) :
    (∃ m', cilkmergeOf args m = some m' ∧ Merged m m' args.low1 args.high1 args.low2 args.high2 args.dest ∧
      written m m' = args.dests) ∧
    ∀ u, Reaches ⟨m, args⟩ u →
      (u.args.Divides → ∃ h, halves u.m u.args = some h ∧ Independent u.m u.args h) ∧
      (¬ u.args.Divides → cilkmergeOf u.args u.m = seqmerge u.m u.args.ordered.low1 u.args.ordered.high1
        u.args.ordered.low2 u.args.ordered.high2 u.args.ordered.dest) := by
  have ready : args.Ready m := ⟨input, nonempty⟩
  constructor
  · obtain ⟨m', run, merged, stored⟩ := ready.merges
    exact ⟨m', run, merged, stored.written_eq⟩
  · intro u reaches
    have ready := reaches.ready ready
    constructor
    · intro divides
      obtain ⟨h, found, parts⟩ := ready.halves divides
      exact ⟨h, found, parts.independent ready divides found⟩
    · intro single
      rw [cilkmergeOf_eq u.args ready.nonempty ready.input.range1 ready.input.range2, if_pos (not_le.mp single)]

/-- Two ranges of 4096 equal elements. -/
theorem cilkmerge_independent_equal :
    ∃ h, halves (⟨fun _ => ⟨0, 0⟩, fun _ => true⟩ : Memory ℤ) ⟨0, 4095, 4096, 8191, 8192⟩ = some h ∧
      Independent ⟨fun _ => ⟨0, 0⟩, fun _ => true⟩ ⟨0, 4095, 4096, 8191, 8192⟩ h := by
  have input : MergeInput (⟨fun _ => ⟨0, 0⟩, fun _ => true⟩ : Memory ℤ) 0 4095 4096 8191 8192 :=
    ⟨by decide, by decide, fun _ _ _ _ _ => le_rfl, fun _ _ _ _ _ => le_rfl, fun _ _ => rfl, fun _ _ => rfl,
      fun _ _ => rfl, fun a lower upper => by omega⟩
  have divides : MERGESIZE ≤ (Args.ordered ⟨0, 4095, 4096, 8191, 8192⟩).high2 -
      (Args.ordered ⟨0, 4095, 4096, 8191, 8192⟩).low2 := by decide
  exact ((cilkmerge_independent ⟨0, 4095, 4096, 8191, 8192⟩ _ input (by decide)).2 _ (.start _)).1 divides

end CilkArtifact.Cilksort
