import CilkArtifact.DotMix.Scope
import CilkArtifact.Pedigree.OptPedigree

/-! What the operations of pedigree objects do to the terms, and where the terms are stored. -/
namespace CilkArtifact.Pedigree
open Buffer DotMix

namespace OptPedigree
variable {S : ℕ} {o o' : OptPedigree S} {l : List Word} {n : ℕ}

/-- How many terms the array behind `m_rev_ped_full` has room for. -/
def capacity (o : OptPedigree S) : ℕ :=
  match o.revPedFull with
  | .static => S
  | .heap capacity _ => capacity

/-- The array fits `n` terms, and it is the static one whenever that is large enough. -/
structure Ready (o : OptPedigree S) (n : ℕ) : Prop where
  static : o.isStatic = decide (n ≤ S)
  fits : n ≤ o.capacity
  spans : o.fullArray.Spans 0 o.capacity
  own : o.revPed.Spans 0 S

/-- The object stores the terms `l`, leaf first. -/
structure Represents (o : OptPedigree S) (l : List Word) : Prop extends Ready o l.length where
  length : o.length = l.length
  stored : o.fullArray.Stores 0 l

/-- Writes to the cells of `X` of the array behind `m_rev_ped_full`. -/
structure Writes (X : Set ℕ) (o o' : OptPedigree S) : Prop where
  length : o'.length = o.length
  isStatic : o'.isStatic = o.isStatic
  capacity : o'.capacity = o.capacity
  own : o'.revPed.inside = o.revPed.inside
  other : o.isStatic = false → o'.revPed = o.revPed
  changes : Changes X o.fullArray o'.fullArray

theorem Writes.refl (X : Set ℕ) (o : OptPedigree S) : Writes X o o := ⟨rfl, rfl, rfl, rfl, fun _ => rfl, .refl X _⟩

theorem Writes.trans {X : Set ℕ} {o'' : OptPedigree S} (first : Writes X o o') (second : Writes X o' o'') :
    Writes X o o'' where
  length := second.length.trans first.length
  isStatic := second.isStatic.trans first.isStatic
  capacity := second.capacity.trans first.capacity
  own := second.own.trans first.own
  other heap := (second.other (first.isStatic.trans heap)).trans (first.other heap)
  changes := first.changes.trans second.changes

theorem Writes.mono {X Y : Set ℕ} (writes : Writes X o o') (sub : X ⊆ Y) : Writes Y o o' :=
  { writes with changes := writes.changes.mono sub }

theorem Ready.writes {X : Set ℕ} (ready : Ready o n) (writes : Writes X o o') : Ready o' n where
  static := writes.isStatic.trans ready.static
  fits := by rw [writes.capacity]; exact ready.fits
  spans := by rw [writes.capacity]; exact ready.spans.changes writes.changes
  own i member := by rw [writes.own, ready.own i member]

theorem writeFull_spec {i : ℕ} (inside : o.fullArray.inside i = true) (v : Word) :
    ∃ o', o.writeFull i v = some o' ∧ o'.fullArray.cell i = some v ∧ Writes {i} o o' := by
  obtain ⟨length, revPed, full⟩ := o
  cases full with
  | static =>
    obtain ⟨revPed', run, written, changes⟩ := write_spec inside v
    refine ⟨⟨length, revPed', .static⟩, ?_, written, rfl, rfl, rfl, changes.inside, ?_, changes⟩
    · simp only [writeFull]
      rw [show revPed.write i v = some revPed' from run]
      rfl
    · intro heap
      cases heap
  | heap capacity array =>
    obtain ⟨array', run, written, changes⟩ := write_spec inside v
    refine ⟨⟨length, revPed, .heap capacity array'⟩, ?_, written, rfl, rfl, rfl, rfl, fun _ => rfl, changes⟩
    simp only [writeFull]
    rw [show array.write i v = some array' from run]
    rfl

/-- The next term behind the terms that are already there. -/
theorem push_spec {i : ℕ} (ready : Ready o l.length) (bound : i < l.length) (stored : o.fullArray.Stores 0 (l.take i)) :
    ∃ o', o.writeFull i l[i] = some o' ∧ o'.fullArray.Stores 0 (l.take (i + 1)) ∧ Writes {i} o o' := by
  have inside := ready.spans i (mem_span.mpr ⟨Nat.zero_le i, by have := ready.fits; omega⟩)
  obtain ⟨o', run, written, writes⟩ := writeFull_spec inside l[i]
  refine ⟨o', run, ?_, writes⟩
  have index : 0 + (l.take i).length = i := by
    rw [List.length_take]
    omega
  rw [← List.take_concat_get' l i bound]
  exact stored.push (by rw [index]; exact written) (by rw [index]; exact writes.changes)

/-- A loop that stores the terms one after the other. -/
theorem fill_spec (get : OptPedigree S → ℕ → Option Word) {a b : ℕ} (ready : Ready o l.length) (order : a ≤ b)
    (bound : b ≤ l.length) (before : o.fullArray.Stores 0 (l.take a))
    (values : ∀ i (inside : i < l.length) o', a ≤ i → i < b → Writes (span a (i - a)) o o' → get o' i = some l[i]) :
    ∃ o', forLoop a b (fun o i => do
        let v ← get o i
        o.writeFull i v) o = some o' ∧
      o'.fullArray.Stores 0 (l.take b) ∧ Writes (span a (b - a)) o o' := by
  refine forLoop_invariant (fun i o' => o'.fullArray.Stores 0 (l.take i) ∧ Writes (span a (i - a)) o o') order
    ⟨before, .refl _ o⟩ ?_
  rintro i o₁ lower upper ⟨stored, writes⟩
  have inside : i < l.length := by omega
  obtain ⟨o₂, run, next, last⟩ := push_spec (ready.writes writes) inside stored
  refine ⟨o₂, ?_, next, ?_⟩
  · simp only [values i inside o₁ lower upper writes, Option.bind_eq_bind, Option.bind_some, run]
  · refine (writes.mono (span_mono le_rfl (by omega))).trans (last.mono ?_)
    rintro _ rfl
    rw [mem_span]
    omega

/-- A loop that stores all terms. -/
theorem fill_all (get : OptPedigree S → ℕ → Option Word) (ready : Ready o l.length) (length : o.length = l.length)
    (values : ∀ i (inside : i < l.length) o', Writes (span 0 i) o o' → get o' i = some l[i]) :
    ∃ o', forLoop 0 l.length (fun o i => do
        let v ← get o i
        o.writeFull i v) o = some o' ∧ Represents o' l := by
  obtain ⟨o', run, stored, writes⟩ := fill_spec get ready (Nat.zero_le _) (Nat.le_refl _) (stores_nil _ 0)
    fun i inside o' _ _ writes => values i inside o' (by rwa [Nat.sub_zero] at writes)
  rw [List.take_length] at stored
  exact ⟨o', run, { ready.writes writes with length := writes.length.trans length, stored := stored }⟩

/-! ### Constructors and assignment -/

theorem spans_raw (n : ℕ) : (raw n : Buffer ℕ Word).Spans 0 n := by
  intro i member
  rw [mem_span] at member
  exact decide_eq_true (by omega)

theorem empty_represents : Represents (empty : OptPedigree S) [] where
  static := by simp [empty, isStatic]
  fits := Nat.zero_le _
  spans := spans_raw S
  own := spans_raw S
  length := rfl
  stored := stores_nil _ 0

theorem emptyFor_ready (n : ℕ) : Ready (emptyFor n : OptPedigree S) n := by
  by_cases large : S < n
  · have heap : (emptyFor n : OptPedigree S) = ⟨n, raw S, .heap n (raw n)⟩ := by rw [emptyFor, if_pos large, malloc]
    rw [heap]
    exact ⟨by simp [isStatic, large], Nat.le_refl n, spans_raw n, spans_raw S⟩
  · have static : (emptyFor n : OptPedigree S) = ⟨n, raw S, .static⟩ := by rw [emptyFor, if_neg large]
    rw [static]
    exact ⟨by simp [isStatic, Nat.not_lt.mp large], Nat.not_lt.mp large, spans_raw S, spans_raw S⟩

/-- Terms in root-first order are reversed. -/
def reversedIf (isReversed : Bool) (buffer : List Word) : List Word := if isReversed then buffer else buffer.reverse

theorem ofBuffer_spec (buffer : List Word) (isReversed : Bool) :
    ∃ o : OptPedigree S, ofBuffer buffer isReversed = some o ∧ Represents o (reversedIf isReversed buffer) := by
  have length : (reversedIf isReversed buffer).length = buffer.length := by cases isReversed <;> simp [reversedIf]
  obtain ⟨o, run, represents⟩ := fill_all (l := reversedIf isReversed buffer)
    (fun _ i => buffer[if isReversed then i else buffer.length - 1 - i]?) (length ▸ emptyFor_ready buffer.length)
    (by rw [length]; rfl) (by
      intro i inside o' _
      rw [length] at inside
      cases isReversed with
      | true => simp [reversedIf]
      | false => simp [reversedIf])
  rw [length] at run
  exact ⟨o, run, represents⟩

theorem Represents.readFull {i : ℕ} (represents : Represents o l) (inside : i < l.length) :
    o.readFull i = some l[i] := by
  have fits := represents.fits
  have spans : o.fullArray.Spans 0 l.length := represents.spans.sub (Nat.le_refl 0) (by omega)
  have value := represents.stored.read_at spans inside
  rwa [Nat.zero_add] at value

theorem copyOf_spec (represents : Represents o l) : ∃ o', copyOf o = some o' ∧ Represents o' l := by
  have asserted : ¬ (S < o.length ∧ o.isStatic = true) := by
    rw [represents.static, represents.length, decide_eq_true_eq]
    omega
  obtain ⟨o', run, result⟩ := fill_all (fun _ i => o.readFull i) (emptyFor_ready (S := S) l.length) rfl
    fun i inside _ _ => represents.readFull inside
  refine ⟨o', ?_, result⟩
  rw [copyOf, if_neg asserted, represents.length]
  exact run

theorem clear_represents (own : o.revPed.Spans 0 S) : Represents o.clear [] where
  static := by simp [clear, isStatic]
  fits := Nat.zero_le _
  spans := own
  own := own
  length := rfl
  stored := stores_nil _ 0

theorem Ready.setLength (ready : Ready o n) (length : ℕ) : Ready (S := S) { o with length := length } n :=
  ⟨ready.static, ready.fits, ready.spans, ready.own⟩

theorem static_full (static : o.isStatic = true) : o.revPedFull = .static := by
  obtain ⟨length, revPed, full⟩ := o
  cases full with
  | static => rfl
  | heap capacity array => cases static

/-- All cases of the assignment operator end with an array that fits the new terms. -/
theorem makeSpace_ready (represents : Represents o l) (n : ℕ) : ∃ o', o.makeSpace n = some o' ∧ Ready o' n := by
  have length := represents.length
  have static := represents.static
  have own := represents.own
  rw [makeSpace]
  by_cases short : n ≤ S
  · rw [if_pos short]
    exact ⟨_, rfl, by simp [short, clear, isStatic], short, own, own⟩
  rw [if_neg short]
  by_cases reuse : n ≤ o.length
  · have heap : o.isStatic = false := by
      rw [static, ← length]
      exact decide_eq_false (by omega)
    have fits := represents.fits
    rw [if_pos reuse, heap]
    exact ⟨o, rfl, by rw [heap, decide_eq_false short], by omega, represents.spans, own⟩
  rw [if_neg reuse]
  obtain ⟨m, revPed, full⟩ := o
  rw [← length] at static
  cases full with
  | static =>
    have small : m ≤ S := of_decide_eq_true static.symm
    exact ⟨_, if_pos small, by simp [malloc, isStatic, short], Nat.le_refl n, spans_raw n, own⟩
  | heap capacity array =>
    have large : S < m := Nat.not_le.mp (of_decide_eq_false static.symm)
    refine ⟨_, if_pos large, by simp [realloc, isStatic, short], Nat.le_refl n, fun i member => ?_, own⟩
    have bound : i < 0 + n := member.2
    exact decide_eq_true (by omega)

/-- In a self-assignment the array stays the same. -/
theorem makeSpace_self (represents : Represents o l) :
    ∃ o', o.makeSpace o.length = some o' ∧ Ready o' l.length ∧ o'.fullArray = o.fullArray := by
  obtain ⟨o', run, ready⟩ := makeSpace_ready represents o.length
  refine ⟨o', run, represents.length ▸ ready, ?_⟩
  rw [makeSpace] at run
  by_cases short : o.length ≤ S
  · have static : o.isStatic = true := by
      rw [represents.static, ← represents.length]
      exact decide_eq_true short
    rw [if_pos short] at run
    cases run
    rw [fullArray, fullArray, static_full static]
    rfl
  · have heap : o.isStatic = false := by
      rw [represents.static, ← represents.length]
      exact decide_eq_false short
    rw [if_neg short, if_pos (Nat.le_refl _), heap] at run
    cases run
    rfl

theorem assign_spec {ped : OptPedigree S} {m : List Word} (represents : Represents o l) (source : Represents ped m) :
    ∃ o', o.assign (some ped) = some o' ∧ Represents o' m := by
  obtain ⟨o₁, space, ready⟩ := makeSpace_ready represents m.length
  obtain ⟨o', run, result⟩ := fill_all (fun _ i => ped.readFull i) (ready.setLength m.length) rfl
    fun i inside _ _ => source.readFull inside
  refine ⟨o', ?_, result⟩
  simp only [assign, Option.getD_some, source.length, space, Option.bind_eq_bind, Option.bind_some]
  exact run

theorem assign_self (represents : Represents o l) : ∃ o', o.assign none = some o' ∧ Represents o' l := by
  obtain ⟨o₁, space, ready, same⟩ := makeSpace_self represents
  obtain ⟨o', run, result⟩ := fill_all (fun o i => o.readFull i) (ready.setLength l.length) rfl (by
    intro i inside o₂ writes
    -- The cells from `i` on have not been written yet.
    have cell : o₂.fullArray.cell i = some l[i] := by
      have frame := writes.changes.frame i (by rw [mem_span]; omega)
      rw [frame, show ({ o₁ with length := l.length } : OptPedigree S).fullArray = o.fullArray from same]
      simpa [inside] using represents.stored i inside
    have bounds := (ready.setLength l.length).writes writes
    have fits := bounds.fits
    rw [readFull, read_eq (bounds.spans i (mem_span.mpr (by omega))), cell])
  refine ⟨o', ?_, result⟩
  rw [represents.length] at space
  simp only [assign, Option.getD_none, represents.length, space, Option.bind_eq_bind, Option.bind_some]
  exact run

/-! ### Walks -/

/-- Walking up from `ped` to NULL or to `stop`: the nodes met and the pointer where the walk ends. -/
inductive Until (w : Worker) (stop : Option Ref) : Option Ref → List PedNode → Option Ref → Prop
  | null : Until w stop none [] none
  | met {ref} : stop = some ref → Until w stop (some ref) [] (some ref)
  | up {ref node rest last} : stop ≠ some ref → load w ref = some node →
      Until w stop (ofParent node.parent) rest last → Until w stop (some ref) (node :: rest) last

variable {w : Worker} {stop ped last : Option Ref} {vs : List PedNode}

theorem countTerms_spec (path : Until w stop ped vs last) (length : ℕ) :
    countTerms w stop length ped = some (length + vs.length, last) := by
  induction path generalizing length with
  | null => rw [countTerms]; rfl
  | met same => rw [countTerms, if_pos same]; rfl
  | @up ref node rest last other found path ih =>
    rw [countTerms, if_neg other, found]
    simp only [Option.bind_eq_bind, Option.bind_some, ih, List.length_cons]
    rw [Nat.add_assoc, Nat.add_comm 1]

theorem storeTerms_spec (path : Until w stop ped vs last) : ∀ (remaining : ℕ) {o : OptPedigree S} {l : List Word},
    o.revPed.Spans 0 S → o.revPed.Stores 0 l → o.length = l.length → l.length + remaining = S →
    ∃ revPed rest, storeTerms w stop remaining o ped =
        some ({ o with length := l.length + min remaining vs.length, revPed := revPed }, rest) ∧
      revPed.Spans 0 S ∧ revPed.Stores 0 (l ++ (vs.take remaining).map PedNode.rank) ∧
      Until w stop rest (vs.drop remaining) last := by
  induction path with
  | null =>
    intro remaining o l spans stored length _
    refine ⟨o.revPed, none, ?_, spans, by simpa using stored, by simpa using Until.null⟩
    cases remaining <;> simp [storeTerms, ← length]
  | @met ref same =>
    intro remaining o l spans stored length _
    refine ⟨o.revPed, some ref, ?_, spans, by simpa using stored, by simpa using Until.met same⟩
    cases remaining <;> simp [storeTerms, same, ← length]
  | @up ref node rest last other found path ih =>
    intro remaining o l spans stored length total
    cases remaining with
    | zero =>
      refine ⟨o.revPed, some ref, ?_, spans, by simpa using stored, Until.up other found path⟩
      simp [storeTerms, ← length]
    | succ remaining =>
      obtain ⟨revPed, run, written, changes⟩ :=
        write_spec (spans l.length (mem_span.mpr (by omega))) node.rank
      have pushed : revPed.Stores 0 (l ++ [node.rank]) :=
        stored.push (by rwa [Nat.zero_add]) (by rwa [Nat.zero_add])
      obtain ⟨revPed', rest', run', spans', stored', path'⟩ :=
        ih remaining (o := { o with length := l.length + 1, revPed := revPed }) (spans.changes changes) pushed
          (by simp) (by simp only [List.length_append, List.length_singleton]; omega)
      have size : (l ++ [node.rank]).length + min remaining rest.length =
          l.length + min (remaining + 1) (rest.length + 1) := by
        rw [List.length_append, List.length_singleton]
        omega
      refine ⟨revPed', rest', ?_, spans', ?_, path'⟩
      · rw [storeTerms, if_neg other, found, length]
        simp only [Option.bind_eq_bind, Option.bind_some, run, run', List.length_cons, size]
      · simpa using stored'

theorem storeRemainder_spec {o : OptPedigree S} {ref : Option Ref} {start : ℕ} (inside : start < vs.length)
    (ready : Ready o (vs.map PedNode.rank).length) (stored : o.fullArray.Stores 0 ((vs.map PedNode.rank).take start))
    (path : Until w stop ref (vs.drop start) last) :
    ∃ o' ref', storeRemainder w (o, ref) start = some (o', ref') ∧
      o'.fullArray.Stores 0 ((vs.map PedNode.rank).take (start + 1)) ∧ Writes {start} o o' ∧
      Until w stop ref' (vs.drop (start + 1)) last := by
  rw [List.drop_eq_getElem_cons inside] at path
  cases path with
  | @up ref node _ _ other found path =>
    obtain ⟨o', run, next, writes⟩ := push_spec ready (by simpa using inside) stored
    rw [List.getElem_map] at run
    refine ⟨o', ofParent vs[start].parent, ?_, next, writes, path⟩
    simp only [storeRemainder, found, run, Option.bind_eq_bind, Option.bind_some]

theorem Until.nil_end (path : Until w stop ped [] last) : ped = last := by
  cases path <;> rfl

/-- Terms that the static array does not fit are all moved to the heap. -/
theorem spill_spec {o : OptPedigree S} {ref : Option Ref} (own : o.revPed.Spans 0 S) (static : o.revPedFull = .static)
    (length : o.length = vs.length) (stored : o.revPed.Stores 0 ((vs.take S).map PedNode.rank))
    (path : Until w stop ref (vs.drop S) stop) :
    ∃ o', spill w stop o ref = some o' ∧ Represents o' (vs.map PedNode.rank) := by
  obtain ⟨n, revPed, full⟩ := o
  subst static length
  rw [spill]
  by_cases large : S < vs.length
  · have ready : Ready (⟨vs.length, revPed, .heap vs.length (raw vs.length)⟩ : OptPedigree S)
        (vs.map PedNode.rank).length := by
      rw [List.length_map]
      exact ⟨by simp [isStatic, large], Nat.le_refl _, spans_raw _, own⟩
    obtain ⟨moved, run, first, writes⟩ := fill_spec (fun o i => o.revPed.read i) ready (Nat.zero_le S)
      (by rw [List.length_map]; omega) (stores_nil _ 0) (by
        intro i inside o' _ upper writes
        rw [writes.other rfl, read_eq (own i (mem_span.mpr (by omega)))]
        have term := stored i (by rw [List.length_map, List.length_take]; omega)
        rw [Nat.zero_add, List.map_take, List.getElem?_take_of_lt upper, List.getElem?_eq_getElem inside] at term
        exact term)
    have loop : ∃ s, forLoop S vs.length (storeRemainder w) (moved, ref) = some s ∧
        s.1.fullArray.Stores 0 ((vs.map PedNode.rank).take vs.length) ∧ Writes Set.univ moved s.1 ∧
        Until w stop s.2 (vs.drop vs.length) stop := by
      refine forLoop_invariant (fun start (s : OptPedigree S × Option Ref) =>
        s.1.fullArray.Stores 0 ((vs.map PedNode.rank).take start) ∧ Writes Set.univ moved s.1 ∧
        Until w stop s.2 (vs.drop start) stop) large.le ⟨first, .refl _ _, path⟩ ?_
      rintro start ⟨o₁, ref₁⟩ _ inside ⟨stored₁, writes₁, path₁⟩
      obtain ⟨o₂, ref₂, run₂, stored₂, writes₂, path₂⟩ :=
        storeRemainder_spec inside ((ready.writes writes).writes writes₁) stored₁ path₁
      exact ⟨(o₂, ref₂), run₂, stored₂, writes₁.trans (writes₂.mono (Set.subset_univ _)), path₂⟩
    obtain ⟨⟨o', ref'⟩, run', stored', writes', path'⟩ := loop
    rw [List.drop_length] at path'
    rw [List.take_of_length_le (by rw [List.length_map])] at stored'
    have final : Represents o' (vs.map PedNode.rank) :=
      { (ready.writes writes).writes writes' with
        length := by rw [writes'.length, writes.length, List.length_map], stored := stored' }
    refine ⟨o', ?_, final⟩
    dsimp only
    rw [if_pos large, malloc, run, Option.bind_eq_bind, Option.bind_some, run', Option.bind_eq_bind, Option.bind_some,
      if_pos path'.nil_end.symm]
  · have all : vs.take S = vs := List.take_of_length_le (Nat.not_lt.mp large)
    rw [all] at stored
    refine ⟨_, if_neg large, ⟨?_, ?_, own, own⟩, ?_, stored⟩
    · simp [isStatic, Nat.not_lt.mp large]
    · rw [List.length_map]
      exact Nat.not_lt.mp large
    · rw [List.length_map]

/-- What both reads have in common: the terms up to `last` are stored or counted. -/
theorem storeTerms_clear (o : OptPedigree S) (own : o.revPed.Spans 0 S) (path : Until w stop (some .leaf) vs last) :
    ∃ stored : OptPedigree S × Option Ref, storeTerms w stop S o.clear (some .leaf) = some stored ∧
      countTerms w stop stored.1.length stored.2 = some (vs.length, last) ∧ stored.1.revPedFull = .static ∧
      stored.1.revPed.Spans 0 S ∧ stored.1.revPed.Stores 0 ((vs.take S).map PedNode.rank) ∧
      Until w stop stored.2 (vs.drop S) last := by
  obtain ⟨revPed, ref, run, spans, stores, path'⟩ :=
    storeTerms_spec path S (o := o.clear) own (stores_nil _ 0) rfl (Nat.zero_add S)
  refine ⟨_, run, ?_, rfl, spans, stores, path'⟩
  have total : 0 + min S vs.length + (vs.length - S) = vs.length := by omega
  rw [countTerms_spec path', List.length_drop, List.length_nil]
  simp only [total]

theorem getCurrentPedigree_spec (o : OptPedigree S) (own : o.revPed.Spans 0 S)
    (path : Until w none (some .leaf) vs none) :
    ∃ o', getCurrentPedigree o w = some o' ∧ Represents o' (vs.map PedNode.rank) := by
  obtain ⟨stored, run, counted, static, spans, stores, path'⟩ := storeTerms_clear o own path
  obtain ⟨o', spilled, represents⟩ :=
    spill_spec (o := { stored.1 with length := vs.length }) spans static rfl stores path'
  refine ⟨o', ?_, represents⟩
  simp only [getCurrentPedigree, run, counted, spilled, Option.bind_eq_bind, Option.bind_some]

end OptPedigree

end CilkArtifact.Pedigree
