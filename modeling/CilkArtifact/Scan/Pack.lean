import CilkArtifact.Scan.ParallelScan

/-! `pack` of `scan.h` for elements of an unsigned integer type of `w` bits. The counts are
`size_t`, but they are added by `std::plus<T>`, which converts to the element type. -/
namespace CilkArtifact.Scan
open Memory
variable {w : ℕ}

/-- `std::plus<T>` applied to `size_t` operands, for a `T` of `w` bits. -/
def plus (w x y : ℕ) : ℕ := (x % 2 ^ w + y % 2 ^ w) % 2 ^ w

section Functors
variable (a : ℕ → BitVec w) (p : BitVec w → Bool)

def packReduce (i m : ℕ) : ℕ :=
  (List.range' i m).foldl (fun sum j => if p (a j) then sum + 1 else sum) 0

/-- The output array, and the variable that `m_result` points to, unset until a tile stores it. -/
structure PackState (w : ℕ) where
  b : Memory (BitVec w)
  result : Option ℕ

def packScanLoop : List ℕ → Memory (BitVec w) → ℕ → Option (Memory (BitVec w) × ℕ)
  | [], b, outputIdx => some (b, outputIdx)
  | j :: rest, b, outputIdx =>
    if p (a j) then do
      let b ← b.store outputIdx (a j)
      packScanLoop rest b (outputIdx + 1)
    else packScanLoop rest b outputIdx

def packScan (n s m outputIdx : ℕ) (state : PackState w) : Option (PackState w) := do
  let (b, outputIdx) ← packScanLoop a p (List.range' s m) state.b outputIdx
  some ⟨b, if s + m = n then some outputIdx else state.result⟩

/-- The calls `parallel_scan` makes on the functors of `pack`; `uproot` is the default no-op. -/
def packEvent (n : ℕ) (state : PackState w) : Event ℕ → Option (PackState w)
  | .uproot _ => some state
  | .scan s m outputIdx => packScan a p n s m outputIdx state

def pack (tilesize n : ℕ) (b : Memory (BitVec w)) : Option (PackState w) := do
  let calls ← parallelScan (packReduce a p) (plus w) n 0 tilesize
  calls.foldlM (packEvent a p n) ⟨b, none⟩

/-- The elements of `a[s..e)` that satisfy the predicate, in order. -/
def kept (s e : ℕ) : List (BitVec w) := ((List.range' s (e - s)).map a).filter p

end Functors

variable {a : ℕ → BitVec w} {p : BitVec w → Bool} {b : Memory (BitVec w)}

theorem kept_append {s m e : ℕ} (h₁ : s ≤ m) (h₂ : m ≤ e) : kept a p s m ++ kept a p m e = kept a p s e := by
  rw [kept, kept, kept, ← List.filter_append, ← List.map_append]
  have whole : List.range' s (m - s) ++ List.range' (s + (m - s)) (e - m) = List.range' s (e - s) := by
    rw [List.range'_append_1, show m - s + (e - m) = e - s by omega]
  rw [Nat.add_sub_cancel' h₁] at whole
  rw [whole]

theorem packReduce_eq (i m : ℕ) : packReduce a p i m = (kept a p i (i + m)).length := by
  have count (js : List ℕ) (sum : ℕ) : js.foldl (fun sum j => if p (a j) then sum + 1 else sum) sum =
      sum + ((js.map a).filter p).length := by
    induction js generalizing sum with
    | nil => rfl
    | cons j rest ih =>
      rw [List.foldl_cons, ih, List.map_cons]
      by_cases satisfied : p (a j)
      · rw [if_pos satisfied, List.filter_cons_of_pos satisfied, List.length_cons]
        omega
      · rw [if_neg satisfied, List.filter_cons_of_neg satisfied]
  rw [packReduce, count, kept, zero_add, Nat.add_sub_cancel_left]

/-- One tile: the kept elements go to consecutive cells from the given index on. -/
theorem packScanLoop_spec (js : List ℕ) : ∀ (b : Memory (BitVec w)) (idx : ℕ),
    b.MappedOn (Set.Ico idx (idx + ((js.map a).filter p).length)) →
    ∃ b', packScanLoop a p js b idx = some (b', idx + ((js.map a).filter p).length) ∧
      Changes (Set.Ico idx (idx + ((js.map a).filter p).length)) b b' ∧
      b'.slice idx ((js.map a).filter p).length = (js.map a).filter p := by
  induction js with
  | nil =>
    intro b idx mapped
    exact ⟨b, rfl, Changes.refl _ b, rfl⟩
  | cons j rest ih =>
    intro b idx mapped
    rw [packScanLoop, List.map_cons] at *
    by_cases satisfied : p (a j)
    · rw [List.filter_cons_of_pos satisfied, List.length_cons] at *
      have mappedHere := mapped idx ⟨le_rfl, by omega⟩
      obtain ⟨b', run, changes, filled⟩ := ih (b.write idx (a j)) (idx + 1)
        (fun address inside => mapped address ⟨by have := inside.1; omega, by have := inside.2; omega⟩)
      refine ⟨b', ?_, ?_, ?_⟩
      · rw [if_pos satisfied, store_mapped mappedHere, Option.bind_eq_bind, Option.bind_some, run,
          Nat.add_right_comm, Nat.add_assoc]
      · have inside : (idx : ℤ) ∈ Set.Ico (idx : ℤ) (idx + ((rest.map a).filter p).length + 1 : ℕ) :=
          ⟨le_rfl, by omega⟩
        exact (Changes.write inside).trans (changes.mono (Set.Ico_subset_Ico (by omega) (by omega)))
      · have head : b'.val idx = a j := by
          rw [changes.val fun inside => by have := inside.1; omega, val_write_same]
        rw [slice_cons, head]
        exact congrArg _ filled
    · rw [List.filter_cons_of_neg satisfied] at *
      rw [if_neg satisfied]
      exact ih b idx mapped

/-! ### Offsets of the tiles -/

instance (w : ℕ) : Std.Associative (plus w) := by
  constructor
  intro x y z
  simp only [plus, Nat.mod_mod, Nat.add_mod_mod, Nat.mod_add_mod, Nat.add_assoc]

/-- The index from which tile `t` stores its elements. -/
def offset (a : ℕ → BitVec w) (p : BitVec w → Bool) (n tilesize t : ℕ) : ℕ :=
  carried (plus w) (tileValue (packReduce a p) n tilesize) 0 0 t

section Tiled
variable {n tilesize m : ℕ} (tiling : Tiling n tilesize m)
include tiling

theorem tileValue_packReduce {t : ℕ} (inside : t ≤ m) :
    tileValue (packReduce a p) n tilesize t = (kept a p (cut n tilesize t) (cut n tilesize (t + 1))).length := by
  have step := tiling.cut_lt inside
  rw [tiling.cut_inner inside] at step ⊢
  rw [tileValue, packReduce_eq, Nat.add_sub_cancel' step.le]

theorem fold_plus_mod {t : ℕ} (some : 0 < t) (bound : t ≤ m + 1) :
    foldSegment (plus w) (tileValue (packReduce a p) n tilesize) 0 t % 2 ^ w =
      (kept a p 0 (cut n tilesize t)).length % 2 ^ w := by
  induction t, some using Nat.le_induction with
  | base => rw [foldSegment_single, tileValue_packReduce tiling (Nat.zero_le m), cut_zero]
  | succ t reached ih =>
    have step := tiling.cut_lt (show t ≤ m by omega)
    rw [foldSegment_succ reached, plus, Nat.mod_mod, ih (by omega),
      tileValue_packReduce tiling (by omega), ← Nat.add_mod, ← List.length_append,
      kept_append (Nat.zero_le _) step.le]

/-- Every offset but the first has been converted to the element type. -/
theorem offset_eq {t : ℕ} (bound : t ≤ m) : offset a p n tilesize t =
    if t = 0 then 0 else (kept a p 0 (cut n tilesize t)).length % 2 ^ w := by
  rw [offset, carried]
  by_cases first : t = 0
  · rw [if_pos first, if_pos first]
  · rw [if_neg first, if_neg first, plus, fold_plus_mod tiling (by omega) (by omega), Nat.zero_mod,
      Nat.zero_add, Nat.mod_mod]

theorem offset_le {t : ℕ} (bound : t ≤ m) :
    offset a p n tilesize t ≤ (kept a p 0 (cut n tilesize t)).length := by
  rw [offset_eq tiling bound]
  split
  · exact Nat.zero_le _
  · exact Nat.mod_le _ _

/-- One tile: its elements go to the cells from its offset on, and the last tile stores the result. -/
theorem packScan_tile {t : ℕ} (bound : t ≤ m) (state : PackState w)
    (mapped : state.b.MappedOn (Set.Ico 0 (kept a p 0 n).length)) :
    let here := (kept a p (cut n tilesize t) (cut n tilesize (t + 1)))
    ∃ after, packScan a p n (t * tilesize) (cut n tilesize (t + 1) - t * tilesize)
        (offset a p n tilesize t) state = some after ∧
      Changes (Set.Ico (offset a p n tilesize t : ℤ) (offset a p n tilesize t + here.length))
        state.b after.b ∧
      after.b.slice (offset a p n tilesize t) here.length = here ∧
      (t = m → after.result = some (offset a p n tilesize t + here.length)) := by
  intro here
  have step := tiling.cut_lt bound
  have total : (kept a p 0 (cut n tilesize t)).length + here.length +
      (kept a p (cut n tilesize (t + 1)) n).length = (kept a p 0 n).length := by
    rw [← List.length_append, kept_append (Nat.zero_le _) step.le, ← List.length_append,
      kept_append (Nat.zero_le _) (cut_le n tilesize (t + 1))]
  have low := offset_le (a := a) (p := p) tiling bound
  have elements : ((List.range' (t * tilesize) (cut n tilesize (t + 1) - t * tilesize)).map a).filter p =
      here := by
    simp only [here, kept, tiling.cut_inner bound]
  have loop := packScanLoop_spec (a := a) (p := p)
    (List.range' (t * tilesize) (cut n tilesize (t + 1) - t * tilesize)) state.b (offset a p n tilesize t)
  rw [elements] at loop
  obtain ⟨b', run, changes, filled⟩ := loop (mapped.mono (Set.Ico_subset_Ico (by omega) (by omega)))
  have ends : t * tilesize + (cut n tilesize (t + 1) - t * tilesize) = cut n tilesize (t + 1) := by
    rw [tiling.cut_inner bound] at step
    exact Nat.add_sub_cancel' step.le
  let result := if cut n tilesize (t + 1) = n then some (offset a p n tilesize t + here.length)
    else state.result
  refine ⟨⟨b', result⟩, ?_, changes, filled, ?_⟩
  · simp only [packScan, run, Option.bind_eq_bind, Option.bind_some, ends, result]
  · rintro rfl
    exact if_pos tiling.cut_last

/-- The first `t` tiles of a run. -/
theorem tileScans_run (mapped : b.MappedOn (Set.Ico 0 (kept a p 0 n).length)) (t : ℕ) (bound : t ≤ m + 1) :
    ∃ state, (tileScans (plus w) (tileValue (packReduce a p) n tilesize) n tilesize t 0).foldlM
        (packEvent a p n) ⟨b, none⟩ = some state ∧
      Changes (Set.Ico 0 (kept a p 0 (cut n tilesize t)).length) b state.b ∧
      ((∀ s < t, offset a p n tilesize s = (kept a p 0 (cut n tilesize s)).length) →
        state.b.slice 0 (kept a p 0 (cut n tilesize t)).length = kept a p 0 (cut n tilesize t)) ∧
      (t = m + 1 → state.result =
        some (offset a p n tilesize m + (kept a p (cut n tilesize m) n).length)) := by
  induction t with
  | zero =>
    refine ⟨⟨b, none⟩, rfl, Changes.refl _ b, ?_, fun impossible => by omega⟩
    intro _
    rw [cut_zero]
    rfl
  | succ t ih =>
    obtain ⟨state, run, changes, filled, -⟩ := ih (by omega)
    have step := tiling.cut_lt (show t ≤ m by omega)
    have joined := kept_append (a := a) (p := p) (Nat.zero_le _) step.le
    have within : (kept a p 0 (cut n tilesize (t + 1))).length ≤ (kept a p 0 n).length := by
      rw [← kept_append (Nat.zero_le _) (cut_le n tilesize (t + 1)), List.length_append]
      exact Nat.le_add_right _ _
    have sizes := congrArg List.length joined
    rw [List.length_append] at sizes
    have low := offset_le (a := a) (p := p) tiling (show t ≤ m by omega)
    obtain ⟨after, tile, changes', filled', result⟩ := packScan_tile tiling (show t ≤ m by omega) state
      (mapped.changes changes)
    refine ⟨after, ?_, ?_, ?_, ?_⟩
    · rw [tileScans, List.range_succ, List.map_append, List.foldlM_append, ← tileScans, run]
      exact (bind_pure _).trans tile
    · exact (changes.mono (Set.Ico_subset_Ico_right (by omega))).trans
        (changes'.mono (Set.Ico_subset_Ico (by omega) (by omega)))
    · intro exact_offsets
      have start := exact_offsets t (Nat.lt_succ_self t)
      have before := filled fun s less => exact_offsets s (by omega)
      rw [start] at changes' filled'
      rw [← sizes, slice_add, zero_add, filled', ← joined]
      have same : after.b.slice 0 (kept a p 0 (cut n tilesize t)).length =
          state.b.slice 0 (kept a p 0 (cut n tilesize t)).length :=
        slice_congr fun i small => changes'.val fun inside => by
          have := inside.1
          omega
      rw [same, before]
    · intro final
      obtain rfl : t = m := by omega
      rw [result rfl, tiling.cut_last]

end Tiled

/-- What `pack` should leave: the kept elements at the start of `b`, every other cell as it was, and
their number as the result. -/
structure Packed (a : ℕ → BitVec w) (p : BitVec w → Bool) (n : ℕ) (b : Memory (BitVec w))
    (state : PackState w) : Prop where
  result : state.result = some (kept a p 0 n).length
  contents : state.b.slice 0 (kept a p 0 n).length = kept a p 0 n
  others : ∀ address : ℤ, address < 0 ∨ (kept a p 0 n).length ≤ address →
    state.b.cells address = b.cells address

/-- A run over at least one element returns the count of the last tile on top of its offset. -/
theorem pack_run {n tilesize m : ℕ} (tiling : Tiling n tilesize m)
    (mapped : b.MappedOn (Set.Ico 0 (kept a p 0 n).length)) :
    ∃ state, pack a p tilesize n b = some state ∧
      Changes (Set.Ico 0 (kept a p 0 n).length) b state.b ∧
      ((∀ t ≤ m, offset a p n tilesize t = (kept a p 0 (cut n tilesize t)).length) →
        state.b.slice 0 (kept a p 0 n).length = kept a p 0 n) ∧
      state.result = some (offset a p n tilesize m + (kept a p (m * tilesize) n).length) := by
  obtain ⟨state, run, changes, filled, result⟩ := tileScans_run tiling mapped (m + 1) le_rfl
  rw [tiling.cut_last] at changes filled
  rw [tiling.cut_inner le_rfl] at result
  refine ⟨state, ?_, changes, fun exact_offsets => filled fun t h => exact_offsets t (by omega), result rfl⟩
  rw [pack, (parallelScan_tiles (packReduce a p) (plus w) tiling 0).1]
  exact run

theorem pack_empty (tilesize : ℕ) : pack a p tilesize 0 b = some ⟨b, none⟩ := rfl

/-- `pack` does its work exactly if there is an element at all, and the number of kept elements before
the last tile is still a value of the element type unless there is only one tile. -/
theorem pack_packed_iff (a : ℕ → BitVec w) (p : BitVec w → Bool) (tilesize n : ℕ) (b : Memory (BitVec w))
    (positive : 1 ≤ tilesize) (mapped : b.MappedOn (Set.Ico 0 (kept a p 0 n).length)) :
    (∃ state, pack a p tilesize n b = some state ∧ Packed a p n b state) ↔
      n ≠ 0 ∧ (n ≤ tilesize ∨ (kept a p 0 ((n - 1) / tilesize * tilesize)).length < 2 ^ w) := by
  by_cases empty : n = 0
  · subst empty
    constructor
    · rintro ⟨state, run, packed⟩
      have result := packed.result
      obtain rfl : ⟨b, none⟩ = state := Option.some.inj ((pack_empty tilesize).symm.trans run)
      cases result
    · exact fun holds => absurd rfl holds.1
  · obtain ⟨m, tiling⟩ := Tiling.of_count positive (Nat.pos_of_ne_zero empty)
    have several (h : m ≠ 0) : tilesize < n :=
      (Nat.le_mul_of_pos_left tilesize (Nat.pos_of_ne_zero h)).trans_lt tiling.lower
    obtain ⟨state, run, changes, filled, result⟩ := pack_run tiling mapped
    have total : (kept a p 0 (m * tilesize)).length + (kept a p (m * tilesize) n).length =
        (kept a p 0 n).length := by
      rw [← List.length_append, kept_append (Nat.zero_le _) tiling.lower.le]
    rw [tiling.count]
    constructor
    · rintro ⟨state', run', packed⟩
      obtain rfl : state = state' := Option.some.inj (run.symm.trans run')
      refine ⟨empty, ?_⟩
      have counted := Option.some.inj (result.symm.trans packed.result)
      have start : offset a p n tilesize m = (kept a p 0 (m * tilesize)).length := by omega
      rw [offset_eq tiling le_rfl, tiling.cut_inner le_rfl] at start
      by_cases single : m = 0
      · left
        have upper := tiling.upper
        rwa [single, zero_add, one_mul] at upper
      · right
        rw [if_neg single] at start
        rw [← start]
        exact Nat.mod_lt _ (Nat.two_pow_pos w)
    · rintro ⟨-, fits⟩
      have exact_offsets (t : ℕ) (h : t ≤ m) :
          offset a p n tilesize t = (kept a p 0 (cut n tilesize t)).length := by
        rw [offset_eq tiling h]
        by_cases first : t = 0
        · rw [if_pos first, first, cut_zero]
          rfl
        · have small := fits.resolve_left (not_le.mpr (several (by omega)))
          have before : (kept a p 0 (t * tilesize)).length ≤ (kept a p 0 (m * tilesize)).length := by
            rw [← kept_append (Nat.zero_le _) (Nat.mul_le_mul_right tilesize h), List.length_append]
            exact Nat.le_add_right _ _
          rw [if_neg first, tiling.cut_inner h, Nat.mod_eq_of_lt (before.trans_lt small)]
      have start := exact_offsets m le_rfl
      rw [tiling.cut_inner le_rfl] at start
      refine ⟨state, run, ?_, filled exact_offsets, ?_⟩
      · rw [result, start, total]
      · intro address outside
        apply changes.frame
        rintro ⟨lower, upper⟩
        omega

/-- The condition is met by three bytes in tiles of two. -/
theorem pack_packed_bytes :
    let a : ℕ → BitVec 8 := fun j => BitVec.ofNat 8 j
    let b : Memory (BitVec 8) := ⟨fun _ => ⟨0, 0⟩, fun address => decide (0 ≤ address ∧ address < 3)⟩
    (∃ state, pack a (fun _ => true) 2 3 b = some state ∧ Packed a (fun _ => true) 3 b state) ↔
      3 ≠ 0 ∧ (3 ≤ 2 ∨ (kept a (fun _ => true) 0 ((3 - 1) / 2 * 2)).length < 2 ^ 8) := by
  intro a b
  refine pack_packed_iff a (fun _ => true) 2 3 b (by decide) fun address inside => ?_
  exact decide_eq_true ⟨inside.1, inside.2⟩

/-- With 257 bytes in tiles of 256, all kept, the second tile stores at index 0 and the result is 1;
with no element at all the result is never set. -/
theorem pack_wraps :
    let b : Memory (BitVec 8) := ⟨fun _ => ⟨0, 0⟩, fun address => decide (0 ≤ address ∧ address < 257)⟩
    (¬ ∃ state, pack (fun _ => 0) (fun _ => true) 256 257 b = some state ∧
      Packed (fun _ => 0) (fun _ => true) 257 b state) ∧
    ¬ ∃ state, pack (fun _ => 0) (fun _ => true) 256 0 b = some state ∧
      Packed (fun _ => 0) (fun _ => true) 0 b state := by
  intro b
  have count (s e : ℕ) : (kept (fun _ => (0 : BitVec 8)) (fun _ => true) s e).length = e - s := by
    simp [kept]
  have tiling : Tiling 257 256 1 := ⟨by decide, by decide, by decide, by decide⟩
  constructor
  · rintro ⟨state, run, packed⟩
    have mapped : b.MappedOn (Set.Ico 0 (kept (fun _ => (0 : BitVec 8)) (fun _ => true) 0 257).length) := by
      rw [count]
      exact fun address inside => decide_eq_true inside
    obtain ⟨state', run', -, -, result⟩ := pack_run tiling mapped
    obtain rfl : state = state' := Option.some.inj (run.symm.trans run')
    have wrong := result.symm.trans packed.result
    rw [offset_eq tiling le_rfl, tiling.cut_inner le_rfl, count, count, count] at wrong
    exact absurd wrong (by decide)
  · rintro ⟨state, run, packed⟩
    have result := packed.result
    obtain rfl : ⟨b, none⟩ = state := Option.some.inj ((pack_empty 256).symm.trans run)
    cases result

end CilkArtifact.Scan
