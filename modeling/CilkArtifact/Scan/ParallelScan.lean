import CilkArtifact.Library.Memory
import CilkArtifact.Library.Segment

/-! `parallel_scan` of `scan.h` and its C macro version. A run is the list of calls
it makes to the caller's `scan` and `uproot`, in serial order; `reduce` and `combine`
are pure. `size_t` is `ℕ` here: the temporary array has one cell for every tile, so no
tile count comes near the word size. -/
/-- The temporary array of the scan. A function that calls itself is applied to it with `|>.`. -/
abbrev CilkArtifact.Scan (T : Type) := Memory (Option T)

namespace CilkArtifact.Scan
open Memory
variable {T : Type}

inductive Event (T : Type) where
  | uproot (value : T)
  | scan (start size : ℕ) (initial : T)
deriving DecidableEq, Repr

/-- `scan_temp_space`: cells `0 … size - 1`, none of them assigned yet. -/
def scanTempSpace (T : Type) (size : ℕ) : Memory (Option T) :=
  ⟨fun _ => ⟨none, 0⟩, fun a => decide (0 ≤ a ∧ a < size)⟩

/-- Reading a cell that was never assigned is a failure too. -/
def read (r : Memory (Option T)) (a : ℤ) : Option T := (r.load a).join

/-- `leftact% f a b` is `f a b`, with no record of where in the file the call stands. -/
def intLog2SplitLoop (m k : ℕ) : Option ℕ :=
  if 2 * k < m then leftact% intLog2SplitLoop m (k * 2) else some k
partial_fixpoint

def intLog2Split (m : ℕ) : Option ℕ := intLog2SplitLoop m 1

section Sweeps
variable (reduce : ℕ → ℕ → T) (combine : T → T → T)

def upsweep (i m tilesize : ℕ) (r : Scan T) (p : ℤ) (lastsize : ℕ) : Option (Scan T) :=
  if m = 1 then r.store p (some (reduce (i * tilesize) lastsize))
  else do
    let k ← intLog2Split m
    let r ← r |>.upsweep i k tilesize p tilesize
    let r ← r |>.upsweep (i + k) (m - k) tilesize (p + k) lastsize
    if m = 2 * k then do
      let left ← read r (p + k - 1)
      let right ← read r (p + m - 1)
      r.store (p + m - 1) (some (combine left right))
    else some r
partial_fixpoint

def downsweep (i m tilesize : ℕ) (r : Scan T) (p : ℤ) (lastsize : ℕ) (initial : T) :
    Option (List (Event T)) :=
  if m = 1 then some [.scan (i * tilesize) lastsize initial]
  else do
    let k ← intLog2Split m
    let first ← r |>.downsweep i k tilesize p tilesize initial
    let left ← read r (p + k - 1)
    let second ← r |>.downsweep (i + k) (m - k) tilesize (p + k) lastsize (combine initial left)
    some (first ++ second)
partial_fixpoint

/-- The loop `while( (k&=k-1) ) t = combine(r[k-1],t)`. -/
def rootLoop (r : Scan T) (k : ℕ) (t : T) : Option T :=
  if k &&& (k - 1) ≠ 0 then do
    let left ← read r (((k &&& (k - 1) : ℕ) : ℤ) - 1)
    r |>.rootLoop (k &&& (k - 1)) (combine left t)
  else some t
partial_fixpoint

def parallelScan (n : ℕ) (initial : T) (tilesize : ℕ) : Option (List (Event T)) :=
  if n > 0 then do
    let m := (n - 1) / tilesize
    let r ← upsweep reduce combine 0 (m + 1) tilesize (scanTempSpace T (m + 1)) 0 (n - m * tilesize)
    let t ← read r m
    let t ← rootLoop combine r (m + 1) t
    let scans ← downsweep combine 0 (m + 1) tilesize r 0 (n - m * tilesize) initial
    some (.uproot (combine initial t) :: scans)
  else some [.uproot initial]

/-- `CILKPUB_C_UPSWEEP`, the text of `upsweep` as a macro. -/
def cUpsweep := @upsweep T

/-- `CILKPUB_C_DOWNSWEEP`, the text of `downsweep` as a macro. -/
def cDownsweep := @downsweep T

/-- `CILKPUB_C_PARALLEL_SCAN` has no `uproot`. -/
def cParallelScan (n : ℕ) (initial : T) (tilesize : ℕ) : Option (List (Event T)) :=
  if n > 0 then do
    let m := (n - 1) / tilesize
    let r ← cUpsweep reduce combine 0 (m + 1) tilesize (scanTempSpace T (m + 1)) 0 (n - m * tilesize)
    cDownsweep combine 0 (m + 1) tilesize r 0 (n - m * tilesize) initial
  else some []

end Sweeps

theorem read_eq {r : Memory (Option T)} {a : ℤ} {v : T} (mapped : r.mapped a = true)
    (value : r.val a = some v) : read r a = some v := by
  rw [read, load_mapped mapped, value]
  rfl

/-! ### The split of a tile range -/

theorem intLog2SplitLoop_spec {m : ℕ} (d : ℕ) : ∀ e, m - 2 ^ e ≤ d → 2 ^ e < m →
    ∃ e', intLog2SplitLoop m (2 ^ e) = some (2 ^ e') ∧ 2 ^ e' < m ∧ m ≤ 2 * 2 ^ e' := by
  induction d with
  | zero =>
    intro e bound below
    omega
  | succ d ih =>
    intro e bound below
    have positive : 0 < 2 ^ e := Nat.two_pow_pos e
    rw [intLog2SplitLoop]
    by_cases more : 2 * 2 ^ e < m
    · rw [if_pos more, ← pow_succ]
      have double : 2 ^ (e + 1) = 2 * 2 ^ e := by rw [pow_succ, mul_comm]
      exact ih (e + 1) (by omega) (by omega)
    · rw [if_neg more]
      exact ⟨e, rfl, below, by omega⟩

/-- The greatest power of two below `m`; the second part is at most as long as the first. -/
theorem intLog2Split_spec {m : ℕ} (several : 1 < m) :
    ∃ e, intLog2Split m = some (2 ^ e) ∧ 2 ^ e < m ∧ m ≤ 2 * 2 ^ e :=
  intLog2SplitLoop_spec m 0 (by omega) several

/-! ### Tiles -/

/-- The boundary before tile `t`, and `n` from the end of the last tile on. -/
def cut (n tilesize t : ℕ) : ℕ := min (t * tilesize) n

/-- Tiles `0 … m` cover `n` elements, the last one possibly short but not empty. -/
structure Tiling (n tilesize m : ℕ) : Prop where
  count : (n - 1) / tilesize = m
  lower : m * tilesize < n
  upper : n ≤ (m + 1) * tilesize
  positive : 0 < tilesize

section Tiles
variable {n m tilesize : ℕ}

theorem Tiling.of_count (positive : 0 < tilesize) (nonempty : 0 < n) : ∃ m, Tiling n tilesize m := by
  have below := Nat.div_mul_le_self (n - 1) tilesize
  have above := Nat.lt_succ_iff.mpr (le_refl ((n - 1) / tilesize))
  rw [Nat.div_lt_iff_lt_mul positive, Nat.succ_eq_add_one] at above
  exact ⟨(n - 1) / tilesize, rfl, by omega, by omega, positive⟩

theorem cut_le (n tilesize t : ℕ) : cut n tilesize t ≤ n := min_le_right _ _

theorem cut_zero : cut n tilesize 0 = 0 := by simp [cut]

theorem Tiling.cut_inner (tiling : Tiling n tilesize m) {t : ℕ} (h : t ≤ m) :
    cut n tilesize t = t * tilesize :=
  min_eq_left ((Nat.mul_le_mul_right _ h).trans tiling.lower.le)

theorem Tiling.cut_last (tiling : Tiling n tilesize m) : cut n tilesize (m + 1) = n :=
  min_eq_right tiling.upper

theorem Tiling.cut_lt (tiling : Tiling n tilesize m) {t : ℕ} (h : t ≤ m) :
    cut n tilesize t < cut n tilesize (t + 1) := by
  have step : t * tilesize < (t + 1) * tilesize := Nat.mul_lt_mul_of_pos_right (by omega) tiling.positive
  have inside := (Nat.mul_le_mul_right tilesize h).trans_lt tiling.lower
  rw [tiling.cut_inner h]
  exact lt_min step inside

theorem Tiling.size_inner (tiling : Tiling n tilesize m) {t : ℕ} (h : t < m) :
    cut n tilesize (t + 1) - t * tilesize = tilesize := by
  rw [tiling.cut_inner h, Nat.succ_mul, Nat.add_sub_cancel_left]

theorem Tiling.number (tiling : Tiling n tilesize m) : (n + tilesize - 1) / tilesize = m + 1 := by
  have := tiling.lower
  rw [show n + tilesize - 1 = n - 1 + tilesize by omega, Nat.add_div_right _ tiling.positive,
    tiling.count]

end Tiles

/-- What `reduce` returns for tile `t`. -/
def tileValue (reduce : ℕ → ℕ → T) (n tilesize t : ℕ) : T :=
  reduce (t * tilesize) (cut n tilesize (t + 1) - t * tilesize)

/-! ### The sweeps -/

section Specs
variable {reduce : ℕ → ℕ → T} {combine : T → T → T} [laws : Std.Associative combine]
variable {tile : ℕ → T} {tilesize : ℕ}

/-- Slot `q - 1` of the array at `p` holds the tiles from `q` with its lowest bit cleared up to `q`. -/
def Slots (combine : T → T → T) (tile : ℕ → T) (r : Memory (Option T)) (p : ℤ) (i q : ℕ) : Prop :=
  r.val (p + q - 1) = some (foldSegment combine tile (i + clearLowest q) (i + q))

omit laws in
theorem Slots.shift {r : Memory (Option T)} {p : ℤ} {i e q : ℕ} (positive : 0 < q) (small : q < 2 ^ e) :
    Slots combine tile r p i (2 ^ e + q) ↔ Slots combine tile r (p + (2 ^ e : ℕ)) (i + 2 ^ e) q := by
  have address : p + ((2 ^ e + q : ℕ) : ℤ) - 1 = p + ((2 ^ e : ℕ) : ℤ) + q - 1 := by omega
  rw [Slots, Slots, clearLowest_add positive small, address, ← add_assoc, ← add_assoc]

variable (combine) in
theorem upsweep_spec (m : ℕ) : ∀ (i : ℕ) (r : Memory (Option T)) (p : ℤ) (lastsize : ℕ), 0 < m →
    (∀ t, i ≤ t → t + 1 < i + m → reduce (t * tilesize) tilesize = tile t) →
    reduce ((i + m - 1) * tilesize) lastsize = tile (i + m - 1) →
    r.MappedOn (Set.Ico p (p + m)) →
    ∃ r', upsweep reduce combine i m tilesize r p lastsize = some r' ∧
      Changes (Set.Ico p (p + m)) r r' ∧ ∀ q, 0 < q → q ≤ m → Slots combine tile r' p i q := by
  induction m using Nat.strong_induction_on with
  | _ m ih =>
    intro i r p lastsize positive inner last mapped
    rw [upsweep]
    by_cases single : m = 1
    · subst single
      rw [if_pos rfl, store_mapped (mapped p ⟨le_rfl, by omega⟩)]
      refine ⟨_, rfl, Changes.write ⟨le_rfl, by omega⟩, ?_⟩
      intro q lower upper
      obtain rfl : q = 1 := by omega
      have value : foldSegment combine tile (i + clearLowest 1) (i + 1) = tile i := foldSegment_single i
      rw [Nat.add_sub_cancel] at last
      rw [Slots, value, ← last, show p + ((1 : ℕ) : ℤ) - 1 = p by omega, val_write_same]
    · rw [if_neg single]
      obtain ⟨e, split, below, half⟩ := intLog2Split_spec (m := m) (by omega)
      have two : 0 < 2 ^ e := Nat.two_pow_pos e
      obtain ⟨r₁, run₁, changes₁, slots₁⟩ := ih (2 ^ e) below i r p tilesize two
        (fun t lower upper => inner t lower (by omega))
        (inner _ (by omega) (by omega))
        (mapped.mono (Set.Ico_subset_Ico_right (by omega)))
      have whole₁ : Changes (Set.Ico p (p + m)) r r₁ :=
        changes₁.mono (Set.Ico_subset_Ico_right (by omega))
      have mapped₁ := mapped.changes whole₁
      have rest : i + 2 ^ e + (m - 2 ^ e) = i + m := by omega
      obtain ⟨r₂, run₂, changes₂, slots₂⟩ := ih (m - 2 ^ e) (by omega) (i + 2 ^ e) r₁ (p + (2 ^ e : ℕ))
        lastsize (by omega) (fun t lower upper => inner t (by omega) (by omega))
        (by rw [rest]; exact last)
        (mapped₁.mono (Set.Ico_subset_Ico (by omega) (by omega)))
      have whole₂ : Changes (Set.Ico p (p + m)) r r₂ :=
        whole₁.trans (changes₂.mono (Set.Ico_subset_Ico (by omega) (by omega)))
      have mapped₂ := mapped.changes whole₂
      have slots (q : ℕ) (lower : 0 < q) (upper : q ≤ m) (inside : q < 2 * 2 ^ e) : Slots combine tile r₂ p i q := by
        rcases le_or_gt q (2 ^ e) with small | large
        · rw [Slots, changes₂.val fun inside => by have := inside.1; omega]
          exact slots₁ q lower small
        · have shifted := (Slots.shift (by omega) (by omega)).mpr
            (slots₂ (q - 2 ^ e) (by omega) (by omega))
          rwa [show 2 ^ e + (q - 2 ^ e) = q by omega] at shifted
      simp only [split, run₁, run₂, Option.bind_eq_bind, Option.bind_some]
      by_cases full : m = 2 * 2 ^ e
      · -- a complete subtree: its last slot gets the fold of all its tiles
        have leftSlot := slots (2 ^ e) two below.le (by omega)
        have rightSlot := slots₂ (m - 2 ^ e) (by omega) le_rfl
        rw [show m - 2 ^ e = 2 ^ e by omega] at rightSlot
        rw [Slots, clearLowest_two_pow, add_zero] at leftSlot rightSlot
        have at_end : p + ((2 ^ e : ℕ) : ℤ) + ((2 ^ e : ℕ) : ℤ) - 1 = p + (m : ℤ) - 1 := by omega
        rw [at_end] at rightSlot
        have mappedEnd := mapped₂ (p + m - 1) ⟨by omega, by omega⟩
        rw [if_pos full, read_eq (mapped₂ _ ⟨by omega, by omega⟩) leftSlot,
          read_eq mappedEnd rightSlot]
        simp only [Option.bind_some, store_mapped mappedEnd]
        refine ⟨_, rfl, whole₂.trans (Changes.write ⟨by omega, by omega⟩), ?_⟩
        intro q lower upper
        by_cases end_slot : q = m
        · have power : m = 2 ^ (e + 1) := by rw [full, pow_succ, mul_comm]
          have folded : combine (foldSegment combine tile i (i + 2 ^ e))
              (foldSegment combine tile (i + 2 ^ e) (i + 2 ^ e + 2 ^ e)) =
              foldSegment combine tile i (i + 2 ^ e + 2 ^ e) :=
            foldSegment_append (by omega) (by omega)
          rw [Slots, end_slot, val_write_same, folded, power, clearLowest_two_pow, add_zero, pow_succ,
            mul_two, add_assoc]
        · rw [Slots, val_write_other (by omega)]
          exact slots q lower upper (by omega)
      · rw [if_neg full]
        exact ⟨r₂, rfl, whole₂, fun q lower upper => slots q lower upper (by omega)⟩

/-- The value a tile is scanned with: the tiles before it are folded onto `initial`. -/
def carried (combine : T → T → T) (tile : ℕ → T) (initial : T) (i t : ℕ) : T :=
  if t = i then initial else combine initial (foldSegment combine tile i t)

/-- One `scan` call for each of the tiles `i … i + m - 1`, the last of them of size `lastsize`. -/
def scanCalls (combine : T → T → T) (tile : ℕ → T) (tilesize i m lastsize : ℕ) (initial : T) :
    List (Event T) :=
  (List.range' i m).map fun t => .scan (t * tilesize) (if t + 1 = i + m then lastsize else tilesize)
    (carried combine tile initial i t)

theorem scanCalls_append {i m k lastsize : ℕ} {initial : T} (positive : 0 < k) (below : k < m) :
    scanCalls combine tile tilesize i k tilesize initial ++
      scanCalls combine tile tilesize (i + k) (m - k) lastsize
        (combine initial (foldSegment combine tile i (i + k))) =
    scanCalls combine tile tilesize i m lastsize initial := by
  have whole : List.range' i m = List.range' i k ++ List.range' (i + k) (m - k) := by
    rw [List.range'_append_1, show k + (m - k) = m by omega]
  simp only [scanCalls, whole, List.map_append]
  congr 1
  · apply List.map_congr_left
    intro t inside
    rw [List.mem_range'_1] at inside
    rw [if_neg (show ¬ t + 1 = i + m by omega), ite_self]
  · apply List.map_congr_left
    intro t inside
    rw [List.mem_range'_1] at inside
    rw [show i + k + (m - k) = i + m by omega]
    congr 1
    rw [carried, carried, if_neg (show t ≠ i by omega)]
    by_cases first : t = i + k
    · rw [if_pos first, first]
    · rw [if_neg first, laws.assoc]
      congr 1
      exact foldSegment_append (by omega) (by omega)

theorem downsweep_spec (m : ℕ) : ∀ (i : ℕ) (r : Memory (Option T)) (p : ℤ) (lastsize : ℕ) (initial : T),
    0 < m → r.MappedOn (Set.Ico p (p + m)) → (∀ q, 0 < q → q < m → Slots combine tile r p i q) →
    downsweep combine i m tilesize r p lastsize initial =
      some (scanCalls combine tile tilesize i m lastsize initial) := by
  induction m using Nat.strong_induction_on with
  | _ m ih =>
    intro i r p lastsize initial positive mapped slots
    rw [downsweep]
    by_cases single : m = 1
    · subst single
      simp [scanCalls, carried]
    · rw [if_neg single]
      obtain ⟨e, split, below, half⟩ := intLog2Split_spec (m := m) (by omega)
      have two : 0 < 2 ^ e := Nat.two_pow_pos e
      have first := ih (2 ^ e) below i r p tilesize initial two
        (mapped.mono (Set.Ico_subset_Ico_right (by omega)))
        fun q lower upper => slots q lower (by omega)
      have middle := slots (2 ^ e) two below
      rw [Slots, clearLowest_two_pow, add_zero] at middle
      have second := ih (m - 2 ^ e) (by omega) (i + 2 ^ e) r (p + (2 ^ e : ℕ)) lastsize
        (combine initial (foldSegment combine tile i (i + 2 ^ e))) (by omega)
        (mapped.mono (Set.Ico_subset_Ico (by omega) (by omega)))
        fun q lower upper => (Slots.shift lower (by omega)).mp (slots _ (by omega) (by omega))
      simp only [split, first, read_eq (mapped _ ⟨by omega, by omega⟩) middle, second,
        Option.bind_eq_bind, Option.bind_some, scanCalls_append two below]

/-- Walking up the cleared positions collects the tiles from the first one on. -/
theorem rootLoop_spec {r : Memory (Option T)} {m : ℕ} (mapped : r.MappedOn (Set.Ico 0 m))
    (slots : ∀ q, 0 < q → q ≤ m → Slots combine tile r 0 0 q) (k : ℕ) :
    0 < k → k ≤ m → ∀ t, t = foldSegment combine tile (clearLowest k) m →
    rootLoop combine r k t = some (foldSegment combine tile 0 m) := by
  induction k using Nat.strong_induction_on with
  | _ k ih =>
    intro positive bound t value
    have less := clearLowest_lt positive
    rw [rootLoop]
    change (if clearLowest k ≠ 0 then _ else _) = _
    by_cases done : clearLowest k = 0
    · rw [if_neg (not_not.mpr done), value, done]
    · rw [if_pos done]
      have left := slots (clearLowest k) (by omega) (by omega)
      rw [Slots, zero_add, zero_add, zero_add] at left
      have mappedLeft : r.mapped ((clearLowest k : ℤ) - 1) = true := mapped _ ⟨by omega, by omega⟩
      change (read r ((clearLowest k : ℤ) - 1)).bind _ = _
      rw [read_eq mappedLeft left, Option.bind_some]
      apply ih (clearLowest k) less (by omega) (by omega)
      rw [value]
      exact foldSegment_append (clearLowest_lt (by omega)) (by omega)

/-! ### Whole scans -/

/-- The scan calls of a whole run, in terms of the reduced tiles. -/
def tileScans (combine : T → T → T) (tile : ℕ → T) (n tilesize m : ℕ) (initial : T) : List (Event T) :=
  (List.range m).map fun t => .scan (t * tilesize) (cut n tilesize (t + 1) - t * tilesize)
    (carried combine tile initial 0 t)

omit laws in
theorem scanCalls_eq_tileScans {n m : ℕ} (tiling : Tiling n tilesize m) (initial : T) :
    scanCalls combine tile tilesize 0 (m + 1) (n - m * tilesize) initial =
      tileScans combine tile n tilesize (m + 1) initial := by
  rw [scanCalls, tileScans, ← List.range_eq_range']
  apply List.map_congr_left
  intro t inside
  rw [List.mem_range] at inside
  by_cases last : t = m
  · rw [if_pos (by omega), last, tiling.cut_last]
  · rw [if_neg (by omega), tiling.size_inner (by omega)]

variable (combine) in
/-- The up-sweep of a whole scan, from an unassigned temporary array. -/
theorem upsweep_temp {n m : ℕ} (tiling : Tiling n tilesize m) :
    ∃ r, upsweep reduce combine 0 (m + 1) tilesize (scanTempSpace T (m + 1)) 0 (n - m * tilesize) =
        some r ∧ r.MappedOn (Set.Ico 0 (m + 1 : ℕ)) ∧
      ∀ q, 0 < q → q ≤ m + 1 → Slots combine (tileValue reduce n tilesize) r 0 0 q := by
  have mapped : (scanTempSpace T (m + 1)).MappedOn (Set.Ico 0 (0 + (m + 1 : ℕ))) := by
    intro a inside
    exact decide_eq_true ⟨inside.1, by have := inside.2; omega⟩
  have inner (t : ℕ) (h : t < m) : reduce (t * tilesize) tilesize = tileValue reduce n tilesize t := by
    rw [tileValue, tiling.size_inner h]
  have last : reduce (m * tilesize) (n - m * tilesize) = tileValue reduce n tilesize m := by
    rw [tileValue, tiling.cut_last]
  obtain ⟨r, run, changes, slots⟩ := upsweep_spec combine (m + 1) 0 (scanTempSpace T (m + 1)) 0
    (n - m * tilesize) (Nat.succ_pos m) (fun t _ upper => inner t (by omega))
    (by rw [Nat.zero_add, Nat.add_sub_cancel]; exact last) mapped
  rw [zero_add] at mapped
  exact ⟨r, run, mapped.changes changes, slots⟩

variable (reduce combine) in
/-- Both versions in terms of the reduced tiles, whatever `reduce` returns. -/
theorem parallelScan_tiles {n m : ℕ} (tiling : Tiling n tilesize m) (initial : T) :
    parallelScan reduce combine n initial tilesize =
      some (.uproot (combine initial (foldSegment combine (tileValue reduce n tilesize) 0 (m + 1))) ::
        tileScans combine (tileValue reduce n tilesize) n tilesize (m + 1) initial) ∧
    cParallelScan reduce combine n initial tilesize =
      some (tileScans combine (tileValue reduce n tilesize) n tilesize (m + 1) initial) := by
  obtain ⟨r, up, mapped, slots⟩ := upsweep_temp combine tiling
  have positive : n > 0 := by have := tiling.lower; omega
  have down : downsweep combine 0 (m + 1) tilesize r 0 (n - m * tilesize) initial =
      some (tileScans combine (tileValue reduce n tilesize) n tilesize (m + 1) initial) := by
    rw [← scanCalls_eq_tileScans tiling]
    exact downsweep_spec (m + 1) 0 r 0 _ initial (Nat.succ_pos m) (by rw [zero_add]; exact mapped)
      fun q lower upper => slots q lower upper.le
  have top := slots (m + 1) (Nat.succ_pos m) le_rfl
  rw [Slots, zero_add, zero_add, zero_add, show ((m + 1 : ℕ) : ℤ) - 1 = m by omega] at top
  have root := rootLoop_spec mapped slots (m + 1) (Nat.succ_pos m) le_rfl _ rfl
  constructor
  · rw [parallelScan, if_pos positive]
    simp only [tiling.count, up, down, read_eq (mapped m ⟨by omega, by omega⟩) top, root,
      Option.bind_eq_bind, Option.bind_some]
  · rw [cParallelScan, if_pos positive]
    simp only [cUpsweep, cDownsweep, tiling.count, up, down, Option.bind_eq_bind, Option.bind_some]

/-- Tiles that are folds of the elements add up to folds of the elements. -/
theorem fold_tileValue {n m : ℕ} (tiling : Tiling n tilesize m) {x : ℕ → T}
    (folds : ∀ s size, 0 < size → s + size ≤ n →
      reduce s size = foldSegment combine x s (s + size)) {t : ℕ} (some : 0 < t) (bound : t ≤ m + 1) :
    foldSegment combine (tileValue reduce n tilesize) 0 t =
      foldSegment combine x 0 (cut n tilesize t) := by
  have value (j : ℕ) (inside : j ≤ m) : tileValue reduce n tilesize j =
      foldSegment combine x (cut n tilesize j) (cut n tilesize (j + 1)) := by
    have step := tiling.cut_lt inside
    have last := cut_le n tilesize (j + 1)
    rw [tiling.cut_inner inside] at step ⊢
    rw [tileValue, folds _ _ (by omega) (by omega), Nat.add_sub_cancel' step.le]
  have blocks : foldSegment combine (fun j => foldSegment combine x (cut n tilesize j)
      (cut n tilesize (j + 1))) 0 t = foldSegment combine x (cut n tilesize 0) (cut n tilesize t) :=
    foldSegment_blocks some fun j _ upper => tiling.cut_lt (by omega)
  rw [foldSegment_congr some fun j _ upper => value j (by omega), blocks, cut_zero]

/-- Every tile is scanned once, with everything before it folded onto `initial`; `uproot` gets the
fold of everything. The C version makes the same scan calls. -/
theorem parallelScan_calls (x : ℕ → T) (n : ℕ) (initial : T) (positive : 1 ≤ tilesize)
    (folds : ∀ s size, 0 < size → s + size ≤ n →
      reduce s size = foldSegment combine x s (s + size)) :
    let value j := if j = 0 then initial else combine initial (foldSegment combine x 0 j)
    let scans := (List.range ((n + tilesize - 1) / tilesize)).map fun t =>
      Event.scan (t * tilesize) (min ((t + 1) * tilesize) n - t * tilesize) (value (t * tilesize))
    parallelScan reduce combine n initial tilesize = some (.uproot (value n) :: scans) ∧
      cParallelScan reduce combine n initial tilesize = some scans := by
  intro value scans
  by_cases empty : n = 0
  · subst empty
    have none : (0 + tilesize - 1) / tilesize = 0 := Nat.div_eq_of_lt (by omega)
    simp only [parallelScan, cParallelScan, value, scans, none, lt_irrefl, if_false, if_true,
      List.range_zero, List.map_nil, and_self]
  · obtain ⟨m, tiling⟩ := Tiling.of_count positive (Nat.pos_of_ne_zero empty)
    have same : tileScans combine (tileValue reduce n tilesize) n tilesize (m + 1) initial = scans := by
      simp only [tileScans, scans, tiling.number]
      apply List.map_congr_left
      intro t inside
      rw [List.mem_range] at inside
      have start := tiling.cut_inner (show t ≤ m by omega)
      congr 1
      by_cases first : t = 0
      · simp only [carried, value, first, Nat.zero_mul, if_true]
      · have moved : t * tilesize ≠ 0 := Nat.mul_ne_zero first (by omega)
        simp only [carried, value, if_neg first, if_neg moved,
          fold_tileValue tiling folds (Nat.pos_of_ne_zero first) (by omega), start]
    have total := fold_tileValue tiling folds (Nat.succ_pos m) le_rfl
    rw [tiling.cut_last] at total
    obtain ⟨run, runC⟩ := parallelScan_tiles reduce combine tiling initial
    rw [same, total] at run
    rw [same] at runC
    exact ⟨by simp only [run, value, if_neg empty], runC⟩

end Specs

/-- Concatenation is not commutative: five elements in tiles of two. -/
theorem parallelScan_calls_append :
    let reduce s size := foldSegment (fun a b : List ℕ => a ++ b) (fun j => [j]) s (s + size)
    let scans := [Event.scan 0 2 [9], .scan 2 2 [9, 0, 1], .scan 4 1 [9, 0, 1, 2, 3]]
    parallelScan reduce (fun a b => a ++ b) 5 [9] 2 = some (.uproot [9, 0, 1, 2, 3, 4] :: scans) ∧
      cParallelScan reduce (fun a b => a ++ b) 5 [9] 2 = some scans :=
  parallelScan_calls (fun j => [j]) 5 [9] (by decide) fun _ _ _ _ => rfl

end CilkArtifact.Scan
