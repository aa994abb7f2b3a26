import CilkArtifact.Library.Loop
import Mathlib.Data.Fintype.Pi
import Mathlib.Algebra.BigOperators.Intervals

/-! `nqueens.c`. Columns are signed 8-bit characters, the number of solutions is a 32-bit integer. The stack grows
downwards, and memory that `alloca` returns has any contents. -/
namespace CilkArtifact.Nqueens

structure Stack where
  bytes : ℤ → BitVec 8
  top : ℤ

section Definitions

def alloca (s : Stack) (size : ℕ) : ℤ × Stack := (s.top - size, { s with top := s.top - size })

/-- Undefined if the two arrays overlap. -/
def memcpy (s : Stack) (dest src : ℤ) (count : ℕ) : Option Stack :=
  if dest + count ≤ src ∨ src + count ≤ dest then
    some { s with bytes := fun x => if dest ≤ x ∧ x < dest + count then s.bytes (src + (x - dest)) else s.bytes x }
  else none

/-- `*x = c` -/
def store (s : Stack) (x : ℤ) (c : BitVec 8) : Stack := { s with bytes := Function.update s.bytes x c }

def ok (s : Stack) (n : ℕ) (a : ℤ) : Bool :=
  (List.range n).all fun i =>
    let p := s.bytes (a + i)
    (List.range' (i + 1) (n - (i + 1))).all fun j =>
      let q := s.bytes (a + j)
      !(q == p || q.toInt == p.toInt - ((j : ℤ) - i) || q.toInt == p.toInt + ((j : ℤ) - i))

/-- `(b_alloc + 31) & ~31` -/
def aligned (address : ℤ) : ℤ := (address + 31) / 32 * 32

/-- The copy of the first `j` queens, with another one in column `i`. -/
def placed (s : Stack) (j : ℕ) (a : ℤ) (i : ℕ) : Option (ℤ × Stack) := do
  let (bAlloc, s) := alloca s ((j + 1) + 31)
  let b := aligned bAlloc
  let s ← memcpy s b a j
  some (b, store s (b + j) (BitVec.ofInt 8 i))

/-- The memory that a call has allocated is free again when it returns. -/
def Stack.nqueens (s : Stack) (n j : ℕ) (a : ℤ) : Option (BitVec 32 × Stack) :=
  if n = j then some (1, s)
  else do
    let (_, frame) := alloca s (n * 4)
    let (count, frame) ← (List.range' 0 n).foldlM (fun (count, frame) i => do
      let (b, frame) ← placed frame j a i
      if ok frame (j + 1) b then do
        let (solutions, frame) ← frame |>.nqueens n (j + 1) b
        some (count.set i solutions, frame)
      else some (count, frame)) (List.replicate n (0 : BitVec 32), frame)
    some (count.foldl (fun solNum c => solNum + c) 0, { frame with top := s.top })
partial_fixpoint

export Stack (nqueens)

end Definitions

/-! ### Solutions -/

/-- Queens in rows `i < j` and in columns `p` and `q` attack each other. -/
def Attack (i j : ℕ) (p q : ℤ) : Prop := q = p ∨ q = p - ((j : ℤ) - i) ∨ q = p + ((j : ℤ) - i)

instance (i j : ℕ) (p q : ℤ) : Decidable (Attack i j p q) := by
  unfold Attack
  infer_instance

/-- No two of the queens in the first `j` rows attack each other. -/
def Peaceful (column : ℕ → ℤ) (j : ℕ) : Prop := ∀ r t, r < t → t < j → ¬ Attack r t (column r) (column t)

/-- A queen in every row, and none of them attacks another one. -/
def Solution {n : ℕ} (f : Fin n → Fin n) : Prop := ∀ i j : Fin n, i < j → ¬ Attack i j (f i) (f j)

instance {n : ℕ} (f : Fin n → Fin n) : Decidable (Solution f) := by
  unfold Solution
  infer_instance

/-- The first `j` queens are in the given columns. -/
def Extends {n : ℕ} (column : ℕ → ℤ) (j : ℕ) (f : Fin n → Fin n) : Prop :=
  ∀ r : Fin n, r.val < j → ((f r).val : ℤ) = column r

instance {n : ℕ} (column : ℕ → ℤ) (j : ℕ) (f : Fin n → Fin n) : Decidable (Extends column j f) := by
  unfold Extends
  infer_instance

def extensions (n : ℕ) (column : ℕ → ℤ) (j : ℕ) : Finset (Fin n → Fin n) :=
  Finset.univ.filter fun f => Solution f ∧ Extends column j f

variable {n j : ℕ} {column column' : ℕ → ℤ}

theorem mem_extensions {f : Fin n → Fin n} : f ∈ extensions n column j ↔ Solution f ∧ Extends column j f := by
  rw [extensions, Finset.mem_filter]
  exact and_iff_right (Finset.mem_univ f)

theorem extensions_congr (same : ∀ r < j, column r = column' r) : extensions n column j = extensions n column' j := by
  ext f
  rw [mem_extensions, mem_extensions]
  refine and_congr_right fun _ => forall_congr' fun r => forall_congr' fun bound => ?_
  rw [same r bound]

/-- Only peaceful queens have solutions. -/
theorem peaceful_of_mem {f : Fin n → Fin n} (bound : j ≤ n) (member : f ∈ extensions n column j) :
    Peaceful column j := by
  obtain ⟨solution, extend⟩ := mem_extensions.mp member
  intro r t before inside
  have attack := solution ⟨r, by omega⟩ ⟨t, by omega⟩ before
  rw [extend ⟨r, by omega⟩ (by change r < j; omega), extend ⟨t, by omega⟩ inside] at attack
  exact attack

/-- All queens are on the board. -/
theorem card_extensions_full (board : ∀ r < n, 0 ≤ column r ∧ column r < n) (peaceful : Peaceful column n) :
    (extensions n column n).card = 1 := by
  let f (r : Fin n) : Fin n := ⟨(column r).toNat, by have := board r r.isLt; omega⟩
  have value (r : Fin n) : ((f r).val : ℤ) = column r := Int.toNat_of_nonneg (board r r.isLt).1
  rw [Finset.card_eq_one]
  refine ⟨f, Finset.ext fun g => ?_⟩
  rw [mem_extensions, Finset.mem_singleton]
  constructor
  · rintro ⟨-, extend⟩
    funext r
    apply Fin.ext
    have same := extend r r.isLt
    rw [← value r] at same
    exact_mod_cast same
  · rintro rfl
    refine ⟨fun i t before => ?_, fun r _ => value r⟩
    rw [value i, value t]
    exact peaceful i t before t.isLt

/-- The next queen is in one of the columns. -/
theorem card_extensions_next (bound : j < n) : (extensions n column j).card =
    ∑ i ∈ Finset.range n, (extensions n (Function.update column j i) (j + 1)).card := by
  rw [Finset.card_eq_sum_card_fiberwise (t := Finset.range n) (f := fun g => (g ⟨j, bound⟩).val)]
  · apply Finset.sum_congr rfl
    intro i _
    congr 1
    ext g
    rw [Finset.mem_filter, mem_extensions, mem_extensions, and_assoc]
    refine and_congr_right fun _ => ?_
    constructor
    · rintro ⟨extend, here⟩ r inside
      by_cases last : r.val = j
      · obtain rfl : r = ⟨j, bound⟩ := Fin.ext last
        rw [here, Function.update_self]
      · rw [extend r (by omega), Function.update_of_ne last]
    · intro extend
      constructor
      · intro r inside
        rw [extend r (by omega), Function.update_of_ne (by omega)]
      · have here := extend ⟨j, bound⟩ (Nat.lt_succ_self j)
        rw [Function.update_self] at here
        exact_mod_cast here
  · intro g _
    simp

/-! ### The search -/

/-- The column that is kept for row `r`. -/
def columnAt (s : Stack) (a : ℤ) (r : ℕ) : ℤ := (s.bytes (a + r)).toInt

variable {s s' : Stack} {a : ℤ}

theorem ok_iff : ok s n a = true ↔ Peaceful (columnAt s a) n := by
  simp only [ok, List.all_eq_true, List.mem_range, List.mem_range'_1, Bool.not_eq_true', Bool.or_eq_false_iff,
    beq_eq_false_iff_ne, ne_eq, and_assoc, Peaceful, Attack, columnAt, not_or, ← BitVec.toInt_inj]
  constructor
  · intro all r t before inside
    exact all r (by omega) t ⟨by omega, by omega⟩
  · intro peaceful i _ t inside
    exact peaceful i t (by omega) (by omega)

/-- Nothing at or above the top of the stack has changed. -/
structure Keeps (s s' : Stack) : Prop where
  top : s'.top ≤ s.top
  bytes : ∀ x, s.top ≤ x → s'.bytes x = s.bytes x

theorem Keeps.trans {s'' : Stack} (first : Keeps s s') (second : Keeps s' s'') : Keeps s s'' :=
  ⟨second.top.trans first.top, fun x above => (second.bytes x (first.top.trans above)).trans (first.bytes x above)⟩

theorem Keeps.columnAt (keeps : Keeps s s') (above : s.top ≤ a) (r : ℕ) : columnAt s' a r = columnAt s a r := by
  rw [Nqueens.columnAt, Nqueens.columnAt, keeps.bytes (a + r) (by omega)]

/-- The copy is in memory of its own. -/
theorem placed_spec (above : s.top ≤ a) (j : ℕ) {i : ℕ} (char : i < 128) : ∃ b s', placed s j a i = some (b, s') ∧
    s'.top ≤ b ∧ Keeps s s' ∧ ∀ r < j + 1, columnAt s' b r = Function.update (columnAt s a) j i r := by
  let top : ℤ := s.top - ((j + 1) + 31 : ℕ)
  let b : ℤ := aligned top
  have lower : top ≤ b := by
    dsimp only [b, aligned]
    omega
  have upper : b + j < s.top := by
    dsimp only [b, top, aligned]
    omega
  let copied : Stack := ⟨fun x => if b ≤ x ∧ x < b + j then s.bytes (a + (x - b)) else s.bytes x, top⟩
  have copies : memcpy { s with top := top } b a j = some copied := if_pos (.inl (by omega))
  refine ⟨b, store copied (b + j) (BitVec.ofInt 8 i), ?_, lower, ⟨?_, fun x outside => ?_⟩, fun r inside => ?_⟩
  · rw [placed, alloca]
    dsimp only
    rw [copies]
    rfl
  · change s.top - ((j + 1) + 31 : ℕ) ≤ s.top
    omega
  · dsimp only [store, copied]
    rw [Function.update_of_ne (by omega), if_neg (by omega)]
  · dsimp only [columnAt, store, copied]
    by_cases last : r = j
    · subst last
      rw [Function.update_self, Function.update_self, BitVec.toInt_ofInt]
      exact Int.bmod_eq_of_le (by omega) (by omega)
    · rw [Function.update_of_ne (by omega), Function.update_of_ne last, if_pos (by omega)]
      congr 2
      omega

/-- The numbers of solutions for the first `i` columns of row `j`. -/
def counts (n : ℕ) (column : ℕ → ℤ) (j i : ℕ) : List (BitVec 32) :=
  (List.range i).map fun c : ℕ => BitVec.ofNat 32 (extensions n (Function.update column j c) (j + 1)).card

theorem sum_counts (n : ℕ) (column : ℕ → ℤ) (j i : ℕ) : (counts n column j i).foldl (fun solNum c => solNum + c) 0 =
    BitVec.ofNat 32 (∑ c ∈ Finset.range i, (extensions n (Function.update column j c) (j + 1)).card) := by
  induction i with
  | zero => rfl
  | succ i ih =>
    rw [counts, List.range_succ, List.map_append, List.foldl_append, ← counts, ih, Finset.sum_range_succ,
      BitVec.ofNat_add]
    rfl

/-- An entry of `count` that has been set, or left as it was. -/
theorem counts_set {i : ℕ} (bound : i < n) :
    (counts n column j i ++ List.replicate (n - i) 0).set i
      (BitVec.ofNat 32 (extensions n (Function.update column j i) (j + 1)).card) =
      counts n column j (i + 1) ++ List.replicate (n - (i + 1)) 0 := by
  have length : (counts n column j i).length = i := by rw [counts, List.length_map, List.length_range]
  have rest : n - i = (n - (i + 1)) + 1 := by omega
  rw [List.set_append_right _ _ length.le, length, Nat.sub_self, rest, List.replicate_succ, List.set_cons_zero]
  simp [counts, List.range_succ]

theorem counts_none {i : ℕ} (bound : i < n) (none : extensions n (Function.update column j i) (j + 1) = ∅) :
    counts n column j i ++ List.replicate (n - i) 0 = counts n column j (i + 1) ++ List.replicate (n - (i + 1)) 0 := by
  have rest : n - i = (n - (i + 1)) + 1 := by omega
  rw [rest, List.replicate_succ]
  simp [counts, List.range_succ, none]

/-- An iteration of the loop over the columns. -/
def tryColumn (n j : ℕ) (a : ℤ) (state : List (BitVec 32) × Stack) (i : ℕ) : Option (List (BitVec 32) × Stack) := do
  let (b, frame) ← placed state.2 j a i
  if ok frame (j + 1) b then do
    let (solutions, frame) ← nqueens frame n (j + 1) b
    some (state.1.set i solutions, frame)
  else some (state.1, frame)

theorem nqueens_eq (further : n ≠ j) : nqueens s n j a =
    (forLoop 0 n (tryColumn n j a) (List.replicate n 0, (alloca s (n * 4)).2)).bind fun state =>
      some (state.1.foldl (fun solNum c => solNum + c) 0, { state.2 with top := s.top }) := by
  rw [nqueens, if_neg further]
  rfl

/-- What a call returns and what it leaves alone. -/
def Counts (n j : ℕ) : Prop := ∀ {s : Stack} {a : ℤ}, s.top ≤ a →
  (∀ r < j, 0 ≤ columnAt s a r ∧ columnAt s a r < n) → Peaceful (columnAt s a) j →
  ∃ s', nqueens s n j a = some (BitVec.ofNat 32 (extensions n (columnAt s a) j).card, s') ∧ Keeps s s'

theorem tryColumn_spec (deeper : Counts n (j + 1)) (size : n ≤ 128) (rows : j < n) {frame : Stack} {i : ℕ}
    (above : s.top ≤ a) (board : ∀ r < j, 0 ≤ columnAt s a r ∧ columnAt s a r < n) (inside : i < n)
    (keeps : Keeps s frame) : ∃ frame',
    tryColumn n j a (counts n (columnAt s a) j i ++ List.replicate (n - i) 0, frame) i =
      some (counts n (columnAt s a) j (i + 1) ++ List.replicate (n - (i + 1)) 0, frame') ∧ Keeps s frame' := by
  obtain ⟨b, copied, placing, top, keeps', columns⟩ := placed_spec (keeps.top.trans above) j (show i < 128 by omega)
  have columns' (r : ℕ) (bound : r < j + 1) : columnAt copied b r = Function.update (columnAt s a) j i r := by
    rw [columns r bound, funext (keeps.columnAt above)]
  have same : extensions n (columnAt copied b) (j + 1) = extensions n (Function.update (columnAt s a) j i) (j + 1) :=
    extensions_congr columns'
  simp only [tryColumn, placing, Option.bind_eq_bind, Option.bind_some]
  by_cases peaceful : ok copied (j + 1) b = true
  · have board' (r : ℕ) (bound : r < j + 1) : 0 ≤ columnAt copied b r ∧ columnAt copied b r < n := by
      rw [columns' r bound]
      by_cases last : r = j
      · rw [last, Function.update_self]
        omega
      · rw [Function.update_of_ne last]
        exact board r (by omega)
    obtain ⟨frame', search, kept⟩ := deeper top board' (ok_iff.mp peaceful)
    rw [if_pos peaceful, search, same, Option.bind_some, counts_set inside]
    exact ⟨frame', rfl, keeps.trans (keeps'.trans kept)⟩
  · have none : extensions n (Function.update (columnAt s a) j i) (j + 1) = ∅ := by
      rw [← same, Finset.eq_empty_iff_forall_notMem]
      exact fun f member => peaceful (ok_iff.mpr (peaceful_of_mem rows member))
    rw [if_neg peaceful, counts_none inside none]
    exact ⟨copied, rfl, keeps.trans keeps'⟩

/-- Every extension is counted once, and nothing but memory of the call itself is written. -/
theorem nqueens_spec (size : n ≤ 128) (k : ℕ) : ∀ j, n = j + k → Counts n j := by
  induction k with
  | zero =>
    rintro j rfl s a _ board peaceful
    refine ⟨s, ?_, le_rfl, fun _ _ => rfl⟩
    rw [nqueens, if_pos rfl, card_extensions_full board peaceful]
    rfl
  | succ k ih =>
    intro j rows s a above board peaceful
    have deeper : Counts n (j + 1) := ih (j + 1) (by omega)
    let Reached (i : ℕ) (state : List (BitVec 32) × Stack) : Prop :=
      state.1 = counts n (columnAt s a) j i ++ List.replicate (n - i) 0 ∧ Keeps s state.2
    have start : Reached 0 (List.replicate n 0, (alloca s (n * 4)).2) := by
      refine ⟨rfl, ?_, fun _ _ => rfl⟩
      change s.top - (n * 4 : ℕ) ≤ s.top
      omega
    have step (i : ℕ) (state : List (BitVec 32) × Stack) (_ : 0 ≤ i) (inside : i < n) (reached : Reached i state) :
        ∃ state', tryColumn n j a state i = some state' ∧ Reached (i + 1) state' := by
      obtain ⟨count, frame⟩ := state
      obtain ⟨rfl, keeps⟩ := reached
      obtain ⟨frame', run, keeps'⟩ := tryColumn_spec deeper size (by omega) above board inside keeps
      exact ⟨_, run, rfl, keeps'⟩
    obtain ⟨⟨count, frame⟩, run, counted, keeps⟩ := forLoop_invariant Reached (Nat.zero_le n) start step
    dsimp only at counted keeps
    rw [Nat.sub_self, List.replicate_zero, List.append_nil] at counted
    rw [nqueens_eq (by omega), run, Option.bind_some, counted, sum_counts, card_extensions_next (by omega)]
    exact ⟨_, rfl, le_rfl, keeps.bytes⟩

/-- `nqueens` counts the solutions that extend a placement, and leaves the placement as it is. -/
theorem nqueens_correct (n : ℕ) (size : n ≤ 128) {s : Stack} {a : ℤ} (above : s.top ≤ a) :
    (∀ j ≤ n, (∀ r < j, 0 ≤ columnAt s a r ∧ columnAt s a r < n) → Peaceful (columnAt s a) j →
      ∃ s', nqueens s n j a = some (BitVec.ofNat 32 (extensions n (columnAt s a) j).card, s') ∧
        ∀ r < j, s'.bytes (a + r) = s.bytes (a + r)) ∧
    ∃ s', nqueens s n 0 a = some (BitVec.ofNat 32 (Fintype.card {f : Fin n → Fin n // Solution f}), s') := by
  constructor
  · intro j rows board peaceful
    obtain ⟨k, rfl⟩ := Nat.exists_eq_add_of_le rows
    obtain ⟨s', run, keeps⟩ := nqueens_spec size k j rfl above board peaceful
    exact ⟨s', run, fun r _ => keeps.bytes (a + r) (by omega)⟩
  · obtain ⟨s', run, -⟩ := nqueens_spec size n 0 (Nat.zero_add n).symm above
      (fun r bound => absurd bound (Nat.not_lt_zero r)) fun r t _ bound => absurd bound (Nat.not_lt_zero t)
    refine ⟨s', ?_⟩
    rw [run, Fintype.card_subtype, extensions]
    congr 4
    ext f
    rw [Finset.mem_filter, Finset.mem_filter]
    exact and_congr_right fun _ => and_iff_left fun r bound => absurd bound (Nat.not_lt_zero r)

theorem nqueens_correct_four : ∃ s', nqueens ⟨fun _ => 1, 0⟩ 4 1 0 = some (1, s') ∧ s'.bytes 0 = 1 := by
  let s : Stack := ⟨fun _ => 1, 0⟩
  have above : s.top ≤ 0 := le_rfl
  have board (r : ℕ) (_ : r < 1) : 0 ≤ columnAt s 0 r ∧ columnAt s 0 r < 4 := by
    change 0 ≤ (1 : BitVec 8).toInt ∧ (1 : BitVec 8).toInt < 4
    decide
  obtain ⟨s', run, kept⟩ := (nqueens_correct 4 (by decide) above).1 1 (by decide) board
    fun r t before bound => by omega
  have count : (extensions 4 (columnAt ⟨fun _ => 1, 0⟩ 0) 1).card = 1 := by decide +kernel
  rw [count] at run
  exact ⟨s', run, kept 0 (by decide)⟩

end CilkArtifact.Nqueens
