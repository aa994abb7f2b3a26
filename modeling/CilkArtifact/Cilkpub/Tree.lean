import CilkArtifact.Cilkpub.Samplesort
import Mathlib.Order.Interval.Finset.Nat
import Mathlib.Tactic.Linarith
import Mathlib.Tactic.Ring

/-! The number of bins, the tree of samples and the search in it. -/
namespace CilkArtifact.Cilkpub
variable {α : Type} {comp : α → α → Bool}

/-! ### Number of bins -/

theorem floorLg2_eq_log (n : ℕ) : floorLg2 n = Nat.log 2 n := by
  induction n using Nat.strong_induction_on with
  | _ n ih =>
    rw [floorLg2]
    by_cases large : 1 < n
    · rw [if_pos large, ih (n / 2) (by omega), Nat.log_of_one_lt_of_le (by omega) large]
    · rw [if_neg large, Nat.log_of_lt (by omega)]

/-- Between two and thirty-two bins there are powers of two, and every bin has its share. -/
theorem chooseNumberOfBins_spec {n : ℕ} (large : SAMPLESORT_QSORT_CUTOFF < n) :
    ∃ d ≤ 5, chooseNumberOfBins n = 2 ^ d ∧ 2 ^ d * SAMPLESORT_BIN_CUTOFF ≤ n := by
  rw [SAMPLESORT_QSORT_CUTOFF] at large
  refine ⟨min 5 (floorLg2 (n / SAMPLESORT_BIN_CUTOFF)), Nat.min_le_left _ _, ?_, ?_⟩
  · rw [chooseNumberOfBins, Nat.one_shiftLeft]
    have thirtyTwo : MAX_BINS = 2 ^ 5 := rfl
    rcases le_total 5 (floorLg2 (n / SAMPLESORT_BIN_CUTOFF)) with many | few
    · rw [min_eq_left many, thirtyTwo, min_eq_left (Nat.pow_le_pow_right (by decide) many)]
    · rw [min_eq_right few, thirtyTwo, min_eq_right (Nat.pow_le_pow_right (by decide) few)]
  · rw [← Nat.le_div_iff_mul_le (by decide)]
    calc 2 ^ min 5 (floorLg2 (n / SAMPLESORT_BIN_CUTOFF))
        ≤ 2 ^ floorLg2 (n / SAMPLESORT_BIN_CUTOFF) := Nat.pow_le_pow_right (by decide) (Nat.min_le_right _ _)
      _ ≤ n / SAMPLESORT_BIN_CUTOFF := by
        rw [floorLg2_eq_log]
        apply Nat.pow_log_le_self
        rw [SAMPLESORT_BIN_CUTOFF]
        omega

theorem floorLg2_pow (d : ℕ) : floorLg2 (2 ^ d) = d := by
  rw [floorLg2_eq_log, Nat.log_pow (by decide)]

/-! ### Search -/

/-- The number of splitters `T 1, …, T (m - 1)` that are not above the key. -/
def binOf (comp : α → α → Bool) (T : ℕ → α) (m : ℕ) (key : α) : ℕ :=
  ((Finset.Ico 1 m).filter fun c => comp key (T c) = false).card

theorem binOf_lt (T : ℕ → α) {m : ℕ} (positive : 0 < m) (key : α) : binOf comp T m key < m := by
  have bound := Finset.card_filter_le (Finset.Ico 1 m) fun c => comp key (T c) = false
  rw [Nat.card_Ico] at bound
  rw [binOf]
  omega

/-- Keys in a later bin are not less. -/
theorem comp_of_binOf_lt (weak : StrictWeak comp) {T : ℕ → α} {m : ℕ} {a b : α}
    (lower : binOf comp T m a < binOf comp T m b) : comp b a = false := by
  rw [Bool.eq_false_iff]
  intro less
  refine absurd lower (not_lt.mpr (Finset.card_le_card ?_))
  intro c member
  rw [Finset.mem_filter] at member ⊢
  refine ⟨member.1, ?_⟩
  rw [Bool.eq_false_iff]
  intro above
  have := comp_trans weak less above
  rw [member.2] at this
  cases this

/-- The tree has the splitters `T 1, …, T (2 ^ d - 1)`, level by level. -/
structure SplitTree (comp : α → α → Bool) (d : ℕ) (T : ℕ → α) (tree : Buffer ℕ α) : Prop where
  nodes : ∀ l q, l < d → q < 2 ^ l → tree.read (2 ^ l - 1 + q) = some (T ((2 * q + 1) * 2 ^ (d - 1 - l)))
  sorted : ∀ c c', 1 ≤ c → c ≤ c' → c' < 2 ^ d → comp (T c') (T c) = false

/-- The node of level `l` that the search for `key` has reached: the splitters on its left are not above
the key, those on its right are. -/
structure Reached (comp : α → α → Bool) (d : ℕ) (T : ℕ → α) (key : α) (l k q : ℕ) : Prop where
  bound : q < 2 ^ l
  node : k = 2 ^ l - 1 + q
  left : ∀ c, 1 ≤ c → c ≤ q * 2 ^ (d - l) → comp key (T c) = false
  right : ∀ c, (q + 1) * 2 ^ (d - l) ≤ c → c < 2 ^ d → comp key (T c) = true

theorem two_pow_halves {d l : ℕ} (inside : l < d) : 2 ^ (d - l) = 2 * 2 ^ (d - 1 - l) := by
  rw [← pow_succ']
  congr 1
  omega

/-- Splitters have numbers from one to `2 ^ d - 1`. -/
theorem splitter_bounds {d l q : ℕ} (inside : l < d) (bound : q < 2 ^ l) :
    1 ≤ (2 * q + 1) * 2 ^ (d - 1 - l) ∧ (2 * q + 1) * 2 ^ (d - 1 - l) < 2 ^ d := by
  have width : 0 < 2 ^ (d - 1 - l) := Nat.two_pow_pos _
  have splits : 2 ^ d = 2 ^ l * 2 ^ (d - l) := by
    rw [← pow_add]
    congr 1
    omega
  refine ⟨Nat.mul_pos (by omega) width, ?_⟩
  rw [splits, two_pow_halves inside]
  nlinarith

theorem Reached.step (weak : StrictWeak comp) {d : ℕ} {T : ℕ → α} {key : α} {l k q : ℕ}
    (sorted : ∀ c c', 1 ≤ c → c ≤ c' → c' < 2 ^ d → comp (T c') (T c) = false)
    (reached : Reached comp d T key l k q) (inside : l < d) :
    ∃ q', Reached comp d T key (l + 1)
      (2 * k + 2 - (comp key (T ((2 * q + 1) * 2 ^ (d - 1 - l)))).toNat) q' := by
  obtain ⟨bound, rfl, left, right⟩ := reached
  have halves := two_pow_halves inside
  have deeper : d - (l + 1) = d - 1 - l := by omega
  obtain ⟨above, below⟩ := splitter_bounds inside bound
  have power : 2 ^ (l + 1) = 2 ^ l + 2 ^ l := by rw [pow_succ, mul_two]
  have positive : 0 < 2 ^ l := Nat.two_pow_pos l
  cases less : comp key (T ((2 * q + 1) * 2 ^ (d - 1 - l))) with
  | true =>
    refine ⟨2 * q, by omega, by rw [Bool.toNat_true]; omega, ?_, ?_⟩
    · intro c first last
      apply left c first
      rw [deeper] at last
      rw [halves]
      nlinarith
    · intro c first last
      rw [deeper] at first
      exact comp_of_lt_of_le weak less (sorted _ c above first last)
  | false =>
    refine ⟨2 * q + 1, by omega, by rw [Bool.toNat_false]; omega, ?_, ?_⟩
    · intro c first last
      rw [deeper] at last
      rw [Bool.eq_false_iff]
      intro less'
      have := comp_of_lt_of_le weak less' (sorted c _ first last below)
      rw [less] at this
      cases this
    · intro c first last
      refine right c ?_ last
      rw [deeper] at first
      rw [halves]
      nlinarith

theorem descend_spec (weak : StrictWeak comp) {d : ℕ} {T : ℕ → α} {x tree : Buffer ℕ α} {i : ℕ} {key : α}
    (split : SplitTree comp d T tree) (reads : x.read i = some key) :
    descend comp x i tree d = some (2 ^ d - 1 + binOf comp T (2 ^ d) key) := by
  have start : Reached comp d T key 0 0 0 := by
    refine ⟨by decide, rfl, fun c first last => ?_, fun c first last => ?_⟩
    · rw [zero_mul] at last
      omega
    · rw [zero_add, one_mul, Nat.sub_zero] at first
      omega
  have search : ∃ k, descend comp x i tree d = some k ∧ ∃ q, Reached comp d T key d k q := by
    refine forLoop_invariant (fun l k => ∃ q, Reached comp d T key l k q) (Nat.zero_le d) ⟨0, start⟩ ?_
    rintro l k _ inside ⟨q, reached⟩
    obtain ⟨q', next⟩ := reached.step weak split.sorted inside
    refine ⟨_, ?_, q', next⟩
    simp only [reads, reached.node, split.nodes l q inside reached.bound, Option.bind_eq_bind, Option.bind_some]
  obtain ⟨k, run, q, reached⟩ := search
  have left := reached.left
  have right := reached.right
  rw [Nat.sub_self, pow_zero, mul_one] at left right
  have counted : (Finset.Ico 1 (2 ^ d)).filter (fun c => comp key (T c) = false) = Finset.Ico 1 (q + 1) := by
    ext c
    rw [Finset.mem_filter, Finset.mem_Ico, Finset.mem_Ico]
    constructor
    · rintro ⟨⟨first, last⟩, notAbove⟩
      refine ⟨first, ?_⟩
      by_contra beyond
      rw [right c (by omega) last] at notAbove
      cases notAbove
    · rintro ⟨first, last⟩
      have := reached.bound
      exact ⟨⟨first, by omega⟩, left c first (by omega)⟩
  rw [run, reached.node, binOf, counted, Nat.card_Ico, Nat.add_sub_cancel]

/-! ### Samples -/

section Samples
variable {d o : ℕ} {L : List α} {T : ℕ → α} {tmp tree : Buffer ℕ α}

/-- The nodes of the levels before `l`, and the first `k` nodes of level `l`. -/
def Filled (d : ℕ) (T : ℕ → α) (tree : Buffer ℕ α) (l k : ℕ) : Prop :=
  ∀ l' q, l' < d → q < 2 ^ l' → (l' < l ∨ l' = l ∧ q < k) →
    tree.cell (2 ^ l' - 1 + q) = some (T ((2 * q + 1) * 2 ^ (d - 1 - l')))

theorem pow_lt_pow_of_lt {l' l : ℕ} (before : l' < l) : 2 ^ l' + 2 ^ l' ≤ 2 ^ l := by
  rw [← mul_two, ← pow_succ]
  exact Nat.pow_le_pow_right (by decide) before

theorem fillLevel_spec (depth : d ≤ 5) (positive : 0 < o) (stores : tmp.Stores 0 L) (spans : tmp.Spans 0 L.length)
    (splitters : ∀ c, 1 ≤ c → c < 2 ^ d → L[o * c - 1]? = some (T c)) {l : ℕ}
    (inside : l < d) (room : tree.Spans 0 (MAX_BINS - 1)) (filled : Filled d T tree l 0) :
    ∃ tree', forLoop 0 (2 ^ l) (fun tree k => do
        let i ← subtract (o * 2 ^ (d - l) / 2) 1
        let sample ← tmp.read (i + k * (o * 2 ^ (d - l)))
        tree.write (2 ^ l - 1 + k) sample) tree = some tree' ∧
      tree'.Spans 0 (MAX_BINS - 1) ∧ Filled d T tree' (l + 1) 0 := by
  have width : 0 < o * 2 ^ (d - 1 - l) := Nat.mul_pos positive (Nat.two_pow_pos _)
  have halves : o * 2 ^ (d - l) = 2 * (o * 2 ^ (d - 1 - l)) := by
    rw [two_pow_halves inside]
    ring
  have steps : ∃ tree', forLoop 0 (2 ^ l) (fun tree k => do
        let i ← subtract (o * 2 ^ (d - l) / 2) 1
        let sample ← tmp.read (i + k * (o * 2 ^ (d - l)))
        tree.write (2 ^ l - 1 + k) sample) tree = some tree' ∧
      tree'.Spans 0 (MAX_BINS - 1) ∧ Filled d T tree' l (2 ^ l) := by
    refine forLoop_invariant (fun k tree => tree.Spans 0 (MAX_BINS - 1) ∧ Filled d T tree l k) (Nat.zero_le _)
      ⟨room, filled⟩ ?_
    rintro k tree _ bound ⟨room, filled⟩
    obtain ⟨lower, upper⟩ := splitter_bounds inside bound
    have place : o * 2 ^ (d - l) / 2 - 1 + k * (o * 2 ^ (d - l)) = o * ((2 * k + 1) * 2 ^ (d - 1 - l)) - 1 := by
      have product : o * ((2 * k + 1) * 2 ^ (d - 1 - l)) = k * (2 * (o * 2 ^ (d - 1 - l))) + o * 2 ^ (d - 1 - l) := by
        ring
      rw [product, halves, Nat.mul_div_cancel_left _ (by decide)]
      omega
    have sample := splitters _ lower upper
    have index : o * ((2 * k + 1) * 2 ^ (d - 1 - l)) - 1 < L.length := (List.getElem?_eq_some_iff.mp sample).1
    have reads : tmp.read (o * ((2 * k + 1) * 2 ^ (d - 1 - l)) - 1) = some (T ((2 * k + 1) * 2 ^ (d - 1 - l))) := by
      have cell := stores _ index
      rw [zero_add, sample] at cell
      rw [Buffer.read_eq (spans _ (by rw [Buffer.mem_span]; omega)), cell]
    have small := pow_lt_pow_of_lt inside
    have few : 2 ^ d ≤ 2 ^ 5 := Nat.pow_le_pow_right (by decide) depth
    obtain ⟨tree', writes, written, changes⟩ := Buffer.write_spec
      (room (2 ^ l - 1 + k) (by rw [Buffer.mem_span, MAX_BINS]; omega)) (T ((2 * k + 1) * 2 ^ (d - 1 - l)))
    refine ⟨tree', ?_, room.changes changes, fun l' q depth' bound' before => ?_⟩
    · rw [subtract, if_pos (by omega)]
      simp only [Option.bind_eq_bind, Option.bind_some, place, reads]
      exact writes
    · by_cases here : l' = l ∧ q = k
      · rw [here.1, here.2, written]
      · rw [changes.frame _ ?_, filled l' q depth' bound' (by omega)]
        rw [Set.mem_singleton_iff]
        rcases before with before | ⟨rfl, before⟩
        · have := pow_lt_pow_of_lt before
          omega
        · omega
  obtain ⟨tree', run, room', filled'⟩ := steps
  refine ⟨tree', run, room', fun l' q depth' bound before => filled' l' q depth' bound ?_⟩
  rcases before with before | ⟨-, none⟩
  · rcases Nat.lt_succ_iff_lt_or_eq.mp before with earlier | rfl
    · exact .inl earlier
    · exact .inr ⟨rfl, bound⟩
  · omega

theorem fillTree_spec (depth : d ≤ 5) (positive : 0 < o) (stores : tmp.Stores 0 L) (spans : tmp.Spans 0 L.length)
    (splitters : ∀ c, 1 ≤ c → c < 2 ^ d → L[o * c - 1]? = some (T c)) (rest : ℕ) :
    ∀ {tree : Buffer ℕ α} {l : ℕ}, l + rest = d → tree.Spans 0 (MAX_BINS - 1) → Filled d T tree l 0 →
    ∃ tree', fillTree tmp (2 ^ d) tree (2 ^ l) (o * 2 ^ (d - l)) = some tree' ∧
      tree'.Spans 0 (MAX_BINS - 1) ∧ Filled d T tree' d 0 := by
  induction rest with
  | zero =>
    intro tree l last room filled
    obtain rfl : l = d := last
    refine ⟨tree, ?_, room, filled⟩
    rw [fillTree, if_neg (by omega)]
  | succ rest ih =>
    intro tree l more room filled
    have inside : l < d := by omega
    obtain ⟨tree₁, run₁, room₁, filled₁⟩ := fillLevel_spec depth positive stores spans splitters inside room filled
    obtain ⟨tree', run, result⟩ := ih (by omega) room₁ filled₁
    refine ⟨tree', ?_, result⟩
    have step : o * 2 ^ (d - l) / 2 = o * 2 ^ (d - (l + 1)) := by
      rw [two_pow_halves inside, Nat.mul_left_comm, Nat.mul_div_cancel_left _ (by decide)]
      congr 2
      omega
    rw [fillTree, if_pos (Nat.pow_lt_pow_right (by decide) inside), run₁]
    simp only [Option.bind_eq_bind, Option.bind_some, ← pow_succ, step, run]

/-- Samples are drawn one after the other. -/
theorem sampling_spec (nSample size : ℕ) {x : Buffer ℕ α} {l : List α} {place : ℕ → Option ℕ}
    (stores : x.Stores 0 l) (spans : x.Spans 0 l.length) (fits : nSample ≤ size)
    (places : ∀ i < nSample, ∃ p < l.length, place i = some p) :
    ∃ tmp : Buffer ℕ α, forLoop 0 nSample (fun tmp i => do
        let i' ← place i
        let sample ← x.read i'
        tmp.write i sample) (.raw size) = some tmp ∧
      tmp.Spans 0 size ∧ ∃ samples, samples.length = nSample ∧ tmp.Stores 0 samples := by
  refine forLoop_invariant (fun i (tmp : Buffer ℕ α) =>
      tmp.Spans 0 size ∧ ∃ samples, samples.length = i ∧ tmp.Stores 0 samples) (Nat.zero_le _)
    ⟨?_, [], rfl, Buffer.stores_nil _ _⟩ ?_
  · intro i inside
    rw [Buffer.mem_span] at inside
    exact decide_eq_true (by omega)
  · rintro i tmp _ bound ⟨room, samples, rfl, filled⟩
    obtain ⟨p, inside, at_p⟩ := places _ bound
    have reads : x.read p = some l[p] := by
      have cell := stores p inside
      rw [zero_add] at cell
      rw [Buffer.read_eq (spans p (by rw [Buffer.mem_span]; omega)), cell, List.getElem?_eq_getElem inside]
    obtain ⟨tmp', writes, written, changes⟩ :=
      Buffer.write_spec (room samples.length (by rw [Buffer.mem_span]; omega)) l[p]
    refine ⟨tmp', ?_, room.changes changes, samples ++ [l[p]], by simp, ?_⟩
    · simp only [at_p, reads, writes, Option.bind_eq_bind, Option.bind_some]
    · rw [Buffer.stores_append, Buffer.stores_singleton, zero_add]
      refine ⟨filled.changes changes fun i inside => ?_, written⟩
      rw [Buffer.mem_span] at inside
      rw [Set.mem_singleton_iff]
      omega

theorem Sorted.getElem? (weak : StrictWeak comp) (sorted : Sorted comp L) {i j : ℕ} {a b : α} (ordered : i ≤ j)
    (first : L[i]? = some a) (second : L[j]? = some b) : comp b a = false := by
  obtain ⟨hi, rfl⟩ := List.getElem?_eq_some_iff.mp first
  obtain ⟨hj, rfl⟩ := List.getElem?_eq_some_iff.mp second
  rcases Nat.lt_or_eq_of_le ordered with less | rfl
  · exact List.pairwise_iff_getElem.mp sorted i j hi hj less
  · exact comp_self weak _

end Samples

/-- A tree built from samples at any places of the array. -/
theorem buildSampleTreeWith_spec (std : Std α) (weak : StrictWeak comp) {place : ℕ → ℕ → Option ℕ} {x : Buffer ℕ α}
    {l : List α} {d : ℕ} (stores : x.Stores 0 l) (spans : x.Spans 0 l.length)
    (large : SAMPLESORT_QSORT_CUTOFF < l.length) (fits : l.length < 2 ^ 63) (depth : d ≤ 5)
    (share : 2 ^ d * SAMPLESORT_BIN_CUTOFF ≤ l.length)
    (places : ∀ nSample, 1 < nSample → nSample ≤ l.length → ∀ i < nSample, ∃ p < l.length, place nSample i = some p) :
    ∃ tree T, buildSampleTreeWith std comp place x l.length (2 ^ d) (.raw (MAX_BINS - 1)) = some tree ∧
      SplitTree comp d T tree := by
  have oversampling : 10 ≤ floorLg2 l.length ∧ floorLg2 l.length < 63 := by
    rw [SAMPLESORT_QSORT_CUTOFF] at large
    rw [floorLg2_eq_log]
    exact ⟨Nat.le_log_of_pow_le (by decide) (by omega), Nat.log_lt_of_lt_pow (by omega) fits⟩
  generalize build : floorLg2 l.length = o at oversampling
  have bins : 1 ≤ 2 ^ d ∧ 2 ^ d ≤ MAX_BINS := ⟨Nat.two_pow_pos d, Nat.pow_le_pow_right (n := 2) (by decide) depth⟩
  have samplesLow : 10 ≤ o * 2 ^ d := by nlinarith
  have samplesHigh : o * 2 ^ d ≤ 62 * 2 ^ d := Nat.mul_le_mul_right _ (by omega)
  simp only [SAMPLESORT_BIN_CUTOFF, MAX_BINS] at share bins
  obtain ⟨tmp, drawn, room, samples, number, filled⟩ := sampling_spec (o * 2 ^ d - 1) (O_MAX * MAX_BINS - 1) stores
    spans (by simp only [O_MAX, MAX_BINS]; omega) (places (o * 2 ^ d - 1) (by omega) (by omega))
  have perm := std.sort_perm comp samples weak
  have sorted := std.sort_sorted comp samples weak
  have inPlace : ∃ tmp', tmp.onRange 0 samples.length (fun samples => some (std.sort comp samples)) = some tmp' ∧
      tmp'.Stores 0 (std.sort comp samples) ∧ Buffer.Changes (Buffer.span 0 samples.length) tmp tmp' :=
    Buffer.onRange_spec (room.sub (Nat.le_refl 0) (by simp only [O_MAX, MAX_BINS]; omega)) filled rfl perm.length_eq
  obtain ⟨tmp', sorts, stored, changes⟩ := inPlace
  rw [number] at sorts
  -- splitter `c` is the last of the first `c` runs of `o` samples
  let T (c : ℕ) : α := ((std.sort comp samples)[o * c - 1]?).getD l[0]
  have splitters (c : ℕ) (first : 1 ≤ c) (last : c < 2 ^ d) : (std.sort comp samples)[o * c - 1]? = some (T c) := by
    have inside : o * c - 1 < (std.sort comp samples).length := by
      have below : o * (c + 1) ≤ o * 2 ^ d := Nat.mul_le_mul_left o last
      rw [perm.length_eq, number]
      have : 0 < o * c := Nat.mul_pos (by omega) first
      rw [mul_add] at below
      omega
    simp only [T, List.getElem?_eq_getElem inside, Option.getD_some]
  have roomTree : (Buffer.raw (MAX_BINS - 1) : Buffer ℕ α).Spans 0 (MAX_BINS - 1) := by
    intro i inside
    rw [Buffer.mem_span] at inside
    exact decide_eq_true (by omega)
  have none : Filled d T (Buffer.raw (MAX_BINS - 1)) 0 0 := fun l' q _ _ before => by omega
  have spans' : tmp'.Spans 0 (std.sort comp samples).length := by
    rw [perm.length_eq, number]
    exact (room.changes changes).sub (Nat.le_refl 0) (by simp only [O_MAX, MAX_BINS]; omega)
  obtain ⟨tree, fills, room', filled'⟩ := fillTree_spec depth (by omega) stored spans' splitters d (Nat.zero_add d)
    roomTree none
  refine ⟨tree, T, ?_, ?_, ?_⟩
  · rw [pow_zero, Nat.sub_zero] at fills
    rw [buildSampleTreeWith, if_pos (by simp only [MAX_BINS]; omega), build]
    simp only [subtract, if_pos (show 1 ≤ o * 2 ^ d by omega), Option.bind_eq_bind, Option.bind_some] at drawn ⊢
    rw [drawn, Option.bind_some, sorts, Option.bind_some, Nat.sub_add_cancel (by omega), fills]
  · intro l' q inside bound
    have small := pow_lt_pow_of_lt inside
    rw [Buffer.read_eq (room' _ (by rw [Buffer.mem_span, MAX_BINS]; omega)), filled' l' q inside bound (.inl inside)]
  · intro c c' first ordered last
    refine sorted.getElem? weak ?_ (splitters c first (by omega)) (splitters c' (by omega) last)
    have := Nat.mul_le_mul_left o ordered
    omega

end CilkArtifact.Cilkpub
