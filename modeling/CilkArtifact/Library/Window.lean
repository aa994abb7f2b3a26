import CilkArtifact.Library.Strided
import Mathlib.Algebra.BigOperators.Group.Finset.Basic
import Mathlib.Algebra.Ring.Defs

/-! Matrices in arrays: row `i` of the matrix at `p` starts at `p + i * w`. -/
namespace CilkArtifact.Buffer
open Finset
variable {β : Type} {x x' : Buffer ℕ β} {p w r n : ℕ} {S : Set ℕ} {M : ℕ → ℕ → β}

/-- The cells of the first `n` entries of `r` rows. -/
def window (p w r n : ℕ) : Set ℕ := {k | ∃ i j, i < r ∧ j < n ∧ k = p + i * w + j}

theorem mem_window {i j : ℕ} (hi : i < r) (hj : j < n) : p + i * w + j ∈ window p w r n := ⟨i, j, hi, hj, rfl⟩

/-- Entries of a matrix are in different cells. -/
theorem entry_inj {i j i' j' : ℕ} (hj : j < w) (hj' : j' < w) (same : p + i * w + j = p + i' * w + j') :
    i = i' ∧ j = j' := by
  have places : place p w j i = place p w j' i' := by
    rw [place, place]
    omega
  exact (place_inj hj hj' places).symm

/-- The entries of the matrix are in the array. -/
def Holds (x : Buffer ℕ β) (p w r n : ℕ) (M : ℕ → ℕ → β) : Prop :=
  ∀ i j, i < r → j < n → x.read (p + i * w + j) = some (M i j)

def Room (x : Buffer ℕ β) (p w r n : ℕ) : Prop := ∀ k ∈ window p w r n, x.inside k = true

theorem read_changes {k : ℕ} (changes : Changes S x x') (apart : k ∉ S) : x'.read k = x.read k := by
  rw [read, read, changes.inside, changes.frame k apart]

theorem Holds.changes (holds : Holds x p w r n M) (changes : Changes S x x') (apart : ∀ k ∈ window p w r n, k ∉ S) :
    Holds x' p w r n M := by
  intro i j hi hj
  rw [read_changes changes (apart _ (mem_window hi hj)), holds i j hi hj]

theorem Room.changes (room : Room x p w r n) (changes : Changes S x x') : Room x' p w r n := by
  intro k member
  rw [changes.inside, room k member]

theorem Holds.congr {M' : ℕ → ℕ → β} (holds : Holds x p w r n M) (same : ∀ i j, i < r → j < n → M i j = M' i j) :
    Holds x p w r n M' := by
  intro i j hi hj
  rw [holds i j hi hj, same i j hi hj]

/-- The part of a matrix from row `i₀` and column `j₀` on. -/
def part (M : ℕ → ℕ → β) (i₀ j₀ : ℕ) : ℕ → ℕ → β := fun i j => M (i₀ + i) (j₀ + j)

section Parts
variable {i₀ j₀ r' n' : ℕ} (rows : i₀ + r' ≤ r) (columns : j₀ + n' ≤ n)
include rows columns

theorem window_part : window (p + i₀ * w + j₀) w r' n' ⊆ window p w r n := by
  rintro _ ⟨i, j, hi, hj, rfl⟩
  refine ⟨i₀ + i, j₀ + j, by omega, by omega, ?_⟩
  rw [Nat.add_mul]
  omega

theorem Holds.part (holds : Holds x p w r n M) : Holds x (p + i₀ * w + j₀) w r' n' (part M i₀ j₀) := by
  intro i j hi hj
  have entry := holds (i₀ + i) (j₀ + j) (by omega) (by omega)
  rw [Nat.add_mul] at entry
  rw [show p + i₀ * w + j₀ + i * w + j = p + (i₀ * w + i * w) + (j₀ + j) by omega, entry]
  rfl

theorem Room.part (room : Room x p w r n) : Room x (p + i₀ * w + j₀) w r' n' :=
  fun k member => room k (window_part rows columns member)

end Parts

theorem window_mono {r' n' : ℕ} (rows : r' ≤ r) (columns : n' ≤ n) : window p w r' n' ⊆ window p w r n := by
  rintro _ ⟨i, j, hi, hj, rfl⟩
  exact ⟨i, j, by omega, by omega, rfl⟩

/-- The part from row `r'` on. -/
theorem window_below {r' : ℕ} (rows : r' ≤ r) : window (p + r' * w) w (r - r') n ⊆ window p w r n := by
  rintro _ ⟨i, j, hi, hj, rfl⟩
  refine ⟨r' + i, j, by omega, hj, ?_⟩
  rw [Nat.add_mul]
  omega

/-- The part from column `n'` on. -/
theorem window_right {n' : ℕ} (columns : n' ≤ n) : window (p + n') w r (n - n') ⊆ window p w r n := by
  rintro _ ⟨i, j, hi, hj, rfl⟩
  exact ⟨i, n' + j, hi, by omega, by omega⟩

/-- Parts in different rows or different columns have no cell in common. -/
theorem window_apart {i₀ j₀ i₁ j₁ r' n' r'' n'' k : ℕ} (fits : j₀ + n' ≤ w) (fits' : j₁ + n'' ≤ w)
    (apart : i₀ + r' ≤ i₁ ∨ i₁ + r'' ≤ i₀ ∨ j₀ + n' ≤ j₁ ∨ j₁ + n'' ≤ j₀)
    (member : k ∈ window (p + i₀ * w + j₀) w r' n') : k ∉ window (p + i₁ * w + j₁) w r'' n'' := by
  rintro ⟨i', j', hi', hj', same⟩
  obtain ⟨i, j, hi, hj, rfl⟩ := member
  have entries : p + (i₀ + i) * w + (j₀ + j) = p + (i₁ + i') * w + (j₁ + j') := by
    rw [Nat.add_mul, Nat.add_mul]
    omega
  have := entry_inj (by omega) (by omega) entries
  omega

/-- The four quadrants make up the matrix. -/
theorem Holds.quadrants {q : ℕ} (upperLeft : Holds x p w q q (Buffer.part M 0 0))
    (upperRight : Holds x (p + q) w q q (Buffer.part M 0 q))
    (lowerLeft : Holds x (p + q * w) w q q (Buffer.part M q 0))
    (lowerRight : Holds x (p + q * w + q) w q q (Buffer.part M q q)) : Holds x p w (q + q) (q + q) M := by
  intro i j hi hj
  rcases Nat.lt_or_ge i q with up | down
  · rcases Nat.lt_or_ge j q with left | right
    · rw [upperLeft i j up left, Buffer.part, Nat.zero_add, Nat.zero_add]
    · obtain ⟨j, rfl⟩ := Nat.exists_eq_add_of_le right
      rw [show p + i * w + (q + j) = p + q + i * w + j by omega, upperRight i j up (by omega), Buffer.part,
        Nat.zero_add]
  · obtain ⟨i, rfl⟩ := Nat.exists_eq_add_of_le down
    rw [Nat.add_mul]
    rcases Nat.lt_or_ge j q with left | right
    · rw [show p + (q * w + i * w) + j = p + q * w + i * w + j by omega, lowerLeft i j (by omega) left, Buffer.part,
        Nat.zero_add]
    · obtain ⟨j, rfl⟩ := Nat.exists_eq_add_of_le right
      rw [show p + (q * w + i * w) + (q + j) = p + q * w + q + i * w + j by omega,
        lowerRight i j (by omega) (by omega), Buffer.part]

/-! ### Ranges -/

theorem readRange_range {p : ℕ} {f : ℕ → β} (m : ℕ) (entries : ∀ t < m, x.read (p + t) = some (f t)) :
    x.readRange p m = some ((List.range m).map f) := by
  induction m generalizing p f with
  | zero => rfl
  | succ m ih =>
    have first := entries 0 (by omega)
    have rest := ih (p := p + 1) (f := fun t => f (t + 1)) fun t bound => by
      rw [← entries (t + 1) (by omega), Nat.add_right_comm, Nat.add_assoc]
    rw [Nat.add_zero] at first
    simp only [readRange, first, rest, Option.bind_eq_bind, Option.bind_some, List.range_succ_eq_map, List.map_cons,
      List.map_map, Function.comp_def]

/-- The next `k` entries of a row. -/
theorem Holds.readRange {i m k : ℕ} (holds : Holds x p w r n M) (row : i < r) (columns : m + k ≤ n) :
    x.readRange (p + i * w + m) k = some ((List.range k).map fun t => M i (m + t)) := by
  refine readRange_range k fun t bound => ?_
  rw [Nat.add_assoc, holds i (m + t) row (by omega)]

/-! ### Assignments

A set of entries, each with its own cell, receives values. -/

section Assignments
variable {E : Type} {cell : E → ℕ} {value : E → β} {D D' D'' : Set E} {x'' : Buffer ℕ β}

structure Assigns (cell : E → ℕ) (value : E → β) (D : Set E) (x x' : Buffer ℕ β) : Prop where
  changes : Changes (cell '' D) x x'
  assigned : ∀ e ∈ D, x'.cell (cell e) = some (value e)

theorem Assigns.empty (x : Buffer ℕ β) : Assigns cell value ∅ x x := ⟨.refl _ x, fun _ member => member.elim⟩

theorem Assigns.append (first : Assigns cell value D x x') (second : Assigns cell value D' x' x'')
    (parts : ∀ e, e ∈ D'' ↔ e ∈ D ∨ e ∈ D') (distinct : Set.InjOn cell D'') : Assigns cell value D'' x x'' := by
  constructor
  · refine (first.changes.mono ?_).trans (second.changes.mono ?_)
    · exact Set.image_mono fun e member => (parts e).mpr (.inl member)
    · exact Set.image_mono fun e member => (parts e).mpr (.inr member)
  · intro e member
    by_cases again : e ∈ D'
    · exact second.assigned e again
    · have before : e ∈ D := ((parts e).mp member).resolve_right again
      rw [second.changes.frame, first.assigned e before]
      rintro ⟨e', member', same⟩
      exact again (distinct ((parts e').mpr (.inr member')) member same ▸ member')

/-- Entries that are not assigned keep their values. -/
theorem Assigns.read_other {e : E} (assigns : Assigns cell value D x x') {V : Set E} (distinct : Set.InjOn cell V)
    (sub : D ⊆ V) (valid : e ∈ V) (other : e ∉ D) : x'.read (cell e) = x.read (cell e) := by
  apply read_changes assigns.changes
  rintro ⟨e', member, same⟩
  exact other (distinct (sub member) valid same ▸ member)

/-- Storing a list assigns the entries whose cells follow each other. -/
theorem writeRange_assigns {p : ℕ} {f : ℕ → β} (m : ℕ) (e : ℕ → E) (cells : ∀ t < m, cell (e t) = p + t)
    (values : ∀ t < m, value (e t) = f t) (room : ∀ t < m, x.inside (p + t) = true) :
    ∃ x', x.writeRange p ((List.range m).map f) = some x' ∧ Assigns cell value (e '' {t | t < m}) x x' := by
  have length : ((List.range m).map f).length = m := by rw [List.length_map, List.length_range]
  have spans : Spans x p ((List.range m).map f).length := by
    rw [length]
    intro k member
    obtain ⟨t, rfl⟩ := Nat.exists_eq_add_of_le (mem_span.mp member).1
    exact room t (by have := (mem_span.mp member).2; omega)
  obtain ⟨x', run, stores, changes⟩ := writeRange_spec _ spans
  rw [length] at changes
  refine ⟨x', run, changes.mono ?_, ?_⟩
  · intro k member
    obtain ⟨t, rfl⟩ := Nat.exists_eq_add_of_le (mem_span.mp member).1
    have bound : t < m := by have := (mem_span.mp member).2; omega
    exact ⟨e t, ⟨t, bound, rfl⟩, cells t bound⟩
  · rintro _ ⟨t, bound, rfl⟩
    have stored := stores t (by rwa [length])
    rw [List.getElem?_map, List.getElem?_range bound, Option.map_some] at stored
    rw [cells t bound, values t bound, stored]

end Assignments

/-- The cell of an entry of the matrix at `p`. -/
def entry (p w : ℕ) (e : ℕ × ℕ) : ℕ := p + e.1 * w + e.2

theorem entry_injOn (p w : ℕ) : Set.InjOn (entry p w) {e | e.2 < w} := by
  rintro ⟨i, j⟩ hj ⟨i', j'⟩ hj' same
  obtain ⟨rfl, rfl⟩ := entry_inj hj hj' same
  rfl

theorem window_eq_image (p w r n : ℕ) : window p w r n = entry p w '' {e | e.1 < r ∧ e.2 < n} := by
  ext k
  constructor
  · rintro ⟨i, j, hi, hj, rfl⟩
    exact ⟨(i, j), ⟨hi, hj⟩, rfl⟩
  · rintro ⟨⟨i, j⟩, ⟨hi, hj⟩, rfl⟩
    exact ⟨i, j, hi, hj, rfl⟩

/-- A matrix whose entries have all been assigned. -/
theorem Assigns.holds (assigns : Assigns (entry p w) (fun e => M e.1 e.2) {e | e.1 < r ∧ e.2 < n} x x')
    (room : Room x p w r n) : Holds x' p w r n M := by
  intro i j hi hj
  have inside : x'.inside (p + i * w + j) = true := by
    rw [assigns.changes.inside, room _ (mem_window hi hj)]
  rw [read_eq inside]
  exact assigns.assigned (i, j) ⟨hi, hj⟩

/-! ### Values

What is known of arrays without knowing which cells they have. -/

/-- All values in the first `limit` cells satisfy `P`. -/
def ValuesBelow (P : β → Prop) (limit : ℕ) (x : Buffer ℕ β) : Prop := ∀ k v, k < limit → x.read k = some v → P v

/-- All values satisfy `P`. -/
def Values (P : β → Prop) (x : Buffer ℕ β) : Prop := ∀ k v, x.read k = some v → P v

theorem Values.below {P : β → Prop} (values : Values P x) (limit : ℕ) : ValuesBelow P limit x :=
  fun k v _ found => values k v found

theorem readRange_values {P : β → Prop} {limit : ℕ} (values : ValuesBelow P limit x) {p m : ℕ} {l : List β}
    (bound : p + m ≤ limit) (run : x.readRange p m = some l) : ∀ v ∈ l, P v := by
  induction m generalizing p l with
  | zero =>
    cases Option.some.inj run
    exact fun v member => (List.not_mem_nil member).elim
  | succ m ih =>
    simp only [Buffer.readRange, Option.bind_eq_bind, Option.bind_eq_some_iff] at run
    obtain ⟨v, first, rest, others, same⟩ := run
    cases Option.some.inj same
    intro v' member
    rcases List.mem_cons.mp member with rfl | later
    · exact values p v' (by omega) first
    · exact ih (by omega) others v' later

theorem readRange_length {p m : ℕ} {l : List β} (run : x.readRange p m = some l) : l.length = m := by
  induction m generalizing p l with
  | zero =>
    cases Option.some.inj run
    rfl
  | succ m ih =>
    simp only [Buffer.readRange, Option.bind_eq_bind, Option.bind_eq_some_iff] at run
    obtain ⟨v, _, rest, others, same⟩ := run
    cases Option.some.inj same
    rw [List.length_cons, ih others]

theorem write_returns {p : ℕ} {v : β} (run : x.write p v = some x') :
    x'.read p = some v ∧ Changes {p} x x' := by
  have inside : x.inside p = true := (Option.ite_none_right_eq_some.mp run).1
  obtain ⟨written, run', filled, changes⟩ := write_spec inside v
  cases Option.some.inj (run'.symm.trans run)
  refine ⟨?_, changes⟩
  rw [read_eq (by rw [changes.inside, inside]), filled]

theorem write_values {P : β → Prop} {p : ℕ} {v : β} (run : x.write p v = some x') (new : P v) (values : Values P x) :
    Values P x' := by
  obtain ⟨filled, changes⟩ := write_returns run
  intro k v' found
  by_cases written : k = p
  · rw [written, filled] at found
    cases Option.some.inj found
    exact new
  · rw [read_changes changes written] at found
    exact values k v' found

theorem write_above {p : ℕ} {v : β} (run : x.write p v = some x') {k : ℕ} (above : p < k) : x'.cell k = x.cell k :=
  (write_returns run).2.frame k (Nat.ne_of_gt above)

theorem writeRange_values {P : β → Prop} {p : ℕ} {l : List β} (run : x.writeRange p l = some x') (new : ∀ v ∈ l, P v)
    (values : Values P x) : Values P x' := by
  induction l generalizing p x with
  | nil =>
    cases Option.some.inj run
    exact values
  | cons v rest ih =>
    simp only [writeRange, Option.bind_eq_bind, Option.bind_eq_some_iff] at run
    obtain ⟨x₁, first, others⟩ := run
    exact ih others (fun v' member => new v' (List.mem_cons_of_mem _ member))
      (write_values first (new v List.mem_cons_self) values)

theorem writeRange_above {p : ℕ} {l : List β} (run : x.writeRange p l = some x') {k : ℕ} (above : p + l.length ≤ k) :
    x'.cell k = x.cell k := by
  induction l generalizing p x with
  | nil =>
    cases Option.some.inj run
    rfl
  | cons v rest ih =>
    simp only [writeRange, Option.bind_eq_bind, Option.bind_eq_some_iff] at run
    obtain ⟨x₁, first, others⟩ := run
    rw [List.length_cons] at above
    rw [ih others (by omega), write_above first (by omega)]

/-! ### Products -/

section Products
variable {R : Type} [NonUnitalNonAssocSemiring R]

/-- An entry of the product of matrices with `n` columns and `n` rows. -/
def product (n : ℕ) (a b : ℕ → ℕ → R) (i j : ℕ) : R := ∑ k ∈ range n, a i k * b k j

theorem product_add (m n : ℕ) (a b : ℕ → ℕ → R) (i₀ j₀ i j : ℕ) :
    product (m + n) a b (i₀ + i) (j₀ + j) =
      product m (part a i₀ 0) (part b 0 j₀) i j + product n (part a i₀ m) (part b m j₀) i j := by
  simp only [product, part, sum_range_add, Nat.zero_add]

end Products

end CilkArtifact.Buffer
