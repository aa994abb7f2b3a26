import CilkArtifact.Library.Loop
import Mathlib.Data.List.Basic

/-! Arrays with checked indices. A cell is empty until it is written and after its value has been
moved out of it; reading an empty cell fails like reading outside of the array. -/
namespace CilkArtifact

structure Buffer (ι β : Type) where
  inside : ι → Bool
  cell : ι → Option β

namespace Buffer
variable {ι β : Type}

/-- An array of `n` elements that have not been written yet. -/
def raw (n : ℕ) : Buffer ℕ β := ⟨fun i => decide (i < n), fun _ => none⟩

/-- The same with `n` rows of `k` elements. -/
def rawTable (n k : ℕ) : Buffer (ℕ × ℕ) β := ⟨fun i => decide (i.1 < n ∧ i.2 < k), fun _ => none⟩

def read (b : Buffer ι β) (i : ι) : Option β := if b.inside i then b.cell i else none

section Updates
variable [DecidableEq ι]

def write (b : Buffer ι β) (i : ι) (v : β) : Option (Buffer ι β) :=
  if b.inside i then some { b with cell := Function.update b.cell i (some v) } else none

/-- `std::move` from element `i`. -/
def move (b : Buffer ι β) (i : ι) : Option (β × Buffer ι β) := do
  let v ← b.read i
  some (v, { b with cell := Function.update b.cell i none })

end Updates

variable {b b' : Buffer ι β} {i : ι} {v : β}

theorem read_eq (inside : b.inside i = true) : b.read i = b.cell i := if_pos inside

/-- The same array, changed at most in the cells of `S`. -/
structure Changes (S : Set ι) (b b' : Buffer ι β) : Prop where
  inside : b'.inside = b.inside
  frame : ∀ i ∉ S, b'.cell i = b.cell i

variable {S T : Set ι}

theorem Changes.refl (S : Set ι) (b : Buffer ι β) : Changes S b b := ⟨rfl, fun _ _ => rfl⟩

theorem Changes.trans {b'' : Buffer ι β} (first : Changes S b b') (second : Changes S b' b'') : Changes S b b'' :=
  ⟨second.inside.trans first.inside, fun i outside => (second.frame i outside).trans (first.frame i outside)⟩

theorem Changes.mono (changes : Changes S b b') (sub : S ⊆ T) : Changes T b b' :=
  ⟨changes.inside, fun i outside => changes.frame i fun inside => outside (sub inside)⟩

/-- One more cell of `S`. -/
theorem Changes.cell {b'' : Buffer ι β} (changes : Changes S b b') (change : Changes {i} b' b'') (inside : i ∈ S) :
    Changes S b b'' := by
  apply changes.trans (change.mono _)
  rintro _ rfl
  exact inside

theorem write_spec [DecidableEq ι] (inside : b.inside i = true) (v : β) :
    ∃ b', b.write i v = some b' ∧ b'.cell i = some v ∧ Changes {i} b b' := by
  refine ⟨_, if_pos inside, Function.update_self .., rfl, fun k other => ?_⟩
  exact Function.update_of_ne other ..

theorem move_spec [DecidableEq ι] (inside : b.inside i = true) (filled : b.cell i = some v) :
    ∃ b', b.move i = some (v, b') ∧ Changes {i} b b' := by
  refine ⟨{ b with cell := Function.update b.cell i none }, ?_, rfl, fun k other => ?_⟩
  · simp only [move, read_eq inside, filled, Option.bind_eq_bind, Option.bind_some]
  · exact Function.update_of_ne other ..

/-! ### Lists in arrays -/

/-- The indices from `start` on, `n` of them. -/
def span (start n : ℕ) : Set ℕ := {i | start ≤ i ∧ i < start + n}

theorem mem_span {start n i : ℕ} : i ∈ span start n ↔ start ≤ i ∧ i < start + n := Iff.rfl

theorem span_mono {start n start' n' : ℕ} (lower : start' ≤ start) (upper : start + n ≤ start' + n') :
    span start n ⊆ span start' n' :=
  fun _ inside => ⟨Nat.le_trans lower inside.1, Nat.lt_of_lt_of_le inside.2 upper⟩

theorem span_apart {start n start' n' : ℕ} (apart : start + n ≤ start' ∨ start' + n' ≤ start) :
    ∀ k ∈ span start n, k ∉ span start' n' := by
  intro k inside
  rw [mem_span] at inside ⊢
  omega

/-- The elements of `l` are in the cells from `start` on. -/
def Stores (b : Buffer ℕ β) (start : ℕ) (l : List β) : Prop := ∀ t < l.length, b.cell (start + t) = l[t]?

def Spans (b : Buffer ℕ β) (start n : ℕ) : Prop := ∀ i ∈ span start n, b.inside i = true

section Lists
variable {b b' : Buffer ℕ β} {start : ℕ} {l l' : List β} {S : Set ℕ}

theorem stores_nil (b : Buffer ℕ β) (start : ℕ) : Stores b start [] := fun t bound => by cases bound

theorem stores_append : Stores b start (l ++ l') ↔ Stores b start l ∧ Stores b (start + l.length) l' := by
  constructor
  · intro stores
    constructor
    · intro t bound
      rw [stores t (by rw [List.length_append]; omega), List.getElem?_append_left bound]
    · intro t bound
      rw [Nat.add_assoc, stores (l.length + t) (by rw [List.length_append]; omega),
        List.getElem?_append_right (by omega), Nat.add_sub_cancel_left]
  · rintro ⟨first, second⟩ t bound
    rw [List.length_append] at bound
    rcases Nat.lt_or_ge t l.length with before | after
    · rw [first t before, List.getElem?_append_left before]
    · obtain ⟨k, rfl⟩ := Nat.exists_eq_add_of_le after
      rw [← Nat.add_assoc, second k (by omega), List.getElem?_append_right after, Nat.add_sub_cancel_left]

theorem stores_singleton : Stores b start [v] ↔ b.cell start = some v := by
  constructor
  · intro stores
    simpa using stores 0 (by simp)
  · intro filled t bound
    obtain rfl : t = 0 := by simpa using bound
    simpa using filled

theorem stores_cons : Stores b start (v :: l) ↔ b.cell start = some v ∧ Stores b (start + 1) l := by
  rw [← List.singleton_append, stores_append, stores_singleton]
  rfl

theorem Stores.changes (stores : Stores b start l) (changes : Changes S b b')
    (apart : ∀ i ∈ span start l.length, i ∉ S) : Stores b' start l := by
  intro t bound
  rw [changes.frame _ (apart _ (by rw [mem_span]; omega)), stores t bound]

theorem Spans.changes {n : ℕ} (spans : Spans b start n) (changes : Changes S b b') : Spans b' start n := by
  intro i inside
  rw [changes.inside, spans i inside]

theorem Spans.sub {n start' n' : ℕ} (spans : Spans b start n) (lower : start ≤ start')
    (upper : start' + n' ≤ start + n) : Spans b start' n' := by
  intro i inside
  rw [mem_span] at inside
  exact spans i (by rw [mem_span]; omega)

theorem Stores.read_at (stores : Stores b start l) (spans : Spans b start l.length) {t : ℕ} (bound : t < l.length) :
    b.read (start + t) = some l[t] := by
  rw [read_eq (spans _ (by rw [mem_span]; omega)), stores t bound, List.getElem?_eq_getElem bound]

/-- One more element, by a write behind the others. -/
theorem Stores.push (stores : Stores b start l) (written : b'.cell (start + l.length) = some v)
    (changes : Changes {start + l.length} b b') : Stores b' start (l ++ [v]) := by
  rw [stores_append, stores_singleton]
  refine ⟨stores.changes changes fun i inside => ?_, written⟩
  rw [mem_span] at inside
  rintro rfl
  omega

/-- All elements of a range. -/
def readRange (b : Buffer ℕ β) (start : ℕ) : ℕ → Option (List β)
  | 0 => some []
  | n + 1 => do
    let v ← b.read start
    let rest ← b.readRange (start + 1) n
    some (v :: rest)

def writeRange (b : Buffer ℕ β) (start : ℕ) : List β → Option (Buffer ℕ β)
  | [] => some b
  | v :: rest => do
    let b ← b.write start v
    b.writeRange (start + 1) rest

/-- An algorithm on the elements of a range, in place. -/
def onRange (b : Buffer ℕ β) (start n : ℕ) (algorithm : List β → Option (List β)) : Option (Buffer ℕ β) := do
  let elements ← b.readRange start n
  let elements ← algorithm elements
  b.writeRange start elements

theorem readRange_eq (spans : Spans b start l.length) (stores : Stores b start l) :
    b.readRange start l.length = some l := by
  induction l generalizing start with
  | nil => rfl
  | cons v rest ih =>
    rw [stores_cons] at stores
    have first : b.read start = some v := by
      rw [read_eq (spans start (by rw [mem_span, List.length_cons]; omega)), stores.1]
    have others := ih (spans.sub (by omega) (by rw [List.length_cons]; omega)) stores.2
    simp only [List.length_cons, readRange, first, others, Option.bind_eq_bind, Option.bind_some]

theorem writeRange_spec (l : List β) : ∀ {b : Buffer ℕ β} {start : ℕ}, Spans b start l.length →
    ∃ b', b.writeRange start l = some b' ∧ Stores b' start l ∧ Changes (span start l.length) b b' := by
  induction l with
  | nil =>
    intro b start _
    exact ⟨b, rfl, stores_nil b start, .refl _ b⟩
  | cons v rest ih =>
    intro b start spans
    obtain ⟨b₁, run₁, filled, changes₁⟩ :=
      write_spec (spans start (by rw [mem_span, List.length_cons]; omega)) v
    have rest_spans : Spans b₁ (start + 1) rest.length :=
      (spans.changes changes₁).sub (by omega) (by rw [List.length_cons]; omega)
    obtain ⟨b', run, stores, changes⟩ := ih rest_spans
    refine ⟨b', ?_, ?_, ?_⟩
    · simp only [writeRange, run₁, Option.bind_eq_bind, Option.bind_some, run]
    · rw [stores_cons]
      refine ⟨?_, stores⟩
      rw [changes.frame start (by rw [mem_span]; omega), filled]
    · rw [List.length_cons]
      refine (changes₁.mono ?_).trans (changes.mono (span_mono (Nat.le_succ start) (by omega)))
      rintro i rfl
      rw [mem_span]
      omega

theorem onRange_spec {algorithm : List β → Option (List β)} (spans : Spans b start l.length)
    (stores : Stores b start l) (run : algorithm l = some l') (length : l'.length = l.length) :
    ∃ b', b.onRange start l.length algorithm = some b' ∧ Stores b' start l' ∧
      Changes (span start l.length) b b' := by
  have fits : Spans b start l'.length := by rwa [length]
  obtain ⟨b', written, stores', changes⟩ := writeRange_spec l' fits
  rw [length] at changes
  refine ⟨b', ?_, stores', changes⟩
  simp only [onRange, readRange_eq spans stores, run, written, Option.bind_eq_bind, Option.bind_some]

end Lists

end Buffer

end CilkArtifact
