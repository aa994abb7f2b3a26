import CilkArtifact.Cholesky.Count
import CilkArtifact.Library.Stdio

/-! The matrix file of `cholesky`: the comment lines, the line with the sizes and the lines with the entries, as `main`
reads them. What a text is worth as a floating point number and the random numbers are parameters. Variables that are
used before they are set have some value; an unset `double` converts to some `int`. -/
namespace CilkArtifact.Cholesky
open Stdio
variable {K : Type}

def INT_MIN : ℤ := -2 ^ 31

def IsInt (x : ℤ) : Prop := INT_MIN ≤ x ∧ x < 2 ^ 31

instance (x : ℤ) : Decidable (IsInt x) := inferInstanceAs (Decidable (_ ∧ _))

/-- Floating point numbers: the value of a text that `%lf` has matched, the conversion to `int` as far as it is
defined, and `rand () / RAND_MAX` in an iteration. -/
structure Numbers (K : Type) where
  strtod : List Char → K
  toInt : K → Option ℤ
  rnd : ℕ → K

/-- Values of variables that are not set: the buffer, the sizes, and the column and the value in an iteration. -/
structure Unset (K : Type) where
  buf : List Char
  sizex : ℤ
  sizey : ℤ
  c : ℕ → ℤ
  val : ℕ → K
  sizes_int : IsInt sizex ∧ IsInt sizey
  c_int : ∀ k, IsInt (c k)

/-- The arguments of a call of `set_matrix`. -/
structure SetCall where
  depth : ℕ
  r : ℤ
  c : ℤ

/-- `main` while it reads, with the calls of `set_matrix` up to now. -/
structure Reading (K : Type) where
  f : File
  buf : List Char
  a : Option ℕ
  m : Memory K
  nonzeros : ℕ
  calls : List SetCall

/-- The end of the reading: by itself, by an assertion that fails, or by something that is not defined. -/
inductive Outcome (K : Type) where
  | finished (s : Reading K)
  | aborted (s : Reading K)
  | undefined (s : Reading K)

def Outcome.calls : Outcome K → List SetCall
  | finished s => s.calls
  | aborted s => s.calls
  | undefined s => s.calls

/-- What an iteration leads to. -/
inductive Step (K : Type) where
  | stop (o : Outcome K)
  | next (s : Reading K)

/-- The size of `buf`, without the character that ends the string. -/
def LINE : ℕ := 999

/-- `do fgets (buf, 1000, f); while (buf[0] == '%')`; here `leftact% f a b` is `f a b`. -/
def skipComments (f : File) (buf : List Char) : Option (File × List Char) :=
  if (fgets LINE f buf).2.head? = some '%' then leftact% skipComments (fgets LINE f buf).1 (fgets LINE f buf).2
  else some (fgets LINE f buf)
partial_fixpoint

/-- `sizex` and `sizey` after `sscanf (buf, "%d %d", &sizex, &sizey)`. -/
def scanSizes (unset : Unset K) (buf : List Char) : Option (ℤ × ℤ) :=
  match (sscanf takeInt 2 (cString buf)).map intValue with
  | [] => some (unset.sizex, unset.sizey)
  | [x] => if IsInt x then some (x, unset.sizey) else none
  | x :: y :: _ => if IsInt x ∧ IsInt y then some (x, y) else none

def logarithmFrom (size : ℤ) (k : ℕ) : Option ℕ := do
  let power ← oneShifted k
  if power < size then leftact% logarithmFrom size (k + 1) else some k
partial_fixpoint

def logarithm (size : ℤ) : Option ℕ := logarithmFrom size 0

/-- `x--` in type `int`. -/
def decrement (x : ℤ) : Option ℤ := if x = INT_MIN then none else some (x - 1)

/-- Both are decremented, and the larger one is the row. -/
def arrange (r c : ℤ) : Option (ℤ × ℤ) := do
  let r ← decrement r
  let c ← decrement c
  some (if r < c then (c, r) else (r, c))

section Entries
variable [CommRing K] (num : Numbers K) (unset : Unset K)

/-- `r`, `c` and `val` after the texts that `%lf %lf %lf` has matched, of which there is at least one. -/
def scanEntry (k : ℕ) : List (List Char) → Option (ℤ × ℤ × K)
  | [] => none
  | [fr] => do
    let r ← num.toInt (num.strtod fr)
    some (r, unset.c k, unset.val k)
  | [fr, fc] => do
    let r ← num.toInt (num.strtod fr)
    let c ← num.toInt (num.strtod fc)
    some (r, c, if r = c then 100000 * num.rnd k else num.rnd k)
  | fr :: fc :: val :: _ => do
    let r ← num.toInt (num.strtod fr)
    let c ← num.toInt (num.strtod fc)
    some (r, c, num.strtod val)

/-- `A = set_matrix (depth, A, r, c, val); nonzeros++`. A negative index is outside of a block. -/
def callSetMatrix (depth : ℕ) (r c : ℤ) (val : K) (s : Reading K) : Step K :=
  if depth < BLOCK_DEPTH then .stop (.aborted { s with calls := s.calls ++ [⟨depth, r, c⟩] })
  else if r < 0 ∨ c < 0 then .stop (.undefined { s with calls := s.calls ++ [⟨depth, r, c⟩] })
  else
    match setMatrixAt (depth - BLOCK_DEPTH) s.a r.toNat c.toNat val s.m, addInt s.nonzeros 1 with
    | some (a, m), some nonzeros =>
      .next { s with a := a, m := m, nonzeros := nonzeros, calls := s.calls ++ [⟨depth, r, c⟩] }
    | _, _ => .stop (.undefined { s with calls := s.calls ++ [⟨depth, r, c⟩] })

/-- The body of the loop after `fgets`. -/
def readEntry (size : ℤ) (depth : ℕ) (s : Reading K) : Step K :=
  match sscanf takeReal 3 (cString s.buf) with
  | [] => .stop (.finished s)
  | item :: items =>
    match scanEntry num unset s.nonzeros (item :: items) with
    | none => .stop (.undefined s)
    | some (r, c, val) =>
      match arrange r c with
      | none => .stop (.undefined s)
      | some (r, c) =>
        if r ≥ c ∧ r < size ∧ c < size then callSetMatrix depth r c val s else .stop (.aborted s)

def Reading.readEntries (size : ℤ) (depth : ℕ) (s : Reading K) : Option (Outcome K) :=
  if s.f.eof then some (.finished s)
  else
    match readEntry num unset size depth { s with f := (fgets LINE s.f s.buf).1, buf := (fgets LINE s.f s.buf).2 } with
    | .stop o => some o
    | .next s => s |>.readEntries size depth
partial_fixpoint

export Reading (readEntries)

/-- The file input of `main`; it has no result if it does not come to an end. -/
def readFile (m : Memory K) (file : List Char) : Option (Outcome K) := do
  let (f, buf) ← skipComments ⟨file, false⟩ unset.buf
  let start : Reading K := ⟨f, buf, none, m, 0, []⟩
  match scanSizes unset buf with
  | none => some (.undefined start)
  | some (sizex, sizey) =>
    if sizex = sizey then
      match logarithm sizex with
      | none => some (.undefined start)
      | some depth => readEntries num unset sizex depth start
    else some (.aborted start)

end Entries

/-! ### The size -/

theorem logarithmFrom_step (size : ℤ) {k : ℕ} (small : k ≤ 30) :
    logarithmFrom size k = if (2 : ℤ) ^ k < size then logarithmFrom size (k + 1) else some k := by
  have power : oneShifted k = some (2 ^ k) := if_pos (Nat.lt_succ_of_le small)
  rw [logarithmFrom, power]
  simp only [Option.bind_eq_bind, Option.bind_some, Nat.cast_pow, Nat.cast_ofNat]

theorem logarithmFrom_eq {size : ℤ} (fits : size ≤ 2 ^ 30) (n : ℕ) : ∀ {k : ℕ}, k + n = 30 →
    (∀ j < k, (2 : ℤ) ^ j < size) → ∃ depth ≤ 30, logarithmFrom size k = some depth ∧ size ≤ 2 ^ depth ∧
      ∀ j < depth, (2 : ℤ) ^ j < size := by
  induction n with
  | zero =>
    intro k last before
    obtain rfl : k = 30 := last
    refine ⟨30, le_rfl, ?_, fits, before⟩
    rw [logarithmFrom_step size le_rfl, if_neg (not_lt.mpr fits)]
  | succ n ih =>
    intro k more before
    rw [logarithmFrom_step size (by omega)]
    by_cases less : (2 : ℤ) ^ k < size
    · rw [if_pos less]
      refine ih (by omega) fun j small => ?_
      rcases Nat.lt_succ_iff_lt_or_eq.mp small with old | rfl
      · exact before j old
      · exact less
    · rw [if_neg less]
      exact ⟨k, by omega, rfl, not_lt.mp less, before⟩

/-- The depth is the least one with room for the matrix. -/
theorem logarithm_eq {size : ℤ} (fits : size ≤ 2 ^ 30) :
    ∃ depth ≤ 30, logarithm size = some depth ∧ size ≤ 2 ^ depth ∧ ∀ j < depth, (2 : ℤ) ^ j < size :=
  logarithmFrom_eq fits 30 (k := 0) rfl fun j small => absurd small (Nat.not_lt_zero j)

theorem logarithm_overflow {size : ℤ} (large : 2 ^ 30 < size) : logarithm size = none := by
  have none : ∀ depth, logarithm size ≠ some depth := by
    intro depth run
    have spec : size ≤ 2 ^ depth ∧ depth ≤ 30 := by
      refine logarithmFrom.partial_correctness size (fun _ depth => size ≤ 2 ^ depth ∧ depth ≤ 30) ?_ 0 depth run
      intro loop ih k depth run
      simp only [oneShifted, Option.bind_eq_bind, Option.bind_eq_some_iff, Option.ite_none_right_eq_some] at run
      obtain ⟨power, ⟨small, same⟩, run⟩ := run
      cases Option.some.inj same
      split at run
      · exact ih _ _ run
      · next enough =>
        cases Option.some.inj run
        exact ⟨by push_cast at enough; exact not_lt.mp enough, by omega⟩
    have bound : (2 : ℤ) ^ depth ≤ 2 ^ 30 := by gcongr <;> omega
    omega
  cases run : logarithm size with
  | none => rfl
  | some depth => exact absurd run (none depth)

/-! ### Comments -/

def isComment (piece : List Char) : Bool := piece.head? = some '%'

/-- The comments are skipped up to the first line that is none. -/
theorem skipComments_eq {first : List Char} {more : List (List Char)} (other : isComment first = false)
    (comments : List (List Char)) : ∀ {f : File} {buf : List Char}, (∀ piece ∈ comments, isComment piece = true) →
    f.eof = false → pieces LINE f.rest = comments ++ first :: more →
    ∃ rest, skipComments f buf = some (⟨rest, cutOff LINE first⟩, first) ∧ pieces LINE rest = more ∧
      (cutOff LINE first = true → more = []) := by
  induction comments with
  | nil =>
    intro f buf _ open' next
    obtain ⟨rest, read, others, ended⟩ := fgets_piece buf (by decide) next
    refine ⟨rest, ?_, others, ended⟩
    rw [skipComments, read, open', if_neg (of_decide_eq_false other)]
    rfl
  | cons comment comments ih =>
    intro f buf all open' next
    obtain ⟨rest, read, others, ended⟩ := fgets_piece buf (by decide) next
    have more : cutOff LINE comment = false := by
      cases cut : cutOff LINE comment with
      | false => rfl
      | true =>
        have none := ended cut
        rw [List.append_eq, List.append_eq_nil_iff] at none
        cases none.2
    rw [skipComments, read, if_pos (of_decide_eq_true (all comment (List.mem_cons_self ..)))]
    exact ih (fun piece member => all piece (List.mem_cons_of_mem _ member)) (by rw [open', more]; rfl) others

/-- A file with comments only keeps the loop going, and so does an empty file with a `%` in the buffer. -/
theorem skipComments_diverges {f : File} {buf : List Char} (all : ∀ piece ∈ pieces LINE f.rest, isComment piece = true)
    (last : pieces LINE f.rest = [] → isComment buf = true) : skipComments f buf = none := by
  cases run : skipComments f buf with
  | none => rfl
  | some result =>
    exfalso
    refine skipComments.partial_correctness
      (fun f buf _ => (∀ piece ∈ pieces LINE f.rest, isComment piece = true) →
        (pieces LINE f.rest = [] → isComment buf = true) → False) ?_ f buf result run all last
    intro loop ih f buf result run all last
    cases next : pieces LINE f.rest with
    | nil =>
      have empty : f.rest = [] := (pieces_eq_nil (by decide)).mp next
      rw [fgets_end empty, if_pos (of_decide_eq_true (last next))] at run
      exact ih _ _ _ run all last
    | cons piece more =>
      obtain ⟨rest, read, others, -⟩ := fgets_piece buf (by decide) next
      have comment : isComment piece = true := all piece (by rw [next]; exact List.mem_cons_self ..)
      rw [read, if_pos (of_decide_eq_true comment)] at run
      refine ih _ _ _ run (fun piece' member => all piece' ?_) fun _ => comment
      rw [next]
      rw [others] at member
      exact List.mem_cons_of_mem _ member

/-! ### Entries -/

section Loop
variable [CommRing K] {num : Numbers K} {unset : Unset K} {size : ℤ} {depth : ℕ} {s s' : Reading K}

theorem callSetMatrix_next {r c : ℤ} {val : K} (step : callSetMatrix depth r c val s = .next s') :
    s'.f = s.f ∧ s'.buf = s.buf ∧ s'.nonzeros = s.nonzeros + 1 := by
  simp only [callSetMatrix] at step
  split at step
  · cases step
  · split at step
    · cases step
    · split at step
      · next counted =>
        cases step
        exact ⟨rfl, rfl, (Option.some.inj (Option.ite_none_right_eq_some.mp counted).2).symm⟩
      · cases step

theorem callSetMatrix_not_finished {r c : ℤ} {val : K} : callSetMatrix depth r c val s ≠ .stop (.finished s') := by
  intro step
  simp only [callSetMatrix] at step
  split at step
  · cases step
  · split at step
    · cases step
    · split at step <;> cases step

variable (num unset size depth s) in
/-- The only way for an iteration to end the reading by itself is a piece without a number. -/
theorem readEntry_cases :
    readEntry num unset size depth s = .stop (.finished s) ∧ sscanf takeReal 3 (cString s.buf) = [] ∨
    (∃ s', readEntry num unset size depth s = .stop (.undefined s')) ∨
    (∃ s', readEntry num unset size depth s = .stop (.aborted s')) ∨
    ∃ r c val, readEntry num unset size depth s = callSetMatrix depth r c val s := by
  rw [readEntry]
  split
  · next none => exact .inl ⟨rfl, none⟩
  · split
    · exact .inr (.inl ⟨s, rfl⟩)
    · split
      · exact .inr (.inl ⟨s, rfl⟩)
      · split
        · exact .inr (.inr (.inr ⟨_, _, _, rfl⟩))
        · exact .inr (.inr (.inl ⟨s, rfl⟩))

theorem readEntry_next (step : readEntry num unset size depth s = .next s') :
    s'.f = s.f ∧ s'.buf = s.buf ∧ s'.nonzeros = s.nonzeros + 1 := by
  rcases readEntry_cases num unset size depth s with finished | ⟨_, undefined⟩ | ⟨_, aborted⟩ | ⟨r, c, val, call⟩
  · cases finished.1.symm.trans step
  · cases undefined.symm.trans step
  · cases aborted.symm.trans step
  · exact callSetMatrix_next (call.symm.trans step)

theorem readEntry_finished (step : readEntry num unset size depth s = .stop (.finished s')) :
    sscanf takeReal 3 (cString s.buf) = [] := by
  rcases readEntry_cases num unset size depth s with finished | ⟨_, undefined⟩ | ⟨_, aborted⟩ | ⟨r, c, val, call⟩
  · exact finished.2
  · cases undefined.symm.trans step
  · cases aborted.symm.trans step
  · exact absurd (call.symm.trans step) callSetMatrix_not_finished

/-- The pieces that the loop parses after `last`: the last piece of a file is parsed again, unless the file ends in
it. -/
def toCome (last : List Char) : List (List Char) → List (List Char)
  | [] => if cutOff LINE last then [] else [last]
  | piece :: more => piece :: toCome piece more

/-- The file is read up to the piece in the buffer. -/
structure At (s : Reading K) (more : List (List Char)) : Prop where
  rest : pieces LINE s.f.rest = more
  eof : s.f.eof = cutOff LINE s.buf
  last : cutOff LINE s.buf = true → more = []

theorem readEntries_eof (eof : s.f.eof = true) : readEntries num unset size depth s = some (.finished s) := by
  rw [readEntries, if_pos eof]

variable (num unset size depth) in
/-- The loop takes the pieces one after the other. -/
theorem readEntries_induct {motive : Reading K → List (List Char) → Option (Outcome K) → Prop}
    (done : ∀ s, motive s [] (some (.finished s)))
    (stop : ∀ s piece more f o, readEntry num unset size depth { s with f := f, buf := piece } = .stop o →
      motive s (piece :: more) (some o))
    (next : ∀ s piece more f s' result, readEntry num unset size depth { s with f := f, buf := piece } = .next s' →
      motive s' more result → motive s (piece :: more) result)
    (more : List (List Char)) : ∀ {s : Reading K}, At s more →
      motive s (toCome s.buf more) (readEntries num unset size depth s) := by
  induction more with
  | nil =>
    intro s ready
    rw [toCome]
    cases cut : cutOff LINE s.buf with
    | true =>
      rw [readEntries_eof (ready.eof.trans cut)]
      exact done s
    | false =>
      -- nothing is left to read, and the buffer is parsed once more
      rw [readEntries, ready.eof.trans cut, fgets_end ((pieces_eq_nil (by decide)).mp ready.rest)]
      cases step : readEntry num unset size depth { s with f := { s.f with eof := true } } with
      | stop o => exact stop s s.buf [] _ o step
      | next s' =>
        dsimp only
        apply next s s.buf [] _ s' _ step
        rw [readEntries_eof (by rw [(readEntry_next step).1])]
        exact done s'
  | cons piece more ih =>
    intro s ready
    have open' : s.f.eof = false := by
      rw [ready.eof, Bool.eq_false_iff]
      exact fun cut => List.cons_ne_nil _ _ (ready.last cut)
    obtain ⟨rest, read, others, ended⟩ := fgets_piece s.buf (by decide) ready.rest
    rw [open'] at read
    rw [readEntries, open', read]
    cases step : readEntry num unset size depth { s with f := ⟨rest, cutOff LINE piece⟩, buf := piece } with
    | stop o =>
      simp only [Bool.false_or, step]
      exact stop s piece _ _ o step
    | next s' =>
      obtain ⟨sameFile, sameBuf, -⟩ := readEntry_next step
      have ready' : At s' more :=
        ⟨by rw [sameFile]; exact others, by rw [sameFile, sameBuf], by rw [sameBuf]; exact ended⟩
      have after := ih ready'
      rw [show s'.buf = piece from sameBuf] at after
      simp only [Bool.false_or, step]
      exact next s piece _ _ s' _ step after

end Loop

end CilkArtifact.Cholesky
