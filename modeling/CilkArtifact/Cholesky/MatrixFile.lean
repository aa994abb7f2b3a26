import CilkArtifact.Cholesky.Reader
import Mathlib.Data.List.TakeWhile

/-! What the reading of a matrix file comes to, for every content of the file. -/
namespace CilkArtifact.Cholesky
open Stdio Quadtree
variable {K : Type}

/-- The call is inside of the lower triangle. -/
def SetCall.Fine (call : SetCall) : Prop := 0 ≤ call.c ∧ call.c ≤ call.r ∧ call.r < 2 ^ call.depth

/-- The reading ends in a defined way, and all calls of `set_matrix` were inside of the lower triangle. -/
def Outcome.Fine (o : Outcome K) : Prop := (∀ s, o ≠ .undefined s) ∧ ∀ call ∈ o.calls, call.Fine

theorem fine_finished {s : Reading K} (fine : ∀ call ∈ s.calls, call.Fine) : (Outcome.finished s).Fine :=
  ⟨fun _ same => (by cases same), fine⟩

theorem fine_aborted {s : Reading K} (fine : ∀ call ∈ s.calls, call.Fine) : (Outcome.aborted s).Fine :=
  ⟨fun _ same => (by cases same), fine⟩

/-- What becomes of the reading at a piece of the file that stands for an entry. -/
inductive Verdict where
  | goesOn | stops | wrong
  deriving DecidableEq

/-- The loop ends without a number, and an assertion ends the reading if a coordinate is above `size` or there is no
room for a block. -/
def verdict (num : Numbers K) (size : ℤ) (piece : List Char) : Verdict :=
  match sscanf takeReal 3 (cString piece) with
  | [] => .stops
  | [_] => .wrong
  | fr :: fc :: _ =>
    match num.toInt (num.strtod fr), num.toInt (num.strtod fc) with
    | some r, some c =>
      if r = INT_MIN ∨ c = INT_MIN then .wrong
      else if size < max r c then .stops
      else if min r c < 1 then .wrong
      else if size ≤ 2 then .stops else .goesOn
    | _, _ => .wrong

theorem not_fine_undefined (s : Reading K) : ¬ (Outcome.undefined s).Fine := fun fine => fine.1 s rfl

section Line
variable [CommRing K] {num : Numbers K} {unset : Unset K} {size : ℤ} {depth : ℕ} {s : Reading K}
  {entries : List (Entry K)}

variable (unset) in
theorem scanEntry_some {fr fc : List Char} {r c : ℤ} (more : List (List Char)) (k : ℕ)
    (row : num.toInt (num.strtod fr) = some r) (col : num.toInt (num.strtod fc) = some c) :
    ∃ val, scanEntry num unset k (fr :: fc :: more) = some (r, c, val) := by
  cases more with
  | nil => exact ⟨_, by simp only [scanEntry, row, col, Option.bind_eq_bind, Option.bind_some]; rfl⟩
  | cons val more => exact ⟨_, by simp only [scanEntry, row, col, Option.bind_eq_bind, Option.bind_some]; rfl⟩

theorem scanEntry_none {fr fc : List Char} (more : List (List Char)) (k : ℕ)
    (undefined : num.toInt (num.strtod fr) = none ∨ num.toInt (num.strtod fc) = none) :
    scanEntry num unset k (fr :: fc :: more) = none := by
  rcases undefined with row | col
  · cases more <;> simp only [scanEntry, row, Option.bind_eq_bind, Option.bind_none]
  · cases more <;> simp only [scanEntry, col, Option.bind_eq_bind, Option.bind_none, Option.bind_fun_none]

theorem arrange_eq {r c : ℤ} (row : r ≠ INT_MIN) (col : c ≠ INT_MIN) :
    arrange r c = some (max r c - 1, min r c - 1) := by
  simp only [arrange, decrement, if_neg row, if_neg col, Option.bind_eq_bind, Option.bind_some, Option.some.injEq]
  split
  · next less => rw [max_eq_right (by omega), min_eq_left (by omega)]
  · next atLeast => rw [max_eq_left (by omega), min_eq_right (by omega)]

theorem arrange_none {r c : ℤ} (overflow : r = INT_MIN ∨ c = INT_MIN) : arrange r c = none := by
  rcases overflow with row | col
  · simp only [arrange, decrement, if_pos row, Option.bind_eq_bind, Option.bind_none]
  · have none : decrement c = none := if_pos col
    simp only [arrange, none, Option.bind_eq_bind, Option.bind_none, Option.bind_fun_none]

/-- An iteration on a piece with two coordinates. -/
theorem readEntry_two {item : List Char} {items : List (List Char)} {r c : ℤ} {val : K}
    (matched : sscanf takeReal 3 (cString s.buf) = item :: items)
    (scanned : scanEntry num unset s.nonzeros (item :: items) = some (r, c, val)) (row : r ≠ INT_MIN)
    (col : c ≠ INT_MIN) : readEntry num unset size depth s =
      if max r c ≤ size then callSetMatrix depth (max r c - 1) (min r c - 1) val s else .stop (.aborted s) := by
  have inside : max r c - 1 ≥ min r c - 1 ∧ max r c - 1 < size ∧ min r c - 1 < size ↔ max r c ≤ size := by
    have := min_le_max (a := r) (b := c)
    omega
  simp only [readEntry, matched, scanned, arrange_eq row col, inside]

/-- The depth goes with the size. -/
structure Fits (size : ℤ) (depth : ℕ) : Prop where
  shiftable : depth ≤ 30
  room : size ≤ 2 ^ depth
  least : ∀ j < depth, (2 : ℤ) ^ j < size

theorem Fits.block (fits : Fits size depth) : depth < BLOCK_DEPTH ↔ size ≤ 2 := by
  rw [BLOCK_DEPTH]
  constructor
  · intro small
    have room := fits.room
    interval_cases depth <;> omega
  · intro small
    by_contra deep
    have less := fits.least 1 (by omega)
    omega

/-- The reading may go on: all calls were fine, and `A` is a matrix in memory with these entries. -/
structure Going (depth : ℕ) (entries : List (Entry K)) (s : Reading K) : Prop where
  calls : ∀ call ∈ s.calls, call.Fine
  matrix : ∃ t : Quadtree K (depth - BLOCK_DEPTH), EntriesSet entries t s.m ∧ t.pointer = s.a

theorem Going.call {r c : ℤ} (going : Going depth entries s) (fine : SetCall.Fine ⟨depth, r, c⟩) :
    ∀ call ∈ s.calls ++ [⟨depth, r, c⟩], call.Fine := by
  intro call member
  rcases List.mem_append.mp member with old | new
  · exact going.calls call old
  · rwa [List.mem_singleton.mp new]

/-- The entries can be counted in an `int`. -/
def IntCount (count : ℕ) : Prop := count < 2 ^ 31

theorem Fits.shiftable_level (fits : Fits size depth) (large : 2 < size) : Shiftable (depth - BLOCK_DEPTH) ∧
    (Cholesky.size (depth - BLOCK_DEPTH) : ℤ) = 2 ^ depth := by
  have deep : ¬ depth < BLOCK_DEPTH := by
    rw [fits.block]
    omega
  have level : BLOCK_DEPTH + (depth - BLOCK_DEPTH) = depth := by omega
  rw [Shiftable, Cholesky.size, level]
  exact ⟨fits.shiftable, by push_cast; rfl⟩

/-- A call with coordinates of the lower triangle. -/
theorem callSetMatrix_fine {r c : ℤ} (val : K) (fits : Fits size depth) (going : Going depth entries s)
    (large : 2 < size) (fine : SetCall.Fine ⟨depth, r, c⟩) :
    (IntCount (s.nonzeros + 1) →
      ∃ s', callSetMatrix depth r c val s = .next s' ∧ Going depth (entries ++ [⟨r.toNat, c.toNat, val⟩]) s') ∧
      (¬ IntCount (s.nonzeros + 1) → ∃ s', callSetMatrix depth r c val s = .stop (.undefined s')) := by
  obtain ⟨lower, order, upper⟩ := fine
  dsimp only at lower order upper
  have deep : ¬ depth < BLOCK_DEPTH := by
    rw [fits.block]
    omega
  have inside : ¬ (r < 0 ∨ c < 0) := by omega
  obtain ⟨t, set, pointer⟩ := going.matrix
  obtain ⟨shiftable, side⟩ := fits.shiftable_level large
  obtain ⟨t', m', run, after⟩ := setMatrixAt_spec (depth - BLOCK_DEPTH) (r := r.toNat) (c := c.toNat) val shiftable
    set.owned (by omega) (by omega)
  rw [pointer] at run
  constructor
  · intro small
    have counted : addInt s.nonzeros 1 = some (s.nonzeros + 1) := if_pos small
    refine ⟨{ s with a := t'.pointer, m := m', nonzeros := s.nonzeros + 1, calls := s.calls ++ [⟨depth, r, c⟩] }, ?_,
      going.call ⟨lower, order, upper⟩, t', EntriesSet.step (e := ⟨r.toNat, c.toNat, val⟩) set after, rfl⟩
    simp only [callSetMatrix, if_neg deep, if_neg inside, run, counted]
  · intro large
    have overflow : addInt s.nonzeros 1 = none := if_neg large
    exact ⟨_, by simp only [callSetMatrix, if_neg deep, if_neg inside, run, overflow]; rfl⟩

/-- A call with a negative column. -/
theorem callSetMatrix_wrong {r c : ℤ} (val : K) (negative : c < 0) :
    ∃ o, callSetMatrix depth r c val s = .stop o ∧ ¬ o.Fine := by
  rw [callSetMatrix]
  by_cases shallow : depth < BLOCK_DEPTH
  · rw [if_pos shallow]
    refine ⟨_, rfl, fun fine => ?_⟩
    have call := fine.2 ⟨depth, r, c⟩ (List.mem_append_right _ (List.mem_singleton_self _))
    exact absurd call.1 (not_le.mpr negative)
  · rw [if_neg shallow, if_pos (.inr negative)]
    exact ⟨_, rfl, not_fine_undefined _⟩

variable (unset depth s) in
/-- What an iteration leads to for each verdict. With the worst value for a column that is not set, a piece that is
wrong breaks the rules. -/
def Leads (step : Step K) : Verdict → Prop
  | .goesOn => (IntCount (s.nonzeros + 1) → ∃ s' entries, step = .next s' ∧ Going depth entries s') ∧
      (¬ IntCount (s.nonzeros + 1) → ∃ s', step = .stop (.undefined s'))
  | .stops => ∃ o, step = .stop o ∧ o.Fine
  | .wrong => (∀ k, unset.c k = INT_MIN) → ∃ o, step = .stop o ∧ ¬ o.Fine

theorem leads_undefined : Leads unset depth s (.stop (.undefined s)) .wrong :=
  fun _ => ⟨.undefined s, rfl, not_fine_undefined s⟩

/-- A call with coordinates that the assertions let through. -/
theorem callSetMatrix_leads {r c : ℤ} (val : K) (fits : Fits size depth) (going : Going depth entries s)
    (inside : max r c ≤ size) :
    Leads unset depth s (callSetMatrix depth (max r c - 1) (min r c - 1) val s)
      (if min r c < 1 then .wrong else if size ≤ 2 then .stops else .goesOn) := by
  have order := min_le_max (a := r) (b := c)
  by_cases low : min r c < 1
  · rw [if_pos low]
    exact fun _ => callSetMatrix_wrong val (by omega)
  · rw [if_neg low]
    have room := fits.room
    have fine : SetCall.Fine ⟨depth, max r c - 1, min r c - 1⟩ :=
      ⟨by dsimp only; omega, by dsimp only; omega, by dsimp only; omega⟩
    by_cases small : size ≤ 2
    · rw [if_pos small, callSetMatrix, if_pos (fits.block.mpr small)]
      exact ⟨_, rfl, fine_aborted (going.call fine)⟩
    · rw [if_neg small]
      obtain ⟨goesOn, overflow⟩ := callSetMatrix_fine val fits going (by omega) fine
      refine ⟨fun small => ?_, overflow⟩
      obtain ⟨s', step, going'⟩ := goesOn small
      exact ⟨s', _, step, going'⟩

theorem readEntry_leads (fits : Fits size depth) (going : Going depth entries s) :
    Leads unset depth s (readEntry num unset size depth s) (verdict num size s.buf) := by
  rw [verdict]
  cases items : sscanf takeReal 3 (cString s.buf) with
  | nil =>
    simp only [readEntry, items]
    exact ⟨.finished s, rfl, fine_finished going.calls⟩
  | cons fr rest =>
    cases rest with
    | nil =>
      intro worst
      simp only [readEntry, items, scanEntry, worst]
      cases num.toInt (num.strtod fr) with
      | none => exact ⟨_, rfl, not_fine_undefined s⟩
      | some r =>
        simp only [Option.bind_eq_bind, Option.bind_some, arrange_none (.inr rfl)]
        exact ⟨_, rfl, not_fine_undefined s⟩
    | cons fc more =>
      cases row : num.toInt (num.strtod fr) with
      | none =>
        simp only [readEntry, items, scanEntry_none more s.nonzeros (.inl row), row]
        exact leads_undefined
      | some r =>
        cases col : num.toInt (num.strtod fc) with
        | none =>
          simp only [readEntry, items, scanEntry_none more s.nonzeros (.inr col), row, col]
          exact leads_undefined
        | some c =>
          simp only [row, col]
          obtain ⟨val, scanned⟩ := scanEntry_some unset more s.nonzeros row col
          by_cases overflow : r = INT_MIN ∨ c = INT_MIN
          · simp only [readEntry, items, scanned, arrange_none overflow, if_pos overflow]
            exact leads_undefined
          · rw [if_neg overflow]
            rw [not_or] at overflow
            rw [readEntry_two items scanned overflow.1 overflow.2]
            by_cases inside : max r c ≤ size
            · rw [if_pos inside, if_neg (not_lt.mpr inside)]
              exact callSetMatrix_leads val fits going inside
            · rw [if_neg inside, if_pos (not_le.mp inside)]
              exact ⟨.aborted s, rfl, fine_aborted going.calls⟩

end Line

/-! ### The loop -/

/-- The pieces after `count` entries: the first one at which the loop does not go on is not wrong, and the entries
before it can be counted. -/
def PiecesFine (num : Numbers K) (size : ℤ) : ℕ → List (List Char) → Prop
  | _, [] => True
  | count, piece :: more =>
    match verdict num size piece with
    | .goesOn => IntCount (count + 1) ∧ PiecesFine num size (count + 1) more
    | .stops => True
    | .wrong => False

section Loop
variable [CommRing K] {num : Numbers K} {unset : Unset K} {size : ℤ} {depth : ℕ} {more : List (List Char)}
  {s : Reading K}

/-- An iteration that stops, judged by what is to come. -/
theorem Leads.stop {piece : List Char} {o : Outcome K}
    (leads : Leads unset depth s (.stop o) (verdict num size piece))
    (settled : PiecesFine num size s.nonzeros (piece :: more) ∨ ∀ k, unset.c k = INT_MIN) :
    o.Fine ↔ PiecesFine num size s.nonzeros (piece :: more) := by
  rw [PiecesFine] at settled ⊢
  cases judged : verdict num size piece with
  | goesOn =>
    rw [judged] at leads
    by_cases small : IntCount (s.nonzeros + 1)
    · obtain ⟨s', entries, same, -⟩ := leads.1 small
      cases same
    · obtain ⟨s', same⟩ := leads.2 small
      cases same
      exact iff_of_false (not_fine_undefined s') fun fine => small fine.1
  | stops =>
    rw [judged] at leads
    obtain ⟨o', same, fine⟩ := leads
    cases same
    exact iff_of_true fine trivial
  | wrong =>
    rw [judged] at leads settled
    obtain ⟨o', same, broken⟩ := leads (settled.resolve_left id)
    cases same
    exact iff_of_false broken id

/-- An iteration that goes on. -/
theorem Leads.next {piece : List Char} {s' : Reading K}
    (leads : Leads unset depth s (.next s') (verdict num size piece))
    (settled : PiecesFine num size s.nonzeros (piece :: more) ∨ ∀ k, unset.c k = INT_MIN) :
    verdict num size piece = .goesOn ∧ IntCount (s.nonzeros + 1) ∧ ∃ entries, Going depth entries s' := by
  rw [PiecesFine] at settled
  cases judged : verdict num size piece with
  | goesOn =>
    rw [judged] at leads
    by_cases small : IntCount (s.nonzeros + 1)
    · obtain ⟨_, entries, same, going⟩ := leads.1 small
      cases same
      exact ⟨rfl, small, entries, going⟩
    · obtain ⟨_, same⟩ := leads.2 small
      cases same
  | stops =>
    rw [judged] at leads
    obtain ⟨_, same, -⟩ := leads
    cases same
  | wrong =>
    rw [judged] at leads settled
    obtain ⟨_, same, -⟩ := leads (settled.resolve_left id)
    cases same

variable (num unset) in
/-- The loop always ends, and when it does so in a fine way. -/
theorem readEntries_fine_iff (fits : Fits size depth) (ready : At s more) (going : ∃ entries, Going depth entries s)
    (settled : PiecesFine num size s.nonzeros (toCome s.buf more) ∨ ∀ k, unset.c k = INT_MIN) :
    ∃ o, readEntries num unset size depth s = some o ∧
      (o.Fine ↔ PiecesFine num size s.nonzeros (toCome s.buf more)) := by
  have leads : ∀ {s : Reading K} (piece : List Char) (f : File), (∃ entries, Going depth entries s) →
      Leads unset depth { s with f := f, buf := piece } (readEntry num unset size depth { s with f := f, buf := piece })
        (verdict num size piece) :=
    fun piece f ⟨_, going⟩ => readEntry_leads fits ⟨going.calls, going.matrix⟩
  refine readEntries_induct num unset size depth (motive := fun s toCome result => (∃ entries, Going depth entries s) →
    (PiecesFine num size s.nonzeros toCome ∨ ∀ k, unset.c k = INT_MIN) →
    ∃ o, result = some o ∧ (o.Fine ↔ PiecesFine num size s.nonzeros toCome)) ?done ?stop ?next more ready going settled
  case done =>
    rintro s ⟨entries, going⟩ _
    exact ⟨.finished s, rfl, iff_of_true (fine_finished going.calls) trivial⟩
  case stop =>
    intro s piece more f o step going settled
    have leads := leads piece f going
    rw [step] at leads
    exact ⟨o, rfl, leads.stop settled⟩
  case next =>
    intro s piece more f s' result step after going settled
    have leads := leads piece f going
    rw [step] at leads
    obtain ⟨judged, small, going'⟩ := leads.next settled
    have count : s'.nonzeros = s.nonzeros + 1 := (readEntry_next step).2.2
    simp only [PiecesFine, judged, ← count] at settled ⊢
    obtain ⟨o, run, fine⟩ := after going' (settled.imp_left And.right)
    exact ⟨o, run, fine.trans (and_iff_right (count ▸ small)).symm⟩

end Loop

/-! ### The file -/

/-- Nothing overflows at this size, and the entries are fine. -/
def SizeFine (num : Numbers K) (size : ℤ) (entries : List (List Char)) : Prop :=
  size ≤ 2 ^ 30 ∧ PiecesFine num size 0 entries

/-- The numbers of the line with the sizes, as far as there are any. Two that are different from each other make an
assertion fail, which ends the reading. -/
def SizesFine (num : Numbers K) (sizes : List ℤ) (entries : List (List Char)) : Prop :=
  match sizes with
  | [] => False
  | [x] => IsInt x ∧ SizeFine num x entries
  | x :: y :: _ => IsInt x ∧ IsInt y ∧ (x = y → SizeFine num x entries)

/-- The first piece that is no comment has the sizes, and the entries after it are fine. -/
def FileFine (num : Numbers K) (file : List Char) : Prop :=
  match (pieces LINE file).dropWhile isComment with
  | [] => False
  | first :: more => SizesFine num ((sscanf takeInt 2 (cString first)).map intValue) (toCome first more)

section File
variable [CommRing K] {num : Numbers K} {unset : Unset K} {file first : List Char} {more : List (List Char)}

/-- The end of `readFile`, from the sizes on. -/
def readSized (num : Numbers K) (unset : Unset K) (sizex sizey : ℤ) (start : Reading K) : Option (Outcome K) :=
  if sizex = sizey then
    match logarithm sizex with
    | none => some (.undefined start)
    | some depth => readEntries num unset sizex depth start
  else some (.aborted start)

variable (num unset) in
theorem readFile_comments (m : Memory K) (all : ∀ piece ∈ pieces LINE file, isComment piece = true)
    (last : pieces LINE file = [] → isComment unset.buf = true) : readFile num unset m file = none := by
  rw [readFile, skipComments_diverges all last]
  rfl

variable (num unset) in
/-- The file is read from its first piece on that is no comment. -/
theorem readFile_first (m : Memory K) (found : (pieces LINE file).dropWhile isComment = first :: more) :
    ∃ rest, pieces LINE rest = more ∧ (cutOff LINE first = true → more = []) ∧
      readFile num unset m file =
        match scanSizes unset first with
        | none => some (.undefined ⟨⟨rest, cutOff LINE first⟩, first, none, m, 0, []⟩)
        | some (sizex, sizey) =>
          readSized num unset sizex sizey ⟨⟨rest, cutOff LINE first⟩, first, none, m, 0, []⟩ := by
  have whole : pieces LINE file = (pieces LINE file).takeWhile isComment ++ first :: more := by
    rw [← found, List.takeWhile_append_dropWhile]
  have other : isComment first = false := by
    have head := List.head?_dropWhile_not isComment (pieces LINE file)
    rw [found] at head
    simpa using head
  obtain ⟨rest, run, others, ended⟩ := skipComments_eq (f := ⟨file, false⟩) other _
    (fun piece member => List.mem_takeWhile_imp member) rfl whole
  refine ⟨rest, others, ended, ?_⟩
  rw [readFile, run]
  rfl

variable (num unset) in
/-- The reading from the sizes on. -/
theorem readSized_fine_iff (m : Memory K) (size : ℤ) {rest : List Char} (others : pieces LINE rest = more)
    (ended : cutOff LINE first = true → more = [])
    (settled : SizeFine num size (toCome first more) ∨ ∀ k, unset.c k = INT_MIN) :
    ∃ o, readSized num unset size size ⟨⟨rest, cutOff LINE first⟩, first, none, m, 0, []⟩ = some o ∧
      (o.Fine ↔ SizeFine num size (toCome first more)) := by
  rw [readSized, if_pos rfl, SizeFine]
  rcases le_or_gt size (2 ^ 30) with fits | large
  · obtain ⟨depth, shiftable, run, room, least⟩ := logarithm_eq fits
    rw [run]
    have going : Going depth [] (⟨⟨rest, cutOff LINE first⟩, first, none, m, 0, []⟩ : Reading K) :=
      ⟨List.forall_mem_nil _, null, entriesSet_nil m, rfl⟩
    obtain ⟨o, run, fine⟩ := readEntries_fine_iff num unset ⟨shiftable, room, least⟩ ⟨others, rfl, ended⟩ ⟨[], going⟩
      (settled.imp_left And.right)
    exact ⟨o, run, fine.trans (and_iff_right fits).symm⟩
  · rw [logarithm_overflow large]
    exact ⟨_, rfl, iff_of_false (not_fine_undefined _) fun fine => absurd fine.1 (not_le.mpr large)⟩

/-- The reading comes to an end whatever is in variables that are not set, and all calls of `set_matrix` are fine. -/
def Meets (num : Numbers K) (file : List Char) : Prop :=
  ∀ (unset : Unset K) (m : Memory K), ∃ o, readFile num unset m file = some o ∧ o.Fine

/-- The worst values of variables that are not set, with the sizes to choose. -/
def Unset.worst (sizey : ℤ) (int : IsInt sizey) : Unset K where
  buf := ['%']
  sizex := 2 ^ 31 - 1
  sizey := sizey
  c _ := INT_MIN
  val _ := 0
  sizes_int := ⟨by decide, int⟩
  c_int _ := by decide

/-- The assertion on the sizes fails. -/
theorem readSized_differ {sizex sizey : ℤ} {start : Reading K} (different : sizex ≠ sizey) (none : start.calls = []) :
    ∃ o, readSized num unset sizex sizey start = some o ∧ o.Fine := by
  refine ⟨.aborted start, if_neg different, fine_aborted ?_⟩
  rw [none]
  exact List.forall_mem_nil _

variable (unset) in
/-- The rest of the file is fine if its sizes and entries are. -/
theorem SizesFine.reads {rest : List Char} {m : Memory K} (others : pieces LINE rest = more)
    (ended : cutOff LINE first = true → more = [])
    (fine : SizesFine num ((sscanf takeInt 2 (cString first)).map intValue) (toCome first more)) :
    ∃ sizex sizey, scanSizes unset first = some (sizex, sizey) ∧
      ∃ o, readSized num unset sizex sizey ⟨⟨rest, cutOff LINE first⟩, first, none, m, 0, []⟩ = some o ∧ o.Fine := by
  have goes : ∀ {sizex sizey : ℤ}, (sizex = sizey → SizeFine num sizex (toCome first more)) →
      ∃ o, readSized num unset sizex sizey ⟨⟨rest, cutOff LINE first⟩, first, none, m, 0, []⟩ = some o ∧ o.Fine := by
    intro sizex sizey fine
    by_cases same : sizex = sizey
    · obtain ⟨o, run, fine_iff⟩ := readSized_fine_iff num unset m sizex others ended (.inl (fine same))
      exact ⟨o, same ▸ run, fine_iff.mpr (fine same)⟩
    · exact readSized_differ same rfl
  rw [scanSizes]
  generalize (sscanf takeInt 2 (cString first)).map intValue = sizes at fine
  match sizes with
  | [] => exact fine.elim
  | [x] => exact ⟨x, unset.sizey, if_pos fine.1, goes fun _ => fine.2⟩
  | x :: y :: _ => exact ⟨x, y, if_pos ⟨fine.1, fine.2.1⟩, goes fine.2.2⟩

theorem FileFine.meets (fine : FileFine num file) : Meets num file := by
  intro unset m
  rw [FileFine] at fine
  cases found : (pieces LINE file).dropWhile isComment with
  | nil =>
    rw [found] at fine
    exact fine.elim
  | cons first more =>
    rw [found] at fine
    obtain ⟨rest, others, ended, run⟩ := readFile_first num unset m found
    obtain ⟨sizex, sizey, scanned, reads⟩ := SizesFine.reads unset others ended fine
    rw [run, scanned]
    exact reads

/-- A line with sizes that is not fine breaks the rules for some values of variables that are not set. -/
theorem sizesFine_of_meets (found : (pieces LINE file).dropWhile isComment = first :: more) (meets : Meets num file) :
    SizesFine num ((sscanf takeInt 2 (cString first)).map intValue) (toCome first more) := by
  have largest : IsInt (2 ^ 31 - 1) := by decide
  -- the values that are read, with a missing second size chosen at will
  have sound : ∀ {size sizey : ℤ} (int : IsInt sizey),
      scanSizes (Unset.worst sizey int : Unset K) first = some (size, size) →
      SizeFine num size (toCome first more) := by
    intro size sizey int scanned
    obtain ⟨rest, others, ended, run⟩ := readFile_first num (Unset.worst sizey int) ⟨fun _ => none, 0⟩ found
    obtain ⟨o, read, fine⟩ := meets (Unset.worst sizey int) ⟨fun _ => none, 0⟩
    obtain ⟨o', read', fine_iff⟩ :=
      readSized_fine_iff num (Unset.worst sizey int) ⟨fun _ => none, 0⟩ size others ended (.inr fun _ => rfl)
    rw [run, scanned] at read
    cases Option.some.inj (read.symm.trans read')
    exact fine_iff.mp fine
  have defined : scanSizes (Unset.worst _ largest : Unset K) first ≠ none := by
    intro undefined
    obtain ⟨rest, -, -, run⟩ := readFile_first num (Unset.worst _ largest) ⟨fun _ => none, 0⟩ found
    obtain ⟨o, read, fine⟩ := meets (Unset.worst _ largest) ⟨fun _ => none, 0⟩
    rw [run, undefined] at read
    cases Option.some.inj read
    exact not_fine_undefined _ fine
  rw [scanSizes] at defined
  simp only [scanSizes] at sound
  generalize (sscanf takeInt 2 (cString first)).map intValue = sizes at defined sound
  match sizes with
  | [] => exact absurd (sound largest rfl).1 (show ¬ (2 ^ 31 - 1 : ℤ) ≤ 2 ^ 30 by decide)
  | [x] =>
    have int : IsInt x := by
      by_contra outside
      exact defined (if_neg outside)
    exact ⟨int, sound int (if_pos int)⟩
  | x :: y :: _ =>
    have ints : IsInt x ∧ IsInt y := by
      by_contra outside
      exact defined (if_neg outside)
    refine ⟨ints.1, ints.2, ?_⟩
    rintro rfl
    exact sound largest (if_pos ints)

/-- When the reading of a file does what it should. -/
theorem readFile_meets_iff (num : Numbers K) (file : List Char) : Meets num file ↔ FileFine num file := by
  refine ⟨fun meets => ?_, fun fine => fine.meets⟩
  rw [FileFine]
  cases found : (pieces LINE file).dropWhile isComment with
  | nil =>
    obtain ⟨o, read, -⟩ := meets (Unset.worst (2 ^ 31 - 1) (by decide)) ⟨fun _ => none, 0⟩
    rw [readFile_comments num _ _ (List.dropWhile_eq_nil_iff.mp found) fun _ => rfl] at read
    cases read
  | cons first more => exact sizesFine_of_meets found meets

end File

/-- Whole numbers in place of floating point numbers, with random numbers that are all zero. -/
def wholeNumbers : Numbers ℤ := ⟨intValue, fun x => if IsInt x then some x else none, fun _ => 0⟩

/-- A comment, the sizes and two entries, the last of which is read twice. -/
theorem readFile_meets_comment : Meets wholeNumbers "%\n4 4 2\n1 1 5\n3 2 7\n".toList := by
  apply (readFile_meets_iff wholeNumbers _).mpr
  have lines : pieces LINE "%\n4 4 2\n1 1 5\n3 2 7\n".toList =
      ["%\n".toList, "4 4 2\n".toList, "1 1 5\n".toList, "3 2 7\n".toList] :=
    pieces_lines ["%\n".toList, "4 4 2\n".toList, "1 1 5\n".toList, "3 2 7\n".toList] (by decide)
  have first : (["%\n".toList, "4 4 2\n".toList, "1 1 5\n".toList, "3 2 7\n".toList]).dropWhile isComment =
      ["4 4 2\n".toList, "1 1 5\n".toList, "3 2 7\n".toList] := by decide
  have sizes : (sscanf takeInt 2 (cString "4 4 2\n".toList)).map intValue = [4, 4] := by decide
  have entry : verdict wholeNumbers 4 "1 1 5\n".toList = .goesOn := by decide
  have last : verdict wholeNumbers 4 "3 2 7\n".toList = .goesOn := by decide
  have again : cutOff LINE "3 2 7\n".toList = false := by decide
  rw [FileFine, lines, first]
  dsimp only
  rw [sizes]
  refine ⟨by decide, by decide, fun _ => ⟨by decide, ?_⟩⟩
  rw [toCome, toCome, toCome, again, if_neg Bool.false_ne_true]
  simp only [PiecesFine, entry, last, IntCount]
  decide

/-- A file with a comment only, and one with a row that is zero. -/
theorem readFile_fails : ¬ Meets wholeNumbers "%\n".toList ∧ ¬ Meets wholeNumbers "4 4 1\n0 1 5\n".toList := by
  constructor
  · intro meets
    have comment : pieces LINE "%\n".toList = ["%\n".toList] := pieces_lines ["%\n".toList] (by decide)
    obtain ⟨o, read, -⟩ := meets (Unset.worst 0 (by decide)) ⟨fun _ => none, 0⟩
    rw [readFile_comments wholeNumbers _ _ (by rw [comment]; decide) fun _ => rfl] at read
    cases read
  · intro meets
    have lines : pieces LINE "4 4 1\n0 1 5\n".toList = ["4 4 1\n".toList, "0 1 5\n".toList] :=
      pieces_lines ["4 4 1\n".toList, "0 1 5\n".toList] (by decide)
    have sizes : (sscanf takeInt 2 (cString "4 4 1\n".toList)).map intValue = [4, 4] := by decide
    have wrong : verdict wholeNumbers 4 "0 1 5\n".toList = .wrong := by decide
    have found : (pieces LINE "4 4 1\n0 1 5\n".toList).dropWhile isComment = ["4 4 1\n".toList, "0 1 5\n".toList] := by
      rw [lines]
      rfl
    have fine := sizesFine_of_meets found meets
    rw [sizes] at fine
    have entries := (fine.2.2 rfl).2
    rw [toCome, PiecesFine, wrong] at entries
    exact entries

end CilkArtifact.Cholesky
