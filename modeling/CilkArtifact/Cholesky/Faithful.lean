import CilkArtifact.Cholesky.MatrixFile

/-! Matrix files as they should be: comments, the sizes and the entries. The last line of such a file is parsed twice:
it is counted twice, and the matrix is right nevertheless. -/
namespace CilkArtifact.Cholesky
open Stdio Quadtree
variable {K : Type}

/-- A line `r c v` of a matrix of size `n`. -/
structure EntryLine (num : Numbers K) (n : ℤ) where
  text : List Char
  r : ℤ
  c : ℤ
  v : K
  isLine : IsLine LINE text
  row : 1 ≤ r ∧ r ≤ n
  col : 1 ≤ c ∧ c ≤ n
  scans : ∃ fr fc val, sscanf takeReal 3 (cString text) = [fr, fc, val] ∧ num.toInt (num.strtod fr) = some r ∧
    num.toInt (num.strtod fc) = some c ∧ num.strtod val = v

/-- The parts of a matrix file: comments, a line `n n ...` and lines with entries. -/
structure MatrixText (num : Numbers K) where
  comments : List (List Char)
  sizes : List Char
  n : ℤ
  entries : List (EntryLine num n)
  comments_lines : ∀ comment ∈ comments, IsLine LINE comment ∧ isComment comment = true
  sizes_line : IsLine LINE sizes
  sizes_scan : (sscanf takeInt 2 (cString sizes)).map intValue = [n, n]
  positive : 1 ≤ n
  shiftable : n ≤ 2 ^ 30

section Text
variable {num : Numbers K} {n : ℤ}

/-- The arguments for `set_matrix`. -/
def EntryLine.entry (line : EntryLine num n) : Entry K :=
  ⟨(max line.r line.c - 1).toNat, (min line.r line.c - 1).toNat, line.v⟩

/-- The line is about this pair, in either order. -/
def EntryLine.About (line : EntryLine num n) (r c : ℤ) : Prop := line.r = r ∧ line.c = c ∨ line.r = c ∧ line.c = r

instance (line : EntryLine num n) (r c : ℤ) : Decidable (line.About r c) := inferInstanceAs (Decidable (_ ∨ _))

def MatrixText.lines (file : MatrixText num) : List (List Char) := file.entries.map EntryLine.text

def MatrixText.content (file : MatrixText num) : List Char := (file.comments ++ file.sizes :: file.lines).flatten

/-- The value of the last line about a pair, 0 when there is none. -/
def lastAbout [Zero K] (lines : List (EntryLine num n)) (r c : ℤ) : K :=
  match lines.reverse.find? fun line => line.About r c with
  | some line => line.v
  | none => 0

/-- `get_matrix (depth, A, r, c)` -/
def Reading.getMatrix [Zero K] (s : Reading K) (depth : ℕ) (r c : ℤ) : Option K :=
  if depth < BLOCK_DEPTH ∨ r < 0 ∨ c < 0 then none else getMatrixAt s.m (depth - BLOCK_DEPTH) s.a r.toNat c.toNat

/-- The reading ends by itself, has counted the lines with entries, and the matrix is the one of the file. -/
def MatrixText.Faithful [CommRing K] (file : MatrixText num) (unset : Unset K) (m : Memory K) : Prop :=
  ∃ s depth, readFile num unset m file.content = some (.finished s) ∧ logarithm file.n = some depth ∧
    s.nonzeros = file.entries.length ∧ ∀ r c, 1 ≤ r → r ≤ file.n → 1 ≤ c → c ≤ file.n →
      s.getMatrix depth (max r c - 1) (min r c - 1) = some (lastAbout file.entries r c)

end Text

/-! ### The lines of a file -/

theorem mem_toCome {last piece : List Char} (more : List (List Char)) (member : piece ∈ toCome last more) :
    piece ∈ last :: more := by
  induction more generalizing last with
  | nil =>
    rw [toCome] at member
    split at member
    · cases member
    · exact member
  | cons next more ih =>
    rw [toCome] at member
    rcases List.mem_cons.mp member with rfl | later
    · exact List.mem_cons_of_mem _ (List.mem_cons_self ..)
    · exact List.mem_cons_of_mem _ (ih later)

theorem toCome_lines {last : List Char} (more : List (List Char)) (lines : ∀ line ∈ last :: more, IsLine LINE line) :
    toCome last more = more ++ [(last :: more).getLast (List.cons_ne_nil _ _)] := by
  induction more generalizing last with
  | nil =>
    rw [toCome, (lines last (List.mem_cons_self ..)).not_cutOff]
    rfl
  | cons next more ih =>
    rw [toCome, ih fun line member => lines line (List.mem_cons_of_mem _ member),
      List.getLast_cons (List.cons_ne_nil _ _)]
    rfl

section Sections
variable {num : Numbers K} {n : ℤ}

theorem EntryLine.numbers (line : EntryLine num n) : sscanf takeReal 3 (cString line.text) ≠ [] := by
  obtain ⟨fr, fc, val, scanned, -⟩ := line.scans
  rw [scanned]
  exact List.cons_ne_nil _ _

variable (file : MatrixText num)

theorem MatrixText.two_sizes : (sscanf takeInt 2 (cString file.sizes)).length = 2 := by
  rw [← List.length_map intValue, file.sizes_scan]
  rfl

theorem MatrixText.sizes_not_comment : isComment file.sizes = false := by
  by_contra comment
  have first : file.sizes.head? = some '%' := of_decide_eq_true (Bool.not_eq_false _ ▸ comment)
  obtain ⟨rest, same⟩ := List.head?_eq_some_iff.mp first
  have none : sscanf takeInt 2 (cString file.sizes) = [] := by
    rw [same]
    rfl
  have two := file.two_sizes
  rw [none] at two
  cases two

theorem MatrixText.sizes_lines : ∀ line ∈ file.sizes :: file.lines, IsLine LINE line := by
  intro line member
  rcases List.mem_cons.mp member with rfl | member
  · exact file.sizes_line
  · obtain ⟨entry, -, rfl⟩ := List.mem_map.mp member
    exact entry.isLine

/-- The comments are skipped. -/
theorem MatrixText.found : (pieces LINE file.content).dropWhile isComment = file.sizes :: file.lines := by
  have all : ∀ line ∈ file.comments ++ file.sizes :: file.lines, IsLine LINE line := by
    intro line member
    rcases List.mem_append.mp member with comment | other
    · exact (file.comments_lines line comment).1
    · exact file.sizes_lines line other
  rw [MatrixText.content, pieces_lines _ all,
    List.dropWhile_append_of_pos fun line member => (file.comments_lines line member).2,
    List.dropWhile_cons_of_neg (ne_true_of_eq_false file.sizes_not_comment)]

theorem MatrixText.numbers : ∀ line ∈ file.sizes :: file.lines, sscanf takeReal 3 (cString line) ≠ [] := by
  intro line member
  rcases List.mem_cons.mp member with rfl | member
  · exact sscanf_real_of_ints file.two_sizes
  · obtain ⟨entry, -, rfl⟩ := List.mem_map.mp member
    exact entry.numbers

end Sections

/-! ### Counting -/

section Counting
variable [CommRing K] {num : Numbers K} {unset : Unset K} {size : ℤ} {depth : ℕ} {more : List (List Char)}
  {s s' : Reading K} {m : Memory K}

/-- Pieces with a number are all counted, if the reading gets to its end. -/
theorem readEntries_count (ready : At s more)
    (numbers : ∀ piece ∈ toCome s.buf more, sscanf takeReal 3 (cString piece) ≠ [])
    (finished : readEntries num unset size depth s = some (.finished s')) :
    s'.nonzeros = s.nonzeros + (toCome s.buf more).length := by
  refine readEntries_induct num unset size depth (motive := fun s toCome result =>
    (∀ piece ∈ toCome, sscanf takeReal 3 (cString piece) ≠ []) → result = some (.finished s') →
    s'.nonzeros = s.nonzeros + toCome.length) ?done ?stop ?next more ready numbers finished
  case done =>
    intro s _ same
    cases same
    rfl
  case stop =>
    intro s piece more f o step numbers same
    cases same
    exact absurd (readEntry_finished step) (numbers piece (List.mem_cons_self ..))
  case next =>
    intro s piece more f s₁ result step after numbers same
    have count : s₁.nonzeros = s.nonzeros + 1 := (readEntry_next step).2.2
    have rest := after (fun piece member => numbers piece (List.mem_cons_of_mem _ member)) same
    rw [rest, count, List.length_cons]
    omega

variable (unset m) in
/-- The reading of the entries starts behind the line with the sizes. -/
theorem MatrixText.starts (file : MatrixText num) : ∃ (start : Reading K) (depth : ℕ), At start file.lines ∧
    start.buf = file.sizes ∧ start.nonzeros = 0 ∧ logarithm file.n = some depth ∧ Fits file.n depth ∧
    Going depth [] start ∧ readFile num unset m file.content = readEntries num unset file.n depth start := by
  obtain ⟨rest, others, ended, run⟩ := readFile_first num unset m file.found
  obtain ⟨depth, shiftable, log, room, least⟩ := logarithm_eq file.shiftable
  have bounds : IsInt file.n := by
    have := file.positive
    have := file.shiftable
    rw [IsInt, INT_MIN]
    omega
  have scanned : scanSizes unset file.sizes = some (file.n, file.n) := by
    rw [scanSizes, file.sizes_scan]
    exact if_pos ⟨bounds, bounds⟩
  refine ⟨⟨⟨rest, cutOff LINE file.sizes⟩, file.sizes, none, m, 0, []⟩, depth, ⟨others, rfl, ended⟩, rfl, rfl, log,
    ⟨shiftable, room, least⟩, ⟨List.forall_mem_nil _, null, entriesSet_nil m, rfl⟩, ?_⟩
  rw [run, scanned]
  simp only [readSized, log, if_true]

/-- One more entry is counted than there are. -/
theorem readFile_counts (file : MatrixText num) (run : readFile num unset m file.content = some (.finished s)) :
    s.nonzeros = file.entries.length + 1 := by
  obtain ⟨start, depth, ready, buf, zero, -, -, -, reads⟩ := file.starts unset m
  have numbers : ∀ piece ∈ toCome start.buf file.lines, sscanf takeReal 3 (cString piece) ≠ [] := by
    intro piece member
    rw [buf] at member
    exact file.numbers piece (mem_toCome _ member)
  rw [readEntries_count ready numbers (reads.symm.trans run), zero, buf, toCome_lines _ file.sizes_lines]
  simp [MatrixText.lines]

/-- No file is read as it should be. -/
theorem readFile_not_faithful (num : Numbers K) (file : MatrixText num) (unset : Unset K) (m : Memory K) :
    ¬ file.Faithful unset m := by
  rintro ⟨s, depth, run, -, count, -⟩
  have more := readFile_counts file run
  omega

end Counting

/-! ### The matrix -/

section Values
variable [CommRing K] {num : Numbers K} {unset : Unset K} {n : ℤ} {depth : ℕ} {more : List (List Char)} {s : Reading K}
  {entries : List (Entry K)} {m : Memory K}

variable (unset depth) in
/-- An iteration on a line with an entry. -/
theorem readEntry_line (line : EntryLine num n) (read : s.buf = line.text) : readEntry num unset n depth s =
    callSetMatrix depth (max line.r line.c - 1) (min line.r line.c - 1) line.v s := by
  obtain ⟨fr, fc, val, matched, row, col, value⟩ := line.scans
  have scanned : scanEntry num unset s.nonzeros [fr, fc, val] = some (line.r, line.c, line.v) := by
    simp only [scanEntry, row, col, value, Option.bind_eq_bind, Option.bind_some]
  have lower := line.row.1
  have lower' := line.col.1
  rw [← read] at matched
  rw [readEntry_two matched scanned (by rw [INT_MIN]; omega) (by rw [INT_MIN]; omega),
    if_pos (max_le line.row.2 line.col.2)]

variable (unset) in
/-- A line is entered. -/
theorem readEntry_going (fits : Fits n depth) (large : 2 < n) (line : EntryLine num n) (read : s.buf = line.text)
    (going : Going depth entries s) (countable : IntCount (s.nonzeros + 1)) :
    ∃ s', readEntry num unset n depth s = .next s' ∧ Going depth (entries ++ [line.entry]) s' := by
  have room := fits.room
  have row := line.row
  have col := line.col
  rw [readEntry_line unset depth line read]
  exact (callSetMatrix_fine line.v fits going large
    ⟨by dsimp only; omega, by dsimp only; omega, by dsimp only; omega⟩).1 countable

variable (unset) in
/-- All lines are entered, as far as they can be counted. -/
theorem readEntries_lines (fits : Fits n depth) (large : 2 < n) (ready : At s more) {lines : List (EntryLine num n)}
    (texts : toCome s.buf more = lines.map EntryLine.text) (going : Going depth entries s)
    (countable : IntCount (s.nonzeros + lines.length)) :
    ∃ s', readEntries num unset n depth s = some (.finished s') ∧ s'.nonzeros = s.nonzeros + lines.length ∧
      Going depth (entries ++ lines.map EntryLine.entry) s' := by
  have entered : ∀ {s : Reading K} {entries : List (Entry K)} (line : EntryLine num n) (f : File),
      Going depth entries s → IntCount (s.nonzeros + 1) →
      ∃ s', readEntry num unset n depth { s with f := f, buf := line.text } = .next s' ∧
        Going depth (entries ++ [line.entry]) s' :=
    fun line f going countable => readEntry_going unset fits large line rfl ⟨going.calls, going.matrix⟩ countable
  refine readEntries_induct num unset n depth (motive := fun s toCome result => ∀ {lines : List (EntryLine num n)}
    {entries : List (Entry K)}, toCome = lines.map EntryLine.text → Going depth entries s →
    IntCount (s.nonzeros + lines.length) → ∃ s', result = some (.finished s') ∧
      s'.nonzeros = s.nonzeros + lines.length ∧ Going depth (entries ++ lines.map EntryLine.entry) s')
    ?done ?stop ?next more ready texts going countable
  case done =>
    intro s lines entries texts going _
    obtain rfl := List.map_eq_nil_iff.mp texts.symm
    exact ⟨s, rfl, rfl, by rwa [List.map_nil, List.append_nil]⟩
  case stop =>
    intro s piece more f o step lines entries texts going countable
    obtain ⟨line, lines, rfl, rfl, rfl⟩ := List.map_eq_cons_iff.mp texts.symm
    obtain ⟨s', same, -⟩ := entered line f going (Nat.lt_of_le_of_lt (by simp) countable)
    cases step.symm.trans same
  case next =>
    intro s piece more f s' result step after lines entries texts going countable
    obtain ⟨line, lines, rfl, rfl, rfl⟩ := List.map_eq_cons_iff.mp texts.symm
    obtain ⟨s₁, same, going'⟩ := entered line f going (Nat.lt_of_le_of_lt (by simp) countable)
    cases step.symm.trans same
    have count : s'.nonzeros = s.nonzeros + 1 := (readEntry_next step).2.2
    have all : s.nonzeros + (line :: lines).length = s'.nonzeros + lines.length := by
      rw [count, List.length_cons]
      omega
    rw [all, List.map_cons, List.append_cons]
    rw [all] at countable
    exact after rfl going' countable

omit [CommRing K] in
/-- To enter the last entry once more changes nothing. -/
theorem lastValue_again [Zero K] (entries : List (Entry K)) (e : Entry K) (r c : ℕ) :
    lastValue (entries ++ [e] ++ [e]) r c = lastValue (entries ++ [e]) r c := by
  rw [lastValue_append, setEntry]
  split
  · next here => rw [lastValue_append, setEntry, if_pos here]
  · rfl

omit [CommRing K] in
/-- The entries of the lower triangle are those of the pairs. -/
theorem lastValue_lines [Zero K] (lines : List (EntryLine num n)) {r c : ℤ} (row : 1 ≤ r) (col : 1 ≤ c) :
    lastValue (lines.map EntryLine.entry) (max r c - 1).toNat (min r c - 1).toNat = lastAbout lines r c := by
  have same : ∀ line : EntryLine num n,
      (line.entry.row = (max r c - 1).toNat ∧ line.entry.col = (min r c - 1).toNat) ↔ line.About r c := by
    intro line
    have row' := line.row
    have col' := line.col
    simp only [EntryLine.entry, EntryLine.About]
    omega
  rw [lastValue, lastAbout, ← List.map_reverse, List.find?_map]
  simp only [Function.comp_def, same]
  cases lines.reverse.find? fun line => line.About r c <;> rfl

/-- A file with entries, of size 3 or more: the count is too large by one, and the matrix is right. -/
theorem readFile_reads (file : MatrixText num) (unset : Unset K) (m : Memory K) (large : 2 < file.n)
    (some' : file.entries ≠ []) (countable : IntCount (file.entries.length + 1)) :
    ∃ s depth, readFile num unset m file.content = some (.finished s) ∧ logarithm file.n = some depth ∧
      s.nonzeros = file.entries.length + 1 ∧ ∀ r c, 1 ≤ r → r ≤ file.n → 1 ≤ c → c ≤ file.n →
        s.getMatrix depth (max r c - 1) (min r c - 1) = some (lastAbout file.entries r c) := by
  obtain ⟨start, depth, ready, buf, zero, log, fits, going, reads⟩ := file.starts unset m
  obtain ⟨lines, last, whole⟩ : ∃ lines last, file.entries = lines ++ [last] :=
    ⟨_, _, (List.dropLast_append_getLast some').symm⟩
  have texts : toCome start.buf file.lines = (file.entries ++ [last]).map EntryLine.text := by
    rw [buf, toCome_lines _ file.sizes_lines]
    simp [MatrixText.lines, whole]
  obtain ⟨s, run, count, done⟩ := readEntries_lines unset fits large ready texts going
    (by rw [zero]; simpa using countable)
  refine ⟨s, depth, reads.trans run, log, by rw [count, zero]; simp, fun r c row rowMax col colMax => ?_⟩
  obtain ⟨t, set, pointer⟩ := done.matrix
  obtain ⟨shiftable, side⟩ := fits.shiftable_level large
  have room := fits.room
  have deep : ¬ depth < BLOCK_DEPTH := by
    rw [fits.block]
    omega
  rw [Reading.getMatrix, if_neg (by omega), ← pointer, set.getMatrixAt shiftable (by omega) (by omega), whole,
    ← lastValue_lines _ row col]
  simp only [List.nil_append, List.map_append, List.map_cons, List.map_nil]
  rw [lastValue_again]

variable (unset m) in
/-- A size below 3 has no room for a block: the assertion on the depth fails at the first entry. -/
theorem readFile_small (file : MatrixText num) (small : file.n ≤ 2) (some' : file.entries ≠ []) :
    ∃ s, readFile num unset m file.content = some (.aborted s) := by
  obtain ⟨start, depth, ready, -, -, -, fits, -, reads⟩ := file.starts unset m
  obtain ⟨line, lines, whole⟩ := List.exists_cons_of_ne_nil some'
  have texts : file.lines = line.text :: lines.map EntryLine.text := by rw [MatrixText.lines, whole, List.map_cons]
  rw [texts] at ready
  rw [reads]
  refine readEntries_induct num unset file.n depth (motive := fun s toCome result => ∀ {more : List (List Char)},
    toCome = line.text :: more → ∃ s', result = some (.aborted s')) ?done ?stop ?next _ ready rfl
  case done =>
    intro s more same
    cases same
  case stop =>
    intro s piece more f o step more' same
    cases same
    rw [readEntry_line unset depth line rfl, callSetMatrix, if_pos (fits.block.mpr small)] at step
    cases step
    exact ⟨_, rfl⟩
  case next =>
    intro s piece more f s' result step after more' same
    cases same
    rw [readEntry_line unset depth line rfl, callSetMatrix, if_pos (fits.block.mpr small)] at step
    cases step

end Values

/-- A matrix of size 4 with one entry. -/
def oneEntry : MatrixText wholeNumbers where
  comments := []
  sizes := "4 4 1\n".toList
  n := 4
  entries := [⟨"1 1 5\n".toList, 1, 1, 5, by decide, by decide, by decide, "1".toList, "1".toList, "5".toList,
    by decide, by decide, by decide, by decide⟩]
  comments_lines := nofun
  sizes_line := by decide
  sizes_scan := by decide
  positive := by decide
  shiftable := by decide

/-- The entry is counted twice. -/
theorem oneEntry_counted_twice : oneEntry.content = "4 4 1\n1 1 5\n".toList ∧
    (∃ s, readFile wholeNumbers (Unset.worst 0 (by decide)) ⟨fun _ => none, 0⟩ oneEntry.content = some (.finished s) ∧
      s.nonzeros = 2 ∧ oneEntry.entries.length = 1) ∧
    ¬ oneEntry.Faithful (Unset.worst 0 (by decide)) ⟨fun _ => none, 0⟩ := by
  obtain ⟨s, depth, run, -, count, -⟩ := readFile_reads oneEntry (Unset.worst 0 (by decide)) ⟨fun _ => none, 0⟩
    (by decide) (List.cons_ne_nil _ _) (show 2 < 2 ^ 31 by decide)
  refine ⟨by decide, ⟨s, run, count, rfl⟩, ?_⟩
  rintro ⟨s', depth', run', -, count', -⟩
  cases Option.some.inj (run.symm.trans run')
  cases count.symm.trans count'

end CilkArtifact.Cholesky
