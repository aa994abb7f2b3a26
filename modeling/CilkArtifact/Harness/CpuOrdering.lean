import CilkArtifact.Harness.Runner
import Mathlib.Data.List.Dedup
import Mathlib.Order.Basic

/-! The CPUs that `runner.py` pins its workers to: `get_cpu_ordering` and `run_on_p_workers`. The output of the command
that lists the CPUs is a string, and so is what a shell prints when it runs a command. -/
namespace CilkArtifact.Harness

/-- `str(z)` -/
def strInt (z : ℤ) : Str := if z < 0 then '-' :: str z.natAbs else str z.natAbs

/-- The white space that `str.strip` strips: the one of `int`, and the four separators of ASCII. -/
def isBlank (c : Char) : Bool := isSpace c || (0x1c ≤ c.toNat && c.toNat ≤ 0x1f)

def stripBlanks (s : Str) : Str := ((s.dropWhile isBlank).reverse.dropWhile isBlank).reverse

/-- The characters that end a line, for `str.splitlines`. -/
def lineEnds : List ℕ := [0xa, 0xb, 0xc, 0xd, 0x1c, 0x1d, 0x1e, 0x85, 0x2028, 0x2029]

def isLineEnd (c : Char) : Bool := lineEnds.contains c.toNat

def splitlines : Str → List Str
  | [] => []
  | '\r' :: '\n' :: rest => [] :: splitlines rest
  | c :: rest =>
    if isLineEnd c then [] :: splitlines rest
    else match splitlines rest with
      | [] => [[c]]
      | line :: lines => (c :: line) :: lines

/-- The tuple that is kept for a CPU. -/
structure Cpu where
  socketId : ℤ
  coreId : ℤ
  cpuId : ℤ
deriving DecidableEq, Repr

/-- The order of tuples. -/
def Cpu.le (x y : Cpu) : Bool :=
  x.socketId < y.socketId ∨ x.socketId = y.socketId ∧
    (x.coreId < y.coreId ∨ x.coreId = y.coreId ∧ x.cpuId ≤ y.cpuId)

/-- A line that is no comment; `none` is an `IndexError` or a `ValueError`. -/
def parseCpu (l : Str) : Option Cpu := do
  let items := (stripBlanks l).splitOn ','
  let cpuId ← items[0]? >>= int
  let coreId ← items[1]? >>= int
  let socketId ← items[2]? >>= int
  some ⟨socketId, coreId, cpuId⟩

def availCpus (out : Str) : Option (List Cpu) :=
  ((splitlines out).filter fun l => !"#".toList.isPrefixOf l).mapM parseCpu

/-- The loop over the sorted CPUs, with the keys of `added_cores`. -/
def addCores : List Cpu → List ℤ → List (ℤ × ℤ) → List (ℤ × ℤ)
  | [], _, ret => ret
  | x :: rest, addedCores, ret =>
    if x.coreId ∉ addedCores then addCores rest (x.coreId :: addedCores) (ret ++ [(x.cpuId, x.socketId)])
    else addCores rest addedCores ret

inductive Platform where
  | darwin | other
deriving DecidableEq, Repr

/-- `out` is the output of `sysctl -n hw.physicalcpu_max` or of `lscpu --parse`. -/
def getCpuOrdering : Platform → Str → Option (List (ℤ × ℤ))
  | .darwin, out => (int out).map fun count => (List.range count.toNat).map fun p : ℕ => (0, (p : ℤ))
  | .other, out => do
    let availCpus ← availCpus out
    some (addCores (availCpus.mergeSort Cpu.le) [] [])

/-- The command with its CPUs; Darwin has no `taskset`. -/
def pinned (platform : Platform) (cpuOnline : List (ℤ × ℤ)) (rcommand : Str) : Str :=
  if platform ≠ .darwin then
    "taskset -c ".toList ++ List.intercalate ",".toList (cpuOnline.map fun (p, _) => strInt p) ++ " ".toList ++ rcommand
  else rcommand

/-- `shell command t` is what the command prints, and what it prints as errors, when it is run for the `t`-th time. -/
def runOnPWorkers (platform : Platform) (out : Str) (shell : Str → ℕ → Str × Str) (P : ℕ) (trials rcommand : Str) :
    Option (Str × Str) := do
  let cpuOrdering ← getCpuOrdering platform out
  let cpuOnline := cpuOrdering.take P
  let command := pinned platform cpuOnline rcommand
  let trials ← int trials
  let runs := (List.range' 1 trials.toNat).map (shell command)
  some (runs.flatMap Prod.fst, runs.flatMap Prod.snd)

/-! ### Listings -/

/-- A line of the output of `lscpu --parse`: a comment, or the ids of a CPU, possibly with more fields. -/
inductive Line where
  | comment (text : Str)
  | cpu (x : Cpu) (more : Option Str)

def moreFields : Option Str → Str
  | none => []
  | some fields => ',' :: fields

def Line.text : Line → Str
  | .comment text => '#' :: text
  | .cpu x more => strInt x.cpuId ++ ',' :: (strInt x.coreId ++ ',' :: (strInt x.socketId ++ moreFields more))

def Line.cpu? : Line → Option Cpu
  | .comment _ => none
  | .cpu x _ => some x

structure Listing where
  lines : List Line
  plain : ∀ line ∈ lines, ∀ c ∈ line.text, isLineEnd c = false
  distinct : ((lines.filterMap Line.cpu?).map Cpu.cpuId).Nodup
  oneSocket : ∀ x ∈ lines.filterMap Line.cpu?, ∀ y ∈ lines.filterMap Line.cpu?, x.coreId = y.coreId →
    x.socketId = y.socketId

def Listing.cpus (listing : Listing) : List Cpu := listing.lines.filterMap Line.cpu?

def Listing.text (listing : Listing) : Str := listing.lines.flatMap fun line => line.text ++ ['\n']

/-! ### Reading a listing -/

theorem splitlines_line {line : Str} (plain : ∀ c ∈ line, isLineEnd c = false) (rest : Str) :
    splitlines (line ++ '\n' :: rest) = line :: splitlines rest := by
  induction line with
  | nil => rfl
  | cons c line ih =>
    have here := plain c List.mem_cons_self
    have others := ih fun d member => plain d (List.mem_cons_of_mem c member)
    have notReturn : c ≠ '\r' := by
      rintro rfl
      exact absurd here (by decide)
    rw [List.cons_append, splitlines, here, others]
    · rfl
    · intro _ same
      exact absurd same notReturn

theorem splitlines_listing (lines : List Line) (plain : ∀ line ∈ lines, ∀ c ∈ line.text, isLineEnd c = false) :
    splitlines (lines.flatMap fun line => line.text ++ ['\n']) = lines.map Line.text := by
  induction lines with
  | nil => rfl
  | cons line lines ih =>
    rw [List.flatMap_cons, List.append_assoc, List.singleton_append, splitlines_line (plain line List.mem_cons_self),
      ih fun l member => plain l (List.mem_cons_of_mem line member), List.map_cons]

/-! ### Numbers -/

theorem digit_bounds {c : Char} (digit : c.isDigit = true) : 48 ≤ c.toNat ∧ c.toNat ≤ 57 := by
  simpa [Char.isDigit, UInt32.le_iff_toNat_le] using digit

theorem decimal_digit {c : Char} (digit : c.isDigit = true) : decimal c = some (c.toNat - '0'.toNat) := by
  have bounds := digit_bounds digit
  have found : decimalZeros.find? (fun z => z ≤ c.toNat ∧ c.toNat < z + 10) = some 0x30 := by
    rw [decimalZeros, List.find?_cons_of_pos]
    simp only [decide_eq_true_eq]
    omega
  rw [decimal, found]
  rfl

theorem isBlank_digit {c : Char} (digit : c.isDigit = true) : isBlank c = false := by
  have bounds := digit_bounds digit
  simp only [isBlank, isSpace, spaces, List.contains_cons, List.contains_nil, Bool.or_false, Bool.or_eq_false_iff,
    beq_eq_false_iff_ne, Bool.and_eq_false_iff, decide_eq_false_iff_not]
  omega

theorem isSpace_of_isBlank {c : Char} (blank : isBlank c = false) : isSpace c = false :=
  (Bool.or_eq_false_iff.mp blank).1

theorem mapM_decimal {digits : Str} (all : ∀ c ∈ digits, c.isDigit = true) :
    digits.mapM decimal = some (digits.map fun c => c.toNat - '0'.toNat) := by
  induction digits with
  | nil => rfl
  | cons c digits ih =>
    have others := ih fun d member => all d (List.mem_cons_of_mem c member)
    rw [List.mapM_cons, decimal_digit (all c List.mem_cons_self), others]
    rfl

theorem str_digit {n : ℕ} {c : Char} (member : c ∈ str n) : c.isDigit = true :=
  Nat.isDigit_of_mem_toDigits (by decide) (by decide) member

theorem unsigned_str (n : ℕ) : unsigned (str n) = some n := by
  have whole : (str n).splitOn '_' = [str n] := by
    apply List.splitOn_eq_singleton
    exact Nat.underscore_not_in_toDigits
  have value : ((str n).map fun c => c.toNat - '0'.toNat).foldl (fun value digit => 10 * value + digit) 0 = n := by
    have chars := Nat.ofDigitChars_ten_toDigits (n := n)
    rw [Nat.ofDigitChars_eq_foldl] at chars
    rw [List.foldl_map]
    exact chars
  have nonempty : str n ≠ [] := Nat.toDigits_ne_nil
  rw [unsigned, whole, List.mapM_cons, if_neg nonempty, mapM_decimal fun c => str_digit]
  simpa using value

/-- A text without white space. -/
theorem strip_eq_self {s : Str} (all : ∀ c ∈ s, isSpace c = false) : strip s = s := by
  have front : s.dropWhile isSpace = s := by
    cases s with
    | nil => rfl
    | cons c s => exact List.dropWhile_cons_of_neg (by rw [all c List.mem_cons_self]; decide)
  have back : s.reverse.dropWhile isSpace = s.reverse := by
    cases reversed : s.reverse with
    | nil => rfl
    | cons c rest =>
      have member : c ∈ s := List.mem_reverse.mp (reversed ▸ List.mem_cons_self)
      exact List.dropWhile_cons_of_neg (by rw [all c member]; decide)
  rw [strip, front, back, List.reverse_reverse]

theorem int_strInt (z : ℤ) : int (strInt z) = some z := by
  have plain (n : ℕ) (c : Char) (member : c ∈ str n) : isSpace c = false :=
    isSpace_of_isBlank (isBlank_digit (str_digit member))
  rw [strInt]
  by_cases negative : z < 0
  · have spaces : ∀ c ∈ '-' :: str z.natAbs, isSpace c = false := by
      intro c member
      rcases List.mem_cons.mp member with rfl | later
      · decide
      · exact plain _ c later
    rw [if_pos negative, int, strip_eq_self spaces]
    simp only [unsigned_str]
    change some (-(z.natAbs : ℤ)) = some z
    congr 1
    omega
  · have sign (c : Char) (rest : Str) (same : str z.natAbs = c :: rest) : c.isDigit = true :=
      str_digit (same ▸ List.mem_cons_self)
    rw [if_neg negative, int, strip_eq_self (plain _)]
    split
    · exact absurd (sign _ _ ‹_›) (by decide)
    · exact absurd (sign _ _ ‹_›) (by decide)
    · rw [unsigned_str]
      change some (z.natAbs : ℤ) = some z
      congr 1
      omega

/-- The characters of a number. -/
theorem strInt_chars {z : ℤ} {c : Char} (member : c ∈ strInt z) : isBlank c = false ∧ c ≠ ',' ∧ c ≠ '#' := by
  rw [strInt] at member
  have ofDigit (n : ℕ) (inside : c ∈ str n) : isBlank c = false ∧ c ≠ ',' ∧ c ≠ '#' := by
    have digit := str_digit inside
    refine ⟨isBlank_digit digit, ?_, ?_⟩
    · rintro rfl
      exact absurd digit (by decide)
    · rintro rfl
      exact absurd digit (by decide)
  split at member
  · rcases List.mem_cons.mp member with rfl | later
    · decide
    · exact ofDigit _ later
  · exact ofDigit _ member

theorem comma_not_mem_strInt (z : ℤ) : ',' ∉ strInt z := fun member => (strInt_chars member).2.1 rfl

theorem strInt_ne_nil (z : ℤ) : strInt z ≠ [] := by
  rw [strInt]
  split
  · exact List.cons_ne_nil _ _
  · exact Nat.toDigits_ne_nil

/-! ### Lines -/

def stripEnd (s : Str) : Str := (s.reverse.dropWhile isBlank).reverse

theorem dropWhile_eq_self {s : Str} (all : ∀ c ∈ s, isBlank c = false) : s.dropWhile isBlank = s := by
  cases s with
  | nil => rfl
  | cons c s => exact List.dropWhile_cons_of_neg (by rw [all c List.mem_cons_self]; decide)

theorem stripEnd_append {front : Str} (all : ∀ c ∈ front, isBlank c = false) (rest : Str) :
    stripEnd (front ++ rest) = front ++ stripEnd rest := by
  have kept : front.reverse.dropWhile isBlank = front.reverse :=
    dropWhile_eq_self fun c member => all c (List.mem_reverse.mp member)
  rw [stripEnd, stripEnd, List.reverse_append, List.dropWhile_append, kept]
  split
  · rename_i empty
    rw [List.isEmpty_iff.mp empty, List.reverse_reverse, List.reverse_nil, List.append_nil]
  · rw [List.reverse_append, List.reverse_reverse]

theorem stripBlanks_append {front : Str} (nonempty : front ≠ []) (all : ∀ c ∈ front, isBlank c = false) (rest : Str) :
    stripBlanks (front ++ rest) = front ++ stripEnd rest := by
  have start : (front ++ rest).dropWhile isBlank = front ++ rest := by
    cases front with
    | nil => exact absurd rfl nonempty
    | cons c front => exact List.dropWhile_cons_of_neg (by rw [all c List.mem_cons_self]; decide)
  rw [stripBlanks, start]
  exact stripEnd_append all rest

/-- The end of a line, without trailing white space, is still the end of the list of ids. -/
theorem splitOn_last (z : ℤ) (more : Option Str) :
    ∃ items, (strInt z ++ stripEnd (moreFields more)).splitOn ',' = strInt z :: items := by
  cases more with
  | none =>
    refine ⟨[], ?_⟩
    rw [show stripEnd (moreFields none) = [] from rfl, List.append_nil]
    exact List.splitOn_eq_singleton (comma_not_mem_strInt z)
  | some fields =>
    have single : ∀ c ∈ [','], isBlank c = false := List.forall_mem_singleton.mpr (by decide)
    have comma : stripEnd (moreFields (some fields)) = ',' :: stripEnd fields := stripEnd_append single fields
    rw [comma]
    exact ⟨_, List.splitOn_append_cons_self_of_not_mem (comma_not_mem_strInt z) _⟩

theorem parseCpu_line (x : Cpu) (more : Option Str) : parseCpu (Line.text (.cpu x more)) = some x := by
  let front : Str := strInt x.cpuId ++ ',' :: (strInt x.coreId ++ ',' :: strInt x.socketId)
  have nonempty : front ≠ [] := List.append_ne_nil_of_left_ne_nil (strInt_ne_nil _) _
  have all : ∀ c ∈ front, isBlank c = false := by
    intro c member
    simp only [front, List.mem_append, List.mem_cons] at member
    rcases member with inside | rfl | inside | rfl | inside
    · exact (strInt_chars inside).1
    · decide
    · exact (strInt_chars inside).1
    · decide
    · exact (strInt_chars inside).1
  obtain ⟨items, last⟩ := splitOn_last x.socketId more
  have stripped : (stripBlanks (Line.text (.cpu x more))).splitOn ',' =
      strInt x.cpuId :: strInt x.coreId :: strInt x.socketId :: items := by
    have text : Line.text (.cpu x more) = front ++ moreFields more := by
      simp only [front, Line.text, List.append_assoc, List.cons_append]
    rw [text, stripBlanks_append nonempty all]
    simp only [front, List.append_assoc, List.cons_append]
    rw [List.splitOn_append_cons_self_of_not_mem (comma_not_mem_strInt _),
      List.splitOn_append_cons_self_of_not_mem (comma_not_mem_strInt _), last]
  simp only [parseCpu, stripped]
  simp [int_strInt]

theorem not_comment (x : Cpu) (more : Option Str) : "#".toList.isPrefixOf (Line.text (.cpu x more)) = false := by
  cases number : strInt x.cpuId with
  | nil => exact absurd number (strInt_ne_nil _)
  | cons c rest =>
    have other : c ≠ '#' := (strInt_chars (number ▸ List.mem_cons_self)).2.2
    simp only [Line.text, number, List.cons_append]
    simp [List.isPrefixOf, Ne.symm other]

theorem availCpus_lines (lines : List Line) :
    ((lines.map Line.text).filter fun l => !"#".toList.isPrefixOf l).mapM parseCpu =
      some (lines.filterMap Line.cpu?) := by
  induction lines with
  | nil => rfl
  | cons line lines ih =>
    cases line with
    | comment text =>
      rw [List.map_cons, List.filter_cons_of_neg (by simp [Line.text, List.isPrefixOf]), ih]
      rfl
    | cpu x more =>
      rw [List.map_cons, List.filter_cons_of_pos (by rw [not_comment]; rfl), List.mapM_cons, parseCpu_line, ih]
      rfl

theorem availCpus_text (listing : Listing) : availCpus listing.text = some listing.cpus := by
  rw [availCpus, Listing.text, splitlines_listing _ listing.plain, availCpus_lines]
  rfl

/-! ### One CPU for each core -/

theorem Cpu.le_iff {x y : Cpu} : x.le y = true ↔ x.socketId < y.socketId ∨ x.socketId = y.socketId ∧
    (x.coreId < y.coreId ∨ x.coreId = y.coreId ∧ x.cpuId ≤ y.cpuId) := decide_eq_true_iff

theorem sorted_cpus (cpus : List Cpu) : (cpus.mergeSort Cpu.le).Pairwise fun x y => x.le y = true := by
  apply List.pairwise_mergeSort
  · intro x y z first second
    rw [Cpu.le_iff] at *
    omega
  · intro x y
    rw [Bool.or_eq_true, Cpu.le_iff, Cpu.le_iff]
    omega

/-- The CPUs that are the first ones of their cores. -/
def firstOfCores : List Cpu → List ℤ → List Cpu
  | [], _ => []
  | x :: rest, addedCores =>
    if x.coreId ∉ addedCores then x :: firstOfCores rest (x.coreId :: addedCores) else firstOfCores rest addedCores

theorem addCores_eq (cpus : List Cpu) : ∀ (addedCores : List ℤ) (ret : List (ℤ × ℤ)),
    addCores cpus addedCores ret = ret ++ (firstOfCores cpus addedCores).map fun x => (x.cpuId, x.socketId) := by
  induction cpus with
  | nil => exact fun _ ret => (List.append_nil ret).symm
  | cons x rest ih =>
    intro addedCores ret
    rw [addCores, firstOfCores]
    by_cases new : x.coreId ∉ addedCores
    · rw [if_pos new, if_pos new, ih, List.map_cons, List.append_assoc, List.singleton_append]
    · rw [if_neg new, if_neg new, ih]

theorem firstOfCores_sublist (cpus : List Cpu) : ∀ addedCores, (firstOfCores cpus addedCores).Sublist cpus := by
  induction cpus with
  | nil => exact fun _ => .slnil
  | cons x rest ih =>
    intro addedCores
    rw [firstOfCores]
    split
    · exact (ih _).cons_cons x
    · exact (ih _).cons x

/-- No core is met twice, and none that was met before. -/
theorem firstOfCores_new (cpus : List Cpu) : ∀ addedCores, (∀ x ∈ firstOfCores cpus addedCores, x.coreId ∉ addedCores) ∧
    ((firstOfCores cpus addedCores).map Cpu.coreId).Nodup := by
  induction cpus with
  | nil => exact fun _ => ⟨fun _ member => (List.not_mem_nil member).elim, List.nodup_nil⟩
  | cons x rest ih =>
    intro addedCores
    rw [firstOfCores]
    by_cases new : x.coreId ∉ addedCores
    · obtain ⟨others, nodup⟩ := ih (x.coreId :: addedCores)
      rw [if_pos new]
      constructor
      · intro y member
        rcases List.mem_cons.mp member with rfl | later
        · exact new
        · exact fun added => others y later (List.mem_cons_of_mem _ added)
      · rw [List.map_cons, List.nodup_cons]
        refine ⟨fun again => ?_, nodup⟩
        obtain ⟨y, later, same⟩ := List.mem_map.mp again
        exact others y later (same ▸ List.mem_cons_self)
    · rw [if_neg new]
      exact ih addedCores

theorem firstOfCores_cover (cpus : List Cpu) : ∀ addedCores, ∀ x ∈ cpus,
    x.coreId ∈ addedCores ∨ x.coreId ∈ (firstOfCores cpus addedCores).map Cpu.coreId := by
  induction cpus with
  | nil => exact fun _ _ member => (List.not_mem_nil member).elim
  | cons y rest ih =>
    intro addedCores x member
    rw [firstOfCores]
    by_cases new : y.coreId ∉ addedCores
    · rw [if_pos new, List.map_cons, List.mem_cons]
      rcases List.mem_cons.mp member with rfl | later
      · exact .inr (.inl rfl)
      · rcases ih (y.coreId :: addedCores) x later with added | found
        · rcases List.mem_cons.mp added with same | before
          · exact .inr (.inl same)
          · exact .inl before
        · exact .inr (.inr found)
    · rw [if_neg new]
      rcases List.mem_cons.mp member with rfl | later
      · exact .inl (not_not.mp new)
      · exact ih addedCores x later

/-- A CPU that is kept comes first in the order. -/
theorem firstOfCores_le (cpus : List Cpu) (sorted : cpus.Pairwise fun x y => x.le y = true) : ∀ addedCores,
    ∀ x ∈ firstOfCores cpus addedCores, ∀ y ∈ cpus, y.coreId = x.coreId → x.le y = true := by
  induction cpus with
  | nil => exact fun _ _ member => (List.not_mem_nil member).elim
  | cons z rest ih =>
    intro addedCores x kept y member same
    obtain ⟨least, sortedRest⟩ := List.pairwise_cons.mp sorted
    rw [firstOfCores] at kept
    by_cases new : z.coreId ∉ addedCores
    · rw [if_pos new] at kept
      rcases List.mem_cons.mp kept with rfl | later
      · rcases List.mem_cons.mp member with rfl | after
        · rw [Cpu.le_iff]
          omega
        · exact least y after
      · rcases List.mem_cons.mp member with rfl | after
        · exact absurd (same ▸ List.mem_cons_self) ((firstOfCores_new rest _).1 x later)
        · exact ih sortedRest _ x later y after same
    · rw [if_neg new] at kept
      rcases List.mem_cons.mp member with rfl | after
      · exact absurd (same ▸ not_not.mp new) ((firstOfCores_new rest _).1 x kept)
      · exact ih sortedRest _ x kept y after same

/-- What comes before an element of a prefix is in the prefix. -/
theorem mem_take_of_before {cpus : List Cpu} (sorted : cpus.Pairwise fun x y => x.le y = true) {P : ℕ} {x y : Cpu}
    (inside : x ∈ cpus.take P) (member : y ∈ cpus) (before : ¬ x.le y = true) : y ∈ cpus.take P := by
  rw [← List.take_append_drop P cpus] at sorted member
  rcases List.mem_append.mp member with early | late
  · exact early
  · exact absurd ((List.pairwise_append.mp sorted).2.2 x inside y late) before

/-- What the scripts rely on: `chosen` has the smallest CPU of each core, and a part of it from the start has that many
cores, those of a socket after those of all lower sockets. -/
structure Chosen (cpus chosen : List Cpu) : Prop where
  inside : ∀ x ∈ chosen, x ∈ cpus
  cpusDistinct : (chosen.map Cpu.cpuId).Nodup
  coresDistinct : (chosen.map Cpu.coreId).Nodup
  allCores : ∀ x ∈ cpus, x.coreId ∈ chosen.map Cpu.coreId
  smallest : ∀ x ∈ chosen, ∀ y ∈ cpus, y.coreId = x.coreId → x.cpuId ≤ y.cpuId
  prefixes : ∀ P ≤ (cpus.map Cpu.coreId).dedup.length, (chosen.take P).length = P ∧
    ((chosen.take P).map Cpu.coreId).Nodup ∧
    ∀ x ∈ chosen.take P, ∀ y ∈ cpus, y.socketId < x.socketId → y.coreId ∈ (chosen.take P).map Cpu.coreId

theorem Listing.chosen (listing : Listing) :
    Chosen listing.cpus (firstOfCores (listing.cpus.mergeSort Cpu.le) []) := by
  have perm : (listing.cpus.mergeSort Cpu.le).Perm listing.cpus := List.mergeSort_perm _ _
  have sorted := sorted_cpus listing.cpus
  have sub := firstOfCores_sublist (listing.cpus.mergeSort Cpu.le) []
  have nodup := (firstOfCores_new (listing.cpus.mergeSort Cpu.le) []).2
  have least := firstOfCores_le _ sorted []
  have cover (x : Cpu) (member : x ∈ listing.cpus) :
      x.coreId ∈ (firstOfCores (listing.cpus.mergeSort Cpu.le) []).map Cpu.coreId := by
    rcases firstOfCores_cover _ [] x (perm.mem_iff.mpr member) with added | found
    · exact (List.not_mem_nil added).elim
    · exact found
  have kept := sorted.sublist sub
  generalize firstOfCores (listing.cpus.mergeSort Cpu.le) [] = chosen at *
  have inside (x : Cpu) (member : x ∈ chosen) : x ∈ listing.cpus := perm.mem_iff.mp (sub.subset member)
  refine ⟨inside, ?_, nodup, cover, ?_, ?_⟩
  · exact (sub.map Cpu.cpuId).nodup ((perm.map Cpu.cpuId).nodup_iff.mpr listing.distinct)
  · intro x member y other same
    have first := Cpu.le_iff.mp (least x member y (perm.mem_iff.mpr other) same)
    have sockets := listing.oneSocket y other x (inside x member) same
    omega
  · intro P bound
    have count : (listing.cpus.map Cpu.coreId).dedup.length ≤ chosen.length := by
      rw [← List.length_map (f := Cpu.coreId)]
      apply (List.nodup_dedup _).length_le_of_subset
      intro core member
      obtain ⟨x, listed, rfl⟩ := List.mem_map.mp (List.mem_dedup.mp member)
      exact cover x listed
    refine ⟨List.length_take_of_le (bound.trans count), ?_, ?_⟩
    · exact ((List.take_sublist P chosen).map Cpu.coreId).nodup nodup
    · intro x early y other lower
      obtain ⟨z, chosenZ, same⟩ := List.mem_map.mp (cover y other)
      have first := Cpu.le_iff.mp (least z chosenZ y (perm.mem_iff.mpr other) same.symm)
      have before : ¬ x.le z = true := by
        rw [Cpu.le_iff]
        omega
      rw [← same]
      exact List.mem_map_of_mem (mem_take_of_before kept early chosenZ before)

/-- The CPUs that are found in a listing, and the CPUs that a command is pinned to. -/
theorem getCpuOrdering_correct (listing : Listing) : ∃ chosen, Chosen listing.cpus chosen ∧
    getCpuOrdering .other listing.text = some (chosen.map fun x => (x.cpuId, x.socketId)) ∧
    ∀ (P : ℕ) (shell : Str → ℕ → Str × Str) (trials rcommand : Str) (t : ℤ), int trials = some t →
      let command := "taskset -c ".toList ++
        List.intercalate ",".toList ((chosen.take P).map fun x => strInt x.cpuId) ++ " ".toList ++ rcommand
      runOnPWorkers .other listing.text shell P trials rcommand =
        some ((List.range' 1 t.toNat).flatMap fun i => (shell command i).1,
          (List.range' 1 t.toNat).flatMap fun i => (shell command i).2) := by
  have ordering : getCpuOrdering .other listing.text =
      some ((firstOfCores (listing.cpus.mergeSort Cpu.le) []).map fun x => (x.cpuId, x.socketId)) := by
    rw [getCpuOrdering, availCpus_text]
    change some (addCores _ [] []) = _
    rw [addCores_eq, List.nil_append]
  refine ⟨_, listing.chosen, ordering, fun P shell trials rcommand t number => ?_⟩
  simp only [runOnPWorkers, ordering, number, pinned, Option.bind_eq_bind, Option.bind_some]
  simp [← List.map_take, List.flatMap_map, Function.comp_def]

theorem plain_of_all {lines : List Line} (all : lines.all fun line => line.text.all fun c => !isLineEnd c) :
    ∀ line ∈ lines, ∀ c ∈ line.text, isLineEnd c = false := by
  intro line member c inside
  have each := List.all_eq_true.mp (List.all_eq_true.mp all line member) c inside
  exact Bool.not_eq_eq_eq_not.mp each

/-- Two sockets with a core each, and two threads on each core. -/
def fourThreads : Listing where
  lines := [.comment " CPU,Core,Socket,Node".toList, .cpu ⟨1, 0, 3⟩ (some "0".toList), .cpu ⟨0, 1, 0⟩ none,
    .cpu ⟨1, 0, 1⟩ (some "0,,,".toList), .cpu ⟨0, 1, 2⟩ none]
  plain := plain_of_all (by decide)
  distinct := by decide
  oneSocket := by decide

theorem getCpuOrdering_correct_fourThreads : ∃ chosen, Chosen fourThreads.cpus chosen ∧
    2 ≤ (fourThreads.cpus.map Cpu.coreId).dedup.length ∧ (chosen.take 2).length = 2 ∧
    runOnPWorkers .other fourThreads.text (fun command _ => (command, [])) 2 "1".toList "qsort".toList =
      some ("taskset -c ".toList ++ List.intercalate ",".toList ((chosen.take 2).map fun x => strInt x.cpuId) ++
        " ".toList ++ "qsort".toList, []) := by
  obtain ⟨chosen, correct, -, runs⟩ := getCpuOrdering_correct fourThreads
  have cores : 2 ≤ (fourThreads.cpus.map Cpu.coreId).dedup.length := by decide
  have one := runs 2 (fun command _ => (command, [])) "1".toList "qsort".toList 1 (by decide)
  refine ⟨chosen, correct, cores, (correct.prefixes 2 cores).1, one.trans ?_⟩
  simp

end CilkArtifact.Harness
