import Mathlib.Data.Int.Basic
import Mathlib.Data.List.Nodup

/-! The measuring half of the test scripts: the CPU counts an option string asks for, and
`run` of `runner.py`. Strings are lists of characters. The raw CSV is kept as the list of its
rows; the names and timings in it contain no separator. -/
namespace CilkArtifact.Harness

abbrev Str := List Char

/-! ### `str` and `int` -/

/-- `str(n)` for a count. -/
def str (n : ℕ) : Str := Nat.toDigits 10 n

/-- The code points of the decimal digits zero; the other nine follow each of them. -/
def decimalZeros : List ℕ :=
  [0x30, 0x660, 0x6f0, 0x7c0, 0x966, 0x9e6, 0xa66, 0xae6, 0xb66, 0xbe6, 0xc66, 0xce6, 0xd66, 0xde6,
   0xe50, 0xed0, 0xf20, 0x1040, 0x1090, 0x17e0, 0x1810, 0x1946, 0x19d0, 0x1a80, 0x1a90, 0x1b50,
   0x1bb0, 0x1c40, 0x1c50, 0xa620, 0xa8d0, 0xa900, 0xa9d0, 0xa9f0, 0xaa50, 0xabf0, 0xff10, 0x104a0,
   0x10d30, 0x11066, 0x110f0, 0x11136, 0x111d0, 0x112f0, 0x11450, 0x114d0, 0x11650, 0x116c0, 0x11730,
   0x118e0, 0x11950, 0x11c50, 0x11d50, 0x11da0, 0x16a60, 0x16ac0, 0x16b50, 0x1d7ce, 0x1d7d8, 0x1d7e2,
   0x1d7ec, 0x1d7f6, 0x1e140, 0x1e2f0, 0x1e950, 0x1fbf0]

def decimal (c : Char) : Option ℕ :=
  (decimalZeros.find? fun z => z ≤ c.toNat ∧ c.toNat < z + 10).map fun z => c.toNat - z

/-- The white space that `int` strips. -/
def spaces : List ℕ :=
  [0x9, 0xa, 0xb, 0xc, 0xd, 0x20, 0x85, 0xa0, 0x1680, 0x2000, 0x2001, 0x2002, 0x2003, 0x2004, 0x2005,
   0x2006, 0x2007, 0x2008, 0x2009, 0x200a, 0x2028, 0x2029, 0x202f, 0x205f, 0x3000]

def isSpace (c : Char) : Bool := spaces.contains c.toNat

def strip (s : Str) : Str := ((s.dropWhile isSpace).reverse.dropWhile isSpace).reverse

/-- Digits, with single underscores allowed between them. -/
def unsigned (s : Str) : Option ℕ := do
  let groups ← (s.splitOn '_').mapM fun group =>
    if group = [] then none else group.mapM decimal
  some (groups.flatten.foldl (fun value digit => 10 * value + digit) 0)

/-- `int(s)`; `none` is a `ValueError`. -/
def int (s : Str) : Option ℤ :=
  match strip s with
  | '-' :: digits => (unsigned digits).map fun n => -(n : ℤ)
  | '+' :: digits => (unsigned digits).map fun n => (n : ℤ)
  | digits => (unsigned digits).map fun n => (n : ℤ)

/-! ### Systems and CPU counts -/

inductive TaskSystem where
  | serial | cilkplus | opencilk | openmp | tbb
deriving DecidableEq, Repr

def TaskSystem.name : TaskSystem → Str
  | .serial => "serial".toList
  | .cilkplus => "cilkplus".toList
  | .opencilk => "opencilk".toList
  | .openmp => "openmp".toList
  | .tbb => "tbb".toList

def fixCpuCounts (sys cpuCounts : Str) : Str :=
  if "serial".toList.isPrefixOf sys then "1".toList else cpuCounts

/-- The counts `run` will try, from its `cpu_counts` argument. -/
def requested (ncpus : ℕ) (cpuCounts : Str) : Option (List ℤ) :=
  if cpuCounts = "all".toList then some ((List.range' 1 ncpus).map fun count : ℕ => (count : ℤ))
  else (cpuCounts.splitOn ',').mapM int

/-! ### `run` -/

/-- What the output parser found in the output of one CPU count. -/
abbrev Timings := List (Str × List Str)

structure RawRow where
  bench : Str
  cpus : Str
  timings : List Str

/-- The loop over the counts; an interrupt (`none`) ends it, keeping what was measured before. -/
def runLoop (counts : List ℤ) (measure : ℕ → Option Timings) : List ℕ → List (Str × Timings)
  | [] => []
  | count :: rest =>
    if (count : ℤ) ∈ counts then
      match measure count with
      | none => []
      | some timings => (str count, timings) :: runLoop counts measure rest
    else runLoop counts measure rest

def run (ncpus : ℕ) (measure : ℕ → Option Timings) (cpuCounts : Str) : Option (List RawRow) := do
  let counts ← requested ncpus cpuCounts
  let results := runLoop counts measure (List.range' 1 ncpus)
  some (results.flatMap fun (cpus, timings) =>
    timings.map fun (bench, values) => ⟨bench, cpus, values⟩)

/-- A count that is asked for and that the machine has. -/
def Available (ncpus : ℕ) (cpuCounts : Str) (count : ℕ) : Prop :=
  1 ≤ count ∧ count ≤ ncpus ∧ ∃ counts, requested ncpus cpuCounts = some counts ∧ (count : ℤ) ∈ counts

theorem runLoop_cpus {counts : List ℤ} {measure : ℕ → Option Timings} {entry : Str × Timings}
    (range : List ℕ) (member : entry ∈ runLoop counts measure range) :
    ∃ count ∈ range, (count : ℤ) ∈ counts ∧ entry.1 = str count := by
  induction range with
  | nil => cases member
  | cons count rest ih =>
    have later (tail : entry ∈ runLoop counts measure rest) :
        ∃ c ∈ count :: rest, (c : ℤ) ∈ counts ∧ entry.1 = str c := by
      obtain ⟨c, inside, asked, same⟩ := ih tail
      exact ⟨c, List.mem_cons_of_mem _ inside, asked, same⟩
    rw [runLoop] at member
    by_cases asked : (count : ℤ) ∈ counts
    · rw [if_pos asked] at member
      cases measured : measure count with
      | none =>
        rw [measured] at member
        cases member
      | some timings =>
        rw [measured] at member
        rcases List.mem_cons.mp member with rfl | tail
        · exact ⟨count, List.mem_cons_self, asked, rfl⟩
        · exact later tail
    · rw [if_neg asked] at member
      exact later member

/-- Every raw row is labelled with a count that was asked for and is there. -/
theorem run_cpus {ncpus : ℕ} {measure : ℕ → Option Timings} {cpuCounts : Str} {rows : List RawRow}
    (ran : run ncpus measure cpuCounts = some rows) {row : RawRow} (member : row ∈ rows) :
    ∃ count, Available ncpus cpuCounts count ∧ row.cpus = str count := by
  obtain ⟨counts, parsed, finished⟩ := Option.bind_eq_some_iff.mp ran
  obtain rfl := Option.some.inj finished
  obtain ⟨entry, inside, ofEntry⟩ := List.mem_flatMap.mp member
  obtain ⟨cell, -, rfl⟩ := List.mem_map.mp ofEntry
  obtain ⟨count, range, asked, same⟩ := runLoop_cpus _ inside
  rw [List.mem_range'_1] at range
  exact ⟨count, ⟨range.1, by omega, counts, parsed, asked⟩, same⟩

end CilkArtifact.Harness
