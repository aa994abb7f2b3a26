import CilkArtifact.Harness.Runner

/-! Aggregation of the raw measurements of one experiment and the CSV written from it
(`run_tests.py`). The test suites differ in how they name the column of a measurement; any
sequence of their invocations is a run. `V` is the type of medians. -/
namespace CilkArtifact.Harness
variable {V : Type}

inductive Dprng where
  | dotmix | builtin
deriving DecidableEq, Repr

def Dprng.name : Dprng → Str
  | .dotmix => "dotmix".toList
  | .builtin => "builtin".toList

inductive Suite where
  | cilk5 | gbbs | minife | random
  | gbbsRandom (dprng : Dprng)
deriving DecidableEq, Repr

/-- One call of `run` by a test suite, with what it measures at every CPU count. -/
structure Invocation where
  suite : Suite
  bench : Str
  sys : TaskSystem
  measure : ℕ → Option Timings

/-- The entries of `all_prog_run`, `all_sys_run` and `accum_data` for the experiment. -/
structure Session (V : Type) where
  progRun : List Str
  sysRun : List Str
  accumData : Str × Str × Str → Option V

def appendNew (names : List Str) (name : Str) : List Str :=
  if name ∈ names then names else names ++ [name]

/-- The match of `([a-zA-Z0-9]+)_([a-zA-Z0-9]+)` at the start of the name. -/
def parseRandbenchName (prog : Str) : Option (Str × Dprng) :=
  let first := prog.takeWhile Char.isAlphanum
  match prog.dropWhile Char.isAlphanum with
  | '_' :: rest =>
    let second := rest.takeWhile Char.isAlphanum
    if first = [] then none
    else if second = "pedigree".toList then some (first, .dotmix)
    else if second = "dprand".toList then some (first, .builtin)
    else none
  | _ => none

def accumulateRow (median : List Str → V) (bench sys : Str)
    (parseBenchName : Option (Str → Option (Str × Dprng))) (session : Session V) (row : RawRow) :
    Option (Session V) := do
  let sysname ← match parseBenchName with
    | none => some sys
    | some parse => (parse row.bench).map fun parsed => sys ++ ' ' :: parsed.2.name
  some { session with
    sysRun := appendNew session.sysRun sysname
    accumData := Function.update session.accumData (bench, sysname, row.cpus) (some (median row.timings)) }

def accumulateResults (median : List Str → V) (rows : List RawRow) (bench sys : Str)
    (parseBenchName : Option (Str → Option (Str × Dprng))) (session : Session V) : Option (Session V) :=
  rows.foldlM (accumulateRow median bench sys parseBenchName) session

/-- The `sys` and `parse_bench_name_fn` arguments a suite passes to `accumulate_results`. -/
def Invocation.naming (invocation : Invocation) : Str × Option (Str → Option (Str × Dprng)) :=
  match invocation.suite with
  | .cilk5 | .gbbs | .minife => (invocation.sys.name, none)
  | .random => (invocation.sys.name, some parseRandbenchName)
  | .gbbsRandom dprng => (invocation.sys.name ++ ' ' :: dprng.name, none)

/-- The program is recorded once it was run; `minife` only once it has produced a measurement. -/
def recordProgram (invocation : Invocation) (rows : List RawRow) (session : Session V) : Session V :=
  if invocation.suite = .minife ∧ rows.isEmpty then session
  else { session with progRun := appendNew session.progRun invocation.bench }

def runTest (ncpus : ℕ) (median : List Str → V) (cpuCounts : Str) (session : Session V)
    (invocation : Invocation) : Option (Session V) := do
  let rows ← run ncpus invocation.measure (fixCpuCounts invocation.sys.name cpuCounts)
  accumulateResults median rows invocation.bench invocation.naming.1 invocation.naming.2
    (recordProgram invocation rows session)

def runTests (ncpus : ℕ) (median : List Str → V) (cpuCounts : Str) (invocations : List Invocation) :
    Option (Session V) :=
  invocations.foldlM (runTest ncpus median cpuCounts) ⟨[], [], fun _ => none⟩

/-! ### The written table -/

/-- The header line, and for every program its name and data cells; an empty cell is `none`. -/
structure Table (V : Type) where
  header : List Str
  rows : List (Str × List (Option V))

def columns (sysRun : List Str) (cpuCounts : Str) : List (Str × Str) :=
  sysRun.flatMap fun s => ((fixCpuCounts s cpuCounts).splitOn ',').map fun c => (s, c)

def heading (column : Str × Str) : Str := column.1 ++ ' ' :: column.2

def writeAccumulatedResults (session : Session V) (cpuCounts : Str) : Table V where
  header := "benchmark".toList :: (columns session.sysRun cpuCounts).map heading
  rows := session.progRun.map fun prog =>
    (prog, (columns session.sysRun cpuCounts).map fun column => session.accumData (prog, column.1, column.2))

/-- Data cell `j` of row `i` stands in a row of `prog` under the header `title`. -/
def Table.Under (table : Table V) (prog title : Str) (i j : ℕ) : Prop :=
  (∃ cells, table.rows[i]? = some (prog, cells)) ∧ table.header[j + 1]? = some title

def Table.cell (table : Table V) (i j : ℕ) : Option (Option V) := do
  let row ← table.rows[i]?
  row.2[j]?

/-- Every stored median is in exactly one data cell of its row and header, and a cell for which
nothing is stored is empty. -/
structure Faithful (session : Session V) (table : Table V) : Prop where
  reported : ∀ prog s c v, session.accumData (prog, s, c) = some v →
    ∃ i j, table.Under prog (heading (s, c)) i j ∧ table.cell i j = some (some v) ∧
      ∀ i' j', table.Under prog (heading (s, c)) i' j' → i' = i ∧ j' = j
  blank : ∀ i j prog title, table.Under prog title i j →
    (∀ s c, heading (s, c) = title → session.accumData (prog, s, c) = none) → table.cell i j = some none

/-! ### Headers -/

/-- A system, possibly with the random number generator it was run with. -/
def label (sys : TaskSystem) : Option Dprng → Str
  | none => sys.name
  | some dprng => sys.name ++ ' ' :: dprng.name

theorem fixCpuCounts_label (sys : TaskSystem) (suffix : Option Dprng) (cpuCounts : Str) :
    fixCpuCounts (label sys suffix) cpuCounts = fixCpuCounts sys.name cpuCounts := by
  cases suffix with
  | none => rfl
  | some dprng => cases sys <;> rfl

/-- The first blank ends a word. -/
theorem word_split {word word' rest rest' : Str} (blank : ' ' ∉ word) (blank' : ' ' ∉ word')
    (same : word ++ ' ' :: rest = word' ++ ' ' :: rest') : word = word' ∧ rest = rest' := by
  induction word generalizing word' with
  | nil =>
    cases word' with
    | nil => exact ⟨rfl, (List.cons.inj same).2⟩
    | cons c cs => exact absurd ((List.cons.inj same).1 ▸ List.mem_cons_self) blank'
  | cons c cs ih =>
    cases word' with
    | nil => exact absurd ((List.cons.inj same).1 ▸ List.mem_cons_self) blank
    | cons c' cs' =>
      obtain ⟨head, tail⟩ := List.cons.inj same
      obtain ⟨words, rests⟩ := ih (fun h => blank (List.mem_cons_of_mem _ h))
        (fun h => blank' (List.mem_cons_of_mem _ h)) tail
      exact ⟨by rw [head, words], rests⟩

theorem TaskSystem.name_blank (sys : TaskSystem) : ' ' ∉ sys.name := by
  cases sys <;> decide

theorem Dprng.name_blank (dprng : Dprng) : ' ' ∉ dprng.name := by
  cases dprng <;> decide

theorem TaskSystem.name_inj {sys sys' : TaskSystem} (same : sys.name = sys'.name) : sys = sys' := by
  cases sys <;> cases sys' <;> first | rfl | exact absurd same (by decide)

theorem Dprng.name_inj {dprng dprng' : Dprng} (same : dprng.name = dprng'.name) : dprng = dprng' := by
  cases dprng <;> cases dprng' <;> first | rfl | exact absurd same (by decide)

theorem splitOn_first {x separator : Char} (rest : Str) (differs : x ≠ separator) :
    ∃ group groups, (x :: rest).splitOn separator = (x :: group) :: groups := by
  cases split : rest.splitOnP (fun c => c == separator) with
  | nil => exact absurd split (List.splitOnP_ne_nil _ _)
  | cons group groups =>
    refine ⟨group, groups, ?_⟩
    rw [List.splitOn, List.splitOnP_cons_eq_if_splitOnPPrepend, if_neg (by simpa using differs),
      List.splitOnPPrepend_eq_modifyHead, split]
    rfl

theorem strip_first {x : Char} (rest : Str) (space : isSpace x = false) :
    ∃ tail, strip (x :: rest) = x :: tail := by
  rw [strip, List.dropWhile_cons_of_neg (by rw [space]; decide), List.reverse_cons, List.dropWhile_append]
  split
  · exact ⟨[], by rw [List.dropWhile_cons_of_neg (by rw [space]; decide)]; rfl⟩
  · exact ⟨_, by rw [List.reverse_append]; rfl⟩

/-- A string that starts with a letter is no number. -/
theorem int_letter {x : Char} (rest : Str) (space : isSpace x = false) (digit : decimal x = none)
    (others : x ≠ '-' ∧ x ≠ '+' ∧ x ≠ '_') : int (x :: rest) = none := by
  obtain ⟨minus, plus, underscore⟩ := others
  have rejected (tail : Str) : unsigned (x :: tail) = none := by
    obtain ⟨group, groups, split⟩ := splitOn_first tail underscore
    simp [unsigned, split, digit]
  obtain ⟨tail, stripped⟩ := strip_first rest space
  rw [int, stripped]
  split
  · exact absurd (List.cons.inj ‹_›).1 minus
  · exact absurd (List.cons.inj ‹_›).1 plus
  · rw [rejected]
    rfl

theorem int_dprng (dprng : Dprng) (rest : Str) : int (dprng.name ++ rest) = none := by
  cases dprng with
  | dotmix => exact int_letter _ (by decide) (by decide) (by decide)
  | builtin => exact int_letter _ (by decide) (by decide) (by decide)

theorem int_listed {items : List Str} (accepted : (items.mapM int).isSome) {c : Str} (member : c ∈ items) :
    (int c).isSome := by
  induction items with
  | nil => cases member
  | cons item items ih =>
    rw [List.mapM_cons] at accepted
    cases first : int item with
    | none => simp [first] at accepted
    | some value =>
      cases rest : items.mapM int with
      | none => simp [rest] at accepted
      | some values =>
        rcases List.mem_cons.mp member with rfl | later
        · rw [first]
          rfl
        · exact ih (by rw [rest]; rfl) later

/-- No CPU count the option lists can be taken for the end of a longer system name. -/
theorem count_not_dprng {ncpus : ℕ} {s cpuCounts c : Str}
    (accepted : (requested ncpus cpuCounts).isSome) (member : c ∈ (fixCpuCounts s cpuCounts).splitOn ',')
    (dprng : Dprng) (rest : Str) : c ≠ dprng.name ++ ' ' :: rest := by
  rintro rfl
  have number := int_dprng dprng (' ' :: rest)
  rw [fixCpuCounts] at member
  split at member
  · rw [show "1".toList.splitOn ',' = ["1".toList] by decide, List.mem_singleton] at member
    rw [member] at number
    exact absurd number (by decide)
  · rw [requested] at accepted
    split at accepted
    · rw [‹cpuCounts = _›, show "all".toList.splitOn ',' = ["all".toList] by decide,
        List.mem_singleton] at member
      cases dprng with
      | dotmix => exact absurd (List.cons.inj member).1 (by decide)
      | builtin => exact absurd (List.cons.inj member).1 (by decide)
    · have := int_listed accepted member
      rw [number] at this
      cases this

theorem str_not_dprng (count : ℕ) (dprng : Dprng) (rest : Str) : str count ≠ dprng.name ++ ' ' :: rest := by
  intro same
  have blank : ' ' ∈ str count := by
    rw [same]
    exact List.mem_append_right _ List.mem_cons_self
  exact absurd (Nat.isDigit_of_mem_toDigits (by decide) (by decide) blank) (by decide)

/-- A header names one column only, if its CPU count is written as `str` writes it. -/
theorem heading_inj {ncpus : ℕ} {cpuCounts c : Str} {sys sys' : TaskSystem} {suffix suffix' : Option Dprng}
    {count : ℕ} (accepted : (requested ncpus cpuCounts).isSome)
    (member : c ∈ (fixCpuCounts (label sys' suffix') cpuCounts).splitOn ',')
    (same : heading (label sys' suffix', c) = heading (label sys suffix, str count)) :
    label sys' suffix' = label sys suffix ∧ c = str count := by
  have cut (sys : TaskSystem) (suffix : Option Dprng) (c : Str) : heading (label sys suffix, c) =
      sys.name ++ ' ' :: (match suffix with | none => c | some dprng => dprng.name ++ ' ' :: c) := by
    cases suffix with
    | none => rfl
    | some dprng => simp only [heading, label, List.append_assoc, List.cons_append]
  rw [cut, cut] at same
  obtain ⟨names, rests⟩ := word_split sys'.name_blank sys.name_blank same
  obtain rfl := TaskSystem.name_inj names
  cases suffix' with
  | none =>
    cases suffix with
    | none => exact ⟨rfl, rests⟩
    | some dprng => exact absurd rests (count_not_dprng accepted member dprng _)
  | some dprng' =>
    cases suffix with
    | none => exact absurd rests.symm (str_not_dprng count dprng' _)
    | some dprng =>
      obtain ⟨words, counts⟩ := word_split dprng'.name_blank dprng.name_blank rests
      obtain rfl := Dprng.name_inj words
      exact ⟨rfl, counts⟩

end CilkArtifact.Harness
