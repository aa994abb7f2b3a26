import CilkArtifact.Harness.Results
import Mathlib.Data.List.Count

/-! When the CSV of an experiment shows every median that was stored for it. -/
namespace CilkArtifact.Harness
variable {V : Type}

/-! ### Positions in lists -/

theorem count_eq_one_iff {α : Type} [BEq α] [LawfulBEq α] {l : List α} {a : α} :
    l.count a = 1 ↔ ∃ j : ℕ, l[j]? = some a ∧ ∀ k : ℕ, l[k]? = some a → k = j := by
  induction l with
  | nil => simp
  | cons x l ih =>
    by_cases same : x = a
    · subst same
      rw [List.count_cons_self, Nat.add_eq_right, List.count_eq_zero]
      constructor
      · intro absent
        refine ⟨0, rfl, fun k found => ?_⟩
        cases k with
        | zero => rfl
        | succ k =>
          rw [List.getElem?_cons_succ] at found
          exact absurd (List.mem_of_getElem? found) absent
      · rintro ⟨j, -, unique⟩ member
        obtain ⟨k, found⟩ := List.mem_iff_getElem?.mp member
        have first := unique 0 rfl
        have second := unique (k + 1) found
        omega
    · rw [List.count_cons_of_ne same, ih]
      constructor
      · rintro ⟨j, found, unique⟩
        refine ⟨j + 1, found, fun k found' => ?_⟩
        cases k with
        | zero => exact absurd (Option.some.inj found') same
        | succ k => rw [unique k found']
      · rintro ⟨j, found, unique⟩
        cases j with
        | zero => exact absurd (Option.some.inj found) same
        | succ j =>
          refine ⟨j, found, fun k found' => ?_⟩
          have := unique (k + 1) found'
          omega

theorem appendNew_nodup {names : List Str} (name : Str) (nodup : names.Nodup) :
    (appendNew names name).Nodup := by
  rw [appendNew]
  split
  · exact nodup
  · rw [List.nodup_append_comm]
    exact List.nodup_cons.mpr ⟨‹_›, nodup⟩

theorem mem_appendNew {names : List Str} {name other : Str} :
    other ∈ appendNew names name ↔ other ∈ names ∨ other = name := by
  rw [appendNew]
  split
  · constructor
    · exact .inl
    · rintro (member | rfl)
      · exact member
      · assumption
  · simp

/-! ### What a run records -/

/-- Every stored median belongs to a recorded program and system, and to a count that was asked
for and is there, written as `str` writes it. -/
structure Recorded (ncpus : ℕ) (cpuCounts : Str) (session : Session V) : Prop where
  programs : session.progRun.Nodup
  systems : session.sysRun.Nodup
  labels : ∀ s ∈ session.sysRun, ∃ sys suffix, s = label sys suffix
  stored : ∀ prog s c, (session.accumData (prog, s, c)).isSome → prog ∈ session.progRun ∧
    s ∈ session.sysRun ∧ ∃ count, Available ncpus (fixCpuCounts s cpuCounts) count ∧ c = str count

variable {ncpus : ℕ} {cpuCounts : Str} {session session' : Session V} {median : List Str → V}

/-- The names under which an invocation stores its measurements. -/
theorem accumulateRow_label {invocation : Invocation} {row : RawRow}
    (stored : accumulateRow median invocation.bench invocation.naming.1 invocation.naming.2 session row =
      some session') :
    ∃ suffix, session' = { session with
      sysRun := appendNew session.sysRun (label invocation.sys suffix)
      accumData := Function.update session.accumData
        (invocation.bench, label invocation.sys suffix, row.cpus) (some (median row.timings)) } := by
  obtain ⟨suite, bench, sys, measure⟩ := invocation
  cases suite with
  | cilk5 | gbbs | minife => exact ⟨none, (Option.some.inj stored).symm⟩
  | random =>
    obtain ⟨sysname, parsed, result⟩ := Option.bind_eq_some_iff.mp stored
    obtain ⟨names, -, rfl⟩ := Option.map_eq_some_iff.mp parsed
    exact ⟨some names.2, (Option.some.inj result).symm⟩
  | gbbsRandom dprng => exact ⟨some dprng, (Option.some.inj stored).symm⟩

theorem accumulateRow_recorded {invocation : Invocation} {row : RawRow}
    (recorded : Recorded ncpus cpuCounts session) (program : invocation.bench ∈ session.progRun)
    (labelled : ∃ count, Available ncpus (fixCpuCounts invocation.sys.name cpuCounts) count ∧
      row.cpus = str count)
    (stored : accumulateRow median invocation.bench invocation.naming.1 invocation.naming.2 session row =
      some session') :
    Recorded ncpus cpuCounts session' ∧ invocation.bench ∈ session'.progRun := by
  obtain ⟨suffix, rfl⟩ := accumulateRow_label stored
  refine ⟨⟨recorded.programs, appendNew_nodup _ recorded.systems, ?_, ?_⟩, program⟩
  · intro s member
    rcases mem_appendNew.mp member with old | rfl
    · exact recorded.labels s old
    · exact ⟨_, _, rfl⟩
  · intro prog s c found
    by_cases here : (prog, s, c) = (invocation.bench, label invocation.sys suffix, row.cpus)
    · obtain ⟨rfl, rfl, rfl⟩ := Prod.mk.inj here |>.imp_right Prod.mk.inj
      refine ⟨program, mem_appendNew.mpr (.inr rfl), ?_⟩
      rw [fixCpuCounts_label]
      exact labelled
    · dsimp only at found
      rw [Function.update_of_ne here] at found
      obtain ⟨known, system, count⟩ := recorded.stored prog s c found
      exact ⟨known, mem_appendNew.mpr (.inl system), count⟩

theorem accumulateResults_recorded (invocation : Invocation) (rows : List RawRow) :
    ∀ {session session' : Session V}, Recorded ncpus cpuCounts session →
    (rows ≠ [] → invocation.bench ∈ session.progRun) →
    (∀ row ∈ rows, ∃ count, Available ncpus (fixCpuCounts invocation.sys.name cpuCounts) count ∧
      row.cpus = str count) →
    accumulateResults median rows invocation.bench invocation.naming.1 invocation.naming.2 session =
      some session' →
    Recorded ncpus cpuCounts session' := by
  induction rows with
  | nil =>
    intro session session' recorded _ _ done
    obtain rfl := Option.some.inj done
    exact recorded
  | cons row rows ih =>
    intro session session' recorded program labelled done
    rw [accumulateResults, List.foldlM_cons] at done
    obtain ⟨middle, first, rest⟩ := Option.bind_eq_some_iff.mp done
    obtain ⟨recorded', program'⟩ := accumulateRow_recorded recorded (program (List.cons_ne_nil _ _))
      (labelled row List.mem_cons_self) first
    exact ih recorded' (fun _ => program') (fun row member => labelled row (List.mem_cons_of_mem _ member)) rest

theorem recordProgram_recorded (recorded : Recorded ncpus cpuCounts session) (invocation : Invocation)
    (rows : List RawRow) : Recorded ncpus cpuCounts (recordProgram invocation rows session) ∧
      (rows ≠ [] → invocation.bench ∈ (recordProgram invocation rows session).progRun) := by
  rw [recordProgram]
  split
  · rename_i silent
    exact ⟨recorded, fun some => absurd (List.isEmpty_iff.mp silent.2) some⟩
  · refine ⟨⟨appendNew_nodup _ recorded.programs, recorded.systems, recorded.labels, ?_⟩, ?_⟩
    · intro prog s c found
      obtain ⟨known, rest⟩ := recorded.stored prog s c found
      exact ⟨mem_appendNew.mpr (.inl known), rest⟩
    · exact fun _ => mem_appendNew.mpr (.inr rfl)

theorem runTest_recorded {invocation : Invocation} (recorded : Recorded ncpus cpuCounts session)
    (ran : runTest ncpus median cpuCounts session invocation = some session') :
    Recorded ncpus cpuCounts session' := by
  obtain ⟨rows, measured, accumulated⟩ := Option.bind_eq_some_iff.mp ran
  obtain ⟨recorded', program⟩ := recordProgram_recorded recorded invocation rows
  exact accumulateResults_recorded invocation rows recorded' program
    (fun row member => run_cpus measured member) accumulated

theorem runTests_recorded {invocations : List Invocation}
    (ran : runTests ncpus median cpuCounts invocations = some session) :
    Recorded ncpus cpuCounts session := by
  have steps (invocations : List Invocation) : ∀ {start session : Session V}, Recorded ncpus cpuCounts start →
      invocations.foldlM (runTest ncpus median cpuCounts) start = some session →
      Recorded ncpus cpuCounts session := by
    induction invocations with
    | nil =>
      intro start session recorded done
      obtain rfl := Option.some.inj done
      exact recorded
    | cons invocation invocations ih =>
      intro start session recorded done
      rw [List.foldlM_cons] at done
      obtain ⟨middle, first, rest⟩ := Option.bind_eq_some_iff.mp done
      exact ih (runTest_recorded recorded first) rest
  refine steps invocations ⟨List.nodup_nil, List.nodup_nil, ?_, ?_⟩ ran
  · rintro s ⟨⟩
  · rintro prog s c ⟨⟩

/-! ### The table -/

theorem under_iff {prog title : Str} {i j : ℕ} :
    (writeAccumulatedResults session cpuCounts).Under prog title i j ↔ session.progRun[i]? = some prog ∧
      ((columns session.sysRun cpuCounts).map heading)[j]? = some title := by
  rw [Table.Under, writeAccumulatedResults, List.getElem?_cons_succ, List.getElem?_map]
  apply and_congr_left'
  cases session.progRun[i]? <;> simp

theorem cell_eq {prog s c : Str} {i j : ℕ} (row : session.progRun[i]? = some prog)
    (column : (columns session.sysRun cpuCounts)[j]? = some (s, c)) :
    (writeAccumulatedResults session cpuCounts).cell i j = some (session.accumData (prog, s, c)) := by
  simp [Table.cell, writeAccumulatedResults, row, column]

/-- A column occurs as often as its CPU count is listed for its system. -/
theorem count_columns {sysRun : List Str} (nodup : sysRun.Nodup) {s : Str} (member : s ∈ sysRun) (c : Str) :
    (columns sysRun cpuCounts).count (s, c) = ((fixCpuCounts s cpuCounts).splitOn ',').count c := by
  have own (items : List Str) : (items.map fun c => (s, c)).count (s, c) = items.count c :=
    List.count_map_of_injective _ _ (fun _ _ same => (Prod.mk.inj same).2) c
  have other (items : List Str) {s' : Str} (differs : s' ≠ s) :
      (items.map fun c => (s', c)).count (s, c) = 0 := by
    rw [List.count_eq_zero]
    intro found
    obtain ⟨item, -, same⟩ := List.mem_map.mp found
    exact differs (Prod.mk.inj same).1
  have absent (names : List Str) (missing : s ∉ names) : (columns names cpuCounts).count (s, c) = 0 := by
    rw [List.count_eq_zero]
    intro found
    obtain ⟨s', named, item⟩ := List.mem_flatMap.mp found
    obtain ⟨c', -, same⟩ := List.mem_map.mp item
    exact missing ((Prod.mk.inj same).1 ▸ named)
  induction sysRun with
  | nil => cases member
  | cons first rest ih =>
    obtain ⟨notin, nodup'⟩ := List.nodup_cons.mp nodup
    rw [columns, List.flatMap_cons, List.count_append]
    rcases List.mem_cons.mp member with rfl | later
    · rw [own, ← columns, absent rest notin, Nat.add_zero]
    · have differs : first ≠ s := fun same => notin (same ▸ later)
      rw [other _ differs, Nat.zero_add]
      exact ih nodup' later

/-- Every count that is asked for and is there is listed once, as `str` writes it. -/
def Canonical (ncpus : ℕ) (cpuCounts : Str) : Prop :=
  ∀ count, Available ncpus cpuCounts count → (cpuCounts.splitOn ',').count (str count) = 1

theorem Canonical.fixed (canonical : Canonical ncpus cpuCounts) (s : Str) {count : ℕ}
    (available : Available ncpus (fixCpuCounts s cpuCounts) count) :
    ((fixCpuCounts s cpuCounts).splitOn ',').count (str count) = 1 := by
  rw [fixCpuCounts] at available ⊢
  split
  · -- the serial system is only ever run on one CPU
    rw [if_pos ‹_›] at available
    obtain ⟨-, -, counts, parsed, asked⟩ := available
    have single : requested ncpus "1".toList = some [1] := rfl
    obtain rfl := Option.some.inj (single.symm.trans parsed)
    rw [List.mem_singleton] at asked
    obtain rfl : count = 1 := by omega
    decide
  · rw [if_neg ‹_›] at available
    exact canonical count available

/-- The column under a header whose CPU count is written as `str` writes it. -/
theorem column_of_title {sys : TaskSystem} {suffix : Option Dprng} {count j : ℕ}
    (accepted : (requested ncpus cpuCounts).isSome) (recorded : Recorded ncpus cpuCounts session)
    (title : ((columns session.sysRun cpuCounts).map heading)[j]? =
      some (heading (label sys suffix, str count))) :
    (columns session.sysRun cpuCounts)[j]? = some (label sys suffix, str count) := by
  rw [List.getElem?_map] at title
  obtain ⟨⟨s, c⟩, found, same⟩ := Option.map_eq_some_iff.mp title
  obtain ⟨s', named, listed⟩ := List.mem_flatMap.mp (List.mem_of_getElem? found)
  obtain ⟨c', item, pair⟩ := List.mem_map.mp listed
  obtain ⟨rfl, rfl⟩ := Prod.mk.inj pair
  obtain ⟨sys', suffix', rfl⟩ := recorded.labels _ named
  obtain ⟨systems, counts⟩ := heading_inj accepted item same
  rw [found, systems, counts]

/-- The table shows everything that was stored if the counts are listed canonically. -/
theorem faithful_of_canonical (accepted : (requested ncpus cpuCounts).isSome)
    (canonical : Canonical ncpus cpuCounts) (recorded : Recorded ncpus cpuCounts session) :
    Faithful session (writeAccumulatedResults session cpuCounts) := by
  constructor
  · intro prog s c v stored
    obtain ⟨program, system, count, available, rfl⟩ := recorded.stored prog s c (by rw [stored]; rfl)
    obtain ⟨sys, suffix, rfl⟩ := recorded.labels s system
    have once := canonical.fixed _ available
    rw [← count_columns recorded.systems system] at once
    obtain ⟨j, column, uniqueColumn⟩ := count_eq_one_iff.mp once
    obtain ⟨i, row, uniqueRow⟩ := count_eq_one_iff.mp
      (List.count_eq_one_of_mem recorded.programs program)
    refine ⟨i, j, under_iff.mpr ⟨row, ?_⟩, ?_, ?_⟩
    · rw [List.getElem?_map, column]
      rfl
    · rw [cell_eq row column, stored]
    · intro i' j' under
      obtain ⟨row', title⟩ := under_iff.mp under
      exact ⟨uniqueRow i' row', uniqueColumn j' (column_of_title accepted recorded title)⟩
  · intro i j prog title under nothing
    obtain ⟨row, header⟩ := under_iff.mp under
    rw [List.getElem?_map] at header
    obtain ⟨⟨s, c⟩, column, named⟩ := Option.map_eq_some_iff.mp header
    rw [cell_eq row column, nothing s c named]

/-- Conversely, a count whose median the table shows is listed once. -/
theorem listed_of_faithful (accepted : (requested ncpus cpuCounts).isSome)
    (recorded : Recorded ncpus cpuCounts session)
    (faithful : Faithful session (writeAccumulatedResults session cpuCounts)) {prog : Str} {sys : TaskSystem}
    {suffix : Option Dprng} {count : ℕ}
    (stored : (session.accumData (prog, label sys suffix, str count)).isSome) :
    ((fixCpuCounts (label sys suffix) cpuCounts).splitOn ',').count (str count) = 1 := by
  obtain ⟨v, value⟩ := Option.isSome_iff_exists.mp stored
  obtain ⟨i, j, under, -, unique⟩ := faithful.reported _ _ _ v value
  obtain ⟨row, title⟩ := under_iff.mp under
  rw [← count_columns recorded.systems (recorded.stored _ _ _ stored).2.1, count_eq_one_iff]
  refine ⟨j, column_of_title accepted recorded title, fun k found => ?_⟩
  refine (unique i k (under_iff.mpr ⟨row, ?_⟩)).2
  rw [List.getElem?_map, found]
  rfl

/-! ### A run that measures every count -/

theorem runLoop_complete {counts : List ℤ} {timings : Timings} {count : ℕ} (asked : (count : ℤ) ∈ counts)
    (range : List ℕ) (inside : count ∈ range) :
    (str count, timings) ∈ runLoop counts (fun _ => some timings) range := by
  induction range with
  | nil => cases inside
  | cons first rest ih =>
    rw [runLoop]
    rcases List.mem_cons.mp inside with rfl | later
    · rw [if_pos asked]
      exact List.mem_cons_self
    · split
      · exact List.mem_cons_of_mem _ (ih later)
      · exact ih later

theorem accumulateResults_stores (median : List Str → V) (bench sys : Str) (rows : List RawRow) : ∀ session : Session V,
    ∃ session', accumulateResults median rows bench sys none session = some session' ∧
      ∀ c, (session.accumData (bench, sys, c)).isSome ∨ (∃ row ∈ rows, row.cpus = c) →
        (session'.accumData (bench, sys, c)).isSome := by
  induction rows with
  | nil =>
    intro session
    refine ⟨session, rfl, ?_⟩
    rintro c (old | ⟨row, ⟨⟩, -⟩)
    exact old
  | cons row rows ih =>
    intro session
    obtain ⟨session', run, kept⟩ := ih { session with
      sysRun := appendNew session.sysRun sys
      accumData := Function.update session.accumData (bench, sys, row.cpus) (some (median row.timings)) }
    refine ⟨session', run, fun c wanted => kept c ?_⟩
    by_cases here : c = row.cpus
    · left
      dsimp only
      rw [here, Function.update_self]
      rfl
    · dsimp only
      rw [Function.update_of_ne (by simpa using here)]
      rcases wanted with old | ⟨other, member, same⟩
      · exact .inl old
      · rcases List.mem_cons.mp member with rfl | later
        · exact absurd same.symm here
        · exact .inr ⟨other, later, same⟩

/-- The benchmark `fft` built with OpenCilk, taking a second on any number of CPUs. -/
def fftRun : Invocation :=
  ⟨.cilk5, "fft".toList, .opencilk, fun _ => some [("./cilk5/fft -n 2000000".toList, ["1.0".toList])]⟩

theorem fftRun_stores (median : List Str → V) {count : ℕ} (available : Available ncpus cpuCounts count) :
    ∃ session : Session V, runTests ncpus median cpuCounts [fftRun] = some session ∧
      (session.accumData ("fft".toList, label .opencilk none, str count)).isSome := by
  obtain ⟨positive, bounded, counts, parsed, asked⟩ := available
  obtain ⟨rows, measured⟩ : ∃ rows, run ncpus fftRun.measure cpuCounts = some rows :=
    ⟨_, by rw [run, parsed]; rfl⟩
  have row : ⟨"./cilk5/fft -n 2000000".toList, str count, ["1.0".toList]⟩ ∈ rows := by
    rw [run, parsed] at measured
    obtain rfl := Option.some.inj measured
    have inside : count ∈ List.range' 1 ncpus := List.mem_range'_1.mpr ⟨positive, by omega⟩
    exact List.mem_flatMap.mpr ⟨_, runLoop_complete asked _ inside, List.mem_singleton.mpr rfl⟩
  obtain ⟨session, accumulated, stores⟩ := accumulateResults_stores median fftRun.bench
    fftRun.sys.name rows (recordProgram fftRun rows ⟨[], [], fun _ => none⟩)
  refine ⟨session, ?_, stores _ (.inr ⟨_, row, rfl⟩)⟩
  change (runTest ncpus median cpuCounts _ fftRun >>= pure) = some session
  rw [bind_pure, runTest, show fixCpuCounts fftRun.sys.name cpuCounts = cpuCounts from rfl, measured]
  exact accumulated

/-- For an option string that `run` accepts, the tables of all runs show every stored median, exactly
if every count that is asked for and is there is listed once, as `str` writes it. -/
theorem tables_faithful_iff (median : List Str → V) (ncpus : ℕ) (cpuCounts : Str)
    (accepted : (requested ncpus cpuCounts).isSome) :
    (∀ invocations session, runTests ncpus median cpuCounts invocations = some session →
      Faithful session (writeAccumulatedResults session cpuCounts)) ↔ Canonical ncpus cpuCounts := by
  constructor
  · intro faithful count available
    obtain ⟨session, ran, stored⟩ := fftRun_stores median available
    exact listed_of_faithful accepted (runTests_recorded ran) (faithful _ _ ran) stored
  · intro canonical invocations session ran
    exact faithful_of_canonical accepted canonical (runTests_recorded ran)

theorem tables_faithful_two_counts :
    (requested 4 "1,2".toList).isSome ∧
    ((∀ invocations session, runTests 4 List.length "1,2".toList invocations = some session →
      Faithful session (writeAccumulatedResults session "1,2".toList)) ↔ Canonical 4 "1,2".toList) :=
  ⟨by decide, tables_faithful_iff List.length 4 "1,2".toList (by decide)⟩

/-- On a machine of four CPUs a run of `fft` with these counts is accepted, and its tables are not faithful. -/
def LosesMedian (cpuCounts : Str) : Prop :=
  (requested 4 cpuCounts).isSome ∧ ∃ session, runTests 4 List.length cpuCounts [fftRun] = some session ∧
    ¬ Faithful session (writeAccumulatedResults session cpuCounts)

theorem losesMedian_of_spelling {cpuCounts : Str} (counts : List ℤ) (parsed : requested 4 cpuCounts = some counts)
    (asked : (1 : ℤ) ∈ counts) (spelling : (cpuCounts.splitOn ',').count (str 1) ≠ 1) : LosesMedian cpuCounts := by
  have accepted : (requested 4 cpuCounts).isSome := by rw [parsed]; rfl
  obtain ⟨session, ran, stored⟩ := fftRun_stores List.length
    (show Available 4 cpuCounts 1 from ⟨le_rfl, by decide, counts, parsed, asked⟩)
  exact ⟨accepted, session, ran, fun faithful =>
    spelling (listed_of_faithful accepted (runTests_recorded ran) faithful stored)⟩

/-- A count that is listed in another spelling, by `all`, or twice. -/
theorem tables_lose_medians :
    LosesMedian "01".toList ∧ LosesMedian "all".toList ∧ LosesMedian "1,1".toList := by
  refine ⟨?_, ?_, ?_⟩
  · exact losesMedian_of_spelling [1] (by decide) (by decide) (by decide)
  · exact losesMedian_of_spelling [1, 2, 3, 4] (by decide) (by decide) (by decide)
  · exact losesMedian_of_spelling [1, 1] (by decide) (by decide) (by decide)

end CilkArtifact.Harness
