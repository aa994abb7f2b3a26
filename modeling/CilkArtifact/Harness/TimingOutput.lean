import CilkArtifact.Harness.CpuOrdering
import CilkArtifact.Library.Decimal
import CilkArtifact.Library.Regex

/-! The running times that `qsort.cpp`, `pi.cpp` and `fib_rng.cpp` print, and the parsers of `run_tests.py` that collect
them. A number is printed like `%g` with six significant digits. -/
namespace CilkArtifact.Harness
open Decimal Regex

section Definitions

/-- `\d` -/
def isDecimal (c : Char) : Bool := (decimal c).isSome

/-- `(\d+\.\d+)` -/
def secondsPattern : Regex := .group (.seq (.plus isDecimal) (.seq (.single (· == '.')) (.plus isDecimal)))

/-- `,\D+time\D+(\d+\.\d+)` -/
def timePattern : Regex :=
  .seq (.single (· == ',')) (.seq (.plus fun c => !isDecimal c) (.seq (literal 't' "ime".toList)
    (.seq (.plus fun c => !isDecimal c) secondsPattern)))

/-- `([^\s]+).*,\D+time\D+(\d+\.\d+)` -/
def randbenchPattern : Regex := .seq (.group (.plus fun c => !isBlank c)) (.seq (.star (· != '\n')) timePattern)

/-- `line.lower()`, for a line of ASCII characters -/
def lower (line : Str) : Str := line.map Char.toLower

/-- `timings[key].append(val)`, after `timings[key] = []` for a new key -/
def addTiming (key val : Str) : Timings → Timings
  | [] => [(key, [val])]
  | (name, vals) :: rest =>
    if name = key then (name, vals ++ [val]) :: rest else (name, vals) :: addTiming key val rest

/-- The loop of both parsers. -/
def parseLines (parse : Str → Option (Str × Str)) (output : Str) (timings : Timings) : Timings :=
  (output.splitOn '\n').foldl (fun timings line =>
    match parse (lower line) with
    | some (key, val) => addTiming key val timings
    | none => timings) timings

def cilk5Key (prog : Str) (progArgs : List Str) : Str := prog ++ ' ' :: List.intercalate [' '] progArgs

def parseCilk5Output (output prog : Str) (progArgs : List Str) (timings : Timings) : Timings :=
  parseLines (fun line =>
    match secondsPattern.found line with
    | some (val :: _) => some (cilk5Key prog progArgs, val)
    | _ => none) output timings

def parseRandbenchOutput (output : Str) (timings : Timings) : Timings :=
  parseLines (fun line =>
    match randbenchPattern.found line with
    | some (key :: val :: _) => some (key, val)
    | _ => none) output timings

/-- What `<<` writes for a number that is not negative. -/
def printed (x : ℚ) : Str := general 5 x

/-- `runtime_ms/1000.0`, where `nearest` is the value of the double that is nearest to a quotient -/
def qsortSeconds (nearest : ℚ → ℚ) (microseconds : ℕ) : ℚ := nearest ((microseconds / 1000 : ℕ) / 1000)

def qsortLine (nearest : ℚ → ℚ) (microseconds : ℕ) : Str := printed (qsortSeconds nearest microseconds)

inductive Randbench where
  | fibDprand | fibPedigree | piDprand | piPedigree
deriving DecidableEq

def Randbench.name : Randbench → Str
  | .fibDprand => "fib_dprand".toList
  | .fibPedigree => "fib_pedigree".toList
  | .piDprand => "pi_dprand".toList
  | .piPedigree => "pi_pedigree".toList

/-- A trial, with the text of its result. -/
structure Trial where
  bench : Randbench
  arg : ℤ
  result : Str
  plain : ',' ∉ result ∧ '\n' ∉ result
  seconds : ℚ
  positive : 0 < seconds

def Trial.key (trial : Trial) : Str := trial.bench.name ++ '(' :: (strInt trial.arg ++ [')'])

def Trial.line (trial : Trial) : Str :=
  trial.key ++ (" = ".toList ++ trial.result ++ (", time ".toList ++ (printed trial.seconds ++ ['s'])))

/-- Lines, each with its end. -/
def outputOf (lines : List Str) : Str := lines.flatMap (· ++ ['\n'])

end Definitions

/-! ### Collected timings -/

def Timings.get (timings : Timings) (key : Str) : List Str := (timings.lookup key).getD []

theorem get_cons (name : Str) (vals : List Str) (rest : Timings) (key : Str) :
    Timings.get ((name, vals) :: rest) key = if key = name then vals else Timings.get rest key := by
  rw [Timings.get, List.lookup_cons]
  by_cases same : key = name
  · rw [if_pos same, beq_iff_eq.mpr same]
    rfl
  · rw [if_neg same, beq_eq_false_iff_ne.mpr same]
    rfl

theorem get_addTiming (key val other : Str) (timings : Timings) :
    (addTiming key val timings).get other = timings.get other ++ if other = key then [val] else [] := by
  induction timings with
  | nil =>
    rw [addTiming, get_cons]
    rfl
  | cons entry rest ih =>
    obtain ⟨name, vals⟩ := entry
    rw [addTiming]
    by_cases here : name = key
    · subst here
      rw [if_pos rfl, get_cons, get_cons]
      split_ifs <;> simp
    · rw [if_neg here, get_cons, get_cons, ih]
      by_cases same : other = name
      · subst same
        rw [if_pos rfl, if_pos rfl, if_neg here, List.append_nil]
      · rw [if_neg same, if_neg same]

/-- What a parser finds under a key. -/
def valueUnder (parse : Str → Option (Str × Str)) (key line : Str) : Option Str :=
  (parse (lower line)).bind fun entry => if entry.1 = key then some entry.2 else none

theorem get_parseLines (parse : Str → Option (Str × Str)) (output key : Str) (timings : Timings) :
    (parseLines parse output timings).get key =
      timings.get key ++ (output.splitOn '\n').filterMap (valueUnder parse key) := by
  rw [parseLines]
  generalize output.splitOn '\n' = lines
  induction lines generalizing timings with
  | nil => rw [List.foldl_nil, List.filterMap_nil, List.append_nil]
  | cons line lines ih =>
    rw [List.foldl_cons, ih, List.filterMap_cons, valueUnder]
    cases parse (lower line) with
    | none => rfl
    | some entry =>
      obtain ⟨name, val⟩ := entry
      dsimp only [Option.bind_some]
      rw [get_addTiming]
      by_cases same : key = name
      · rw [if_pos same, if_pos same.symm, List.append_assoc]
        rfl
      · rw [if_neg same, if_neg fun eq => same eq.symm, List.append_nil]

theorem splitOn_outputOf (lines : List Str) (whole : ∀ line ∈ lines, '\n' ∉ line) :
    (outputOf lines).splitOn '\n' = lines ++ [[]] := by
  induction lines with
  | nil => rfl
  | cons line lines ih =>
    rw [outputOf, List.flatMap_cons, List.append_assoc, List.singleton_append,
      List.splitOn_append_cons_self_of_not_mem (whole line List.mem_cons_self)]
    exact congrArg (line :: ·) (ih fun other member => whole other (List.mem_cons_of_mem line member))

/-- The timings of all lines are the expected ones just in case each line has its timing. -/
theorem filterMap_eq_iff {α β γ : Type} {f : α → Option β} {g : β → γ} {h : α → γ} {l : List α} :
    (l.filterMap f).map g = l.map h ↔ ∀ x ∈ l, (f x).map g = some (h x) := by
  induction l with
  | nil => exact ⟨fun _ x member => (List.not_mem_nil member).elim, fun _ => rfl⟩
  | cons x l ih =>
    rw [List.forall_mem_cons]
    cases found : f x with
    | none =>
      rw [List.filterMap_cons_none found]
      constructor
      · intro same
        have shorter := List.length_filterMap_le f l
        have longer := congrArg List.length same
        rw [List.length_map, List.length_map, List.length_cons] at longer
        omega
      · rintro ⟨absent, -⟩
        exact (Option.some_ne_none _ absent.symm).elim
    | some y =>
      rw [List.filterMap_cons_some found, List.map_cons, List.map_cons, List.cons.injEq, ih, Option.map_some,
        Option.some_inj]

/-! ### Characters -/

/-- Only upper-case letters change. -/
theorem toLower_cases (c : Char) : c.toLower = c ∨ 65 ≤ c.toNat ∧ c.toNat ≤ 90 ∧ c.toLower.toNat = c.toNat + 32 := by
  by_cases upper : c.val ≥ 'A'.val ∧ c.val ≤ 'Z'.val
  · right
    have lowered : c.toLower.val = c.val + ('a'.val - 'A'.val) := congrArg Char.val (dif_pos upper)
    have low : 65 ≤ c.toNat := UInt32.le_iff_toNat_le.mp upper.1
    have high : c.toNat ≤ 90 := UInt32.le_iff_toNat_le.mp upper.2
    refine ⟨low, high, ?_⟩
    rw [Char.toNat, lowered]
    have sum : (c.val + ('a'.val - 'A'.val)).toNat = (c.val.toNat + 32) % 2 ^ 32 := UInt32.toNat_add ..
    have small : c.val.toNat ≤ 90 := high
    rw [Nat.mod_eq_of_lt (by omega)] at sum
    exact sum
  · exact .inl (dif_neg upper)

theorem toLower_digit {c : Char} (digit : c.isDigit = true) : c.toLower = c := by
  have bounds := digit_bounds digit
  rcases toLower_cases c with same | ⟨low, -, -⟩
  · exact same
  · omega

/-- A character other than the letters comes only from itself. -/
theorem eq_of_toLower_eq {c d : Char} (low : d.toNat < 65) (same : c.toLower = d) : c = d := by
  rcases toLower_cases c with unchanged | ⟨letter, -, value⟩
  · exact unchanged.symm.trans same
  · rw [same] at value
    omega

theorem isDecimal_digit {c : Char} (digit : c.isDigit = true) : isDecimal c = true := by
  rw [isDecimal, decimal_digit digit]
  rfl

theorem isDecimal_toDigits {n : ℕ} : ∀ c ∈ Nat.toDigits 10 n, isDecimal c = true :=
  fun _ member => isDecimal_digit (toDigits_digit member)

theorem printed_chars {x : ℚ} {c : Char} (member : c ∈ printed x) : c.isDigit = true ∨ c ∈ ['.', 'e', '-', '+'] := by
  have fixed (n k : ℕ) (inside : c ∈ fixedText n k) : c.isDigit = true ∨ c ∈ ['.', 'e', '-', '+'] := by
    rcases fixedText_chars inside with digit | rfl
    · exact .inl digit
    · exact .inr (by decide)
  rw [printed, general] at member
  split_ifs at member
  · rw [Scientific.text] at member
    split_ifs at member
    · exact fixed _ _ member
    · rcases List.mem_append.mp member with mantissa | rest
      · exact fixed _ _ mantissa
      · rcases List.mem_cons.mp rest with rfl | exponent
        · exact .inr (by decide)
        · rcases exponentText_chars exponent with digit | rfl | rfl
          · exact .inl digit
          · exact .inr (by decide)
          · exact .inr (by decide)
  · rw [List.mem_singleton.mp member]
    exact .inl (by decide)

theorem toLower_printed {x : ℚ} {c : Char} (member : c ∈ printed x) : c.toLower = c := by
  rcases printed_chars member with digit | other
  · exact toLower_digit digit
  · have unchanged : ['.', 'e', '-', '+'].all fun d => d.toLower == d := by decide
    exact eq_of_beq (List.all_eq_true.mp unchanged c other)

theorem lower_printed (x : ℚ) : lower (printed x) = printed x := by
  rw [lower, List.map_congr_left fun c => toLower_printed, List.map_id']

theorem not_mem_printed {x : ℚ} {c : Char} (digit : c.isDigit = false) (other : c ∉ ['.', 'e', '-', '+']) :
    c ∉ printed x := by
  intro member
  rcases printed_chars member with inside | inside
  · exact Bool.false_ne_true (digit.symm.trans inside)
  · exact other inside

/-! ### Seconds -/

/-- The number is printed with digits on both sides of a point, and without exponent. -/
def Readable (x : ℚ) : Prop :=
  1 / 10 ^ 4 ≤ rounded 5 x ∧ rounded 5 x < 10 ^ 6 ∧ ∀ n : ℕ, rounded 5 x ≠ n

/-- A text that goes on neither with a decimal nor with a point. -/
def Ends (rest : Str) : Prop := ∀ c, rest.head? = some c → isDecimal c = false ∧ c ≠ '.'

theorem Ends.stops {rest : Str} (ends : Ends rest) : Stops isDecimal rest := fun c first => (ends c first).1

theorem Ends.append {after tail : Str} (first : Ends after) (second : Ends tail) : Ends (after ++ tail) := by
  cases after with
  | nil => exact second
  | cons c after => exact fun d same => first d same

theorem ends_nil : Ends [] := fun _ absent => (Option.some_ne_none _ absent.symm).elim

theorem ends_cons {c : Char} (other : isDecimal c = false ∧ c ≠ '.') (rest : Str) : Ends (c :: rest) := by
  intro d same
  rw [← Option.some_inj.mp same]
  exact other

/-- Digits without a point are no seconds. -/
theorem found_seconds_whole {int rest : Str} (digits : ∀ c ∈ int, isDecimal c = true) (nonempty : int ≠ [])
    (ends : Ends rest) : secondsPattern.found (int ++ rest) = none := by
  obtain ⟨shorter, first, others⟩ := plus_append nonempty digits ends.stops
  have point (text : Str) (other : ∀ c, text.head? = some c → c ≠ '.') :
      ways (.seq (.single (· == '.')) (.plus isDecimal)) text = [] := by
    cases text with
    | nil => rfl
    | cons c text =>
      have differs : (c == '.') = false := beq_eq_false_iff_ne.mpr (other c rfl)
      rw [ways, ways, differs]
      rfl
  have fails : ways (.seq (.plus isDecimal) (.seq (.single (· == '.')) (.plus isDecimal))) (int ++ rest) = [] := by
    apply ways_seq_eq_nil
    intro m member
    rw [first] at member
    rcases List.mem_cons.mp member with rfl | later
    · exact point rest fun c same => (ends c same).2
    · obtain ⟨ys, zs, more, whole, rfl⟩ := others m later
      apply point
      intro c same
      obtain ⟨d, zs, rfl⟩ := List.exists_cons_of_ne_nil more
      rw [← Option.some_inj.mp same]
      rintro rfl
      have inside : '.' ∈ int := by
        rw [← whole]
        exact List.mem_append_right ys List.mem_cons_self
      exact absurd (digits '.' inside) (by decide)
  rw [found, secondsPattern, ways, fails]
  rfl

/-- Digits around a point are seconds. -/
theorem found_seconds_point {int frac rest : Str} (digits : ∀ c ∈ int, isDecimal c = true) (nonempty : int ≠ [])
    (fractions : ∀ c ∈ frac, isDecimal c = true) (behind : frac ≠ []) (ends : Ends rest) :
    secondsPattern.found (int ++ '.' :: frac ++ rest) = some [int ++ '.' :: frac] := by
  have dot : Stops isDecimal ('.' :: (frac ++ rest)) := by
    intro c same
    rw [← Option.some_inj.mp same]
    decide
  obtain ⟨shorter, first, -⟩ := plus_append nonempty digits dot
  obtain ⟨fewer, last, -⟩ := plus_append behind fractions ends.stops
  have point : (ways (.seq (.single (· == '.')) (.plus isDecimal)) ('.' :: (frac ++ rest))).head? =
      some ⟨'.' :: frac, [], rest⟩ := by
    rw [ways_seq_of_singleton (m := ⟨['.'], [], frac ++ rest⟩) rfl, last]
    rfl
  have whole := head_seq first point
  rw [found, secondsPattern, ways, List.append_assoc, List.cons_append, List.head?_map, whole]
  rfl

/-- The digits that the pattern can match are those of the number just in case it is written without exponent. -/
theorem printed_parts (x : ℚ) : ∃ n k after, printed x = fixedText n k ++ after ∧ Ends after ∧
    (¬ 10 ^ k ∣ n ∧ (n : ℚ) / 10 ^ k = rounded 5 x ↔ Readable x) := by
  by_cases positive : 0 < x
  · have text : printed x = (scientific 5 x positive).text := dif_pos positive
    have value : rounded 5 x = (scientific 5 x positive).value := dif_pos positive
    generalize scientific 5 x positive = s at text value
    by_cases plain : s.Plain
    · refine ⟨s.digits, s.places, [], ?_, ends_nil, ?_⟩
      · rw [text, Scientific.text_plain plain, List.append_nil]
      · have bounds := s.plain_iff.mp plain
        rw [Readable, value, plain.whole_iff, ← plain.value_eq, and_iff_left rfl, and_iff_right bounds.1,
          and_iff_right bounds.2, not_exists]
    · refine ⟨s.digits, 5, 'e' :: exponentText s.exponent, ?_, ends_cons (by decide) _, ?_⟩
      · rw [text, Scientific.text_exponent plain]
      · rw [value]
        constructor
        · rintro ⟨-, same⟩
          exact (s.value_ne plain same).elim
        · rintro ⟨low, high, -⟩
          rw [value] at low high
          exact (plain (s.plain_iff.mpr ⟨low, high⟩)).elim
  · have text : printed x = ['0'] := dif_neg positive
    have value : rounded 5 x = 0 := dif_neg positive
    refine ⟨0, 0, [], text, ends_nil, ?_⟩
    constructor
    · rintro ⟨nonzero, -⟩
      exact (nonzero (dvd_zero _)).elim
    · rintro ⟨low, -, -⟩
      rw [value] at low
      norm_num at low

theorem found_seconds_printed (x : ℚ) {tail : Str} (ends : Ends tail) :
    ∃ val : Option Str, secondsPattern.found (printed x ++ tail) = val.map ([·]) ∧
      (val.map readNumber = some (readNumber (printed x)) ↔ Readable x) := by
  obtain ⟨n, k, after, text, stops, readable⟩ := printed_parts x
  have rests : Ends (after ++ tail) := stops.append ends
  have value : readNumber (printed x) = rounded 5 x := readNumber_general 5 x
  rw [value, text, List.append_assoc]
  by_cases whole : 10 ^ k ∣ n
  · refine ⟨none, ?_, ?_⟩
    · rw [fixedText, if_pos (fraction_eq_nil_iff.mpr whole), List.append_nil]
      exact found_seconds_whole isDecimal_toDigits Nat.toDigits_ne_nil rests
    · rw [← readable]
      exact ⟨fun absent => (Option.some_ne_none _ absent.symm).elim, fun fits => (fits.1 whole).elim⟩
  · have behind : fraction k n ≠ [] := fun none => whole (fraction_eq_nil_iff.mp none)
    refine ⟨some (fixedText n k), ?_, ?_⟩
    · rw [fixedText, if_neg behind]
      exact found_seconds_point isDecimal_toDigits Nat.toDigits_ne_nil
        (fun _ member => isDecimal_digit (fraction_digit member)) behind rests
    · rw [← readable, Option.map_some, Option.some_inj, readNumber_fixedText, and_iff_right whole]

/-! ### Lines of the random benchmarks -/

/-- The part of `timePattern` behind its second `\D+` -/
def wordPattern : Regex :=
  .seq (literal 't' "ime".toList) (.seq (.plus fun c => !isDecimal c) secondsPattern)

theorem ways_literal_eq_nil {c : Char} {word s : Str} (r : Regex) (other : s.head? ≠ some c) :
    ways (.seq (literal c word) r) s = [] := by
  have fails : ways (literal c word) s = [] := by
    cases s with
    | nil => cases word <;> rfl
    | cons d s =>
      have differs : (d == c) = false := by
        rw [beq_eq_false_iff_ne]
        rintro rfl
        exact other rfl
      cases word with
      | nil =>
        rw [literal, ways, differs]
        rfl
      | cons e word =>
        rw [literal, ways, ways, differs]
        rfl
  rw [ways, fails]
  rfl

theorem stops_decimal {c : Char} (digit : isDecimal c = true) (s : Str) :
    Stops (fun c => !isDecimal c) (c :: s) := by
  intro d same
  rw [← Option.some_inj.mp same]
  exact Bool.not_eq_eq_eq_not.mpr digit

/-- The digits follow the word at once. -/
theorem found_word {c : Char} (digit : isDecimal c = true) (s : Str) :
    wordPattern.found ("time ".toList ++ c :: s) = secondsPattern.found (c :: s) := by
  have word : ways (literal 't' "ime".toList) ("time ".toList ++ c :: s) = [⟨"time".toList, [], ' ' :: c :: s⟩] := rfl
  have blank : ways (.plus fun c => !isDecimal c) (' ' :: c :: s) = [⟨[' '], [], c :: s⟩] := by
    rw [ways, show (!isDecimal ' ') = true by decide, if_pos rfl, runs_stop (stops_decimal digit s)]
    rfl
  rw [wordPattern, found_seq_first word fun _ _ inside => (List.not_mem_nil inside).elim,
    found_seq_first blank fun _ _ inside => (List.not_mem_nil inside).elim]
  simp

/-- The first `\D+` matches only the blank before the word. -/
theorem found_time {c : Char} (digit : isDecimal c = true) {s : Str} (last : 't' ∉ s) :
    timePattern.found (", time ".toList ++ c :: s) = secondsPattern.found (c :: s) := by
  have comma : ways (.single (· == ',')) (", time ".toList ++ c :: s) = [⟨[','], [], " time ".toList ++ c :: s⟩] := rfl
  have behind : 't' ∉ "ime ".toList ++ c :: s := by
    rw [List.mem_append, List.mem_cons]
    rintro (inside | rfl | inside)
    · exact absurd inside (by decide)
    · exact absurd digit (by decide)
    · exact last inside
  have blank : ∀ d ∈ [' '], (!isDecimal d) = true := List.forall_mem_singleton.mpr (by decide)
  have word : found (.seq (.plus fun c => !isDecimal c) wordPattern) ([' '] ++ 't' :: ("ime ".toList ++ c :: s)) =
      wordPattern.found ('t' :: ("ime ".toList ++ c :: s)) :=
    found_seq_mark (by decide) behind (mem_plus (List.cons_ne_nil _ _) blank _) (fun _ inside => plus_split inside)
      fun _ => ways_literal_eq_nil _
  rw [timePattern, found_seq_first comma fun _ _ inside => (List.not_mem_nil inside).elim]
  calc (found (.seq (.plus fun c => !isDecimal c) wordPattern) (" time ".toList ++ c :: s)).map ([] ++ ·)
    _ = found (.seq (.plus fun c => !isDecimal c) wordPattern) (" time ".toList ++ c :: s) := Option.map_id'
    _ = wordPattern.found ("time ".toList ++ c :: s) := word
    _ = secondsPattern.found (c :: s) := found_word digit s

theorem ways_time_eq_nil (s : Str) (other : s.head? ≠ some ',') : timePattern.ways s = [] :=
  @ways_literal_eq_nil ',' [] s _ other

/-- `.*` matches all characters before the comma. -/
theorem found_rest {front : Str} (plain : ∀ c ∈ front, c ≠ ',' ∧ c ≠ '\n') {c : Char} (digit : isDecimal c = true)
    {s : Str} (last : 't' ∉ s ∧ ',' ∉ s) :
    found (.seq (.star (· != '\n')) timePattern) (front ++ (", time ".toList ++ c :: s)) =
      secondsPattern.found (c :: s) := by
  have before : ',' ∉ front := fun inside => (plain ',' inside).1 rfl
  have line : ∀ d ∈ front, (d != '\n') = true := fun d inside => bne_iff_ne.mpr (plain d inside).2
  have behind : ',' ∉ " time ".toList ++ c :: s := by
    rw [List.mem_append, List.mem_cons]
    rintro (inside | rfl | inside)
    · exact absurd inside (by decide)
    · exact absurd digit (by decide)
    · exact last.2 inside
  have mark : found (.seq (.star (· != '\n')) timePattern) (front ++ ',' :: (" time ".toList ++ c :: s)) =
      timePattern.found (',' :: (" time ".toList ++ c :: s)) :=
    found_seq_mark before behind (mem_runs line _) (fun m (inside : m ∈ runs _ _) => runs_split inside) ways_time_eq_nil
  exact mark.trans (found_time digit last.1)

/-- The first group is all that is before the first blank. -/
theorem found_randbench {key front : Str} (nonempty : key ≠ []) (solid : ∀ c ∈ key, isBlank c = false ∧ c ≠ ',')
    (plain : ∀ c ∈ front, c ≠ ',' ∧ c ≠ '\n') {c : Char} (digit : isDecimal c = true)
    {s : Str} (last : 't' ∉ s ∧ ',' ∉ s) :
    randbenchPattern.found (key ++ (' ' :: front ++ (", time ".toList ++ c :: s))) =
      (secondsPattern.found (c :: s)).map (key :: ·) := by
  have filled : ∀ c ∈ key, (!isBlank c) = true := fun c inside => Bool.not_eq_eq_eq_not.mpr (solid c inside).1
  have stops : Stops (fun c => !isBlank c) (' ' :: front ++ (", time ".toList ++ c :: s)) := by
    intro c same
    rw [← Option.some_inj.mp same]
    decide
  have spaced : ∀ c ∈ ' ' :: front, c ≠ ',' ∧ c ≠ '\n' := List.forall_mem_cons.mpr ⟨by decide, plain⟩
  obtain ⟨shorter, first, others⟩ := plus_append nonempty filled stops
  have grouped : ways (.group (.plus fun c => !isBlank c)) (key ++ (' ' :: front ++ (", time ".toList ++ c :: s))) =
      ⟨key, [key], ' ' :: front ++ (", time ".toList ++ c :: s)⟩ ::
        shorter.map fun m => { m with groups := m.text :: m.groups } := by
    rw [ways, first]
    rfl
  have whole := found_rest spaced digit last
  rw [randbenchPattern, found_seq_first grouped]
  · rw [whole]
    rfl
  · intro fails m member
    obtain ⟨m', inside, rfl⟩ := List.mem_map.mp member
    obtain ⟨ys, zs, -, parts, rfl⟩ := others m' inside
    have longer : ∀ c ∈ zs ++ ' ' :: front, c ≠ ',' ∧ c ≠ '\n' := by
      intro d place
      rcases List.mem_append.mp place with early | late
      · have member : d ∈ key := by
          rw [← parts]
          exact List.mem_append_right ys early
        refine ⟨(solid d member).2, ?_⟩
        rintro rfl
        exact absurd (solid _ member).1 (by decide)
      · exact spaced d late
    have same := found_rest longer digit last
    apply ways_of_found_eq_none
    rw [← List.append_assoc, same, ← whole]
    exact fails

/-! ### Outputs -/

/-- The parser adds one timing for each entry, in order, under the key of the entry and equal to its number. -/
def Adds (entries : List (Str × Str)) (before after : Timings) : Prop :=
  ∀ key, ∃ vals, after.get key = before.get key ++ vals ∧
    vals.map readNumber = (entries.filter (·.1 = key)).map fun entry => readNumber entry.2

/-- A parser that gets at most one value from each line, under the right key. -/
theorem adds_iff {α : Type} {parse : Str → Option (Str × Str)} {line key value : α → Str} {good : α → Prop}
    (whole : ∀ trial, '\n' ∉ line trial) (blank : parse [] = none)
    (single : ∀ trial, ∃ val : Option Str, parse (lower (line trial)) = val.map (key trial, ·) ∧
      (val.map readNumber = some (readNumber (value trial)) ↔ good trial)) (trials : List α) (before : Timings) :
    Adds (trials.map fun trial => (key trial, value trial)) before
      (parseLines parse (outputOf (trials.map line)) before) ↔ ∀ trial ∈ trials, good trial := by
  have lines : ∀ l ∈ trials.map line, '\n' ∉ l := by
    intro l member
    obtain ⟨trial, -, rfl⟩ := List.mem_map.mp member
    exact whole trial
  have last (k : Str) : [[]].filterMap (valueUnder parse k) = [] := by
    rw [List.filterMap_cons_none, List.filterMap_nil]
    rw [valueUnder, lower, List.map_nil, blank]
    rfl
  have under (k : Str) : (trials.map line).filterMap (valueUnder parse k) =
      (trials.filter (key · = k)).filterMap fun trial => (parse (lower (line trial))).map Prod.snd := by
    rw [List.filterMap_map, List.filterMap_filter]
    apply List.filterMap_congr
    intro trial _
    obtain ⟨val, parsed, -⟩ := single trial
    rw [Function.comp_apply, valueUnder, parsed]
    cases val <;> by_cases same : key trial = k <;> simp [same]
  have values (trial : α) :
      ((parse (lower (line trial))).map Prod.snd).map readNumber = some (readNumber (value trial)) ↔ good trial := by
    obtain ⟨val, parsed, iff⟩ := single trial
    rw [← iff, parsed]
    cases val <;> rfl
  have each (k : Str) : ((trials.map line).filterMap (valueUnder parse k)).map readNumber =
      ((trials.filter (key · = k)).map fun trial => readNumber (value trial)) ↔
      ∀ trial ∈ trials, key trial = k → good trial := by
    rw [under, filterMap_eq_iff]
    simp only [values, List.mem_filter, decide_eq_true_eq, and_imp]
  have entries (k : Str) : (((trials.map fun trial => (key trial, value trial)).filter (·.1 = k)).map fun entry =>
      readNumber entry.2) = (trials.filter (key · = k)).map fun trial => readNumber (value trial) := by
    rw [List.filter_map, List.map_map]
    rfl
  have result (k : Str) : (parseLines parse (outputOf (trials.map line)) before).get k =
      before.get k ++ (trials.map line).filterMap (valueUnder parse k) := by
    rw [get_parseLines, splitOn_outputOf _ lines, List.filterMap_append, last, List.append_nil]
  constructor
  · intro adds trial member
    obtain ⟨vals, added, equal⟩ := adds (key trial)
    rw [result, List.append_cancel_left_eq] at added
    rw [← added, entries, each] at equal
    exact equal trial member rfl
  · intro all k
    refine ⟨_, result k, ?_⟩
    rw [entries, each]
    exact fun trial member _ => all trial member

theorem newline_not_mem_printed (x : ℚ) : '\n' ∉ printed x := not_mem_printed rfl (by decide)

theorem printed_head (x : ℚ) : ∃ c s, printed x = c :: s ∧ isDecimal c = true := by
  obtain ⟨n, k, after, text, -, -⟩ := printed_parts x
  obtain ⟨c, digits, first⟩ := List.exists_cons_of_ne_nil (Nat.toDigits_ne_nil (n := n / 10 ^ k) (b := 10))
  refine ⟨c, digits ++ (if fraction k n = [] then [] else '.' :: fraction k n) ++ after, ?_,
    isDecimal_toDigits c (first ▸ List.mem_cons_self)⟩
  rw [text, fixedText, first, List.cons_append, List.cons_append]

theorem parse_cilk5 (prog : Str) (progArgs : List Str) (x : ℚ) : ∃ val : Option Str,
    (match secondsPattern.found (lower (printed x)) with
      | some (val :: _) => some (cilk5Key prog progArgs, val)
      | _ => none) = val.map (cilk5Key prog progArgs, ·) ∧
    (val.map readNumber = some (readNumber (printed x)) ↔ Readable x) := by
  obtain ⟨val, parsed, iff⟩ := found_seconds_printed x ends_nil
  refine ⟨val, ?_, iff⟩
  rw [List.append_nil] at parsed
  rw [lower_printed, parsed]
  cases val <;> rfl

theorem parseCilk5Output_adds_iff (nearest : ℚ → ℚ) (prog : Str) (progArgs : List Str) (trials : List ℕ)
    (before : Timings) :
    Adds (trials.map fun microseconds => (cilk5Key prog progArgs, qsortLine nearest microseconds)) before
      (parseCilk5Output (outputOf (trials.map (qsortLine nearest))) prog progArgs before) ↔
    ∀ microseconds ∈ trials, Readable (qsortSeconds nearest microseconds) :=
  adds_iff (fun _ => newline_not_mem_printed _) rfl (fun _ => parse_cilk5 prog progArgs _) trials before

namespace Trial
variable (trial : Trial)

/-- A character of the first group that `lower` leaves as it is. -/
def InKey (c : Char) : Prop := isBlank c = false ∧ c ≠ ',' ∧ c ≠ '\n' ∧ c.toLower = c

theorem InKey.digit {c : Char} (digit : c.isDigit = true) : InKey c := by
  refine ⟨isBlank_digit digit, ?_, ?_, toLower_digit digit⟩
  · rintro rfl
    exact absurd digit (by decide)
  · rintro rfl
    exact absurd digit (by decide)

theorem name_chars (bench : Randbench) {c : Char} (member : c ∈ bench.name) : InKey c := by
  have all : bench.name.all fun c => !isBlank c && c != ',' && c != '\n' && c.toLower == c := by
    cases bench <;> decide
  have each := List.all_eq_true.mp all c member
  simp only [Bool.and_eq_true, Bool.not_eq_eq_eq_not, Bool.not_true, bne_iff_ne, beq_iff_eq] at each
  obtain ⟨⟨⟨filled, comma⟩, line⟩, same⟩ := each
  exact ⟨filled, comma, line, same⟩

theorem key_chars {c : Char} (member : c ∈ trial.key) : InKey c := by
  rw [key, List.mem_append, List.mem_cons, List.mem_append, List.mem_singleton] at member
  rcases member with name | rfl | number | rfl
  · exact name_chars trial.bench name
  · exact ⟨by decide, by decide, by decide, by decide⟩
  · rw [strInt] at number
    split_ifs at number
    · rcases List.mem_cons.mp number with rfl | later
      · exact ⟨by decide, by decide, by decide, by decide⟩
      · exact .digit (str_digit later)
    · exact .digit (str_digit number)
  · exact ⟨by decide, by decide, by decide, by decide⟩

theorem newline_not_mem_line : '\n' ∉ trial.line := by
  rw [line]
  simp only [List.mem_append, not_or]
  refine ⟨fun inside => (trial.key_chars inside).2.2.1 rfl, ⟨by decide, trial.plain.2⟩, by decide,
    newline_not_mem_printed _, by decide⟩

theorem lower_line : lower trial.line = trial.key ++ (' ' :: ("= ".toList ++ lower trial.result) ++
    (", time ".toList ++ (printed trial.seconds ++ ['s']))) := by
  have key : lower trial.key = trial.key := by
    rw [lower, List.map_congr_left fun c member => (trial.key_chars member).2.2.2, List.map_id']
  have seconds := lower_printed trial.seconds
  rw [lower] at key seconds
  rw [line, lower, List.map_append, List.map_append, List.map_append, List.map_append, List.map_append, key, seconds]
  rfl

theorem lower_result : ∀ c ∈ "= ".toList ++ lower trial.result, c ≠ ',' ∧ c ≠ '\n' := by
  intro c member
  rcases List.mem_append.mp member with early | result
  · have sign : ∀ c ∈ "= ".toList, c ≠ ',' ∧ c ≠ '\n' :=
      List.forall_mem_cons.mpr ⟨by decide, List.forall_mem_singleton.mpr (by decide)⟩
    exact sign c early
  · obtain ⟨d, inside, rfl⟩ := List.mem_map.mp result
    constructor
    · intro same
      rw [eq_of_toLower_eq (by decide) same] at inside
      exact trial.plain.1 inside
    · intro same
      rw [eq_of_toLower_eq (by decide) same] at inside
      exact trial.plain.2 inside

end Trial

theorem parse_randbench (trial : Trial) : ∃ val : Option Str,
    (match randbenchPattern.found (lower trial.line) with
      | some (key :: val :: _) => some (key, val)
      | _ => none) = val.map (trial.key, ·) ∧
    (val.map readNumber = some (readNumber (printed trial.seconds)) ↔ Readable trial.seconds) := by
  obtain ⟨val, parsed, iff⟩ := found_seconds_printed trial.seconds (ends_cons (by decide : isDecimal 's' = false ∧ _) [])
  obtain ⟨c, s, text, digit⟩ := printed_head trial.seconds
  have nonempty : trial.key ≠ [] := by
    rw [Trial.key]
    simp
  have absent {d : Char} (other : d.isDigit = false ∧ d ∉ ['.', 'e', '-', '+'] ∧ d ∉ ['s']) : d ∉ s ++ ['s'] := by
    have outside : d ∉ printed trial.seconds := not_mem_printed other.1 other.2.1
    rw [text] at outside
    rw [List.mem_append]
    rintro (inside | inside)
    · exact outside (List.mem_cons_of_mem c inside)
    · exact other.2.2 inside
  have solid : ∀ c ∈ trial.key, isBlank c = false ∧ c ≠ ',' := by
    intro c member
    obtain ⟨filled, comma, -, -⟩ := trial.key_chars member
    exact ⟨filled, comma⟩
  have whole : randbenchPattern.found (lower trial.line) = (val.map ([·])).map (trial.key :: ·) := by
    rw [trial.lower_line, ← parsed, text]
    exact found_randbench nonempty solid trial.lower_result digit ⟨absent (by decide), absent (by decide)⟩
  refine ⟨val, ?_, iff⟩
  rw [whole]
  cases val <;> rfl

theorem parseRandbenchOutput_adds_iff (trials : List Trial) (before : Timings) :
    Adds (trials.map fun trial => (trial.key, printed trial.seconds)) before
      (parseRandbenchOutput (outputOf (trials.map Trial.line)) before) ↔
    ∀ trial ∈ trials, Readable trial.seconds :=
  adds_iff Trial.newline_not_mem_line rfl parse_randbench trials before

/-- The timings are complete and have the printed values just in case every number is printed with digits on both sides
of a point, and without exponent. -/
theorem timings_parsed_iff (nearest : ℚ → ℚ) :
    (∀ (prog : Str) (progArgs : List Str) (trials : List ℕ) (before : Timings),
      Adds (trials.map fun microseconds => (cilk5Key prog progArgs, qsortLine nearest microseconds)) before
        (parseCilk5Output (outputOf (trials.map (qsortLine nearest))) prog progArgs before) ↔
      ∀ microseconds ∈ trials, Readable (qsortSeconds nearest microseconds)) ∧
    ∀ (trials : List Trial) (before : Timings),
      Adds (trials.map fun trial => (trial.key, printed trial.seconds)) before
        (parseRandbenchOutput (outputOf (trials.map Trial.line)) before) ↔
      ∀ trial ∈ trials, Readable trial.seconds :=
  ⟨parseCilk5Output_adds_iff nearest, parseRandbenchOutput_adds_iff⟩

/-- A trial of 15 microseconds. -/
def shortTrial : Trial := ⟨.piPedigree, 100, "3.14".toList, by decide, 3 / 200000, by norm_num⟩

/-- Two seconds are printed without a point, and 15 microseconds with an exponent. -/
theorem timings_lost :
    (parseCilk5Output (outputOf [qsortLine id 2000000]) "qsort".toList [] [] = [] ∧
      ¬ Adds [(cilk5Key "qsort".toList [], qsortLine id 2000000)] []
        (parseCilk5Output (outputOf [qsortLine id 2000000]) "qsort".toList [] [])) ∧
    printed shortTrial.seconds = "1.5e-05".toList ∧
    parseRandbenchOutput (outputOf [shortTrial.line]) [] = [("pi_pedigree(100)".toList, ["1.5".toList])] ∧
      ¬ Adds [(shortTrial.key, printed shortTrial.seconds)] [] (parseRandbenchOutput (outputOf [shortTrial.line]) []) := by
  have dropped : parseCilk5Output (outputOf [qsortLine id 2000000]) "qsort".toList [] [] = [] := by decide +kernel
  have text : printed shortTrial.seconds = "1.5e-05".toList := by decide +kernel
  have changed : parseRandbenchOutput (outputOf [shortTrial.line]) [] =
      [("pi_pedigree(100)".toList, ["1.5".toList])] := by decide +kernel
  refine ⟨⟨dropped, ?_⟩, text, changed, ?_⟩
  · intro adds
    obtain ⟨vals, added, equal⟩ := adds (cilk5Key "qsort".toList [])
    rw [dropped] at added
    have none : vals = [] := (List.append_eq_nil_iff.mp added.symm).2
    rw [none] at equal
    simp at equal
  · intro adds
    obtain ⟨vals, added, equal⟩ := adds "pi_pedigree(100)".toList
    rw [changed] at added
    have single : vals = ["1.5".toList] := added.symm
    rw [single, text, List.filter_cons_of_pos (by decide +kernel), List.filter_nil] at equal
    have values : readNumber "1.5".toList ≠ readNumber "1.5e-05".toList := by decide +kernel
    exact values (List.cons.inj equal).1

end CilkArtifact.Harness
