import Mathlib.Data.Int.Notation
import Mathlib.Data.List.Basic

/-! Command-line options of the benchmarks (`cilk5/getoptions.c`). The arguments are `argv[1]` and the
following ones; an argument that has been dealt with becomes an empty string. -/
namespace CilkArtifact.Options

/-- `INTARG` to `BENCHMARK`. -/
inductive OptType where
  | int
  | double
  | long
  | bool
  | string
  | benchmark
  deriving DecidableEq, Repr

/-- What an option variable is assigned. -/
inductive Value (D : Type) where
  | int (n : ℤ)
  | double (x : D)
  | long (n : ℤ)
  | string (text : String)
  deriving DecidableEq

/-- The conversions of the C library. -/
structure Conversions (D : Type) where
  atoi : String → ℤ
  atof : String → D
  atol : String → ℤ

/-- A specifier with its type. -/
structure Entry where
  spec : String
  type : OptType

variable {D : Type}

/-- A loop over the arguments from `x` on that takes the argument behind the specifier, too, and clears
both. The variable is `none` as long as it has not been assigned, and `last` is what the specifier as the
last argument assigns. -/
def scanPairs (spec : String) (assign : String → Value D) (last : Option (Value D)) (x : String) :
    List String → Option (Value D) → List String × Option (Value D)
  | [], v => if x = spec ∧ last.isSome then ([""], last) else ([x], v)
  | y :: rest, v =>
    if x = spec then
      let (args, v) := scanPairs spec assign last "" rest (some (assign y))
      ("" :: args, v)
    else
      let (args, v) := scanPairs spec assign last y rest v
      (x :: args, v)

/-- A loop from the first argument on, if there is one. -/
def scanAll (scan : String → List String → Option (Value D) → List String × Option (Value D)) (v : Option (Value D)) :
    List String → List String × Option (Value D)
  | [] => ([], v)
  | x :: rest => scan x rest v

/-- The loops for `INTARG`, `DOUBLEARG`, `LONGARG` and `STRINGARG`, which stop before the last argument. -/
def scanValue (spec : String) (convert : String → Value D) (v : Option (Value D)) (args : List String) :
    List String × Option (Value D) :=
  scanAll (scanPairs spec convert none) v args

def scanBool (spec : String) : List String → Option (Value D) → List String × Option (Value D)
  | x :: rest, v =>
    if x = spec then
      let (args, v) := scanBool spec rest (some (.int 1))
      ("" :: args, v)
    else
      let (args, v) := scanBool spec rest v
      (x :: args, v)
  | [], v => ([], v)

/-- The value of `-benchmark` with the argument behind it. -/
def benchmarkSize (next : String) : ℤ :=
  if next = "long" then 3 else if next = "medium" then 2 else if next = "short" then 1 else 2

/-- The next argument is cleared in any case. -/
def scanBenchmark (spec : String) (v : Option (Value D)) (args : List String) : List String × Option (Value D) :=
  scanAll (scanPairs spec (fun next => .int (benchmarkSize next)) (some (.int 2))) v args

/-- The `switch`: all arguments are searched for one specifier. -/
def search (c : Conversions D) (entry : Entry) (v : Option (Value D)) (args : List String) :
    List String × Option (Value D) :=
  match entry.type with
  | .int => scanValue entry.spec (fun text => .int (c.atoi text)) v args
  | .double => scanValue entry.spec (fun text => .double (c.atof text)) v args
  | .long => scanValue entry.spec (fun text => .long (c.atol text)) v args
  | .bool => scanBool entry.spec args v
  | .string => scanValue entry.spec (fun text => .string text) v args
  | .benchmark => scanBenchmark entry.spec v args

/-- What the variable contains before the search. -/
def unset : OptType → Option (Value D)
  | .bool | .benchmark => some (.int 0)
  | .int | .double | .long | .string => none

def handle (c : Conversions D) (entry : Entry) (args : List String) : List String × Option (Value D) :=
  search c entry (unset entry.type) args

def handleAll (c : Conversions D) : List Entry → List String → List String × List (Option (Value D))
  | [], args => (args, [])
  | entry :: table, args =>
    let (args, v) := handle c entry args
    let (args, vs) := handleAll c table args
    (args, v :: vs)

/-- The values of the option variables, and the arguments that are reported as invalid. -/
def getOptions (c : Conversions D) (table : List Entry) (args : List String) : List (Option (Value D)) × List String :=
  let (args, vs) := handleAll c table args
  (vs, args.filter (· ≠ ""))

/-! ### Command lines -/

/-- The sizes that can follow a benchmark option. -/
inductive Size where
  | short
  | medium
  | long
  deriving DecidableEq, Repr

def Size.text : Size → String
  | short => "short"
  | medium => "medium"
  | long => "long"

/-- A well-formed group of arguments. -/
inductive Group where
  | value (spec text : String)
  | flag (spec : String)
  | bare (spec : String)
  | sized (spec : String) (size : Size)
  deriving DecidableEq, Repr

namespace Group

def spec : Group → String
  | value spec _ | flag spec | bare spec | sized spec _ => spec

def tokens : Group → List String
  | value spec text => [spec, text]
  | flag spec => [spec]
  | bare spec => [spec]
  | sized spec size => [spec, size.text]

/-- The group is of the kind that the type of its specifier asks for, and its value is no specifier. -/
def Fits (table : List Entry) (type : OptType) : Group → Prop
  | value _ text => (type = .int ∨ type = .double ∨ type = .long ∨ type = .string) ∧
      text ∉ table.map Entry.spec
  | flag _ => type = .bool
  | bare _ => type = .benchmark
  | sized _ size => type = .benchmark ∧ size.text ∉ table.map Entry.spec

/-- What the group assigns to a variable of the given type. -/
def assigned (c : Conversions D) (type : OptType) : Group → Value D
  | value _ text =>
    match type with
    | .double => .double (c.atof text)
    | .long => .long (c.atol text)
    | .string => .string text
    | _ => .int (c.atoi text)
  | flag _ => .int 1
  | bare _ => .int 2
  | sized _ .short => .int 1
  | sized _ .medium => .int 2
  | sized _ .long => .int 3

end Group

/-- The specifiers are different and not empty. -/
structure TableOk (table : List Entry) : Prop where
  nodup : (table.map Entry.spec).Nodup
  nonempty : ∀ entry ∈ table, entry.spec ≠ ""

/-- A sequence of well-formed groups with different specifiers. -/
structure LineOk (table : List Entry) (groups : List Group) : Prop where
  nodup : (groups.map Group.spec).Nodup
  fits : ∀ group ∈ groups, ∃ entry ∈ table, entry.spec = group.spec ∧ group.Fits table entry.type

/-- The value that a variable should have. -/
def expected (c : Conversions D) (groups : List Group) (entry : Entry) : Option (Value D) :=
  match groups.find? (fun group => group.spec = entry.spec) with
  | some group => some (group.assigned c entry.type)
  | none => unset entry.type

/-! ### Searching for one specifier -/

variable {c : Conversions D} {entry : Entry} {v : Option (Value D)}

theorem scanPairs_pass {spec x : String} (other : x ≠ spec) (assign : String → Value D) (last : Option (Value D))
    (v : Option (Value D)) (l : List String) : scanAll (scanPairs spec assign last) v (x :: l) =
      (x :: (scanAll (scanPairs spec assign last) v l).1, (scanAll (scanPairs spec assign last) v l).2) := by
  cases l with
  | nil => exact if_neg fun both => other both.1
  | cons y rest => exact if_neg other

/-- Other arguments are passed by. -/
theorem search_pass {x : String} (other : x ≠ entry.spec) (l : List String) :
    search c entry v (x :: l) = (x :: (search c entry v l).1, (search c entry v l).2) := by
  obtain ⟨spec, type⟩ := entry
  cases type with
  | int => exact scanPairs_pass other _ _ v l
  | double => exact scanPairs_pass other _ _ v l
  | long => exact scanPairs_pass other _ _ v l
  | bool => exact if_neg other
  | string => exact scanPairs_pass other _ _ v l
  | benchmark => exact scanPairs_pass other _ _ v l

theorem search_append {l : List String} (missing : entry.spec ∉ l) (l' : List String) :
    search c entry v (l ++ l') = (l ++ (search c entry v l').1, (search c entry v l').2) := by
  induction l with
  | nil => rfl
  | cons x l ih =>
    rw [List.mem_cons, not_or] at missing
    rw [List.cons_append, search_pass (Ne.symm missing.1), ih missing.2]
    rfl

theorem search_missing {l : List String} (missing : entry.spec ∉ l) : search c entry v l = (l, v) := by
  have run := search_append (c := c) (v := v) missing []
  have ended : search c entry v [] = ([], v) := by
    obtain ⟨spec, type⟩ := entry
    cases type <;> rfl
  rw [List.append_nil, ended] at run
  simpa using run

/-- The cells of a group after it has been dealt with. -/
def Group.blanked (group : Group) : List String := group.tokens.map fun _ => ""

theorem scanPairs_found {spec : String} (nonempty : spec ≠ "") (assign : String → Value D) (last : Option (Value D))
    (next : String) {l : List String}
    (missing : scanAll (scanPairs spec assign last) (some (assign next)) l = (l, some (assign next))) :
    scanAll (scanPairs spec assign last) v (spec :: next :: l) = ("" :: "" :: l, some (assign next)) := by
  have passed := scanPairs_pass (Ne.symm nonempty) assign last (some (assign next)) l
  rw [missing] at passed
  have found : scanAll (scanPairs spec assign last) v (spec :: next :: l) =
      ("" :: (scanAll (scanPairs spec assign last) (some (assign next)) ("" :: l)).1,
        (scanAll (scanPairs spec assign last) (some (assign next)) ("" :: l)).2) := if_pos rfl
  rw [found, passed]

/-- A bare benchmark option also clears the first argument of the next group. -/
def Group.isBare : Group → Bool
  | .bare _ => true
  | _ => false

theorem search_group {table : List Entry} {group : Group} {l : List String} (same : group.spec = entry.spec)
    (fits : group.Fits table entry.type) (nonempty : entry.spec ≠ "") (missing : entry.spec ∉ l)
    (next : group.isBare = true → ∀ x ∈ l.head?, x = "") :
    search c entry v (group.tokens ++ l) = (group.blanked ++ l, some (group.assigned c entry.type)) := by
  obtain ⟨spec, type⟩ := entry
  have unseen (v : Option (Value D)) : search c ⟨spec, type⟩ v l = (l, v) := search_missing missing
  cases group with
  | value spec' text =>
    cases same
    obtain ⟨kind, _⟩ := fits
    cases type with
    | int => exact scanPairs_found nonempty _ _ text (unseen _)
    | double => exact scanPairs_found nonempty _ _ text (unseen _)
    | long => exact scanPairs_found nonempty _ _ text (unseen _)
    | string => exact scanPairs_found nonempty _ _ text (unseen _)
    | bool => simp at kind
    | benchmark => simp at kind
  | flag spec' =>
    cases same
    cases fits
    have found : search c ⟨spec, .bool⟩ v (spec :: l) =
        ("" :: (search c ⟨spec, .bool⟩ (some (.int 1)) l).1, (search c ⟨spec, .bool⟩ (some (.int 1)) l).2) := if_pos rfl
    exact found.trans (by rw [unseen]; rfl)
  | bare spec' =>
    cases same
    cases fits
    cases l with
    | nil => exact if_pos ⟨rfl, rfl⟩
    | cons x l =>
      obtain rfl : x = "" := next rfl x rfl
      have rest : search c ⟨spec, .benchmark⟩ (some (.int 2)) l = (l, some (.int 2)) :=
        search_missing fun member => missing (List.mem_cons_of_mem _ member)
      exact scanPairs_found nonempty _ _ "" rest
  | sized spec' size =>
    cases same
    obtain ⟨kind, _⟩ := fits
    cases kind
    cases size with
    | short => exact scanPairs_found nonempty _ _ "short" (unseen _)
    | medium => exact scanPairs_found nonempty _ _ "medium" (unseen _)
    | long => exact scanPairs_found nonempty _ _ "long" (unseen _)

end CilkArtifact.Options
