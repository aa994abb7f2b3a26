import Mathlib.Data.List.Basic
import Mathlib.Data.Nat.Notation
import Mathlib.Data.Int.Notation

/-! Text files and formatted input as in the C library: `fgets`, the end-of-file indicator, and which characters of a
string the conversions `%d` and `%lf` of `sscanf` take. -/
namespace CilkArtifact.Stdio

/-- A file that is being read: the characters to come and the end-of-file indicator. -/
structure File where
  rest : List Char
  eof : Bool

/-- The next characters up to a newline, at most `n` of them, those after them, and whether the file ended there. -/
def takeLine : ℕ → List Char → List Char × List Char × Bool
  | 0, l => ([], l, false)
  | _ + 1, [] => ([], [], true)
  | n + 1, c :: l =>
    if c = '\n' then ([c], l, false) else (c :: (takeLine n l).1, (takeLine n l).2.1, (takeLine n l).2.2)

/-- `fgets (buf, n + 1, f)`. Without a character to read, `buf` stays as it is. -/
def fgets (n : ℕ) (f : File) (buf : List Char) : File × List Char :=
  if f.rest = [] then ({ f with eof := true }, buf)
  else (⟨(takeLine n f.rest).2.1, f.eof || (takeLine n f.rest).2.2⟩, (takeLine n f.rest).1)

/-- The string in a buffer. -/
def cString (buf : List Char) : List Char := buf.takeWhile fun c => c != '\x00'

/-! ### Conversions -/

def isSpace (c : Char) : Bool := c ∈ [' ', '\t', '\n', '\x0b', '\x0c', '\r']

def isHexDigit (c : Char) : Bool := c.isDigit || c ∈ "abcdefABCDEF".toList

def takeSign : List Char → List Char × List Char
  | '+' :: l => (['+'], l)
  | '-' :: l => (['-'], l)
  | l => ([], l)

/-- The characters of a decimal integer, and those after it. -/
def takeInt (l : List Char) : Option (List Char × List Char) :=
  let digits := (takeSign l).2.takeWhile Char.isDigit
  if digits = [] then none else some ((takeSign l).1 ++ digits, (takeSign l).2.dropWhile Char.isDigit)

/-- Digits with a point among them or not. -/
def takeMantissa (isDigit : Char → Bool) (l : List Char) : Option (List Char × List Char) :=
  let whole := l.takeWhile isDigit
  match l.dropWhile isDigit with
  | '.' :: l =>
    let fraction := l.takeWhile isDigit
    if whole = [] ∧ fraction = [] then none else some (whole ++ '.' :: fraction, l.dropWhile isDigit)
  | l => if whole = [] then none else some (whole, l)

/-- An exponent with its mark, or nothing. A mark without an exponent does not match. -/
def takeExponent (marks : List Char) : List Char → Option (List Char × List Char)
  | [] => some ([], [])
  | c :: l =>
    if c ∈ marks then (takeInt l).map fun found => (c :: found.1, found.2)
    else some ([], c :: l)

def takeNumber (isDigit : Char → Bool) (marks l : List Char) : Option (List Char × List Char) := do
  let (mantissa, l) ← takeMantissa isDigit l
  let (exponent, l) ← takeExponent marks l
  some (mantissa ++ exponent, l)

/-- How much of `word` a string starts with, in either case. -/
def commonPart : List Char → List Char → ℕ
  | w :: word, c :: l => if c.toLower = w then commonPart word l + 1 else 0
  | _, _ => 0

/-- `inf` or `infinity` -/
def takeInfinity (l : List Char) : Option (List Char × List Char) :=
  let n := commonPart "infinity".toList l
  if n = 3 ∨ n = 8 then some (l.take n, l.drop n) else none

/-- `nan`, with characters in brackets or not. -/
def takeNan (l : List Char) : Option (List Char × List Char) :=
  if commonPart "nan".toList l = 3 then
    match l.drop 3 with
    | '(' :: rest =>
      let inside := rest.takeWhile fun c => c.isAlphanum || c == '_'
      match rest.dropWhile fun c => c.isAlphanum || c == '_' with
      | ')' :: rest => some (l.take 3 ++ '(' :: inside ++ [')'], rest)
      | _ => none
    | rest => some (l.take 3, rest)
  else none

def takeUnsigned (l : List Char) : Option (List Char × List Char) :=
  if (l.head? = some 'i' ∨ l.head? = some 'I') then takeInfinity l
  else if (l.head? = some 'n' ∨ l.head? = some 'N') then takeNan l
  else if (l.take 2 = "0x".toList ∨ l.take 2 = "0X".toList) then
    (takeNumber isHexDigit ['p', 'P'] (l.drop 2)).map fun found => (l.take 2 ++ found.1, found.2)
  else takeNumber Char.isDigit ['e', 'E'] l

/-- The characters of a floating point number, and those after it, as the C standard has it. Libraries differ on what
is no number but begins like one: some accept `1e`, `0e+` and `0x.` as well. -/
def takeReal (l : List Char) : Option (List Char × List Char) :=
  (takeUnsigned (takeSign l).2).map fun found => ((takeSign l).1 ++ found.1, found.2)

/-- `count` conversions of one kind with white space between them, up to the first that does not match. -/
def sscanf (conversion : List Char → Option (List Char × List Char)) : ℕ → List Char → List (List Char)
  | 0, _ => []
  | count + 1, l =>
    match conversion (l.dropWhile isSpace) with
    | none => []
    | some (item, rest) => item :: sscanf conversion count rest

/-- The value of a decimal integer. -/
def intValue (item : List Char) : ℤ :=
  let digits := (takeSign item).2.foldl (fun value c => 10 * value + (c.toNat - '0'.toNat)) 0
  if item.head? = some '-' then -(digits : ℤ) else digits

/-! ### Lines -/

variable {n : ℕ} {l : List Char}

theorem takeLine_append (n : ℕ) : ∀ l, (takeLine n l).1 ++ (takeLine n l).2.1 = l := by
  induction n with
  | zero => exact fun l => rfl
  | succ n ih =>
    intro l
    cases l with
    | nil => rfl
    | cons c l =>
      rw [takeLine]
      split
      · rfl
      · rw [List.cons_append, ih]

theorem takeLine_nonempty (positive : 0 < n) (more : l ≠ []) : (takeLine n l).1 ≠ [] := by
  cases n with
  | zero => cases positive
  | succ n =>
    cases l with
    | nil => exact absurd rfl more
    | cons c l =>
      rw [takeLine]
      split <;> exact List.cons_ne_nil _ _

theorem takeLine_shorter (positive : 0 < n) (more : l ≠ []) : (takeLine n l).2.1.length < l.length := by
  have whole := congrArg List.length (takeLine_append n l)
  have some := List.length_pos_of_ne_nil (takeLine_nonempty positive more)
  rw [List.length_append] at whole
  omega

/-- A piece of a file that ends because the file does. -/
def cutOff (n : ℕ) (piece : List Char) : Bool := piece.length < n ∧ piece.getLast? ≠ some '\n'

theorem takeLine_ended (n : ℕ) : ∀ l, (takeLine n l).2.2 = cutOff n (takeLine n l).1 := by
  induction n with
  | zero => exact fun l => rfl
  | succ n ih =>
    intro l
    cases l with
    | nil => rfl
    | cons c l =>
      rw [takeLine]
      split
      · next newline => simp [cutOff, newline]
      · next other =>
        rw [ih, cutOff, cutOff, List.length_cons, List.getLast?_cons]
        cases last : (takeLine n l).1.getLast? with
        | none => simp [other]
        | some d => simp

theorem takeLine_ended_rest (n : ℕ) : ∀ l, (takeLine n l).2.2 = true → (takeLine n l).2.1 = [] := by
  induction n with
  | zero =>
    intro l ended
    cases ended
  | succ n ih =>
    intro l
    cases l with
    | nil => exact fun _ => rfl
    | cons c l =>
      rw [takeLine]
      split
      · intro ended
        cases ended
      · exact ih l

/-- The pieces that `fgets` reads from a file one after the other. -/
def pieces (n : ℕ) (l : List Char) : List (List Char) :=
  if (takeLine n l).2.1.length < l.length then (takeLine n l).1 :: pieces n (takeLine n l).2.1 else []
termination_by l.length

theorem pieces_nil (n : ℕ) : pieces n [] = [] := by
  rw [pieces]
  exact if_neg (Nat.not_lt_zero _)

theorem pieces_cons (positive : 0 < n) (more : l ≠ []) :
    pieces n l = (takeLine n l).1 :: pieces n (takeLine n l).2.1 := by
  rw [pieces]
  exact if_pos (takeLine_shorter positive more)

theorem pieces_eq_nil (positive : 0 < n) : pieces n l = [] ↔ l = [] := by
  constructor
  · intro none
    by_contra more
    rw [pieces_cons positive more] at none
    cases none
  · rintro rfl
    exact pieces_nil n

/-- A line that fits into the buffer, with the newline at its end. -/
def IsLine (n : ℕ) (line : List Char) : Prop :=
  line.length ≤ n ∧ line.getLast? = some '\n' ∧ '\n' ∉ line.dropLast

instance (n : ℕ) (line : List Char) : Decidable (IsLine n line) := inferInstanceAs (Decidable (_ ∧ _))

theorem takeLine_line (rest : List Char) (line : List Char) : ∀ {n : ℕ}, IsLine n line →
    takeLine n (line ++ rest) = (line, rest, false) := by
  induction line with
  | nil =>
    intro n isLine
    cases isLine.2.1
  | cons c line ih =>
    rintro n ⟨short, last, only⟩
    obtain ⟨n, rfl⟩ : ∃ k, n = k + 1 := Nat.exists_eq_succ_of_ne_zero (by rintro rfl; cases short)
    rw [List.cons_append, takeLine]
    cases line with
    | nil =>
      obtain rfl : c = '\n' := by simpa using last
      rw [if_pos rfl]
      rfl
    | cons d line =>
      rw [List.dropLast_cons_cons, List.mem_cons, not_or] at only
      rw [if_neg fun same => only.1 same.symm, ih ⟨Nat.le_of_succ_le_succ short, last, only.2⟩]

/-- The pieces of a file that is made of lines. -/
theorem pieces_lines (lines : List (List Char)) (all : ∀ line ∈ lines, IsLine n line) :
    pieces n lines.flatten = lines := by
  induction lines with
  | nil => exact pieces_nil n
  | cons line lines ih =>
    have first := all line (List.mem_cons_self ..)
    have read := takeLine_line lines.flatten line first
    have positive : 0 < line.length := by
      cases line with
      | nil => cases first.2.1
      | cons c line => exact Nat.succ_pos _
    have nonempty : (line :: lines).flatten ≠ [] := by
      rw [List.flatten_cons]
      exact List.append_ne_nil_of_left_ne_nil (List.ne_nil_of_length_pos positive) _
    rw [pieces_cons (Nat.lt_of_lt_of_le positive first.1) nonempty, List.flatten_cons, read]
    exact congrArg _ (ih fun line member => all line (List.mem_cons_of_mem _ member))

theorem fgets_end {f : File} {buf : List Char} (empty : f.rest = []) : fgets n f buf = ({ f with eof := true }, buf) :=
  if_pos empty

/-- One more piece. -/
theorem fgets_piece {f : File} {piece : List Char} {more : List (List Char)} (buf : List Char) (positive : 0 < n)
    (next : pieces n f.rest = piece :: more) :
    ∃ rest, fgets n f buf = (⟨rest, f.eof || cutOff n piece⟩, piece) ∧ pieces n rest = more ∧
      (cutOff n piece = true → more = []) := by
  have some : f.rest ≠ [] := by
    intro empty
    rw [empty, pieces_nil] at next
    cases next
  rw [pieces_cons positive some] at next
  injection next with first others
  refine ⟨(takeLine n f.rest).2.1, ?_, others, fun ended => ?_⟩
  · rw [fgets, if_neg some, takeLine_ended, first]
  · rw [← first, ← takeLine_ended] at ended
    rw [← others, takeLine_ended_rest n f.rest ended, pieces_nil]

theorem IsLine.not_cutOff {line : List Char} (isLine : IsLine n line) : cutOff n line = false := by
  simp [cutOff, isLine.2.1]

/-! ### Integers as floating point numbers -/

/-- What an integer can start with. -/
theorem takeInt_head {c : Char} {l : List Char} (matched : takeInt (c :: l) ≠ none) :
    c = '+' ∨ c = '-' ∨ c.isDigit := by
  by_contra other
  rw [not_or, not_or, Bool.not_eq_true] at other
  obtain ⟨plus, minus, digit⟩ := other
  have unsigned : takeSign (c :: l) = ([], c :: l) := by
    rw [takeSign]
    · exact fun _ same => plus (List.cons.inj same).1
    · exact fun _ same => minus (List.cons.inj same).1
  apply matched
  rw [takeInt, unsigned, List.takeWhile_cons_of_neg (ne_true_of_eq_false digit)]
  exact if_pos rfl

/-- Between two integers there is white space, or the second one has a sign. -/
theorem head_of_takeInt {c : Char} {l : List Char} (matched : takeInt ((c :: l).dropWhile isSpace) ≠ none) :
    isSpace c ∨ c = '+' ∨ c = '-' ∨ c.isDigit := by
  cases space : isSpace c with
  | true => exact .inl rfl
  | false =>
    rw [List.dropWhile_cons_of_neg (ne_true_of_eq_false space)] at matched
    exact .inr (takeInt_head matched)

/-- Digits that are not followed by a point, an exponent or an `x` are a number. -/
theorem takeUnsigned_digits {d : Char} (digit : d.isDigit = true)
    (clear : ∀ c ∈ ((d :: l).dropWhile Char.isDigit).head?, c ∉ ['x', 'X', '.', 'e', 'E']) :
    takeUnsigned (d :: l) ≠ none := by
  have number : takeNumber Char.isDigit ['e', 'E'] (d :: l) ≠ none := by
    have whole : (d :: l).takeWhile Char.isDigit ≠ [] := by
      rw [List.takeWhile_cons_of_pos digit]
      exact List.cons_ne_nil _ _
    rw [takeNumber, takeMantissa]
    cases rest : (d :: l).dropWhile Char.isDigit with
    | nil => simp [whole, takeExponent]
    | cons c rest' =>
      have other := clear c (by rw [rest]; rfl)
      simp only [List.mem_cons, not_or] at other
      obtain ⟨-, -, point, small, large, -⟩ := other
      have noExponent : takeExponent ['e', 'E'] (c :: rest') = some ([], c :: rest') := if_neg (by simp [small, large])
      split
      · next same => exact absurd (List.cons.inj same).1 point
      · simp [whole, noExponent]
  have letter : ∀ {c : Char}, c.isDigit = false → (d :: l).head? ≠ some c := by
    intro c letter same
    cases Option.some.inj same
    cases digit.symm.trans letter
  have decimal : ∀ {c : Char}, c.isDigit = false → c ∈ ['x', 'X', '.', 'e', 'E'] → (d :: l).take 2 ≠ ['0', c] := by
    intro c letter member same
    cases l with
    | nil => cases same
    | cons e l =>
      obtain rfl : e = c := by simpa using (List.cons.inj same).2
      rw [List.dropWhile_cons_of_pos digit,
        List.dropWhile_cons_of_neg (ne_true_of_eq_false letter)] at clear
      exact clear e rfl member
  rw [takeUnsigned, if_neg, if_neg, if_neg]
  · exact number
  · exact not_or.mpr ⟨decimal rfl (by decide), decimal rfl (by decide)⟩
  · exact not_or.mpr ⟨letter rfl, letter rfl⟩
  · exact not_or.mpr ⟨letter rfl, letter rfl⟩

/-- An integer with another one after it is a number. -/
theorem takeReal_of_takeInt {item rest : List Char} (int : takeInt l = some (item, rest))
    (next : takeInt (rest.dropWhile isSpace) ≠ none) : takeReal l ≠ none := by
  simp only [takeInt, Option.ite_none_left_eq_some, Option.some.injEq, Prod.mk.injEq] at int
  obtain ⟨digits, -, rfl⟩ := int
  rw [takeReal, ne_eq, Option.map_eq_none_iff]
  cases unsigned : (takeSign l).2 with
  | nil =>
    rw [unsigned] at digits
    exact absurd rfl digits
  | cons d u =>
    rw [unsigned] at digits next
    have digit : d.isDigit = true := by
      by_contra other
      exact digits (List.takeWhile_cons_of_neg other)
    refine takeUnsigned_digits digit fun c first member => ?_
    obtain ⟨rest, same⟩ := List.head?_eq_some_iff.mp first
    rw [same] at next
    have head := head_of_takeInt next
    clear first same next
    simp only [List.mem_cons, List.not_mem_nil, or_false] at member
    rcases member with rfl | rfl | rfl | rfl | rfl <;> revert head <;> decide

/-- A line with two integers starts with a number. -/
theorem sscanf_real_of_ints {count : ℕ} (ints : (sscanf takeInt 2 l).length = 2) :
    sscanf takeReal (count + 1) l ≠ [] := by
  rw [sscanf] at ints ⊢
  generalize l.dropWhile isSpace = l at ints
  cases int : takeInt l with
  | none =>
    rw [int] at ints
    cases ints
  | some found =>
    have next : takeInt (found.2.dropWhile isSpace) ≠ none := by
      intro none
      simp [int, sscanf, none] at ints
    cases real : takeReal l with
    | none => exact absurd real (takeReal_of_takeInt int next)
    | some _ => exact List.cons_ne_nil _ _

example : (sscanf takeInt 2 " 12\t-7 3".toList).map intValue = [12, -7] := by decide
example : sscanf takeReal 3 "3 4 -1.5e3x".toList = ["3".toList, "4".toList, "-1.5e3".toList] := by decide
example : sscanf takeReal 3 "3 1e+ 5".toList = ["3".toList] := by decide

end CilkArtifact.Stdio
