import Mathlib.Data.List.Basic

/-! Regular expressions with greedy repetition of character classes, matched at the start of a text. The ways to match
are listed in the order in which a backtracking matcher tries them. -/
namespace CilkArtifact

inductive Regex where
  | single (p : Char → Bool)
  | star (p : Char → Bool)
  | plus (p : Char → Bool)
  | seq (r r' : Regex)
  | group (r : Regex)

namespace Regex

structure Match where
  text : List Char
  groups : List (List Char)
  rest : List Char

def Match.after (front : List Char) (m : Match) : Match := { m with text := front ++ m.text }

def Match.append (m m' : Match) : Match := ⟨m.text ++ m'.text, m.groups ++ m'.groups, m'.rest⟩

/-- The characters of the class at the start of a text, most of them first. -/
def runs (p : Char → Bool) : List Char → List Match
  | [] => [⟨[], [], []⟩]
  | c :: s => if p c then (runs p s).map (.after [c]) ++ [⟨[], [], c :: s⟩] else [⟨[], [], c :: s⟩]

def ways : Regex → List Char → List Match
  | single p, s =>
    match s with
    | [] => []
    | c :: s => if p c then [⟨[c], [], s⟩] else []
  | star p, s => runs p s
  | plus p, s =>
    match s with
    | [] => []
    | c :: s => if p c then (runs p s).map (.after [c]) else []
  | seq r r', s => (ways r s).flatMap fun m => (ways r' m.rest).map m.append
  | group r, s => (ways r s).map fun m => { m with groups := m.text :: m.groups }

/-- The groups of the preferred match. -/
def found (r : Regex) (s : List Char) : Option (List (List Char)) := (ways r s).head?.map Match.groups

/-- A text to be matched as it stands. -/
def literal : Char → List Char → Regex
  | c, [] => single (· == c)
  | c, d :: s => seq (single (· == c)) (literal d s)

variable {p : Char → Bool} {r r' : Regex} {c : Char} {s rest xs : List Char} {m : Match}

/-- A text that does not go on with a character of the class. -/
def Stops (p : Char → Bool) (rest : List Char) : Prop := ∀ c, rest.head? = some c → p c = false

theorem runs_stop (stops : Stops p rest) : runs p rest = [⟨[], [], rest⟩] := by
  cases rest with
  | nil => rfl
  | cons c rest => rw [runs, stops c rfl, if_neg Bool.false_ne_true]

/-- The longest run comes first; the others leave a part of it. -/
theorem runs_append (all : ∀ c ∈ xs, p c = true) (stops : Stops p rest) :
    ∃ shorter, runs p (xs ++ rest) = ⟨xs, [], rest⟩ :: shorter ∧
      ∀ m ∈ shorter, ∃ ys zs, zs ≠ [] ∧ ys ++ zs = xs ∧ m = ⟨ys, [], zs ++ rest⟩ := by
  induction xs with
  | nil => exact ⟨[], runs_stop stops, fun _ member => (List.not_mem_nil member).elim⟩
  | cons c xs ih =>
    obtain ⟨shorter, first, others⟩ := ih fun d member => all d (List.mem_cons_of_mem c member)
    refine ⟨shorter.map (.after [c]) ++ [⟨[], [], c :: (xs ++ rest)⟩], ?_, ?_⟩
    · rw [List.cons_append, runs, all c List.mem_cons_self, if_pos rfl, first]
      rfl
    · intro m member
      rcases List.mem_append.mp member with inner | last
      · obtain ⟨m', inside, rfl⟩ := List.mem_map.mp inner
        obtain ⟨ys, zs, nonempty, rfl, rfl⟩ := others m' inside
        exact ⟨c :: ys, zs, nonempty, rfl, rfl⟩
      · rw [List.mem_singleton.mp last]
        exact ⟨[], c :: xs, List.cons_ne_nil c xs, rfl, rfl⟩

theorem plus_append (nonempty : xs ≠ []) (all : ∀ c ∈ xs, p c = true) (stops : Stops p rest) :
    ∃ shorter, ways (plus p) (xs ++ rest) = ⟨xs, [], rest⟩ :: shorter ∧
      ∀ m ∈ shorter, ∃ ys zs, zs ≠ [] ∧ ys ++ zs = xs ∧ m = ⟨ys, [], zs ++ rest⟩ := by
  cases xs with
  | nil => exact absurd rfl nonempty
  | cons c xs =>
    obtain ⟨shorter, first, others⟩ := runs_append (fun d member => all d (List.mem_cons_of_mem c member)) stops
    refine ⟨shorter.map (.after [c]), ?_, ?_⟩
    · rw [List.cons_append, ways, all c List.mem_cons_self, if_pos rfl, first]
      rfl
    · intro m member
      obtain ⟨m', inside, rfl⟩ := List.mem_map.mp member
      obtain ⟨ys, zs, rests, rfl, rfl⟩ := others m' inside
      exact ⟨c :: ys, zs, rests, rfl, rfl⟩

theorem runs_split (member : m ∈ runs p s) : m.text ++ m.rest = s ∧ m.groups = [] := by
  induction s generalizing m with
  | nil =>
    rw [List.mem_singleton.mp member]
    exact ⟨rfl, rfl⟩
  | cons c s ih =>
    rw [runs] at member
    split_ifs at member with inside
    · rcases List.mem_append.mp member with inner | last
      · obtain ⟨m', earlier, rfl⟩ := List.mem_map.mp inner
        exact ⟨congrArg (c :: ·) (ih earlier).1, (ih earlier).2⟩
      · rw [List.mem_singleton.mp last]
        exact ⟨rfl, rfl⟩
    · rw [List.mem_singleton.mp member]
      exact ⟨rfl, rfl⟩

theorem mem_runs (all : ∀ c ∈ xs, p c = true) (rest : List Char) : ⟨xs, [], rest⟩ ∈ runs p (xs ++ rest) := by
  induction xs with
  | nil =>
    cases rest with
    | nil => exact List.mem_singleton_self _
    | cons c rest =>
      rw [List.nil_append, runs]
      split_ifs
      · exact List.mem_append_right _ (List.mem_singleton_self _)
      · exact List.mem_singleton_self _
  | cons c xs ih =>
    rw [List.cons_append, runs, all c List.mem_cons_self, if_pos rfl]
    refine List.mem_append_left _ (List.mem_map.mpr ⟨⟨xs, [], rest⟩, ?_, rfl⟩)
    exact ih fun d member => all d (List.mem_cons_of_mem c member)

theorem plus_split (member : m ∈ ways (plus p) s) : m.text ++ m.rest = s ∧ m.groups = [] := by
  cases s with
  | nil => exact (List.not_mem_nil member).elim
  | cons c s =>
    rw [ways] at member
    split_ifs at member with inside
    · obtain ⟨m', earlier, rfl⟩ := List.mem_map.mp member
      exact ⟨congrArg (c :: ·) (runs_split earlier).1, (runs_split earlier).2⟩
    · exact (List.not_mem_nil member).elim

theorem mem_plus (nonempty : xs ≠ []) (all : ∀ c ∈ xs, p c = true) (rest : List Char) :
    ⟨xs, [], rest⟩ ∈ ways (plus p) (xs ++ rest) := by
  cases xs with
  | nil => exact absurd rfl nonempty
  | cons c xs =>
    rw [List.cons_append, ways, all c List.mem_cons_self, if_pos rfl]
    refine List.mem_map.mpr ⟨⟨xs, [], rest⟩, ?_, rfl⟩
    exact mem_runs (fun d member => all d (List.mem_cons_of_mem c member)) rest

theorem ways_seq_eq_nil (fails : ∀ m ∈ ways r s, ways r' m.rest = []) : ways (seq r r') s = [] := by
  refine List.flatMap_eq_nil_iff.mpr fun m member => ?_
  rw [fails m member, List.map_nil]

theorem ways_seq_of_singleton (one : ways r s = [m]) : ways (seq r r') s = (ways r' m.rest).map m.append := by
  rw [ways, one, List.flatMap_singleton]

/-- The preferred way to match goes on. -/
theorem head_seq {others : List Match} {m' : Match} (first : ways r s = m :: others)
    (next : (ways r' m.rest).head? = some m') : (ways (seq r r') s).head? = some (m.append m') := by
  rw [ways, first, List.flatMap_cons, List.head?_append, List.head?_map, next]
  rfl

/-- Only one of the ways to match goes on. -/
theorem head_seq_only (member : m ∈ ways r s) (only : ∀ m' ∈ ways r s, m' ≠ m → ways r' m'.rest = []) :
    (ways (seq r r') s).head? = (ways r' m.rest).head?.map m.append := by
  rw [ways]
  generalize ways r s = choices at member only
  induction choices with
  | nil => exact (List.not_mem_nil member).elim
  | cons first others ih =>
    rw [List.flatMap_cons, List.head?_append]
    by_cases same : first = m
    · subst same
      cases next : (ways r' first.rest).head? with
      | some m' =>
        rw [List.head?_map, next]
        rfl
      | none =>
        have fails : ways r' first.rest = [] := List.head?_eq_none_iff.mp next
        have nothing : others.flatMap (fun m' => (ways r' m'.rest).map m'.append) = [] := by
          refine List.flatMap_eq_nil_iff.mpr fun m' inside => ?_
          by_cases again : m' = first
          · rw [again, fails, List.map_nil]
          · rw [only m' (List.mem_cons_of_mem first inside) again, List.map_nil]
        rw [fails, nothing]
        rfl
    · rw [only first List.mem_cons_self same]
      have later : m ∈ others := (List.mem_cons.mp member).resolve_left fun eq => same eq.symm
      rw [List.map_nil, List.head?_nil, Option.none_or]
      exact ih later fun m' inside => only m' (List.mem_cons_of_mem first inside)

theorem found_seq_only (member : m ∈ ways r s) (only : ∀ m' ∈ ways r s, m' ≠ m → ways r' m'.rest = []) :
    found (seq r r') s = (found r' m.rest).map (m.groups ++ ·) := by
  rw [found, head_seq_only member only, found, Option.map_map, Option.map_map]
  rfl

/-- A repetition that ends before the only occurrence of a character. -/
theorem found_seq_mark {front after : List Char} (before : c ∉ front) (behind : c ∉ after)
    (member : ⟨front, [], c :: after⟩ ∈ ways r (front ++ c :: after))
    (split : ∀ m ∈ ways r (front ++ c :: after), m.text ++ m.rest = front ++ c :: after ∧ m.groups = [])
    (mark : ∀ s, s.head? ≠ some c → ways r' s = []) :
    found (seq r r') (front ++ c :: after) = found r' (c :: after) := by
  have only : ∀ m ∈ ways r (front ++ c :: after), m ≠ ⟨front, [], c :: after⟩ → ways r' m.rest = [] := by
    intro m inside other
    apply mark
    intro first
    obtain ⟨text, groups, rest⟩ := m
    obtain ⟨whole, none⟩ := split _ inside
    obtain ⟨tail, rfl⟩ := List.head?_eq_some_iff.mp first
    obtain ⟨rfl, -, rfl⟩ := (List.append_cons_inj_of_notMem before behind).mp whole.symm
    dsimp only at none
    exact other (by rw [none])
  rw [found_seq_only member only]
  exact Option.map_id'

/-- The preferred way to match goes on, or no way does. -/
theorem found_seq_first {others : List Match} (first : ways r s = m :: others)
    (fails : found r' m.rest = none → ∀ m' ∈ others, ways r' m'.rest = []) :
    found (seq r r') s = (found r' m.rest).map (m.groups ++ ·) := by
  cases next : (ways r' m.rest).head? with
  | some m' =>
    rw [found, head_seq first next, found, next]
    rfl
  | none =>
    have nothing : found r' m.rest = none := by
      rw [found, next]
      rfl
    have none_goes_on : ways (seq r r') s = [] := by
      apply ways_seq_eq_nil
      intro m' member
      rw [first] at member
      rcases List.mem_cons.mp member with rfl | later
      · exact List.head?_eq_none_iff.mp next
      · exact fails nothing m' later
    rw [nothing, found, none_goes_on]
    rfl

theorem ways_of_found_eq_none (fails : found r s = none) : ways r s = [] :=
  List.head?_eq_none_iff.mp (Option.map_eq_none_iff.mp fails)

end Regex

end CilkArtifact
