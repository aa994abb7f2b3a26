import CilkArtifact.Library.Recorded
import Mathlib.Data.Nat.Cast.Defs

/-! Grids of `heat.c`: their allocation, initialization and one step of the computation for a stripe of rows. Nothing is
assumed about arithmetic and about the functions on the boundary. -/
namespace CilkArtifact.Heat
open Buffer Recorded
variable {V : Type}

section Definitions

/-- The global variables that do not change, apart from `nt`. -/
structure Problem (V : Type) where
  nx : ℕ
  ny : ℕ
  leafmaxcol : ℕ
  xu : V
  yu : V
  tu : V
  dx : V
  dy : V
  dt : V
  dtdxsq : V
  dtdysq : V
  randa : V → V → V
  randb : V → V → V
  randc : V → V → V
  randd : V → V → V
  f : V → V → V

/-- The two arrays that `heat` allocates. -/
inductive Grid where
  | oldGrid
  | newwGrid
  deriving DecidableEq

/-- A state of the program, with all accesses to elements so far. -/
abbrev State (V : Type) := Recorded Grid (ℕ × ℕ) V

variable (p : Problem V)

/-- `array[j] = malloc(ny * sizeof(double))`, where `array` has `nx` elements -/
def allocRow (array : Grid) (j : ℕ) (s : State V) : Option (State V) :=
  if j < p.nx then
    let grid : Buffer (ℕ × ℕ) V :=
      ⟨fun c => if c.1 = j then decide (c.2 < p.ny) else (s.grid array).inside c,
        fun c => if c.1 = j then none else (s.grid array).cell c⟩
    some { s with grid := Function.update s.grid array grid }
  else none

def allcgrid (neww old : Grid) (lb ub : ℕ) (s : State V) : Option (State V) :=
  forLoop lb ub (fun s j => do
    let s ← allocRow p old j s
    allocRow p neww j s) s

/-- `if (edge) for (b = 0; b < ny; b++) array[a][b] = ..` -/
def edgeRow (edge : Prop) [Decidable edge] (array : Grid) (a : ℕ) (value : ℕ → V) (s : State V) : Option (State V) :=
  if edge then forLoop 0 p.ny (fun s b => store array (a, b) (value b) s) s else some s

variable [Add V] [Sub V] [Mul V] [NatCast V]

def initgrid (old : Grid) (lb ub : ℕ) (s : State V) : Option (State V) := do
  let llb := if lb = 0 then 1 else lb
  let lub := if ub = p.nx then p.nx - 1 else ub
  let s ← forLoop llb lub (fun s a => store old (a, 0) (p.randa (p.xu + a * p.dx) (0 : ℕ)) s) s
  let s ← forLoop llb lub (fun s a => store old (a, p.ny - 1) (p.randb (p.xu + a * p.dx) (0 : ℕ)) s) s
  let s ← edgeRow p (lb = 0) old 0 (fun b => p.randc (p.yu + b * p.dy) (0 : ℕ)) s
  let s ← edgeRow p (ub = p.nx) old (p.nx - 1) (fun b => p.randd (p.yu + b * p.dy) (0 : ℕ)) s
  forLoop llb lub (fun s a =>
    forLoop 1 (p.ny - 1) (fun s b => store old (a, b) (p.f (p.xu + a * p.dx) (p.yu + b * p.dy)) s) s) s

/-- The right-hand side of the assignment to an inner element. -/
def fivePoint (old : Grid) (a b : ℕ) (s : State V) : Option (V × State V) := do
  let (below, s) ← load old (a + 1, b) s
  let (x, s) ← load old (a, b) s
  let (above, s) ← load old (a - 1, b) s
  let (right, s) ← load old (a, b + 1) s
  let (y, s) ← load old (a, b) s
  let (left, s) ← load old (a, b - 1) s
  let (z, s) ← load old (a, b) s
  some (p.dtdxsq * (below - (2 : ℕ) * x + above) + p.dtdysq * (right - (2 : ℕ) * y + left) + z, s)

/-- `neww[a][b] = ..` -/
def fivePointStore (neww old : Grid) (a b : ℕ) (s : State V) : Option (State V) := do
  let (v, s) ← fivePoint p old a b s
  store neww (a, b) v s

def compstripe (t : V) (neww old : Grid) (lb ub : ℕ) (s : State V) : Option (State V) := do
  let llb := if lb = 0 then 1 else lb
  let lub := if ub = p.nx then p.nx - 1 else ub
  let s ← forLoop llb lub (fun s a =>
    forLoop 1 (p.ny - 1) (fun s b => fivePointStore p neww old a b s) s) s
  let s ← forLoop llb lub (fun s a => store neww (a, p.ny - 1) (p.randb (p.xu + a * p.dx) t) s) s
  let s ← forLoop llb lub (fun s a => store neww (a, 0) (p.randa (p.xu + a * p.dx) t) s) s
  let s ← edgeRow p (lb = 0) neww 0 (fun b => p.randc (p.yu + b * p.dy) t) s
  edgeRow p (ub = p.nx) neww (p.nx - 1) (fun b => p.randd (p.yu + b * p.dy) t) s

end Definitions

/-! ### Loops of a stripe -/

/-- The elements of the rows from `lb` up to `ub`. -/
def stripe (p : Problem V) (lb ub : ℕ) : Set (ℕ × ℕ) := {c | lb ≤ c.1 ∧ c.1 < ub ∧ c.2 < p.ny}

def Roomy (p : Problem V) (array : Grid) (lb ub : ℕ) (s : State V) : Prop :=
  ∀ c ∈ stripe p lb ub, (s.grid array).inside c = true

variable {p : Problem V} {array source : Grid} {u v : ℕ × ℕ → V} {value : ℕ → V} {s s' : State V} {S : Set (ℕ × ℕ)}
  {lb ub llb lub b₀ : ℕ}

theorem Roomy.fills (roomy : Roomy p array lb ub s) {written : Grid} (fills : Fills written S v s s') :
    Roomy p array lb ub s' := by
  intro c member
  rw [fills.inside, roomy c member]

theorem column_fills (roomy : Roomy p array lb ub s) (bounds : llb ≤ lub) (lower : lb ≤ llb) (upper : lub ≤ ub)
    (column : b₀ < p.ny) (values : ∀ a, llb ≤ a → a < lub → value a = v (a, b₀)) :
    ∃ s', forLoop llb lub (fun s a => store array (a, b₀) (value a) s) s = some s' ∧
      Fills array {c | llb ≤ c.1 ∧ c.1 < lub ∧ c.2 = b₀} v s s' := by
  have injective : Function.Injective fun a : ℕ => (a, b₀) := fun _ _ same => (Prod.mk.inj same).1
  have inside : ∀ a, llb ≤ a → a < lub → (s.grid array).inside (a, b₀) = true :=
    fun a _ _ => roomy (a, b₀) ⟨by omega, by omega, column⟩
  obtain ⟨s', run, fills⟩ := forLoop_store injective bounds inside values
  refine ⟨s', run, fills.congr ?_ fun _ _ => rfl⟩
  ext ⟨a, b⟩
  constructor
  · rintro ⟨k, first, last, ⟨⟩⟩
    exact ⟨first, last, rfl⟩
  · rintro ⟨first, last, rfl⟩
    exact ⟨a, first, last, rfl⟩

theorem row_fills (edge : Prop) [Decidable edge] (a₀ : ℕ) (roomy : Roomy p array lb ub s) (row : edge → lb ≤ a₀ ∧ a₀ < ub)
    (values : edge → ∀ b, b < p.ny → value b = v (a₀, b)) :
    ∃ s', edgeRow p edge array a₀ value s = some s' ∧
      Fills array {c | edge ∧ c.1 = a₀ ∧ c.2 < p.ny} v s s' := by
  rw [edgeRow]
  by_cases holds : edge
  · have injective : Function.Injective fun b : ℕ => (a₀, b) := fun _ _ same => (Prod.mk.inj same).2
    have inside : ∀ b, 0 ≤ b → b < p.ny → (s.grid array).inside (a₀, b) = true :=
      fun b _ column => roomy (a₀, b) ⟨(row holds).1, (row holds).2, column⟩
    obtain ⟨s', run, fills⟩ := forLoop_store injective (Nat.zero_le _) inside fun b _ => values holds b
    rw [if_pos holds]
    refine ⟨s', run, fills.congr ?_ fun _ _ => rfl⟩
    ext ⟨a, b⟩
    constructor
    · rintro ⟨k, -, last, ⟨⟩⟩
      exact ⟨holds, rfl, last⟩
    · rintro ⟨-, rfl, last⟩
      exact ⟨b, Nat.zero_le b, last, rfl⟩
  · rw [if_neg holds]
    refine ⟨s, rfl, (Fills.empty array v s).congr ?_ fun _ _ => rfl⟩
    ext c
    exact ⟨fun member => member.elim, fun member => absurd member.1 holds⟩

theorem inner_fills {Ready : State V → Prop} {body : State V → ℕ → ℕ → Option (State V)} {stop : ℕ} (ready : Ready s)
    (keeps : ∀ {S s s'}, Fills array S v s s' → Ready s → Ready s') (bounds : llb ≤ lub) (columns : 1 ≤ stop)
    (step : ∀ a b s, llb ≤ a → a < lub → 1 ≤ b → b < stop → Ready s →
      ∃ s', body s a b = some s' ∧ Fills array {(a, b)} v s s') :
    ∃ s', forLoop llb lub (fun s a => forLoop 1 stop (fun s b => body s a b) s) s = some s' ∧
      Fills array {c | llb ≤ c.1 ∧ c.1 < lub ∧ 1 ≤ c.2 ∧ c.2 < stop} v s s' := by
  have rows (a : ℕ) (now : State V) (first : llb ≤ a) (last : a < lub) (prepared : Ready now) :
      ∃ s', forLoop 1 stop (fun s b => body s a b) now = some s' ∧
        Fills array {c | c.1 = a ∧ 1 ≤ c.2 ∧ c.2 < stop} v now s' := by
    have distinct : ∀ b b' : ℕ, b ≠ b' → Disjoint ({(a, b)} : Set (ℕ × ℕ)) {(a, b')} := by
      intro b b' different
      apply Set.disjoint_left.mpr
      rintro _ rfl same
      exact different (Prod.mk.inj same).2
    obtain ⟨s', run, fills⟩ := forLoop_fills columns prepared keeps distinct fun b now lower upper ready =>
      step a b now first last lower upper ready
    refine ⟨s', run, fills.congr ?_ fun _ _ => rfl⟩
    ext ⟨a', b⟩
    constructor
    · rintro ⟨k, lower, upper, ⟨⟩⟩
      exact ⟨rfl, lower, upper⟩
    · rintro ⟨rfl, lower, upper⟩
      exact ⟨b, lower, upper, rfl⟩
  have distinct : ∀ a a' : ℕ, a ≠ a' →
      Disjoint {c : ℕ × ℕ | c.1 = a ∧ 1 ≤ c.2 ∧ c.2 < stop} {c | c.1 = a' ∧ 1 ≤ c.2 ∧ c.2 < stop} := by
    intro a a' different
    apply Set.disjoint_left.mpr
    rintro c ⟨rfl, -⟩ ⟨same, -⟩
    exact different same
  obtain ⟨s', run, fills⟩ := forLoop_fills bounds ready keeps distinct rows
  refine ⟨s', run, fills.congr ?_ fun _ _ => rfl⟩
  ext c
  constructor
  · rintro ⟨a, first, last, rfl, inside⟩
    exact ⟨first, last, inside⟩
  · rintro ⟨first, last, inside⟩
    exact ⟨c.1, first, last, rfl, inside⟩

/-! ### Stripes -/

section Values
variable [Add V] [Mul V] [NatCast V] (p : Problem V)

/-- The values on the boundary at time `t`, around those of the inner elements. -/
def framed (t : V) (inner : ℕ → ℕ → V) (c : ℕ × ℕ) : V :=
  if c.1 = 0 then p.randc (p.yu + c.2 * p.dy) t
  else if c.1 = p.nx - 1 then p.randd (p.yu + c.2 * p.dy) t
  else if c.2 = 0 then p.randa (p.xu + c.1 * p.dx) t
  else if c.2 = p.ny - 1 then p.randb (p.xu + c.1 * p.dx) t
  else inner c.1 c.2

def initial : ℕ × ℕ → V := framed p (0 : ℕ) fun a b => p.f (p.xu + a * p.dx) (p.yu + b * p.dy)

variable {p} {t : V} {inner : ℕ → ℕ → V} {a b : ℕ}

theorem framed_first : framed p t inner (0, b) = p.randc (p.yu + b * p.dy) t := if_pos rfl

theorem framed_last (wide : 2 ≤ p.nx) : framed p t inner (p.nx - 1, b) = p.randd (p.yu + b * p.dy) t := by
  rw [framed, if_neg (by omega), if_pos rfl]

theorem framed_left (first : 1 ≤ a) (last : a < p.nx - 1) :
    framed p t inner (a, 0) = p.randa (p.xu + a * p.dx) t := by
  rw [framed, if_neg (by omega), if_neg (by omega), if_pos rfl]

theorem framed_right (high : 2 ≤ p.ny) (first : 1 ≤ a) (last : a < p.nx - 1) :
    framed p t inner (a, p.ny - 1) = p.randb (p.xu + a * p.dx) t := by
  rw [framed, if_neg (by omega), if_neg (by omega), if_neg (by omega), if_pos rfl]

theorem framed_inner (first : 1 ≤ a) (last : a < p.nx - 1) (left : 1 ≤ b) (right : b < p.ny - 1) :
    framed p t inner (a, b) = inner a b := by
  rw [framed, if_neg (by omega), if_neg (by omega), if_neg (by omega), if_neg (by omega)]

variable (p) [Sub V]

/-- The values at time `t` from those one step before. -/
def next (t : V) (u : ℕ × ℕ → V) : ℕ × ℕ → V :=
  framed p t fun a b => p.dtdxsq * (u (a + 1, b) - (2 : ℕ) * u (a, b) + u (a - 1, b)) +
    p.dtdysq * (u (a, b + 1) - (2 : ℕ) * u (a, b) + u (a, b - 1)) + u (a, b)

end Values

/-- The rows of a stripe, apart from the first and the last one of the grid. -/
structure Between (nx lb ub llb lub : ℕ) : Prop where
  lower : lb ≤ llb
  upper : lub ≤ ub
  order : llb ≤ lub
  first : 1 ≤ llb
  last : lub ≤ nx - 1
  others : ∀ a, lb ≤ a ∧ a < ub ↔ llb ≤ a ∧ a < lub ∨ lb = 0 ∧ a = 0 ∨ ub = nx ∧ a = nx - 1

theorem between (wide : 2 ≤ p.nx) (nonempty : lb < ub) (bound : ub ≤ p.nx) :
    Between p.nx lb ub (if lb = 0 then 1 else lb) (if ub = p.nx then p.nx - 1 else ub) := by
  constructor
  all_goals
    split_ifs
    all_goals omega

/-- The first and the last column, the first and the last row of the grid, and what is inside of them. -/
theorem Between.cover {nx ny lb ub llb lub : ℕ} (rows : Between nx lb ub llb lub) (high : 2 ≤ ny) (a b : ℕ) :
    lb ≤ a ∧ a < ub ∧ b < ny ↔
      (llb ≤ a ∧ a < lub ∧ b = 0) ∨ (llb ≤ a ∧ a < lub ∧ b = ny - 1) ∨ (lb = 0 ∧ a = 0 ∧ b < ny) ∨
        (ub = nx ∧ a = nx - 1 ∧ b < ny) ∨ (llb ≤ a ∧ a < lub ∧ 1 ≤ b ∧ b < ny - 1) := by
  have columns : b < ny ↔ b = 0 ∨ b = ny - 1 ∨ 1 ≤ b ∧ b < ny - 1 := by omega
  rw [← and_assoc, rows.others a]
  constructor
  · rintro ⟨⟨start, stop⟩ | top | bottom, column⟩
    · rcases columns.mp column with left | right | inner
      · exact .inl ⟨start, stop, left⟩
      · exact .inr (.inl ⟨start, stop, right⟩)
      · exact .inr (.inr (.inr (.inr ⟨start, stop, inner⟩)))
    · exact .inr (.inr (.inl ⟨top.1, top.2, column⟩))
    · exact .inr (.inr (.inr (.inl ⟨bottom.1, bottom.2, column⟩)))
  · rintro (⟨start, stop, left⟩ | ⟨start, stop, right⟩ | ⟨zero, top, column⟩ | ⟨all, bottom, column⟩ |
      ⟨start, stop, inner⟩)
    · exact ⟨.inl ⟨start, stop⟩, columns.mpr (.inl left)⟩
    · exact ⟨.inl ⟨start, stop⟩, columns.mpr (.inr (.inl right))⟩
    · exact ⟨.inr (.inl ⟨zero, top⟩), column⟩
    · exact ⟨.inr (.inr ⟨all, bottom⟩), column⟩
    · exact ⟨.inl ⟨start, stop⟩, columns.mpr (.inr (.inr inner))⟩

/-- All elements of an array have values. -/
def Known (p : Problem V) (source : Grid) (u : ℕ × ℕ → V) (s : State V) : Prop :=
  ∀ c ∈ stripe p 0 p.nx, (s.grid source).read c = some (u c)

theorem Known.fills (known : Known p source u s) (fills : Fills array S v s s') (other : source ≠ array) :
    Known p source u s' := by
  intro c member
  rw [fills.others source other, known c member]

theorem load_known (known : Known p source u s) {c : ℕ × ℕ} (member : c ∈ stripe p 0 p.nx) (other : source ≠ array)
    (v : ℕ × ℕ → V) : ∃ s', load source c s = some (u c, s') ∧ Fills array ∅ v s s' ∧ Known p source u s' := by
  obtain ⟨s', run, fills⟩ := load_fills (known c member) other v
  exact ⟨s', run, fills, known.fills fills other⟩

section Stripe
variable [Add V] [Mul V] [NatCast V]

theorem initgrid_fills (wide : 2 ≤ p.nx) (high : 2 ≤ p.ny) (nonempty : lb < ub) (bound : ub ≤ p.nx)
    (roomy : Roomy p array lb ub s) :
    ∃ s', initgrid p array lb ub s = some s' ∧ Fills array (stripe p lb ub) (initial p) s s' := by
  have rows := between wide nonempty bound
  rw [initgrid]
  generalize (if lb = 0 then 1 else lb) = llb at rows ⊢
  generalize (if ub = p.nx then p.nx - 1 else ub) = lub at rows ⊢
  have cover := rows.cover high
  obtain ⟨lower, upper, order, first, last, -⟩ := rows
  obtain ⟨s₁, run₁, fills₁⟩ := column_fills (v := initial p) roomy order lower upper (by omega)
    fun a start stop => (framed_left (by omega) (by omega)).symm
  have roomy₁ := roomy.fills fills₁
  obtain ⟨s₂, run₂, fills₂⟩ := column_fills (v := initial p) roomy₁ order lower upper
    (by omega) fun a start stop => (framed_right high (by omega) (by omega)).symm
  have roomy₂ := roomy₁.fills fills₂
  obtain ⟨s₃, run₃, fills₃⟩ := row_fills (v := initial p) (lb = 0) 0 roomy₂ (fun edge => by omega)
    fun _ b _ => framed_first.symm
  have roomy₃ := roomy₂.fills fills₃
  obtain ⟨s₄, run₄, fills₄⟩ := row_fills (v := initial p) (ub = p.nx) (p.nx - 1) roomy₃ (fun edge => by omega)
    fun _ b _ => (framed_last wide).symm
  have roomy₄ := roomy₃.fills fills₄
  have assign (a b : ℕ) (now : State V) (start : llb ≤ a) (stop : a < lub) (left : 1 ≤ b) (right : b < p.ny - 1)
      (ready : Roomy p array lb ub now) : ∃ s', store array (a, b) (p.f (p.xu + a * p.dx) (p.yu + b * p.dy)) now =
        some s' ∧ Fills array {(a, b)} (initial p) now s' := by
    have value : initial p (a, b) = p.f (p.xu + a * p.dx) (p.yu + b * p.dy) :=
      framed_inner (by omega) (by omega) left right
    rw [← value]
    exact store_fills (ready (a, b) ⟨by omega, by omega, by omega⟩) _
  obtain ⟨s₅, run₅, fills₅⟩ := inner_fills roomy₄ (fun fills ready => ready.fills fills) order
    (by omega) assign
  refine ⟨s₅, ?_, ((((fills₁.append fills₂ ?_).append fills₃ ?_).append fills₄ ?_).append fills₅ ?_).congr ?_
    fun _ _ => rfl⟩
  · simp only [run₁, run₂, run₃, run₄, Option.bind_eq_bind, Option.bind_some]
    exact run₅
  iterate 4
    · refine Set.disjoint_left.mpr fun c before here => ?_
      simp only [Set.mem_union, Set.mem_ofPred_eq] at before here
      omega
  · ext c
    simp only [stripe, Set.mem_union, Set.mem_ofPred_eq, cover c.1 c.2, or_assoc]

variable [Sub V] {t : V}

theorem fivePoint_reads (known : Known p source u s) (other : source ≠ array) (v : ℕ × ℕ → V) {a b : ℕ} (first : 1 ≤ a)
    (last : a < p.nx - 1) (left : 1 ≤ b) (right : b < p.ny - 1) :
    ∃ s', fivePoint p source a b s = some (next p t u (a, b), s') ∧ Fills array ∅ v s s' := by
  have inside (i j : ℕ) (row : i < p.nx) (column : j < p.ny) : (i, j) ∈ stripe p 0 p.nx := ⟨Nat.zero_le i, row, column⟩
  obtain ⟨s₁, run₁, reads₁, known₁⟩ := load_known known (inside (a + 1) b (by omega) (by omega)) other v
  obtain ⟨s₂, run₂, reads₂, known₂⟩ := load_known known₁ (inside a b (by omega) (by omega)) other v
  obtain ⟨s₃, run₃, reads₃, known₃⟩ := load_known known₂ (inside (a - 1) b (by omega) (by omega)) other v
  obtain ⟨s₄, run₄, reads₄, known₄⟩ := load_known known₃ (inside a (b + 1) (by omega) (by omega)) other v
  obtain ⟨s₅, run₅, reads₅, known₅⟩ := load_known known₄ (inside a b (by omega) (by omega)) other v
  obtain ⟨s₆, run₆, reads₆, known₆⟩ := load_known known₅ (inside a (b - 1) (by omega) (by omega)) other v
  obtain ⟨s₇, run₇, reads₇, -⟩ := load_known known₆ (inside a b (by omega) (by omega)) other v
  refine ⟨s₇, ?_,
    reads₁.after (reads₂.after (reads₃.after (reads₄.after (reads₅.after (reads₆.after reads₇)))))⟩
  simp only [fivePoint, run₁, run₂, run₃, run₄, run₅, run₆, run₇, Option.bind_eq_bind, Option.bind_some, next,
    framed_inner first last left right]

theorem compstripe_fills (wide : 2 ≤ p.nx) (high : 2 ≤ p.ny) (nonempty : lb < ub) (bound : ub ≤ p.nx)
    (roomy : Roomy p array lb ub s) (known : Known p source u s) (other : source ≠ array) :
    ∃ s', compstripe p t array source lb ub s = some s' ∧ Fills array (stripe p lb ub) (next p t u) s s' := by
  have rows := between wide nonempty bound
  rw [compstripe]
  generalize (if lb = 0 then 1 else lb) = llb at rows ⊢
  generalize (if ub = p.nx then p.nx - 1 else ub) = lub at rows ⊢
  have cover := rows.cover high
  obtain ⟨lower, upper, order, first, last, -⟩ := rows
  have assign (a b : ℕ) (now : State V) (start : llb ≤ a) (stop : a < lub) (left : 1 ≤ b) (right : b < p.ny - 1)
      (ready : Roomy p array lb ub now ∧ Known p source u now) :
      ∃ s', fivePointStore p array source a b now = some s' ∧ Fills array {(a, b)} (next p t u) now s' := by
    obtain ⟨reading, run, reads⟩ := fivePoint_reads (t := t) ready.2 other (next p t u) (show 1 ≤ a by omega)
      (show a < p.nx - 1 by omega) left right
    have member : (a, b) ∈ stripe p lb ub := ⟨by omega, by omega, by omega⟩
    obtain ⟨s', run', fills⟩ := store_fills (ready.1.fills reads (a, b) member) (next p t u)
    refine ⟨s', ?_, reads.after fills⟩
    simp only [fivePointStore, run, Option.bind_eq_bind, Option.bind_some, run']
  obtain ⟨s₁, run₁, fills₁⟩ := inner_fills ⟨roomy, known⟩
    (fun fills ready => ⟨ready.1.fills fills, ready.2.fills fills other⟩) order (by omega) assign
  have roomy₁ := roomy.fills fills₁
  obtain ⟨s₂, run₂, fills₂⟩ := column_fills (v := next p t u) roomy₁ order lower upper
    (by omega) fun a start stop => (framed_right high (by omega) (by omega)).symm
  have roomy₂ := roomy₁.fills fills₂
  obtain ⟨s₃, run₃, fills₃⟩ := column_fills (v := next p t u) roomy₂ order lower upper (by omega)
    fun a start stop => (framed_left (by omega) (by omega)).symm
  have roomy₃ := roomy₂.fills fills₃
  obtain ⟨s₄, run₄, fills₄⟩ := row_fills (v := next p t u) (lb = 0) 0 roomy₃ (fun edge => by omega)
    fun _ b _ => framed_first.symm
  have roomy₄ := roomy₃.fills fills₄
  obtain ⟨s₅, run₅, fills₅⟩ := row_fills (v := next p t u) (ub = p.nx) (p.nx - 1) roomy₄ (fun edge => by omega)
    fun _ b _ => (framed_last wide).symm
  refine ⟨s₅, ?_, ((((fills₁.append fills₂ ?_).append fills₃ ?_).append fills₄ ?_).append fills₅ ?_).congr ?_
    fun _ _ => rfl⟩
  · simp only [run₁, run₂, run₃, run₄, Option.bind_eq_bind, Option.bind_some]
    exact run₅
  iterate 4
    · refine Set.disjoint_left.mpr fun c before here => ?_
      simp only [Set.mem_union, Set.mem_ofPred_eq] at before here
      omega
  · ext c
    simp only [stripe, Set.mem_union, Set.mem_ofPred_eq, cover c.1 c.2, or_assoc]
    ac_nf

end Stripe

end CilkArtifact.Heat
