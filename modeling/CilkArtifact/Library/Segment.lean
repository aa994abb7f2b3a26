import Mathlib.Data.Nat.Bitwise

/-! Folds of an associative operation over consecutive elements of a sequence, and
the arithmetic of clearing the lowest set bit of a position. -/
namespace CilkArtifact
variable {α : Type} (op : α → α → α) (x : ℕ → α)

/-- The fold of `x s, …, x (e - 1)` for `s < e`; no neutral element is needed. -/
def foldSegment (s e : ℕ) : α :=
  (List.range' (s + 1) (e - (s + 1))).foldl (fun value j => op value (x j)) (x s)

variable {op x}

theorem foldSegment_single (s : ℕ) : foldSegment op x s (s + 1) = x s := by
  simp [foldSegment]

theorem foldSegment_succ {s e : ℕ} (nonempty : s < e) :
    foldSegment op x s (e + 1) = op (foldSegment op x s e) (x e) := by
  have size : e + 1 - (s + 1) = (e - (s + 1)) + 1 := by omega
  have last : s + 1 + (e - (s + 1)) = e := by omega
  rw [foldSegment, size, List.range'_concat, List.foldl_append, one_mul, last]
  rfl

theorem foldSegment_append [laws : Std.Associative op] {s m e : ℕ} (first : s < m) (second : m < e) :
    op (foldSegment op x s m) (foldSegment op x m e) = foldSegment op x s e := by
  induction e, second using Nat.le_induction with
  | base => rw [foldSegment_single, foldSegment_succ first]
  | succ e reached ih =>
    rw [foldSegment_succ reached, foldSegment_succ (by omega), ← ih, laws.assoc]

theorem foldSegment_congr {y : ℕ → α} {s e : ℕ} (nonempty : s < e)
    (same : ∀ j, s ≤ j → j < e → y j = x j) : foldSegment op y s e = foldSegment op x s e := by
  induction e, nonempty using Nat.le_induction with
  | base => rw [foldSegment_single, foldSegment_single, same s le_rfl (by omega)]
  | succ e reached ih =>
    rw [foldSegment_succ reached, foldSegment_succ reached, same e (by omega) (by omega),
      ih fun j lower upper => same j lower (by omega)]

/-- Folding the folds of consecutive blocks is folding the elements. -/
theorem foldSegment_blocks [Std.Associative op] {cut : ℕ → ℕ} {s e : ℕ} (nonempty : s < e)
    (increasing : ∀ t, s ≤ t → t < e → cut t < cut (t + 1)) :
    foldSegment op (fun t => foldSegment op x (cut t) (cut (t + 1))) s e =
      foldSegment op x (cut s) (cut e) := by
  have main : cut s < cut e ∧ foldSegment op (fun t => foldSegment op x (cut t) (cut (t + 1))) s e =
      foldSegment op x (cut s) (cut e) := by
    induction e, nonempty using Nat.le_induction with
    | base => exact ⟨increasing s le_rfl (by omega), foldSegment_single s⟩
    | succ e reached ih =>
      obtain ⟨ordered, folded⟩ := ih fun t lower upper => increasing t lower (by omega)
      have next := increasing e (by omega) (by omega)
      refine ⟨ordered.trans next, ?_⟩
      rw [foldSegment_succ reached, folded]
      exact foldSegment_append ordered next
  exact main.2

/-! ### The lowest set bit -/

/-- A position with its lowest set bit cleared. -/
def clearLowest (p : ℕ) : ℕ := p &&& (p - 1)

theorem clearLowest_lt {p : ℕ} (positive : 0 < p) : clearLowest p < p :=
  lt_of_le_of_lt Nat.and_le_right (by omega)

/-- The lowest set bit of `2 ^ e + q` is that of `q` when `q` has a bit below `e`. -/
theorem clearLowest_add {e q : ℕ} (positive : 0 < q) (small : q < 2 ^ e) :
    clearLowest (2 ^ e + q) = 2 ^ e + clearLowest q := by
  have less : clearLowest q < 2 ^ e := (clearLowest_lt positive).trans small
  have join {b : ℕ} (below : b < 2 ^ e) : 2 ^ e + b = 2 ^ e ||| b := by
    simpa only [mul_one] using Nat.two_pow_add_eq_or_of_lt below 1
  have pred : 2 ^ e + q - 1 = 2 ^ e + (q - 1) := by omega
  rw [clearLowest, pred, join small, join (by omega), join less, clearLowest, Nat.or_and_distrib_left]

theorem clearLowest_two_pow (e : ℕ) : clearLowest (2 ^ e) = 0 := by
  have positive : 0 < 2 ^ e := Nat.two_pow_pos e
  have mask : 2 ^ e &&& (2 ^ e - 1) = 2 ^ e % 2 ^ e := Nat.and_two_pow_sub_one_eq_mod _ e
  rw [clearLowest, mask, Nat.mod_self]

end CilkArtifact
