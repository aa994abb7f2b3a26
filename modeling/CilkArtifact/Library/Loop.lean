import Mathlib.Algebra.Field.Defs

/-! Counting loops over a fallible state with the rules for their invariants, and what the loops of
dense linear algebra are made of: entries of two-dimensional arrays and a division that can fail. -/
namespace CilkArtifact

/-- `for (k = start; k < stop; k++)`; a failed iteration fails the loop. -/
def forLoop {σ : Type} (start stop : ℕ) (body : σ → ℕ → Option σ) (s : σ) : Option σ :=
  (List.range' start (stop - start)).foldlM body s

/-- An invariant established before the loop and kept by every iteration holds after it. -/
theorem forLoop_invariant {σ : Type} {body : σ → ℕ → Option σ} (P : ℕ → σ → Prop) {start stop : ℕ} {s : σ}
    (bounds : start ≤ stop) (init : P start s)
    (step : ∀ k s, start ≤ k → k < stop → P k s → ∃ s', body s k = some s' ∧ P (k + 1) s') :
    ∃ s', forLoop start stop body s = some s' ∧ P stop s' := by
  obtain ⟨n, rfl⟩ := Nat.exists_eq_add_of_le bounds
  rw [forLoop, Nat.add_sub_cancel_left]
  clear bounds
  induction n generalizing start s with
  | zero => exact ⟨s, rfl, init⟩
  | succ n ih =>
    obtain ⟨middle, first, kept⟩ := step start s (Nat.le_refl _) (by omega) init
    have shifted : start + (n + 1) = start + 1 + n := by omega
    rw [shifted] at step ⊢
    obtain ⟨s', rest, final⟩ := ih kept fun k s lower upper => step k s (by omega) upper
    refine ⟨s', ?_, final⟩
    rw [List.range'_succ, List.foldlM_cons, first]
    exact rest

/-- The same for a loop that may fail, if it does not. -/
theorem forLoop_returns {σ : Type} {body : σ → ℕ → Option σ} (P : ℕ → σ → Prop) {start stop : ℕ} {s s' : σ}
    (bounds : start ≤ stop) (init : P start s)
    (step : ∀ k s s', start ≤ k → k < stop → P k s → body s k = some s' → P (k + 1) s')
    (run : forLoop start stop body s = some s') : P stop s' := by
  obtain ⟨n, rfl⟩ := Nat.exists_eq_add_of_le bounds
  rw [forLoop, Nat.add_sub_cancel_left] at run
  clear bounds
  induction n generalizing start s with
  | zero =>
    cases Option.some.inj run
    exact init
  | succ n ih =>
    rw [List.range'_succ, List.foldlM_cons] at run
    obtain ⟨middle, first, rest⟩ := Option.bind_eq_some_iff.mp run
    have shifted : start + (n + 1) = start + 1 + n := by omega
    rw [shifted] at step ⊢
    have kept := step start s middle (Nat.le_refl _) (by omega) init first
    exact ih kept (fun k s s' lower upper => step k s s' (by omega) upper) rest

/-- Every iteration of a loop that did not fail has been made. -/
theorem forLoop_iterations {σ : Type} {body : σ → ℕ → Option σ} {start stop : ℕ} {s s' : σ} (bounds : start ≤ stop)
    (run : forLoop start stop body s = some s') {k : ℕ} (lower : start ≤ k) (upper : k < stop) :
    ∃ t t', body t k = some t' := by
  refine forLoop_returns (fun i _ => ∀ k, start ≤ k → k < i → ∃ t t', body t k = some t') bounds ?_ ?_ run k lower upper
  · intro k lower upper
    exact absurd upper (Nat.not_lt.mpr lower)
  · intro i t t' _ _ made next k lower upper
    rcases Nat.lt_succ_iff_lt_or_eq.mp upper with old | rfl
    · exact made k lower old
    · exact ⟨t, t', next⟩

/-- A loop whose state is known before every iteration. -/
theorem forLoop_eq {σ : Type} {body : σ → ℕ → Option σ} (state : ℕ → σ) {start stop : ℕ} {s : σ}
    (bounds : start ≤ stop) (init : s = state start)
    (step : ∀ k, start ≤ k → k < stop → body (state k) k = some (state (k + 1))) :
    forLoop start stop body s = some (state stop) := by
  obtain ⟨s', run, final⟩ := forLoop_invariant (fun k s => s = state k) bounds init (by
    rintro k s lower upper rfl
    exact ⟨state (k + 1), step k lower upper, rfl⟩)
  rw [run, final]

theorem forLoop_succ {σ : Type} (body : σ → ℕ → Option σ) {start stop : ℕ} (bounds : start ≤ stop) (s : σ) :
    forLoop start (stop + 1) body s = (forLoop start stop body s).bind fun s => body s stop := by
  obtain ⟨n, rfl⟩ := Nat.exists_eq_add_of_le bounds
  rw [forLoop, forLoop, Nat.add_assoc, Nat.add_sub_cancel_left, Nat.add_sub_cancel_left, List.range'_concat,
    List.foldlM_append, Nat.one_mul]
  simp only [List.foldlM_cons, List.foldlM_nil, bind_pure]
  rfl

/-- A loop of `count` iterations from `k` on that keeps no state and may leave the function: `none` says that all
iterations went through. -/
def returnLoop {ρ : Type} (body : ℕ → Option (Option ρ)) : (count k : ℕ) → Option (Option ρ)
  | 0, _ => some none
  | count + 1, k => do
    let left ← body k
    match left with
    | some r => some (some r)
    | none => returnLoop body count (k + 1)

theorem returnLoop_total {ρ : Type} {body : ℕ → Option (Option ρ)} (count : ℕ) : ∀ k,
    (∀ i < count, ∃ left, body (k + i) = some left) → ∃ left, returnLoop body count k = some left := by
  induction count with
  | zero =>
    intro k _
    exact ⟨none, rfl⟩
  | succ count ih =>
    intro k total
    obtain ⟨left, first⟩ := total 0 (Nat.succ_pos _)
    rw [Nat.add_zero] at first
    cases left with
    | some r => exact ⟨some r, by simp [returnLoop, first]⟩
    | none =>
      obtain ⟨left, rest⟩ := ih (k + 1) fun i bound => by
        rw [Nat.add_assoc, Nat.add_comm 1]
        exact total (i + 1) (Nat.succ_lt_succ bound)
      exact ⟨left, by simp [returnLoop, first, rest]⟩

theorem returnLoop_none_iff {ρ : Type} {body : ℕ → Option (Option ρ)} (count : ℕ) : ∀ k,
    returnLoop body count k = some none ↔ ∀ i < count, body (k + i) = some none := by
  induction count with
  | zero =>
    intro k
    exact iff_of_true rfl fun i bound => absurd bound (Nat.not_lt_zero i)
  | succ count ih =>
    intro k
    rw [Nat.forall_lt_succ_left']
    cases first : body k with
    | none => simp [returnLoop, first]
    | some left =>
      cases left with
      | some r => simp [returnLoop, first]
      | none => simp [returnLoop, first, ih, Nat.add_assoc, Nat.add_comm 1]

theorem returnLoop_some {ρ : Type} {body : ℕ → Option (Option ρ)} {r : ρ} (count : ℕ) : ∀ k,
    returnLoop body count k = some (some r) → ∃ i < count, body (k + i) = some (some r) := by
  induction count with
  | zero =>
    intro k run
    cases run
  | succ count ih =>
    intro k run
    cases first : body k with
    | none => simp [returnLoop, first] at run
    | some left =>
      cases left with
      | some r' =>
        simp only [returnLoop, first, Option.bind_eq_bind, Option.bind_some] at run
        exact ⟨0, Nat.succ_pos _, first.trans run⟩
      | none =>
        simp only [returnLoop, first, Option.bind_eq_bind, Option.bind_some] at run
        obtain ⟨i, bound, found⟩ := ih (k + 1) run
        exact ⟨i + 1, Nat.succ_lt_succ bound, by rwa [Nat.add_comm i, ← Nat.add_assoc]⟩

def setEntry {F : Type} (A : ℕ → ℕ → F) (r c : ℕ) (v : F) : ℕ → ℕ → F :=
  fun r' c' => if r' = r ∧ c' = c then v else A r' c'

def divide {F : Type} [Field F] [DecidableEq F] (x y : F) : Option F := if y = 0 then none else some (x / y)

theorem divide_ne_zero {F : Type} [Field F] [DecidableEq F] {x y : F} (nonzero : y ≠ 0) :
    divide x y = some (x / y) := if_neg nonzero

end CilkArtifact
