import Mathlib

/-! Lists of elements with distinct keys, and the rows of a hash table that hold such a list. -/
namespace CilkArtifact.Buckets
variable {α κ : Type*} [DecidableEq κ] {key : α → κ} {k : κ} {a : α} {list list' : List α}

/-- The element with the key. -/
def entry (key : α → κ) (k : κ) (list : List α) : Option α := list.find? fun a => key a == k

@[simp] theorem entry_nil : entry key k [] = none := rfl

theorem entry_cons : entry key k (a :: list) = if key a = k then some a else entry key k list := by
  by_cases same : key a = k <;> simp [entry, same]

theorem entry_append : entry key k (list ++ list') = (entry key k list).or (entry key k list') := List.find?_append

theorem entry_eq_none : entry key k list = none ↔ ∀ a ∈ list, key a ≠ k := by
  simp [entry]

theorem mem_of_entry (found : entry key k list = some a) : a ∈ list ∧ key a = k :=
  ⟨List.mem_of_find?_eq_some found, by simpa using List.find?_some found⟩

theorem entry_of_mem (distinct : (list.map key).Nodup) (mem : a ∈ list) : entry key (key a) list = some a := by
  induction list with
  | nil => cases mem
  | cons b list ih =>
    obtain ⟨fresh, distinct⟩ := List.nodup_cons.mp distinct
    rw [entry_cons]
    cases mem with
    | head => exact if_pos rfl
    | tail _ mem =>
      have other : key b ≠ key a := fun same => fresh (same ▸ List.mem_map_of_mem mem)
      exact (if_neg other).trans (ih distinct mem)

theorem entry_eq_some (distinct : (list.map key).Nodup) : entry key k list = some a ↔ a ∈ list ∧ key a = k := by
  constructor
  · exact mem_of_entry
  · rintro ⟨mem, rfl⟩
    exact entry_of_mem distinct mem

/-- The order of the elements does not matter. -/
theorem entry_perm (distinct : (list.map key).Nodup) (perm : list.Perm list') : entry key k list = entry key k list' := by
  have distinct' : (list'.map key).Nodup := (perm.map key).nodup_iff.mp distinct
  apply Option.ext
  intro a
  exact (entry_eq_some distinct).trans ((and_congr_left' perm.mem_iff).trans (entry_eq_some distinct').symm)

variable {hash : κ → ℕ} {rows : List (List α)} {row new : List α} {i : ℕ}

/-- Every element is in the row of its key. -/
def Placed (key : α → κ) (hash : κ → ℕ) (rows : List (List α)) : Prop :=
  ∀ i row, rows[i]? = some row → ∀ a ∈ row, hash (key a) = i

omit [DecidableEq κ] in
theorem Placed.set (placed : Placed key hash rows) (mine : ∀ a ∈ new, hash (key a) = i) :
    Placed key hash (rows.set i new) := by
  intro j row here
  by_cases same : i = j
  · subst same
    have replaced : row = new := by
      have both := List.getElem?_set_self' (l := rows) (i := i) (a := new)
      rw [here] at both
      exact (Option.map_eq_some_iff.mp both.symm).choose_spec.2.symm
    rw [replaced]
    exact mine
  · rw [List.getElem?_set_ne same] at here
    exact placed j row here

omit [DecidableEq κ] in
theorem Placed.replicate (n : ℕ) : Placed key hash (List.replicate n []) := by
  intro i row here a mem
  rw [List.eq_of_mem_replicate (List.mem_of_getElem? here)] at mem
  cases mem

/-- A row is replaced, and the others stay. -/
theorem exists_flatten_set {rows : List (List α)} {row : List α} {i : ℕ} (here : rows[i]? = some row) (new : List α) :
    ∃ others, rows.flatten.Perm (row ++ others) ∧ (rows.set i new).flatten.Perm (new ++ others) := by
  induction rows generalizing i with
  | nil => cases here
  | cons first rows ih =>
    cases i with
    | zero =>
      cases here
      exact ⟨rows.flatten, .refl _, .refl _⟩
    | succ i =>
      obtain ⟨others, before, after⟩ := ih here
      have swap (row : List α) : (first ++ (row ++ others)).Perm (row ++ (first ++ others)) := by
        rw [← List.append_assoc, ← List.append_assoc]
        exact List.perm_append_comm.append_right others
      exact ⟨first ++ others, (before.append_left first).trans (swap row), (after.append_left first).trans (swap new)⟩

/-- The row of a key has all that the table has for it. -/
theorem entry_row (placed : Placed key hash rows) (distinct : (rows.flatten.map key).Nodup)
    (here : rows[hash k]? = some row) : entry key k row = entry key k rows.flatten := by
  obtain ⟨others, perm, -⟩ := exists_flatten_set here []
  rw [entry_perm distinct perm, entry_append]
  cases found : entry key k row with
  | some a => rfl
  | none =>
    have away : entry key k rows.flatten = none := by
      apply entry_eq_none.mpr
      rintro a mem rfl
      obtain ⟨row', mem_row, mem⟩ := List.mem_flatten.mp mem
      obtain ⟨i, here'⟩ := List.mem_iff_getElem?.mp mem_row
      have mine : hash (key a) = i := placed i row' here' a mem
      subst mine
      cases here.symm.trans here'
      exact entry_eq_none.mp found a mem rfl
    rw [entry_perm distinct perm, entry_append, found] at away
    exact away.symm

end CilkArtifact.Buckets
