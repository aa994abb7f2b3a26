import Mathlib

/-! Flat memory for pointer programs. A cell carries its value and the number of
stores it has received, so that an unchanged cell is one that was never written.
Loads and stores of unmapped addresses fail; mapping never changes. -/
namespace CilkArtifact

structure Cell (α : Type) where
  value : α
  writes : ℕ

structure Memory (α : Type) where
  cells : ℤ → Cell α
  mapped : ℤ → Bool

namespace Memory
variable {α : Type} {m m' m'' : Memory α} {a b : ℤ} {v : α}

def val (m : Memory α) (a : ℤ) : α := (m.cells a).value

def write (m : Memory α) (a : ℤ) (v : α) : Memory α :=
  { m with cells := Function.update m.cells a ⟨v, (m.cells a).writes + 1⟩ }

def load (m : Memory α) (a : ℤ) : Option α := if m.mapped a then some (m.val a) else none

def store (m : Memory α) (a : ℤ) (v : α) : Option (Memory α) :=
  if m.mapped a then some (m.write a v) else none

@[simp] theorem mapped_write : (m.write a v).mapped = m.mapped := rfl

@[simp] theorem val_write_same : (m.write a v).val a = v := by
  simp [write, val]

theorem cells_write_other (h : b ≠ a) : (m.write a v).cells b = m.cells b := by
  simp [write, h]

theorem val_write_other (h : b ≠ a) : (m.write a v).val b = m.val b := by
  rw [val, cells_write_other h, val]

theorem load_mapped (h : m.mapped a) : m.load a = some (m.val a) := if_pos h

theorem load_eq_some : m.load a = some v ↔ m.mapped a ∧ m.val a = v := by
  rw [load]
  split <;> simp_all

theorem store_mapped (h : m.mapped a) : m.store a v = some (m.write a v) := if_pos h

/-- Only cells of `S` may differ, and none was mapped or unmapped. -/
structure Changes (S : Set ℤ) (m m' : Memory α) : Prop where
  mapped : m'.mapped = m.mapped
  frame : ∀ a ∉ S, m'.cells a = m.cells a

variable {S T : Set ℤ}

theorem Changes.refl (S : Set ℤ) (m : Memory α) : Changes S m m := ⟨rfl, fun _ _ => rfl⟩

theorem Changes.trans (first : Changes S m m') (second : Changes S m' m'') : Changes S m m'' :=
  ⟨second.mapped.trans first.mapped, fun a h => (second.frame a h).trans (first.frame a h)⟩

theorem Changes.mono (changes : Changes S m m') (h : S ⊆ T) : Changes T m m' :=
  ⟨changes.mapped, fun a outside => changes.frame a fun inside => outside (h inside)⟩

theorem Changes.write (h : a ∈ S) : Changes S m (m.write a v) :=
  ⟨rfl, fun _ outside => cells_write_other fun same => outside (same ▸ h)⟩

theorem Changes.val (changes : Changes S m m') (h : a ∉ S) : m'.val a = m.val a := by
  rw [Memory.val, changes.frame a h, Memory.val]

/-- Every address of the set can be loaded and stored. -/
def MappedOn (m : Memory α) (S : Set ℤ) : Prop := ∀ a ∈ S, m.mapped a = true

theorem MappedOn.mono (h : m.MappedOn T) (sub : S ⊆ T) : m.MappedOn S := fun a ha => h a (sub ha)

theorem MappedOn.changes (h : m.MappedOn T) (changes : Changes S m m') : m'.MappedOn T :=
  fun a ha => by rw [changes.mapped]; exact h a ha

/-! ### Fewer mapped cells -/

/-- The memory with no cell mapped outside of `[lo, hi]`. -/
def within (m : Memory α) (lo hi : ℤ) : Memory α :=
  { m with mapped := fun a => m.mapped a && decide (lo ≤ a ∧ a ≤ hi) }

theorem mappedOn_within {lo hi : ℤ} (mapped : m.MappedOn (Set.Icc lo hi)) :
    (m.within lo hi).MappedOn (Set.Icc lo hi) := by
  intro a member
  exact Bool.and_eq_true_iff.mpr ⟨mapped a member, decide_eq_true member⟩

theorem load_within {lo hi : ℤ} (run : (m.within lo hi).load a = some v) : m.load a = some v := by
  obtain ⟨mapped, value⟩ := load_eq_some.mp run
  exact load_eq_some.mpr ⟨(Bool.and_eq_true_iff.mp mapped).1, value⟩

theorem store_within {lo hi : ℤ} (run : (m.within lo hi).store a v = some m') :
    ∃ m'', m.store a v = some m'' ∧ m' = m''.within lo hi := by
  obtain ⟨mapped, written⟩ := Option.ite_none_right_eq_some.mp run
  refine ⟨m.write a v, store_mapped (Bool.and_eq_true_iff.mp mapped).1, ?_⟩
  exact (Option.some.inj written).symm

/-- Every cell of `S` has received one store, and no other cell any. -/
structure Stored (S : Set ℤ) (m m' : Memory α) : Prop extends Changes S m m' where
  once : ∀ a ∈ S, (m'.cells a).writes = (m.cells a).writes + 1

theorem Stored.refl (m : Memory α) : Stored ∅ m m := ⟨.refl _ m, fun _ member => member.elim⟩

theorem Ico_single (a : ℤ) : Set.Ico a (a + 1) = {a} := by
  ext b
  rw [Set.mem_Ico, Set.mem_singleton_iff]
  omega

theorem Stored.store (run : m.store a v = some m') : Stored (Set.Ico a (a + 1)) m m' := by
  rw [Memory.store, Option.ite_none_right_eq_some] at run
  cases Option.some.inj run.2
  refine ⟨.write ⟨le_rfl, by omega⟩, ?_⟩
  rintro b ⟨lower, upper⟩
  obtain rfl : b = a := by omega
  simp [Memory.write]

theorem Stored.union (first : Stored S m m') (second : Stored T m' m'') (apart : Disjoint S T) :
    Stored (S ∪ T) m m'' := by
  refine ⟨(first.toChanges.mono Set.subset_union_left).trans (second.toChanges.mono Set.subset_union_right), ?_⟩
  rintro a (member | member)
  · rw [second.frame a (Set.disjoint_left.mp apart member), first.once a member]
  · rw [second.once a member, first.frame a (Set.disjoint_right.mp apart member)]

/-- Two stretches, one after the other. -/
theorem Stored.append {lo mid hi : ℤ} (first : Stored (Set.Ico lo mid) m m') (second : Stored (Set.Ico mid hi) m' m'')
    (h₁ : lo ≤ mid) (h₂ : mid ≤ hi) : Stored (Set.Ico lo hi) m m'' := by
  rw [← Set.Ico_union_Ico_eq_Ico h₁ h₂]
  exact first.union second Set.Ico_disjoint_Ico_same

/-- The cells that have been written. -/
def written (m m' : Memory α) : Set ℤ := {a | (m'.cells a).writes ≠ (m.cells a).writes}

theorem Stored.written_eq (stored : Stored S m m') : written m m' = S := by
  ext a
  change (m'.cells a).writes ≠ (m.cells a).writes ↔ a ∈ S
  constructor
  · intro changed
    by_contra outside
    exact changed (by rw [stored.frame a outside])
  · intro member
    rw [stored.once a member]
    exact Nat.succ_ne_self _

/-! ### Contents of ranges -/

/-- The values of `[lo, lo + n)` in order. -/
def slice (m : Memory α) (lo : ℤ) (n : ℕ) : List α := (List.range n).map fun i : ℕ => m.val (lo + i)

@[simp] theorem slice_length (lo : ℤ) (n : ℕ) : (m.slice lo n).length = n := by simp [slice]

theorem slice_getElem (lo : ℤ) (n i : ℕ) (h : i < (m.slice lo n).length) :
    (m.slice lo n)[i] = m.val (lo + i) := by
  simp [slice]

theorem slice_add (lo : ℤ) (n k : ℕ) :
    m.slice lo (n + k) = m.slice lo n ++ m.slice (lo + n) k := by
  simp [slice, List.range_add, Function.comp_def, add_assoc]

theorem slice_cons (lo : ℤ) (n : ℕ) : m.slice lo (n + 1) = m.val lo :: m.slice (lo + 1) n := by
  rw [Nat.add_comm, slice_add]
  simp [slice]

/-- The values stored in `[lo, hi)`, with multiplicity. -/
def bag (m : Memory α) (lo hi : ℤ) : Multiset α := m.slice lo (hi - lo).toNat

theorem mem_bag {x : α} {lo hi : ℤ} : x ∈ m.bag lo hi ↔ ∃ a, lo ≤ a ∧ a < hi ∧ m.val a = x := by
  simp only [bag, slice, Multiset.mem_coe, List.mem_map, List.mem_range]
  constructor
  · rintro ⟨i, bound, same⟩
    exact ⟨lo + i, by omega, by omega, same⟩
  · rintro ⟨a, lower, upper, same⟩
    exact ⟨(a - lo).toNat, by omega, by rw [← same]; congr 1; omega⟩

theorem bag_empty {lo hi : ℤ} (h : hi ≤ lo) : m.bag lo hi = 0 := by
  simp [bag, slice, show (hi - lo).toNat = 0 by omega]

theorem bag_split (m : Memory α) {lo hi : ℤ} (mid : ℤ) (h₁ : lo ≤ mid) (h₂ : mid ≤ hi) :
    m.bag lo hi = m.bag lo mid + m.bag mid hi := by
  have size : (hi - lo).toNat = (mid - lo).toNat + (hi - mid).toNat := by omega
  have start : lo + (mid - lo).toNat = mid := by omega
  rw [bag, size, slice_add, start, ← Multiset.coe_add, bag, bag]

theorem bag_singleton (a : ℤ) : m.bag a (a + 1) = {m.val a} := by
  simp [bag, slice, show a + 1 - a = 1 by omega]

theorem slice_congr {lo lo' : ℤ} {n : ℕ} (same : ∀ i < n, m'.val (lo' + i) = m.val (lo + i)) :
    m'.slice lo' n = m.slice lo n := by
  apply List.map_congr_left
  intro i bound
  exact same i (List.mem_range.mp bound)

theorem bag_congr {lo hi : ℤ} (same : ∀ a, lo ≤ a → a < hi → m'.val a = m.val a) :
    m'.bag lo hi = m.bag lo hi := by
  rw [bag, slice_congr (m := m) fun i bound => same _ (by omega) (by omega), bag]

theorem Changes.bag {lo hi : ℤ} (changes : Changes S m m') (apart : ∀ a ∈ S, a < lo ∨ hi ≤ a) :
    m'.bag lo hi = m.bag lo hi :=
  bag_congr fun a lower upper => changes.val fun inside => by
    rcases apart a inside with below | above <;> omega

theorem bag_swap {lo hi i j : ℤ} (hi₀ : lo ≤ i) (hij : i < j) (hj : j < hi) :
    ((m.write j (m.val i)).write i (m.val j)).bag lo hi = m.bag lo hi := by
  have split (m : Memory α) : m.bag lo hi =
      m.bag lo i + {m.val i} + m.bag (i + 1) j + {m.val j} + m.bag (j + 1) hi := by
    rw [m.bag_split (j + 1) (by omega) (by omega), m.bag_split j (by omega) (by omega),
      m.bag_split (i + 1) (by omega) (by omega), m.bag_split i hi₀ (by omega), bag_singleton,
      bag_singleton]
  have outside {a : ℤ} (hai : a ≠ i) (haj : a ≠ j) :
      ((m.write j (m.val i)).write i (m.val j)).val a = m.val a := by
    rw [val_write_other hai, val_write_other haj]
  have low : ((m.write j (m.val i)).write i (m.val j)).bag lo i = m.bag lo i :=
    bag_congr fun a _ _ => outside (by omega) (by omega)
  have middle : ((m.write j (m.val i)).write i (m.val j)).bag (i + 1) j = m.bag (i + 1) j :=
    bag_congr fun a _ _ => outside (by omega) (by omega)
  have high : ((m.write j (m.val i)).write i (m.val j)).bag (j + 1) hi = m.bag (j + 1) hi :=
    bag_congr fun a _ _ => outside (by omega) (by omega)
  rw [split, split m, low, middle, high, val_write_same, val_write_other (by omega), val_write_same]
  ac_rfl

/-- A property of all values of a range only depends on the bag. -/
theorem forall_of_bag {lo hi lo' hi' : ℤ} (same : m'.bag lo' hi' = m.bag lo hi) {P : α → Prop}
    (h : ∀ a, lo ≤ a → a < hi → P (m.val a)) : ∀ a, lo' ≤ a → a < hi' → P (m'.val a) := by
  intro a lower upper
  obtain ⟨b, lower', upper', value⟩ := mem_bag.mp (same ▸ mem_bag.mpr ⟨a, lower, upper, rfl⟩)
  exact value ▸ h b lower' upper'

theorem forall_mem_bag_add {lo hi lo' hi' : ℤ} {P : α → Prop} (first : ∀ a, lo ≤ a → a < hi → P (m.val a))
    (second : ∀ a, lo' ≤ a → a < hi' → P (m.val a)) : ∀ x ∈ m.bag lo hi + m.bag lo' hi', P x := by
  intro x member
  rcases Multiset.mem_add.mp member with member | member
  · obtain ⟨a, lower, upper, rfl⟩ := mem_bag.mp member
    exact first a lower upper
  · obtain ⟨a, lower, upper, rfl⟩ := mem_bag.mp member
    exact second a lower upper

/-! ### Ordered ranges -/

section Ordered
variable [Preorder α] {lo hi : ℤ}

def SortedOn (m : Memory α) (lo hi : ℤ) : Prop :=
  ∀ a b, lo ≤ a → a ≤ b → b < hi → m.val a ≤ m.val b

/-- Every value of the first range is at most every value of the second. -/
def Below (m : Memory α) (lo hi lo' hi' : ℤ) : Prop :=
  ∀ a b, lo ≤ a → a < hi → lo' ≤ b → b < hi' → m.val a ≤ m.val b

theorem SortedOn.sub {lo' hi' : ℤ} (sorted : m.SortedOn lo hi) (h₁ : lo ≤ lo') (h₂ : hi' ≤ hi) :
    m.SortedOn lo' hi' :=
  fun a b ha hab hb => sorted a b (by omega) hab (by omega)

theorem SortedOn.congr (sorted : m.SortedOn lo hi)
    (same : ∀ a, lo ≤ a → a < hi → m'.val a = m.val a) : m'.SortedOn lo hi := by
  intro a b ha hab hb
  rw [same a ha (by omega), same b (by omega) hb]
  exact sorted a b ha hab hb

theorem sortedOn_short (h : hi ≤ lo + 1) : m.SortedOn lo hi := by
  intro a b ha hab hb
  rw [show a = b by omega]

theorem SortedOn.append {lo hi : ℤ} (mid : ℤ) (first : m.SortedOn lo mid) (second : m.SortedOn mid hi)
    (below : m.Below lo mid mid hi) : m.SortedOn lo hi := by
  intro a b ha hab hb
  rcases lt_or_ge b mid with inFirst | inSecond
  · exact first a b ha hab inFirst
  · rcases lt_or_ge a mid with before | after
    · exact below a b ha before inSecond hb
    · exact second a b after hab hb

/-- Two ranges with one value between them. -/
theorem SortedOn.around {mid : ℤ} (first : m.SortedOn lo mid) (second : m.SortedOn (mid + 1) hi)
    (small : ∀ x ∈ m.bag lo mid, x ≤ m.val mid) (large : ∀ x ∈ m.bag (mid + 1) hi, m.val mid ≤ x) :
    m.SortedOn lo hi := by
  have rest : m.SortedOn mid hi := by
    apply SortedOn.append (mid + 1) (sortedOn_short (by omega)) second
    intro a b ha hb ha' hb'
    rw [show a = mid by omega]
    exact large _ (mem_bag.mpr ⟨b, ha', hb', rfl⟩)
  apply SortedOn.append mid first rest
  intro a b ha hb ha' hb'
  exact (small _ (mem_bag.mpr ⟨a, ha, hb, rfl⟩)).trans (rest _ b le_rfl ha' hb')

/-- Ranges keep their order relation when each is rearranged. -/
theorem Below.of_bag {lo' hi' : ℤ} (below : m.Below lo hi lo' hi')
    (first : m'.bag lo hi = m.bag lo hi) (second : m'.bag lo' hi' = m.bag lo' hi') :
    m'.Below lo hi lo' hi' := by
  intro a b ha hb ha' hb'
  have left : ∀ c, lo' ≤ c → c < hi' → m'.val a ≤ m.val c := fun c hc hc' =>
    forall_of_bag first (P := fun x => x ≤ m.val c)
      (fun d hd hd' => below d c hd hd' hc hc') a ha hb
  exact forall_of_bag second (P := fun x => m'.val a ≤ x) left b ha' hb'

theorem SortedOn.slice_pairwise {n : ℕ} (sorted : m.SortedOn lo (lo + n)) :
    (m.slice lo n).Pairwise (· ≤ ·) := by
  rw [List.pairwise_iff_getElem]
  intro i j hi hj less
  rw [slice_length] at hi hj
  rw [slice_getElem, slice_getElem]
  exact sorted _ _ (by omega) (by omega) (by omega)

end Ordered

/-- There is one way to sort a bag. -/
theorem SortedOn.unique [PartialOrder α] {lo hi : ℤ} (first : m.SortedOn lo hi) (second : m'.SortedOn lo hi)
    (bags : m'.bag lo hi = m.bag lo hi) {a : ℤ} (lower : lo ≤ a) (upper : a < hi) : m'.val a = m.val a := by
  have last : hi = lo + (hi - lo).toNat := by omega
  rw [last] at first second
  have same : m'.slice lo (hi - lo).toNat = m.slice lo (hi - lo).toNat :=
    (Multiset.coe_eq_coe.mp bags).eq_of_pairwise (fun _ _ _ _ below above => le_antisymm below above)
      second.slice_pairwise first.slice_pairwise
  have bound : (a - lo).toNat < (hi - lo).toNat := by omega
  have here : lo + ((a - lo).toNat : ℤ) = a := by omega
  have left := m'.slice_getElem lo (hi - lo).toNat (a - lo).toNat (by rwa [slice_length])
  have right := m.slice_getElem lo (hi - lo).toNat (a - lo).toNat (by rwa [slice_length])
  rw [here] at left right
  rw [← left, ← right]
  simp only [same]

end Memory
end CilkArtifact
