import CilkArtifact.Library.Buckets
import CilkArtifact.Runtime.Reducers.Map

/-! What the operations of `cilkred_map` keep: every element is in the bucket of its key, no key is there twice, and
one doubling of the buckets is always enough. -/
namespace CilkArtifact.Runtime.Reducers
open DotMix Buckets

/-! ## Buckets -/

/-- The elements of a bucket, without the empty ones at its end. -/
structure Bucket.Holds (b : Bucket) (live : List Elem) : Prop where
  split : ∃ rest, b.el = live ++ rest ∧ rest ≠ [] ∧ ∀ e ∈ rest, e.key = 0
  used : ∀ e ∈ live, e.key ≠ 0
  length : b.el.length = b.nmax + 1

/-- The same for the pointer to a bucket. -/
def Holds : Option Bucket → List Elem → Prop
  | none, live => live = []
  | some b, live => b.Holds live

section Bucket
variable {b : Bucket} {bp : Option Bucket} {live : List Elem}

theorem Bucket.Holds.elems (holds : b.Holds live) : b.elems = live := by
  obtain ⟨rest, split, -, empty⟩ := holds.split
  rw [Bucket.elems, split, List.takeWhile_append_of_pos (by simpa using holds.used)]
  cases rest with
  | nil => exact List.append_nil live
  | cons e rest => simp [empty e (List.mem_cons_self ..)]

theorem Holds.row (holds : Holds bp live) : row bp = live := by
  cases bp with
  | none => exact holds.symm
  | some b => exact Bucket.Holds.elems holds

theorem Bucket.Holds.fits (holds : b.Holds live) : live.length ≤ b.nmax := by
  obtain ⟨rest, split, some, -⟩ := holds.split
  have length := holds.length
  have pos := List.length_pos_iff.mpr some
  rw [split, List.length_append] at length
  omega

theorem Bucket.Holds.getD (holds : b.Holds live) {j : ℕ} {e : Elem} (here : live[j]? = some e) : b.el.getD j .zero = e := by
  obtain ⟨rest, split, -, -⟩ := holds.split
  have inside : j < live.length := (List.getElem?_eq_some_iff.mp here).1
  rw [split, List.getD_append _ _ _ _ inside, List.getD_eq_getElem?_getD, here]
  rfl

theorem roundup_spec (nmax : ℕ) : nmax < roundup (2 * nmax) := by
  have large := le_roundup (sizeofBucket (2 * nmax))
  have block := block_le_roundup (sizeofBucket (2 * nmax))
  unfold roundup
  unfold sizeofBucket at *
  omega

theorem enlarge_holds (old : List Elem) (used : ∀ e ∈ old, e.key ≠ 0) :
    (enlarge old.length old).1.Holds old ∧ old.length < (enlarge old.length old).1.nmax := by
  have larger := roundup_spec old.length
  refine ⟨⟨⟨_, rfl, ?_, ?_⟩, used, ?_⟩, larger⟩
  · simp
  · intro e mem
    rw [List.eq_of_mem_replicate mem]
    rfl
  · simp only [enlarge, List.length_append, List.length_replicate]
    omega

/-- The element that `grow` finds is the first empty one, and there is another behind it. -/
theorem grow_spec (holds : Holds bp live) :
    (grow bp).1.Holds live ∧ (grow bp).2 = live.length ∧ live.length < (grow bp).1.nmax := by
  cases bp with
  | none =>
    cases holds
    obtain ⟨enlarged, larger⟩ := enlarge_holds [] fun e mem => by cases mem
    exact ⟨enlarged, rfl, larger⟩
  | some b =>
    have holds : b.Holds live := holds
    obtain ⟨rest, split, some, empty⟩ := holds.split
    have fits := holds.fits
    have length := holds.length
    rw [split, List.length_append] at length
    have taken : b.el.take b.nmax = live ++ rest.take (b.nmax - live.length) := by
      rw [split, List.take_append, List.take_of_length_le fits]
    have none_used : live.findIdx? (·.key = 0) = none := by
      simpa [List.findIdx?_eq_none_iff] using holds.used
    rw [grow, taken, List.findIdx?_append, none_used]
    by_cases full : live.length = b.nmax
    · have nothing : rest.take (b.nmax - live.length) = [] := by simp [full]
      rw [nothing, List.append_nil, ← full]
      obtain ⟨enlarged, larger⟩ := enlarge_holds live holds.used
      exact ⟨enlarged, rfl, larger⟩
    · cases rest with
      | nil => exact absurd rfl some
      | cons e rest =>
        have space : live.length < b.nmax := Nat.lt_of_le_of_ne fits full
        obtain ⟨n, room⟩ : ∃ n, b.nmax - live.length = n + 1 := Nat.exists_eq_succ_of_ne_zero (by omega)
        have first : (List.take (n + 1) (e :: rest)).findIdx? (·.key = 0) = Option.some 0 := by
          simp [List.findIdx?_cons, empty e (List.mem_cons_self ..)]
        rw [room, first]
        exact ⟨holds, Nat.zero_add _, space⟩

/-- An element in the place of the first empty one. -/
theorem Bucket.Holds.store (holds : b.Holds live) (room : live.length < b.nmax) {e : Elem} (used : e.key ≠ 0) :
    ({ b with el := b.el.set live.length e } : Bucket).Holds (live ++ [e]) := by
  obtain ⟨rest, split, -, empty⟩ := holds.split
  have length := holds.length
  rw [split, List.length_append] at length
  cases rest with
  | nil =>
    rw [List.length_nil] at length
    omega
  | cons first rest =>
    refine ⟨⟨rest, ?_, ?_, fun e mem => empty e (.tail _ mem)⟩, ?_, ?_⟩
    · simp [split]
    · rintro rfl
      simp only [List.length_cons, List.length_nil] at length
      omega
    · intro e' mem
      rcases List.mem_append.mp mem with old | new
      · exact holds.used e' old
      · rwa [List.mem_singleton.mp new]
    · rw [List.length_set]
      exact holds.length

theorem modify_length {α : Type*} (before after : List α) (e : α) (f : α → α) :
    (before ++ e :: after).modify before.length f = before ++ f e :: after := by
  induction before with
  | nil => rfl
  | cons first before ih => simpa using ih

theorem Bucket.Holds.modify {before after : List Elem} {e : Elem} (holds : b.Holds (before ++ e :: after)) {f : Elem → Elem}
    (same : (f e).key = e.key) :
    ({ b with el := b.el.modify before.length f } : Bucket).Holds (before ++ f e :: after) := by
  obtain ⟨rest, split, some, empty⟩ := holds.split
  refine ⟨⟨rest, ?_, some, empty⟩, ?_, ?_⟩
  · simp only [split, List.append_assoc, List.cons_append, modify_length]
  · have used := holds.used
    simp only [List.forall_mem_append, List.forall_mem_cons] at used ⊢
    rwa [same]
  · rw [List.length_modify]
    exact holds.length

/-- The elements behind the one that goes move to the left, and so does the first empty one. -/
theorem shift_append {first : Elem} {live : List Elem} (used : ∀ e ∈ live, e.key ≠ 0) {empty : Elem} (ends : empty.key = 0)
    (rest : List Elem) : shift (first :: (live ++ empty :: rest)) = live ++ empty :: empty :: rest := by
  induction live generalizing first with
  | nil => simp [shift, ends]
  | cons e live ih =>
    have stays : e.key ≠ 0 := used e (List.mem_cons_self ..)
    rw [List.cons_append, shift, if_pos stays, ih fun e mem => used e (.tail _ mem)]
    rfl

theorem Bucket.Holds.remove {before after : List Elem} {e : Elem} (holds : b.Holds (before ++ e :: after)) :
    ({ b with el := b.el.take before.length ++ shift (b.el.drop before.length) } : Bucket).Holds (before ++ after) := by
  obtain ⟨rest, split, some, empty⟩ := holds.split
  have used := holds.used
  have length := holds.length
  simp only [List.forall_mem_append, List.forall_mem_cons] at used
  cases rest with
  | nil => exact absurd rfl some
  | cons first rest =>
    have ends : first.key = 0 := empty first (List.mem_cons_self ..)
    have moved : b.el.take before.length ++ shift (b.el.drop before.length) =
        (before ++ after) ++ first :: first :: rest := by
      simp [split, shift_append used.2.2 ends]
    rw [moved]
    refine ⟨⟨_, rfl, List.cons_ne_nil _ _, ?_⟩, ?_, ?_⟩
    · rintro e (_ | ⟨_, mem⟩)
      · exact ends
      · exact empty e mem
    · exact List.forall_mem_append.mpr ⟨used.1, used.2.2⟩
    · rw [split] at length
      simp only [List.length_append, List.length_cons] at length ⊢
      omega

end Bucket

/-! ## The table -/

theorem hashfun_lt {n : ℕ} (key : Word) : hashfun (2 ^ n) key < 2 ^ n := by
  rw [hashfun, Nat.and_two_pow_sub_one_eq_mod]
  exact Nat.mod_lt _ (Nat.two_pow_pos n)

theorem isPowerOf2_two_pow (n : ℕ) : isPowerOf2 (2 ^ n) = true := by
  simp [isPowerOf2, Nat.and_two_pow_sub_one_eq_mod]

namespace CilkredMap

/-- The table of a map, whatever its size. -/
structure Table (m : CilkredMap) : Prop where
  buckets : m.buckets.length = m.nbuckets
  power : ∃ n, m.nbuckets = 2 ^ n
  holds : ∀ bp ∈ m.buckets, Holds bp (row bp)
  placed : Placed Elem.key (hashfun m.nbuckets) m.rows
  distinct : (m.elems.map Elem.key).Nodup
  nelem : m.nelem = m.elems.length
  views : ∀ e ∈ m.elems, e.view ≠ 0

/-- What is in the table for a key. -/
def find (m : CilkredMap) (key : Word) : Option Elem := entry Elem.key key m.elems

variable {m m' : CilkredMap} {key : Word} {p : Position} {e : Elem}

theorem Table.hash_lt (table : m.Table) (key : Word) : hashfun m.nbuckets key < m.buckets.length := by
  obtain ⟨n, power⟩ := table.power
  rw [table.buckets, power]
  exact hashfun_lt key

theorem Table.row_at (table : m.Table) (key : Word) :
    m.rows[hashfun m.nbuckets key]? = some (row (m.buckets.getD (hashfun m.nbuckets key) none)) ∧
      Holds (m.buckets.getD (hashfun m.nbuckets key) none) (row (m.buckets.getD (hashfun m.nbuckets key) none)) := by
  have bound := table.hash_lt key
  constructor
  · simp [rows, bound]
  · apply table.holds
    rw [List.getD_eq_getElem _ _ bound]
    exact List.getElem_mem bound

theorem Table.used (table : m.Table) {e : Elem} (mem : e ∈ m.elems) : e.key ≠ 0 := by
  obtain ⟨_, mem_row, mem⟩ := List.mem_flatten.mp mem
  obtain ⟨bp, mem_bucket, rfl⟩ := List.mem_map.mp mem_row
  have holds := table.holds bp mem_bucket
  cases bp with
  | none => cases mem
  | some b => exact Bucket.Holds.used holds e mem

/-- A bucket changes together with the count. -/
theorem Table.set (table : m.Table) (m' : CilkredMap) {i : ℕ} {bp : Option Bucket} {old new : List Elem}
    (buckets : m'.buckets = m.buckets.set i bp) (size : m'.nbuckets = m.nbuckets)
    (here : m.rows[i]? = some old) (holds : Holds bp new) (mine : ∀ e ∈ new, hashfun m.nbuckets e.key = i)
    (views : ∀ e ∈ new, e.view ≠ 0) (nelem : m'.nelem + old.length = m.nelem + new.length)
    (distinct : ∀ others, m.elems.Perm (old ++ others) → ((new ++ others).map Elem.key).Nodup) :
    m'.Table ∧ ∃ others, m.elems.Perm (old ++ others) ∧ m'.elems.Perm (new ++ others) := by
  have rows : m'.rows = m.rows.set i new := by rw [CilkredMap.rows, buckets, List.map_set, holds.row, CilkredMap.rows]
  obtain ⟨others, before, after⟩ := exists_flatten_set here new
  rw [← rows] at after
  refine ⟨⟨?_, ?_, ?_, ?_, ?_, ?_, ?_⟩, others, before, after⟩
  · rw [buckets, List.length_set, size, table.buckets]
  · rw [size]
    exact table.power
  · rw [buckets]
    intro bp' mem
    rcases List.mem_or_eq_of_mem_set mem with mem | rfl
    · exact table.holds bp' mem
    · rwa [holds.row]
  · rw [rows, size]
    exact table.placed.set mine
  · exact (after.map Elem.key).nodup_iff.mpr (distinct others before)
  · have length := before.length_eq
    have length' := after.length_eq
    have count := table.nelem
    rw [List.length_append] at length length'
    change m.elems.length = _ at length
    change m'.elems.length = _ at length'
    omega
  · intro e mem
    rcases List.mem_append.mp (after.mem_iff.mp mem) with mine | other
    · exact views e mine
    · exact table.views e (before.mem_iff.mpr (List.mem_append_right _ other))

/-- Everything but the table is the same. -/
def Keeps (m m' : CilkredMap) : Prop := m'.merging = m.merging ∧ m'.isLeftmost = m.isLeftmost

/-- The pointer leads to the element. -/
def At (m : CilkredMap) (p : Position) (e : Elem) : Prop :=
  ∃ b before after, m.buckets[p.1]? = some (some b) ∧ b.elems = before ++ e :: after ∧ p.2 = before.length

/-- What has become of the table after an insertion. -/
structure Inserted (m m' : CilkredMap) (p : Position) (e : Elem) : Prop where
  table : m'.Table
  keeps : m.Keeps m'
  size : m'.nbuckets = m.nbuckets
  perm : m'.elems.Perm (e :: m.elems)
  here : m'.At p e

/-- `insert_no_rehash` with the bucket that `grow` has made. -/
def store (m : CilkredMap) (b : Bucket) (j : ℕ) (e : Elem) : CilkredMap :=
  { m with
    buckets := m.buckets.set (hashfun m.nbuckets e.key) (some { b with el := b.el.set j e })
    nelem := m.nelem + 1 }

theorem insertNoRehash_eq {hb view : Word} (used : key ≠ 0) (some_view : view ≠ 0) :
    m.insertNoRehash key hb view =
      some (m.store (grow (m.buckets.getD (hashfun m.nbuckets key) none)).1
          (grow (m.buckets.getD (hashfun m.nbuckets key) none)).2 ⟨key, hb, view⟩,
        (hashfun m.nbuckets key, (grow (m.buckets.getD (hashfun m.nbuckets key) none)).2)) :=
  if_neg (not_or.mpr ⟨used, some_view⟩)

theorem insertNoRehash_spec (table : m.Table) {e : Elem} (used : e.key ≠ 0) (some_view : e.view ≠ 0)
    (fresh : m.find e.key = none) :
    ∃ m' p, m.insertNoRehash e.key e.hb e.view = some (m', p) ∧ m.Inserted m' p e := by
  refine ⟨_, _, insertNoRehash_eq used some_view, ?_⟩
  obtain ⟨here, holds⟩ := table.row_at e.key
  obtain ⟨grown, free, room⟩ := grow_spec holds
  rw [free]
  generalize (grow (m.buckets.getD (hashfun m.nbuckets e.key) none)).1 = b at grown room
  generalize row (m.buckets.getD (hashfun m.nbuckets e.key) none) = live at here grown room
  have stored : Holds (some _) (live ++ [e]) := grown.store room used
  have old : ∀ e ∈ live, e ∈ m.elems := fun _ => List.mem_flatten_of_mem (List.mem_of_getElem? here)
  have first (others : List Elem) : (live ++ [e] ++ others).Perm (e :: (live ++ others)) := by
    rw [List.append_assoc]
    exact List.perm_middle
  obtain ⟨table', others, before, after⟩ : (m.store b live.length e).Table ∧ _ := by
    apply table.set (m.store b live.length e) rfl rfl here stored
    · rintro e' mem
      rcases List.mem_append.mp mem with mem | mem
      · exact table.placed _ _ here e' mem
      · rw [List.mem_singleton.mp mem]
    · intro e' mem
      rcases List.mem_append.mp mem with mem | mem
      · exact table.views e' (old e' mem)
      · rwa [List.mem_singleton.mp mem]
    · simp only [store, List.length_append, List.length_singleton]
      omega
    · intro others perm
      apply (((first others).trans (perm.symm.cons e)).map Elem.key).nodup_iff.mpr
      refine List.nodup_cons.mpr ⟨fun mem => ?_, table.distinct⟩
      obtain ⟨e', mem, same⟩ := List.mem_map.mp mem
      exact entry_eq_none.mp fresh e' mem same
  refine ⟨table', ⟨rfl, rfl⟩, rfl, after.trans ((first others).trans (before.symm.cons e)), ?_⟩
  exact ⟨_, live, [], List.getElem?_set_self (table.hash_lt e.key), Bucket.Holds.elems stored, rfl⟩

theorem Table.find_row (table : m.Table) (key : Word) :
    m.find key = entry Elem.key key (row (m.buckets.getD (hashfun m.nbuckets key) none)) :=
  (entry_row table.placed table.distinct (table.row_at key).1).symm

theorem mem_of_find {e : Elem} (found : m.find key = some e) : e ∈ m.elems ∧ e.key = key := mem_of_entry found

theorem At.get_eq (at_p : m.At p e) (table : m.Table) : m.get p = e := by
  obtain ⟨b, before, after, here, elems, length⟩ := at_p
  have holds : b.Holds b.elems := table.holds (some b) (List.mem_of_getElem? here)
  simp only [get, List.getD_eq_getElem?_getD, here, Option.getD_some]
  rw [← List.getD_eq_getElem?_getD]
  apply holds.getD
  rw [elems, length]
  simp

theorem lookup_none (table : m.Table) (absent : m.find key = none) : m.lookup key = some none := by
  have nowhere := entry_eq_none.mp ((table.find_row key).symm.trans absent)
  cases bucket : m.buckets.getD (hashfun m.nbuckets key) none with
  | none => simp only [lookup, bucket]
  | some b =>
    rw [bucket] at nowhere
    have missing : b.elems.findIdx? (·.key = key) = none := by
      simpa [List.findIdx?_eq_none_iff, row] using nowhere
    simp only [lookup, bucket, missing]

theorem lookup_some (table : m.Table) (found : m.find key = some e) :
    ∃ p, m.lookup key = some (some p) ∧ m.At p e := by
  have in_row := (table.find_row key).symm.trans found
  cases bucket : m.buckets.getD (hashfun m.nbuckets key) none with
  | none =>
    rw [bucket] at in_row
    cases in_row
  | some b =>
    rw [bucket] at in_row
    obtain ⟨same, before, after, elems, others⟩ := List.find?_eq_some_iff_append.mp in_row
    have index : b.elems.findIdx? (·.key = key) = some before.length := by
      have none_before : before.findIdx? (·.key = key) = none := by
        simpa [List.findIdx?_eq_none_iff] using others
      have here : (e :: after).findIdx? (·.key = key) = some 0 := by
        simpa [List.findIdx?_cons] using same
      have split : b.elems = before ++ e :: after := elems
      rw [split, List.findIdx?_append, none_before, here]
      simp
    have at_e : m.At (hashfun m.nbuckets key, before.length) e := by
      refine ⟨b, before, after, ?_, elems, rfl⟩
      rw [List.getD_eq_getElem _ _ (table.hash_lt key)] at bucket
      rw [List.getElem?_eq_getElem (table.hash_lt key), bucket]
    have live : (b.el.getD before.length .zero).view ≠ 0 := by
      have value := at_e.get_eq table
      simp only [get, bucket] at value
      rw [value]
      exact table.views e (mem_of_find found).1
    refine ⟨_, ?_, at_e⟩
    simp only [lookup, bucket, index, if_neg live]

theorem onBucket_buckets {i : ℕ} {b : Bucket} (here : m.buckets[i]? = some (some b)) (change : List Elem → List Elem) :
    (m.onBucket i change).buckets = m.buckets.set i (some { b with el := change b.el }) := by
  rw [onBucket, List.modify_eq_set, here]
  rfl

theorem At.split (at_p : m.At p e) (table : m.Table) : ∃ b before after, m.buckets[p.1]? = some (some b) ∧
    b.Holds (before ++ e :: after) ∧ p.2 = before.length ∧ m.rows[p.1]? = some (before ++ e :: after) := by
  obtain ⟨b, before, after, here, elems, length⟩ := at_p
  refine ⟨b, before, after, here, elems ▸ table.holds (some b) (List.mem_of_getElem? here), length, ?_⟩
  rw [rows, List.getElem?_map, here]
  exact congrArg some elems

theorem At.mem (at_p : m.At p e) (table : m.Table) : e ∈ m.elems := by
  obtain ⟨b, before, after, -, -, -, here⟩ := at_p.split table
  exact List.mem_flatten_of_mem (List.mem_of_getElem? here) (List.mem_append_right _ (List.mem_cons_self ..))

theorem perm_first {before after : List Elem} (e : Elem) (others : List Elem) :
    (before ++ e :: after ++ others).Perm (e :: (before ++ after ++ others)) := by
  rw [List.append_assoc, List.append_assoc]
  exact List.perm_middle

theorem setView_spec (table : m.Table) (at_p : m.At p e) {view : Word} (some_view : view ≠ 0) :
    (m.setView p view).Table ∧ ∃ others, m.elems.Perm (e :: others) ∧
      (m.setView p view).elems.Perm ({ e with view } :: others) := by
  obtain ⟨b, before, after, here, holds, length, row_here⟩ := at_p.split table
  have stored : Holds (some { b with el := b.el.modify p.2 fun e => { e with view } }) (before ++ { e with view } :: after) := by
    rw [length]
    exact Bucket.Holds.modify holds rfl
  have buckets : (m.setView p view).buckets = _ := onBucket_buckets here _
  have old : ∀ e' ∈ before ++ e :: after, e' ∈ m.elems := fun _ => List.mem_flatten_of_mem (List.mem_of_getElem? row_here)
  have placed := table.placed _ _ row_here
  simp only [List.forall_mem_append, List.forall_mem_cons] at old placed
  have keys (others : List Elem) : ((before ++ { e with view } :: after) ++ others).map Elem.key =
      ((before ++ e :: after) ++ others).map Elem.key := by simp
  obtain ⟨table', others, perm, perm'⟩ : (m.setView p view).Table ∧ _ := by
    apply table.set _ buckets rfl row_here stored
    · simpa only [List.forall_mem_append, List.forall_mem_cons] using placed
    · simp only [List.forall_mem_append, List.forall_mem_cons]
      exact ⟨fun e mem => table.views e (old.1 e mem), some_view, fun e mem => table.views e (old.2.2 e mem)⟩
    · simp [setView, onBucket]
    · intro others perm
      rw [keys]
      exact (perm.map Elem.key).nodup_iff.mp table.distinct
  exact ⟨table', _, perm.trans (perm_first e others), perm'.trans (perm_first _ others)⟩

theorem remove_spec (table : m.Table) (at_p : m.At p e) :
    (m.remove p).Table ∧ m.elems.Perm (e :: (m.remove p).elems) := by
  obtain ⟨b, before, after, here, holds, length, row_here⟩ := at_p.split table
  have stored : Holds (some { b with el := b.el.take p.2 ++ shift (b.el.drop p.2) }) (before ++ after) := by
    rw [length]
    exact holds.remove
  have buckets : (m.remove p).buckets = _ := onBucket_buckets here fun elems => elems.take p.2 ++ shift (elems.drop p.2)
  have old : ∀ e' ∈ before ++ e :: after, e' ∈ m.elems := fun _ => List.mem_flatten_of_mem (List.mem_of_getElem? row_here)
  have placed := table.placed _ _ row_here
  simp only [List.forall_mem_append, List.forall_mem_cons] at old placed
  obtain ⟨table', others, perm, perm'⟩ : (m.remove p).Table ∧ _ := by
    apply table.set _ buckets rfl row_here stored
    · exact List.forall_mem_append.mpr ⟨placed.1, placed.2.2⟩
    · exact List.forall_mem_append.mpr ⟨fun e mem => table.views e (old.1 e mem), fun e mem => table.views e (old.2.2 e mem)⟩
    · have some_elem : 0 < m.nelem := by
        rw [table.nelem]
        exact List.length_pos_of_mem old.2.1
      simp only [remove, List.length_append, List.length_cons]
      omega
    · intro others perm
      have distinct := ((perm.trans (perm_first e others)).map Elem.key).nodup_iff.mp table.distinct
      exact (List.nodup_cons.mp distinct).2
  exact ⟨table', (perm.trans (perm_first e others)).trans (perm'.symm.cons e)⟩

/-- An invariant of every map that no operation is working on. -/
structure WellFormed (m : CilkredMap) : Prop where
  table : m.Table
  load : m.nelem ≤ m.nbuckets

/-- A map with new buckets. -/
def emptied (m : CilkredMap) (n : ℕ) : CilkredMap := { m with nbuckets := n, buckets := .replicate n none, nelem := 0 }

theorem emptied_rows (n : ℕ) : (m.emptied n).rows = .replicate n [] := by
  simp [rows, emptied, row]

theorem emptied_elems (n : ℕ) : (m.emptied n).elems = [] := by
  simp [elems, emptied_rows]

theorem makeBuckets_eq (n : ℕ) : m.makeBuckets (2 ^ n) = some (m.emptied (2 ^ n)) := if_pos (isPowerOf2_two_pow n)

theorem emptied_table (n : ℕ) : (m.emptied (2 ^ n)).Table where
  buckets := List.length_replicate
  power := ⟨n, rfl⟩
  holds := by
    intro bp mem
    rw [List.eq_of_mem_replicate mem]
    rfl
  placed := by
    rw [emptied_rows]
    exact Placed.replicate _
  distinct := by
    rw [emptied_elems]
    exact List.nodup_nil
  nelem := by
    rw [emptied_elems]
    rfl
  views := by
    intro e mem
    rw [emptied_elems] at mem
    cases mem

/-- The loop of `rehash`, with what is already in the new table. -/
theorem rehash_loop (olds : List Elem) {new : CilkredMap} (table : new.Table) (used : ∀ e ∈ olds, e.key ≠ 0 ∧ e.view ≠ 0)
    (distinct : ((new.elems ++ olds).map Elem.key).Nodup) :
    ∃ m', olds.foldlM (fun new oel => (new.insertNoRehash oel.key oel.hb oel.view).map (·.1)) new = some m' ∧
      m'.Table ∧ new.Keeps m' ∧ m'.nbuckets = new.nbuckets ∧ m'.elems.Perm (new.elems ++ olds) := by
  induction olds generalizing new with
  | nil => exact ⟨new, rfl, table, ⟨rfl, rfl⟩, rfl, by rw [List.append_nil]⟩
  | cons e olds ih =>
    obtain ⟨some_key, some_view⟩ := used e (List.mem_cons_self ..)
    have moved : (new.elems ++ e :: olds).Perm (e :: (new.elems ++ olds)) := List.perm_middle
    have distinct' := (moved.map Elem.key).nodup_iff.mp distinct
    have fresh : new.find e.key = none := by
      apply entry_eq_none.mpr
      intro e' mem same
      apply (List.nodup_cons.mp distinct').1
      rw [← same]
      exact List.mem_map_of_mem (List.mem_append_left _ mem)
    obtain ⟨new', p, inserts, inserted⟩ := insertNoRehash_spec table some_key some_view fresh
    have perm : (new'.elems ++ olds).Perm (e :: (new.elems ++ olds)) := inserted.perm.append_right olds
    obtain ⟨m', loop, table', keeps, size, perm'⟩ := ih inserted.table (fun e mem => used e (.tail _ mem))
      ((perm.map Elem.key).nodup_iff.mpr distinct')
    refine ⟨m', ?_, table', ?_, size.trans inserted.size, (perm'.trans perm).trans moved.symm⟩
    · rw [List.foldlM_cons, inserts]
      exact loop
    · exact ⟨keeps.1.trans inserted.keeps.1, keeps.2.trans inserted.keeps.2⟩

theorem rehash_spec (table : m.Table) : ∃ m', m.rehash = some m' ∧ m'.Table ∧ m.Keeps m' ∧
    m'.nbuckets = 2 * m.nbuckets ∧ m'.elems.Perm m.elems := by
  obtain ⟨n, power⟩ := table.power
  have double : nextsz m.nbuckets = 2 ^ (n + 1) := by rw [nextsz, power, Nat.pow_succ, Nat.mul_comm]
  obtain ⟨m', loop, table', keeps, size, perm⟩ := rehash_loop m.elems (emptied_table (m := m) (n + 1))
    (fun e mem => ⟨table.used mem, table.views e mem⟩) (by simpa [emptied_elems] using table.distinct)
  rw [emptied_elems, List.nil_append] at perm
  have count : m'.nelem = m.nelem := by rw [table'.nelem, table.nelem, perm.length_eq]
  refine ⟨m', ?_, table', keeps, ?_, perm⟩
  · simp only [rehash, double, makeBuckets_eq, Option.bind_eq_bind, Option.bind_some, loop, count, if_true]
  · rw [size, emptied, ← double, nextsz]

/-- One doubling is enough for one more element. -/
theorem rehashAndInsert_spec (wf : m.WellFormed) {e : Elem} (used : e.key ≠ 0) (some_view : e.view ≠ 0)
    (fresh : m.find e.key = none) : ∃ m' p, m.rehashAndInsert e.key e.hb e.view = some (m', p) ∧ m'.WellFormed ∧
      m.Keeps m' ∧ m'.elems.Perm (e :: m.elems) ∧ m'.At p e := by
  by_cases full : m.needRehash = true
  · obtain ⟨new, rehashed, table, keeps, size, perm⟩ := rehash_spec wf.table
    have fresh' : new.find e.key = none := (entry_perm table.distinct perm).trans fresh
    obtain ⟨m', p, inserts, inserted⟩ := insertNoRehash_spec table used some_view fresh'
    refine ⟨m', p, ?_, ⟨inserted.table, ?_⟩, ?_, inserted.perm.trans (perm.cons e), inserted.here⟩
    · simp only [rehashAndInsert, full, if_true, rehashed, Option.bind_eq_bind, Option.bind_some, inserts]
    · have count := inserted.perm.length_eq
      have load := wf.load
      obtain ⟨n, power⟩ := wf.table.power
      have pos := Nat.two_pow_pos n
      rw [List.length_cons, perm.length_eq, ← wf.table.nelem] at count
      rw [inserted.table.nelem, inserted.size, size]
      omega
    · exact ⟨inserted.keeps.1.trans keeps.1, inserted.keeps.2.trans keeps.2⟩
  · obtain ⟨m', p, inserts, inserted⟩ := insertNoRehash_spec wf.table used some_view fresh
    refine ⟨m', p, ?_, ⟨inserted.table, ?_⟩, inserted.keeps, inserted.perm, inserted.here⟩
    · simp only [rehashAndInsert, full, Bool.false_eq_true, if_false, Option.bind_eq_bind, Option.bind_some, inserts]
    · have count := inserted.perm.length_eq
      have room : minsz m.nelem ≤ m.nbuckets := by simpa [needRehash] using full
      rw [List.length_cons, ← wf.table.nelem] at count
      rw [inserted.table.nelem, inserted.size]
      unfold minsz at room
      omega

end CilkredMap

end CilkArtifact.Runtime.Reducers
