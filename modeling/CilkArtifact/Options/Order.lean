import CilkArtifact.Options.GetOptions
import Mathlib.Data.List.Nodup

/-! When the order of the options on the command line matters. -/
namespace CilkArtifact.Options
variable {D : Type} {c : Conversions D} {table : List Entry} {groups : List Group} {entry : Entry}

/-- The arguments when the groups whose specifiers are in `done` have been dealt with. -/
def render (done : List String) (groups : List Group) : List String :=
  groups.flatMap fun group => if group.spec ∈ done then group.blanked else group.tokens

theorem render_append (done : List String) (l r : List Group) : render done (l ++ r) = render done l ++ render done r :=
  List.flatMap_append

theorem render_cons (done : List String) (group : Group) (l : List Group) :
    render done (group :: l) = (if group.spec ∈ done then group.blanked else group.tokens) ++ render done l :=
  List.flatMap_cons

theorem render_congr {done done' : List String} (same : ∀ group ∈ groups, group.spec ∈ done ↔ group.spec ∈ done') :
    render done groups = render done' groups := by
  induction groups with
  | nil => rfl
  | cons group l ih =>
    have rest := ih fun other member => same other (List.mem_cons_of_mem _ member)
    have first := same group (List.mem_cons_self ..)
    rw [render_cons, render_cons, rest]
    simp only [first]

/-- Values are no specifiers. -/
theorem spec_of_token {type : OptType} {group : Group} (fits : group.Fits table type) {spec : String}
    (known : spec ∈ table.map Entry.spec) (member : spec ∈ group.tokens) : group.spec = spec := by
  cases group with
  | value own text =>
    rcases List.mem_cons.mp member with same | inTail
    · exact same.symm
    · rw [List.mem_singleton.mp inTail] at known
      exact absurd known fits.2
  | flag own => exact (List.mem_singleton.mp member).symm
  | bare own => exact (List.mem_singleton.mp member).symm
  | sized own size =>
    rcases List.mem_cons.mp member with same | inTail
    · exact same.symm
    · rw [List.mem_singleton.mp inTail] at known
      exact absurd known fits.2

/-- A specifier stands on the command line only where its group does. -/
theorem not_mem_render (line : ∀ group ∈ groups, ∃ entry ∈ table, entry.spec = group.spec ∧ group.Fits table entry.type)
    {spec : String} (known : spec ∈ table.map Entry.spec) (nonempty : spec ≠ "")
    (absent : ∀ group ∈ groups, group.spec ≠ spec) (done : List String) : spec ∉ render done groups := by
  intro member
  obtain ⟨group, inGroups, token⟩ := List.mem_flatMap.mp member
  obtain ⟨entry, _, _, fits⟩ := line group inGroups
  by_cases isDone : group.spec ∈ done
  · rw [if_pos isDone] at token
    obtain ⟨_, _, blank⟩ := List.mem_map.mp token
    exact nonempty blank.symm
  · rw [if_neg isDone] at token
    exact absent group inGroups (spec_of_token fits known token)

/-! ### Expected values -/

theorem expected_mem (nodup : (groups.map Group.spec).Nodup) {group : Group} (member : group ∈ groups)
    (same : group.spec = entry.spec) : expected c groups entry = some (group.assigned c entry.type) := by
  cases found : groups.find? (fun group => group.spec = entry.spec) with
  | none =>
    have other := List.find?_eq_none.mp found group member
    simp [same] at other
  | some first =>
    have spec : first.spec = entry.spec := by simpa using List.find?_some found
    have equal : first = group :=
      List.inj_on_of_nodup_map nodup (List.mem_of_find?_eq_some found) member (spec.trans same.symm)
    rw [expected, found, equal]

theorem expected_absent (absent : ∀ group ∈ groups, group.spec ≠ entry.spec) :
    expected c groups entry = unset entry.type := by
  have found : groups.find? (fun group => group.spec = entry.spec) = none :=
    List.find?_eq_none.mpr fun group member => by simpa using absent group member
  rw [expected, found]

theorem expected_perm {groups' : List Group} (nodup : (groups.map Group.spec).Nodup) (perm : groups.Perm groups') :
    expected c groups' entry = expected c groups entry := by
  by_cases given : ∃ group ∈ groups, group.spec = entry.spec
  · obtain ⟨group, member, same⟩ := given
    rw [expected_mem nodup member same,
      expected_mem ((perm.map Group.spec).nodup_iff.mp nodup) (perm.mem_iff.mp member) same]
  · have absent : ∀ group ∈ groups, group.spec ≠ entry.spec := fun group member same => given ⟨group, member, same⟩
    rw [expected_absent absent, expected_absent fun group member => absent group (perm.mem_iff.mpr member)]

/-! ### One round -/

theorem blanked_head (group : Group) : ∃ rest, group.blanked = "" :: rest := by
  cases group <;> exact ⟨_, rfl⟩

/-- A search deals with the group of its specifier, as long as nothing is left behind a bare benchmark
option. -/
theorem handle_render (ok : TableOk table) (line : LineOk table groups) (known : entry ∈ table) {done : List String}
    (fresh : entry.spec ∉ done) (last : ∀ group ∈ groups, group.isBare = true → group.spec = entry.spec →
      ∀ other ∈ groups, other ≠ group → other.spec ∈ done) :
    handle c entry (render done groups) = (render (done ++ [entry.spec]) groups, expected c groups entry) := by
  have nonempty := ok.nonempty entry known
  have inTable : entry.spec ∈ table.map Entry.spec := List.mem_map_of_mem known
  by_cases given : ∃ group ∈ groups, group.spec = entry.spec
  · obtain ⟨group, member, same⟩ := given
    obtain ⟨l, r, rfl⟩ := List.append_of_mem member
    have nodup := line.nodup
    rw [List.map_append, List.map_cons, List.nodup_middle, List.nodup_cons, same] at nodup
    have absentL : ∀ other ∈ l, other.spec ≠ entry.spec := fun other inL equal =>
      nodup.1 (List.mem_append_left _ (List.mem_map.mpr ⟨other, inL, equal⟩))
    have absentR : ∀ other ∈ r, other.spec ≠ entry.spec := fun other inR equal =>
      nodup.1 (List.mem_append_right _ (List.mem_map.mpr ⟨other, inR, equal⟩))
    have missingL := not_mem_render (fun other inL => line.fits other (List.mem_append_left _ inL)) inTable nonempty
      absentL done
    have missingR := not_mem_render
      (fun other inR => line.fits other (List.mem_append_right _ (List.mem_cons_of_mem _ inR)))
      inTable nonempty absentR done
    obtain ⟨entry', inTable', spec', fits⟩ := line.fits group member
    obtain rfl : entry' = entry := List.inj_on_of_nodup_map ok.nodup inTable' known (spec'.trans same)
    have next : group.isBare = true → ∀ x ∈ (render done r).head?, x = "" := by
      intro isBare x first
      cases r with
      | nil => cases first
      | cons other r =>
        have different : other ≠ group := by
          rintro rfl
          exact absentR other (List.mem_cons_self ..) same
        have isDone := last group member isBare same other (by simp) different
        obtain ⟨rest, blank⟩ := blanked_head other
        rw [render_cons, if_pos isDone, blank] at first
        simpa using first.symm
    have renderL : render (done ++ [entry'.spec]) l = render done l :=
      render_congr fun other inL => by simp [absentL other inL]
    have renderR : render (done ++ [entry'.spec]) r = render done r :=
      render_congr fun other inR => by simp [absentR other inR]
    rw [render_append, render_append, render_cons, render_cons, renderL, renderR, if_neg (by rwa [same]),
      if_pos (by simp [same]), expected_mem line.nodup member same, handle, search_append missingL,
      search_group same fits nonempty missingR next]
  · have absent : ∀ group ∈ groups, group.spec ≠ entry.spec := fun group member same => given ⟨group, member, same⟩
    have missing := not_mem_render line.fits inTable nonempty absent done
    rw [handle, search_missing missing, expected_absent absent]
    congr 1
    refine render_congr fun group member => ?_
    simp [absent group member]

/-! ### Whole command lines -/

/-- No bare benchmark option is given together with an option whose specifier comes later in the table. -/
def BareLast (table : List Entry) (groups : List Group) : Prop :=
  ∀ group ∈ groups, group.isBare = true → ∀ other ∈ groups, ¬ [group.spec, other.spec].Sublist (table.map Entry.spec)

theorem LineOk.known (line : LineOk table groups) {group : Group} (member : group ∈ groups) :
    group.spec ∈ table.map Entry.spec := by
  obtain ⟨entry, known, same, _⟩ := line.fits group member
  exact List.mem_map.mpr ⟨entry, known, same⟩

theorem handleAll_render (ok : TableOk table) (line : LineOk table groups) (bareLast : BareLast table groups)
    (rest : List Entry) : ∀ before, table = before ++ rest →
    handleAll c rest (render (before.map Entry.spec) groups) =
      (render (table.map Entry.spec) groups, rest.map (expected c groups)) := by
  induction rest with
  | nil =>
    intro before split
    rw [split, List.append_nil]
    rfl
  | cons entry rest ih =>
    intro before split
    have known : entry ∈ table := by simp [split]
    have specs : table.map Entry.spec = before.map Entry.spec ++ entry.spec :: rest.map Entry.spec := by simp [split]
    have fresh : entry.spec ∉ before.map Entry.spec := by
      have nodup := ok.nodup
      rw [specs, List.nodup_middle, List.nodup_cons, List.mem_append, not_or] at nodup
      exact nodup.1.1
    have last : ∀ group ∈ groups, group.isBare = true → group.spec = entry.spec →
        ∀ other ∈ groups, other ≠ group → other.spec ∈ before.map Entry.spec := by
      intro group member isBare same other otherMember different
      have inTable := line.known otherMember
      rw [specs, List.mem_append, List.mem_cons] at inTable
      rcases inTable with earlier | own | later
      · exact earlier
      · exact absurd (List.inj_on_of_nodup_map line.nodup otherMember member (own.trans same.symm)) different
      · refine absurd ?_ (bareLast group member isBare other otherMember)
        rw [specs, same]
        exact ((List.singleton_sublist.mpr later).cons_cons entry.spec).trans (List.sublist_append_right ..)
    have first := handle_render (c := c) ok line known fresh last
    have next := ih (before ++ [entry]) (by simp [split])
    rw [List.map_append, List.map_singleton] at next
    simp only [handleAll, first, next, List.map_cons]

theorem render_all (line : LineOk table groups) : (render (table.map Entry.spec) groups).filter (· ≠ "") = [] := by
  rw [List.filter_eq_nil_iff]
  intro x member
  obtain ⟨group, inGroups, token⟩ := List.mem_flatMap.mp member
  rw [if_pos (line.known inGroups)] at token
  obtain ⟨_, _, blank⟩ := List.mem_map.mp token
  simp [← blank]

theorem tokens_eq_render (groups : List Group) : groups.flatMap Group.tokens = render [] groups := by simp [render]

theorem getOptions_expected (ok : TableOk table) (line : LineOk table groups) (bareLast : BareLast table groups) :
    getOptions c table (groups.flatMap Group.tokens) = (table.map (expected c groups), []) := by
  have run := handleAll_render (c := c) ok line bareLast table [] rfl
  rw [List.map_nil, ← tokens_eq_render] at run
  simp only [getOptions, run, render_all line]

/-! ### Lost options -/

theorem scanPairs_subset (spec : String) (assign : String → Value D) (last : Option (Value D)) (x : String)
    (l : List String) (v : Option (Value D)) : ∀ y ∈ (scanPairs spec assign last x l v).1, y ∈ x :: l ∨ y = "" := by
  induction l generalizing x v with
  | nil =>
    intro y member
    rw [scanPairs] at member
    split at member
    · exact .inr (List.mem_singleton.mp member)
    · exact .inl member
  | cons next l ih =>
    intro y member
    rw [scanPairs] at member
    split at member
    · rcases List.mem_cons.mp member with blank | inRest
      · exact .inr blank
      · rcases ih _ _ y inRest with known | blank
        · rcases List.mem_cons.mp known with blank | inL
          · exact .inr blank
          · exact .inl (List.mem_cons_of_mem _ (List.mem_cons_of_mem _ inL))
        · exact .inr blank
    · rcases List.mem_cons.mp member with same | inRest
      · exact .inl (List.mem_cons.mpr (.inl same))
      · exact (ih _ _ y inRest).imp_left (List.mem_cons_of_mem _)

theorem scanBool_subset (spec : String) (l : List String) (v : Option (Value D)) :
    ∀ y ∈ (scanBool spec l v).1, y ∈ l ∨ y = "" := by
  induction l generalizing v with
  | nil => exact fun y member => .inl member
  | cons x l ih =>
    intro y member
    rw [scanBool] at member
    split at member
    · rcases List.mem_cons.mp member with blank | inRest
      · exact .inr blank
      · exact (ih _ y inRest).imp_left (List.mem_cons_of_mem _)
    · rcases List.mem_cons.mp member with same | inRest
      · exact .inl (List.mem_cons.mpr (.inl same))
      · exact (ih _ y inRest).imp_left (List.mem_cons_of_mem _)

/-- A search only clears arguments. -/
theorem search_subset (c : Conversions D) (entry : Entry) (v : Option (Value D)) (l : List String) :
    ∀ y ∈ (search c entry v l).1, y ∈ l ∨ y = "" := by
  have pairs (assign : String → Value D) (last : Option (Value D)) :
      ∀ y ∈ (scanAll (scanPairs entry.spec assign last) v l).1, y ∈ l ∨ y = "" := by
    cases l with
    | nil => exact fun y member => .inl member
    | cons x l => exact scanPairs_subset entry.spec assign last x l v
  obtain ⟨spec, type⟩ := entry
  cases type with
  | bool => exact scanBool_subset spec l v
  | _ => exact pairs _ _

theorem search_keeps_missing {spec : String} {l : List String} (nonempty : spec ≠ "") (missing : spec ∉ l) (entry : Entry)
    (v : Option (Value D)) : spec ∉ (search c entry v l).1 := by
  intro member
  rcases search_subset c entry v l spec member with inL | blank
  · exact missing inL
  · exact nonempty blank

theorem unset_ne_assigned {type : OptType} {group : Group} (fits : group.Fits table type) :
    unset type ≠ some (group.assigned c type) := by
  cases group with
  | value spec text =>
    obtain ⟨kind, _⟩ := fits
    cases type <;> simp_all [unset]
  | flag spec =>
    cases fits
    simp [unset, Group.assigned]
  | bare spec =>
    cases fits
    simp [unset, Group.assigned]
  | sized spec size =>
    obtain ⟨rfl, _⟩ := fits
    cases size <;> simp [unset, Group.assigned]

/-- An option that has been lost from the command line is not set. -/
theorem handleAll_missing (nodup : (groups.map Group.spec).Nodup) {group : Group} (member : group ∈ groups)
    (same : group.spec = entry.spec) (fits : group.Fits table entry.type) (nonempty : entry.spec ≠ "")
    (rest : List Entry) : ∀ args : List String, entry ∈ rest → entry.spec ∉ args →
    (handleAll c rest args).2 ≠ rest.map (expected c groups) := by
  induction rest with
  | nil =>
    intro args impossible
    cases impossible
  | cons first rest ih =>
    intro args inRest missing equal
    rw [handleAll, List.map_cons] at equal
    obtain ⟨head, others⟩ := List.cons.inj equal
    rcases List.mem_cons.mp inRest with rfl | later
    · rw [handle, search_missing missing, expected_mem nodup member same] at head
      exact unset_ne_assigned fits head
    · exact ih _ later (search_keeps_missing nonempty missing first _) others

/-- The search for a bare benchmark option loses the option behind it. -/
theorem handleAll_lost (nodup : (groups.map Group.spec).Nodup) {group : Group} (member : group ∈ groups)
    (same : group.spec = entry.spec) (fits : group.Fits table entry.type) (nonempty : entry.spec ≠ "") {spec : String}
    {rest : List Entry} (later : entry ∈ rest) (before : List Entry) : ∀ l : List String,
    ((before ++ ⟨spec, .benchmark⟩ :: rest).map Entry.spec).Nodup → entry.spec ∉ l →
    (handleAll c (before ++ ⟨spec, .benchmark⟩ :: rest) (spec :: entry.spec :: l)).2 ≠
      (before ++ ⟨spec, .benchmark⟩ :: rest).map (expected c groups) := by
  induction before with
  | nil =>
    intro l _ missing equal
    rw [List.nil_append, handleAll, List.map_cons] at equal
    refine handleAll_missing nodup member same fits nonempty rest _ later ?_ (List.cons.inj equal).2
    -- Both arguments have been cleared.
    have found : handle c ⟨spec, .benchmark⟩ (spec :: entry.spec :: l) =
        ("" :: (search c ⟨spec, .benchmark⟩ (some (.int (benchmarkSize entry.spec))) ("" :: l)).1,
          (search c ⟨spec, .benchmark⟩ (some (.int (benchmarkSize entry.spec))) ("" :: l)).2) := if_pos rfl
    rw [found, List.mem_cons, not_or]
    refine ⟨nonempty, search_keeps_missing nonempty ?_ _ _⟩
    rw [List.mem_cons, not_or]
    exact ⟨nonempty, missing⟩
  | cons first before ih =>
    intro l nodupSpecs missing equal
    rw [List.cons_append, List.map_cons, List.nodup_cons] at nodupSpecs
    have notSpec : spec ≠ first.spec := by
      rintro rfl
      exact nodupSpecs.1 (by simp)
    have notEntry : entry.spec ≠ first.spec := by
      intro equal
      exact nodupSpecs.1 (by rw [← equal]; simp [List.mem_map_of_mem later])
    rw [List.cons_append, handleAll, handle, search_pass notSpec, search_pass notEntry, List.map_cons] at equal
    exact ih _ nodupSpecs.2 (search_keeps_missing nonempty missing first _) (List.cons.inj equal).2

theorem mem_of_pair_sublist {a b : String} {l r : List String} (nodup : (l ++ a :: r).Nodup)
    (pair : [a, b].Sublist (l ++ a :: r)) : b ∈ r := by
  rw [List.nodup_middle, List.nodup_cons, List.mem_append, not_or] at nodup
  obtain ⟨first, second, split, left, right⟩ := List.sublist_append_iff.mp pair
  cases first with
  | nil =>
    rw [List.nil_append] at split
    subst split
    cases right with
    | cons _ later => exact absurd (later.subset (List.mem_cons_self ..)) nodup.1.2
    | cons_cons _ tail => exact List.singleton_sublist.mp tail
  | cons x first =>
    have same : a = x := by simpa using congrArg List.head? split
    exact absurd (left.subset (same ▸ List.mem_cons_self ..)) nodup.1.1

theorem LineOk.perm {groups' : List Group} (line : LineOk table groups) (perm : groups.Perm groups') :
    LineOk table groups' :=
  ⟨(perm.map Group.spec).nodup_iff.mp line.nodup, fun group member => line.fits group (perm.mem_iff.mpr member)⟩

theorem tokens_cons (group : Group) : group.tokens = group.spec :: group.tokens.tail := by
  cases group <;> rfl

/-- The value of a group is not its specifier. -/
theorem spec_not_mem_tail {type : OptType} {group : Group} (fits : group.Fits table type)
    (known : group.spec ∈ table.map Entry.spec) : group.spec ∉ group.tokens.tail := by
  intro member
  cases group with
  | value own text => exact fits.2 (List.mem_singleton.mp member ▸ known)
  | flag own => cases member
  | bare own => cases member
  | sized own size => exact fits.2 (List.mem_singleton.mp member ▸ known)

/-- The group that is lost when it stands behind a bare benchmark option. -/
theorem order_matters (ok : TableOk table) (line : LineOk table groups) {group other : Group} (member : group ∈ groups)
    (isBare : group.isBare = true) (otherMember : other ∈ groups)
    (later : [group.spec, other.spec].Sublist (table.map Entry.spec)) :
    ∃ groups', groups.Perm groups' ∧
      (getOptions c table (groups'.flatMap Group.tokens)).1 ≠ table.map (expected c groups) := by
  obtain ⟨first, firstKnown, firstSame, firstFits⟩ := line.fits group member
  obtain ⟨entry, known, same, fits⟩ := line.fits other otherMember
  obtain ⟨before, rest, rfl⟩ := List.append_of_mem firstKnown
  have specs := ok.nodup
  rw [List.map_append, List.map_cons, firstSame] at specs later
  have inRest : other.spec ∈ rest.map Entry.spec := mem_of_pair_sublist specs later
  have different : other ≠ group := by
    rintro rfl
    rw [List.nodup_middle, List.nodup_cons] at specs
    exact specs.1 (List.mem_append_right _ inRest)
  obtain ⟨entry', inRest', same'⟩ := List.mem_map.mp inRest
  obtain rfl : entry' = entry :=
    List.inj_on_of_nodup_map ok.nodup (by simp [inRest']) known (same'.trans same.symm)
  -- The two groups come first.
  have perm : groups.Perm (group :: other :: (groups.erase group).erase other) :=
    (List.perm_cons_erase member).trans
      ((List.perm_cons_erase ((List.mem_erase_of_ne different).mpr otherMember)).cons group)
  refine ⟨_, perm, ?_⟩
  have line' := line.perm perm
  obtain ⟨spec, type⟩ := first
  cases group with
  | bare own =>
    cases firstFits
    cases firstSame
    have nodup' := line'.nodup
    rw [List.map_cons, List.map_cons, List.nodup_cons, List.nodup_cons] at nodup'
    have missing : entry'.spec ∉ other.tokens.tail ++ render [] ((groups.erase (.bare spec)).erase other) := by
      rw [List.mem_append, not_or, same]
      refine ⟨spec_not_mem_tail fits (line.known otherMember), ?_⟩
      refine not_mem_render (fun group member => line'.fits group (by simp [member])) (line.known otherMember)
        (same ▸ ok.nonempty entry' known)
        (fun group member equal => nodup'.2.1 (List.mem_map.mpr ⟨group, member, equal⟩)) []
    have start : (Group.bare spec :: other :: (groups.erase (.bare spec)).erase other).flatMap Group.tokens =
        spec :: entry'.spec :: (other.tokens.tail ++ render [] ((groups.erase (.bare spec)).erase other)) := by
      rw [List.flatMap_cons, List.flatMap_cons, tokens_cons other, same, tokens_eq_render]
      rfl
    rw [start, getOptions]
    exact handleAll_lost line.nodup otherMember same.symm fits (ok.nonempty entry' known) inRest' before _ ok.nodup missing
  | _ => cases isBare

/-- All orders of the groups set the same variables to the same values and report nothing, exactly if no bare
benchmark option is given together with an option whose specifier comes later in the table. -/
theorem getOptions_order_iff (c : Conversions D) (ok : TableOk table) (line : LineOk table groups) :
    (∀ groups', groups.Perm groups' →
      getOptions c table (groups'.flatMap Group.tokens) = (table.map (expected c groups), [])) ↔
      BareLast table groups := by
  constructor
  · intro anyOrder group member isBare other otherMember later
    obtain ⟨groups', perm, lost⟩ := order_matters (c := c) ok line member isBare otherMember later
    exact lost (congrArg Prod.fst (anyOrder groups' perm))
  · intro bareLast groups' perm
    have bareLast' : BareLast table groups' := fun group member isBare other otherMember =>
      bareLast group (perm.mem_iff.mpr member) isBare other (perm.mem_iff.mpr otherMember)
    rw [getOptions_expected ok (line.perm perm) bareLast']
    congr 1
    exact List.map_congr_left fun entry _ => expected_perm line.nodup perm

/-- The table of `cilksort`. -/
def cilksortTable : List Entry := [⟨"-n", .long⟩, ⟨"-c", .bool⟩, ⟨"-benchmark", .benchmark⟩, ⟨"-h", .bool⟩]

theorem cilksortTable_ok : TableOk cilksortTable := by
  constructor
  · decide
  · simp [cilksortTable]

/-- Conversions for command lines without numbers. -/
def noNumbers : Conversions Unit := ⟨fun _ => 0, fun _ => (), fun _ => 0⟩

/-- `-c` and `-benchmark` can be given in both orders. -/
theorem getOptions_order_check :
    getOptions noNumbers cilksortTable ["-c", "-benchmark"] =
        (cilksortTable.map (expected noNumbers [.flag "-c", .bare "-benchmark"]), []) ∧
      getOptions noNumbers cilksortTable ["-benchmark", "-c"] =
        (cilksortTable.map (expected noNumbers [.flag "-c", .bare "-benchmark"]), []) := by
  have line : LineOk cilksortTable [.flag "-c", .bare "-benchmark"] := by
    constructor
    · decide
    · simp [cilksortTable, Group.spec, Group.Fits]
  have bareLast : BareLast cilksortTable [.flag "-c", .bare "-benchmark"] := by
    unfold BareLast
    decide
  have anyOrder := (getOptions_order_iff noNumbers cilksortTable_ok line).mpr bareLast
  exact ⟨anyOrder _ (List.Perm.refl _), anyOrder _ (List.Perm.swap ..)⟩

/-- The bare `-benchmark` clears a `-h` behind it, so the variable for `-h` stays 0. -/
theorem getOptions_order_help :
    LineOk cilksortTable [.flag "-h", .bare "-benchmark"] ∧
      getOptions noNumbers cilksortTable ["-h", "-benchmark"] =
        ([none, some (.int 0), some (.int 2), some (.int 1)], []) ∧
      getOptions noNumbers cilksortTable ["-benchmark", "-h"] =
        ([none, some (.int 0), some (.int 2), some (.int 0)], []) := by
  refine ⟨⟨by decide, ?_⟩, by decide, by decide⟩
  simp [cilksortTable, Group.spec, Group.Fits]

end CilkArtifact.Options
