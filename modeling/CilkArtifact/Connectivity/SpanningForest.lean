import CilkArtifact.Connectivity.UniteVariants

/-! The edges whose union hooked a root are at any time a forest that spans the trees, and when all unions have returned
one that spans the components of the graph; the spanning forest algorithm writes them down. -/
namespace CilkArtifact.Connectivity
open Forest Threads Components

section Forested
variable {ι : Type*} {p q : Parents} {edges : ι → ℕ × ℕ} {results : ι → Option ℕ}

/-- The edges whose union has hooked a root. -/
def made (results : ι → Option ℕ) : Set ι := {i | ∃ w, results i = some w}

/-- The unions have changed the trees of `p` to those of `q`. -/
structure Forested (p : Parents) (edges : ι → ℕ × ℕ) (results : ι → Option ℕ) (q : Parents) : Prop where
  linked : ∀ a b, Joined q a b ↔ Linked (Joined p) edges (made results) a b
  independent : Independent (Joined p) edges (made results)
  hooked : ∀ w, (∃ i, results i = some w) ↔ p w = w ∧ q w ≠ w
  injective : ∀ i j w, results i = some w → results j = some w → i = j
  roots : ∀ w, q w = w → p w = w

theorem Forested.start (p : Parents) (edges : ι → ℕ × ℕ) : Forested p edges (fun _ => none) p := by
  have none_made : made (fun _ : ι => none) = ∅ := by simp [made]
  constructor
  · intro a b
    rw [none_made, linked_empty (joined_equivalence p)]
  · rw [none_made]
    exact independent_empty
  · simp
  · rintro i j w ⟨⟩
  · exact fun _ => id

theorem Forested.keep {q' : Parents} (forested : Forested p edges results q) (descending : Descending q)
    (descending' : Descending q') (same : ∀ v, root q' v = root q v) : Forested p edges results q' := by
  constructor
  · intro a b
    rw [← forested.linked, Forest.Joined, Forest.Joined, same, same]
  · exact forested.independent
  · intro w
    rw [forested.hooked, Ne, Ne, ← root_eq_self descending, ← root_eq_self descending', same]
  · exact forested.injective
  · intro w fixed
    rw [← root_eq_self descending', same, root_eq_self descending] at fixed
    exact forested.roots w fixed

variable [DecidableEq ι]

theorem made_update {i : ι} {w : ℕ} : made (Function.update results i (some w)) = insert i (made results) := by
  ext j
  by_cases same : j = i
  · simp [made, same]
  · simp [made, same]

theorem Forested.hook {i : ι} {u v : ℕ} (forested : Forested p edges results q) (descending : Descending q)
    (fresh : results i = none) (fixed : q u = u) (lower : v < u)
    (ends : Ends (edges i) q u v) :
    Forested p edges (Function.update results i (some u)) (Function.update q u v) := by
  have equivalence := joined_equivalence q
  have same_linked : Forest.Joined q = Linked (Joined p) edges (made results) := by
    ext a b
    exact forested.linked a b
  have apart : ¬ Joined q (edges i).1 (edges i).2 := by
    have other : ¬ Joined q u v := by
      intro same
      rw [Forest.Joined, root_of_fixed fixed] at same
      exact ((Forest.root_le descending v).trans_lt lower).ne same.symm
    rcases ends with ⟨first, second⟩ | ⟨first, second⟩
    · exact fun same => other (first.trans (same.trans second.symm))
    · exact fun same => other (first.trans (same.symm.trans second.symm))
  have nobody (j : ι) : results j ≠ some u := fun own => ((forested.hooked u).mp ⟨j, own⟩).2 fixed
  constructor
  · intro a b
    rw [joined_hook descending fixed lower, made_update, linked_insert, ← same_linked]
    rcases ends with ⟨first, second⟩ | ⟨first, second⟩
    · exact glued_congr equivalence first second
    · exact (glued_congr equivalence first second).trans glued_swap
  · rw [made_update]
    exact forested.independent.insert (same_linked ▸ apart)
  · intro w
    by_cases here : w = u
    · subst here
      have child : Function.update q w v w ≠ w := by
        rw [Function.update_self]
        exact lower.ne
      exact ⟨fun _ => ⟨forested.roots w fixed, child⟩, fun _ => ⟨i, Function.update_self ..⟩⟩
    · rw [Function.update_of_ne here, ← forested.hooked]
      constructor
      · rintro ⟨j, own⟩
        by_cases same : j = i
        · rw [same, Function.update_self] at own
          exact absurd (Option.some.inj own).symm here
        · exact ⟨j, by rwa [Function.update_of_ne same] at own⟩
      · rintro ⟨j, own⟩
        have other : j ≠ i := by
          rintro rfl
          rw [fresh] at own
          cases own
        exact ⟨j, by rwa [Function.update_of_ne other]⟩
  · intro j k w first second
    by_cases mine : j = i <;> by_cases yours : k = i
    · rw [mine, yours]
    · rw [mine, Function.update_self] at first
      rw [Function.update_of_ne yours, ← first] at second
      exact absurd second (nobody k)
    · rw [yours, Function.update_self] at second
      rw [Function.update_of_ne mine, ← second] at first
      exact absurd first (nobody j)
    · rw [Function.update_of_ne mine] at first
      rw [Function.update_of_ne yours] at second
      exact forested.injective j k w first second
  · intro w top
    by_cases here : w = u
    · rw [here]
      exact forested.roots u fixed
    · rw [Function.update_of_ne here] at top
      exact forested.roots w top

end Forested

/-! ## Runs -/

section Runs
variable {ι : Type*} {variant : UniteVariant} (correct : variant.Correct) {edges : ι → ℕ × ℕ} {p : Parents}

/-- The root that a thread has hooked so far. -/
def hookedSoFar : variant.Pc ⊕ Option ℕ → Option ℕ
  | .inl pc => correct.hooked pc
  | .inr result => result

/-- The roots that the threads have hooked so far. -/
def hookedRoots (s : State Parents fun _ : ι => variant.Pc ⊕ Option ℕ) (i : ι) : Option ℕ := hookedSoFar correct (s.locals i)

theorem exact_effect (exact : correct.exact) {edge : ℕ × ℕ} {pc pc' : variant.Pc ⊕ Option ℕ} {q q' : Parents}
    (descending : Descending q) (knows : threadKnows correct edge pc q) (access : variant.step edge pc q = some (pc', q')) :
    Effect edge (hookedSoFar correct pc) (hookedSoFar correct pc') q q' := by
  cases pc with
  | inr result => cases access
  | inl pc =>
    have accessed : variant.access edge pc q = (pc', q') := Option.some.inj access
    cases pc' with
    | inl pc₁ => exact (correct.next descending knows accessed).1
    | inr result =>
      obtain ⟨root, effect, -, same⟩ := correct.returns descending knows accessed
      rw [← same exact] at effect
      exact effect

variable [DecidableEq ι]

theorem hookedRoots_update {s : State Parents fun _ : ι => variant.Pc ⊕ Option ℕ} {i : ι} {pc : variant.Pc ⊕ Option ℕ}
    {q : Parents} : hookedRoots correct ⟨q, Function.update s.locals i pc⟩ =
      Function.update (hookedRoots correct s) i (hookedSoFar correct pc) := by
  ext1 j
  by_cases same : j = i
  · subst same
    simp [hookedRoots]
  · simp [hookedRoots, same]

theorem forested_steps (exact : correct.exact) {s s' : State Parents fun _ : ι => variant.Pc ⊕ Option ℕ}
    (descending : Descending s.memory) (locals : ∀ i, threadKnows correct (edges i) (s.locals i) s.memory)
    (forested : Forested p edges (hookedRoots correct s) s.memory)
    (steps : Steps (fun i => variant.step (edges i)) s s') : Forested p edges (hookedRoots correct s') s'.memory := by
  cases steps with
  | @turn i pc q access =>
    have effect := exact_effect correct exact descending (locals i) access
    rw [hookedRoots_update]
    generalize before : hookedSoFar correct (s.locals i) = hooked at effect
    generalize hookedSoFar correct pc = hooked' at effect ⊢
    cases effect with
    | shortcut shortcut =>
      rw [← before, ← hookedRoots, Function.update_eq_self]
      exact forested.keep descending (shortcut.descending descending) (shortcut.root_eq descending)
    | hook fixed lower ends => exact forested.hook descending before fixed lower ends

theorem unites_forested (exact : correct.exact) (descending : Descending p)
    {s : State Parents fun _ : ι => variant.Pc ⊕ Option ℕ}
    (run : Relation.ReflTransGen (Steps fun i => variant.step (edges i)) (startUnites variant edges p) s) :
    Forested p edges (hookedRoots correct s) s.memory := by
  induction run with
  | refl =>
    have none_hooked : hookedRoots correct (startUnites variant edges p) = fun _ => none := by
      ext1 i
      exact (correct.start (edges i) p).2
    rw [none_hooked]
    exact .start p edges
  | tail run last ih =>
    have safe := (unites_run correct descending run).1
    exact forested_steps correct exact safe.memory.descending safe.locals ih last

end Runs

/-! ## Spanning forest -/

/-- A union of the spanning forest algorithm, which writes down the edge when it has hooked a root. -/
inductive ForestPc (variant : UniteVariant) where
  | unite (pc : variant.Pc)
  /-- At `Edges[u] = std::make_pair(u_orig, v_orig)`. -/
  | record (u : ℕ)
  | done

/-- `Parents` and `Edges`, where `none` is `empty_edge`. -/
structure ForestMemory where
  parents : Parents
  edges : ℕ → Option (ℕ × ℕ)

/-- Where a union goes on. -/
def ForestPc.after {variant : UniteVariant} : variant.Pc ⊕ Option ℕ → ForestPc variant
  | .inl pc => .unite pc
  | .inr none => .done
  | .inr (some u) => .record u

def uniteForest (variant : UniteVariant) (edge : ℕ × ℕ) :
    ForestPc variant → ForestMemory → Option (ForestPc variant × ForestMemory)
  | .unite pc, m =>
    let next := variant.access edge pc m.parents
    some (.after next.1, { m with parents := next.2 })
  | .record u, m => some (.done, { m with edges := Function.update m.edges u (some edge) })
  | .done, _ => none

/-- The unite variants of the spanning forest: its `UniteEarly` has no finds afterwards, and its `UniteRemCAS` swaps with
the wrong parent. -/
inductive ForestOption where
  | unite (find : FindOption)
  | uniteEarly

def ForestOption.variant : ForestOption → UniteVariant
  | unite find => Connectivity.unite find.find
  | uniteEarly => Connectivity.uniteEarly .naive

theorem ForestOption.exact : ∀ option : ForestOption, ∃ correct : option.variant.Correct, correct.exact
  | unite find => ⟨unite_correct find.correct, trivial⟩
  | uniteEarly => ⟨uniteEarly_correct .naive, trivial⟩

section Spanning
variable {ι : Type*} {variant : UniteVariant} {edges : ι → ℕ × ℕ} {p : Parents}

def startForest (variant : UniteVariant) (edges : ι → ℕ × ℕ) (p : Parents) :
    State ForestMemory fun _ : ι => ForestPc variant :=
  ⟨⟨p, fun _ => none⟩, fun i => .unite (variant.start (edges i))⟩

/-- A thread of the spanning forest and of the plain union that it is. -/
def Follows (edge : ℕ × ℕ) (table : ℕ → Option (ℕ × ℕ)) : ForestPc variant → variant.Pc ⊕ Option ℕ → Prop
  | .unite pc, pc' => pc' = .inl pc
  | .record u, pc' => pc' = .inr (some u)
  | .done, pc' => ∃ result, pc' = .inr result ∧ ∀ u ∈ result, table u = some edge

/-- A state of the spanning forest and one of the plain unions. -/
structure Refines (correct : variant.Correct) (edges : ι → ℕ × ℕ) (s : State ForestMemory fun _ : ι => ForestPc variant)
    (t : State Parents fun _ : ι => variant.Pc ⊕ Option ℕ) : Prop where
  parents : s.memory.parents = t.memory
  threads : ∀ i, Follows (edges i) s.memory.edges (s.locals i) (t.locals i)
  recorded : ∀ u e, s.memory.edges u = some e → ∃ i, hookedRoots correct t i = some u ∧ edges i = e

theorem follows_after {edge : ℕ × ℕ} {table : ℕ → Option (ℕ × ℕ)} {pc : variant.Pc ⊕ Option ℕ} :
    Follows edge table (.after pc) pc := by
  match pc with
  | .inl pc => exact rfl
  | .inr none => exact ⟨none, rfl, fun u own => by cases own⟩
  | .inr (some u) => exact rfl

theorem Refines.start (correct : variant.Correct) (edges : ι → ℕ × ℕ) (p : Parents) :
    Refines correct edges (startForest variant edges p) (startUnites variant edges p) :=
  ⟨rfl, fun _ => rfl, fun _ _ own => by cases own⟩

theorem forest_done {edge : ℕ × ℕ} {pc : ForestPc variant} {m : ForestMemory}
    (stopped : uniteForest variant edge pc m = none) :
    pc = .done := by
  cases pc with
  | done => rfl
  | _ => cases stopped

theorem Refines.ended {correct : variant.Correct} {s : State ForestMemory fun _ : ι => ForestPc variant}
    {t : State Parents fun _ : ι => variant.Pc ⊕ Option ℕ} (refines : Refines correct edges s t)
    (ended : Ended (fun i => uniteForest variant (edges i)) s) :
    Ended (fun i => variant.step (edges i)) t ∧
      ∀ u e, s.memory.edges u = some e ↔ ∃ i, hookedRoots correct t i = some u ∧ edges i = e := by
  have returned (i : ι) : ∃ result, t.locals i = .inr result ∧ ∀ u ∈ result, s.memory.edges u = some (edges i) := by
    have follows := refines.threads i
    rwa [forest_done (ended i)] at follows
  constructor
  · intro i
    obtain ⟨result, done, -⟩ := returned i
    rw [done]
    rfl
  · intro u e
    refine ⟨refines.recorded u e, ?_⟩
    rintro ⟨i, own, rfl⟩
    obtain ⟨result, done, written⟩ := returned i
    rw [hookedRoots, done] at own
    exact written u own

variable [DecidableEq ι] {correct : variant.Correct}

theorem refines_unite (exact : correct.exact) {s : State ForestMemory fun _ : ι => ForestPc variant}
    {t : State Parents fun _ : ι => variant.Pc ⊕ Option ℕ} (refines : Refines correct edges s t)
    (descending : Descending t.memory) (locals : ∀ i, threadKnows correct (edges i) (t.locals i) t.memory)
    {i : ι} {pc : variant.Pc} {next : variant.Pc ⊕ Option ℕ} {q : Parents} (here : s.locals i = .unite pc)
    (access : variant.access (edges i) pc s.memory.parents = (next, q)) :
    Steps (fun i => variant.step (edges i)) t ⟨q, Function.update t.locals i next⟩ ∧
      Refines correct edges ⟨{ s.memory with parents := q }, Function.update s.locals i (.after next)⟩
        ⟨q, Function.update t.locals i next⟩ := by
  have follows : t.locals i = .inl pc := by
    have follows := refines.threads i
    rwa [here] at follows
  have access' : variant.step (edges i) (t.locals i) t.memory = some (next, q) := by
    rw [follows, ← refines.parents]
    exact congrArg some access
  refine ⟨.turn i access', rfl, fun j => ?_, fun u e own => ?_⟩
  · by_cases same : j = i
    · subst same
      simpa using follows_after
    · simpa [same] using refines.threads j
  · obtain ⟨j, hooked, edge⟩ := refines.recorded u e own
    refine ⟨j, ?_, edge⟩
    rw [hookedRoots_update]
    by_cases same : j = i
    · subst same
      rw [Function.update_self]
      have effect := exact_effect correct exact descending (locals j) access'
      rw [show hookedSoFar correct (t.locals j) = some u from hooked] at effect
      generalize hookedSoFar correct next = hooked' at effect ⊢
      cases effect with
      | shortcut shortcut => rfl
    · rwa [Function.update_of_ne same]

theorem refines_record {s : State ForestMemory fun _ : ι => ForestPc variant}
    {t : State Parents fun _ : ι => variant.Pc ⊕ Option ℕ} (refines : Refines correct edges s t)
    (forested : Forested p edges (hookedRoots correct t) t.memory) {i : ι} {u : ℕ} (here : s.locals i = .record u) :
    Refines correct edges
      ⟨{ s.memory with edges := Function.update s.memory.edges u (some (edges i)) }, Function.update s.locals i .done⟩ t := by
  have mine : t.locals i = .inr (some u) := by
    have follows := refines.threads i
    rwa [here] at follows
  have own : hookedRoots correct t i = some u := by rw [hookedRoots, mine, hookedSoFar]
  refine ⟨refines.parents, fun j => ?_, fun w e written => ?_⟩
  · by_cases same : j = i
    · subst same
      simp only [Function.update_self]
      refine ⟨some u, mine, fun w mem => ?_⟩
      rw [← Option.some.inj mem, Function.update_self]
    · have follows := refines.threads j
      simp only [Function.update_of_ne same]
      cases place : s.locals j with
      | unite pc | record w =>
        rw [place] at follows
        exact follows
      | done =>
        rw [place] at follows
        obtain ⟨result, done, written⟩ := follows
        refine ⟨result, done, fun w mem => ?_⟩
        -- no other thread has hooked `u`
        have other : w ≠ u := by
          rintro rfl
          have yours : hookedRoots correct t j = some w := by rwa [hookedRoots, done, hookedSoFar]
          exact same (forested.injective j i w yours own)
        rw [Function.update_of_ne other]
        exact written w mem
  · by_cases same : w = u
    · subst same
      simp only [Function.update_self] at written
      exact ⟨i, own, Option.some.inj written⟩
    · simp only [Function.update_of_ne same] at written
      exact refines.recorded w e written

theorem forest_refines (exact : correct.exact) (descending : Descending p)
    {s : State ForestMemory fun _ : ι => ForestPc variant}
    (run : Relation.ReflTransGen (Steps fun i => uniteForest variant (edges i)) (startForest variant edges p) s) :
    ∃ t, Relation.ReflTransGen (Steps fun i => variant.step (edges i)) (startUnites variant edges p) t ∧
      Refines correct edges s t := by
  induction run with
  | refl => exact ⟨_, .refl, .start correct edges p⟩
  | @tail s s' _ last ih =>
    obtain ⟨t, run, refines⟩ := ih
    have safe := (unites_run correct descending run).1
    cases last with
    | @turn i pc m access =>
      cases place : s.locals i with
      | unite pc =>
        rw [place] at access
        cases access
        obtain ⟨step, refines'⟩ := refines_unite exact refines safe.memory.descending safe.locals place rfl
        exact ⟨_, run.tail step, refines'⟩
      | record u =>
        rw [place] at access
        cases access
        exact ⟨t, run, refines_record refines (unites_forested correct exact descending run) place⟩
      | done =>
        rw [place] at access
        cases access

/-- The edges that a run of the spanning forest leaves in `Edges`, at the vertices that are no longer roots, are different
edges of the graph; they connect what the graph connects, and none of them is redundant. -/
theorem spanningForest_spans (option : ForestOption) (descending : Descending p)
    {s : State ForestMemory fun _ : ι => ForestPc option.variant}
    (run : Relation.ReflTransGen (Steps fun i => uniteForest option.variant (edges i)) (startForest option.variant edges p) s)
    (ended : Ended (fun i => uniteForest option.variant (edges i)) s) :
    ∃ hooked : ι → Option ℕ, Forested p edges hooked s.memory.parents ∧
      (∀ u e, s.memory.edges u = some e ↔ ∃ i, hooked i = some u ∧ edges i = e) ∧
      ∀ a b, Linked (Forest.Joined p) edges (made hooked) a b ↔ Component p edges a b := by
  obtain ⟨correct, exact⟩ := option.exact
  obtain ⟨t, run', refines⟩ := forest_refines exact descending run
  obtain ⟨ended', table⟩ := refines.ended ended
  have forested := unites_forested correct exact descending run'
  refine ⟨hookedRoots correct t, ?_, table, fun a b => ?_⟩
  · rw [refines.parents]
    exact forested
  · rw [← forested.linked]
    exact unites_components correct descending run' ended'

def cycleEdges : Fin 3 → ℕ × ℕ := ![(2, 1), (1, 0), (2, 0)]

/-- The spanning forest of a cycle. -/
def cycleForest : State ForestMemory fun _ : Fin 3 => ForestPc (unite findAtomicHalve) :=
  (List.replicate 14 [2, 0, 1]).flatten.foldl (take fun i : Fin 3 => uniteForest (unite findAtomicHalve) (cycleEdges i))
    (startForest (unite findAtomicHalve) cycleEdges id)

theorem spanningForest_spans_cycle :
    ∃ hooked : Fin 3 → Option ℕ, Forested id cycleEdges hooked cycleForest.memory.parents ∧
      (∀ u e, cycleForest.memory.edges u = some e ↔ ∃ i, hooked i = some u ∧ cycleEdges i = e) ∧
      ∀ a b, Linked (Forest.Joined id) cycleEdges (made hooked) a b ↔ Component id cycleEdges a b :=
  spanningForest_spans (ι := Fin 3) (.unite .atomicHalve) descending_id (take_run _ _) (fun i => by fin_cases i <;> rfl)

end Spanning

/-! ## UniteRemCAS of the spanning forest -/

section RemForest
variable {splice : SpliceOption} {p : Parents} {x y : ℕ}

end RemForest

end CilkArtifact.Connectivity
