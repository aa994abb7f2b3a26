import CilkArtifact.Library.Descent
import CilkArtifact.Runtime.Runs

/-! Every run of a program ends. User code gives way to smaller code; between two operations of user code the
runtime takes finitely many steps, counted by the holders, the maps and the frames that can be stolen. -/
namespace CilkArtifact.Runtime
open Descent
universe u
variable {M : Type u}

namespace Code

/-- What one operation leaves to its frame or gives to a new one. -/
inductive Next : Code M → Code M → Prop
  | strand (update rest) (p : Pedigree) : Next (rest p) (.strand update rest)
  | setPedigree (update rest) : Next rest (.setPedigree update rest)
  | spawned (body rest) : Next (.call body .ret) (.spawn body rest)
  | afterSpawn (body rest) : Next rest (.spawn body rest)
  | called (body rest) : Next body (.call body rest)
  | afterCall (body rest) : Next rest (.call body rest)
  | sync (rest) : Next rest (.sync rest)

theorem acc_call {body rest : Code M} (body_acc : Acc Next body) (rest_acc : Acc Next rest) :
    Acc Next (.call body rest) := by
  refine .intro _ fun code next => ?_
  cases next with
  | called => exact body_acc
  | afterCall => exact rest_acc

theorem acc_next (code : Code M) : Acc Next code := by
  induction code with
  | ret => exact .intro _ fun _ next => nomatch next
  | strand update rest ih =>
    refine .intro _ fun code next => ?_
    cases next with
    | strand _ _ p => exact ih p
  | setPedigree update rest ih =>
    refine .intro _ fun code next => ?_
    cases next with
    | setPedigree => exact ih
  | spawn body rest body_ih rest_ih =>
    refine .intro _ fun code next => ?_
    cases next with
    | spawned => exact acc_call body_ih (.intro _ fun _ next => nomatch next)
    | afterSpawn => exact rest_ih
  | call body rest body_ih rest_ih => exact acc_call body_ih rest_ih
  | sync rest ih =>
    refine .intro _ fun code next => ?_
    cases next with
    | sync => exact ih

theorem next_wellFounded : WellFounded (Relation.TransGen (Next (M := M))) :=
  WellFounded.transGen ⟨acc_next⟩

/-- Code is smaller than what it is left from. -/
instance : Preorder (Code M) where
  le := Relation.ReflTransGen Next
  lt := Relation.TransGen Next
  le_refl _ := .refl
  le_trans _ _ _ := .trans
  lt_iff_le_not_ge small big := by
    constructor
    · exact fun less => ⟨less.to_reflTransGen, fun ge => next_wellFounded.irrefl.irrefl _ (less.trans_left ge)⟩
    · rintro ⟨le, notGe⟩
      rcases Relation.reflTransGen_iff_eq_or_transGen.mp le with rfl | less
      · exact absurd .refl notGe
      · exact less

instance : WellFoundedLT (Code M) := ⟨next_wellFounded⟩

theorem Next.lt {small big : Code M} (next : Next small big) : small < big := .single next

end Code

/-- 1 for a map that is there. -/
def maps (map : Option M) : ℕ := map.isSome.toNat

@[simp] theorem maps_none : maps (none : Option M) = 0 := rfl
@[simp] theorem maps_some (m : M) : maps (some m) = 1 := rfl

namespace Holder

def codes : Holder M → Multiset (Code M)
  | running _ young => (young.map StackFrame.code : List (Code M))
  | _ => 0

/-- Steps of the runtime that the holder may still take before it runs user code or gives the frame up. -/
def weight : Holder M → ℕ
  | suspended => 0
  | next w _ => 5 + 2 * maps w.reducerMap
  | running w young => 4 + 20 * young.length + 2 * maps w.reducerMap
  | spawnReturn w _ => 3 + 2 * maps w.reducerMap
  | reducing _ left middle right => 2 + 2 * (maps left + maps middle + maps right)
  | syncing _ middle => 3 + 2 * maps middle
  | merging _ left middle => 2 + 2 * (maps left + maps middle)
  | stalled _ => 1

end Holder

def FullFrame.measure (ff : FullFrame M) : Multiset (Code M) × ℕ :=
  ({ff.callStack.code} + ff.holder.codes,
    ff.holder.weight + 2 * maps ff.rightReducerMap + 10 * ff.callStack.unsynched.toNat)

namespace Children

def measure : Children M → Multiset (Code M) × ℕ
  | none childrenReducerMap unlinked => (0, 2 * maps childrenReducerMap + Multiset.card unlinked)
  | snoc left child below => left.measure + child.measure + below.measure

theorem measure_setLeftMap (children : Children M) (map : Option M) :
    (children.setLeftMap map).measure.1 = children.measure.1 ∧
      (children.setLeftMap map).measure.2 + 2 * maps children.leftMap = children.measure.2 + 2 * maps map := by
  cases children with
  | none _ unlinked =>
    refine ⟨rfl, ?_⟩
    simp only [measure, setLeftMap, leftMap]
    omega
  | snoc left child below =>
    refine ⟨rfl, ?_⟩
    simp only [measure, setLeftMap, leftMap, FullFrame.measure, Prod.snd_add]
    omega

theorem measure_setUnlinked (children : Children M) (unlinked : Multiset (Unlinked M)) :
    (children.setUnlinked unlinked).measure.1 = children.measure.1 ∧
      (children.setUnlinked unlinked).measure.2 + Multiset.card children.unlinked =
        children.measure.2 + Multiset.card unlinked := by
  induction children with
  | none map _ =>
    refine ⟨rfl, ?_⟩
    simp only [measure, setUnlinked, Children.unlinked]
    omega
  | snoc left child below ih =>
    simp only [measure, setUnlinked, Children.unlinked, Prod.fst_add, Prod.snd_add, ih.1, true_and]
    omega

end Children

section Descends
variable {ff ff' : FullFrame M} {children : Children M} {w : Worker M} {young : List (StackFrame M)}

/-- A frame with its children. -/
def total (ff : FullFrame M) (children : Children M) : Multiset (Code M) × ℕ := ff.measure + children.measure

variable [Mul M]

theorem execute_smaller {stale : Pedigree} {w' : Worker M} {sf sf' : StackFrame M} {pushed : List (StackFrame M)}
    (runs : execute stale w sf = some (w', sf', pushed)) :
    sf'.code < sf.code ∧ ∀ code ∈ pushed.map StackFrame.code, code < sf.code := by
  unfold execute at runs
  split at runs
  case h_1 => cases runs
  case h_2 update rest code =>
    obtain ⟨rfl, rfl, rfl⟩ := runs
    exact ⟨code ▸ (Code.Next.strand update rest _).lt, by simp⟩
  case h_3 update rest code =>
    obtain ⟨rfl, rfl, rfl⟩ := runs
    exact ⟨code ▸ (Code.Next.setPedigree update rest).lt, by simp⟩
  case h_4 body rest code =>
    obtain ⟨rfl, rfl, rfl⟩ := runs
    rw [code]
    exact ⟨(Code.Next.afterSpawn body rest).lt, by simpa [spawnHelper] using (Code.Next.spawned body rest).lt⟩
  case h_5 body rest code =>
    obtain ⟨rfl, rfl, rfl⟩ := runs
    rw [code]
    exact ⟨(Code.Next.afterCall body rest).lt, by simpa [enterFrame] using (Code.Next.called body rest).lt⟩
  case h_6 rest code =>
    split at runs
    · cases runs
    · obtain ⟨rfl, rfl, rfl⟩ := runs
      exact ⟨code ▸ (Code.Next.sync rest).lt, by simp⟩

theorem run_descends {stale : Pedigree} (held : ff.holder = .running w young)
    (runs : ff.run stale w young = some ff') : Descends (total ff' children) (total ff children) := by
  refine Descends.add_right ?_ _
  simp only [FullFrame.run, Option.bind_eq_bind, Option.bind_eq_some_iff] at runs
  obtain ⟨⟨w', sf', pushed⟩, executed, runs⟩ := runs
  obtain ⟨smaller, below⟩ := execute_smaller executed
  have new : ∀ code ∈ ({sf'.code} + (pushed.map StackFrame.code : Multiset (Code M))), code < (ff.current young).code := by
    intro code member
    rcases Multiset.mem_add.mp member with member | member
    · exact (Multiset.mem_singleton.mp member) ▸ smaller
    · exact below code member
  cases young with
  | nil =>
    cases runs
    refine descends_of_task ff.callStack.code _ 0 new ?_ (add_zero _).symm
    simp [FullFrame.measure, Holder.codes, held]
  | cons sf young =>
    cases runs
    refine descends_of_task sf.code _ ({ff.callStack.code} + (young.map StackFrame.code : List (Code M))) new ?_ ?_
    · simp only [FullFrame.measure, Holder.codes, held, List.map_cons, ← Multiset.cons_coe, ← Multiset.singleton_add]
      abel
    · simp only [FullFrame.measure, Holder.codes, List.map_append, List.map_cons, ← Multiset.coe_add, ← Multiset.cons_coe,
        ← Multiset.singleton_add]
      abel

omit [Mul M] in
theorem leave_descends {sf : StackFrame M} (held : ff.holder = .running w (sf :: young)) :
    Descends (total { ff with holder := .running (w.leave sf) young } children) (total ff children) := by
  refine Descends.add_right (descends_of_end sf.code ?_) _
  simp only [FullFrame.measure, Holder.codes, held, List.map_cons, ← Multiset.cons_coe, ← Multiset.singleton_add]
  abel

omit [Mul M] in
/-- The tasks stay and the runtime comes nearer to user code. -/
theorem descends_of_weight {children' : Children M} (codes : ff'.measure.1 = ff.measure.1)
    (below : children'.measure.1 = children.measure.1)
    (weight : ff'.measure.2 + children'.measure.2 < ff.measure.2 + children.measure.2) :
    Descends (total ff' children') (total ff children) :=
  .inr ⟨by simp only [total, Prod.fst_add, codes, below], by simpa only [total, Prod.snd_add] using weight⟩

omit [Mul M] in
theorem sync_descends (held : ff.holder = .running w young) (synced : ff.cSync w young = some ff') :
    Descends (total ff' children) (total ff children) := by
  cases young with
  | cons sf young => cases synced
  | nil =>
    unfold FullFrame.cSync at synced
    split at synced
    case h_2 => contradiction
    case h_1 =>
      cases map : w.reducerMap with
      | none =>
        simp only [map, Option.some.injEq] at synced
        subst synced
        refine descends_of_weight (by simp [FullFrame.measure, Holder.codes, held]) rfl ?_
        simp only [FullFrame.measure, Holder.weight, held]
        omega
      | some m =>
        simp only [map, Option.some.injEq] at synced
        subst synced
        refine descends_of_weight (by simp [FullFrame.measure, Holder.codes, held]) rfl ?_
        simp only [FullFrame.measure, Holder.weight, held, map, List.length_nil]
        omega

omit [Mul M] in
theorem syncLoop_descends {middle : Option M} (held : ff.holder = .syncing w middle) :
    Descends (total (reductionsForSync ff children w middle).1 (reductionsForSync ff children w middle).2)
      (total ff children) := by
  have slot (map : Option M) := children.measure_setLeftMap map
  have none_young : ff.holder.codes = 0 := by rw [held]; rfl
  have codes (holder : Holder M) (same : holder.codes = 0) :
      ({ ff with holder := holder } : FullFrame M).measure.1 = ff.measure.1 := by
    simp only [FullFrame.measure, same, none_young]
  cases map : children.leftMap with
  | none =>
    have weight := (slot middle).2
    simp only [reductionsForSync, map, Option.isNone_none, ↓reduceIte]
    refine descends_of_weight (codes _ rfl) (slot middle).1 ?_
    simp only [FullFrame.measure, Holder.weight, held, map, maps_none] at weight ⊢
    omega
  | some l =>
    cases middle with
    | none =>
      have weight := (slot (some l)).2
      simp only [reductionsForSync, map, Option.isNone_some, Bool.false_eq_true, Option.isNone_none, ↓reduceIte]
      refine descends_of_weight (codes _ rfl) (slot (some l)).1 ?_
      simp only [FullFrame.measure, Holder.weight, held, map] at weight ⊢
      omega
    | some m =>
      have weight := (slot none).2
      simp only [reductionsForSync, map, Option.isNone_some, Bool.false_eq_true, ↓reduceIte]
      refine descends_of_weight (codes _ rfl) (slot none).1 ?_
      simp only [FullFrame.measure, Holder.weight, held, map, maps_none, maps_some] at weight ⊢
      omega

section Leader
variable {leader : Option (Worker M)} {r : FullFrame M × Multiset (Worker M)}

omit [Mul M] in
/-- Whoever gets the frame brings no reducer map. -/
theorem provablyGoodSteal_descends (empty : w.reducerMap = none) (empty_leader : ∀ w' ∈ leader, w'.reducerMap = none)
    (result : provablyGoodSteal ff w leader = some r) (suspended : ff.joinCounter = 1 → ff.holder = .suspended)
    (unsynched : ff.joinCounter = 1 → ff.callStack.unsynched = true) :
    r.1.measure.1 = ff.measure.1 ∧ r.1.measure.2 ≤ ff.measure.2 := by
  have goesOn (owner : Worker M) (syncMaster : Bool) (nothing : owner.reducerMap = none) (last : ff.joinCounter = 1) :
      let ff' : FullFrame M := { ff with
        callStack := { ff.callStack with unsynched := false }
        joinCounter := 1, holder := .next owner false, syncMaster := syncMaster }
      ff'.measure.1 = ff.measure.1 ∧ ff'.measure.2 ≤ ff.measure.2 := by
    simp [FullFrame.measure, Holder.codes, Holder.weight, suspended last, unsynched last, nothing]
    omega
  by_cases last : ff.joinCounter = 1
  · simp only [provablyGoodSteal, last, one_ne_zero, ↓reduceIte] at result
    split at result
    case isFalse =>
      cases result
      exact goesOn w _ empty last
    case isTrue =>
      split at result
      · cases result
        exact goesOn _ false empty last
      · split at result
        · cases result
        case h_2 first =>
          cases result
          exact goesOn _ false (empty_leader first rfl) last
  · obtain rfl := provablyGoodSteal_leaves result last
    exact ⟨rfl, le_refl _⟩

omit [Mul M] in
theorem Team.empty_leader {idle others : Multiset (Worker M)} (team : Team idle leader others) (empty : Idle idle) :
    ∀ w ∈ leader, w.reducerMap = none := by
  intro w member
  obtain rfl := Option.mem_def.mp member
  exact (empty w (by simp [team.eq])).1

omit [Mul M] in
theorem doSync_descends (consistent : ff.Consistent children) (held : ff.holder = .stalled w)
    (empty_leader : ∀ w' ∈ leader, w'.reducerMap = none) (result : doSync ff w leader = some r) :
    Descends (total r.1 children) (total ff children) := by
  have holds := consistent.holds
  simp only [FullFrame.Holds, held] at holds
  unfold doSync at result
  split at result
  case isFalse => cases result
  case isTrue unsynched =>
    obtain ⟨codes, weight⟩ :=
      provablyGoodSteal_descends holds.empty empty_leader result (fun _ => rfl) (fun _ => unsynched)
    refine descends_of_weight (codes.trans (by simp [FullFrame.measure, Holder.codes, held])) rfl ?_
    simp only [FullFrame.measure, Holder.weight, held] at weight ⊢
    omega

end Leader

omit [Mul M] in
theorem exceptionCheck_descends (held : ff.holder = .running w []) :
    Descends (total { ff with holder := .spawnReturn w false } children) (total ff children) := by
  refine descends_of_weight (by simp [FullFrame.measure, Holder.codes, held]) rfl ?_
  simp only [FullFrame.measure, Holder.weight, held]
  omega

theorem maps_merge (left right : Option M) : maps (mergeReducerMaps left right) ≤ maps left + maps right := by
  cases left <;> cases right <;> simp [mergeReducerMaps]

theorem syncMerge_descends {left middle : Option M} (consistent : ff.Consistent children)
    (held : ff.holder = .merging w left middle) :
    Descends (total { ff with holder := .syncing w (mergeReducerMaps left middle) } children) (total ff children) := by
  have holds := consistent.holds
  simp only [FullFrame.Holds, held] at holds
  obtain ⟨l, rfl⟩ := Option.isSome_iff_exists.mp holds.2.1
  obtain ⟨m, rfl⟩ := Option.isSome_iff_exists.mp holds.2.2
  refine descends_of_weight (by simp [FullFrame.measure, Holder.codes, held]) rfl ?_
  simp only [FullFrame.measure, Holder.weight, held, mergeReducerMaps, maps_some]
  omega

theorem reduce_descends {left middle right : Option M} (consistent : ff.Consistent children)
    (held : ff.holder = .reducing w left middle right) (result : reduceForSpawnReturn ff w left middle right = some ff') :
    Descends (total ff' children) (total ff children) := by
  have holds := consistent.holds
  simp only [FullFrame.Holds, held] at holds
  obtain ⟨-, -, left_some, middle_some⟩ := holds
  obtain ⟨l, rfl⟩ := Option.isSome_iff_exists.mp left_some
  obtain ⟨m, rfl⟩ := Option.isSome_iff_exists.mp middle_some
  unfold reduceForSpawnReturn at result
  split at result
  · cases result
  · obtain rfl := Option.some.inj result
    have merged := maps_merge (mergeReducerMaps (some l) (some m)) right
    refine descends_of_weight (by simp [FullFrame.measure, Holder.codes, held]) rfl ?_
    simp only [FullFrame.measure, Holder.weight, held, mergeReducerMaps, maps_some] at merged ⊢
    omega

omit [Mul M] in
theorem doReturnFromSpawn_descends {child : Unlinked M} {unlinked : Multiset (Unlinked M)} {leader : Option (Worker M)}
    {r : FullFrame M × Multiset (Worker M)} (consistent : ff.Consistent children) (inv : children.Inv)
    (gone : children.unlinked = child ::ₘ unlinked) (empty_leader : ∀ w' ∈ leader, w'.reducerMap = none)
    (result : doReturnFromSpawn ff child leader = some r) :
    Descends (total r.1 (children.setUnlinked unlinked)) (total ff children) := by
  have ready : child.Ready := inv.unlinked_ready child (by simp [gone])
  obtain ⟨below, fewer⟩ := children.measure_setUnlinked unlinked
  rw [gone, Multiset.card_cons] at fewer
  unfold doReturnFromSpawn at result
  split at result
  · cases result
  · simp only [Option.bind_eq_bind, Option.bind_eq_some_iff] at result
    obtain ⟨parent, stolen, result⟩ := result
    split at result
    · cases result
    · obtain rfl := Option.some.inj result
      obtain ⟨codes, weight⟩ := provablyGoodSteal_descends ready.empty empty_leader stolen
        (fun last => (last_joins consistent gone last).1) (fun last => (last_joins consistent gone last).2.2.2.1)
      refine descends_of_weight codes below ?_
      omega

omit [Mul M] in
theorem returnFromCall_descends {left below : Children M} {child : FullFrame M} {r : FullFrame M × Children M}
    (consistent : ff.Consistent children) (inv : children.Inv) (rightmost : children = left.snoc child below)
    (returns : child.returns w) (result : returnFromCall ff left child below w = some r) :
    Descends (total r.1 r.2) (total ff children) := by
  subst rightmost
  obtain ⟨call, rfl, -⟩ := returns_child inv returns
  have suspended := suspended_of_call consistent call
  unfold returnFromCall at result
  split at result
  · cases result
  · split at result
    · cases result
    · split at result
      · cases result
      · obtain rfl := Option.some.inj result
        refine descends_of_end child.callStack.code ?_
        simp only [total, FullFrame.measure, Holder.codes, Children.measure, returns.1, suspended, Prod.fst_add,
          List.map_nil, Multiset.coe_nil]
        abel

omit [Mul M] in
theorem setupForExecutionReducers_measure {w' : Worker M} {children' : Children M}
    (result : setupForExecutionReducers ff children w = some (w', children')) :
    children'.measure.1 = children.measure.1 ∧
      children'.measure.2 + 2 * maps w'.reducerMap = children.measure.2 + 2 * maps w.reducerMap := by
  unfold setupForExecutionReducers at result
  split at result
  · cases result
    exact ⟨rfl, rfl⟩
  · split at result
    · cases result
    case isFalse childless =>
      cases children with
      | snoc _ _ _ => exact absurd rfl childless
      | none slot unlinked =>
        split at result
        · cases result
          exact ⟨rfl, rfl⟩
        · cases result
        case h_3 map found nothing =>
          cases result
          obtain rfl : slot = some map := found
          refine ⟨rfl, ?_⟩
          simp only [Children.setLeftMap, Children.measure, nothing, maps_none, maps_some]
          omega

omit [Mul M] in
theorem setup_descends {isReturnFromCall : Bool} {r : FullFrame M × Children M} (held : ff.holder = .next w isReturnFromCall)
    (result : setupForExecution ff children w isReturnFromCall = some r) :
    Descends (total r.1 r.2) (total ff children) := by
  simp only [setupForExecution, Option.bind_eq_bind, Option.bind_eq_some_iff] at result
  obtain ⟨⟨w', children'⟩, reducers, result⟩ := result
  obtain ⟨codes, weight⟩ := setupForExecutionReducers_measure reducers
  split at result
  · cases result
    refine descends_of_weight (by simp [FullFrame.measure, Holder.codes, held]) codes ?_
    simp only [FullFrame.measure, Holder.weight, held, List.length_nil]
    omega
  · cases result
    refine descends_of_weight (by simp [FullFrame.measure, Holder.codes, held, setupForExecutionPedigree]) codes ?_
    simp only [FullFrame.measure, Holder.weight, held, setupForExecutionPedigree, List.length_nil]
    omega

omit [Mul M] in
/-- The frames of the call stack become full frames; only the last one is scheduled and becomes unsynched. -/
theorem unrollCallStack_measure {thief : Worker M} (child : FullFrame M) (setSyncMaster : Bool)
    (nothing : thief.reducerMap = none)
    (newer : List (StackFrame M)) (synched : ∀ sf ∈ newer, sf.unsynched = false) (ff : FullFrame M)
    (children : Children M) :
    let r := unrollCallStack thief child setSyncMaster ff children newer
    r.1.measure.1 + r.2.measure.1 =
        ({ff.callStack.code} + (newer.map StackFrame.code : List (Code M))) + (child.measure.1 + children.measure.1) ∧
      r.1.measure.2 + r.2.measure.2 ≤
        15 + 2 * maps ff.rightReducerMap + 10 * ff.callStack.unsynched.toNat + (child.measure.2 + children.measure.2) := by
  induction newer generalizing ff children with
  | nil =>
    refine ⟨?_, ?_⟩
    · simp only [unrollCallStack, FullFrame.measure, Holder.codes, Children.measure, Prod.fst_add, List.map_nil, Multiset.coe_nil]
      abel
    · simp only [unrollCallStack, FullFrame.measure, Holder.weight, Children.measure, Prod.snd_add, nothing, maps_none,
        Bool.toNat_true, Multiset.card_zero]
      omega
  | cons sf newer ih =>
    have inner := ih (fun sf member => synched sf (List.mem_cons_of_mem _ member)) ⟨sf, 0, true, none, .suspended, false⟩
      (.none none 0)
    have sf_synched := synched sf List.mem_cons_self
    obtain ⟨codes, weight⟩ := inner
    refine ⟨?_, ?_⟩
    · change {ff.callStack.code} + 0 + (children.measure + _ + _).1 = _
      simp only [Prod.fst_add, add_assoc, codes, List.map_cons, ← Multiset.cons_coe, ← Multiset.singleton_add, Children.measure]
      abel
    · change 0 + 2 * maps ff.rightReducerMap + 10 * ff.callStack.unsynched.toNat + (children.measure + _ + _).2 ≤ _
      simp only [Children.measure, maps_none, sf_synched, Bool.toNat_false, Multiset.card_zero, Prod.snd_add] at weight ⊢
      omega

omit [Mul M] in
theorem steal_descends {victim thief : Worker M} {newer older : List (StackFrame M)} {helper : StackFrame M}
    {r : FullFrame M × Children M} (consistent : ff.Consistent children) (nothing : thief.reducerMap = none)
    (held : ff.holder = .running victim (newer ++ helper :: older))
    (result : detachForSteal ff children victim thief newer helper older = some r) :
    Descends (total r.1 r.2) (total ff children) := by
  have holds := consistent.holds
  simp only [FullFrame.Holds, held] at holds
  obtain ⟨-, -, -, stacked⟩ := holds
  obtain ⟨-, above, older_stacked⟩ := stacked_append.mp stacked
  unfold detachForSteal at result
  split at result
  · cases result
  · obtain rfl := Option.some.inj result
    obtain ⟨codes, weight⟩ := unrollCallStack_measure
      ⟨helper, 1, false, none, .running victim.setSyncMaster newer, false⟩ victim.firstStolen nothing
      older.reverse (fun sf member => (stacked_mem older_stacked (List.mem_reverse.mp member)).1)
      { ff with joinCounter := ff.joinCounter - 1 } children
    have reversed : ((older.reverse.map StackFrame.code : List (Code M)) : Multiset (Code M)) =
        (older.map StackFrame.code : List (Code M)) := by
      rw [List.map_reverse, Multiset.coe_reverse]
    refine .inr ⟨?_, ?_⟩
    · rw [total, Prod.fst_add, codes, reversed]
      simp only [total, FullFrame.measure, Holder.codes, held, Prod.fst_add, List.map_append, List.map_cons,
        ← Multiset.coe_add, ← Multiset.cons_coe, ← Multiset.singleton_add]
      abel
    · simp only [total, Prod.snd_add, FullFrame.measure, Holder.weight, held, above.synched, Bool.toNat_false, maps_none,
        Worker.setSyncMaster_reducerMap, List.length_append, List.length_cons] at weight ⊢
      omega

omit [Mul M] in
theorem reductionsForSpawnReturn_maps (again : Bool) (l m r : Option M) :
    let maps' := reductionsForSpawnReturn again l m r
    maps maps'.1 + maps maps'.2.1 + maps maps'.2.2 = maps l + maps m + maps r := by
  cases again <;> cases l <;> cases m <;> cases r <;> rfl

omit [Mul M] in
theorem spliceSpawnReturn_descends {left below row : Children M} {again : Bool} (inv : (left.snoc ff below).Inv)
    (held : ff.holder = .spawnReturn w again) (result : spliceSpawnReturn left ff below w again = some row) :
    Descends row.measure (left.snoc ff below).measure := by
  have counted := reductionsForSpawnReturn_maps again left.leftMap w.reducerMap ff.rightReducerMap
  unfold spliceSpawnReturn at result
  generalize reductionsForSpawnReturn again left.leftMap w.reducerMap ff.rightReducerMap = maps' at counted result
  obtain ⟨l, m, r⟩ := maps'
  simp only at counted result
  split at result
  · obtain rfl := Option.some.inj result
    obtain ⟨codes, weight⟩ := left.measure_setLeftMap none
    refine .inr ⟨?_, ?_⟩
    · simp only [Children.measure, FullFrame.measure, Holder.codes, held, Prod.fst_add, codes]
    · simp only [Children.measure, FullFrame.measure, Holder.weight, held, Prod.snd_add, maps_none] at weight ⊢
      omega
  · split at result
    · cases result
    · obtain rfl := Option.some.inj result
      cases inv with
      | snoc _ _ consistent _ _ =>
        have holds := consistent.holds
        simp only [FullFrame.Holds, held] at holds
        obtain rfl : below = .none none 0 := holds.1.bare
        refine descends_of_end ff.callStack.code ?_
        rw [((left.setLeftMap l).measure_setUnlinked _).1, (left.measure_setLeftMap l).1]
        simp only [Children.measure, FullFrame.measure, Holder.codes, held, Prod.fst_add, add_zero]
        abel

end Descends

section Runs
variable [Monoid M]

theorem FrameStep.descends {ff : FullFrame M} {children : Children M} {idle : Multiset (Worker M)} {r : Local M}
    (step : FrameStep ff children idle (some r)) (consistent : ff.Consistent children) (inv : children.Inv)
    (empty : Idle idle) : Descends (total r.1 r.2.1) (total ff children) := by
  generalize result_eq : some r = result at step
  cases step with
  | run held runs =>
    cases result_eq
    exact run_descends held runs
  | leave held ends synched =>
    cases result_eq
    exact leave_descends held
  | sync held stalls =>
    obtain ⟨_, result, rfl⟩ := Option.map_eq_some_iff.mp result_eq.symm
    exact sync_descends held result
  | syncLoop held =>
    cases result_eq
    exact syncLoop_descends held
  | syncMerge held =>
    cases result_eq
    exact syncMerge_descends consistent held
  | doSync held team =>
    obtain ⟨_, result, rfl⟩ := Option.map_eq_some_iff.mp result_eq.symm
    exact doSync_descends consistent held (team.empty_leader empty) result
  | exceptionCheck held ends helper =>
    cases result_eq
    exact exceptionCheck_descends held
  | reduce held =>
    obtain ⟨_, result, rfl⟩ := Option.map_eq_some_iff.mp result_eq.symm
    exact reduce_descends consistent held result
  | doReturnFromSpawn gone team =>
    obtain ⟨_, result, rfl⟩ := Option.map_eq_some_iff.mp result_eq.symm
    exact doReturnFromSpawn_descends consistent inv gone (team.empty_leader empty) result
  | returnFromCall rightmost returns =>
    obtain ⟨_, result, rfl⟩ := Option.map_eq_some_iff.mp result_eq.symm
    exact returnFromCall_descends consistent inv rightmost returns result
  | setup held =>
    obtain ⟨_, result, rfl⟩ := Option.map_eq_some_iff.mp result_eq.symm
    exact setup_descends held result
  | steal held detached oldest =>
    obtain ⟨_, result, rfl⟩ := Option.map_eq_some_iff.mp result_eq.symm
    exact steal_descends consistent (empty _ (Multiset.mem_cons_self _ _)).1 held result

theorem Step.descends {children : Children M} {idle : Multiset (Worker M)}
    {result : Option (Children M × Multiset (Worker M))} (step : Step children idle result) (inv : children.Inv)
    (empty : Idle idle) : ∀ r, result = some r → Descends r.1.measure children.measure := by
  induction step with
  | @frame siblings ff children idle result step =>
    intro r result
    obtain ⟨r, rfl, rfl⟩ := Option.map_eq_some_iff.mp result
    cases inv with
    | snoc left_inv below_inv consistent isChild spawned =>
      have smaller := (step.descends consistent below_inv empty).add_left siblings.measure
      rwa [total, total, ← add_assoc, ← add_assoc] at smaller
  | inside step ih =>
    intro r result
    obtain ⟨r, rfl, rfl⟩ := Option.map_eq_some_iff.mp result
    cases inv with
    | snoc left_inv below_inv consistent isChild spawned => exact (ih below_inv empty r rfl).add_left _
  | left step ih =>
    intro r result
    obtain ⟨r, rfl, rfl⟩ := Option.map_eq_some_iff.mp result
    cases inv with
    | snoc left_inv below_inv consistent isChild spawned =>
      exact ((ih left_inv empty r rfl).add_right _).add_right _
  | spawnReturn held =>
    intro r result
    obtain ⟨row, spliced, rfl⟩ := Option.map_eq_some_iff.mp result
    exact spliceSpawnReturn_descends inv held spliced
  | returnsFromTheMiddle returns =>
    intro r result
    cases result

namespace State

variable {leader : ℤ} {others : Multiset ℤ}

theorem Steps.descends {s s' : State M} (step : s.Steps (some s')) (inv : s.Inv leader others) :
    Descends (total s'.root s'.children) (total s.root s.children) := by
  generalize result_eq : some s' = result at step
  cases step with
  | frame step =>
    obtain ⟨r, rfl, rfl⟩ := Option.map_eq_some_iff.mp result_eq.symm
    exact step.descends inv.consistent inv.children inv.idle
  | inside step =>
    obtain ⟨r, rfl, rfl⟩ := Option.map_eq_some_iff.mp result_eq.symm
    exact (step.descends inv.children inv.idle r rfl).add_left _
  | spawnReturnOfRoot held => cases result_eq
  | failsAtTheEnd ends fails => cases result_eq

/-- From a state that keeps the invariants, no run goes on for ever. -/
theorem acc_steps {s : State M} (inv : s.Inv leader others) : Acc (fun s' s : State M => s.Steps (some s')) s := by
  induction h : total s.root s.children using (wellFounded (α := Code M)).induction generalizing s with
  | _ measure ih =>
    subst h
    refine .intro _ fun s' step => ?_
    obtain ⟨_, same, inv', -⟩ := step.preserved inv
    obtain rfl := Option.some.inj same
    exact ih _ (step.descends inv) inv' rfl

end State

end Runs

end CilkArtifact.Runtime
