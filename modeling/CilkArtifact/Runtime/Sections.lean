import CilkArtifact.Runtime.Invariant

/-! Every section of the runtime passes its assertions on a consistent frame, keeps it consistent and leaves what
the frame still has to do as it was. -/
namespace CilkArtifact.Runtime
universe u
variable {M : Type u} [Monoid M]

/-- What a step of a frame keeps. -/
structure Preserved (ff : FullFrame M) (children : Children M) (r : Local M) : Prop where
  consistent : r.1.Consistent r.2.1
  inv : r.2.1.Inv
  idle : Idle r.2.2
  right : r.1.rightReducerMap = ff.rightReducerMap
  call : r.1.isCallChild = ff.isCallChild
  detached : r.1.callStack.detached = ff.callStack.detached
  last : r.1.callStack.last = ff.callStack.last
  finish : r.1.finish r.2.1.sum = ff.finish children.sum

section Execute
variable {stale : Pedigree} {w w' : Worker M} {sf sf' : StackFrame M} {pushed : List (StackFrame M)}

/-- What one operation of user code does to the current frame and its worker. -/
structure Executed (w : Worker M) (sf : StackFrame M) (w' : Worker M) (sf' : StackFrame M)
    (pushed : List (StackFrame M)) : Prop where
  mine : w'.workStolen = w.workStolen
  unsynched : sf'.unsynched = sf.unsynched
  detached : sf'.detached = sf.detached
  last : sf'.last = sf.last
  helperPedigree : sf'.spawnHelperPedigree = sf.spawnHelperPedigree
  ofHelper : sf.detached = true → sf'.code.OfHelper
  stacked : Stacked sf' pushed
  pedigree : (stackSerial (pushed ++ [sf']) w'.pedigree).2 = (sf.serial w.pedigree).2
  value : view w'.reducerMap * (stackSerial (pushed ++ [sf']) w'.pedigree).1 =
    view w.reducerMap * (sf.serial w.pedigree).1

omit [Monoid M] in
theorem attached_of_code (helper : sf.detached = true → sf.code.OfHelper) (other : ¬ sf.code.OfHelper) :
    sf.detached = false := by
  by_contra detached
  exact other (helper (by simpa using detached))

theorem execute_spec (helper : sf.detached = true → sf.code.OfHelper)
    (runs : execute stale w sf = some (w', sf', pushed)) : Executed w sf w' sf' pushed := by
  unfold execute at runs
  split at runs
  case h_1 => cases runs
  case h_2 update rest code =>
    obtain ⟨rfl, rfl, rfl⟩ := runs
    have attached := attached_of_code helper (by simp [Code.OfHelper, code])
    exact ⟨rfl, rfl, rfl, rfl, rfl, by simp [attached], trivial,
      by simp [StackFrame.serial, StackFrame.leave, code, Code.serial],
      by simp [StackFrame.serial, code, Code.serial, mul_assoc]⟩
  case h_3 rest code =>
    obtain ⟨rfl, rfl, rfl⟩ := runs
    have attached := attached_of_code helper (by simp [Code.OfHelper, code])
    exact ⟨rfl, rfl, rfl, rfl, rfl, by simp [attached], trivial,
      by simp [StackFrame.serial, StackFrame.leave, code, Code.serial],
      by simp [StackFrame.serial, code, Code.serial]⟩
  case h_4 body rest code =>
    obtain ⟨rfl, rfl, rfl⟩ := runs
    have attached := attached_of_code helper (by simp [Code.OfHelper, code])
    -- the helper calls the body below the new pedigree and restores the old one when it leaves
    have spawned (p : Pedigree) : (spawnHelper body w stale).serial p = ((body.serial p).1, w.pedigree.bump) := by
      simp [spawnHelper, StackFrame.serial, StackFrame.leave, Code.serial]
    refine ⟨rfl, rfl, rfl, rfl, rfl, by simp [attached], ?_, ?_, ?_⟩
    · exact ⟨⟨rfl, rfl, fun _ => ⟨.inr ⟨body, rfl⟩, attached, rfl⟩⟩, trivial⟩
    · simp only [List.cons_append, List.nil_append, stackSerial, spawned]
      simp [StackFrame.serial, StackFrame.leave, attached, code, Code.serial]
    · simp only [List.cons_append, List.nil_append, stackSerial, spawned]
      simp [StackFrame.serial, code, Code.serial]
  case h_5 body rest code =>
    obtain ⟨rfl, rfl, rfl⟩ := runs
    have called (p : Pedigree) : (enterFrame body stale).serial p = ((body.serial p).1, (body.serial p).2.bump) := by
      simp [enterFrame, StackFrame.serial, StackFrame.leave]
    refine ⟨rfl, rfl, rfl, rfl, rfl, fun detached => ?_, ?_, ?_, ?_⟩
    · obtain ends | ⟨_, calls⟩ := helper detached
      · simp [code] at ends
      · simp only [code, Code.call.injEq] at calls
        exact .inl calls.2
    · exact ⟨⟨rfl, rfl, by simp [enterFrame]⟩, trivial⟩
    · simp only [List.cons_append, List.nil_append, stackSerial, called]
      simp [StackFrame.serial, StackFrame.leave, code, Code.serial]
    · simp only [List.cons_append, List.nil_append, stackSerial, called]
      simp [StackFrame.serial, code, Code.serial]
  case h_6 rest code =>
    split at runs
    · cases runs
    · obtain ⟨rfl, rfl, rfl⟩ := runs
      have attached := attached_of_code helper (by simp [Code.OfHelper, code])
      exact ⟨rfl, rfl, rfl, rfl, rfl, by simp [attached], trivial,
        by simp [StackFrame.serial, StackFrame.leave, code, Code.serial],
        by simp [StackFrame.serial, code, Code.serial]⟩

end Execute

section Preserve
variable {ff ff' : FullFrame M} {children : Children M} {idle : Multiset (Worker M)} {w : Worker M}
  {young : List (StackFrame M)}

omit [Monoid M] in
theorem consistent_running {oldest : StackFrame M} (consistent : ff.Consistent children)
    (held : ff.holder = .running w young) {w' : Worker M} {young' : List (StackFrame M)}
    (unsynched : oldest.unsynched = ff.callStack.unsynched) (mine : w'.workStolen = w.workStolen)
    (helper : oldest.detached = true → oldest.unsynched = false ∧ oldest.code.OfHelper)
    (stacked : Stacked oldest young') :
    ({ ff with callStack := oldest, holder := .running w' young' } : FullFrame M).Consistent children := by
  have holds := consistent.holds
  simp only [FullFrame.Holds, held] at holds
  have joins := consistent.joins
  simp only [FullFrame.holders, held] at joins
  exact ⟨joins, helper, holds.1, mine.trans holds.2.1, fun synched => holds.2.2.1 (unsynched ▸ synched), stacked⟩

theorem run_preserved {stale : Pedigree} (consistent : ff.Consistent children) (inv : children.Inv)
    (empty : Idle idle) (held : ff.holder = .running w young) (runs : ff.run stale w young = some ff') :
    Preserved ff children (ff', children, idle) := by
  have holds := consistent.holds
  simp only [FullFrame.Holds, held] at holds
  obtain ⟨-, -, -, stacked⟩ := holds
  simp only [FullFrame.run, Option.bind_eq_bind, Option.bind_eq_some_iff] at runs
  obtain ⟨⟨w', sf', pushed⟩, executed, runs⟩ := runs
  cases young with
  | nil =>
    have spec := execute_spec (fun detached => (consistent.helper detached).2) executed
    cases runs
    refine ⟨consistent_running consistent held spec.unsynched spec.mine (fun detached => ?_) spec.stacked, inv, empty, rfl, rfl,
      spec.detached, spec.last, ?_⟩
    · rw [spec.detached] at detached
      exact ⟨spec.unsynched.trans (consistent.helper detached).1, spec.ofHelper detached⟩
    · simp [FullFrame.finish, FullFrame.rest, Holder.hand, held, mul_assoc, spec.value, spec.pedigree]
  | cons sf young =>
    obtain ⟨above, stacked⟩ := stacked
    have spec : Executed w sf w' sf' pushed := execute_spec (fun detached => (above.helper detached).1) executed
    cases runs
    have above' : sf'.Above (young.headD ff.callStack) := by
      refine ⟨spec.unsynched.trans above.synched, spec.last.trans above.notLast, fun detached => ?_⟩
      rw [spec.detached] at detached
      exact ⟨spec.ofHelper detached, (above.helper detached).2.1,
        (above.helper detached).2.2.trans spec.helperPedigree.symm⟩
    refine ⟨consistent_running consistent held rfl spec.mine consistent.helper
      (stacked_append.mpr ⟨spec.stacked, above', stacked⟩), inv, empty, rfl, rfl, rfl, rfl, ?_⟩
    have split : pushed ++ sf' :: young ++ [ff.callStack] = (pushed ++ [sf']) ++ (young ++ [ff.callStack]) := by simp
    have whole : sf :: young ++ [ff.callStack] = [sf] ++ (young ++ [ff.callStack]) := by simp
    simp only [FullFrame.finish, FullFrame.rest, Holder.hand, held, split, whole, stackSerial_append _ (young ++ _),
      stackSerial_singleton, spec.pedigree, mul_assoc]
    rw [← mul_assoc (view w'.reducerMap), spec.value, mul_assoc]

theorem leave_preserved {sf : StackFrame M} (consistent : ff.Consistent children) (inv : children.Inv)
    (empty : Idle idle) (held : ff.holder = .running w (sf :: young)) (ends : sf.code = .ret) :
    Preserved ff children ({ ff with holder := .running (w.leave sf) young }, children, idle) := by
  have holds := consistent.holds
  simp only [FullFrame.Holds, held] at holds
  refine ⟨consistent_running consistent held rfl rfl consistent.helper holds.2.2.2.2, inv, empty, rfl, rfl, rfl, rfl, ?_⟩
  simp [FullFrame.finish, FullFrame.rest, Holder.hand, held, stackSerial, StackFrame.serial, ends, Code.serial,
    Worker.leave]

omit [Monoid M] in
theorem stalls_of_synched {sf : StackFrame M} (synched : sf.unsynched = false) : sf.stalls = false := by
  simp only [StackFrame.stalls, synched, Bool.false_and]
  split <;> rfl

theorem sync_preserved (consistent : ff.Consistent children) (inv : children.Inv) (empty : Idle idle)
    (held : ff.holder = .running w young) (stalls : (ff.current young).stalls = true) :
    ∃ ff', ff.cSync w young = some ff' ∧ Preserved ff children (ff', children, idle) := by
  have holds := consistent.holds
  have joins := consistent.joins
  simp only [FullFrame.Holds, FullFrame.holders, held] at holds joins
  obtain ⟨spawned, mine, clean, stacked⟩ := holds
  cases young with
  | cons sf young =>
    have calm : sf.stalls = false := stalls_of_synched stacked.1.synched
    simp only [FullFrame.current, calm] at stalls
    cases stalls
  | nil =>
    have helper := consistent.helper
    have atSync : ({ ff.callStack with parentPedigree := w.pedigree } : StackFrame M).stalls = true := stalls
    cases map : w.reducerMap with
    | none =>
      simp only [FullFrame.cSync, map, Option.some.injEq, exists_eq_left']
      refine ⟨⟨joins, helper, atSync, spawned, mine, map⟩, inv, empty, rfl, rfl, rfl, rfl, ?_⟩
      simp [FullFrame.finish, FullFrame.rest, Holder.hand, held, StackFrame.serial, StackFrame.leave]
    | some map' =>
      simp only [FullFrame.cSync, map, Option.some.injEq, exists_eq_left']
      refine ⟨⟨joins, helper, ⟨atSync, spawned, mine, rfl⟩, rfl⟩, inv, empty, rfl, rfl, rfl, rfl, ?_⟩
      simp [FullFrame.finish, FullFrame.rest, Holder.hand, held, StackFrame.serial, StackFrame.leave, map]

theorem syncMerge_preserved {left middle : Option M} (consistent : ff.Consistent children) (inv : children.Inv)
    (empty : Idle idle) (held : ff.holder = .merging w left middle) :
    Preserved ff children ({ ff with holder := .syncing w (mergeReducerMaps left middle) }, children, idle) := by
  have holds := consistent.holds
  have joins := consistent.joins
  simp only [FullFrame.Holds, FullFrame.holders, held] at holds joins
  obtain ⟨atSync, left_some, middle_some⟩ := holds
  have merged : (mergeReducerMaps left middle).isSome = true := by simp [merge_isSome, left_some]
  refine ⟨⟨joins, consistent.helper, ⟨atSync.stalls, atSync.spawned, atSync.mine, atSync.empty⟩, merged⟩, inv, empty,
    rfl, rfl, rfl, rfl, ?_⟩
  simp [FullFrame.finish, FullFrame.rest, Holder.hand, held]

theorem syncLoop_preserved {middle : Option M} (consistent : ff.Consistent children) (inv : children.Inv)
    (empty : Idle idle) (held : ff.holder = .syncing w middle) :
    Preserved ff children
      ((reductionsForSync ff children w middle).1, (reductionsForSync ff children w middle).2, idle) := by
  have holds := consistent.holds
  have joins := consistent.joins
  simp only [FullFrame.Holds, FullFrame.holders, held] at holds joins
  obtain ⟨⟨stalls, spawned, mine, nothing⟩, middle_some⟩ := holds
  obtain ⟨m, rfl⟩ := Option.isSome_iff_exists.mp middle_some
  cases map : children.leftMap with
  | none =>
    simp only [reductionsForSync, map, Option.isNone_none, ↓reduceIte]
    refine ⟨⟨by simpa [FullFrame.holders] using joins, consistent.helper, stalls, spawned.setLeftMap _, mine, nothing⟩,
      inv.setLeftMap spawned _, empty, rfl, rfl, rfl, rfl, ?_⟩
    simp [FullFrame.finish, FullFrame.rest, Holder.hand, held, Children.sum_setLeftMap, Children.sum_eq, map, nothing]
  | some l =>
    simp only [reductionsForSync, map, Option.isNone_some, Bool.false_eq_true, ↓reduceIte]
    refine ⟨⟨by simpa [FullFrame.holders] using joins, consistent.helper,
      ⟨stalls, spawned.setLeftMap _, mine, nothing⟩, rfl, rfl⟩, inv.setLeftMap spawned _, empty, rfl, rfl, rfl, rfl, ?_⟩
    simp [FullFrame.finish, FullFrame.rest, Holder.hand, held, Children.sum_setLeftMap, Children.sum_eq, map, mul_assoc]

theorem sum_called {children : Children M} (spawned : children.awaitsCall = false) : children.sum.2 = none := by
  cases children with
  | none _ _ => rfl
  | snoc left child below => exact if_neg (by simpa [Children.awaitsCall] using spawned)

omit [Monoid M] in
theorem Idle.cons (empty : Idle idle) (waits : w.reducerMap = none ∧ (w.user = true → w.workStolen = false)) :
    Idle (w ::ₘ idle) := by
  intro other member
  rcases Multiset.mem_cons.mp member with rfl | member
  · exact waits
  · exact empty other member

section Leader
variable {leader : Option (Worker M)} {others : Multiset (Worker M)}

omit [Monoid M] in
theorem Team.eq (team : Team idle leader others) : idle = leader.toList + others := by
  cases team with
  | waits user => rfl
  | busy system => exact (zero_add _).symm

omit [Monoid M] in
theorem Team.user (team : Team idle leader others) : ∀ w ∈ leader, w.user = true := by
  cases team with
  | waits user => simpa using user
  | busy system => simp

omit [Monoid M] in
theorem Team.hasLeader (team : Team idle leader others) (leads : ∃ w' ∈ w ::ₘ idle, w'.user = true)
    (system : w.user = false) : ∃ first, leader = some first := by
  obtain ⟨w', member, user⟩ := leads
  cases team with
  | waits _ => exact ⟨_, rfl⟩
  | busy all =>
    rcases Multiset.mem_cons.mp member with rfl | member
    · cases system.symm.trans user
    · cases (all w' member).symm.trans user

omit [Monoid M] in
/-- The last child, or the frame itself, comes to the sync: some worker gets the frame, and it is the leader where
the frame has a sync master. -/
theorem provablyGoodSteal_last (last : ff.joinCounter = 1) (waits : Idle {w}) (mine : w.workStolen = false)
    (empty : Idle idle) (team : Team idle leader others) (leads : ff.syncMaster = true → ∃ w' ∈ w ::ₘ idle, w'.user = true) :
    ∃ owner waiting, provablyGoodSteal ff w leader =
        some ({ ff with
          callStack := { ff.callStack with unsynched := false }
          joinCounter := 1, holder := .next owner false, syncMaster := false }, waiting) ∧
      owner.reducerMap = none ∧ owner.workStolen = false ∧ Idle (waiting + others) := by
  have nothing := (waits w (Multiset.mem_singleton_self w)).1
  have kept := team.eq ▸ empty
  simp only [provablyGoodSteal, last, one_ne_zero, ↓reduceIte]
  cases master : ff.syncMaster with
  | false => exact ⟨w, leader.toList, rfl, nothing, mine, kept⟩
  | true =>
    by_cases user : w.user = true
    · exact ⟨{ w with lastFullFrame := false }, leader.toList, by rw [if_pos rfl, if_pos user], nothing, mine, kept⟩
    · obtain ⟨first, rfl⟩ := team.hasLeader (leads master) (by simpa using user)
      have firstWaits := kept first (by simp)
      refine ⟨{ first with lastFullFrame := false }, {w}, by rw [if_pos rfl, if_neg user], firstWaits.1,
        firstWaits.2 (team.user first rfl), ?_⟩
      intro other member
      rcases Multiset.mem_add.mp member with member | member
      · exact waits other member
      · exact kept other (Multiset.mem_add.mpr (.inr member))

theorem doSync_preserved (consistent : ff.Consistent children) (inv : children.Inv) (empty : Idle idle)
    (held : ff.holder = .stalled w) (team : Team idle leader others) (leads : ff.HasLeader children idle) :
    ∃ r, doSync ff w leader = some r ∧ Preserved ff children (r.1, children, r.2 + others) := by
  have holds := consistent.holds
  have joins := consistent.joins
  simp only [FullFrame.Holds, FullFrame.holders, held] at holds joins
  obtain ⟨stalls, spawned, mine, nothing⟩ := holds
  have unsynched : ff.callStack.unsynched = true := by
    by_contra synched
    rw [stalls_of_synched (by simpa using synched)] at stalls
    cases stalls
  have attached : ff.callStack.detached = false := by
    by_contra detached
    rw [(consistent.helper (by simpa using detached)).1] at unsynched
    cases unsynched
  have waits : Idle {w} := by simp [Idle, nothing, mine]
  by_cases last : children.joining = 0
  · have leads' (master : ff.syncMaster = true) : ∃ w' ∈ w ::ₘ idle, w'.user = true := by
      obtain ⟨w', member, user⟩ := leads master
      rw [crew, held, Children.eq_none_of_joining last] at member
      exact ⟨w', by simpa [Holder.workers, Children.workers] using member, user⟩
    let left : FullFrame M := { ff with
      callStack := { ff.callStack with parentPedigree := w.pedigree, pedigreeUnsynched := true }
      holder := .suspended }
    have joined : left.joinCounter = 1 := by rw [joins, last]
    obtain ⟨owner, waiting, result, nothing', mine', empty'⟩ :=
      provablyGoodSteal_last joined waits mine empty team leads'
    refine ⟨_, (if_pos unsynched).trans result, ⟨?_, ?_, ?_⟩, inv, empty', rfl, rfl, rfl, rfl, ?_⟩
    · simp [FullFrame.holders, last]
    · simp [left, attached]
    · simp [left, FullFrame.Holds, nothing', spawned, mine', last]
    · simp [left, FullFrame.finish, FullFrame.rest, Holder.hand, held, setupForExecutionPedigree, nothing', mine', nothing,
        StackFrame.serial, StackFrame.leave]
  · simp only [doSync, unsynched, ↓reduceIte, provablyGoodSteal, joins, Nat.add_eq_zero_iff, one_ne_zero, and_false,
      Nat.add_eq_right, last, Nat.add_sub_cancel, Option.some.injEq, exists_eq_left']
    refine ⟨⟨?_, ?_, ?_⟩, inv, ?_, rfl, rfl, rfl, rfl, ?_⟩
    · simp [FullFrame.holders]
    · simp [attached]
    · simp [FullFrame.Holds, spawned.awaitsCall, Nat.pos_of_ne_zero last]
    · rw [Multiset.cons_add, ← team.eq]
      exact empty.cons (waits w (Multiset.mem_singleton_self w))
    · simp [FullFrame.finish, FullFrame.rest, FullFrame.resumes, Holder.hand, held, sum_called spawned.awaitsCall,
        nothing, StackFrame.serial, StackFrame.leave]

end Leader

theorem exceptionCheck_preserved (consistent : ff.Consistent children) (inv : children.Inv) (empty : Idle idle)
    (held : ff.holder = .running w []) (ends : ff.callStack.code = .ret) (helper : ff.callStack.detached = true) :
    Preserved ff children ({ ff with holder := .spawnReturn w false }, children, idle) := by
  have holds := consistent.holds
  have joins := consistent.joins
  simp only [FullFrame.Holds, FullFrame.holders, held] at holds joins
  obtain ⟨-, mine, clean, -⟩ := holds
  have bare := clean (consistent.helper helper).1
  refine ⟨⟨joins, consistent.helper, ⟨helper, bare, mine⟩, by simp⟩, inv, empty, rfl, rfl, rfl, rfl, ?_⟩
  simp [FullFrame.finish, FullFrame.rest, Holder.hand, held, StackFrame.serial, ends, Code.serial]

theorem reduce_preserved {left middle right : Option M} (consistent : ff.Consistent children) (inv : children.Inv)
    (empty : Idle idle) (held : ff.holder = .reducing w left middle right) :
    ∃ ff', reduceForSpawnReturn ff w left middle right = some ff' ∧ Preserved ff children (ff', children, idle) := by
  have holds := consistent.holds
  have joins := consistent.joins
  simp only [FullFrame.Holds, FullFrame.holders, held] at holds joins
  obtain ⟨returned, nothing, left_some, middle_some⟩ := holds
  simp only [reduceForSpawnReturn, nothing, Option.isSome_none, Bool.false_eq_true, ↓reduceIte, Option.some.injEq,
    exists_eq_left']
  refine ⟨⟨joins, consistent.helper, ⟨returned.detached, returned.bare, returned.mine⟩, fun _ => ?_⟩, inv, empty,
    rfl, rfl, rfl, rfl, ?_⟩
  · simp [merge_isSome, left_some]
  · simp [FullFrame.finish, FullFrame.rest, Holder.hand, held]

omit [Monoid M] in
/-- The children of a frame that has some may change where it does not depend on how many there are. -/
theorem holds_of_children {children' : Children M} (holds : ff.Holds children) (busy : children.joining ≠ 0)
    (awaitsCall : children'.awaitsCall = children.awaitsCall) (spawned : children.Spawned → children'.Spawned)
    (onlyCall : children.OnlyCall → children'.OnlyCall)
    (waiting : ff.holder = .suspended → children.awaitsCall = false → 0 < children'.joining) : ff.Holds children' := by
  have bare : ¬ children.Bare := fun bare => busy (by rw [bare]; rfl)
  have clean {sf : StackFrame M} (clean : sf.Clean children) : sf.Clean children' :=
    fun synched => absurd (clean synched) bare
  have atSync {sf : StackFrame M} {w : Worker M} (atSync : sf.AtSync children w) : sf.AtSync children' w :=
    ⟨atSync.stalls, spawned atSync.spawned, atSync.mine, atSync.empty⟩
  cases held : ff.holder with
  | suspended =>
    simp only [FullFrame.Holds, held, awaitsCall] at holds ⊢
    split at holds
    case isTrue called =>
      rw [if_pos called]
      exact fun synched => onlyCall (holds synched)
    case isFalse notCalled =>
      rw [if_neg notCalled]
      exact ⟨holds.1, holds.2.1, waiting held (by simpa using notCalled)⟩
  | next w isReturnFromCall =>
    cases isReturnFromCall with
    | true =>
      simp only [FullFrame.Holds, held] at holds ⊢
      exact ⟨spawned holds.1, holds.2.1, clean holds.2.2⟩
    | false =>
      simp only [FullFrame.Holds, held] at holds ⊢
      refine ⟨holds.1, spawned holds.2.1, ?_⟩
      split
      case isTrue stolen => exact (if_pos stolen ▸ holds.2.2 :)
      case isFalse synched => exact absurd (if_neg synched ▸ holds.2.2 :).2.2 busy
  | running w young =>
    simp only [FullFrame.Holds, held] at holds ⊢
    exact ⟨spawned holds.1, holds.2.1, clean holds.2.2.1, holds.2.2.2⟩
  | spawnReturn w again =>
    simp only [FullFrame.Holds, held] at holds
    exact absurd holds.1.bare bare
  | reducing w left middle right =>
    simp only [FullFrame.Holds, held] at holds
    exact absurd holds.1.bare bare
  | syncing w middle =>
    simp only [FullFrame.Holds, held] at holds ⊢
    exact ⟨atSync holds.1, holds.2⟩
  | merging w left middle =>
    simp only [FullFrame.Holds, held] at holds ⊢
    exact ⟨atSync holds.1, holds.2⟩
  | stalled w =>
    simp only [FullFrame.Holds, held] at holds ⊢
    exact atSync holds

omit [Monoid M] in
/-- The frame that the last child leaves waits at a sync. -/
theorem last_joins {child : Unlinked M} {unlinked : Multiset (Unlinked M)} (consistent : ff.Consistent children)
    (gone : children.unlinked = child ::ₘ unlinked) (last : ff.joinCounter = 1) :
    ff.holder = .suspended ∧ children.awaitsCall = false ∧ (children.setUnlinked unlinked).joining = 0 ∧
      ff.callStack.unsynched = true ∧ ff.callStack.pedigreeUnsynched = true := by
  have joined : children.joining = (children.setUnlinked unlinked).joining + 1 := by
    simp [Children.joining, gone, Nat.add_assoc]
  have joins := consistent.joins
  have alone : (children.setUnlinked unlinked).joining = 0 := by omega
  have suspended : ff.holder = .suspended := by
    have none : ff.holders = 0 := by omega
    unfold FullFrame.holders at none
    split at none
    case h_1 held => exact held
    case h_2 => cases none
  have spawned : children.awaitsCall = false := by
    rw [← Children.awaitsCall_setUnlinked children unlinked, Children.eq_none_of_joining alone]
    rfl
  have holds := consistent.holds
  simp only [FullFrame.Holds, suspended, spawned, Bool.false_eq_true, ↓reduceIte] at holds
  exact ⟨suspended, spawned, alone, holds.1, holds.2.1⟩

omit [Monoid M] in
/-- No worker but that of the last child is left below the frame. -/
theorem workers_last {child : Unlinked M} {unlinked : Multiset (Unlinked M)} (gone : children.unlinked = child ::ₘ unlinked)
    (alone : (children.setUnlinked unlinked).joining = 0) : children.workers = {child.worker} := by
  have former := Children.eq_none_of_joining alone
  cases children with
  | none map unlinked' =>
    obtain ⟨-, rfl⟩ := Children.none.inj former
    rw [Children.workers, show unlinked' = {child} from gone]
    rfl
  | snoc _ _ _ => cases former

theorem doReturnFromSpawn_preserved {child : Unlinked M} {unlinked : Multiset (Unlinked M)} {leader : Option (Worker M)}
    {others : Multiset (Worker M)} (consistent : ff.Consistent children) (inv : children.Inv) (empty : Idle idle)
    (gone : children.unlinked = child ::ₘ unlinked) (team : Team idle leader others)
    (leads : ff.HasLeader children idle) :
    ∃ r, doReturnFromSpawn ff child leader = some r ∧
      Preserved ff children (r.1, children.setUnlinked unlinked, r.2 + others) := by
  have ready : child.Ready := inv.unlinked_ready child (by simp [gone])
  have inv' : (children.setUnlinked unlinked).Inv :=
    inv.setUnlinked fun other member => inv.unlinked_ready other (by simp [gone, member])
  have joined : children.joining = (children.setUnlinked unlinked).joining + 1 := by
    simp [Children.joining, gone, Nat.add_assoc]
  have joins := consistent.joins
  have counted : ff.joinCounter ≠ 0 := by omega
  have waits : Idle {child.worker} := by simp [Idle, ready.empty, ready.mine]
  by_cases last : ff.joinCounter = 1
  · obtain ⟨suspended, spawned, alone, unsynched, pedigree⟩ := last_joins consistent gone last
    have attached : ff.callStack.detached = false := by
      by_contra detached
      rw [(consistent.helper (by simpa using detached)).1] at unsynched
      cases unsynched
    have leads' (master : ff.syncMaster = true) : ∃ w ∈ child.worker ::ₘ idle, w.user = true := by
      obtain ⟨w, member, user⟩ := leads master
      rw [crew, suspended, workers_last gone alone] at member
      exact ⟨w, by simpa [Holder.workers] using member, user⟩
    obtain ⟨owner, waiting, result, nothing, mine, empty'⟩ :=
      provablyGoodSteal_last last waits ready.mine empty team leads'
    simp only [doReturnFromSpawn, ready.spawned, Bool.false_eq_true, ready.joins, one_ne_zero, or_self, ↓reduceIte,
      result, Option.bind_eq_bind, Option.bind_some, ready.childrenMap, ready.rightMap,
      Option.isSome_none, Option.some.injEq, exists_eq_left']
    refine ⟨⟨?_, ?_, ?_⟩, inv', empty', rfl, rfl, rfl, rfl, ?_⟩
    · simp [FullFrame.holders, alone]
    · simp [attached]
    · simp [FullFrame.Holds, nothing, mine, pedigree, alone, (inv.spawned_of spawned).setUnlinked]
    · simp [FullFrame.finish, FullFrame.rest, FullFrame.resumes, Holder.hand, suspended, sum_called spawned, nothing,
        setupForExecutionPedigree, mine, pedigree, StackFrame.serial, StackFrame.leave]
  · simp only [doReturnFromSpawn, ready.spawned, Bool.false_eq_true, ready.joins, one_ne_zero, or_self, ↓reduceIte,
      provablyGoodSteal, last, counted, Option.bind_eq_bind, Option.bind_some, ready.childrenMap, ready.rightMap,
      Option.isSome_none, Option.some.injEq, exists_eq_left']
    have holds : ff.Holds (children.setUnlinked unlinked) :=
      holds_of_children consistent.holds (by omega) (Children.awaitsCall_setUnlinked ..) (·.setUnlinked _)
        (fun onlyCall => absurd onlyCall.unlinked (by simp [gone]))
        (fun suspended _ => by simp only [FullFrame.holders, suspended] at joins; omega)
    refine ⟨⟨?_, consistent.helper, holds⟩, inv', ?_, rfl, rfl, rfl, rfl, ?_⟩
    · simp only [FullFrame.holders] at joins ⊢
      omega
    · rw [Multiset.cons_add, ← team.eq]
      exact empty.cons (waits _ (Multiset.mem_singleton_self _))
    · simp [FullFrame.finish, FullFrame.rest, FullFrame.resumes]

omit [Monoid M] in
theorem suspended_of_call (consistent : ff.Consistent children) (called : children.awaitsCall = true) :
    ff.holder = .suspended := by
  have busy : ¬ children.Spawned := fun spawned => absurd (spawned.awaitsCall.symm.trans called) Bool.false_ne_true
  have bare : ¬ children.Bare := fun bare => busy bare.spawned
  have holds := consistent.holds
  unfold FullFrame.Holds at holds
  split at holds
  case h_1 held => exact held
  case h_2 => exact absurd holds.1 busy
  case h_3 => exact absurd holds.2.1 busy
  case h_4 => exact absurd holds.1 busy
  case h_5 => exact absurd holds.1.bare bare
  case h_6 => exact absurd holds.1.bare bare
  case h_7 => exact absurd holds.1.spawned busy
  case h_8 => exact absurd holds.1.spawned busy
  case h_9 => exact absurd holds.spawned busy

omit [Monoid M] in
/-- A child at the end of its code that is not a spawn helper was called and has no children left. -/
theorem returns_child {left below : Children M} {child : FullFrame M} (inv : (left.snoc child below).Inv)
    (returns : child.returns w) :
    child.isCallChild = true ∧ below = .none none 0 ∧ child.joinCounter = 1 ∧ child.rightReducerMap = none ∧
      w.workStolen = false := by
  obtain ⟨running, -, attached, synched, -⟩ := returns
  cases inv with
  | snoc left_inv below_inv consistent isChild spawned =>
    have call : child.isCallChild = true := by rw [isChild.kind, attached]; rfl
    have holds := consistent.holds
    have joins := consistent.joins
    simp only [FullFrame.Holds, FullFrame.holders, running] at holds joins
    obtain ⟨-, mine, clean, -⟩ := holds
    have bare : below = .none none 0 := clean synched
    subst bare
    exact ⟨call, rfl, joins, isChild.callMap call, mine⟩

theorem returnFromCall_preserved {left below : Children M} {child : FullFrame M} (consistent : ff.Consistent children)
    (inv : children.Inv) (empty : Idle idle) (rightmost : children = left.snoc child below)
    (returns : child.returns w) :
    ∃ r, returnFromCall ff left child below w = some r ∧ Preserved ff children (r.1, r.2, idle) := by
  subst rightmost
  obtain ⟨call, rfl, child_joins, right, mine⟩ := returns_child inv returns
  obtain ⟨running, ends, -⟩ := returns
  cases inv with
  | snoc left_inv below_inv child_consistent isChild spawned =>
    have suspended := suspended_of_call consistent call
    have holds := consistent.holds
    have joins := consistent.joins
    simp only [FullFrame.Holds, FullFrame.holders, suspended, Children.awaitsCall, call, ↓reduceIte] at holds joins
    have counted : ff.joinCounter ≠ 0 := by
      rw [joins, Children.joining_snoc]
      exact Nat.succ_ne_zero _
    simp only [returnFromCall, child_joins, call, counted, Children.hasChild, Children.childrenReducerMap, right, ne_eq,
      not_true_eq_false, Bool.true_eq_false, Bool.false_eq_true, Option.isSome_none, or_self, ↓reduceIte,
      Option.some.injEq, exists_eq_left']
    refine ⟨⟨?_, consistent.helper, spawned, mine, fun synched => (holds synched).1⟩, left_inv, empty,
      rfl, rfl, rfl, rfl, ?_⟩
    · simp only [FullFrame.holders, joins, Children.joining_snoc]
    · simp [FullFrame.finish, FullFrame.rest, FullFrame.resumes, Holder.hand, suspended, running, Children.sum, call, right,
        StackFrame.serial, ends, Code.serial, Worker.leave]

/-- A frame that is resumed after a steal or a sync, with whatever its reducers are set up to. -/
theorem resume_preserved {w' : Worker M} {children' : Children M} (consistent : ff.Consistent children)
    (empty : Idle idle) (held : ff.holder = .next w false)
    (reducers : setupForExecutionReducers ff children w = some (w', children'))
    (same : { w' with reducerMap := w.reducerMap } = w) (joining : children'.joining = children.joining)
    (spawned : children'.Spawned) (clean : ff.callStack.Clean children') (inv : children'.Inv)
    (value : children'.sum.1 * view w'.reducerMap = children.sum.1 * view w.reducerMap) :
    ∃ r, setupForExecution ff children w false = some r ∧ Preserved ff children (r.1, r.2, idle) := by
  have joins := consistent.joins
  simp only [FullFrame.holders, held] at joins
  have pedigree : (setupForExecutionPedigree w' ff.callStack).1.pedigree =
      (setupForExecutionPedigree w ff.callStack).1.pedigree := by
    rw [← same]
    rfl
  simp only [setupForExecution, reducers, Option.bind_eq_bind, Option.bind_some, Bool.false_eq_true, ↓reduceIte,
    Option.some.injEq, exists_eq_left']
  refine ⟨⟨?_, consistent.helper, spawned, rfl, clean, trivial⟩, inv, empty, rfl, rfl, rfl, rfl, ?_⟩
  · simp only [FullFrame.holders]
    rw [joins, joining]
  · have frame (p : Pedigree) : (setupForExecutionPedigree w' ff.callStack).2.serial p = ff.callStack.serial p := rfl
    have hand : (setupForExecutionPedigree w' ff.callStack).1.reducerMap = w'.reducerMap := rfl
    simp only [FullFrame.finish, FullFrame.rest, Holder.hand, held, List.nil_append, stackSerial_singleton, pedigree,
      frame, hand, value]

theorem setup_preserved {isReturnFromCall : Bool} (consistent : ff.Consistent children)
    (inv : children.Inv) (empty : Idle idle) (held : ff.holder = .next w isReturnFromCall) :
    ∃ r, setupForExecution ff children w isReturnFromCall = some r ∧ Preserved ff children (r.1, r.2, idle) := by
  have holds := consistent.holds
  have joins := consistent.joins
  cases isReturnFromCall with
  | true =>
    simp only [FullFrame.Holds, FullFrame.holders, held] at holds joins
    obtain ⟨spawned, mine, clean⟩ := holds
    have reducers : setupForExecutionReducers ff children w = some (w, children) := by
      cases unsynched : ff.callStack.unsynched with
      | true => simp [setupForExecutionReducers, unsynched]
      | false =>
        have bare : children = .none none 0 := clean unsynched
        simp [setupForExecutionReducers, unsynched, bare, Children.hasChild, Children.childrenReducerMap]
    simp only [setupForExecution, reducers, Option.bind_eq_bind, Option.bind_some, ↓reduceIte, Option.some.injEq,
      exists_eq_left']
    refine ⟨⟨joins, consistent.helper, spawned, mine, clean, trivial⟩, inv, empty, rfl, rfl, rfl, rfl, ?_⟩
    simp [FullFrame.finish, FullFrame.rest, Holder.hand, held]
  | false =>
    simp only [FullFrame.Holds, held] at holds
    obtain ⟨nothing, spawned, kind⟩ := holds
    cases unsynched : ff.callStack.unsynched with
    | true =>
      have reducers : setupForExecutionReducers ff children w = some (w, children) := by
        simp [setupForExecutionReducers, unsynched]
      have clean : ff.callStack.Clean children := fun synched => absurd (unsynched.symm.trans synched) (by simp)
      exact resume_preserved consistent empty held reducers rfl rfl spawned clean inv rfl
    | false =>
      rw [unsynched] at kind
      have synched : w.workStolen = false := by
        by_contra stolen
        simp [stolen] at kind
      simp only [synched, Bool.false_eq_true, ↓reduceIte, true_and] at kind
      obtain ⟨slot, rfl⟩ : ∃ slot, children = .none slot 0 := ⟨_, Children.eq_none_of_joining kind.2⟩
      cases slot with
      | none =>
        have reducers : setupForExecutionReducers ff (.none none 0) w = some (w, .none none 0) := by
          simp [setupForExecutionReducers, unsynched, Children.hasChild, Children.childrenReducerMap]
        exact resume_preserved consistent empty held reducers rfl rfl spawned (fun _ => rfl) inv rfl
      | some map =>
        have reducers : setupForExecutionReducers ff (.none (some map) 0) w =
            some ({ w with reducerMap := some map }, .none none 0) := by
          simp [setupForExecutionReducers, unsynched, Children.hasChild, Children.childrenReducerMap, nothing,
            Children.setLeftMap]
        refine resume_preserved consistent empty held reducers rfl rfl spawned (fun _ => rfl) (.none (by simp)) ?_
        simp [Children.sum, nothing]

section Steal
variable (thief : Worker M) (child : FullFrame M) (setSyncMaster : Bool)

/-- The stack frame whose continuation the thief gets. -/
def loot (oldest : StackFrame M) (newer : List (StackFrame M)) : StackFrame M := newer.getLastD oldest

omit [Monoid M] in
theorem unrollCallStack_fields (newer : List (StackFrame M)) (ff : FullFrame M) (children : Children M) :
    (unrollCallStack thief child setSyncMaster ff children newer).1.rightReducerMap = ff.rightReducerMap ∧
    (unrollCallStack thief child setSyncMaster ff children newer).1.isCallChild = ff.isCallChild ∧
    (unrollCallStack thief child setSyncMaster ff children newer).1.callStack.detached = ff.callStack.detached ∧
    (unrollCallStack thief child setSyncMaster ff children newer).1.callStack.last = ff.callStack.last := by
  cases newer <;> exact ⟨rfl, rfl, rfl, rfl⟩

variable {thief child}

/-- The child's part is done before the continuation, and the frames of the call stack come after it. -/
theorem unrollCallStack_finish (nothing : thief.reducerMap = none) (spawned : child.isCallChild = false)
    (right : child.rightReducerMap = none) (newer : List (StackFrame M)) (ff : FullFrame M) (children : Children M) :
    (unrollCallStack thief child setSyncMaster ff children newer).1.finish
        (unrollCallStack thief child setSyncMaster ff children newer).2.sum =
      (children.sum.1 * (child.finish (1, none)).1 *
          (stackSerial (newer.reverse ++ [ff.callStack]) (loot ff.callStack newer).parentPedigree.bump).1,
        (stackSerial (newer.reverse ++ [ff.callStack]) (loot ff.callStack newer).parentPedigree.bump).2) := by
  induction newer generalizing ff children with
  | nil =>
    simp [unrollCallStack, FullFrame.finish, FullFrame.rest, Holder.hand, nothing, Children.sum, spawned, right,
      setupForExecutionPedigree, StackFrame.serial, StackFrame.leave, loot, Pedigree.bump]
  | cons sf newer ih =>
    have inner := ih ⟨sf, 0, true, none, .suspended, false⟩ (.none none 0)
    obtain ⟨right', call, -⟩ :=
      unrollCallStack_fields thief child setSyncMaster newer ⟨sf, 0, true, none, .suspended, false⟩ (.none none 0)
    have outer (below : M × Option Pedigree) :
        ({ ff with joinCounter := ff.joinCounter + 1, holder := .suspended } : FullFrame M).finish below =
          (below.1 * (ff.callStack.serial (ff.resumes below.2)).1, (ff.callStack.serial (ff.resumes below.2)).2) := by
      simp [FullFrame.finish, FullFrame.rest, FullFrame.resumes, Holder.hand]
    have split : (sf :: newer).reverse ++ [ff.callStack] = (newer.reverse ++ [sf]) ++ [ff.callStack] := by simp
    have last : loot ff.callStack (sf :: newer) = loot sf newer := List.getLastD_cons ..
    rw [split, stackSerial_append _ [_], last, stackSerial_singleton]
    simp only [Children.sum, view_none, one_mul] at inner
    have below : (unrollCallStack thief child setSyncMaster ff children (sf :: newer)).2.sum =
        (children.sum.1 * ((child.finish (1, none)).1 *
            (stackSerial (newer.reverse ++ [sf]) (loot sf newer).parentPedigree.bump).1),
          some (stackSerial (newer.reverse ++ [sf]) (loot sf newer).parentPedigree.bump).2) := by
      change Children.sum (.snoc children _ _) = _
      simp only [Children.sum, inner, right', call, ↓reduceIte, view_none, mul_one]
    refine (outer _).trans ?_
    simp only [below, FullFrame.resumes, Option.getD_some, mul_assoc]

/-- The victim's new frame has no children yet. -/
structure Installed (child : FullFrame M) : Prop where
  consistent : child.Consistent (.none none 0)
  isChild : child.IsChild
  spawned : child.isCallChild = false

omit [Monoid M] in
theorem unrollCallStack_consistent (nothing : thief.reducerMap = none) (installed : Installed child)
    (newer : List (StackFrame M)) (attached : ∀ sf ∈ newer, sf.detached = false ∧ sf.unsynched = false ∧ sf.last = false)
    (ff : FullFrame M) (children : Children M) (joins : ff.joinCounter = children.joining)
    (helper : ff.callStack.detached = true → ff.callStack.unsynched = false ∧ ff.callStack.code.OfHelper)
    (looted : newer = [] → ff.callStack.detached = false) (spawned : children.Spawned)
    (clean : ff.callStack.Clean children) (inv : children.Inv) :
    (unrollCallStack thief child setSyncMaster ff children newer).1.Consistent
        (unrollCallStack thief child setSyncMaster ff children newer).2 ∧
      (unrollCallStack thief child setSyncMaster ff children newer).2.Inv := by
  induction newer generalizing ff children with
  | nil =>
    refine ⟨⟨?_, ?_, ?_⟩, .snoc inv (.none (by simp)) installed.consistent installed.isChild spawned⟩
    · simp only [unrollCallStack, FullFrame.holders, joins, Children.joining, Children.count, Children.unlinked]
      omega
    · simp [unrollCallStack, looted rfl]
    · exact ⟨nothing, ⟨spawned, installed.spawned⟩, by simp [unrollCallStack]⟩
  | cons sf newer ih =>
    obtain ⟨attached_sf, synched, notLast⟩ := attached sf List.mem_cons_self
    have inner := ih (fun sf member => attached sf (List.mem_cons_of_mem _ member)) ⟨sf, 0, true, none, .suspended, false⟩
      (.none none 0) rfl (fun detached => absurd (attached_sf.symm.trans detached) Bool.false_ne_true) (fun _ => attached_sf)
      trivial (fun _ => rfl) (.none (by simp))
    obtain ⟨right', call, detached, last⟩ :=
      unrollCallStack_fields thief child setSyncMaster newer ⟨sf, 0, true, none, .suspended, false⟩ (.none none 0)
    have holds (callChild : FullFrame M) (below : Children M) (called : callChild.isCallChild = true) :
        ({ ff with joinCounter := ff.joinCounter + 1, holder := .suspended } : FullFrame M).Holds
          (children.snoc callChild below) := by
      simp only [FullFrame.Holds, Children.awaitsCall, called, ↓reduceIte]
      exact fun synched => ⟨clean synched, called⟩
    refine ⟨⟨?_, helper, holds _ _ call⟩, .snoc inv inner.2 inner.1 ⟨?_, ?_, fun _ => right'⟩ spawned⟩
    · simp only [unrollCallStack, FullFrame.holders, joins, Children.joining, Children.count, Children.unlinked]
      omega
    · rw [call, detached]
      simp [attached_sf]
    · rw [last]
      exact notLast

end Steal

omit [Monoid M] in
theorem stacked_mem {oldest sf : StackFrame M} {young : List (StackFrame M)} (stacked : Stacked oldest young)
    (member : sf ∈ young) : sf.unsynched = false ∧ sf.last = false := by
  induction young with
  | nil => cases member
  | cons top young ih =>
    obtain ⟨above, stacked⟩ := stacked
    cases member with
    | head => exact ⟨above.synched, above.notLast⟩
    | tail _ member => exact ih stacked member

theorem steal_preserved {victim thief : Worker M} {newer older : List (StackFrame M)} {helper : StackFrame M}
    (consistent : ff.Consistent children) (inv : children.Inv) (empty : Idle (thief ::ₘ idle))
    (held : ff.holder = .running victim (newer ++ helper :: older)) (detached : helper.detached = true)
    (oldest : ∀ sf ∈ older, sf.detached = false) :
    ∃ r, detachForSteal ff children victim thief newer helper older = some r ∧ Preserved ff children (r.1, r.2, idle) := by
  have holds := consistent.holds
  have joins := consistent.joins
  simp only [FullFrame.Holds, FullFrame.holders, held] at holds joins
  obtain ⟨spawned, mine, clean, stacked⟩ := holds
  obtain ⟨newer_stacked, above, older_stacked⟩ := stacked_append.mp stacked
  obtain ⟨helper_code, parent_attached, pedigree⟩ := above.helper detached
  have nothing : thief.reducerMap = none := (empty thief (Multiset.mem_cons_self _ _)).1
  have installed : Installed ⟨helper, 1, false, none, .running victim.setSyncMaster newer, false⟩ := by
    refine ⟨⟨rfl, fun _ => ⟨above.synched, helper_code⟩, trivial, mine, fun _ => rfl, newer_stacked⟩,
      ⟨?_, above.notLast, ?_⟩, rfl⟩
    · simp [detached]
    · simp
  have parent : loot ff.callStack older.reverse = older.headD ff.callStack := by simp [loot]
  have kept := unrollCallStack_consistent victim.firstStolen nothing installed older.reverse (fun sf member => ?_)
    { ff with joinCounter := ff.joinCounter - 1 } children (by simp [joins]) consistent.helper
      (fun none => ?_) spawned clean inv
  · obtain ⟨right, call, detached', last⟩ := unrollCallStack_fields thief
      ⟨helper, 1, false, none, .running victim.setSyncMaster newer, false⟩ victim.firstStolen older.reverse
      { ff with joinCounter := ff.joinCounter - 1 } children
    have split : newer ++ helper :: older ++ [ff.callStack] = (newer ++ [helper]) ++ (older ++ [ff.callStack]) := by simp
    have left : (stackSerial (newer ++ [helper]) victim.pedigree).2 = (older.headD ff.callStack).parentPedigree.bump := by
      rw [pedigree]
      simp [stackSerial_append, StackFrame.serial, StackFrame.leave, detached]
    simp only [detachForSteal, joins, Nat.add_eq_zero_iff, one_ne_zero, and_false, ↓reduceIte, Option.some.injEq,
      exists_eq_left']
    rw [joins] at right call detached' last kept
    refine ⟨kept.1, kept.2, fun w member => empty w (Multiset.mem_cons_of_mem member), right, call, detached', last, ?_⟩
    rw [unrollCallStack_finish _ nothing rfl rfl, List.reverse_reverse, parent]
    simp only [FullFrame.finish, FullFrame.rest, Holder.hand, held, split, stackSerial_append _ (older ++ _), left,
      Worker.setSyncMaster_pedigree, Worker.setSyncMaster_reducerMap, mul_assoc, one_mul]
  · have member' : sf ∈ older := List.mem_reverse.mp member
    exact ⟨oldest sf member', (stacked_mem older_stacked member').1, (stacked_mem older_stacked member').2⟩
  · rw [List.reverse_eq_nil_iff] at none
    simpa [none] using parent_attached

end Preserve

end CilkArtifact.Runtime
