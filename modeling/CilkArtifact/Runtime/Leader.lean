import CilkArtifact.Runtime.Steps

/-! The leader of the team in a run: it runs its frame alone, or one frame has it as sync master, all work of the team
is below that frame, and it gets the frame back for the sync. No step loses a worker. -/
namespace CilkArtifact.Runtime
universe u
variable {M : Type u}

section Badges
variable {leader : ℤ} {others : Multiset ℤ} {flag : Bool} {workers : Multiset (Worker M)} {w : Worker M}

@[simp] theorem badges_zero : badges (0 : Multiset (Worker M)) = 0 := rfl

@[simp] theorem badges_add (first second : Multiset (Worker M)) : badges (first + second) = badges first + badges second :=
  Multiset.map_add ..

@[simp] theorem badges_singleton (w : Worker M) : badges {w} = {w.badge} := rfl

@[simp] theorem badges_cons (w : Worker M) (workers : Multiset (Worker M)) :
    badges (w ::ₘ workers) = {w.badge} + badges workers := Multiset.map_cons ..

theorem badge_of_user (user : w.user = true) : w.badge = (w.self, some w.lastFullFrame) := by
  simp [Worker.badge, user]

/-- The only worker of the user's thread is the leader. -/
theorem Crewed.leads (crewed : Crewed leader others flag workers) (member : w ∈ workers) (user : w.user = true) :
    w.self = leader ∧ w.lastFullFrame = flag := by
  have badge : (w.self, some w.lastFullFrame) ∈ badges workers := badge_of_user user ▸ Multiset.mem_map_of_mem _ member
  rw [crewed] at badge
  simpa using badge

theorem Crewed.exists_user (crewed : Crewed leader others flag workers) : ∃ w ∈ workers, w.user = true := by
  have badge : (leader, some flag) ∈ badges workers := crewed ▸ Multiset.mem_cons_self ..
  obtain ⟨w, member, worn⟩ := Multiset.mem_map.mp badge
  refine ⟨w, member, ?_⟩
  by_contra system
  simp [Worker.badge, system] at worn

/-- When the leader's last full frame changes, nothing else does. -/
theorem Crewed.turn {flag' worn : Bool} {self : ℤ} {rest : Multiset (ℤ × Option Bool)} {after : Multiset (Worker M)}
    (crewed : Crewed leader others flag workers) (before : badges workers = (self, some worn) ::ₘ rest)
    (turned : badges after = (self, some flag') ::ₘ rest) : Crewed leader others flag' after := by
  have same := before.symm.trans crewed
  rcases Multiset.cons_eq_cons.mp same with ⟨badge, rfl⟩ | ⟨-, rest', -, system⟩
  · obtain rfl : self = leader := congrArg Prod.fst badge
    exact turned
  · have member : (self, some worn) ∈ others.map fun other => (other, (none : Option Bool)) :=
      system ▸ Multiset.mem_cons_self ..
    simp at member

end Badges

@[simp] theorem Holder.workers_suspended : (suspended : Holder M).workers = 0 := rfl

@[simp] theorem Holder.workers_running (w : Worker M) (young : List (StackFrame M)) :
    (running w young).workers = {w} := rfl

namespace Children

@[simp] theorem workers_setLeftMap (children : Children M) (map : Option M) :
    (children.setLeftMap map).workers = children.workers := by
  cases children <;> rfl

theorem workers_setUnlinked (children : Children M) (unlinked : Multiset (Unlinked M)) :
    (children.setUnlinked unlinked).workers + children.unlinked.map Unlinked.worker =
      children.workers + unlinked.map Unlinked.worker := by
  induction children with
  | none _ _ => exact add_comm _ _
  | snoc left child below ih =>
    simp only [setUnlinked, workers, Children.unlinked, add_right_comm _ _ (Multiset.map _ _), ih]

theorem workers_gone {children : Children M} {child : Unlinked M} {unlinked : Multiset (Unlinked M)}
    (gone : children.unlinked = child ::ₘ unlinked) :
    (children.setUnlinked unlinked).workers + {child.worker} = children.workers := by
  have moved := children.workers_setUnlinked unlinked
  rw [gone, Multiset.map_cons, ← Multiset.singleton_add, ← add_assoc] at moved
  exact add_right_cancel moved

theorem workers_joined (children : Children M) (child : Unlinked M) :
    (children.setUnlinked (child ::ₘ children.unlinked)).workers = children.workers + {child.worker} := by
  have moved := children.workers_setUnlinked (child ::ₘ children.unlinked)
  rw [Multiset.map_cons, ← Multiset.singleton_add child.worker, ← add_assoc] at moved
  exact add_right_cancel moved

theorem workers_of_joining {children : Children M} (alone : children.joining = 0) : children.workers = 0 := by
  rw [eq_none_of_joining alone]
  rfl

theorem Free.setLeftMap {children : Children M} (free : children.Free) (map : Option M) : (children.setLeftMap map).Free := by
  cases children <;> exact free

theorem Free.setUnlinked {children : Children M} (free : children.Free) (unlinked : Multiset (Unlinked M)) :
    (children.setUnlinked unlinked).Free := by
  induction children with
  | none _ _ => trivial
  | snoc left child below ih => exact ⟨ih free.1, free.2⟩

theorem free_of_joining {children : Children M} (alone : children.joining = 0) : children.Free := by
  rw [eq_none_of_joining alone]
  trivial

end Children

section Effect
variable {ff : FullFrame M} {children : Children M} {idle : Multiset (Worker M)} {w : Worker M}

/-- The worker of the frame goes on with it. -/
structure Stays (ff : FullFrame M) (children : Children M) (idle : Multiset (Worker M)) (r : Local M) : Prop where
  busy : ff.holder ≠ .suspended
  holder : badges r.1.holder.workers = badges ff.holder.workers
  workers : r.2.1.workers = children.workers
  joining : r.2.1.joining = children.joining
  idle : r.2.2 = idle
  unsynched : r.1.callStack.unsynched = ff.callStack.unsynched
  master : r.1.syncMaster = ff.syncMaster
  free : children.Free → r.2.1.Free

/-- A worker leaves the frame, which still waits at its sync. -/
structure Leaves (ff : FullFrame M) (children : Children M) (idle : Multiset (Worker M)) (r : Local M) : Prop where
  unsynched : ff.callStack.unsynched = true
  waits : r.1.callStack.unsynched = true
  master : r.1.syncMaster = ff.syncMaster
  badges : badges (crew r.1 r.2.1 r.2.2) = badges (crew ff children idle)
  free : children.Free → r.2.1.Free

/-- The sync is crossed: by the leader, who has no last full frame from here on, if the frame had a sync master. -/
structure Crosses (syncMaster : Bool) (owner : Worker M) (r : FullFrame M) (before after : Multiset (Worker M)) : Prop where
  synched : r.callStack.unsynched = false
  free : r.syncMaster = false
  held : r.holder = .next owner false
  same : syncMaster = false → badges after = badges before
  leads : syncMaster = true → owner.user = true ∧ ∃ lastFullFrame rest,
    badges before = (owner.self, some lastFullFrame) ::ₘ rest ∧ badges after = (owner.self, some false) ::ₘ rest

/-- What `detach_for_steal` makes of the victim's frame. -/
def stolen (ff : FullFrame M) (children : Children M) (victim thief : Worker M) (newer : List (StackFrame M))
    (helper : StackFrame M) (older : List (StackFrame M)) : FullFrame M × Children M :=
  unrollCallStack thief ⟨helper, 1, false, none, .running victim.setSyncMaster newer, false⟩ victim.firstStolen
    { ff with joinCounter := ff.joinCounter - 1 } children older.reverse

/-- What a step of a frame does to its workers and to the frame that the team will end in. -/
inductive Effect (ff : FullFrame M) (children : Children M) (idle : Multiset (Worker M)) (r : Local M) : Prop
  | stays (stays : Stays ff children idle r)
  | leaves (leaves : Leaves ff children idle r)
  | crosses (owner : Worker M) (unsynched : ff.callStack.unsynched = true) (childless : r.2.1.joining = 0)
      (crosses : Crosses ff.syncMaster owner r.1 (crew ff children idle) (crew r.1 r.2.1 r.2.2))
  | returns {left child below w} (rightmost : children = left.snoc child below) (returns : child.returns w)
      (result : r = ({ ff with holder := .next (w.leave child.callStack) true }, left, idle))
  | steals {victim thief newer helper older rest} (held : ff.holder = .running victim (newer ++ helper :: older))
      (thieves : idle = thief ::ₘ rest)
      (synched : ∀ sf ∈ older, sf.unsynched = false)
      (result : r = ((stolen ff children victim thief newer helper older).1,
        (stolen ff children victim thief newer helper older).2, rest))

theorem execute_badge [Mul M] {stale : Pedigree} {w' : Worker M} {sf sf' : StackFrame M} {pushed : List (StackFrame M)}
    (runs : execute stale w sf = some (w', sf', pushed)) :
    w'.badge = w.badge ∧ sf'.unsynched = sf.unsynched := by
  unfold execute at runs
  split at runs
  case h_1 => cases runs
  case h_6 =>
    split at runs
    · cases runs
    · cases runs
      exact ⟨rfl, rfl⟩
  all_goals
    cases runs
    exact ⟨rfl, rfl⟩

theorem run_stays [Mul M] {ff' : FullFrame M} {stale : Pedigree} {young : List (StackFrame M)}
    (held : ff.holder = .running w young) (runs : ff.run stale w young = some ff') :
    Stays ff children idle (ff', children, idle) := by
  simp only [FullFrame.run, Option.bind_eq_bind, Option.bind_eq_some_iff] at runs
  obtain ⟨⟨w', sf', pushed⟩, executed, runs⟩ := runs
  obtain ⟨badge, unsynched⟩ := execute_badge executed
  cases young with
  | nil =>
    cases runs
    exact ⟨by simp [held], by simp [held, Holder.workers, badge], rfl, rfl, rfl, unsynched, rfl, id⟩
  | cons _ _ =>
    cases runs
    exact ⟨by simp [held], by simp [held, Holder.workers, badge], rfl, rfl, rfl, rfl, rfl, id⟩

theorem sync_stays {ff' : FullFrame M} {young : List (StackFrame M)} (held : ff.holder = .running w young)
    (synced : ff.cSync w young = some ff') : Stays ff children idle (ff', children, idle) := by
  cases young with
  | cons _ _ => cases synced
  | nil =>
    simp only [FullFrame.cSync] at synced
    split at synced <;> cases synced <;>
      exact ⟨by simp [held], by simp [held, Holder.workers, Worker.badge], rfl, rfl, rfl, rfl, rfl, id⟩

theorem syncLoop_stays {middle : Option M} (held : ff.holder = .syncing w middle) :
    Stays ff children idle
      ((reductionsForSync ff children w middle).1, (reductionsForSync ff children w middle).2, idle) := by
  cases map : children.leftMap <;> cases middle <;> simp only [reductionsForSync, map] <;>
    exact ⟨by simp [held], by simp [held, Holder.workers], by simp, by simp, rfl, rfl, rfl, fun free => free.setLeftMap _⟩

theorem setup_stays {isReturnFromCall : Bool} {r : FullFrame M × Children M} (held : ff.holder = .next w isReturnFromCall)
    (result : setupForExecution ff children w isReturnFromCall = some r) : Stays ff children idle (r.1, r.2, idle) := by
  simp only [setupForExecution, Option.bind_eq_bind, Option.bind_eq_some_iff] at result
  obtain ⟨⟨w', children'⟩, reducers, result⟩ := result
  have kept : w'.badge = w.badge ∧ children'.workers = children.workers ∧ children'.joining = children.joining ∧
      (children.Free → children'.Free) := by
    unfold setupForExecutionReducers at reducers
    split at reducers
    · cases reducers
      exact ⟨rfl, rfl, rfl, id⟩
    · split at reducers
      · cases reducers
      · split at reducers
        · cases reducers
          exact ⟨rfl, rfl, rfl, id⟩
        · cases reducers
        · cases reducers
          exact ⟨rfl, children.workers_setLeftMap none, children.joining_setLeftMap none, fun free => free.setLeftMap none⟩
  obtain ⟨badge, workers, joining, free⟩ := kept
  split at result <;> cases result
  · exact ⟨by simp [held], by simp [held, Holder.workers, badge], workers, joining, rfl, rfl, rfl, free⟩
  · exact ⟨by simp [held], by simpa [held, Holder.workers, setupForExecutionPedigree, Worker.badge] using badge, workers,
      joining, rfl, rfl, rfl, free⟩

/-- A frame whose children still have to count down is not past its sync. -/
theorem unsynched_of_unlinked {child : Unlinked M} {unlinked : Multiset (Unlinked M)} (consistent : ff.Consistent children)
    (gone : children.unlinked = child ::ₘ unlinked) : ff.callStack.unsynched = true := by
  have bare : ¬ children.Bare := fun bare => by
    rw [show children = .none none 0 from bare] at gone
    simp [Children.unlinked] at gone
  have joining : children.joining ≠ 0 := by simp [Children.joining, gone]
  by_contra notUnsynched
  have synched : ff.callStack.unsynched = false := by simpa using notUnsynched
  have calm : ff.callStack.stalls ≠ true := by simp [stalls_of_synched synched]
  have holds := consistent.holds
  unfold FullFrame.Holds at holds
  split at holds
  case h_1 =>
    split at holds
    · exact absurd (holds synched).unlinked (by simp [gone])
    · exact notUnsynched holds.1
  case h_2 => exact bare (holds.2.2 synched)
  case h_3 =>
    split at holds
    · exact notUnsynched holds.2.2
    · exact joining holds.2.2.2.2
  case h_4 => exact bare (holds.2.2.1 synched)
  case h_5 => exact bare holds.1.bare
  case h_6 => exact bare holds.1.bare
  case h_7 => exact calm holds.1.stalls
  case h_8 => exact calm holds.1.stalls
  case h_9 => exact calm holds.stalls

section ProvablyGoodSteal
variable {leader : Option (Worker M)} {others : Multiset (Worker M)} {r : FullFrame M × Multiset (Worker M)}

/-- Where it was not the last to come, the worker looks for other work. -/
theorem provablyGoodSteal_leaves (result : provablyGoodSteal ff w leader = some r) (more : ff.joinCounter ≠ 1) :
    r = ({ ff with joinCounter := ff.joinCounter - 1 }, w ::ₘ leader.toList) := by
  unfold provablyGoodSteal at result
  split at result
  · cases result
  · exact (Option.some.inj result).symm

theorem provablyGoodSteal_crosses (result : provablyGoodSteal ff w leader = some r) (last : ff.joinCounter = 1)
    (team : Team idle leader others) :
    ∃ owner, Crosses ff.syncMaster owner r.1 (w ::ₘ idle) (r.1.holder.workers + (r.2 + others)) := by
  have back (owner : Worker M) (user : owner.user = true) :
      ({ owner with lastFullFrame := false } : Worker M).badge = (owner.self, some false) := badge_of_user user
  simp only [provablyGoodSteal, last, one_ne_zero, ↓reduceIte] at result
  split at result
  case isFalse system =>
    cases result
    exact ⟨w, rfl, by simpa using system, rfl, fun _ => by simp [Holder.workers, team.eq], fun master => absurd master system⟩
  case isTrue master =>
    split at result
    case isTrue user =>
      cases result
      refine ⟨_, rfl, rfl, rfl, fun free => absurd master (by simp [free]), fun _ => ⟨user, w.lastFullFrame, badges idle, ?_, ?_⟩⟩
      · simp [badge_of_user user]
      · simp [Holder.workers, back w user, team.eq]
    case isFalse system =>
      split at result
      · cases result
      case h_2 first =>
        cases result
        have user := team.user first rfl
        refine ⟨_, rfl, rfl, rfl, fun free => absurd master (by simp [free]),
          fun _ => ⟨user, first.lastFullFrame, {w.badge} + badges others, ?_, ?_⟩⟩
        · simp only [team.eq, Option.toList_some, Multiset.coe_singleton, badges_add, badges_singleton,
            badge_of_user user, ← Multiset.singleton_add]
          abel
        · simp [Holder.workers, back first user]

end ProvablyGoodSteal

section Steal
variable {thief : Worker M} {child : FullFrame M} {setSyncMaster : Bool}

theorem unrollCallStack_badges (newer : List (StackFrame M)) (ff : FullFrame M) (children : Children M) :
    let r := unrollCallStack thief child setSyncMaster ff children newer
    badges (r.1.holder.workers + r.2.workers) = {thief.badge} + (badges child.holder.workers + badges children.workers) := by
  induction newer generalizing ff children with
  | nil =>
    simp only [unrollCallStack, Holder.workers, Children.workers, badges_add, badges_singleton, Multiset.map_zero, badges_zero,
      Worker.badge]
    abel
  | cons sf newer ih =>
    have inner := ih ⟨sf, 0, true, none, .suspended, false⟩ (.none none 0)
    simp only [Children.workers, Multiset.map_zero, badges_zero, badges_add, add_zero] at inner
    simp only [unrollCallStack, Holder.workers_suspended, Children.workers, badges_add, zero_add, add_assoc,
      inner]
    abel

/-- A theft below a frame with a sync master sets no other. -/
theorem unrollCallStack_free (installed : child.syncMaster = false) (newer : List (StackFrame M)) (ff : FullFrame M)
    (children : Children M) :
    let r := unrollCallStack thief child false ff children newer
    r.1.syncMaster = ff.syncMaster ∧ (children.Free → r.2.Free) ∧
      (ff.callStack.unsynched = true → r.1.callStack.unsynched = true) := by
  induction newer generalizing ff children with
  | nil => exact ⟨Bool.or_false _, fun free => ⟨free, installed, trivial⟩, fun _ => rfl⟩
  | cons sf newer ih =>
    obtain ⟨master, free, -⟩ := ih ⟨sf, 0, true, none, .suspended, false⟩ (.none none 0)
    exact ⟨rfl, fun left => ⟨left, master, free trivial⟩, id⟩

/-- The first theft from the leader makes it the sync master of the frame that the thief gets. -/
theorem unrollCallStack_led (installed : child.syncMaster = false) (newer : List (StackFrame M))
    (synched : ∀ sf ∈ newer, sf.unsynched = false) (ff : FullFrame M) (free : ff.syncMaster = false)
    (frame_synched : newer ≠ [] → ff.callStack.unsynched = false) :
    let r := unrollCallStack thief child true ff (.none none 0) newer
    Led true r.1 r.2 := by
  induction newer generalizing ff with
  | nil => exact .master (by simp [unrollCallStack]) rfl ⟨trivial, installed, trivial⟩
  | cons sf newer ih =>
    have inner := ih (fun sf member => synched sf (List.mem_cons_of_mem _ member)) ⟨sf, 0, true, none, .suspended, false⟩ rfl
      (fun _ => synched sf List.mem_cons_self)
    obtain ⟨-, called, -⟩ :=
      unrollCallStack_fields thief child true newer ⟨sf, 0, true, none, .suspended, false⟩ (.none none 0)
    exact .call free (frame_synched (List.cons_ne_nil _ _)) rfl called inner

end Steal

theorem FrameStep.effect [Mul M] {r : Local M} (step : FrameStep ff children idle (some r))
    (consistent : ff.Consistent children) :
    Effect ff children idle r := by
  generalize result_eq : some r = result at step
  cases step with
  | run held runs =>
    cases result_eq
    exact .stays (run_stays held runs)
  | leave held ends synched =>
    cases result_eq
    exact .stays ⟨by simp [held], by simp [held, Holder.workers, Worker.leave, Worker.badge], rfl, rfl, rfl, rfl, rfl, id⟩
  | sync held stalls =>
    obtain ⟨ff', result, rfl⟩ := Option.map_eq_some_iff.mp result_eq.symm
    exact .stays (sync_stays held result)
  | syncLoop held =>
    cases result_eq
    exact .stays (syncLoop_stays held)
  | syncMerge held =>
    cases result_eq
    exact .stays ⟨by simp [held], by simp [held, Holder.workers], rfl, rfl, rfl, rfl, rfl, id⟩
  | @doSync idle w leader others held team =>
    obtain ⟨stolen, result, rfl⟩ := Option.map_eq_some_iff.mp result_eq.symm
    unfold Runtime.doSync at result
    split at result
    case isFalse => cases result
    case isTrue unsynched =>
      have joins := consistent.joins
      simp only [FullFrame.holders, held] at joins
      by_cases last : ff.joinCounter = 1
      · obtain ⟨owner, crosses⟩ := provablyGoodSteal_crosses result last team
        have alone : children.joining = 0 := by omega
        have before : crew ff children idle = w ::ₘ idle := by
          simp [crew, held, Holder.workers, Children.workers_of_joining alone]
        refine .crosses owner unsynched alone ?_
        rw [before, crew, Children.workers_of_joining alone, add_zero]
        exact crosses
      · obtain rfl := provablyGoodSteal_leaves result last
        refine .leaves ⟨unsynched, unsynched, rfl, ?_, id⟩
        simp only [crew, held, Holder.workers, team.eq, badges_add, badges_cons, badges_singleton, badges_zero]
        abel
  | exceptionCheck held ends helper =>
    cases result_eq
    exact .stays ⟨by simp [held], by simp [held, Holder.workers], rfl, rfl, rfl, rfl, rfl, id⟩
  | reduce held =>
    obtain ⟨_, result, rfl⟩ := Option.map_eq_some_iff.mp result_eq.symm
    unfold reduceForSpawnReturn at result
    split at result
    · cases result
    · cases result
      exact .stays ⟨by simp [held], by simp [held, Holder.workers, Worker.badge], rfl, rfl, rfl, rfl, rfl, id⟩
  | @doReturnFromSpawn idle child unlinked leader others gone team =>
    obtain ⟨stolen, result, rfl⟩ := Option.map_eq_some_iff.mp result_eq.symm
    unfold Runtime.doReturnFromSpawn at result
    split at result
    · cases result
    · simp only [Option.bind_eq_bind, Option.bind_eq_some_iff] at result
      obtain ⟨parent, result, kept⟩ := result
      split at kept
      · cases kept
      · cases kept
        by_cases last : ff.joinCounter = 1
        · obtain ⟨suspended, -, alone, unsynched, -⟩ := last_joins consistent gone last
          obtain ⟨owner, crosses⟩ := provablyGoodSteal_crosses result last team
          have before : crew ff children idle = child.worker ::ₘ idle := by
            simp [crew, suspended, workers_last gone alone]
          refine .crosses owner unsynched alone ?_
          rw [before, crew, Children.workers_of_joining alone, add_zero]
          exact crosses
        · obtain rfl := provablyGoodSteal_leaves result last
          have unsynched := unsynched_of_unlinked consistent gone
          refine .leaves ⟨unsynched, unsynched, rfl, ?_, fun free => free.setUnlinked _⟩
          simp only [crew, team.eq, ← Children.workers_gone gone, badges_add, badges_cons, badges_singleton]
          abel
  | @returnFromCall idle left child below w rightmost returns =>
    obtain ⟨_, result, rfl⟩ := Option.map_eq_some_iff.mp result_eq.symm
    unfold Runtime.returnFromCall at result
    split at result
    · cases result
    · split at result
      · cases result
      · split at result
        · cases result
        · cases result
          exact .returns rightmost returns rfl
  | setup held =>
    obtain ⟨r, result, rfl⟩ := Option.map_eq_some_iff.mp result_eq.symm
    exact .stays (setup_stays held result)
  | steal held detached oldest =>
    obtain ⟨r, result, rfl⟩ := Option.map_eq_some_iff.mp result_eq.symm
    have holds := consistent.holds
    simp only [FullFrame.Holds, held] at holds
    obtain ⟨-, -, -, stacked⟩ := holds
    unfold detachForSteal at result
    split at result
    · cases result
    · obtain rfl : r = stolen ff children _ _ _ _ _ := (Option.some.inj result).symm
      exact .steals held rfl (fun sf member => (stacked_mem (stacked_append.mp stacked).2.2 member).1) rfl

/-- The leader, if it is among the workers, has a last full frame. -/
def AllLed (workers : Multiset (Worker M)) : Prop := ∀ w ∈ workers, w.user = true → w.lastFullFrame = true

/-- A step at the frame of the sync master or below it, where the frame stays what it is. -/
structure Below (ff : FullFrame M) (children : Children M) (idle : Multiset (Worker M)) (r : Local M) : Prop where
  badges : badges (crew r.1 r.2.1 r.2.2) = badges (crew ff children idle)
  master : r.1.syncMaster = ff.syncMaster
  free : children.Free → r.2.1.Free
  unsynched : ff.callStack.unsynched = true → r.1.callStack.unsynched = true

theorem Stays.badges_crew {r : Local M} (stays : Stays ff children idle r) :
    badges (crew r.1 r.2.1 r.2.2) = badges (crew ff children idle) := by
  simp only [crew, badges_add, stays.holder, stays.workers, stays.idle]

theorem returns_badges {left child below} (consistent : ff.Consistent children) (inv : children.Inv)
    (rightmost : children = left.snoc child below) (returns : child.returns w) :
    badges (crew { ff with holder := .next (w.leave child.callStack) true } left idle) = badges (crew ff children idle) := by
  subst rightmost
  obtain ⟨called, rfl, -⟩ := returns_child inv returns
  have suspended := suspended_of_call consistent called
  simp only [crew, suspended, Children.workers, returns.1, Multiset.map_zero, Holder.workers,
    Worker.leave, Worker.badge, badges_add, badges_singleton, badges_zero]
  abel

theorem stolen_badges {victim thief : Worker M} {newer older : List (StackFrame M)} {helper : StackFrame M}
    {rest : Multiset (Worker M)} (held : ff.holder = .running victim (newer ++ helper :: older)) :
    let r := stolen ff children victim thief newer helper older
    badges (crew r.1 r.2 rest) + {victim.badge} =
      badges (crew ff children (thief ::ₘ rest)) + {victim.setSyncMaster.badge} := by
  intro r
  have unrolled : badges (r.1.holder.workers + r.2.workers) =
      {thief.badge} + (badges {victim.setSyncMaster} + badges children.workers) := unrollCallStack_badges older.reverse _ children
  simp only [crew, badges_add _ rest, unrolled, held, Holder.workers_running, badges_add, badges_cons, badges_singleton]
  abel

/-- Below the sync master, or at it until the sync is crossed, nothing happens to the team. -/
theorem Effect.below {r : Local M} (effect : Effect ff children idle r) (consistent : ff.Consistent children)
    (inv : children.Inv) (all : AllLed (crew ff children idle)) :
    Below ff children idle r ∨
      ∃ owner, r.2.1.joining = 0 ∧ Crosses ff.syncMaster owner r.1 (crew ff children idle) (crew r.1 r.2.1 r.2.2) := by
  cases effect with
  | stays stays => exact .inl ⟨stays.badges_crew, stays.master, stays.free, stays.unsynched.trans⟩
  | leaves leaves => exact .inl ⟨leaves.badges, leaves.master, leaves.free, fun _ => leaves.waits⟩
  | crosses owner unsynched childless crosses => exact .inr ⟨owner, childless, crosses⟩
  | returns rightmost returns result =>
    subst result
    exact .inl ⟨returns_badges consistent inv rightmost returns, rfl, fun free => (rightmost ▸ free :).1, id⟩
  | @steals victim thief newer helper older rest held thieves synched result =>
    subst thieves result
    have notFirst : victim.firstStolen = false := by
      have member : victim ∈ crew ff children (thief ::ₘ rest) := by simp [crew, held, Holder.workers]
      cases user : victim.user with
      | false => simp [Worker.firstStolen, user]
      | true => simp [Worker.firstStolen, all victim member user]
    have same : victim.setSyncMaster.badge = victim.badge := by simp [Worker.setSyncMaster, Worker.badge, notFirst]
    have moved : badges (crew _ _ rest) + _ = badges (crew ff children (thief ::ₘ rest)) + _ := stolen_badges held
    rw [same] at moved
    have unrolled : let r := stolen ff children victim thief newer helper older
        r.1.syncMaster = ff.syncMaster ∧ (children.Free → r.2.Free) ∧
          (ff.callStack.unsynched = true → r.1.callStack.unsynched = true) := by
      rw [stolen, notFirst]
      exact unrollCallStack_free rfl older.reverse _ children
    exact .inl ⟨add_right_cancel moved, unrolled.1, unrolled.2.1, unrolled.2.2⟩

section Led
variable {leader : ℤ} {others : Multiset ℤ} {flag : Bool} {r : Local M}

theorem exists_user_of_badges {workers workers' : Multiset (Worker M)} (same : badges workers' = badges workers)
    (member : w ∈ workers) (user : w.user = true) : ∃ owner ∈ workers', owner.user = true := by
  have badge : w.badge ∈ badges workers' := same ▸ Multiset.mem_map_of_mem _ member
  obtain ⟨owner, member', worn⟩ := Multiset.mem_map.mp badge
  refine ⟨owner, member', ?_⟩
  by_contra system
  simp [Worker.badge, system, user] at worn

/-- The leader's first frame that is stolen, or one that it has called, becomes the one that the team ends in. -/
theorem stolen_led {victim thief : Worker M} {newer older : List (StackFrame M)} {helper : StackFrame M}
    {rest : Multiset (Worker M)} (consistent : ff.Consistent children) (free : ff.syncMaster = false)
    (synched : ff.callStack.unsynched = false) (held : ff.holder = .running victim (newer ++ helper :: older))
    (user : victim.user = true) (older_synched : ∀ sf ∈ older, sf.unsynched = false)
    (crewed : Crewed leader others false (crew ff children (thief ::ₘ rest))) :
    let r := stolen ff children victim thief newer helper older
    Led true r.1 r.2 ∧ Crewed leader others true (crew r.1 r.2 rest) := by
  intro r
  have holds := consistent.holds
  simp only [FullFrame.Holds, held] at holds
  obtain rfl : children = .none none 0 := holds.2.2.1 synched
  have member : victim ∈ crew ff (.none none 0) (thief ::ₘ rest) := by simp [crew, held]
  obtain ⟨rfl, fresh⟩ := crewed.leads member user
  have first : victim.firstStolen = true := by simp [Worker.firstStolen, user, fresh]
  constructor
  · simp only [r, stolen, first]
    exact unrollCallStack_led rfl older.reverse (fun sf member => older_synched sf (List.mem_reverse.mp member))
      { ff with joinCounter := ff.joinCounter - 1 } free fun _ => synched
  · have moved : badges (crew r.1 r.2 rest) + _ = badges (crew ff _ (thief ::ₘ rest)) + _ := stolen_badges held
    have marked : victim.setSyncMaster.badge = (victim.self, some true) := by
      simp [Worker.setSyncMaster, Worker.badge, user, first]
    rw [crewed, marked, badge_of_user user, fresh, Multiset.cons_add, add_comm (badges _), Multiset.singleton_add,
      Multiset.cons_inj_right] at moved
    rw [Crewed, moved, add_comm, Multiset.singleton_add]

theorem Effect.led (effect : Effect ff children idle r) (consistent : ff.Consistent children) (inv : children.Inv)
    (led : Led flag ff children) (crewed : Crewed leader others flag (crew ff children idle)) :
    ∃ flag', Led flag' r.1 r.2.1 ∧ Crewed leader others flag' (crew r.1 r.2.1 r.2.2) := by
  cases led with
  | alone free synched childless held user =>
    cases effect with
    | stays stays =>
      obtain ⟨owner, member, user'⟩ := exists_user_of_badges stays.holder held user
      exact ⟨false, .alone (stays.master.trans free) (stays.unsynched.trans synched) (stays.joining.trans childless) member user',
        stays.badges_crew.trans crewed⟩
    | leaves leaves => cases synched.symm.trans leaves.unsynched
    | crosses _ unsynched => cases synched.symm.trans unsynched
    | returns rightmost =>
      rw [rightmost, Children.joining_snoc] at childless
      cases childless
    | steals held' thieves older_synched result =>
      subst thieves result
      rw [held', Holder.workers_running, Multiset.mem_singleton] at held
      subst held
      exact ⟨true, stolen_led consistent free synched held' user older_synched crewed⟩
  | master master unsynched free =>
    have all : AllLed (crew ff children idle) := fun w member user => (crewed.leads member user).2
    rcases effect.below consistent inv all with below | ⟨owner, childless, crosses⟩
    · exact ⟨true, .master (below.master.trans master) (below.unsynched unsynched) (below.free free),
        below.badges.trans crewed⟩
    · obtain ⟨user, worn, rest, before, after⟩ := crosses.leads master
      have held : owner ∈ r.1.holder.workers := by rw [crosses.held]; exact Multiset.mem_singleton_self owner
      exact ⟨false, .alone crosses.free crosses.synched childless held user, crewed.turn before after⟩
  | @call _ _ child below free synched suspended called led =>
    cases effect with
    | stays stays => exact absurd suspended stays.busy
    | leaves leaves => cases synched.symm.trans leaves.unsynched
    | crosses _ unsynched => cases synched.symm.trans unsynched
    | steals held => cases suspended.symm.trans held
    | returns rightmost returns result =>
      have badges : badges (crew _ _ idle) = badges (crew ff _ idle) := returns_badges consistent inv rightmost returns
      cases rightmost
      subst result
      cases led with
      | alone _ _ _ held user =>
        rw [returns.1, Holder.workers_running, Multiset.mem_singleton] at held
        subst held
        exact ⟨false, .alone free synched rfl (Multiset.mem_singleton_self _) user, badges.trans crewed⟩
      | master _ unsynched => cases unsynched.symm.trans returns.2.2.2.1
      | call _ _ suspended => cases suspended.symm.trans returns.1

theorem crew_call {child : FullFrame M} {below : Children M} (suspended : ff.holder = .suspended) :
    crew ff (.snoc (.none none 0) child below) idle = crew child below idle := by
  simp [crew, suspended, Children.workers]

theorem Children.Free.has {row below : Children M} {ff : FullFrame M} (free : row.Free) (has : row.Has ff below) :
    ff.syncMaster = false := by
  induction has with
  | here => exact free.2.1
  | left _ ih => exact ih free.1
  | inside _ ih => exact ih free.2.2

/-- The leader is where the last sync of the team will be. -/
theorem Led.hasLeader (led : Led flag ff children) (crewed : Crewed leader others flag (crew ff children idle)) :
    ff.HasLeader children idle ∧ children.HaveLeader idle := by
  induction led with
  | alone free synched childless held user =>
    refine ⟨fun master => (nomatch free.symm.trans master), fun ff below has => ?_⟩
    rw [Children.eq_none_of_joining childless] at has
    cases has
  | master master unsynched free =>
    exact ⟨fun _ => crewed.exists_user, fun ff below has master => nomatch (free.has has).symm.trans master⟩
  | call free synched suspended called led ih =>
    rw [crew_call suspended] at crewed
    obtain ⟨here, inside⟩ := ih crewed
    refine ⟨fun master => (nomatch free.symm.trans master), fun ff below has => ?_⟩
    cases has with
    | here => exact here
    | left has => cases has
    | inside has => exact inside _ _ has

/-- A frame that is past its sync and is where the calls lead to is run by the leader. -/
theorem Led.user {young : List (StackFrame M)} (led : Led flag ff children) (held : ff.holder = .running w young)
    (synched : ff.callStack.unsynched = false) : w.user = true := by
  cases led with
  | alone _ _ _ held' user =>
    rw [held, Holder.workers_running, Multiset.mem_singleton] at held'
    exact held' ▸ user
  | master _ unsynched => cases synched.symm.trans unsynched
  | call _ _ suspended => cases suspended.symm.trans held

end Led

end Effect

section Rows
variable {left below children : Children M} {ff : FullFrame M} {w : Worker M} {idle : Multiset (Worker M)}

theorem spliceSpawnReturn_below {row : Children M} {again : Bool} (inv : (left.snoc ff below).Inv)
    (held : ff.holder = .spawnReturn w again) (result : spliceSpawnReturn left ff below w again = some row)
    (free : (left.snoc ff below).Free) : row.Free ∧ badges row.workers = badges (left.snoc ff below).workers := by
  unfold spliceSpawnReturn at result
  generalize reductionsForSpawnReturn again left.leftMap w.reducerMap ff.rightReducerMap = maps at result
  simp only at result
  split at result
  · cases result
    exact ⟨⟨free.1.setLeftMap none, free.2.1, free.2.2⟩, by simp [Children.workers, held, Holder.workers, Worker.badge]⟩
  · split at result
    · cases result
    · cases result
      cases inv with
      | snoc _ _ consistent _ _ =>
        have holds := consistent.holds
        simp only [FullFrame.Holds, held] at holds
        obtain rfl : below = .none none 0 := holds.1.bare
        refine ⟨(free.1.setLeftMap _).setUnlinked _, ?_⟩
        have joined := (left.setLeftMap maps.1).workers_joined
        rw [Children.unlinked_setLeftMap] at joined
        simp [joined, Children.workers, held, Holder.workers, Worker.leave, Worker.badge]

/-- Nothing happens to the team in a row that hangs below the frame of the sync master. -/
theorem Step.underMaster [Mul M] {result : Option (Children M × Multiset (Worker M))} (step : Step children idle result)
    (inv : children.Inv) (free : children.Free) (all : AllLed (children.workers + idle)) :
    ∀ r, result = some r → r.1.Free ∧ badges (r.1.workers + r.2) = badges (children.workers + idle) := by
  induction step with
  | @frame left ff children idle result step =>
    intro r result_eq
    obtain ⟨r, rfl, rfl⟩ := Option.map_eq_some_iff.mp result_eq
    cases inv with
    | snoc left_inv below_inv consistent isChild spawned =>
      have all' : AllLed (crew ff children idle) := fun w member => all w (by
        simp only [crew, Children.workers, Multiset.mem_add] at member ⊢
        tauto)
      have kept : r.1.syncMaster = false ∧ r.2.1.Free ∧ badges (crew r.1 r.2.1 r.2.2) = badges (crew ff children idle) := by
        rcases (step.effect consistent).below consistent below_inv all' with kept | ⟨owner, childless, crosses⟩
        · exact ⟨kept.master.trans free.2.1, kept.free free.2.2, kept.badges⟩
        · exact ⟨crosses.free, Children.free_of_joining childless, crosses.same free.2.1⟩
      obtain ⟨master, below_free, badges⟩ := kept
      refine ⟨⟨free.1, master, below_free⟩, ?_⟩
      simp only [crew, badges_add, add_assoc] at badges
      simp only [Children.workers, badges_add, add_assoc, badges]
  | inside step ih =>
    intro r result_eq
    obtain ⟨r, rfl, rfl⟩ := Option.map_eq_some_iff.mp result_eq
    cases inv with
    | snoc left_inv below_inv consistent isChild spawned =>
      obtain ⟨below_free, badges⟩ := ih below_inv free.2.2 (fun w member => all w (by
        simp only [Children.workers, Multiset.mem_add] at member ⊢
        tauto)) r rfl
      refine ⟨⟨free.1, free.2.1, below_free⟩, ?_⟩
      simp only [badges_add] at badges
      simp only [Children.workers, badges_add, add_assoc, badges]
  | @left left ff children idle result step ih =>
    intro r result_eq
    obtain ⟨r, rfl, rfl⟩ := Option.map_eq_some_iff.mp result_eq
    cases inv with
    | snoc left_inv below_inv consistent isChild spawned =>
      obtain ⟨left_free, badges⟩ := ih left_inv free.1 (fun w member => all w (by
        simp only [Children.workers, Multiset.mem_add] at member ⊢
        tauto)) r rfl
      refine ⟨⟨left_free, free.2⟩, ?_⟩
      calc Runtime.badges ((r.1.snoc ff children).workers + r.2)
          = Runtime.badges (r.1.workers + r.2) + Runtime.badges (ff.holder.workers + children.workers) := by
            simp only [Children.workers, badges_add]
            abel
        _ = Runtime.badges (left.workers + idle) + Runtime.badges (ff.holder.workers + children.workers) := by rw [badges]
        _ = Runtime.badges ((left.snoc ff children).workers + idle) := by
            simp only [Children.workers, badges_add]
            abel
  | spawnReturn held =>
    intro r result_eq
    obtain ⟨row, spliced, rfl⟩ := Option.map_eq_some_iff.mp result_eq
    obtain ⟨row_free, badges⟩ := spliceSpawnReturn_below inv held spliced free
    exact ⟨row_free, by simp only [badges_add, badges]⟩
  | returnsFromTheMiddle returns =>
    intro r result_eq
    cases result_eq

/-- A step below a frame keeps to what the frame's calls lead to. -/
theorem Led.step_below [Monoid M] {leader : ℤ} {others : Multiset ℤ} {flag : Bool}
    {result : Option (Children M × Multiset (Worker M))} (led : Led flag ff children) (step : Step children idle result)
    (inv : children.Inv) (empty : Idle idle) (crewed : Crewed leader others flag (crew ff children idle)) :
    ∀ r, result = some r → ∃ flag', Led flag' ff r.1 ∧ Crewed leader others flag' (crew ff r.1 r.2) := by
  induction led generalizing result with
  | alone free synched childless held user =>
    rw [Children.eq_none_of_joining childless] at step
    cases step
  | @master ff below master unsynched free =>
    intro r result_eq
    have all : AllLed (below.workers + idle) := fun w member user => (crewed.leads (by
      simp only [crew, Multiset.mem_add] at member ⊢
      tauto) user).2
    obtain ⟨free', badges⟩ := step.underMaster inv free all r result_eq
    refine ⟨true, .master master unsynched free', Eq.trans ?_ crewed⟩
    simp only [badges_add] at badges
    simp only [crew, badges_add, add_assoc, badges]
  | @call flag ff child below free synched suspended called led ih =>
    rw [crew_call suspended] at crewed
    intro r result_eq
    cases step with
    | frame step =>
      obtain ⟨r, rfl, rfl⟩ := Option.map_eq_some_iff.mp result_eq
      cases inv with
      | snoc left_inv below_inv consistent isChild spawned =>
        obtain ⟨_, same, preserved⟩ := step.preserved consistent below_inv empty (led.hasLeader crewed).1
        obtain rfl := Option.some.inj same
        obtain ⟨flag', led', crewed'⟩ := (step.effect consistent).led consistent below_inv led crewed
        exact ⟨flag', .call free synched suspended (preserved.call.trans called) led', (crew_call suspended).symm ▸ crewed'⟩
    | inside step =>
      obtain ⟨r, rfl, rfl⟩ := Option.map_eq_some_iff.mp result_eq
      cases inv with
      | snoc left_inv below_inv consistent isChild spawned =>
        obtain ⟨flag', led', crewed'⟩ := ih step below_inv crewed r rfl
        exact ⟨flag', .call free synched suspended called led', (crew_call suspended).symm ▸ crewed'⟩
    | left step => cases step
    | spawnReturn held =>
      cases inv with
      | snoc left_inv below_inv consistent isChild spawned =>
        -- a called frame does not belong to a spawn helper
        have holds := consistent.holds
        simp only [FullFrame.Holds, held] at holds
        have kind := isChild.kind
        rw [called, holds.1.detached] at kind
        cases kind

end Rows

end CilkArtifact.Runtime
