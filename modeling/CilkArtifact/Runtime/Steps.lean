import CilkArtifact.Runtime.Sections

/-! Every step of a frame, or of a row of siblings, keeps the invariants and what is left to do. -/
namespace CilkArtifact.Runtime
universe u
variable {M : Type u} [Monoid M]

theorem FrameStep.preserved {ff : FullFrame M} {children : Children M} {idle : Multiset (Worker M)}
    {result : Option (Local M)} (step : FrameStep ff children idle result) (consistent : ff.Consistent children)
    (inv : children.Inv) (empty : Idle idle) (leads : ff.HasLeader children idle) :
    ∃ r, result = some r ∧ Preserved ff children r := by
  cases step with
  | run held runs => exact ⟨_, rfl, run_preserved consistent inv empty held runs⟩
  | leave held ends synched => exact ⟨_, rfl, leave_preserved consistent inv empty held ends⟩
  | sync held stalls =>
    obtain ⟨ff', result, preserved⟩ := sync_preserved consistent inv empty held stalls
    exact ⟨_, by rw [result]; rfl, preserved⟩
  | syncLoop held => exact ⟨_, rfl, syncLoop_preserved consistent inv empty held⟩
  | syncMerge held => exact ⟨_, rfl, syncMerge_preserved consistent inv empty held⟩
  | doSync held team =>
    obtain ⟨r, result, preserved⟩ := doSync_preserved consistent inv empty held team leads
    exact ⟨_, by rw [result]; rfl, preserved⟩
  | exceptionCheck held ends helper => exact ⟨_, rfl, exceptionCheck_preserved consistent inv empty held ends helper⟩
  | reduce held =>
    obtain ⟨ff', result, preserved⟩ := reduce_preserved consistent inv empty held
    exact ⟨_, by rw [result]; rfl, preserved⟩
  | doReturnFromSpawn gone team =>
    obtain ⟨r, result, preserved⟩ := doReturnFromSpawn_preserved consistent inv empty gone team leads
    exact ⟨_, by rw [result]; rfl, preserved⟩
  | returnFromCall rightmost returns =>
    obtain ⟨r, result, preserved⟩ := returnFromCall_preserved consistent inv empty rightmost returns
    exact ⟨_, by rw [result]; rfl, preserved⟩
  | setup held =>
    obtain ⟨r, result, preserved⟩ := setup_preserved consistent inv empty held
    exact ⟨_, by rw [result]; rfl, preserved⟩
  | steal held detached oldest =>
    obtain ⟨r, result, preserved⟩ := steal_preserved consistent inv empty held detached oldest
    exact ⟨_, by rw [result]; rfl, preserved⟩

/-- What a step below a frame keeps of the frame's children. -/
structure Children.Kept (children children' : Children M) : Prop where
  joining : children'.joining = children.joining
  busy : children.joining ≠ 0
  awaitsCall : children'.awaitsCall = children.awaitsCall
  spawned : children.Spawned → children'.Spawned
  onlyCall : children.OnlyCall → children'.OnlyCall
  sum : children'.sum = children.sum

namespace Children
variable {siblings siblings' below below' : Children M} {ff ff' : FullFrame M}

theorem Kept.consistent (kept : Kept below below') (consistent : ff.Consistent below) : ff.Consistent below' := by
  have joins := consistent.joins
  refine ⟨by rw [joins, kept.joining], consistent.helper, holds_of_children consistent.holds kept.busy kept.awaitsCall
    kept.spawned kept.onlyCall fun suspended spawned => ?_⟩
  rw [kept.joining]
  exact Nat.pos_of_ne_zero kept.busy

/-- A frame changes in its place. -/
theorem Kept.frame (call : ff'.isCallChild = ff.isCallChild) (right : ff'.rightReducerMap = ff.rightReducerMap)
    (finish : ff'.finish below'.sum = ff.finish below.sum) : Kept (siblings.snoc ff below) (siblings.snoc ff' below') where
  joining := by rw [joining_snoc, joining_snoc]
  busy := by rw [joining_snoc]; exact Nat.succ_ne_zero _
  awaitsCall := call
  spawned spawned := ⟨spawned.1, call.trans spawned.2⟩
  onlyCall onlyCall := ⟨onlyCall.1, call.trans onlyCall.2⟩
  sum := by simp only [Children.sum, call, right, finish]

theorem Kept.left (kept : Kept siblings siblings') : Kept (siblings.snoc ff below) (siblings'.snoc ff below) where
  joining := by rw [joining_snoc, joining_snoc, kept.joining]
  busy := by rw [joining_snoc]; exact Nat.succ_ne_zero _
  awaitsCall := rfl
  spawned spawned := ⟨kept.spawned spawned.1, spawned.2⟩
  onlyCall onlyCall := by
    obtain ⟨rfl, -⟩ := onlyCall
    exact absurd rfl kept.busy
  sum := by simp only [Children.sum, kept.sum]

end Children

section SpawnReturn
variable {left below : Children M} {ff : FullFrame M} {w : Worker M} {again : Bool}

/-- The maps keep their order, and where something is left for the loop, it is to the left of it. -/
theorem reductionsForSpawnReturn_spec (l m r : Option M) (own : again = true → m.isSome) :
    let maps := reductionsForSpawnReturn again l m r
    view maps.1 * view maps.2.1 * view maps.2.2 = view l * view m * view r ∧
      (maps.2.1.isSome = true → maps.1.isSome = true) ∧ (maps.2.1 = none → maps.2.2 = none) := by
  cases again <;> cases l <;> cases m <;> cases r <;>
    simp_all [reductionsForSpawnReturn, fastPathReductionsForSpawnReturn, slideLeft]

theorem spliceSpawnReturn_preserved (inv : (left.snoc ff below).Inv) (held : ff.holder = .spawnReturn w again) :
    ∃ row, spliceSpawnReturn left ff below w again = some row ∧ row.Inv ∧ (left.snoc ff below).Kept row := by
  cases inv with
  | snoc left_inv below_inv consistent isChild spawned =>
    have holds := consistent.holds
    have joins := consistent.joins
    simp only [FullFrame.Holds, FullFrame.holders, held] at holds joins
    obtain ⟨returned, own⟩ := holds
    have bare : below = .none none 0 := returned.bare
    subst bare
    have call : ff.isCallChild = false := by rw [isChild.kind, returned.detached]; rfl
    have spec := reductionsForSpawnReturn_spec left.leftMap w.reducerMap ff.rightReducerMap own
    unfold spliceSpawnReturn
    generalize reductionsForSpawnReturn again left.leftMap w.reducerMap ff.rightReducerMap = maps at spec ⊢
    obtain ⟨l, m, r⟩ := maps
    obtain ⟨value, loop, ended⟩ := spec
    simp only at value loop ended ⊢
    have before : (left.snoc ff (.none none 0)).sum = (left.beforeLeftMap * (view l * view m * view r), none) := by
      rw [value]
      simp [Children.sum, Children.sum_eq, FullFrame.finish, FullFrame.rest, Holder.hand, held, call, mul_assoc]
    cases m with
    | some m =>
      refine ⟨_, rfl, .snoc (left_inv.setLeftMap spawned _) below_inv ⟨joins, consistent.helper, ?_⟩
        ⟨isChild.kind, isChild.notLast, fun _ => rfl⟩ (spawned.setLeftMap _), ?_⟩
      · exact ⟨⟨returned.detached, rfl, returned.mine⟩, rfl, loop rfl, rfl⟩
      · refine ⟨by simp [Children.joining_snoc], by simp [Children.joining_snoc], rfl,
          fun all => ⟨spawned.setLeftMap _, all.2⟩, fun onlyCall => ?_, ?_⟩
        · exact absurd (call.symm.trans onlyCall.2) Bool.false_ne_true
        · rw [before]
          simp [Children.sum, Children.sum_setLeftMap, FullFrame.finish, FullFrame.rest, Holder.hand, call]
    | none =>
      rw [ended rfl] at before ⊢
      refine ⟨_, rfl, (left_inv.setLeftMap spawned _).setUnlinked ?_, ?_⟩
      · intro other member
        rcases Multiset.mem_cons.mp member with rfl | member
        · exact ⟨call, joins, rfl, rfl, rfl, returned.mine⟩
        · exact left_inv.unlinked_ready other member
      · refine ⟨?_, by simp [Children.joining_snoc], ?_, fun _ => (spawned.setLeftMap _).setUnlinked _,
          fun onlyCall => ?_, ?_⟩
        · simp only [Children.joining, Children.count_setUnlinked, Children.unlinked_setUnlinked, Multiset.card_cons,
            Children.count_setLeftMap, Children.count, Children.unlinked]
          omega
        · exact ((spawned.setLeftMap _).setUnlinked _).awaitsCall.trans call.symm
        · exact absurd (call.symm.trans onlyCall.2) Bool.false_ne_true
        · rw [before]
          simp [Children.sum_setLeftMap, sum_called spawned.awaitsCall]

end SpawnReturn

theorem Step.preserved {children : Children M} {idle : Multiset (Worker M)}
    {result : Option (Children M × Multiset (Worker M))} (step : Step children idle result) (inv : children.Inv)
    (empty : Idle idle) (leads : children.HaveLeader idle) :
    ∃ r, result = some r ∧ r.1.Inv ∧ Idle r.2 ∧ children.Kept r.1 := by
  induction step with
  | frame step =>
    cases inv with
    | snoc left_inv below_inv consistent isChild spawned =>
      obtain ⟨r, rfl, preserved⟩ := step.preserved consistent below_inv empty (leads _ _ .here)
      refine ⟨_, rfl, .snoc left_inv preserved.inv preserved.consistent ⟨?_, ?_, ?_⟩ spawned, preserved.idle,
        .frame preserved.call preserved.right preserved.finish⟩
      · rw [preserved.call, preserved.detached, isChild.kind]
      · rw [preserved.last, isChild.notLast]
      · rw [preserved.call, preserved.right]
        exact isChild.callMap
  | inside step ih =>
    cases inv with
    | snoc left_inv below_inv consistent isChild spawned =>
      obtain ⟨r, rfl, inv', empty', kept⟩ := ih below_inv empty fun _ _ has => leads _ _ (.inside has)
      exact ⟨_, rfl, .snoc left_inv inv' (kept.consistent consistent) isChild spawned, empty',
        .frame rfl rfl (by rw [kept.sum])⟩
  | left step ih =>
    cases inv with
    | snoc left_inv below_inv consistent isChild spawned =>
      obtain ⟨r, rfl, inv', empty', kept⟩ := ih left_inv empty fun _ _ has => leads _ _ (.left has)
      exact ⟨_, rfl, .snoc inv' below_inv consistent isChild (kept.spawned spawned), empty', kept.left⟩
  | spawnReturn held =>
    obtain ⟨row, result, inv', kept⟩ := spliceSpawnReturn_preserved inv held
    exact ⟨_, by rw [result]; rfl, inv', empty, kept⟩
  | returnsFromTheMiddle returns =>
    cases inv with
    | snoc left_inv _ _ _ spawned =>
      cases left_inv with
      | snoc _ _ _ isChild _ =>
        -- only called frames go to `__cilkrts_return`, and no called frame has a sibling to its right
        have call := isChild.kind
        rw [returns.2.2.1, spawned.2] at call
        cases call

end CilkArtifact.Runtime
