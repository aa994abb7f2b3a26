import Mathlib

/-! Threads that take turns at single accesses to a shared memory. What each guarantees of its accesses the others rely
on: an invariant of the memory and what every thread knows then hold in every run, and if no access of one sets the
others back, every run ends. -/
namespace CilkArtifact.Threads
variable {ι M β : Type*} {L : ι → Type*} [DecidableEq ι]

/-- The memory and where each thread is. -/
structure State (M : Type*) (L : ι → Type*) where
  memory : M
  locals : ∀ i, L i

/-- One access of one thread; a thread without one has ended. -/
inductive Steps (step : ∀ i, L i → M → Option (L i × M)) (s : State M L) : State M L → Prop
  | turn (i : ι) {l m} (access : step i (s.locals i) s.memory = some (l, m)) :
      Steps step s ⟨m, Function.update s.locals i l⟩

/-- A turn of one thread, if it has not ended. -/
def take (step : ∀ i, L i → M → Option (L i × M)) (s : State M L) (i : ι) : State M L :=
  match step i (s.locals i) s.memory with
  | none => s
  | some (l, m) => ⟨m, Function.update s.locals i l⟩

theorem take_run {step : ∀ i, L i → M → Option (L i × M)} (turns : List ι) (s : State M L) :
    Relation.ReflTransGen (Steps step) s (turns.foldl (take step) s) := by
  induction turns generalizing s with
  | nil => exact .refl
  | cons i rest ih =>
    rw [List.foldl_cons]
    refine .trans ?_ (ih _)
    unfold take
    split
    · exact .refl
    · exact .single (.turn i ‹_›)

/-- No thread can go on. -/
def Ended (step : ∀ i, L i → M → Option (L i × M)) (s : State M L) : Prop := ∀ i, step i (s.locals i) s.memory = none

/-- What the accesses keep: the invariant of the memory, what the other threads rely on, and what the thread knows. -/
structure RelyGuarantee (step : ∀ i, L i → M → Option (L i × M)) (inv : M → Prop) (changes : M → M → Prop)
    (knows : ∀ i, L i → M → Prop) : Prop where
  access : ∀ {i l m l' m'}, inv m → knows i l m → step i l m = some (l', m') → inv m' ∧ changes m m' ∧ knows i l' m'
  stable : ∀ {i l m m'}, inv m → inv m' → knows i l m → changes m m' → knows i l m'

variable {step : ∀ i, L i → M → Option (L i × M)} {inv : M → Prop} {changes : M → M → Prop} {knows : ∀ i, L i → M → Prop}

/-- The invariant of a whole state. -/
structure Safe (inv : M → Prop) (knows : ∀ i, L i → M → Prop) (s : State M L) : Prop where
  memory : inv s.memory
  locals : ∀ i, knows i (s.locals i) s.memory

theorem RelyGuarantee.steps (rg : RelyGuarantee step inv changes knows) {s s' : State M L} (steps : Steps step s s')
    (safe : Safe inv knows s) : Safe inv knows s' ∧ changes s.memory s'.memory := by
  cases steps with
  | turn i access =>
    obtain ⟨memory, changed, mine⟩ := rg.access safe.memory (safe.locals i) access
    refine ⟨⟨memory, fun j => ?_⟩, changed⟩
    by_cases same : j = i
    · subst same
      simpa using mine
    · simpa [same] using rg.stable safe.memory memory (safe.locals j) changed

theorem RelyGuarantee.run (rg : RelyGuarantee step inv changes knows) {s s' : State M L}
    (run : Relation.ReflTransGen (Steps step) s s') (safe : Safe inv knows s) : Safe inv knows s' := by
  induction run with
  | refl => exact safe
  | tail _ last ih => exact (rg.steps last ih).1

variable [Preorder β]

/-- How far a thread is from its end: less after each of its accesses, and no more after another's. -/
structure Progress (step : ∀ i, L i → M → Option (L i × M)) (inv : M → Prop) (changes : M → M → Prop)
    (knows : ∀ i, L i → M → Prop) (left : ∀ i, L i → M → β) : Prop where
  access : ∀ {i l m l' m'}, inv m → knows i l m → step i l m = some (l', m') → left i l' m' < left i l m
  stable : ∀ {i l m m'}, inv m → inv m' → knows i l m → changes m m' → left i l m' ≤ left i l m

/-- Every run ends. -/
theorem RelyGuarantee.acc [Finite ι] [WellFoundedLT β] {left : ∀ i, L i → M → β}
    (rg : RelyGuarantee step inv changes knows) (progress : Progress step inv changes knows left) {s : State M L}
    (safe : Safe inv knows s) : Acc (fun s' s => Steps step s s') s := by
  let total (s : State M L) : ι → β := fun i => left i (s.locals i) s.memory
  have smaller {s s' : State M L} (steps : Steps step s s') (safe : Safe inv knows s) : total s' < total s := by
    have safe' := (rg.steps steps safe).1
    have changed := (rg.steps steps safe).2
    cases steps with
    | turn i access =>
      have own := progress.access safe.memory (safe.locals i) access
      refine Pi.lt_def.mpr ⟨fun j => ?_, i, ?_⟩
      · by_cases same : j = i
        · subst same
          simpa [total] using own.le
        · simpa [total, same] using progress.stable safe.memory safe'.memory (safe.locals j) changed
      · simpa [total] using own
  suffices all : ∀ t : ι → β, ∀ s : State M L, total s = t → Safe inv knows s → Acc (fun s' s => Steps step s s') s from
    all _ s rfl safe
  have order : WellFounded ((· < ·) : (ι → β) → (ι → β) → Prop) := wellFounded_lt
  intro t
  induction t using order.induction with
  | h t ih =>
    rintro s rfl safe
    exact .intro _ fun s' steps => ih _ (smaller steps safe) s' rfl (rg.steps steps safe).1

end CilkArtifact.Threads
