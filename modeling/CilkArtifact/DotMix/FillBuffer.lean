import CilkArtifact.DotMix.Forward

/-! Buffers of random numbers (`fill_buffer`): the pedigree is compressed once, and every cell of the buffer
adds a last term of its own. -/
namespace CilkArtifact.DotMix
open Buffer Pedigree OptPedigree

/-- `update_and_fill_buffer`; the iterations of the `cilk_for` write different cells. -/
def updateAndFillBuffer (iterations : ℕ) (outputBuffer : Buffer ℕ Word) (n : ℕ) (prefixResult tableTerm : Word) :
    Option (Buffer ℕ Word) :=
  forLoop 0 n (fun buffer i =>
    let compressedPedVal := prefixResult + BitVec.ofNat 64 (i + 1) * tableTerm
    buffer.write i (mix iterations compressedPedVal)) outputBuffer

/-- `update_mod_p_and_fill_buffer` -/
def updateModPAndFillBuffer (iterations : ℕ) (outputBuffer : Buffer ℕ Word) (n : ℕ) (prefixResult tableTerm : Word) :
    Option (Buffer ℕ Word) :=
  forLoop 0 n (fun buffer i =>
    let tmpResult := dotprodUpdateModP (BitVec.ofNat 64 (i + 1)) tableTerm .zero
    let compressedPedVal := finalizeDotprodModP prefixResult tmpResult
    buffer.write i (mix iterations compressedPedVal)) outputBuffer

def getCompressedPedigree (type : RngType) (S : ℕ) (g : DotMixGeneric) (w : Worker) : Option (Word × ℕ × Worker) :=
  match type with
  | .dmix => (getCompressedPedigreeDmix g w).toOption
  | .dmixPrime => (getCompressedPedigreeDmixPrime g w).toOption
  | .fDmix => getCompressedPedigreeFDmix S g w
  | .fDmixPrime => getCompressedPedigreeFDmixPrime S g w

/-- `DotMixGeneric<RNG_TYPE, NUM_MIX_ITER>::get` -/
def get (type : RngType) (iterations S : ℕ) (g : DotMixGeneric) (w : Worker) : Option (Word × Worker) := do
  let (result, _, w) ← getCompressedPedigree type S g w
  some (mix iterations result, w)

/-- The `switch` of `fill_buffer`. -/
def updateFor (type : RngType) (iterations : ℕ) (outputBuffer : Buffer ℕ Word) (n : ℕ) (prefixResult tabTerm : Word) :
    Option (Buffer ℕ Word) :=
  if type.isPrime then updateModPAndFillBuffer iterations outputBuffer n prefixResult tabTerm
  else updateAndFillBuffer iterations outputBuffer n prefixResult tabTerm

/-- `DotMixGeneric<RNG_TYPE, NUM_MIX_ITER>::fill_buffer` -/
def fillBuffer (type : RngType) (iterations S : ℕ) (g : DotMixGeneric) (w : Worker) (outputBuffer : Buffer ℕ Word)
    (n : ℕ) : Option (Buffer ℕ Word × Worker) := do
  let (prefixResult, pedLength, w) ← getCompressedPedigree type S g w
  if 0 < pedLength ∧ pedLength < g.tableLength then do
    let tabTerm ← (g.read pedLength).toOption
    let buffer ← updateFor type iterations outputBuffer n prefixResult tabTerm
    some (buffer, w)
  else none

/-! ### Longer pedigrees -/

/-- The pedigree of a strand whose leaf is one level below, where it has rank `i`; the old leaf is at the
address `a`. -/
def extend (w : Worker) (a : Addr) (i : ℕ) : Worker :=
  ⟨Function.update w.nodes a (some w.leaf), ⟨BitVec.ofNat 64 i, some a⟩⟩

variable {nodes : Addr → Option PedNode} {node stopNode : PedNode} {ns : List PedNode} {w : Worker}
  {pre y : List Word} {k : Word} {a : Addr}

theorem nodeChain_update (fresh : nodes a = none) (new : PedNode) (chain : NodeChain nodes node ns) :
    NodeChain (Function.update nodes a (some new)) node ns := by
  induction chain with
  | root top => exact .root top
  | @up node b parent rest linked found _ ih =>
    have other : b ≠ a := by
      rintro rfl
      rw [fresh] at found
      cases found
    exact .up linked (by rw [Function.update_of_ne other, found]) ih

theorem ScopedBy.extend (scope : ScopedBy w stopNode ns pre k y) (fresh : w.nodes a = none) (i : ℕ) :
    ScopedBy (extend w a i) stopNode (⟨BitVec.ofNat 64 i, some a⟩ :: ns) pre k (y ++ [BitVec.ofNat 64 i]) where
  chain := .up rfl (Function.update_self ..) (nodeChain_update fresh w.leaf scope.chain)
  pedigree := by
    rw [List.map_cons, List.reverse_cons, scope.pedigree, List.append_assoc _ y]
  rank := scope.rank
  parent := by
    rw [List.length_append, List.length_singleton, List.getElem?_cons_succ, scope.parent]

/-- A loop over distinct cells leaves its value in each of them. -/
theorem fill_loop (value : ℕ → Word) {buffer : Buffer ℕ Word} {n : ℕ} (spans : buffer.Spans 0 n) :
    ∃ buffer', forLoop 0 n (fun buffer i => buffer.write i (value i)) buffer = some buffer' ∧
      ∀ i < n, buffer'.cell i = some (value i) := by
  have loop : ∃ buffer', forLoop 0 n (fun buffer i => buffer.write i (value i)) buffer = some buffer' ∧
      buffer'.Spans 0 n ∧ ∀ i < n, buffer'.cell i = some (value i) := by
    refine forLoop_invariant (fun m (buffer' : Buffer ℕ Word) => buffer'.Spans 0 n ∧
      ∀ i < m, buffer'.cell i = some (value i)) (Nat.zero_le n)
      ⟨spans, fun i impossible => absurd impossible (Nat.not_lt_zero i)⟩ ?_
    rintro m buffer₁ _ inside ⟨spans₁, filled⟩
    obtain ⟨buffer₂, run, written, changes⟩ := write_spec (spans₁ m (mem_span.mpr (by omega))) (value m)
    refine ⟨buffer₂, run, spans₁.changes changes, ?_⟩
    intro i bound
    by_cases last : i = m
    · rw [last, written]
    · rw [changes.frame i last, filled i (by omega)]
  obtain ⟨buffer', run, _, filled⟩ := loop
  exact ⟨buffer', run, filled⟩

/-! ### Buffers and single numbers -/

/-- Every cell of the buffer gets what `get` returns for the pedigree with the cell's index as one more term. -/
def FillsLikeGet (type : RngType) (iterations S : ℕ) (g : DotMixGeneric) (w : Worker) (a : Addr)
    (outputBuffer : Buffer ℕ Word) (n : ℕ) : Prop :=
  ∃ buffer w', fillBuffer type iterations S g w outputBuffer n = some (buffer, w') ∧
    ∀ i < n, ∃ v w', get type iterations S g (extend w a i) = some (v, w') ∧ buffer.cell i = some v

/-- The running sum over the scoped pedigree `ts`, of which `get` and `fill_buffer` use the terms plus one. -/
def prefixSum (sum : RunningSum σ) (g : DotMixGeneric) (ts : List Word) : σ :=
  accumulate sum.update g.entry 0 sum.start (ts.map (· + 1))

theorem prefixSum_concat (sum : RunningSum σ) (g : DotMixGeneric) (ts : List Word) (t : Word) :
    prefixSum sum g (ts ++ [t]) = sum.update (prefixSum sum g ts) (t + 1) (g.entry ts.length) := by
  rw [prefixSum, List.map_append, List.map_singleton, accumulate_concat, List.length_map, Nat.zero_add, prefixSum]

theorem compressForward_long (S : ℕ) (sum : RunningSum σ) (g : DotMixGeneric)
    (scope : ScopedBy w g.stopNode ns pre k y) (long : g.tableLength ≤ 1 + y.length) :
    compressForward S sum g w = none := by
  obtain ⟨sped, run, represents⟩ := currentScoped_inScope (S := S) scope.chain scope.met scope.inScope
  have length : sped.length = 1 + y.length := by
    rw [represents.length, scope.scopedTerms]
    simp [Nat.add_comm]
  simp only [compressForward, run, length, Option.bind_eq_bind, Option.bind_some]
  rw [if_neg (by omega)]

section Variant
variable {σ : Type} {type : RngType} {iterations S : ℕ} {g : DotMixGeneric} {sum : RunningSum σ}
  {outputBuffer : Buffer ℕ Word} {n : ℕ}

/-- The value of a cell: the last term is combined with the finished prefix. -/
def bufferedSum (sum : RunningSum σ) (combine : Word → Word → Word → Word) (g : DotMixGeneric) (ts : List Word) (i : ℕ) :
    Word :=
  combine (sum.finish (prefixSum sum g ts)) (BitVec.ofNat 64 (i + 1)) (g.entry ts.length)

theorem get_extend (iterations : ℕ) (compress : ∀ w, getCompressedPedigree type S g w = compressForward S sum g w)
    (scope : ScopedBy w g.stopNode ns pre k y) (fresh : w.nodes a = none) (room : 1 + y.length + 1 < g.tableLength)
    (i : ℕ) : ∃ w', get type iterations S g (extend w a i) =
      some (mix iterations (sum.finish (prefixSum sum g (k :: y ++ [BitVec.ofNat 64 i]))), w') := by
  have run := compressForward_scoped S sum g (scope.extend fresh i) (by
    rw [List.length_append, List.length_singleton]
    omega)
  refine ⟨(extend w a i).bumpRank, ?_⟩
  rw [get, compress, run]
  rfl

theorem get_extend_long (compress : ∀ w, getCompressedPedigree type S g w = compressForward S sum g w)
    (scope : ScopedBy w g.stopNode ns pre k y) (fresh : w.nodes a = none) (long : g.tableLength ≤ 1 + y.length + 1)
    (i : ℕ) : get type iterations S g (extend w a i) = none := by
  have run := compressForward_long S sum g (scope.extend fresh i) (by
    rw [List.length_append, List.length_singleton]
    omega)
  rw [get, compress, run]
  rfl

theorem fillBuffer_scoped (combine : Word → Word → Word → Word)
    (compress : ∀ w, getCompressedPedigree type S g w = compressForward S sum g w)
    (update : ∀ buffer n prefixResult tabTerm, updateFor type iterations buffer n prefixResult tabTerm =
      forLoop 0 n (fun buffer i =>
        buffer.write i (mix iterations (combine prefixResult (BitVec.ofNat 64 (i + 1)) tabTerm))) buffer)
    (scope : ScopedBy w g.stopNode ns pre k y) (fits : 1 + y.length < g.tableLength) (spans : outputBuffer.Spans 0 n) :
    ∃ buffer w', fillBuffer type iterations S g w outputBuffer n = some (buffer, w') ∧
      ∀ i < n, buffer.cell i = some (mix iterations (bufferedSum sum combine g (k :: y) i)) := by
  have run := compressForward_scoped S sum g scope fits
  obtain ⟨buffer, loop, filled⟩ :=
    fill_loop (fun i => mix iterations (bufferedSum sum combine g (k :: y) i)) spans
  refine ⟨buffer, w.bumpRank, ?_, filled⟩
  have length : (k :: y).length = 1 + y.length := by rw [List.length_cons, Nat.add_comm]
  simp only [fillBuffer, compress, run, Option.bind_eq_bind, Option.bind_some]
  rw [if_pos ⟨by omega, fits⟩, g.read_eq fits]
  simp only [bufferedSum, length, prefixSum] at loop
  simp only [Except.toOption, Option.bind_some, update, loop]

/-- The variants agree with `get` if the table has room for one more term and combining the last term with
the finished prefix is the same as updating the sum with it. -/
theorem fillsLikeGet_iff (sum : RunningSum σ) (combine : Word → Word → Word → Word)
    (compress : ∀ w, getCompressedPedigree type S g w = compressForward S sum g w)
    (update : ∀ buffer n prefixResult tabTerm, updateFor type iterations buffer n prefixResult tabTerm =
      forLoop 0 n (fun buffer i =>
        buffer.write i (mix iterations (combine prefixResult (BitVec.ofNat 64 (i + 1)) tabTerm))) buffer)
    (scope : ScopedBy w g.stopNode ns pre k y) (fresh : w.nodes a = none) (fits : 1 + y.length < g.tableLength)
    (spans : outputBuffer.Spans 0 n) :
    FillsLikeGet type iterations S g w a outputBuffer n ↔ n = 0 ∨ (1 + y.length + 1 < g.tableLength ∧ ∀ i < n,
      bufferedSum sum combine g (k :: y) i =
        sum.finish (sum.update (prefixSum sum g (k :: y)) (BitVec.ofNat 64 (i + 1)) (g.entry (k :: y).length))) := by
  obtain ⟨buffer, w', run, filled⟩ := fillBuffer_scoped combine compress update scope fits spans
  have next (i : ℕ) : (BitVec.ofNat 64 i + 1 : Word) = BitVec.ofNat 64 (i + 1) := (BitVec.ofNat_add i 1).symm
  constructor
  · rintro ⟨other, w'', run', agrees⟩
    rw [run] at run'
    cases run'
    refine or_iff_not_imp_left.mpr fun some => ?_
    have room : 1 + y.length + 1 < g.tableLength := by
      by_contra long
      obtain ⟨v, w₁, got, _⟩ := agrees 0 (Nat.pos_of_ne_zero some)
      rw [get_extend_long compress scope fresh (Nat.not_lt.mp long)] at got
      cases got
    refine ⟨room, fun i inside => ?_⟩
    obtain ⟨v, w₁, got, cell⟩ := agrees i inside
    obtain ⟨w₂, value⟩ := get_extend iterations compress scope fresh room i
    rw [value] at got
    cases got
    rw [filled i inside, Option.some.injEq, prefixSum_concat, next] at cell
    exact mix_injective iterations cell
  · intro condition
    refine ⟨buffer, w', run, fun i inside => ?_⟩
    obtain ⟨room, same⟩ := condition.resolve_left (by omega)
    obtain ⟨w₂, value⟩ := get_extend iterations compress scope fresh room i
    refine ⟨_, w₂, value, ?_⟩
    rw [filled i inside, prefixSum_concat, next, same i inside]

end Variant

/-- The dot product of the scoped pedigree `ts`, with one added to each term, and the table. -/
def dotProduct (g : DotMixGeneric) (ts : List Word) : ℕ :=
  ∑ j ∈ Finset.range ts.length, ((ts.map (· + 1)).getD j 0).toNat * (g.entry j).toNat

/-- The product of the term `i` plus one with the table entry after those of `ts`. -/
def lastProduct (g : DotMixGeneric) (ts : List Word) (i : ℕ) : ℕ :=
  (BitVec.ofNat 64 (i + 1) : Word).toNat * (g.entry ts.length).toNat

theorem prefixSum_prime (g : DotMixGeneric) (ts : List Word) : (prefixSum (dmixPrimeSum g) g ts).Reduced ∧
    (prefixSum (dmixPrimeSum g) g ts).residue = (dotProduct g ts : ZMod prime) := by
  obtain ⟨reduced, residue⟩ := accumulate_products g.entry (ts.map (· + 1)) 0 zero_reduced
  refine ⟨reduced, ?_⟩
  rw [zero_residue, zero_add, List.length_map] at residue
  simp only [Nat.zero_add] at residue
  rw [dotProduct, Nat.cast_sum]
  simp only [Nat.cast_mul]
  exact residue

/-- Reducing two residues separately and adding them with wrap-around gives the residue of the sum exactly
if that addition does not reach the modulus. -/
theorem split_residues_iff (X : Word) (s t : ℕ) :
    ((X.toNat + s % prime) % 2 ^ 64 + t % prime) % 2 ^ 64 = (X.toNat + (s + t) % prime) % 2 ^ 64 ↔
      s % prime + t % prime < prime := by
  have hs : s % prime < prime := Nat.mod_lt _ (by decide)
  have ht : t % prime < prime := Nat.mod_lt _ (by decide)
  rw [Nat.add_mod s t prime, Nat.mod_add_mod, Nat.add_assoc]
  generalize s % prime = A at *
  generalize t % prime = B at *
  by_cases carry : A + B < prime
  · rw [Nat.mod_eq_of_lt carry]
    exact iff_of_true rfl carry
  · have wrapped : (A + B) % prime = A + B - prime := by
      rw [Nat.mod_eq_sub_mod (Nat.not_lt.mp carry), Nat.mod_eq_of_lt (by omega)]
    have shifted : X.toNat + (A + B) = X.toNat + (A + B - prime) + prime := by omega
    rw [wrapped, shifted]
    refine iff_of_false ?_ carry
    generalize X.toNat + (A + B - prime) = C
    intro same
    rw [← Nat.ModEq, Nat.add_modEq_left_iff] at same
    exact absurd same (by decide)

theorem fDmixPrime_combine_iff (g : DotMixGeneric) (ts : List Word) (i : ℕ) :
    bufferedSum (dmixPrimeSum g) (fun res a x => finalizeDotprodModP res (dotprodUpdateModP a x .zero)) g ts i =
        (dmixPrimeSum g).finish ((dmixPrimeSum g).update (prefixSum (dmixPrimeSum g) g ts) (BitVec.ofNat 64 (i + 1))
          (g.entry ts.length)) ↔
      dotProduct g ts % prime + lastProduct g ts i % prime < prime := by
  obtain ⟨reduced, residue⟩ := prefixSum_prime g ts
  obtain ⟨reduced₁, residue₁⟩ := dotprodUpdateModP_spec (BitVec.ofNat 64 (i + 1)) (g.entry ts.length) reduced
  obtain ⟨reduced₂, residue₂⟩ := dotprodUpdateModP_spec (BitVec.ofNat 64 (i + 1)) (g.entry ts.length) zero_reduced
  have total : (dotProduct g ts : ZMod prime) + (BitVec.ofNat 64 (i + 1) : Word).toNat * (g.entry ts.length).toNat =
      ((dotProduct g ts + lastProduct g ts i : ℕ) : ZMod prime) := by
    rw [lastProduct]
    push_cast
    rfl
  have last : ((BitVec.ofNat 64 (i + 1) : Word).toNat : ZMod prime) * (g.entry ts.length).toNat =
      (lastProduct g ts i : ℕ) := by
    rw [lastProduct]
    push_cast
    rfl
  rw [residue, total] at residue₁
  rw [zero_residue, zero_add, last] at residue₂
  rw [← split_residues_iff g.X, ← BitVec.toNat_inj, bufferedSum, finalizeDotprodModP_toNat _ reduced₂, residue₂]
  simp only [dmixPrimeSum] at *
  rw [finalizeDotprodModP_toNat _ reduced, finalizeDotprodModP_toNat _ reduced₁, residue, residue₁, ZMod.val_natCast,
    ZMod.val_natCast, ZMod.val_natCast]

theorem fDmix_iff {iterations S : ℕ} {g : DotMixGeneric} {outputBuffer : Buffer ℕ Word} {n : ℕ}
    (scope : ScopedBy w g.stopNode ns pre k y) (fresh : w.nodes a = none) (fits : 1 + y.length < g.tableLength)
    (spans : outputBuffer.Spans 0 n) :
    FillsLikeGet .fDmix iterations S g w a outputBuffer n ↔ n = 0 ∨ 1 + y.length + 1 < g.tableLength := by
  rw [fillsLikeGet_iff (dmixSum g) (fun res a x => res + a * x) (fun _ => rfl) (fun _ _ _ _ => rfl) scope fresh
    fits spans]
  exact or_congr_right (and_iff_left fun i _ => rfl)

theorem fDmixPrime_iff {iterations S : ℕ} {g : DotMixGeneric} {outputBuffer : Buffer ℕ Word} {n : ℕ}
    (scope : ScopedBy w g.stopNode ns pre k y) (fresh : w.nodes a = none) (fits : 1 + y.length < g.tableLength)
    (spans : outputBuffer.Spans 0 n) :
    FillsLikeGet .fDmixPrime iterations S g w a outputBuffer n ↔ n = 0 ∨ (1 + y.length + 1 < g.tableLength ∧
      ∀ i < n, dotProduct g (k :: y) % prime + lastProduct g (k :: y) i % prime < prime) := by
  rw [fillsLikeGet_iff (dmixPrimeSum g) (fun res a x => finalizeDotprodModP res (dotprodUpdateModP a x .zero))
    (fun _ => rfl) (fun _ _ _ _ => rfl) scope fresh fits spans]
  simp only [fDmixPrime_combine_iff]

/-- Buffers agree with `get` as long as the table has room for the longer pedigree, and for the prime
variant only if the residues of the prefix and of the last product never add up to the prime. -/
theorem fillBuffer_agrees_iff (iterations S : ℕ) (seed : Word) {outputBuffer : Buffer ℕ Word} {n : ℕ}
    (scope : ScopedBy w stopNode ns pre k y) (fresh : w.nodes a = none) (fits : 1 + y.length < maxTableLength)
    (spans : outputBuffer.Spans 0 n) :
    (FillsLikeGet .fDmixPrime iterations S (initSeed .fDmixPrime iterations seed stopNode) w a outputBuffer n ↔
      n = 0 ∨ (1 + y.length + 1 < maxTableLength ∧ ∀ i < n,
        dotProduct (initSeed .fDmixPrime iterations seed stopNode) (k :: y) % prime +
          lastProduct (initSeed .fDmixPrime iterations seed stopNode) (k :: y) i % prime < prime)) ∧
    (FillsLikeGet .fDmix iterations S (initSeed .fDmix iterations seed stopNode) w a outputBuffer n ↔
      n = 0 ∨ 1 + y.length + 1 < maxTableLength) :=
  ⟨fDmixPrime_iff (g := initSeed .fDmixPrime iterations seed stopNode) scope fresh fits spans,
    fDmix_iff (g := initSeed .fDmix iterations seed stopNode) scope fresh fits spans⟩

/-- The pedigree with the one term 0. -/
def oneTerm : Worker := ⟨fun _ => none, ⟨0, none⟩⟩

theorem oneTerm_scoped : ScopedBy oneTerm globalStopNode [⟨0, none⟩] [] 0 [] := ⟨.root rfl, rfl, by decide, rfl⟩

/-- With the seed 1, the buffer of one number agrees with `get`. -/
theorem fillBuffer_agrees_seed_one :
    FillsLikeGet .fDmixPrime 4 4 (initSeed .fDmixPrime 4 1 globalStopNode) oneTerm 0 (raw 1) 1 ∧
      FillsLikeGet .fDmix 4 4 (initSeed .fDmix 4 1 globalStopNode) oneTerm 0 (raw 1) 1 := by
  obtain ⟨modP, plain⟩ := fillBuffer_agrees_iff 4 4 1 oneTerm_scoped rfl (by decide) (spans_raw 1)
  refine ⟨modP.mpr (.inr ⟨by decide, ?_⟩), plain.mpr (.inr (by decide))⟩
  intro i inside
  have first : i = 0 := by omega
  subst first
  decide +kernel

/-- With the default seed, it does not. -/
theorem fillBuffer_default_seed :
    ¬ FillsLikeGet .fDmixPrime 4 4 (initSeed .fDmixPrime 4 0x8c679c168e6bf733 globalStopNode) oneTerm 0 (raw 1) 1 := by
  intro fills
  have condition := (fDmixPrime_iff oneTerm_scoped rfl (by decide) (spans_raw 1)).mp fills
  obtain ⟨_, small⟩ := condition.resolve_left (by decide)
  exact absurd (small 0 (by decide)) (by decide +kernel)

end CilkArtifact.DotMix
