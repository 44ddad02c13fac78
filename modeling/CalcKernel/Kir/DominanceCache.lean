import CalcKernel.Kir.Dominance
import CalcKernel.Lib.Budget
import CalcKernel.Lib.Recent

/-!
# The dominance cache

Dominators are computed with a charge for the work.  Tables are kept by the shape of the graph,
together with what they cost, so that a call with a budget is charged alike whether its table is
found or computed.
-/

namespace CalcKernel

open Lib

/-! ## Charged computation -/

namespace KirFunction

section Charged

variable {σ : Type*} (charge : Nat → σ → Option σ) (f : KirFunction)

/-- The charge of one row: a pass over it for each predecessor behind the first, and one more. -/
def chargeRow (entry block : BlockId) (s : σ) : Option σ :=
  (charge f.blocks.length s).bind fun s ↦
    if block = entry then some s
    else (f.flowPredecessors block).tail.foldlM (fun s _ ↦ charge f.blocks.length s) s

def chargedStep (entry : BlockId) (state : (DominatorRows × Bool) × σ) (block : BlockId) :
    Option ((DominatorRows × Bool) × σ) :=
  (f.chargeRow charge entry block state.2).map fun s ↦ (f.dominatorStep entry state.1 block, s)

def chargedRound (entry : BlockId) (rows : DominatorRows) (s : σ) :
    Option ((DominatorRows × Bool) × σ) :=
  f.sortedIds.foldlM (f.chargedStep charge entry) ((rows, false), s)

def chargedRows (entry : BlockId) : Nat → DominatorRows → σ → Option (DominatorRows × σ)
  | 0, _, _ => none
  | fuel + 1, rows, s =>
      (f.chargedRound charge entry rows s).bind fun state ↦
        if state.1.2 then chargedRows entry fuel state.1.1 state.2 else some (state.1.1, state.2)

/-- `compute_dominators`. -/
def computeDominators (s : σ) : Option (Dominators × σ) :=
  match f.entryId? with
  | none => some (fun _ _ ↦ false, s)
  | some entry => do
      let n := f.blocks.length
      let s ← f.blocks.foldlM (fun s _ ↦ charge 1 s) s
      let s ← charge (n * n) s
      let (rows, s) ← f.chargedRows charge entry (n * n + 1) (f.startRows entry) s
      let s ← charge (n * n) s
      some (fun dominator block ↦ f.sortedIds.contains block && (rows block).contains dominator, s)

end Charged

end KirFunction

/-- The work is counted, up to the greatest number of 32 bits. -/
def countUnits (units counted : Nat) : Option Nat := some (min u32Max (counted + min u32Max units))

/-! ## The cache -/

/-- The blocks of a function with the targets of their edges. -/
abbrev KirCfgIdentity := List (BlockId × Option BlockId × Option BlockId)

def KirTerminator.targets : KirTerminator → Option BlockId × Option BlockId
  | .return _ _ _ => (none, none)
  | .jump edge => (some edge.target, none)
  | .branch _ thenEdge elseEdge => (some thenEdge.target, some elseEdge.target)

def KirFunction.cfgIdentity (f : KirFunction) : KirCfgIdentity :=
  f.blocks.map fun b ↦ (b.id, b.terminator.targets)

structure CachedDominators where
  identity : KirCfgIdentity
  result : Dominators
  budgetUnits : Nat

abbrev DominanceCache := List CachedDominators

def dominanceCacheCapacity : Nat := 16

def cachedDominators (identity : KirCfgIdentity) (cache : DominanceCache) :
    Option (CachedDominators × DominanceCache) :=
  recallEntry (·.identity) identity cache

def cacheDominators (entry : CachedDominators) (cache : DominanceCache) : DominanceCache :=
  rememberEntry dominanceCacheCapacity entry cache

/-- `compute_kir_dominators`. -/
def KirFunction.cachedKirDominators (f : KirFunction) (cache : DominanceCache) :
    Option Dominators × DominanceCache :=
  match cachedDominators f.cfgIdentity cache with
  | some (cached, cache) => (some cached.result, cache)
  | none =>
      match f.computeDominators countUnits 0 with
      | none => (none, cache)
      | some (result, units) =>
          (some result, cacheDominators ⟨f.cfgIdentity, result, units⟩ cache)

/-- `compute_kir_dominators_with_budget`: the table and what is left of the budget. -/
def KirFunction.cachedKirDominatorsWithBudget (f : KirFunction) (remaining : Nat)
    (cache : DominanceCache) : Option (Dominators × Nat) × DominanceCache :=
  match cachedDominators f.cfgIdentity cache with
  | some (cached, cache) =>
      (if cached.budgetUnits ≤ remaining then
        some (cached.result, remaining - cached.budgetUnits) else none, cache)
  | none =>
      match f.computeDominators spendUnits remaining with
      | none => (none, cache)
      | some (result, left) =>
          (some (result, left), cacheDominators ⟨f.cfgIdentity, result, remaining - left⟩ cache)

/-! ## What a computation costs -/

section SeenThrough

variable {σ τ : Type*} {charge : Nat → σ → Option σ} {charge' : Nat → τ → Option τ}
  {φ : σ → Option τ}

/-- One way to charge is seen through another. -/
def SeenThrough (charge : Nat → σ → Option σ) (charge' : Nat → τ → Option τ) (φ : σ → Option τ) :
    Prop :=
  ∀ units s, (φ s).bind (charge' units) = (charge units s).bind φ

/-- A table with the charge that is seen for it. -/
def seen {α : Type*} (φ : σ → Option τ) (state : α × σ) : Option (α × τ) :=
  (φ state.2).map fun t ↦ (state.1, t)

/-- Steps that are seen one by one are seen as a whole. -/
theorem foldlM_seen {A B α : Type*} {step : A → α → Option A} {step' : B → α → Option B}
    {ψ : A → Option B} (h : ∀ s a, (ψ s).bind (step' · a) = (step s a).bind ψ) (l : List α)
    (s : A) : (ψ s).bind (fun t ↦ l.foldlM step' t) = (l.foldlM step s).bind ψ := by
  induction l generalizing s with
  | nil => simp
  | cons a l ih =>
      simp only [List.foldlM_cons, Option.bind_eq_bind]
      rw [← Option.bind_assoc, h, Option.bind_assoc, Option.bind_assoc]
      exact congrArg _ (funext ih)

variable {f : KirFunction}

theorem SeenThrough.chargeRow (h : SeenThrough charge charge' φ) (entry block : BlockId) (s : σ) :
    (φ s).bind (f.chargeRow charge' entry block) = (f.chargeRow charge entry block s).bind φ := by
  unfold KirFunction.chargeRow
  rw [← Option.bind_assoc, h, Option.bind_assoc, Option.bind_assoc]
  refine congrArg _ (funext fun s' ↦ ?_)
  split
  · simp
  · exact foldlM_seen (fun s _ ↦ h _ s) _ s'

theorem SeenThrough.chargedStep (h : SeenThrough charge charge' φ) (entry : BlockId)
    (state : (DominatorRows × Bool) × σ) (block : BlockId) :
    (seen φ state).bind (f.chargedStep charge' entry · block) =
      (f.chargedStep charge entry state block).bind (seen φ) := by
  calc (seen φ state).bind (f.chargedStep charge' entry · block)
    _ = ((φ state.2).bind (f.chargeRow charge' entry block)).map
          fun t ↦ (f.dominatorStep entry state.1 block, t) := by
        unfold seen
        cases φ state.2 <;> rfl
    _ = ((f.chargeRow charge entry block state.2).bind φ).map
          fun t ↦ (f.dominatorStep entry state.1 block, t) := by rw [h.chargeRow]
    _ = (f.chargedStep charge entry state block).bind (seen φ) := by
        unfold KirFunction.chargedStep
        cases f.chargeRow charge entry block state.2 <;> rfl

theorem SeenThrough.chargedRows (h : SeenThrough charge charge' φ) (entry : BlockId) (fuel : Nat)
    (rows : DominatorRows) (s : σ) :
    (φ s).bind (f.chargedRows charge' entry fuel rows) =
      (f.chargedRows charge entry fuel rows s).bind (seen φ) := by
  induction fuel generalizing rows s with
  | zero => simp [KirFunction.chargedRows]
  | succ fuel ih =>
      have hround := foldlM_seen (h.chargedStep (f := f) entry) f.sortedIds ((rows, false), s)
      calc (φ s).bind (f.chargedRows charge' entry (fuel + 1) rows)
        _ = ((seen φ ((rows, false), s)).bind fun state ↦
              f.sortedIds.foldlM (f.chargedStep charge' entry) state).bind fun state ↦
                if state.1.2 then f.chargedRows charge' entry fuel state.1.1 state.2
                else some (state.1.1, state.2) := by
            unfold seen
            cases φ s <;> rfl
        _ = (f.chargedRound charge entry rows s).bind fun state ↦ (seen φ state).bind fun state ↦
                if state.1.2 then f.chargedRows charge' entry fuel state.1.1 state.2
                else some (state.1.1, state.2) := by
            rw [hround, Option.bind_assoc]
            rfl
        _ = (f.chargedRound charge entry rows s).bind fun state ↦
              (if state.1.2 then f.chargedRows charge entry fuel state.1.1 state.2
                else some (state.1.1, state.2)).bind (seen φ) := by
            refine congrArg _ (funext fun state ↦ ?_)
            by_cases hchanged : state.1.2 = true
            · simp only [if_pos hchanged]
              rw [← ih state.1.1 state.2]
              unfold seen
              cases hφ : φ state.2 with
              | none => rfl
              | some t => simp [hchanged]
            · simp only [if_neg hchanged]
              unfold seen
              cases hφ : φ state.2 with
              | none => simp [hφ]
              | some t => simp [hchanged, hφ]
        _ = (f.chargedRows charge entry (fuel + 1) rows s).bind (seen φ) := by
            rw [← Option.bind_assoc]
            rfl

theorem SeenThrough.computeDominators (h : SeenThrough charge charge' φ) (s : σ) :
    (φ s).bind (f.computeDominators charge') =
      (f.computeDominators charge s).bind (seen φ) := by
  unfold KirFunction.computeDominators
  cases hentry : f.entryId? with
  | none => simp [seen, Option.map_eq_bind]
  | some entry =>
      simp only [Option.bind_eq_bind]
      rw [← Option.bind_assoc, foldlM_seen (fun s _ ↦ h 1 s), Option.bind_assoc, Option.bind_assoc]
      refine congrArg _ (funext fun s₁ ↦ ?_)
      rw [← Option.bind_assoc, h, Option.bind_assoc, Option.bind_assoc]
      refine congrArg _ (funext fun s₂ ↦ ?_)
      rw [← Option.bind_assoc, h.chargedRows, Option.bind_assoc, Option.bind_assoc]
      refine congrArg _ (funext fun state ↦ ?_)
      calc ((seen φ state).bind fun state ↦ _)
        _ = ((φ state.2).bind (charge' (f.blocks.length * f.blocks.length))).map fun t ↦
              (fun dominator block ↦
                f.sortedIds.contains block && (state.1 block).contains dominator, t) := by
            unfold seen
            cases φ state.2 with
            | none => rfl
            | some t => simp [Option.map_eq_bind]
        _ = _ := by
            rw [h]
            cases charge (f.blocks.length * f.blocks.length) state.2 <;> rfl

end SeenThrough

/-- The work is counted as it is. -/
def countExactly (units counted : Nat) : Option Nat := some (counted + units)

theorem countExactly_observes_countUnits :
    SeenThrough countExactly countUnits fun counted ↦ some (min u32Max counted) := by
  intro units counted
  simp only [countExactly, countUnits, Option.bind_some, Option.some.injEq]
  omega

theorem countExactly_observes_spendUnits {remaining : Nat} (h : remaining ≤ u32Max) :
    SeenThrough countExactly spendUnits fun counted ↦
      if counted ≤ remaining then some (remaining - counted) else none := by
  intro units counted
  simp only [countExactly, Option.bind_some]
  by_cases hcounted : counted ≤ remaining
  · rw [if_pos hcounted, Option.bind_some, spendUnits]
    by_cases hunits : counted + units ≤ remaining
    · rw [if_pos hunits, if_pos (by omega), Nat.sub_sub]
    · rw [if_neg hunits, if_neg (by omega)]
  · rw [if_neg hcounted, if_neg (by omega)]
    rfl

theorem countExactly_observes_nothing :
    SeenThrough countExactly (fun _ (_ : Unit) ↦ some ()) fun _ ↦ some () :=
  fun _ _ ↦ rfl

namespace KirFunction

/-- What the computation of the table costs. -/
def dominatorUnits (f : KirFunction) : Nat :=
  ((f.computeDominators countExactly 0).map (·.2)).getD 0

variable {f g : KirFunction}

theorem foldlM_some_unit {α : Type*} (l : List α) :
    l.foldlM (fun _ _ ↦ some ()) () = some () := by
  induction l with
  | nil => rfl
  | cons a l ih => rwa [List.foldlM_cons]

theorem chargedRows_nothing (entry : BlockId) (fuel : Nat) (rows : DominatorRows) :
    f.chargedRows (fun _ _ ↦ some ()) entry fuel rows () =
      (f.dominatorRows entry fuel rows).map fun rows ↦ (rows, ()) := by
  have hstep (state : DominatorRows × Bool) (block : BlockId) :
      f.chargedStep (fun _ _ ↦ some ()) entry (state, ()) block =
        some (f.dominatorStep entry state block, ()) := by
    unfold chargedStep chargeRow
    split
    · rfl
    · rw [Option.bind_some, foldlM_some_unit]
      rfl
  have hsteps (l : List BlockId) (state : DominatorRows × Bool) :
      l.foldlM (f.chargedStep (fun _ _ ↦ some ()) entry) (state, ()) =
        some (l.foldl (f.dominatorStep entry) state, ()) := by
    induction l generalizing state with
    | nil => rfl
    | cons block l ih =>
        rw [List.foldlM_cons, hstep]
        exact ih _
  induction fuel generalizing rows with
  | zero => rfl
  | succ fuel ih =>
      rw [chargedRows, chargedRound, hsteps, dominatorRows]
      change (if (f.dominatorRound entry rows).2 then _ else _) = _
      by_cases hchanged : (f.dominatorRound entry rows).2 = true
      · rw [if_pos hchanged, if_pos hchanged]
        exact ih _
      · rw [if_neg hchanged, if_neg hchanged]
        rfl

/-- The charged computation gives the table of the plain one. -/
theorem computeDominators_nothing :
    f.computeDominators (fun _ _ ↦ some ()) () = some (f.computeKirDominators, ()) := by
  unfold computeDominators computeKirDominators
  cases hentry : f.entryId? with
  | none => rfl
  | some entry =>
      obtain ⟨rows, hrows, -, -⟩ := dominatorRows_returns
        (f.blocks.length * f.blocks.length + 1) (RowsInvariant.start hentry)
        (Nat.lt_succ_of_le (rowBits_startRows_le entry))
      simp only [foldlM_some_unit]
      change (f.chargedRows (fun _ _ ↦ some ()) entry _ (f.startRows entry) ()).bind _ = _
      rw [chargedRows_nothing, hrows]
      rfl

theorem computeDominators_countExactly :
    f.computeDominators countExactly 0 = some (f.computeKirDominators, f.dominatorUnits) := by
  have h := countExactly_observes_nothing.computeDominators (f := f) 0
  rw [Option.bind_some, computeDominators_nothing] at h
  obtain ⟨state, hstate, htable⟩ := Option.bind_eq_some_iff.mp h.symm
  have hunits : f.dominatorUnits = state.2 := by
    rw [dominatorUnits, hstate]
    rfl
  have htable : state.1 = f.computeKirDominators :=
    congrArg Prod.fst (Option.some.inj htable)
  rw [hstate, hunits, ← htable]

theorem computeDominators_countUnits : f.computeDominators countUnits 0 =
    some (f.computeKirDominators, min u32Max f.dominatorUnits) := by
  have h := countExactly_observes_countUnits.computeDominators (f := f) 0
  rwa [computeDominators_countExactly, Option.bind_some, Nat.min_zero] at h

theorem computeDominators_spendUnits {remaining : Nat} (h : remaining ≤ u32Max) :
    f.computeDominators spendUnits remaining =
      if f.dominatorUnits ≤ remaining then
        some (f.computeKirDominators, remaining - f.dominatorUnits) else none := by
  have h := (countExactly_observes_spendUnits h).computeDominators (f := f) 0
  rw [computeDominators_countExactly, Option.bind_some, if_pos (Nat.zero_le _), Option.bind_some,
    Nat.sub_zero] at h
  rw [h, seen]
  split <;> rfl

/-! ## Functions of one shape -/

theorem flowPredecessors_eq (target : BlockId) : f.flowPredecessors target =
    f.cfgIdentity.flatMap fun b ↦
      ((b.2.1.toList ++ b.2.2.toList).filter (· = target)).map fun _ ↦ b.1 := by
  rw [flowPredecessors, cfgIdentity, List.flatMap_map]
  refine List.flatMap_congr fun b _ ↦ ?_
  cases b.terminator <;> rfl

theorem blockIds_eq : f.blockIds = f.cfgIdentity.map Prod.fst := by
  rw [blockIds, cfgIdentity, List.map_map]
  rfl

section Shape

variable {σ : Type*} (charge : Nat → σ → Option σ)

theorem chargedStep_congr (h : g.cfgIdentity = f.cfgIdentity) :
    g.chargedStep charge = f.chargedStep charge := by
  have hpredecessors : g.flowPredecessors = f.flowPredecessors :=
    funext fun target ↦ by rw [flowPredecessors_eq, flowPredecessors_eq, h]
  have hids : g.blockIds = f.blockIds := by rw [blockIds_eq, blockIds_eq, h]
  have hlength : g.blocks.length = f.blocks.length := by
    simpa [blockIds] using congrArg List.length hids
  have hrow : g.nextRow = f.nextRow := by
    funext rows block
    have hbit : g.nextBit rows block = f.nextBit rows block := by
      funext candidate
      rw [nextBit, nextBit, hpredecessors]
    rw [nextRow, nextRow, sortedIds, sortedIds, hids, hbit]
  funext entry state block
  rw [chargedStep, chargedStep, chargeRow, chargeRow, dominatorStep, dominatorStep, hlength,
    hpredecessors, hrow]

/-- The table and its cost depend on the shape of the graph only. -/
theorem computeDominators_congr (h : g.cfgIdentity = f.cfgIdentity) (s : σ) :
    g.computeDominators charge s = f.computeDominators charge s := by
  have hpredecessors : g.flowPredecessors = f.flowPredecessors :=
    funext fun target ↦ by rw [flowPredecessors_eq, flowPredecessors_eq, h]
  have hids : g.blockIds = f.blockIds := by rw [blockIds_eq, blockIds_eq, h]
  have hlength : g.blocks.length = f.blocks.length := by
    simpa [blockIds] using congrArg List.length hids
  have hsorted : g.sortedIds = f.sortedIds := by rw [sortedIds, sortedIds, hids]
  have hentry : g.entryId? = f.entryId? := by
    rw [entryId?, entryId?, ← List.head?_map, ← List.head?_map]
    exact congrArg List.head? hids
  have hstart : g.startRows = f.startRows := by
    funext entry block
    rw [startRows, startRows, hsorted, hpredecessors]
  have hrows (entry : BlockId) (fuel : Nat) (rows : DominatorRows) (s : σ) :
      g.chargedRows charge entry fuel rows s = f.chargedRows charge entry fuel rows s := by
    induction fuel generalizing rows s with
    | zero => rfl
    | succ fuel ih =>
        simp only [chargedRows, chargedRound, hsorted, chargedStep_congr charge h, ih]
  have hcount (s : σ) : g.blocks.foldlM (fun s _ ↦ charge 1 s) s =
      f.blocks.foldlM (fun s _ ↦ charge 1 s) s := by
    have hunit (f : KirFunction) : f.blocks.foldlM (fun s _ ↦ charge 1 s) s =
        f.blockIds.foldlM (fun s _ ↦ charge 1 s) s := by
      rw [blockIds, List.foldlM_map]
    rw [hunit g, hunit f, hids]
  simp only [computeDominators, hentry, hlength, hsorted, hstart, hcount, hrows]

end Shape

theorem dominatorUnits_congr (h : g.cfgIdentity = f.cfgIdentity) :
    g.dominatorUnits = f.dominatorUnits := by
  rw [dominatorUnits, dominatorUnits, computeDominators_congr _ h]

theorem computeKirDominators_congr_identity (h : g.cfgIdentity = f.cfgIdentity) :
    g.computeKirDominators = f.computeKirDominators := by
  have hcompute := computeDominators_congr countExactly h 0
  rw [computeDominators_countExactly, computeDominators_countExactly] at hcompute
  exact congrArg Prod.fst (Option.some.inj hcompute)

end KirFunction

/-! ## Runs of queries -/

/-- A function whose dominators are asked for, with the budget if there is one. -/
structure DominanceQuery where
  function : KirFunction
  remaining : Option Nat

/-- The answer from the cache: the table, and what is left of the budget. -/
def DominanceQuery.answer (query : DominanceQuery) (cache : DominanceCache) :
    Option (Dominators × Option Nat) × DominanceCache :=
  match query.remaining with
  | none => (query.function.cachedKirDominators cache).map
      (Option.map fun result ↦ (result, none)) id
  | some remaining => (query.function.cachedKirDominatorsWithBudget remaining cache).map
      (Option.map fun answer ↦ (answer.1, some answer.2)) id

/-- The answer without a cache. -/
def DominanceQuery.plainAnswer (query : DominanceQuery) : Option (Dominators × Option Nat) :=
  match query.remaining with
  | none => some (query.function.computeKirDominators, none)
  | some remaining => (query.function.computeDominators spendUnits remaining).map fun answer ↦
      (answer.1, some answer.2)

/-- One query after the other, from a cache. -/
def answerQueries : List DominanceQuery → DominanceCache →
    List (Option (Dominators × Option Nat)) × DominanceCache
  | [], cache => ([], cache)
  | query :: queries, cache =>
      let (answer, cache) := query.answer cache
      let (answers, cache) := answerQueries queries cache
      (answer :: answers, cache)

/-- Every entry has the table and the cost of a function of its shape, and there is one entry for
a shape. -/
structure DominanceCache.Sound (cache : DominanceCache) : Prop where
  entry : ∀ e ∈ cache, ∃ f : KirFunction, e.identity = f.cfgIdentity ∧
    e.result = f.computeKirDominators ∧ e.budgetUnits = min u32Max f.dominatorUnits
  nodup : (cache.map (·.identity)).Nodup
  length_le : cache.length ≤ dominanceCacheCapacity

namespace DominanceCache.Sound

variable {f : KirFunction} {cache cache' : DominanceCache} {cached : CachedDominators}

theorem nil : DominanceCache.Sound [] where
  entry := by simp
  nodup := List.nodup_nil
  length_le := Nat.zero_le _

/-- What a hit gives. -/
theorem hit (h : cache.Sound)
    (hhit : cachedDominators f.cfgIdentity cache = some (cached, cache')) :
    cached.result = f.computeKirDominators ∧
      cached.budgetUnits = min u32Max f.dominatorUnits ∧ cache'.Sound := by
  obtain ⟨hmem, hidentity, hperm⟩ := recallEntry_eq_some hhit
  obtain ⟨g, hshape, hresult, hunits⟩ := h.entry cached hmem
  have hshape : g.cfgIdentity = f.cfgIdentity := hshape.symm.trans hidentity
  refine ⟨?_, ?_, ?_, ?_, ?_⟩
  · rw [hresult, KirFunction.computeKirDominators_congr_identity hshape]
  · rw [hunits, KirFunction.dominatorUnits_congr hshape]
  · exact fun e he ↦ h.entry e (hperm.mem_iff.mp he)
  · exact (hperm.map _).nodup_iff.mpr h.nodup
  · exact hperm.length_eq.trans_le h.length_le

/-- What a miss leaves. -/
theorem miss (h : cache.Sound) (hmiss : cachedDominators f.cfgIdentity cache = none) {units : Nat}
    (hunits : units = min u32Max f.dominatorUnits) :
    (cacheDominators ⟨f.cfgIdentity, f.computeKirDominators, units⟩ cache).Sound where
  entry e he := by
    rcases mem_rememberEntry he with rfl | he
    · exact ⟨f, rfl, rfl, hunits⟩
    · exact h.entry e he
  nodup := by
    refine ((List.take_sublist _ _).map _).nodup ?_
    rw [List.map_cons, List.nodup_cons]
    refine ⟨fun hmem ↦ ?_, h.nodup⟩
    obtain ⟨e, he, hidentity⟩ := List.mem_map.mp hmem
    exact recallEntry_eq_none hmiss e he hidentity
  length_le := length_rememberEntry_le

end DominanceCache.Sound

/-- One answer from a sound cache. -/
theorem DominanceQuery.answer_eq (query : DominanceQuery) {cache : DominanceCache}
    (h : cache.Sound) (hremaining : ∀ r ∈ query.remaining, r < u32Max) :
    (query.answer cache).1 = query.plainAnswer ∧ (query.answer cache).2.Sound := by
  obtain ⟨f, remaining⟩ := query
  cases remaining with
  | none =>
      unfold answer plainAnswer KirFunction.cachedKirDominators
      cases hfound : cachedDominators f.cfgIdentity cache with
      | some found =>
          obtain ⟨cached, cache'⟩ := found
          obtain ⟨hresult, -, hsound⟩ := h.hit hfound
          exact ⟨congrArg (fun result ↦ some (result, none)) hresult, hsound⟩
      | none =>
          dsimp only
          rw [KirFunction.computeDominators_countUnits]
          exact ⟨rfl, h.miss hfound rfl⟩
  | some remaining =>
      have hlt : remaining < u32Max := hremaining remaining rfl
      unfold answer plainAnswer KirFunction.cachedKirDominatorsWithBudget
      dsimp only
      rw [KirFunction.computeDominators_spendUnits hlt.le]
      cases hfound : cachedDominators f.cfgIdentity cache with
      | some found =>
          obtain ⟨cached, cache'⟩ := found
          obtain ⟨hresult, hunits, hsound⟩ := h.hit hfound
          refine ⟨?_, hsound⟩
          dsimp only
          rw [hresult, hunits]
          by_cases hle : f.dominatorUnits ≤ remaining
          · rw [if_pos hle, if_pos (by omega), Nat.min_eq_right (by omega)]
            rfl
          · rw [if_neg hle, if_neg (by omega)]
            rfl
      | none =>
          by_cases hle : f.dominatorUnits ≤ remaining
          · rw [if_pos hle]
            exact ⟨rfl, h.miss hfound (by omega)⟩
          · rw [if_neg hle]
            exact ⟨rfl, h⟩

theorem answerQueries_sound (queries : List DominanceQuery) {cache : DominanceCache}
    (hsound : cache.Sound) (h : ∀ query ∈ queries, ∀ r ∈ query.remaining, r < u32Max) :
    (answerQueries queries cache).1 = queries.map DominanceQuery.plainAnswer ∧
      (answerQueries queries cache).2.Sound := by
  induction queries generalizing cache with
  | nil => exact ⟨rfl, hsound⟩
  | cons query queries ih =>
      obtain ⟨hanswer, hsound⟩ := query.answer_eq hsound (h query List.mem_cons_self)
      obtain ⟨hanswers, hsound⟩ := ih hsound fun q hq ↦ h q (List.mem_cons_of_mem _ hq)
      refine ⟨?_, hsound⟩
      rw [List.map_cons, ← hanswer, ← hanswers]
      rfl

theorem DominanceQuery.plainAnswer_table {query : DominanceQuery}
    (h : ∀ r ∈ query.remaining, r < u32Max) :
    ∀ answer ∈ query.plainAnswer, answer.1 = query.function.computeKirDominators := by
  obtain ⟨f, remaining⟩ := query
  intro answer hanswer
  cases remaining with
  | none =>
      cases hanswer
      rfl
  | some remaining =>
      have hlt : remaining < u32Max := h remaining rfl
      rw [Option.mem_def, plainAnswer] at hanswer
      dsimp only at hanswer
      rw [KirFunction.computeDominators_spendUnits hlt.le] at hanswer
      obtain ⟨spent, hspent, rfl⟩ := Option.map_eq_some_iff.mp hanswer
      split at hspent
      · cases hspent
        rfl
      · cases hspent

/-- The cache changes no answer: whatever was asked before, a query gets the table of its own
graph, is charged what the table costs, and fails for lack of budget as it does without the
cache. -/
theorem answerQueries_transparent (queries : List DominanceQuery)
    (h : ∀ query ∈ queries, ∀ r ∈ query.remaining, r < u32Max) :
    (answerQueries queries []).1 = queries.map DominanceQuery.plainAnswer ∧
      (∀ query ∈ queries, ∀ answer ∈ query.plainAnswer,
        answer.1 = query.function.computeKirDominators) ∧
      (answerQueries queries []).2.length ≤ dominanceCacheCapacity ∧
      ((answerQueries queries []).2.map (·.identity)).Nodup := by
  obtain ⟨hanswers, hsound⟩ := answerQueries_sound queries .nil h
  exact ⟨hanswers, fun query hquery ↦ DominanceQuery.plainAnswer_table (h query hquery),
    hsound.length_le, hsound.nodup⟩

/-- A function of a single block. -/
def singleBlock : KirFunction :=
  ⟨0, "single", true, [], .void, [], [], [], [⟨0, "bb0", [], [], [], .return none [] 0⟩]⟩

theorem answerQueries_singleBlock :
    (answerQueries [⟨singleBlock, none⟩, ⟨singleBlock, some 3⟩, ⟨singleBlock, some 9⟩] []).1 =
      [some (singleBlock.computeKirDominators, none), none,
        some (singleBlock.computeKirDominators, some 5)] :=
  ((answerQueries_transparent
    [⟨singleBlock, none⟩, ⟨singleBlock, some 3⟩, ⟨singleBlock, some 9⟩] (by decide)).1).trans rfl

end CalcKernel
