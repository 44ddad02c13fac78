import CalcKernel.Optimizer.ContractFacts
import CalcKernel.Optimizer.PhiPrune
import CalcKernel.Optimizer.ProofSteps

/-!
# When a contract record is true

A record is true where the values that it names have what it says.  Renamed in a clone, it
is true where the values of the clone have it, and environments that agree on the values
it names agree on it.
-/

namespace CalcKernel

open Lib

/-- What contracts say about the memory behind values. -/
structure ContractMeaning where
  noAlias : Option KirValue → Option KirValue → Prop
  effectCeiling : Bool → List (Option KirValue × ContractEffectKind) → Prop

def ContractFactPointer.eval (env : Env) : ContractFactPointer → Option Int
  | .value v => pointerOperand env v
  | .sliceData v => (sliceOperand env v).map (·.1)

/-- A predicate is true of the values of an environment. -/
def FactPredicate.Holds (meaning : ContractMeaning) (env : Env) : FactPredicate → Prop
  | .valueInterval v interval => ∃ x, intOperand env v = some x ∧ interval.Contains x
  | .contract (.comparison operator left right) => ∃ x y, left.eval env = some x ∧
      right.eval env = some y ∧ comparisonHolds operator x y
  | .contract (.multipleOf value modulus) => ∃ x, value.eval env = some x ∧ modulus ∣ x
  | .contract (.noAlias left right) => meaning.noAlias (env left) (env right)
  | .contract (.aligned pointer alignment) => ∃ address, pointer.eval env = some address ∧
      (alignment : Int) ∣ address
  | .contract (.effectCeiling isNone items) =>
      meaning.effectCeiling isNone (items.map fun p ↦ (env p.1, p.2))

section Congruence

variable {env env' : Env}

theorem ContractFactAffineExpression.eval_congr {expression : ContractFactAffineExpression}
    (h : ∀ v ∈ expression.values, env v = env' v) : expression.eval env = expression.eval env' := by
  obtain ⟨terms, constant⟩ := expression
  have hterms : ∀ term ∈ terms, (term.term.eval env).map (term.coefficient * ·) =
      (term.term.eval env').map (term.coefficient * ·) := by
    intro term hterm
    have hv := h _ (List.mem_map_of_mem hterm)
    refine congrArg _ ?_
    cases hkind : term.term with
    | value v =>
        rw [hkind] at hv
        exact intOperand_congr hv
    | sliceLength v =>
        rw [hkind] at hv
        exact congrArg (Option.map _) (sliceOperand_congr hv)
  unfold eval
  dsimp only
  refine congrArg _ ?_
  clear h
  induction terms with
  | nil => rfl
  | cons term terms ih =>
      rw [List.mapM_cons, List.mapM_cons, hterms term List.mem_cons_self,
        ih fun term hterm ↦ hterms term (List.mem_cons_of_mem _ hterm)]

/-- A predicate depends on the values that it names only. -/
theorem FactPredicate.holds_congr {meaning : ContractMeaning} {predicate : FactPredicate}
    (h : ∀ v ∈ predicate.values, env v = env' v) :
    predicate.Holds meaning env ↔ predicate.Holds meaning env' := by
  cases predicate with
  | valueInterval v interval =>
      rw [Holds, Holds, intOperand_congr (h v (List.mem_singleton_self v))]
  | contract predicate =>
      cases predicate with
      | comparison operator left right =>
          rw [Holds, Holds,
            ContractFactAffineExpression.eval_congr fun v hv ↦ h v (List.mem_append_left _ hv),
            ContractFactAffineExpression.eval_congr fun v hv ↦ h v (List.mem_append_right _ hv)]
      | multipleOf value modulus =>
          rw [Holds, Holds, ContractFactAffineExpression.eval_congr h]
      | noAlias left right =>
          rw [Holds, Holds, h left List.mem_cons_self,
            h right (List.mem_cons_of_mem _ List.mem_cons_self)]
      | aligned pointer alignment =>
          cases pointer with
          | value v =>
              rw [Holds, Holds, ContractFactPointer.eval, ContractFactPointer.eval,
                pointerOperand_congr (h v (List.mem_singleton_self v))]
          | sliceData v =>
              rw [Holds, Holds, ContractFactPointer.eval, ContractFactPointer.eval,
                sliceOperand_congr (h v (List.mem_singleton_self v))]
      | effectCeiling isNone items =>
          have hitems : items.map (fun p ↦ (env p.1, p.2)) = items.map fun p ↦ (env' p.1, p.2) :=
            List.map_congr_left fun p hp ↦ by rw [h p.1 (List.mem_map_of_mem hp)]
          rw [Holds, Holds, hitems]

end Congruence

section Renaming

variable (valueMap : List (ValueId × ValueId)) (env : Env)

/-- The values of the clone under their names in the source. -/
def Env.renamed : Env := fun v ↦ env (remapValue valueMap v)

theorem ContractFactAffineTerm.eval_remap (term : ContractFactAffineTerm) :
    (term.remap valueMap).eval env = term.eval (env.renamed valueMap) := by
  cases term <;> rfl

theorem ContractFactAffineExpression.eval_remap (expression : ContractFactAffineExpression) :
    (expression.remap valueMap).eval env = expression.eval (env.renamed valueMap) := by
  obtain ⟨terms, constant⟩ := expression
  unfold remap eval
  dsimp only
  refine congrArg _ ?_
  induction terms with
  | nil => rfl
  | cons term terms ih =>
      rw [List.map_cons, List.mapM_cons, List.mapM_cons, ih, ContractFactAffineTerm.eval_remap]

theorem ContractFactPointer.eval_remap (pointer : ContractFactPointer) :
    (pointer.remap valueMap).eval env = pointer.eval (env.renamed valueMap) := by
  cases pointer <;> rfl

/-- A renamed predicate is true where the values with the new names make the old one true. -/
theorem FactPredicate.holds_remap (meaning : ContractMeaning) (predicate : FactPredicate) :
    (predicate.remap valueMap).Holds meaning env ↔
      predicate.Holds meaning (env.renamed valueMap) := by
  cases predicate with
  | valueInterval v interval => exact Iff.rfl
  | contract predicate =>
      cases predicate with
      | comparison operator left right =>
          rw [remap, ContractFactPredicate.remap, Holds, Holds,
            ContractFactAffineExpression.eval_remap, ContractFactAffineExpression.eval_remap]
      | multipleOf value modulus =>
          rw [remap, ContractFactPredicate.remap, Holds, Holds,
            ContractFactAffineExpression.eval_remap]
      | noAlias left right => exact Iff.rfl
      | aligned pointer alignment =>
          rw [remap, ContractFactPredicate.remap, Holds, Holds, ContractFactPointer.eval_remap]
      | effectCeiling isNone items =>
          rw [remap, ContractFactPredicate.remap, Holds, Holds, List.map_map]
          exact Iff.rfl

end Renaming

/-! ## Records while block parameters are pruned -/

/-- The same records are true in two states, which are in blocks of one name. -/
def ContractFactSet.SameTruth (set : ContractFactSet) (meaning : ContractMeaning) (s s' : State) :
    Prop :=
  s'.frame.block.id = s.frame.block.id ∧ ∀ fact ∈ set.facts.facts,
    fact.predicate.Holds meaning s'.frame.env ↔ fact.predicate.Holds meaning s.frame.env

/-- Two moves to states in which the same records are true, or to one outcome. -/
inductive ContractFactSet.MoveSame (set : ContractFactSet) (meaning : ContractMeaning) :
    Move State Outcome → Move State Outcome → Prop
  | next {s s' : State} (h : set.SameTruth meaning s s') : MoveSame set meaning (.next s) (.next s')
  | halt (o : Outcome) : MoveSame set meaning (.halt o) (.halt o)
  | stuck (move : Move State Outcome) : MoveSame set meaning .stuck move

namespace ContractFactSet

variable {set : ContractFactSet} {meaning : ContractMeaning} {s s' : State}

theorem mem_protectedContractValues {fact : Fact} (hfact : fact ∈ set.facts.facts) {v : ValueId}
    (hv : v ∈ fact.predicate.values) : v ∈ protectedContractValues (some set) :=
  List.mem_append_right _ (List.mem_flatMap.mpr ⟨fact, hfact, hv⟩)

theorem SameTruth.of_pruned (h : StatePruned (protectedContractValues (some set)) s s') :
    set.SameTruth meaning s s' := by
  refine ⟨?_, fun fact hfact ↦ FactPredicate.holds_congr fun v hv ↦ ?_⟩
  · rw [h.frame.block, KirFunction.prunedBlock_id]
  · exact (h.frame.agree v (KirFunction.liveIn_protected (mem_protectedContractValues hfact hv))).symm

/-- The pruned module runs in step, with the same records true after every number of steps. -/
theorem pruned_run {t : TargetModel} {m : KirModule} {name : String} {args : List KirValue}
    {memory : Memory} (h : m.start name args memory = some s) :
    ∃ s', (m.pruned (protectedContractValues (some set))).start name args memory = some s' ∧
      ∀ n, set.MoveSame meaning ((kirMachine t m).run n s)
        ((kirMachine t (m.pruned (protectedContractValues (some set)))).run n s') := by
  obtain ⟨s', hstart, hpruned⟩ : ∃ s', _ = some s' ∧
    StatePruned (protectedContractValues (some set)) s s' := StatePruned.start h
  refine ⟨s', hstart, fun n ↦ ?_⟩
  have hrun : MovePruned _ ((kirMachine t m).run n s) _ := hpruned.run n
  generalize (kirMachine t m).run n s = move at hrun
  generalize (kirMachine t (m.pruned _)).run n s' = move' at hrun
  cases hrun with
  | next h => exact .next (.of_pruned h)
  | halt o => exact .halt o
  | stuck => exact .stuck _

end ContractFactSet

/-! ## What is left of a pruned function -/

namespace KirFunction

variable {f : KirFunction} {protected_ : List ValueId}

theorem pruned_blockIds : (f.pruned protected_).blockIds = f.blockIds := by
  rw [pruned_eq, blockIds, blockIds, List.map_map]
  exact List.map_congr_left fun b _ ↦ prunedBlock_id

/-- A value that is live is defined after pruning where it was before. -/
theorem mem_valueIds_pruned {v : ValueId} (hv : v ∈ f.valueIds) (hlive : f.LiveIn protected_ v) :
    v ∈ (f.pruned protected_).valueIds := by
  rw [pruned_eq]
  rcases List.mem_append.mp hv with hv | hv
  · exact List.mem_append_left _ hv
  · obtain ⟨b, hb, hv⟩ := List.mem_flatMap.mp hv
    refine List.mem_append_right _ (List.mem_flatMap.mpr
      ⟨f.prunedBlock protected_ b, List.mem_map_of_mem hb, ?_⟩)
    rw [prunedBlock_instructions]
    rcases List.mem_append.mp hv with hv | hv
    · refine List.mem_append_left _ ?_
      unfold prunedBlock
      split
      · exact hv
      · rename_i live heq
        obtain ⟨p, hp, rfl⟩ := List.mem_map.mp hv
        exact List.mem_map_of_mem (List.mem_filter.mpr ⟨hp, decide_eq_true (hlive live heq)⟩)
    · exact List.mem_append_right _ hv

end KirFunction

end CalcKernel
