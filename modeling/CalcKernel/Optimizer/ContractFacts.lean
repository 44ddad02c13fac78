import CalcKernel.Optimizer.Facts
import CalcKernel.Lib.Assoc
import CalcKernel.Lib.Search

/-!
# Contract facts

The facts that unsafe contracts bring in, each for one entry, call or inlined clone.  Sets
of them are rebuilt when blocks have gone, and a clone is added for what is inlined.
-/

namespace CalcKernel

open Lib

/-- How many identities an arena has. -/
def arenaIdentities : Nat := 4294967296

namespace FactArena

variable (arena : FactArena)

def tryInsert (origin : FactOrigin) (scope : FactScope) (predicate : FactPredicate)
    (derivation : FactDerivation) : Except String (FactId × FactArena) :=
  match derivation.dependencies.find? fun dependency ↦ (arena.get dependency).isNone with
  | some dependency =>
      .error ("fact dependency fact" ++ toString dependency ++ " is not already defined")
  | none =>
      if arena.facts.length < arenaIdentities then
        .ok (arena.facts.length, { arena with facts := arena.facts ++
          [⟨arena.facts.length, origin, scope, predicate, derivation, arena.generation⟩] })
      else .error "fact arena exceeds u32 identity space"

end FactArena

structure ContractFactBinding where
  parameter : String
  value : ValueId
deriving DecidableEq, Repr

/-- Where a contract instance comes from. -/
inductive ContractInstanceSource where
  | functionEntry
  | call (caller : FunctionId) (block : BlockId) (instruction : InstructionId)
  | inlineClone (source : ContractInstanceId) (function : FunctionId) (clone : Nat)
deriving DecidableEq, Repr

/-- One import of the contract of an unsafe function. -/
structure ContractFactInstance where
  id : ContractInstanceId
  callee : FunctionId
  source : ContractInstanceSource
  bindings : List ContractFactBinding
  facts : List FactId
deriving DecidableEq, Repr

structure ContractFactSet where
  facts : FactArena
  instances : List ContractFactInstance
deriving DecidableEq, Repr

/-- The instances that an instance was cloned from. -/
def ContractFactInstance.ancestors (instance_ : ContractFactInstance) : List ContractInstanceId :=
  match instance_.source with
  | .inlineClone source _ _ => [source]
  | .functionEntry | .call _ _ _ => []

namespace KirModule

variable (m : KirModule)

def hasFunction (function : FunctionId) : Bool := m.functions.any (·.id = function)

def hasBlock (function : FunctionId) (block : BlockId) : Bool :=
  m.functions.any fun f ↦ f.id = function && f.blocks.any (·.id = block)

def hasCall (caller : FunctionId) (block : BlockId) (instruction : InstructionId) : Bool :=
  m.functions.any fun f ↦ f.id = caller && f.blocks.any fun b ↦ b.id = block &&
    b.instructions.any fun i ↦ i.id = instruction &&
      match i.kind with
      | .call _ _ => true
      | _ => false

end KirModule

namespace ContractFactSet

variable (set : ContractFactSet)

def instance? (id : ContractInstanceId) : Option ContractFactInstance :=
  (set.instances[id]?).filter (·.id = id)

/-! ## Imports -/

def nextContractInstanceId : Except String ContractInstanceId :=
  if set.instances.length < arenaIdentities then .ok set.instances.length
  else .error "contract instance arena exceeds u32 space"

/-- Appends the facts of one instance, all trusted leaves in one scope. -/
def insertLeaves (arena : FactArena) (instance_ : ContractInstanceId) (scope : FactScope)
    (predicates : List FactPredicate) : Except String (List FactId × FactArena) :=
  predicates.foldlM (fun (ids, arena) predicate ↦
    (arena.tryInsert (.trustedContract instance_) scope predicate .trustedContractLeaf).map
      fun (id, arena) ↦ (ids ++ [id], arena)) ([], arena)

/-- `append_contract_instance`, with the predicates already lowered. -/
def appendContractInstance (callee : FunctionId) (source : ContractInstanceSource)
    (bindings : List ContractFactBinding) (predicates : List ContractFactPredicate)
    (scope : FactScope) : Except String ContractFactSet := do
  let id ← set.nextContractInstanceId
  let (facts, arena) ← insertLeaves set.facts id scope (predicates.map .contract)
  return ⟨arena, set.instances ++ [⟨id, callee, source, bindings, facts⟩]⟩

/-! ## Rebuilding after blocks have gone -/

def isLive (m : KirModule) (instance_ : ContractFactInstance) : Bool :=
  match instance_.source with
  | .functionEntry => m.hasFunction instance_.callee
  | .call caller block instruction => m.hasCall caller block instruction
  | .inlineClone _ function _ => (instance_.facts.filterMap set.facts.get).any fun fact ↦
      match fact.scope with
      | .inlineClone _ _ blocks => blocks.any (m.hasBlock function)
      | _ => false

def liveInstances (m : KirModule) : List ContractInstanceId :=
  (set.instances.filter (set.isLive m)).map (·.id)

/-- The live instances and all that they were cloned from; `none` when one is missing. -/
def neededInstances (m : KirModule) : Option (List ContractInstanceId) :=
  (search (fun id ↦ (set.instance? id).map (·.ancestors))
    ((set.liveInstances m).length + set.instances.length) (set.liveInstances m)).map sortedSet

/-- The scope of a fact of a retained instance. -/
def retainScope (m : KirModule) (live : Bool) (id : ContractInstanceId) : FactScope → FactScope
  | .calleeInstance _ callee => .calleeInstance id callee
  | .inlineClone function clone blocks =>
      if live then .inlineClone function clone (blocks.filter (m.hasBlock function))
      else .inlineClone function clone blocks
  | scope => scope

def retainFact (m : KirModule) (live : Bool) (instance_ : ContractFactInstance)
    (id : ContractInstanceId) (rebuilt : List FactId × FactArena) (old : FactId) :
    Except String (List FactId × FactArena) :=
  match set.facts.get old with
  | none => .error "CFG import names a missing fact"
  | some fact =>
      if fact.origin ≠ .trustedContract instance_.id ∨ fact.derivation ≠ .trustedContractLeaf then
        .error "CFG cannot promote a derived fact to a contract axiom"
      else
        (rebuilt.2.tryInsert (.trustedContract id) (retainScope m live id fact.scope)
          fact.predicate .trustedContractLeaf).map fun (id, arena) ↦ (rebuilt.1 ++ [id], arena)

def retainSource (needed : List ContractInstanceId) :
    ContractInstanceSource → Except String ContractInstanceSource
  | .inlineClone source function clone =>
      if source ∈ needed then .ok (.inlineClone (needed.idxOf source) function clone)
      else .error "missing retained contract ancestor"
  | source => .ok source

def retainInstance (m : KirModule) (needed : List ContractInstanceId) (rebuilt : ContractFactSet)
    (instance_ : ContractFactInstance) : Except String ContractFactSet := do
  let id := needed.idxOf instance_.id
  let source ← retainSource needed instance_.source
  let (facts, arena) ← instance_.facts.foldlM
    (set.retainFact m (instance_.id ∈ set.liveInstances m) instance_ id) ([], rebuilt.facts)
  return ⟨arena, rebuilt.instances ++
    [⟨id, instance_.callee, source, instance_.bindings, facts⟩]⟩

def retainCfgImports (m : KirModule) : Except String (Bool × ContractFactSet) := do
  let some needed := set.neededInstances m |
    throw "CFG import names a missing contract ancestor"
  if arenaIdentities < needed.length then
    throw "contract instance arena exceeds u32 identity space"
  let rebuilt ← (set.instances.filter (·.id ∈ needed)).foldlM (set.retainInstance m needed)
    ⟨⟨set.facts.generation, []⟩, []⟩
  return (set ≠ rebuilt, rebuilt)

end ContractFactSet

/-! ## Clones -/

def remapValue (valueMap : List (ValueId × ValueId)) (v : ValueId) : ValueId :=
  (valueMap.lookup v).getD v

def ContractFactAffineTerm.remap (valueMap : List (ValueId × ValueId)) :
    ContractFactAffineTerm → ContractFactAffineTerm
  | .value v => .value (remapValue valueMap v)
  | .sliceLength v => .sliceLength (remapValue valueMap v)

def ContractFactAffineExpression.remap (valueMap : List (ValueId × ValueId))
    (expression : ContractFactAffineExpression) : ContractFactAffineExpression :=
  { expression with terms := expression.terms.map fun term ↦
      { term with term := term.term.remap valueMap } }

def ContractFactPointer.remap (valueMap : List (ValueId × ValueId)) :
    ContractFactPointer → ContractFactPointer
  | .value v => .value (remapValue valueMap v)
  | .sliceData v => .sliceData (remapValue valueMap v)

def ContractFactPredicate.remap (valueMap : List (ValueId × ValueId)) :
    ContractFactPredicate → ContractFactPredicate
  | .comparison operator left right =>
      .comparison operator (left.remap valueMap) (right.remap valueMap)
  | .multipleOf value modulus => .multipleOf (value.remap valueMap) modulus
  | .noAlias left right => .noAlias (remapValue valueMap left) (remapValue valueMap right)
  | .aligned pointer alignment => .aligned (pointer.remap valueMap) alignment
  | .effectCeiling isNone items =>
      .effectCeiling isNone (items.map fun p ↦ (remapValue valueMap p.1, p.2))

def FactPredicate.remap (valueMap : List (ValueId × ValueId)) : FactPredicate → FactPredicate
  | .valueInterval v interval => .valueInterval (remapValue valueMap v) interval
  | .contract predicate => .contract (predicate.remap valueMap)

def ContractFactSet.cloneContractInstanceForInline (imported : ContractFactSet)
    (source : ContractInstanceId) (function : FunctionId) (clone : Nat) (blocks : List BlockId)
    (valueMap : List (ValueId × ValueId)) : Except String (ContractInstanceId × ContractFactSet) :=
  match imported.instance? source with
  | none => .error ("contract instance ci" ++ toString source ++ " is not defined")
  | some sourceInstance => do
      let id ← imported.nextContractInstanceId
      let (facts, arena) ← ContractFactSet.insertLeaves imported.facts id
        (.inlineClone function clone (sortedSet blocks))
        ((sourceInstance.facts.filterMap imported.facts.get).map (·.predicate.remap valueMap))
      return (id, ⟨arena, imported.instances ++ [⟨id, sourceInstance.callee,
        .inlineClone source function clone,
        sourceInstance.bindings.map fun binding ↦
          ⟨binding.parameter, remapValue valueMap binding.value⟩, facts⟩]⟩)

/-! ## Use -/

structure FactUseSite where
  function : FunctionId
  block : BlockId
  instruction : Option InstructionId
  contractInstance : Option ContractInstanceId
deriving DecidableEq, Repr

/-- Does a scope of an instance contain a site?  The blocks of a clone are sorted, so that a binary
search finds those that are contained. -/
def FactScope.contains (instance_ : ContractInstanceId) (site : FactUseSite) : FactScope → Bool
  | .functionEntry function => function = site.function
  | .block function id => function = site.function && id = site.block
  | .calleeInstance instance' callee =>
      callee = site.function && instance' = instance_ && site.contractInstance = some instance_
  | .inlineClone function _ blocks =>
      function = site.function && site.contractInstance = some instance_ &&
        blocks.contains site.block

def contractFactDominatesAt (imported : ContractFactSet) (fact : FactId) (site : FactUseSite) :
    Bool :=
  match imported.facts.get fact with
  | none => false
  | some fact =>
      match fact.origin with
      | .proven => false
      | .trustedContract instance_ =>
          if site.contractInstance.isSome ∧ site.contractInstance ≠ some instance_ then false
          else fact.scope.contains instance_ site

def ContractFactAffineExpression.values (expression : ContractFactAffineExpression) :
    List ValueId :=
  expression.terms.map fun term ↦
    match term.term with
    | .value v | .sliceLength v => v

/-- The values that a predicate names. -/
def FactPredicate.values : FactPredicate → List ValueId
  | .valueInterval v _ => [v]
  | .contract (.comparison _ left right) => left.values ++ right.values
  | .contract (.multipleOf value _) => value.values
  | .contract (.noAlias left right) => [left, right]
  | .contract (.aligned (.value v) _) | .contract (.aligned (.sliceData v) _) => [v]
  | .contract (.effectCeiling _ items) => items.map (·.1)

def protectedContractValues (contracts : Option ContractFactSet) : List ValueId :=
  match contracts with
  | none => []
  | some contracts => (contracts.instances.flatMap (·.bindings)).map (·.value) ++
      contracts.facts.facts.flatMap (·.predicate.values)

end CalcKernel
